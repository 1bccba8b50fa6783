import MyDB.Lib.Lookahead
import MyDB.Parser.Parser

/-! The grammar of the statements, with the tree that each derivation denotes.
Expressions are given by their derivations and, level by level, as languages
over the level below; statements as languages. The signatures say what can begin
and what can continue a word of each. -/

namespace MyDB.Parser
open Lib

/-! ## Terminals -/

/-- The token is an integer literal of value `v` that `int32_t` holds. -/
structure Numeral (t : Token) (v : Int) : Prop where
  type_eq : t.type = .intLiteral
  ne_nil : t.value ≠ []
  digits : ∀ c ∈ t.value, isDigit c
  value_eq : v = digitsValue t.value
  le_max : v ≤ 2147483647

/-- An integer literal is a string of digits, as the lexer makes them. -/
def Token.WellFormed (t : Token) : Prop :=
  t.type = .intLiteral → t.value ≠ [] ∧ ∀ c ∈ t.value, isDigit c

def alphabet : Alphabet Token TokenType := ⟨Token.type, Token.WellFormed⟩

def tok (k : TokenType) : Lang Token Token := Lang.tok alphabet.kind k

def numeral : Lang Token Int := fun us v => ∃ t, us = [t] ∧ Numeral t v

/-- A terminal for the kinds of token that `f` has a value for. -/
def oneOf {α : Type} (f : TokenType → Option α) : Lang Token α := fun us a => ∃ t, us = [t] ∧ f t.type = some a

/-! ## Expressions -/

inductive Level where
  | expr | and | not | cmp | prim
  deriving DecidableEq, Repr

/-- `Derives level us e`: the tokens `us` are derived from the nonterminal, with the tree `e`. -/
inductive Derives : Level → List Token → Expr → Prop
  | exprAnd {us : List Token} {e : Expr} : Derives .and us e → Derives .expr us e
  | or {us vs : List Token} {t : Token} {l r : Expr} : Derives .expr us l → t.type = .or →
      Derives .and vs r → Derives .expr (us ++ t :: vs) (.binaryOp .or l r)
  | andNot {us : List Token} {e : Expr} : Derives .not us e → Derives .and us e
  | and {us vs : List Token} {t : Token} {l r : Expr} : Derives .and us l → t.type = .and →
      Derives .not vs r → Derives .and (us ++ t :: vs) (.binaryOp .and l r)
  | notCmp {us : List Token} {e : Expr} : Derives .cmp us e → Derives .not us e
  | not {us : List Token} {t : Token} {e : Expr} : t.type = .not → Derives .cmp us e →
      Derives .not (t :: us) (.not e)
  | cmpPrim {us : List Token} {e : Expr} : Derives .prim us e → Derives .cmp us e
  | cmp {us vs : List Token} {t : Token} {op : BinaryOp} {l r : Expr} : Derives .prim us l →
      comparisonOp t.type = some op → Derives .prim vs r → Derives .cmp (us ++ t :: vs) (.binaryOp op l r)
  | paren {us : List Token} {t t' : Token} {e : Expr} : t.type = .lparen → Derives .expr us e →
      t'.type = .rparen → Derives .prim (t :: (us ++ [t'])) e
  | star {t : Token} : t.type = .star → Derives .prim [t] .star
  | int {t : Token} {v : Int} : Numeral t v → Derives .prim [t] (.intLiteral v)
  | string {t : Token} : t.type = .stringLiteral → Derives .prim [t] (.stringLiteral t.value)
  | aggStar {t t₁ t₂ t₃ : Token} {f : AggFunc} : aggName t.type = some f → t₁.type = .lparen →
      t₂.type = .star → t₃.type = .rparen → Derives .prim [t, t₁, t₂, t₃] (.aggregateStar f)
  | agg {t t₁ t₂ : Token} {us : List Token} {f : AggFunc} {e : Expr} : aggName t.type = some f →
      t₁.type = .lparen → Derives .expr us e → (∀ x ∈ us.head?, x.type ≠ .star) → t₂.type = .rparen →
      Derives .prim (t :: t₁ :: (us ++ [t₂])) (.aggregate f e)
  | column {t : Token} : t.type = .identifier → Derives .prim [t] (.columnRef [] t.value)
  | qualified {t t₁ t₂ : Token} : t.type = .identifier → t₁.type = .dot → t₂.type = .identifier →
      Derives .prim [t, t₁, t₂] (.columnRef t.value t₂.value)

/-- `operand {type operand}`, grouped to the left. -/
def chain (type : TokenType) (op : BinaryOp) (operand : Lang Token Expr) : Lang Token Expr := do
  let left ← operand
  Lang.Iter (fun left => do
    let _ ← tok type
    let right ← operand
    return .binaryOp op left right) left

def notOf (cmp : Lang Token Expr) : Lang Token Expr :=
  .alt (do
    let _ ← tok .not
    let e ← cmp
    return .not e) cmp

def cmpOf (prim : Lang Token Expr) : Lang Token Expr := do
  let left ← prim
  .alt (do
    let op ← oneOf comparisonOp
    let right ← prim
    return .binaryOp op left right) (return left)

def aggOf (expr : Lang Token Expr) (f : AggFunc) : Lang Token Expr := do
  let _ ← tok .lparen
  .alt (do
    let _ ← tok .star
    let _ ← tok .rparen
    return .aggregateStar f)
    (do
      let e ← Lang.without alphabet.kind [.star] expr
      let _ ← tok .rparen
      return .aggregate f e)

def columnOf (name : Str) : Lang Token Expr :=
  .alt (do
    let _ ← tok .dot
    let col ← tok .identifier
    return .columnRef name col.value) (return .columnRef [] name)

def primOf (expr : Lang Token Expr) : Lang Token Expr :=
  .alt (do
    let _ ← tok .lparen
    let e ← expr
    let _ ← tok .rparen
    return e) <|
  .alt (do
    let _ ← tok .star
    return .star) <|
  .alt (do
    let v ← numeral
    return .intLiteral v) <|
  .alt (do
    let t ← tok .stringLiteral
    return .stringLiteral t.value) <|
  .alt (do
    let f ← oneOf aggName
    aggOf expr f) <|
  .alt (do
    let t ← tok .identifier
    columnOf t.value) .empty

def body : Level → Lang Token Expr
  | .expr => chain .or .or (Derives .and)
  | .and => chain .and .and (Derives .not)
  | .not => notOf (Derives .cmp)
  | .cmp => cmpOf (Derives .prim)
  | .prim => primOf (Derives .expr)

theorem chain_one {type : TokenType} {op : BinaryOp} {X : Lang Token Expr} {us : List Token} {e : Expr}
    (h : X us e) : chain type op X us e := ⟨us, [], e, (List.append_nil us).symm, h, .done e⟩

theorem chain_snoc {type : TokenType} {op : BinaryOp} {X : Lang Token Expr} {us vs : List Token}
    {t : Token} {l r : Expr} (h : chain type op X us l) (ht : t.type = type) (hr : X vs r) :
    chain type op X (us ++ t :: vs) (.binaryOp op l r) := by
  obtain ⟨us₁, us₂, a, rfl, ha, hi⟩ := h
  refine ⟨us₁, us₂ ++ t :: vs, a, List.append_assoc .., ha, hi.snoc ?_⟩
  exact ⟨[t], vs, t, rfl, ⟨rfl, ht⟩, vs, [], r, (List.append_nil vs).symm, hr, rfl, rfl⟩

theorem chain_induction {type : TokenType} {op : BinaryOp} {X Y : Lang Token Expr}
    (one : ∀ {us e}, X us e → Y us e)
    (more : ∀ {us vs t l r}, Y us l → t.type = type → X vs r → Y (us ++ t :: vs) (.binaryOp op l r))
    {us : List Token} {e : Expr} (h : chain type op X us e) : Y us e := by
  obtain ⟨us, vs, a, rfl, ha, hi⟩ := h
  have hy := one ha
  clear ha
  induction hi generalizing us with
  | done => rwa [List.append_nil]
  | step hk hs ih =>
    obtain ⟨_, _, t, rfl, ⟨rfl, ht⟩, ws, _, r, rfl, hr, rfl, rfl⟩ := hk
    have := ih _ (more hy ht hr)
    rw [List.append_nil, ← List.append_assoc]
    exact this

theorem derives_body {level : Level} {us : List Token} {e : Expr} (h : Derives level us e) :
    body level us e := by
  induction h with
  | exprAnd h => exact chain_one h
  | or _ ht hr ihl => exact chain_snoc ihl ht hr
  | andNot h => exact chain_one h
  | and _ ht hr ihl => exact chain_snoc ihl ht hr
  | notCmp h => exact Or.inr h
  | not ht h => exact Or.inl ⟨[_], _, _, rfl, ⟨rfl, ht⟩, _, [], _, (List.append_nil _).symm, h, rfl, rfl⟩
  | cmpPrim h => exact ⟨_, [], _, (List.append_nil _).symm, h, Or.inr ⟨rfl, rfl⟩⟩
  | cmp hl ht hr =>
    exact ⟨_, _, _, rfl, hl, Or.inl ⟨[_], _, _, rfl, ⟨_, rfl, ht⟩, _, [], _, (List.append_nil _).symm, hr,
      rfl, rfl⟩⟩
  | paren ht h ht' =>
    exact Or.inl ⟨[_], _, _, rfl, ⟨rfl, ht⟩, _, _, _, rfl, h, [_], [], _, rfl, ⟨rfl, ht'⟩, rfl, rfl⟩
  | star ht => exact Or.inr (Or.inl ⟨[_], [], _, rfl, ⟨rfl, ht⟩, rfl, rfl⟩)
  | int hn => exact Or.inr (Or.inr (Or.inl ⟨[_], [], _, rfl, ⟨_, rfl, hn⟩, rfl, rfl⟩))
  | string ht => exact Or.inr (Or.inr (Or.inr (Or.inl ⟨[_], [], _, rfl, ⟨rfl, ht⟩, rfl, rfl⟩)))
  | aggStar hf h₁ h₂ h₃ =>
    exact Or.inr (Or.inr (Or.inr (Or.inr (Or.inl ⟨[_], _, _, rfl, ⟨_, rfl, hf⟩, [_], _, _, rfl, ⟨rfl, h₁⟩,
      Or.inl ⟨[_], _, _, rfl, ⟨rfl, h₂⟩, [_], [], _, rfl, ⟨rfl, h₃⟩, rfl, rfl⟩⟩))))
  | agg hf h₁ h hs h₂ =>
    refine Or.inr (Or.inr (Or.inr (Or.inr (Or.inl ⟨[_], _, _, rfl, ⟨_, rfl, hf⟩, [_], _, _, rfl, ⟨rfl, h₁⟩,
      Or.inr ⟨_, _, _, rfl, ⟨h, fun t ht hmem => ?_⟩, [_], [], _, rfl, ⟨rfl, h₂⟩, rfl, rfl⟩⟩))))
    exact hs t ht (List.mem_singleton.mp hmem)
  | column ht =>
    exact Or.inr (Or.inr (Or.inr (Or.inr (Or.inr (Or.inl ⟨[_], [], _, rfl, ⟨rfl, ht⟩,
      Or.inr ⟨rfl, rfl⟩⟩)))))
  | qualified ht h₁ h₂ =>
    exact Or.inr (Or.inr (Or.inr (Or.inr (Or.inr (Or.inl ⟨[_], _, _, rfl, ⟨rfl, ht⟩,
      Or.inl ⟨[_], _, _, rfl, ⟨rfl, h₁⟩, [_], [], _, rfl, ⟨rfl, h₂⟩, rfl, rfl⟩⟩)))))

theorem body_derives {level : Level} {us : List Token} {e : Expr} (h : body level us e) :
    Derives level us e := by
  cases level with
  | expr => exact chain_induction .exprAnd .or h
  | and => exact chain_induction .andNot .and h
  | not =>
    rcases h with ⟨_, _, t, rfl, ⟨rfl, ht⟩, vs, _, e, rfl, he, rfl, rfl⟩ | h
    · rw [List.append_nil]
      exact .not ht he
    · exact .notCmp h
  | cmp =>
    rcases h with ⟨vs, _, l, rfl, hl, ⟨_, _, op, rfl, ⟨t, rfl, ht⟩, ws, _, r, rfl, hr, rfl, rfl⟩ | ⟨rfl, rfl⟩⟩
    · rw [List.append_nil]
      exact .cmp hl ht hr
    · rw [List.append_nil]
      exact .cmpPrim hl
  | prim =>
    rcases h with ⟨_, _, t, rfl, ⟨rfl, ht⟩, vs, _, e, rfl, he, _, _, t', rfl, ⟨rfl, ht'⟩, rfl, rfl⟩ |
      ⟨_, _, t, rfl, ⟨rfl, ht⟩, rfl, rfl⟩ | ⟨_, _, n, rfl, ⟨t, rfl, hn⟩, rfl, rfl⟩ |
      ⟨_, _, t, rfl, ⟨rfl, ht⟩, rfl, rfl⟩ | ⟨_, _, f, rfl, ⟨t, rfl, hf⟩, _, _, t₁, rfl, ⟨rfl, h₁⟩, h⟩ |
      ⟨_, _, t, rfl, ⟨rfl, ht⟩, h⟩ | h
    · exact .paren ht he ht'
    · exact .star ht
    · exact .int hn
    · exact .string ht
    · rcases h with ⟨_, _, t₂, rfl, ⟨rfl, h₂⟩, _, _, t₃, rfl, ⟨rfl, h₃⟩, rfl, rfl⟩ |
        ⟨vs, _, e, rfl, ⟨he, hs⟩, _, _, t₂, rfl, ⟨rfl, h₂⟩, rfl, rfl⟩
      · exact .aggStar hf h₁ h₂ h₃
      · exact .agg hf h₁ he (fun x hx => fun hx' => hs x hx (List.mem_singleton.mpr hx')) h₂
    · rcases h with ⟨_, _, t₁, rfl, ⟨rfl, h₁⟩, _, _, t₂, rfl, ⟨rfl, h₂⟩, rfl, rfl⟩ | ⟨rfl, rfl⟩
      · exact .qualified ht h₁ h₂
      · exact .column ht
    · exact h.elim

theorem derives_eq (level : Level) : Derives level = body level := by
  funext us e
  exact propext ⟨derives_body, body_derives⟩

/-! ## Signatures of the expression levels -/

def comparisonTokens : List TokenType := [.eq, .lt, .gt, .leq, .geq, .neq]

def aggTokens : List TokenType := [.count, .sum, .avg, .min, .max]

def primTokens : List TokenType :=
  [.lparen, .star, .intLiteral, .stringLiteral, .identifier] ++ aggTokens

def Level.sig : Level → Sig TokenType
  | .expr => ⟨.not :: primTokens, [.or, .and, .dot] ++ comparisonTokens, false⟩
  | .and => ⟨.not :: primTokens, [.and, .dot] ++ comparisonTokens, false⟩
  | .not => ⟨.not :: primTokens, .dot :: comparisonTokens, false⟩
  | .cmp => ⟨primTokens, .dot :: comparisonTokens, false⟩
  | .prim => ⟨primTokens, [.dot], false⟩

section Signatures
variable {n : Nat} {k : TokenType}

theorem wellFormed_of_ne (hk : k ≠ .intLiteral) (t : Token) (ht : alphabet.kind t = k) : alphabet.Wf t :=
  fun h => absurd (ht.symm.trans h) hk

theorem tok_ll (hk : k ≠ .intLiteral) : LL alphabet n (tok k) (.tok k) := LL.tok (wellFormed_of_ne hk)

theorem single_ll {α : Type} {R : Token → α → Prop} {ks : List TokenType}
    (hks : ∀ {t a}, R t a → t.type ∈ ks) (hwf : ∀ {t a}, R t a → t.WellFormed)
    (hdet : ∀ {t a b}, R t a → R t b → a = b) :
    LL alphabet n (fun us a => ∃ t, us = [t] ∧ R t a) ⟨ks, [], false⟩ where
  first := by
    rintro t us a - ⟨t', h, hr⟩
    cases h
    exact hks hr
  cont := by
    rintro us t vs a b - ⟨t', rfl, -⟩ ⟨t'', h, -⟩
    cases h
  nullable := by
    refine ⟨?_, Bool.noConfusion⟩
    rintro ⟨a, t, h, -⟩
    cases h
  det := by
    rintro us a b - ⟨t, rfl, ha⟩ ⟨t', h, hb⟩
    cases h
    exact hdet ha hb
  wf := by
    rintro us a - ⟨t, rfl, hr⟩ x hx
    obtain rfl := List.mem_singleton.mp hx
    exact hwf hr

theorem numeral_ll : LL alphabet n numeral ⟨[.intLiteral], [], false⟩ :=
  single_ll (fun h => List.mem_singleton.mpr h.type_eq) (fun h _ => ⟨h.ne_nil, h.digits⟩)
    (fun h h' => h.value_eq.trans h'.value_eq.symm)

theorem oneOf_ll {α : Type} {f : TokenType → Option α} {ks : List TokenType}
    (hks : ∀ k a, f k = some a → k ∈ ks) (hint : TokenType.intLiteral ∉ ks) :
    LL alphabet n (oneOf f) ⟨ks, [], false⟩ :=
  single_ll (fun h => hks _ _ h) (fun h hk => absurd (hk ▸ hks _ _ h) hint)
    (fun h h' => Option.some.inj (h.symm.trans h'))

theorem mem_comparisonTokens (k : TokenType) (op : BinaryOp) (h : comparisonOp k = some op) :
    k ∈ comparisonTokens := by
  cases k <;> first | decide | cases h

theorem mem_aggTokens (k : TokenType) (f : AggFunc) (h : aggName k = some f) : k ∈ aggTokens := by
  cases k <;> first | decide | cases h

theorem chain_ll {op : BinaryOp} {X : Lang Token Expr} {s s' : Sig TokenType} (hk : k ≠ .intLiteral)
    (hX : LL alphabet n X s) (hap : k ∉ s.cont) (hle : (s.bind (.iter k (s.bind .pure))).Le s') :
    LL alphabet n (chain k op X) s' := by
  refine (LL.bind hX (fun l => LL.iter (wellFormed_of_ne hk)
    (fun l m hm => LL.bind (hX.of_le hm) (fun r => LL.pure _) ?_) ?_ l) ?_).mono hle
  · exact fun _ _ h => List.not_mem_nil h
  · simpa [Sig.bind, Sig.pure] using hap
  · intro k' hk' hmem
    obtain rfl := List.mem_singleton.mp hmem
    exact hap hk'

theorem notOf_ll {C : Lang Token Expr} (hC : LL alphabet n C Level.cmp.sig) :
    LL alphabet n (notOf C) Level.not.sig := by
  refine (LL.alt (LL.tok_bind (wellFormed_of_ne (by decide)) fun _ _ =>
    LL.bind (hC.of_le (Nat.sub_le ..)) (fun e => LL.pure _) ?_) hC ?_ ?_).mono ?_
  all_goals decide

theorem cmpOf_ll {X : Lang Token Expr} (hX : LL alphabet n X Level.prim.sig) :
    LL alphabet n (cmpOf X) Level.cmp.sig := by
  refine (LL.bind hX (fun l => LL.alt (LL.bind (oneOf_ll mem_comparisonTokens (by decide)) (fun op =>
    LL.bind hX (fun r => LL.pure _) ?_) ?_) (LL.pure l) ?_ ?_) ?_).mono ?_
  all_goals decide

theorem aggOf_ll {E : Lang Token Expr} (hE : 0 < n → LL alphabet (n - 1) E Level.expr.sig) (f : AggFunc) :
    LL alphabet n (aggOf E f) (.tok .lparen) := by
  refine (LL.tok_bind (s := ⟨.star :: Level.expr.sig.first, [], false⟩) (wellFormed_of_ne (by decide))
    fun _ hn => ?_).mono (by decide)
  refine (LL.alt (LL.bind (tok_ll ?_) (fun _ => LL.bind (tok_ll ?_) (fun _ => LL.pure _) ?_) ?_)
    (LL.bind (hE hn).without (fun e => LL.bind (tok_ll ?_) (fun _ => LL.pure _) ?_) ?_) ?_ ?_).mono ?_
  all_goals decide

theorem columnOf_ll (name : Str) : LL alphabet n (columnOf name) ⟨[.dot], [.dot], true⟩ := by
  refine (LL.alt (LL.bind (tok_ll ?_) (fun _ => LL.bind (tok_ll ?_) (fun _ => LL.pure _) ?_) ?_)
    (LL.pure _) ?_ ?_).mono ?_
  all_goals decide

theorem primOf_ll {E : Lang Token Expr} (hE : 0 < n → LL alphabet (n - 1) E Level.expr.sig) :
    LL alphabet n (primOf E) Level.prim.sig := by
  have hparen : LL alphabet n (do
      let _ ← tok .lparen
      let e ← E
      let _ ← tok .rparen
      return e) (.tok .lparen) := by
    refine (LL.tok_bind (s := .bind Level.expr.sig ((Sig.tok .rparen).bind .pure))
      (wellFormed_of_ne ?_) fun _ hn => LL.bind (hE hn)
        (fun e => LL.bind (tok_ll ?_) (fun _ => LL.pure _) ?_) ?_).mono ?_
    all_goals decide
  refine (LL.alt hparen (LL.alt (LL.bind (tok_ll ?_) (fun _ => LL.pure _) ?_)
    (LL.alt (LL.bind numeral_ll (fun _ => LL.pure _) ?_)
      (LL.alt (LL.bind (tok_ll ?_) (fun _ => LL.pure _) ?_)
        (LL.alt (LL.bind (oneOf_ll mem_aggTokens (by decide)) (fun f => aggOf_ll hE f) ?_)
          (LL.alt (LL.bind (tok_ll ?_) (fun t => columnOf_ll t.value) ?_) LL.empty ?_ ?_)
          ?_ ?_) ?_ ?_) ?_ ?_) ?_ ?_) ?_ ?_).mono ?_
  all_goals decide

end Signatures

/-- The induction is on the number of tokens: a primary expression nests a
shorter one, and the levels of one length follow from each other. -/
theorem derives_ll (n : Nat) (level : Level) : LL alphabet n (Derives level) level.sig := by
  induction n using Nat.strong_induction_on generalizing level with
  | _ n ih =>
    have hprim : LL alphabet n (Derives .prim) Level.prim.sig := by
      rw [derives_eq]
      exact primOf_ll fun hn => ih (n - 1) (by omega) .expr
    have hcmp : LL alphabet n (Derives .cmp) Level.cmp.sig := by
      rw [derives_eq]
      exact cmpOf_ll hprim
    have hnot : LL alphabet n (Derives .not) Level.not.sig := by
      rw [derives_eq]
      exact notOf_ll hcmp
    have hand : LL alphabet n (Derives .and) Level.and.sig := by
      rw [derives_eq]
      exact chain_ll (by decide) hnot (by decide) (by decide)
    cases level with
    | expr =>
      rw [derives_eq]
      exact chain_ll (by decide) hand (by decide) (by decide)
    | and => exact hand
    | not => exact hnot
    | cmp => exact hcmp
    | prim => exact hprim

/-! ## Statements -/

/-- `item {, item}`. -/
def sepBy {α : Type} (item : Lang Token α) : Lang Token (List α) := do
  let first ← item
  Lang.Iter (fun list => do
    let _ ← tok .comma
    let a ← item
    return list ++ [a]) [first]

/-- `id INT | id VARCHAR ( int )`. The length is kept in a `uint16_t`. -/
def columnDef : Lang Token ColumnDef := do
  let name ← tok .identifier
  .alt (do
    let _ ← tok .intKw
    return ⟨name.value, .int, 0⟩) <|
  .alt (do
    let _ ← tok .varcharKw
    let _ ← tok .lparen
    let len ← numeral
    let _ ← tok .rparen
    return ⟨name.value, .varchar, (len % 65536).toNat⟩) .empty

def createTable : Lang Token CreateTableStmt := do
  let _ ← tok .table
  let name ← tok .identifier
  let _ ← tok .lparen
  let columns ← sepBy columnDef
  let _ ← tok .rparen
  return ⟨name.value, columns⟩

def insert : Lang Token InsertStmt := do
  let _ ← tok .into
  let name ← tok .identifier
  let _ ← tok .values
  let _ ← tok .lparen
  let values ← sepBy (Derives .prim)
  let _ ← tok .rparen
  return ⟨name.value, values⟩

/-- `expr [AS id]`. -/
def selectItem : Lang Token SelectItem := do
  let expr ← Derives .expr
  .alt (do
    let _ ← tok .as
    let name ← tok .identifier
    return ⟨expr, name.value⟩) (return ⟨expr, []⟩)

/-- `[[AS] id]`. -/
def tableAlias : Lang Token Str :=
  .alt (do
    let _ ← tok .as
    let name ← tok .identifier
    return name.value) <|
  .alt (do
    let name ← tok .identifier
    return name.value) (return [])

/-- `id [[AS] id] ON expr`. -/
def join : Lang Token JoinClause := do
  let name ← tok .identifier
  let aliasName ← tableAlias
  let _ ← tok .on
  let condition ← Derives .expr
  return ⟨name.value, aliasName, condition⟩

/-- `{JOIN join}`. -/
def joins : Lang Token (List JoinClause) :=
  Lang.Iter (fun list => do
    let _ ← tok .join
    let j ← join
    return list ++ [j]) []

def whereClause : Lang Token (Option Expr) :=
  .alt (do
    let _ ← tok .where
    let e ← Derives .expr
    return some e) (return none)

def groupBy : Lang Token (List Expr) :=
  .alt (do
    let _ ← tok .group
    let _ ← tok .by
    sepBy (Derives .prim)) (return [])

/-- `prim [ASC | DESC]`. -/
def orderByItem : Lang Token OrderByItem := do
  let expr ← Derives .prim
  .alt (do
    let _ ← tok .desc
    return ⟨expr, false⟩) <|
  .alt (do
    let _ ← tok .asc
    return ⟨expr, true⟩) (return ⟨expr, true⟩)

def orderBy : Lang Token (List OrderByItem) :=
  .alt (do
    let _ ← tok .order
    let _ ← tok .by
    sepBy orderByItem) (return [])

def select : Lang Token SelectStmt := do
  let selectList ← sepBy selectItem
  let _ ← tok .from
  let fromTable ← tok .identifier
  let fromAlias ← tableAlias
  let joinList ← joins
  let cond ← whereClause
  let group ← groupBy
  let order ← orderBy
  return ⟨selectList, fromTable.value, fromAlias, joinList, cond, group, order⟩

def statement : Lang Token Statement :=
  .alt (do
    let _ ← tok .create
    let stmt ← createTable
    return .createTable stmt) <|
  .alt (do
    let _ ← tok .insert
    let stmt ← insert
    return .insert stmt) <|
  .alt (do
    let _ ← tok .select
    let stmt ← select
    return .select stmt) <|
  .alt (do
    let _ ← tok .explain
    let _ ← tok .select
    let stmt ← select
    return .explain stmt) .empty

/-- A statement with an optional semicolon. -/
def input : Lang Token Statement := do
  let stmt ← statement
  .alt (do
    let _ ← tok .semicolon
    return stmt) (return stmt)

end MyDB.Parser

import MyDB.Parser.Grammar

/-! Every parser function reads the language of its nonterminal: it returns
exactly where a word of that language ends that the next token cannot continue. -/

namespace MyDB.Parser
open Lib

variable {n : Nat} {k : TokenType} {α β : Type}

/-! ## Numbers -/

theorem isDigit_bounds {c : UInt8} (h : isDigit c) : 48 ≤ c ∧ c ≤ 57 := by
  simpa [isDigit] using h

theorem not_isSpace_of_isDigit {c : UInt8} (h : isDigit c) : isSpace c = false := by
  obtain ⟨h₁, h₂⟩ := isDigit_bounds h
  simp only [UInt8.le_iff_toNat_le, UInt8.reduceToNat] at h₁ h₂
  have h32 : c ≠ 32 := fun e => by rw [e] at h₁; exact absurd h₁ (by decide)
  simp only [isSpace, beq_eq_false_iff_ne.mpr h32, Bool.false_or, Bool.and_eq_false_iff, decide_eq_false_iff_not,
    UInt8.le_iff_toNat_le, UInt8.reduceToNat]
  omega

theorem stoi_digits {s : Str} (hne : s ≠ []) (hd : ∀ c ∈ s, isDigit c) (inp : List Token) :
    stoi s inp = if (digitsValue s : Int) ≤ 2147483647 then .ok (digitsValue s : Int) inp
      else .error .outOfRange inp := by
  obtain ⟨c, s, rfl⟩ := List.exists_cons_of_ne_nil hne
  have hc := hd c List.mem_cons_self
  have hdash : ¬ some c = some dash := by
    rintro h
    cases h
    exact absurd hc (by decide)
  have hplus : ¬ some c = some 43 := by
    rintro h
    cases h
    exact absurd hc (by decide)
  have hall : (c :: s).takeWhile isDigit = c :: s := List.takeWhile_eq_self_iff.mpr hd
  have hmin : -2147483648 ≤ (digitsValue (c :: s) : Int) := by omega
  unfold stoi
  simp only [List.dropWhile_cons, not_isSpace_of_isDigit hc, Bool.false_eq_true, if_false,
    List.head?_cons, hdash, hplus, or_self, hall, reduceCtorEq, hmin, true_and]
  split_ifs <;> rfl

/-! ## Token helpers -/

theorem current_cons (t : Token) (rest : List Token) : current (t :: rest) = .ok t (t :: rest) := rfl

theorem expect_cons (k : TokenType) (msg : Str) (t : Token) (rest : List Token) :
    expect k msg (t :: rest) = if t.type = k then .ok t rest else
      .error (.runtimeError (lit "Parse error at '" ++ t.value ++ lit "': " ++ msg)) (t :: rest) := by
  by_cases hk : t.type = k
  · simp only [expect, check, current, consume, bind, EStateM.bind, get, getThe, MonadStateOf.get,
      EStateM.get, pure, EStateM.pure, hk, decide_true, if_true, set, EStateM.set]
  · simp only [expect, check, current, bind, EStateM.bind, get, getThe, MonadStateOf.get,
      EStateM.get, pure, EStateM.pure, hk, decide_false, Bool.false_eq_true, if_false]
    rfl

theorem expect_run {msg : Str} {inp rest : List Token} {a : Token} :
    expect k msg inp = .ok a rest ↔ inp = a :: rest ∧ a.type = k := by
  cases inp with
  | nil => exact ⟨fun h => (by cases h), fun h => (by cases h.1)⟩
  | cons t r =>
    rw [expect_cons]
    split_ifs with hk
    · constructor
      · intro h
        cases h
        exact ⟨rfl, hk⟩
      · rintro ⟨h, -⟩
        cases h
        rfl
    · constructor
      · intro h
        cases h
      · rintro ⟨h, h'⟩
        cases h
        exact absurd h' hk

theorem expect_reads (msg : Str) (hk : k ≠ .intLiteral) :
    Reads alphabet n (expect k msg) (tok k) (.tok k) := Reads.tok (wellFormed_of_ne hk) expect_run

theorem expect_bind_reads (msg : Str) {f : P α} {L : Lang Token α} {s : Sig TokenType}
    (hk : k ≠ .intLiteral) (hf : Reads alphabet (n - 1) f L s) :
    Reads alphabet n (do
      let _ ← expect k msg
      f) (tok k >>= fun _ => L) ((Sig.tok k).bind s) := by
  refine Reads.tok_bind (wellFormed_of_ne hk) (fun {inp a rest} => ?_) hf
  constructor
  · intro h
    cases hrun : expect k msg inp with
    | error e r =>
      rw [bind_error hrun] at h
      cases h
    | ok t r =>
      rw [bind_ok hrun] at h
      obtain ⟨rfl, ht⟩ := expect_run.mp hrun
      exact ⟨t, r, rfl, ht, h⟩
  · rintro ⟨t, r, rfl, ht, h⟩
    rwa [bind_ok (expect_run.mpr ⟨rfl, ht⟩)]

theorem matchToken_cons (k : TokenType) (t : Token) (rest : List Token) :
    matchToken k (t :: rest) = if t.type = k then .ok true rest else .ok false (t :: rest) := by
  by_cases hk : t.type = k
  · simp only [matchToken, check, current, consume, bind, EStateM.bind, get, getThe, MonadStateOf.get,
      EStateM.get, pure, EStateM.pure, hk, decide_true, if_true, set, EStateM.set]
  · simp only [matchToken, check, current, bind, EStateM.bind, get, getThe, MonadStateOf.get,
      EStateM.get, pure, EStateM.pure, hk, decide_false, Bool.false_eq_true, if_false]

theorem ifMatch_cons {f g : P α} (t : Token) (rest : List Token) :
    (do if ← matchToken k then f else g : P α) (t :: rest) =
      if t.type = k then f rest else g (t :: rest) := by
  by_cases hk : t.type = k
  · have h : matchToken k (t :: rest) = .ok true rest := by rw [matchToken_cons, if_pos hk]
    rw [bind_ok h, if_pos hk, if_pos rfl]
  · have h : matchToken k (t :: rest) = .ok false (t :: rest) := by rw [matchToken_cons, if_neg hk]
    rw [bind_ok h, if_neg hk, if_neg Bool.false_ne_true]

theorem ifMatch_reads {f g : P α} {L M : Lang Token α} {s s' : Sig TokenType} (hk : k ≠ .intLiteral)
    (hf : Reads alphabet (n - 1) f L s) (hg : Reads alphabet n g M s') (hap : k ∉ s'.first)
    (hall : s'.nullable = false ∨ L.Inhabited) :
    Reads alphabet n (do if ← matchToken k then f else g : P α) (.alt (tok k >>= fun _ => L) M)
      (((Sig.tok k).bind s).alt s') :=
  Reads.ifMatch (wellFormed_of_ne hk) ifMatch_cons (fun _ _ h => by cases h) hf hg hap hall

theorem ifCheck_cons {f : Token → P α} {g : P α} (t : Token) (rest : List Token) :
    (do if ← check k then (do f (← consume)) else g : P α) (t :: rest) =
      if t.type = k then f t rest else g (t :: rest) := by
  have hcheck : check k (t :: rest) = .ok (decide (t.type = k)) (t :: rest) := rfl
  by_cases hk : t.type = k
  · have hconsume : consume (t :: rest) = .ok t rest := rfl
    rw [bind_ok hcheck, decide_eq_true hk, if_pos rfl, bind_ok hconsume, if_pos hk]
  · rw [bind_ok hcheck, decide_eq_false hk, if_neg Bool.false_ne_true, if_neg hk]

theorem ifCheck_reads {f : Token → P α} {g : P α} {L M : Lang Token α} {s s' : Sig TokenType}
    (hf : Reads alphabet n (expect k [] >>= f) L s) (hg : Reads alphabet n g M s')
    (hnull : s.nullable = false) (hsub : ∀ k' ∈ s.first, k' ∈ [k]) (hap : Sig.Apart [k] s'.first)
    (hall : s'.nullable = false ∨ ∀ t, alphabet.kind t ∈ [k] → L.First t) :
    Reads alphabet n (do if ← check k then (do f (← consume)) else g : P α) (.alt L M) (s.alt s') := by
  refine Reads.choose _ ?_ (fun _ _ h => by cases h) hf hg hnull hsub hap hall
  intro t rest
  rw [ifCheck_cons]
  by_cases hk : t.type = k
  · have hmem : alphabet.kind t ∈ [k] := List.mem_singleton.mpr hk
    rw [if_pos hk, if_pos hmem, bind_ok (expect_run.mpr ⟨rfl, hk⟩)]
  · have hmem : alphabet.kind t ∉ [k] := fun h => hk (List.mem_singleton.mp h)
    rw [if_neg hk, if_neg hmem]

def readOne (v : TokenType → Option β) : P β
  | [] => .error .outOfBounds []
  | t :: rest => (v t.type).elim (.error .outOfBounds (t :: rest)) (.ok · rest)

theorem readOne_cons {v : TokenType → Option β} {t : Token} {b : β} (h : v t.type = some b) (rest : List Token) :
    readOne v (t :: rest) = .ok b rest := by
  rw [readOne, h]
  rfl

theorem readOne_reads {v : TokenType → Option β} {ks : List TokenType} (hks : ∀ k, k ∈ ks ↔ ∃ b, v k = some b)
    (hint : .intLiteral ∉ ks) : Reads alphabet n (readOne v) (oneOf v) ⟨ks, [], false⟩ := by
  refine ⟨fun m => oneOf_ll (fun k b h => (hks k).mpr ⟨b, h⟩) hint, ?_⟩
  intro inp b t rest _ _
  constructor
  · intro h
    cases inp with
    | nil => cases h
    | cons x xs =>
      cases hx : v x.type with
      | none =>
        rw [readOne, hx] at h
        cases h
      | some c =>
        rw [readOne_cons hx] at h
        cases h
        refine ⟨[x], rfl, ⟨x, rfl, hx⟩, ?_⟩
        rintro ⟨ws, b', t', h, -⟩
        cases h
  · rintro ⟨_, rfl, ⟨x, rfl, hx⟩, -⟩
    exact readOne_cons hx _

theorem switch_reads {v : TokenType → Option β} {ks : List TokenType} {f : β → P α} {g x : P α}
    {K : β → Lang Token α} {M : Lang Token α} {s s' : Sig TokenType}
    (hsome : ∀ t rest b, v t.type = some b → x (t :: rest) = f b rest)
    (hnone : ∀ t rest, v t.type = none → x (t :: rest) = g (t :: rest))
    (hnil : ∀ a rest, x [] ≠ .ok a rest) (hks : ∀ k, k ∈ ks ↔ ∃ b, v k = some b) (hint : .intLiteral ∉ ks)
    (hf : ∀ b, Reads alphabet n (f b) (K b) s) (hg : Reads alphabet n g M s')
    (hap : Sig.Apart ks s'.first) (hall : s'.nullable = false ∨ ∀ b, (K b).Inhabited) :
    Reads alphabet n x (.alt (oneOf v >>= K) M) ((Sig.bind ⟨ks, [], false⟩ s).alt s') := by
  refine Reads.choose ks (p := readOne v >>= f) ?_ hnil
    (Reads.bind (readOne_reads hks hint) hf (fun _ h => absurd h List.not_mem_nil)) hg rfl ?_ hap ?_
  · intro t rest
    cases hv : v t.type with
    | none =>
      rw [hnone t rest hv, if_neg]
      intro h
      obtain ⟨b, hb⟩ := (hks _).mp h
      exact absurd (hv.symm.trans hb) (by simp)
    | some b =>
      have hmem : alphabet.kind t ∈ ks := (hks _).mpr ⟨b, hv⟩
      rw [hsome t rest b hv, if_pos hmem, bind_ok (readOne_cons hv rest)]
  · intro k hk
    rwa [Sig.bind, if_neg Bool.false_ne_true, List.append_nil] at hk
  · refine hall.imp id fun hinh t ht => ?_
    obtain ⟨b, hb⟩ := (hks _).mp ht
    obtain ⟨us, a, hu⟩ := hinh b
    exact ⟨us, a, [t], us, b, rfl, ⟨t, rfl, hb⟩, hu⟩

theorem number_reads (msg : Str) :
    Reads alphabet n (do stoi (← expect .intLiteral msg).value) numeral ⟨[.intLiteral], [], false⟩ where
  ll _ := numeral_ll
  run_iff := by
    intro inp v t rest _ hwf
    constructor
    · intro h
      cases hrun : expect .intLiteral msg inp with
      | error e r =>
        rw [bind_error hrun] at h
        cases h
      | ok x r =>
        obtain ⟨rfl, hx⟩ := expect_run.mp hrun
        obtain ⟨hne, hd⟩ := hwf x List.mem_cons_self hx
        rw [bind_ok hrun, stoi_digits hne hd] at h
        split_ifs at h with hle
        · cases h
          refine ⟨[x], rfl, ⟨x, rfl, hx, hne, hd, rfl, hle⟩, ?_⟩
          rintro ⟨ws, b, t', h, -⟩
          cases h
    · rintro ⟨_, rfl, ⟨x, rfl, hx⟩, -⟩
      have hrun : expect .intLiteral msg ([x] ++ t :: rest) = .ok x (t :: rest) :=
        expect_run.mpr ⟨rfl, hx.type_eq⟩
      have hle := hx.le_max
      rw [hx.value_eq] at hle ⊢
      rw [bind_ok hrun, stoi_digits hx.ne_nil hx.digits, if_pos hle]

/-! ## Loops -/

theorem whileMatch_reads {body : β → P β} {K : β → Lang Token β} {s : Sig TokenType}
    (hk : k ≠ .intLiteral) (hbody : ∀ b, Reads alphabet n (body b) (K b) s) (hap : k ∉ s.cont)
    (hall : ∀ b, (K b).Inhabited) (b : β) :
    Reads alphabet n (do
      let tokens ← get
      whileMatch k body (tokens.length + 1) b)
      (Lang.Iter (fun b => tok k >>= fun _ => K b) b) (.iter k s) := by
  refine Reads.sized (f := fun m => whileMatch k body (m + 1) b) (fun m hm => ?_) fun _ => rfl
  refine Reads.loop (wellFormed_of_ne hk) (fun fuel b t rest => ?_) (fun fuel b a rest h => ?_)
    (fun b => (hbody b).of_le hm) hap hall (Nat.le_succ m) b
  · rw [whileMatch, ifMatch_cons]
    rfl
  · cases fuel with
    | zero => cases h
    | succ fuel => cases h

theorem itemLoop_reads {item : P α} {L : Lang Token α} {s s' : Sig TokenType} (start : α → β)
    (push : β → α → β) (hk : k ≠ .intLiteral) (h : Reads alphabet n item L s) (hap : k ∉ s.cont)
    (hL : L.Inhabited) (hle : (s.bind (.iter k (s.bind .pure))).Le s') :
    Reads alphabet n (do
      let a ← item
      let tokens ← get
      whileMatch k (fun b => do return push b (← item)) (tokens.length + 1) (start a))
      (do
        let a ← L
        Lang.Iter (fun b => do
          let _ ← tok k
          let a ← L
          return push b a) (start a)) s' := by
  refine (Reads.bind h (fun a => whileMatch_reads hk
    (fun b => Reads.bind h (fun c => Reads.pure _) ?_) ?_ ?_ (start a)) ?_).mono hle
  · exact fun _ _ h => List.not_mem_nil h
  · simpa [Sig.bind, Sig.pure] using hap
  · exact fun b => hL.bind fun c => Lang.inhabited_pure _
  · intro k' hk' hmem
    obtain rfl := List.mem_singleton.mp hmem
    exact hap hk'

theorem commaList_reads {item : P α} {L : Lang Token α} {s s' : Sig TokenType}
    (h : Reads alphabet n item L s) (hap : .comma ∉ s.cont) (hL : L.Inhabited)
    (hle : (s.bind (.iter .comma (s.bind .pure))).Le s') :
    Reads alphabet n (commaList item) (sepBy L) s' :=
  itemLoop_reads (fun a => [a]) (fun list a => list ++ [a]) (by decide) h hap hL hle

theorem leftAssoc_reads {op : BinaryOp} {operand : P Expr} {L : Lang Token Expr} {s s' : Sig TokenType}
    (hk : k ≠ .intLiteral) (h : Reads alphabet n operand L s) (hap : k ∉ s.cont) (hL : L.Inhabited)
    (hle : (s.bind (.iter k (s.bind .pure))).Le s') :
    Reads alphabet n (leftAssoc k op operand) (chain k op L) s' :=
  itemLoop_reads (fun left => left) (Expr.binaryOp op) hk h hap hL hle

/-! ## Expressions -/

theorem inhabited_tok (k : TokenType) : (tok k).Inhabited := ⟨[⟨k, [], 0⟩], ⟨k, [], 0⟩, rfl, rfl⟩

theorem inhabited_derives (level : Level) : Lang.Inhabited (Derives level) := by
  have hprim : Derives .prim [⟨.star, [], 0⟩] .star := .star rfl
  cases level with
  | expr => exact ⟨_, _, .exprAnd (.andNot (.notCmp (.cmpPrim hprim)))⟩
  | and => exact ⟨_, _, .andNot (.notCmp (.cmpPrim hprim))⟩
  | not => exact ⟨_, _, .notCmp (.cmpPrim hprim)⟩
  | cmp => exact ⟨_, _, .cmpPrim hprim⟩
  | prim => exact ⟨_, _, hprim⟩

theorem mem_comparisonTokens_iff (k : TokenType) : k ∈ comparisonTokens ↔ ∃ op, comparisonOp k = some op := by
  refine ⟨fun h => ?_, fun ⟨op, h⟩ => mem_comparisonTokens k op h⟩
  cases k <;> first | exact ⟨_, rfl⟩ | exact absurd h (by decide)

theorem mem_aggTokens_iff (k : TokenType) : k ∈ aggTokens ↔ ∃ f, aggName k = some f := by
  refine ⟨fun h => ?_, fun ⟨f, h⟩ => mem_aggTokens k f h⟩
  cases k <;> first | exact ⟨_, rfl⟩ | exact absurd h (by decide)

section Levels
variable {prim : P Expr}

theorem parseComparison_reads (h : Reads alphabet n prim (Derives .prim) Level.prim.sig) :
    Reads alphabet n (parseComparison prim) (Derives .cmp) Level.cmp.sig := by
  rw [derives_eq]
  have hright : ∀ left op, Reads alphabet n (do return Expr.binaryOp op left (← prim)) _
      (Level.prim.sig.bind .pure) := fun left op => Reads.bind h (fun right => Reads.pure _) (by decide)
  refine (Reads.bind h (fun left => switch_reads ?hsome ?hnone ?hnil mem_comparisonTokens_iff ?_ (hright left)
    (Reads.pure left) ?_ (Or.inr fun op => ?hinh)) ?_).mono ?_
  case hsome =>
    intro t rest op hop
    rw [bind_ok (current_cons t rest), hop]
    rfl
  case hnone =>
    intro t rest hop
    rw [bind_ok (current_cons t rest), hop]
  case hnil =>
    intro a rest h
    cases h
  case hinh => exact (inhabited_derives .prim).bind fun r => Lang.inhabited_pure _
  all_goals decide

theorem parseNot_reads (h : Reads alphabet n prim (Derives .prim) Level.prim.sig) :
    Reads alphabet n (parseNot prim) (Derives .not) Level.not.sig := by
  have hcmp := parseComparison_reads h
  rw [derives_eq .not]
  refine (ifMatch_reads ?_ (Reads.bind (hcmp.of_le (Nat.sub_le ..)) (fun e => Reads.pure _) ?_) hcmp ?_
    (Or.inl rfl)).mono ?_
  all_goals decide

theorem parseAnd_reads (h : Reads alphabet n prim (Derives .prim) Level.prim.sig) :
    Reads alphabet n (parseAnd prim) (Derives .and) Level.and.sig := by
  rw [derives_eq]
  exact leftAssoc_reads (by decide) (parseNot_reads h) (by decide) (inhabited_derives .not) (by decide)

theorem parseOr_reads (h : Reads alphabet n prim (Derives .prim) Level.prim.sig) :
    Reads alphabet n (parseOr prim) (Derives .expr) Level.expr.sig := by
  rw [derives_eq]
  exact leftAssoc_reads (by decide) (parseAnd_reads h) (by decide) (inhabited_derives .and) (by decide)

def parseArgument (prim : P Expr) : P Expr
  | [] => .error .outOfBounds []
  | t :: rest => if t.type = .star then .error .outOfBounds rest else parseOr prim (t :: rest)

theorem parseArgument_reads (h : Reads alphabet n prim (Derives .prim) Level.prim.sig) :
    Reads alphabet n (parseArgument prim) (Lang.without alphabet.kind [.star] (Derives .expr))
      (Level.expr.sig.without [.star]) := by
  refine Reads.without (parseOr_reads h) (fun t rest ht => ?_) (fun inp a rest hk hrun => ?_) rfl
  · exact if_neg fun hs => ht (List.mem_singleton.mpr hs)
  · cases inp with
    | nil => cases hrun
    | cons t r =>
      have hs : t.type = .star := List.mem_singleton.mp (hk t rfl)
      rw [parseArgument, if_pos hs] at hrun
      cases hrun

theorem parseAggregate_reads (h : Reads alphabet (n - 1) prim (Derives .prim) Level.prim.sig)
    (f : AggFunc) : Reads alphabet n (parseAggregate prim f) (aggOf (Derives .expr) f) (.tok .lparen) := by
  have hstar : Reads alphabet (n - 1 - 1) (do
      let _ ← expect .rparen (lit "Expected ')'")
      return Expr.aggregateStar f) _ _ :=
    Reads.bind (expect_reads _ (by decide)) (fun _ => Reads.pure _) (by decide)
  have harg : Reads alphabet (n - 1) (do
      let left ← parseArgument prim
      let _ ← expect .rparen (lit "Expected ')'")
      return Expr.aggregate f left) _ _ :=
    Reads.bind (parseArgument_reads h) (fun e => Reads.bind (expect_reads _ (by decide)) (fun _ => Reads.pure _) (by decide))
      (by decide)
  refine (expect_bind_reads _ (by decide) (Reads.ifMatch (wellFormed_of_ne (k := .star) (by decide))
    (fun t rest => ?_) (fun _ _ h => by cases h) hstar harg (by decide) (Or.inl rfl))).mono (by decide)
  rw [ifMatch_cons]
  by_cases hs : t.type = .star
  · exact (if_pos hs).trans (if_pos hs).symm
  · refine (if_neg hs).trans (Eq.trans ?_ (if_neg hs).symm)
    have hrun : parseArgument prim (t :: rest) = parseOr prim (t :: rest) := if_neg hs
    change EStateM.bind _ _ _ = EStateM.bind _ _ _
    rw [EStateM.bind, EStateM.bind, hrun]

end Levels

theorem parseColumnRef_reads (name : Str) :
    Reads alphabet n (parseColumnRef name) (columnOf name) ⟨[.dot], [.dot], true⟩ := by
  refine (ifMatch_reads ?_ (Reads.bind (expect_reads _ ?_) (fun t => Reads.pure _) ?_) (Reads.pure _) ?_
    (Or.inr ?_)).mono ?_
  case refine_5 => exact (inhabited_tok .identifier).bind fun t => Lang.inhabited_pure _
  all_goals decide

theorem parsePrimaryLoop_reads {fuel : Nat} (hn : n ≤ fuel) :
    Reads alphabet n (parsePrimaryLoop fuel) (Derives .prim) Level.prim.sig := by
  induction fuel generalizing n with
  | zero =>
    obtain rfl := Nat.le_zero.mp hn
    exact Reads.zero (fun m => derives_ll m .prim) (fun _ _ h => by cases h)
  | succ fuel ih =>
    have hprim := ih (Nat.sub_le_of_le_add hn)
    have hparen : Reads alphabet (n - 1) (do
        let e ← parseOr (parsePrimaryLoop fuel)
        let _ ← expect .rparen (lit "Expected ')'")
        return e) _ _ :=
      Reads.bind (parseOr_reads hprim)
        (fun e => Reads.bind (expect_reads _ (by decide)) (fun _ => Reads.pure e) (by decide)) (by decide)
    have hint : Reads alphabet n (do
        let t ← expect .intLiteral []
        let v ← stoi t.value
        return Expr.intLiteral v) (numeral >>= fun v => return .intLiteral v) ⟨[.intLiteral], [], false⟩ := by
      rw [← bind_assoc]
      exact (Reads.bind (number_reads []) (fun v => Reads.pure _) (by decide)).mono (by decide)
    have hstring : Reads alphabet n (do
        let t ← expect .stringLiteral []
        return Expr.stringLiteral t.value) _ _ :=
      Reads.bind (expect_reads _ (by decide)) (fun t => Reads.pure _) (by decide)
    have hcolumn : Reads alphabet n (do
        let t ← expect .identifier []
        parseColumnRef t.value) _ _ :=
      Reads.bind (expect_reads _ (by decide)) (fun t => parseColumnRef_reads t.value) (by decide)
    have hthrow : Reads alphabet n (do
        throw (.runtimeError (lit "Unexpected token in expression: '" ++ (← current).value ++ lit "'")) :
          P Expr) Lang.empty ⟨[], [], false⟩ := by
      refine Reads.fails fun inp a rest h => ?_
      cases inp <;> cases h
    have hagg : ∀ f, Reads alphabet n _ _ _ := fun f => parseAggregate_reads hprim f
    rw [derives_eq]
    refine (ifMatch_reads ?_ hparen (ifMatch_reads ?_ (Reads.pure .star)
      (ifCheck_reads hint (ifCheck_reads hstring (switch_reads ?hsome ?hnone ?hnil mem_aggTokens_iff ?_ hagg
        (ifCheck_reads hcolumn hthrow ?_ ?_ ?_ (Or.inl ?_)) ?_ (Or.inl ?_)) ?_ ?_ ?_ (Or.inl ?_))
          ?_ ?_ ?_ (Or.inl ?_)) ?_ (Or.inl ?_)) ?_ (Or.inl ?_)).mono ?_
    case hsome =>
      intro t rest f hf
      rw [bind_ok (current_cons t rest), hf]
      rfl
    case hnone =>
      intro t rest hf
      rw [bind_ok (current_cons t rest), hf]
    case hnil =>
      intro a rest h
      cases h
    all_goals decide

theorem parsePrimary_reads : Reads alphabet n parsePrimary (Derives .prim) Level.prim.sig :=
  Reads.sized (f := fun m => parsePrimaryLoop (m + 1)) (fun m _ => parsePrimaryLoop_reads (Nat.le_succ m))
    fun _ => rfl

theorem parseExpr_reads : Reads alphabet n parseExpr (Derives .expr) Level.expr.sig :=
  parseOr_reads parsePrimary_reads

/-! ## Statements -/

theorem inhabited_identifier_pure (f : Token → α) :
    (tok .identifier >>= fun t => (pure (f t) : Lang Token α)).Inhabited :=
  (inhabited_tok _).bind fun _ => Lang.inhabited_pure _

theorem parseColumnDef_reads : Reads alphabet n parseColumnDef columnDef ⟨[.identifier], [], false⟩ := by
  have hlen : ∀ name : Token, Reads alphabet (n - 1) (do
      let _ ← expect .lparen (lit "Expected '(' after VARCHAR")
      let t ← expect .intLiteral (lit "Expected length")
      let len ← stoi t.value
      let _ ← expect .rparen (lit "Expected ')'")
      return (⟨name.value, .varchar, (len % 65536).toNat⟩ : ColumnDef))
      (do
        let _ ← tok .lparen
        let len ← numeral
        let _ ← tok .rparen
        return ⟨name.value, .varchar, (len % 65536).toNat⟩) (.tok .lparen) := by
    intro name
    simp only [← bind_assoc (expect .intLiteral _)]
    refine (Reads.bind (expect_reads _ ?_) (fun _ => Reads.bind (number_reads _) (fun len =>
      Reads.bind (expect_reads _ ?_) (fun _ => Reads.pure _) ?_) ?_) ?_).mono ?_
    all_goals decide
  refine (Reads.bind (expect_reads _ ?_) (fun name => ifMatch_reads ?_ (Reads.pure _)
    (ifMatch_reads ?_ (hlen name) (Reads.fails ?hfails) ?_ (Or.inl ?_)) ?_ (Or.inl ?_)) ?_).mono ?_
  case hfails =>
    intro inp a rest h
    cases h
  all_goals decide

theorem inhabited_columnDef : columnDef.Inhabited :=
  (inhabited_tok _).bind fun _ => .alt_left ((inhabited_tok _).bind fun _ => Lang.inhabited_pure _)

theorem columnList_reads : Reads alphabet n (commaList parseColumnDef) (sepBy columnDef)
    ⟨[.identifier], [.comma], false⟩ :=
  commaList_reads parseColumnDef_reads (by decide) inhabited_columnDef (by decide)

theorem parseCreateTable_reads : Reads alphabet n parseCreateTable createTable (.tok .table) := by
  refine (Reads.bind (expect_reads _ ?_) (fun _ => Reads.bind (expect_reads _ ?_) (fun name =>
    Reads.bind (expect_reads _ ?_) (fun _ => Reads.bind columnList_reads (fun columns =>
      Reads.bind (expect_reads _ ?_) (fun _ => Reads.pure _) ?_) ?_) ?_) ?_) ?_).mono ?_
  all_goals decide

theorem primList_reads : Reads alphabet n (commaList parsePrimary) (sepBy (Derives .prim))
    ⟨primTokens, [.comma, .dot], false⟩ :=
  commaList_reads parsePrimary_reads (by decide) (inhabited_derives .prim) (by decide)

theorem parseInsert_reads : Reads alphabet n parseInsert insert (.tok .into) := by
  refine (Reads.bind (expect_reads _ ?_) (fun _ => Reads.bind (expect_reads _ ?_) (fun name =>
    Reads.bind (expect_reads _ ?_) (fun _ => Reads.bind (expect_reads _ ?_) (fun _ =>
      Reads.bind primList_reads (fun values => Reads.bind (expect_reads _ ?_) (fun _ => Reads.pure _) ?_)
        ?_) ?_) ?_) ?_) ?_).mono ?_
  all_goals decide

theorem parseSelectItem_reads : Reads alphabet n parseSelectItem selectItem
    ⟨Level.expr.sig.first, .as :: Level.expr.sig.cont, false⟩ := by
  refine (Reads.bind parseExpr_reads (fun e => ifMatch_reads ?_
    (Reads.bind (expect_reads _ ?_) (fun t => Reads.pure _) ?_) (Reads.pure _) ?_ (Or.inr ?hinh)) ?_).mono ?_
  case hinh => exact inhabited_identifier_pure _
  all_goals decide

theorem parseSelectList_reads : Reads alphabet n parseSelectList (sepBy selectItem)
    ⟨Level.expr.sig.first, .comma :: .as :: Level.expr.sig.cont, false⟩ := by
  refine commaList_reads parseSelectItem_reads (by decide) ?_ (by decide)
  exact (inhabited_derives .expr).bind fun e => .alt_left ((inhabited_tok _).bind fun _ =>
    inhabited_identifier_pure _)

theorem parseAlias_reads : Reads alphabet n parseAlias tableAlias
    ⟨[.as, .identifier], [.as, .identifier], true⟩ := by
  have hname : Reads alphabet n (do
      let t ← expect .identifier []
      return t.value) _ _ := Reads.bind (expect_reads _ (by decide)) (fun t => Reads.pure _) (by decide)
  refine (ifMatch_reads ?_ (Reads.bind (expect_reads _ ?_) (fun t => Reads.pure _) ?_)
    (ifCheck_reads hname (Reads.pure []) ?_ ?_ ?_ (Or.inr ?hfirst)) ?_ (Or.inr ?hinh)).mono ?_
  case hfirst =>
    intro t ht
    exact ⟨[], t.value, [t], [], t, rfl, ⟨rfl, List.mem_singleton.mp ht⟩, rfl, rfl⟩
  case hinh => exact inhabited_identifier_pure _
  all_goals decide

theorem parseJoin_reads : Reads alphabet n parseJoin join ⟨[.identifier], Level.expr.sig.cont, false⟩ := by
  refine (Reads.bind (expect_reads _ ?_) (fun name => Reads.bind parseAlias_reads (fun aliasName =>
    Reads.bind (expect_reads _ ?_) (fun _ => Reads.bind parseExpr_reads (fun c => Reads.pure _)
      ?_) ?_) ?_) ?_).mono ?_
  all_goals decide

theorem inhabited_join : join.Inhabited := by
  have halias : tableAlias.Inhabited := ⟨[], [], Or.inr (Or.inr ⟨rfl, rfl⟩)⟩
  exact (inhabited_tok _).bind fun _ => halias.bind fun _ => (inhabited_tok _).bind fun _ =>
    (inhabited_derives .expr).bind fun _ => Lang.inhabited_pure _

theorem parseJoins_reads :
    Reads alphabet n parseJoins joins ⟨[.join], .join :: Level.expr.sig.cont, true⟩ := by
  refine (whileMatch_reads ?_ (fun list => Reads.bind parseJoin_reads (fun j => Reads.pure _) ?_) ?_
    ?hinh []).mono ?_
  case hinh => exact fun list => inhabited_join.bind fun j => Lang.inhabited_pure _
  all_goals decide

theorem parseWhere_reads :
    Reads alphabet n parseWhere whereClause ⟨[.where], .where :: Level.expr.sig.cont, true⟩ := by
  refine (ifMatch_reads ?_ (Reads.bind parseExpr_reads (fun e => Reads.pure _) ?_) (Reads.pure none) ?_
    (Or.inr ?hinh)).mono ?_
  case hinh => exact (inhabited_derives .expr).bind fun e => Lang.inhabited_pure _
  all_goals decide

theorem inhabited_sepBy {L : Lang Token α} (h : L.Inhabited) : (sepBy L).Inhabited :=
  h.bind fun a => Lang.inhabited_iter _ [a]

theorem parseGroupBy_reads : Reads alphabet n parseGroupBy groupBy ⟨[.group], [.group, .comma, .dot], true⟩ := by
  refine (ifMatch_reads ?_ (Reads.bind (expect_reads _ ?_) (fun _ => primList_reads) ?_) (Reads.pure []) ?_
    (Or.inr ?hinh)).mono ?_
  case hinh => exact (inhabited_tok _).bind fun _ => inhabited_sepBy (inhabited_derives .prim)
  all_goals decide

theorem parseOrderByItem_reads :
    Reads alphabet n parseOrderByItem orderByItem ⟨primTokens, [.dot, .desc, .asc], false⟩ := by
  refine (Reads.bind parsePrimary_reads (fun e => ifMatch_reads ?_ (Reads.pure _)
    (ifMatch_reads ?_ (Reads.pure _) (Reads.pure _) ?_ (Or.inr (Lang.inhabited_pure _))) ?_
      (Or.inr (Lang.inhabited_pure _))) ?_).mono ?_
  all_goals decide

theorem inhabited_orderByItem : orderByItem.Inhabited :=
  (inhabited_derives .prim).bind fun _ => .alt_left ((inhabited_tok _).bind fun _ => Lang.inhabited_pure _)

theorem orderByList_reads : Reads alphabet n (commaList parseOrderByItem) (sepBy orderByItem)
    ⟨primTokens, [.comma, .dot, .desc, .asc], false⟩ :=
  commaList_reads parseOrderByItem_reads (by decide) inhabited_orderByItem (by decide)

theorem parseOrderBy_reads : Reads alphabet n parseOrderBy orderBy
    ⟨[.order], [.order, .comma, .dot, .desc, .asc], true⟩ := by
  refine (ifMatch_reads ?_ (Reads.bind (expect_reads _ ?_) (fun _ => orderByList_reads) ?_) (Reads.pure []) ?_
    (Or.inr ?hinh)).mono ?_
  case hinh => exact (inhabited_tok _).bind fun _ => inhabited_sepBy inhabited_orderByItem
  all_goals decide

def selectCont : List TokenType :=
  [.as, .identifier, .join, .where, .group, .order, .comma, .desc, .asc] ++ Level.expr.sig.cont

theorem parseSelect_reads :
    Reads alphabet n parseSelect select ⟨Level.expr.sig.first, selectCont, false⟩ := by
  refine (Reads.bind parseSelectList_reads (fun list => Reads.bind (expect_reads _ ?_) (fun _ =>
      Reads.bind (expect_reads _ ?_) (fun name => Reads.bind parseAlias_reads (fun aliasName =>
        Reads.bind parseJoins_reads (fun js => Reads.bind parseWhere_reads (fun w =>
          Reads.bind parseGroupBy_reads (fun g => Reads.bind parseOrderBy_reads (fun o => Reads.pure _)
            ?_) ?_) ?_) ?_) ?_) ?_) ?_) ?_).mono ?_
  all_goals decide

theorem parseStatement_reads : Reads alphabet n parseStatement statement
    ⟨[.create, .insert, .select, .explain], selectCont, false⟩ := by
  have hexplain : Reads alphabet (n - 1) (do return Statement.explain (← parseExplain)) (do
      let _ ← tok .select
      let stmt ← select
      return Statement.explain stmt) ⟨[.select], selectCont, false⟩ := by
    unfold parseExplain
    rw [bind_assoc]
    refine (Reads.bind (expect_reads _ ?_) (fun _ => Reads.bind parseSelect_reads (fun _ => Reads.pure _)
      ?_) ?_).mono ?_
    all_goals decide
  refine (ifMatch_reads ?_ (Reads.bind parseCreateTable_reads (fun _ => Reads.pure _) ?_)
    (ifMatch_reads ?_ (Reads.bind parseInsert_reads (fun _ => Reads.pure _) ?_)
      (ifMatch_reads ?_ (Reads.bind parseSelect_reads (fun _ => Reads.pure _) ?_)
        (ifMatch_reads ?_ hexplain (Reads.fails ?hfails) ?_ (Or.inl ?_)) ?_ (Or.inl ?_)) ?_ (Or.inl ?_))
          ?_ (Or.inl ?_)).mono ?_
  case hfails =>
    intro inp a rest h
    cases h
  all_goals decide

theorem parse_reads : Reads alphabet n parse input
    ⟨[.create, .insert, .select, .explain], .semicolon :: selectCont, false⟩ := by
  refine (Reads.bind parseStatement_reads (fun stmt => Reads.ifMatch (k := .semicolon) (wellFormed_of_ne ?_)
    (fun t rest => ?hrun) (fun _ _ h => by cases h) (Reads.pure stmt) (Reads.pure stmt) ?_
      (Or.inr (Lang.inhabited_pure _))) ?_).mono ?_
  case hrun =>
    change (matchToken .semicolon >>= fun _ => (pure stmt : P Statement)) (t :: rest) =
      if t.type = .semicolon then _ else _
    by_cases hk : t.type = .semicolon
    · have h : matchToken .semicolon (t :: rest) = .ok true rest := by rw [matchToken_cons, if_pos hk]
      rw [bind_ok h, if_pos hk]
    · have h : matchToken .semicolon (t :: rest) = .ok false (t :: rest) := by
        rw [matchToken_cons, if_neg hk]
      rw [bind_ok h, if_neg hk]
  all_goals decide

end MyDB.Parser

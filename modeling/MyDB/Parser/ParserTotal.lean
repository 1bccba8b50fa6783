import MyDB.Lib.Total
import MyDB.Parser.ParseInput

/-! The lexer and the parser end on every input, and the parser does not read
past its tokens: it never consumes the `EOF_TOKEN`, so a token is always left. -/

namespace MyDB.Parser
open Lib

/-! ## The lexer -/

namespace Lexer
variable {l l' : Lexer} {t : Token}

mutual

theorem skipWhitespace_length (s : Str) (line : Nat) : (skipWhitespace s line).input.length ≤ s.length := by
  cases s with
  | nil => exact le_rfl
  | cons c s =>
    rw [skipWhitespace]
    split_ifs
    · exact (skipWhitespace_length s _).trans (Nat.le_succ _)
    · exact (skipWhitespace_length s _).trans (Nat.le_succ _)
    · exact (skipComment_length s _).trans (Nat.le_succ _)
    · exact le_rfl

theorem skipComment_length (s : Str) (line : Nat) : (skipComment s line).input.length ≤ s.length := by
  cases s with
  | nil => exact le_rfl
  | cons c s =>
    rw [skipComment]
    split_ifs
    · exact (skipWhitespace_length s _).trans (Nat.le_succ _)
    · exact (skipComment_length s _).trans (Nat.le_succ _)

end

theorem dropWhile_cons_length_lt {p : UInt8 → Bool} {c : UInt8} (s : Str) (hc : p c) :
    ((c :: s).dropWhile p).length < (c :: s).length := by
  rw [List.dropWhile_cons_of_pos hc]
  exact Nat.lt_succ_of_le (List.length_dropWhile_le p s)

theorem readString_length (h : readString l = .ok (t, l')) : l'.input.length ≤ l.input.length := by
  unfold readString at h
  have hle := List.length_dropWhile_le (· ≠ quote) l.input
  cases hd : l.input.dropWhile (· ≠ quote) with
  | nil =>
    simp only [hd] at h
    cases h
  | cons x xs =>
    simp only [hd] at h
    cases h
    rw [hd] at hle
    exact (Nat.le_succ _).trans hle

theorem readSymbol_length {c : UInt8} (h : readSymbol c l = .ok (t, l')) :
    l'.input.length ≤ l.input.length := by
  unfold readSymbol at h
  split at h
  · cases h
    exact le_rfl
  · cases h
    rw [List.length_tail]
    exact Nat.sub_le _ _
  · cases h
    exact le_rfl
  · cases h

theorem nextToken_length (h : nextToken l = .ok (t, l')) (ht : t.type ≠ .eofToken) :
    l'.input.length < l.input.length := by
  have hskip := skipWhitespace_length l.input l.line
  unfold nextToken at h
  rcases hs : skipWhitespace l.input l.line with ⟨_ | ⟨c, s⟩, line⟩
  · simp only [hs] at h
    cases h
    exact absurd rfl ht
  · rw [hs] at hskip
    simp only [hs] at h
    refine Nat.lt_of_lt_of_le ?_ hskip
    split_ifs at h with hd hq ha
    · cases h
      exact dropWhile_cons_length_lt s hd
    · exact Nat.lt_succ_of_le (readString_length h)
    · unfold readIdentifierOrKeyword at h
      cases h
      refine dropWhile_cons_length_lt s ?_
      rw [isIdentifierChar, Bool.or_right_comm, ha, Bool.true_or]
    · exact Nat.lt_succ_of_le (readSymbol_length h)

theorem nextToken_error {e : Fault} (h : nextToken l = .error e) : ∃ msg, e = .runtimeError msg := by
  unfold nextToken at h
  rcases hs : skipWhitespace l.input l.line with ⟨_ | ⟨c, s⟩, line⟩
  · simp only [hs] at h
    cases h
  · simp only [hs] at h
    split_ifs at h with hd hq ha
    · cases h
    · unfold readString at h
      cases hd : s.dropWhile (· ≠ quote) with
      | nil =>
        simp only [hd] at h
        cases h
        exact ⟨_, rfl⟩
      | cons x xs =>
        simp only [hd] at h
        cases h
    · cases h
    · unfold readSymbol at h
      split at h
      · cases h
      · cases h
      · cases h
      · cases h
        exact ⟨_, rfl⟩

theorem tokenizeLoop_total {fuel : Nat} {acc : List Token} (hfuel : l.input.length < fuel) :
    (∃ msg, tokenizeLoop fuel l acc = .error (.runtimeError msg)) ∨
      ∃ tokens, tokenizeLoop fuel l acc = .ok tokens := by
  induction fuel generalizing l acc with
  | zero => exact absurd hfuel (Nat.not_lt_zero _)
  | succ fuel ih =>
    cases hn : nextToken l with
    | error e =>
      obtain ⟨msg, rfl⟩ := nextToken_error hn
      have hrun : tokenizeLoop (fuel + 1) l acc = .error (.runtimeError msg) := by
        rw [tokenizeLoop, hn]
        rfl
      exact Or.inl ⟨msg, hrun⟩
    | ok r =>
      obtain ⟨t, l'⟩ := r
      have hrun : tokenizeLoop (fuel + 1) l acc =
          if t.type = .eofToken then .ok (acc ++ [t]) else tokenizeLoop fuel l' (acc ++ [t]) := by
        rw [tokenizeLoop, hn]
        rfl
      rw [hrun]
      split_ifs with ht
      · exact Or.inr ⟨acc ++ [t], rfl⟩
      · exact ih (Nat.lt_of_lt_of_le (nextToken_length hn ht) (Nat.le_of_lt_succ hfuel))

theorem tokenize_total (sql : Str) :
    (∃ msg, tokenize sql = .error (.runtimeError msg)) ∨ ∃ tokens, tokenize sql = .ok tokens :=
  tokenizeLoop_total (Nat.lt_succ_self _)

end Lexer

/-! ## The parser -/

/-- There is one `EOF_TOKEN`, the last. -/
def Closed (tokens : List Token) : Prop :=
  ∃ ts eof, tokens = ts ++ [eof] ∧ eof.type = .eofToken ∧ ∀ t ∈ ts, t.type ≠ .eofToken

theorem Closed.ne_nil {tokens : List Token} (h : Closed tokens) : tokens ≠ [] := by
  obtain ⟨ts, eof, rfl, -⟩ := h
  simp

theorem Closed.tail {t : Token} {rest : List Token} (h : Closed (t :: rest)) (ht : t.type ≠ .eofToken) :
    Closed rest := by
  obtain ⟨ts, eof, e, heof, hne⟩ := h
  cases ts with
  | nil =>
    cases e
    exact absurd heof ht
  | cons x xs =>
    cases e
    exact ⟨xs, eof, rfl, heof, fun y hy => hne y (List.mem_cons_of_mem _ hy)⟩

def contract : Contract Fault (List Token) := ⟨Closed, List.length, Fault.IsException⟩

variable {n : Nat} {k : TokenType} {α β : Type}

theorem current_keeps : Keeps contract n current := by
  intro inp hinp _
  cases inp with
  | nil => exact absurd rfl hinp.ne_nil
  | cons t rest => exact ⟨hinp, le_rfl⟩

theorem consumes_ends {x f : P α} {t : Token} {rest : List Token} (hf : Keeps contract (n - 1) f)
    (hx : x (t :: rest) = f rest) (ht : t.type ≠ .eofToken) (hclosed : Closed (t :: rest))
    (hlen : (t :: rest).length ≤ n) : contract.Ends (t :: rest) (x (t :: rest)) := by
  rw [hx]
  exact (hf rest (hclosed.tail ht) (Nat.le_sub_one_of_lt hlen)).of_size_le (Nat.le_succ _)

theorem ifMatch_keeps {f g : P α} (hk : k ≠ .eofToken) (hf : Keeps contract (n - 1) f)
    (hg : Keeps contract n g) : Keeps contract n (do if ← matchToken k then f else g : P α) := by
  intro inp hinp hlen
  cases inp with
  | nil => exact absurd rfl hinp.ne_nil
  | cons t rest =>
    by_cases ht : t.type = k
    · exact consumes_ends hf ((ifMatch_cons t rest).trans (if_pos ht)) (ht ▸ hk) hinp hlen
    · rw [ifMatch_cons, if_neg ht]
      exact hg _ hinp hlen

theorem expect_bind_keeps {f : Token → P α} (msg : Str) (hk : k ≠ .eofToken)
    (hf : ∀ t, Keeps contract (n - 1) (f t)) : Keeps contract n (expect k msg >>= f) := by
  intro inp hinp hlen
  cases inp with
  | nil => exact absurd rfl hinp.ne_nil
  | cons t rest =>
    by_cases ht : t.type = k
    · exact consumes_ends (hf t) (bind_ok (expect_run.mpr ⟨rfl, ht⟩)) (ht ▸ hk) hinp hlen
    · rw [bind_error ((expect_cons k msg t rest).trans (if_neg ht))]
      exact trivial

theorem ifCheck_keeps {f : Token → P α} {g : P α} (hk : k ≠ .eofToken)
    (hf : ∀ t, Keeps contract (n - 1) (f t)) (hg : Keeps contract n g) :
    Keeps contract n (do if ← check k then (do f (← consume)) else g : P α) := by
  intro inp hinp hlen
  cases inp with
  | nil => exact absurd rfl hinp.ne_nil
  | cons t rest =>
    by_cases ht : t.type = k
    · exact consumes_ends (hf t) ((ifCheck_cons t rest).trans (if_pos ht)) (ht ▸ hk) hinp hlen
    · rw [ifCheck_cons, if_neg ht]
      exact hg _ hinp hlen

theorem switch_keeps {v : TokenType → Option β} {f : β → P α} {g x : P α}
    (hsome : ∀ t rest b, v t.type = some b → x (t :: rest) = f b rest)
    (hnone : ∀ t rest, v t.type = none → x (t :: rest) = g (t :: rest)) (hv : v .eofToken = none)
    (hf : ∀ b, Keeps contract (n - 1) (f b)) (hg : Keeps contract n g) : Keeps contract n x := by
  intro inp hinp hlen
  cases inp with
  | nil => exact absurd rfl hinp.ne_nil
  | cons t rest =>
    cases hb : v t.type with
    | none =>
      rw [hnone t rest hb]
      exact hg _ hinp hlen
    | some b =>
      refine consumes_ends (hf b) (hsome t rest b hb) (fun ht => ?_) hinp hlen
      rw [ht, hv] at hb
      cases hb

theorem stoi_keeps (s : Str) : Keeps contract n (stoi s) :=
  Keeps.ite (Keeps.throw trivial) (Keeps.ite (Keeps.pure _) (Keeps.throw trivial))

theorem whileMatch_keeps {body : β → P β} (hk : k ≠ .eofToken) (hbody : ∀ b, Keeps contract n (body b))
    (b : β) : Keeps contract n (do
      let tokens ← get
      whileMatch k body (tokens.length + 1) b) := by
  have hloop : ∀ {fuel m : Nat} (b : β), m ≤ n → m ≤ fuel → Keeps contract m (whileMatch k body fuel b) := by
    intro fuel
    induction fuel with
    | zero =>
      intro m b _ hm inp hinp hlen
      exact absurd (List.length_eq_zero_iff.mp (Nat.le_zero.mp (hlen.trans hm))) hinp.ne_nil
    | succ fuel ih =>
      intro m b hmn hm
      exact ifMatch_keeps hk (((hbody b).of_le ((Nat.sub_le ..).trans hmn)).bind fun b' =>
        ih b' ((Nat.sub_le ..).trans hmn) (Nat.sub_le_of_le_add hm)) (Keeps.pure b)
  exact Keeps.sized (f := fun m => whileMatch k body (m + 1) b)
    (fun m hm => hloop b hm (Nat.le_succ m)) fun _ _ => rfl

theorem commaList_keeps {item : P α} (h : Keeps contract n item) : Keeps contract n (commaList item) :=
  h.bind fun a => whileMatch_keeps (by decide) (fun _ => h.bind fun _ => Keeps.pure _) [a]

theorem leftAssoc_keeps {op : BinaryOp} {operand : P Expr} (hk : k ≠ .eofToken)
    (h : Keeps contract n operand) : Keeps contract n (leftAssoc k op operand) :=
  h.bind fun a => whileMatch_keeps hk (fun _ => h.bind fun _ => Keeps.pure _) a

section Levels
variable {prim : P Expr}

theorem parseComparison_keeps (h : Keeps contract n prim) : Keeps contract n (parseComparison prim) := by
  have heof : comparisonOp .eofToken = none := rfl
  refine h.bind fun left => switch_keeps ?_ ?_ heof
    (fun op => (h.of_le (Nat.sub_le ..)).bind fun r => Keeps.pure (.binaryOp op left r)) (Keeps.pure left)
  · intro t rest op hop
    rw [bind_ok (current_cons t rest), hop]
    rfl
  · intro t rest hop
    rw [bind_ok (current_cons t rest), hop]

theorem parseNot_keeps (h : Keeps contract n prim) : Keeps contract n (parseNot prim) :=
  ifMatch_keeps (by decide) ((parseComparison_keeps (h.of_le (Nat.sub_le ..))).bind fun _ => Keeps.pure _)
    (parseComparison_keeps h)

theorem parseOr_keeps (h : Keeps contract n prim) : Keeps contract n (parseOr prim) :=
  leftAssoc_keeps (by decide) (leftAssoc_keeps (by decide) (parseNot_keeps h))

theorem parseAggregate_keeps (h : Keeps contract n prim) (f : AggFunc) :
    Keeps contract n (parseAggregate prim f) := by
  have h' : Keeps contract (n - 1) prim := h.of_le (Nat.sub_le ..)
  exact expect_bind_keeps _ (by decide) fun _ => ifMatch_keeps (by decide)
    (expect_bind_keeps _ (by decide) fun _ => Keeps.pure _)
    ((parseOr_keeps h').bind fun _ => expect_bind_keeps _ (by decide) fun _ => Keeps.pure _)

end Levels

theorem parseColumnRef_keeps (name : Str) : Keeps contract n (parseColumnRef name) :=
  ifMatch_keeps (by decide) (expect_bind_keeps _ (by decide) fun _ => Keeps.pure _) (Keeps.pure _)

theorem parseName_keeps : Keeps contract n (do
    if ← check .identifier then parseColumnRef (← consume).value
    else throw (.runtimeError (lit "Unexpected token in expression: '" ++ (← current).value ++ lit "'"))) :=
  ifCheck_keeps (by decide) (fun t => parseColumnRef_keeps t.value)
    (current_keeps.bind fun _ => Keeps.throw trivial)

theorem parsePrimaryLoop_keeps {fuel : Nat} (hn : n ≤ fuel) : Keeps contract n (parsePrimaryLoop fuel) := by
  induction fuel generalizing n with
  | zero =>
    intro inp hinp hlen
    exact absurd (List.length_eq_zero_iff.mp (Nat.le_zero.mp (hlen.trans hn))) hinp.ne_nil
  | succ fuel ih =>
    have h := ih (Nat.sub_le_of_le_add hn)
    have heof : aggName .eofToken = none := rfl
    refine ifMatch_keeps (by decide)
      ((parseOr_keeps h).bind fun _ => expect_bind_keeps _ (by decide) fun _ => Keeps.pure _)
      (ifMatch_keeps (by decide) (Keeps.pure _) (ifCheck_keeps ?_
        (fun t => (stoi_keeps t.value).bind fun _ => Keeps.pure _) (ifCheck_keeps ?_
          (fun _ => Keeps.pure _) (switch_keeps ?hsome ?hnone heof (fun f => parseAggregate_keeps h f)
            parseName_keeps))))
    case hsome =>
      intro t rest f hf
      rw [bind_ok (current_cons t rest), hf]
      rfl
    case hnone =>
      intro t rest hf
      rw [bind_ok (current_cons t rest), hf]
    all_goals decide

theorem parsePrimary_keeps : Keeps contract n parsePrimary :=
  Keeps.sized (f := fun m => parsePrimaryLoop (m + 1)) (fun m _ => parsePrimaryLoop_keeps (Nat.le_succ m))
    fun _ _ => rfl

theorem parseExpr_keeps : Keeps contract n parseExpr := parseOr_keeps parsePrimary_keeps

/-! ## Statements -/

theorem parseColumnDef_keeps : Keeps contract n parseColumnDef :=
  expect_bind_keeps _ (by decide) fun _ => ifMatch_keeps (by decide) (Keeps.pure _)
    (ifMatch_keeps (by decide) (expect_bind_keeps _ (by decide) fun _ => expect_bind_keeps _ (by decide) fun t =>
      (stoi_keeps t.value).bind fun _ => expect_bind_keeps _ (by decide) fun _ => Keeps.pure _)
      (Keeps.throw trivial))

theorem parseCreateTable_keeps : Keeps contract n parseCreateTable :=
  expect_bind_keeps _ (by decide) fun _ => expect_bind_keeps _ (by decide) fun _ =>
    expect_bind_keeps _ (by decide) fun _ => (commaList_keeps parseColumnDef_keeps).bind fun _ =>
      expect_bind_keeps _ (by decide) fun _ => Keeps.pure _

theorem parseInsert_keeps : Keeps contract n parseInsert :=
  expect_bind_keeps _ (by decide) fun _ => expect_bind_keeps _ (by decide) fun _ =>
    expect_bind_keeps _ (by decide) fun _ => expect_bind_keeps _ (by decide) fun _ =>
      (commaList_keeps parsePrimary_keeps).bind fun _ => expect_bind_keeps _ (by decide) fun _ => Keeps.pure _

theorem parseSelectItem_keeps : Keeps contract n parseSelectItem :=
  parseExpr_keeps.bind fun _ => ifMatch_keeps (by decide)
    (expect_bind_keeps _ (by decide) fun _ => Keeps.pure _) (Keeps.pure _)

theorem parseAlias_keeps : Keeps contract n parseAlias :=
  ifMatch_keeps (by decide) (expect_bind_keeps _ (by decide) fun _ => Keeps.pure _)
    (ifCheck_keeps (by decide) (fun _ => Keeps.pure _) (Keeps.pure _))

theorem parseJoin_keeps : Keeps contract n parseJoin :=
  expect_bind_keeps _ (by decide) fun _ => parseAlias_keeps.bind fun _ =>
    expect_bind_keeps _ (by decide) fun _ => parseExpr_keeps.bind fun _ => Keeps.pure _

theorem parseJoins_keeps : Keeps contract n parseJoins :=
  whileMatch_keeps (by decide) (fun _ => parseJoin_keeps.bind fun _ => Keeps.pure _) []

theorem parseWhere_keeps : Keeps contract n parseWhere :=
  ifMatch_keeps (by decide) (parseExpr_keeps.bind fun _ => Keeps.pure _) (Keeps.pure _)

theorem parseGroupBy_keeps : Keeps contract n parseGroupBy :=
  ifMatch_keeps (by decide) (expect_bind_keeps _ (by decide) fun _ => commaList_keeps parsePrimary_keeps)
    (Keeps.pure _)

theorem parseOrderByItem_keeps : Keeps contract n parseOrderByItem :=
  parsePrimary_keeps.bind fun _ => ifMatch_keeps (by decide) (Keeps.pure _)
    (ifMatch_keeps (by decide) (Keeps.pure _) (Keeps.pure _))

theorem parseOrderBy_keeps : Keeps contract n parseOrderBy :=
  ifMatch_keeps (by decide) (expect_bind_keeps _ (by decide) fun _ => commaList_keeps parseOrderByItem_keeps)
    (Keeps.pure _)

theorem parseSelect_keeps : Keeps contract n parseSelect :=
  (commaList_keeps parseSelectItem_keeps).bind fun _ => expect_bind_keeps _ (by decide) fun _ =>
    expect_bind_keeps _ (by decide) fun _ => parseAlias_keeps.bind fun _ => parseJoins_keeps.bind fun _ =>
      parseWhere_keeps.bind fun _ => parseGroupBy_keeps.bind fun _ => parseOrderBy_keeps.bind fun _ =>
        Keeps.pure _

theorem parseStatement_keeps : Keeps contract n parseStatement :=
  ifMatch_keeps (by decide) (parseCreateTable_keeps.bind fun _ => Keeps.pure _)
    (ifMatch_keeps (by decide) (parseInsert_keeps.bind fun _ => Keeps.pure _)
      (ifMatch_keeps (by decide) (parseSelect_keeps.bind fun _ => Keeps.pure _)
        (ifMatch_keeps (by decide) ((expect_bind_keeps _ (by decide) fun _ => parseSelect_keeps).bind
          fun _ => Keeps.pure _) (Keeps.throw trivial))))

theorem matchToken_keeps (hk : k ≠ .eofToken) : Keeps contract n (matchToken k) := by
  intro inp hinp hlen
  cases inp with
  | nil => exact absurd rfl hinp.ne_nil
  | cons t rest =>
    rw [matchToken_cons]
    split_ifs with ht
    · exact ⟨hinp.tail (ht ▸ hk), Nat.le_succ _⟩
    · exact ⟨hinp, le_rfl⟩

theorem parse_keeps : Keeps contract n parse :=
  parseStatement_keeps.bind fun _ => (matchToken_keeps (by decide)).bind fun _ => Keeps.pure _

/-- `Tokenize` ends, and where it returns there is one `EOF_TOKEN`, the last; on
tokens of that shape `Parse` ends too, with a statement or with an exception. -/
theorem tokenize_parse_end (sql : Str) :
    ((∃ msg, Lexer.tokenize sql = .error (.runtimeError msg)) ∨
      ∃ tokens, Lexer.tokenize sql = .ok tokens ∧ Closed tokens) ∧
    ∀ tokens, Closed tokens →
      (∃ stmt rest, parse tokens = .ok stmt rest ∧ Closed rest) ∨
        ∃ e rest, parse tokens = .error e rest ∧ e.IsException := by
  constructor
  · refine (Lexer.tokenize_total sql).imp_right ?_
    rintro ⟨tokens, h⟩
    obtain ⟨ts, eof, htok⟩ := Lexer.tokenize_tokenized h
    exact ⟨tokens, h, ts, eof, htok.eq_append, htok.eof_type, htok.ne_eof⟩
  · intro tokens hclosed
    have h := parse_keeps tokens hclosed le_rfl
    cases hrun : parse tokens with
    | ok stmt rest =>
      rw [hrun] at h
      exact Or.inl ⟨stmt, rest, rfl, h.1⟩
    | error e rest =>
      rw [hrun] at h
      exact Or.inr ⟨e, rest, rfl, h⟩

theorem tokenize_parse_end_truncated :
    Lexer.tokenize (lit "SELECT") = .ok [⟨.select, lit "SELECT", 1⟩, ⟨.eofToken, [], 1⟩] ∧
    ((∃ stmt rest, parse [⟨.select, lit "SELECT", 1⟩, ⟨.eofToken, [], 1⟩] = .ok stmt rest ∧ Closed rest) ∨
      ∃ e rest, parse [⟨.select, lit "SELECT", 1⟩, ⟨.eofToken, [], 1⟩] = .error e rest ∧ e.IsException) := by
  have hclosed : Closed [⟨.select, lit "SELECT", 1⟩, ⟨.eofToken, [], 1⟩] :=
    ⟨[⟨.select, lit "SELECT", 1⟩], ⟨.eofToken, [], 1⟩, rfl, rfl, by decide⟩
  exact ⟨by decide +kernel, (tokenize_parse_end (lit "SELECT")).2 _ hclosed⟩

end MyDB.Parser

import MyDB.Parser.ParserReads

/-! What `Parse` makes of the tokens of a whole input: a derivation of the
grammar gives its tree, and a statement that comes before the end of the input
is returned as if the rest were not there. -/

namespace MyDB.Parser
open Lib

/-! ## The tokens of the lexer -/

structure Tokenized (tokens ts : List Token) (eof : Token) : Prop where
  eq_append : tokens = ts ++ [eof]
  eof_type : eof.type = .eofToken
  ne_eof : ∀ t ∈ ts, t.type ≠ .eofToken
  wf : ∀ t ∈ ts, t.WellFormed

namespace Lexer
variable {l l' : Lexer} {t : Token}

theorem lookup_ne {α : Type} [BEq α] [LawfulBEq α] {table : List (α × TokenType)} {a : α}
    {type k : TokenType} (hk : k ∉ table.map Prod.snd) (h : table.lookup a = some type) : type ≠ k := by
  obtain ⟨l₁, l₂, rfl, -⟩ := List.lookup_eq_some_iff.mp h
  rintro rfl
  refine hk ?_
  rw [List.map_append, List.map_cons]
  exact List.mem_append_right _ List.mem_cons_self

theorem readNumber_wf {c : UInt8} {s : Str} {line : Nat} (hc : isDigit c)
    (h : readNumber ⟨c :: s, line⟩ = .ok (t, l')) : t.WellFormed := by
  cases h
  intro _
  constructor
  · rw [List.takeWhile_cons_of_pos hc]
    exact List.cons_ne_nil _ _
  · exact fun x hx => List.mem_takeWhile_imp hx

theorem readString_type (h : readString l = .ok (t, l')) : t.type = .stringLiteral := by
  unfold readString at h
  cases hd : l.input.dropWhile (· ≠ quote) with
  | nil =>
    simp only [hd] at h
    cases h
  | cons x xs =>
    simp only [hd] at h
    cases h
    rfl

theorem readIdentifierOrKeyword_type (h : readIdentifierOrKeyword l = .ok (t, l')) :
    t.type ≠ .intLiteral := by
  unfold readIdentifierOrKeyword at h
  cases hk : keywords.lookup ((l.input.takeWhile isIdentifierChar).map toUpper) with
  | none =>
    simp only [hk] at h
    cases h
    exact TokenType.noConfusion
  | some type =>
    simp only [hk] at h
    cases h
    exact lookup_ne (by decide) hk

theorem readSymbol_type_ne {c : UInt8} {type : TokenType} (h : readSymbol c l = .ok (t, l'))
    (hone : type ∉ symbols.map Prod.snd) (htwo : type ∉ symbolPairs.map Prod.snd)
    (hhead : type ∉ symbolHeads.map Prod.snd) : t.type ≠ type := by
  unfold readSymbol at h
  split at h
  · next hs =>
    cases h
    exact lookup_ne hone hs
  · next hp =>
    cases h
    obtain ⟨c', -, hl⟩ := Option.bind_eq_some_iff.mp hp
    exact lookup_ne htwo hl
  · next hh =>
    cases h
    exact lookup_ne hhead hh
  · cases h

theorem nextToken_wf (h : nextToken l = .ok (t, l')) : t.WellFormed := by
  unfold nextToken at h
  rcases hs : skipWhitespace l.input l.line with ⟨_ | ⟨c, s⟩, line⟩
  · simp only [hs] at h
    cases h
    exact fun h => TokenType.noConfusion h
  · simp only [hs] at h
    split_ifs at h with hd hq ha
    · exact readNumber_wf hd h
    · exact fun hint => absurd ((readString_type h).symm.trans hint) TokenType.noConfusion
    · exact fun hint => absurd hint (readIdentifierOrKeyword_type h)
    · exact fun hint => absurd hint (readSymbol_type_ne h (by decide) (by decide) (by decide))

theorem tokenizeLoop_eq_ok {P : Token → Prop}
    (hnext : ∀ {l : Lexer} {t : Token} {l' : Lexer}, nextToken l = .ok (t, l') → P t) {fuel : Nat}
    {acc tokens : List Token} (hacc : ∀ t ∈ acc, t.type ≠ .eofToken ∧ P t) (h : tokenizeLoop fuel l acc = .ok tokens) :
    ∃ ts eof, tokens = ts ++ [eof] ∧ eof.type = .eofToken ∧ P eof ∧ ∀ t ∈ ts, t.type ≠ .eofToken ∧ P t := by
  induction fuel generalizing l acc with
  | zero => cases h
  | succ fuel ih =>
    unfold tokenizeLoop at h
    cases hn : nextToken l with
    | error e =>
      rw [hn] at h
      cases h
    | ok r =>
      obtain ⟨t, l'⟩ := r
      rw [hn] at h
      change (if t.type = .eofToken then Except.ok (acc ++ [t]) else tokenizeLoop fuel l' (acc ++ [t])) = _ at h
      split_ifs at h with ht
      · cases h
        exact ⟨acc, t, rfl, ht, hnext hn, hacc⟩
      · refine ih ?_ h
        simp only [List.forall_mem_append, List.forall_mem_singleton]
        exact ⟨hacc, ht, hnext hn⟩

theorem tokenize_tokenized {sql : Str} {tokens : List Token} (h : tokenize sql = .ok tokens) :
    ∃ ts eof, Tokenized tokens ts eof := by
  obtain ⟨ts, eof, hts, heof, -, hall⟩ := tokenizeLoop_eq_ok nextToken_wf (by simp) h
  exact ⟨ts, eof, hts, heof, fun t ht => (hall t ht).1, fun t ht => (hall t ht).2⟩

end Lexer

namespace Tokenized
variable {tokens ts us vs : List Token} {eof t : Token} {stmt : Statement}

theorem wellFormed (h : Tokenized tokens ts eof) : ∀ t ∈ tokens, alphabet.Wf t := by
  intro t ht
  rw [h.eq_append] at ht
  rcases List.mem_append.mp ht with ht | ht
  · exact h.wf t ht
  · obtain rfl := List.mem_singleton.mp ht
    exact fun hint => absurd (h.eof_type.symm.trans hint) TokenType.noConfusion

theorem eq_nil_of_eof (h : Tokenized tokens ts eof) (e : tokens = us ++ t :: vs) (ht : t.type = .eofToken) :
    vs = [] := by
  have e' := h.eq_append.symm.trans e
  rcases List.append_eq_append_iff.mp e' with ⟨ws, rfl, hws⟩ | ⟨ws, rfl, hws⟩
  · cases ws with
    | nil => exact (List.cons.inj hws).2.symm
    | cons w ws => exact absurd (List.append_eq_nil_iff.mp (List.cons.inj hws).2.symm).2 (by simp)
  · cases ws with
    | nil => exact (List.cons.inj hws).2
    | cons w ws =>
      obtain ⟨rfl, -⟩ := List.cons.inj hws
      exact absurd ht (h.ne_eof _ (List.mem_append_right _ List.mem_cons_self))

theorem parse_ne_nil (h : Tokenized tokens ts eof) : parse tokens ≠ .ok stmt [] := by
  intro hrun
  cases hst : parseStatement tokens with
  | error e r =>
    rw [parse, bind_error hst] at hrun
    cases hrun
  | ok stmt' mid =>
    rw [parse, bind_ok hst] at hrun
    cases mid with
    | nil => cases hrun
    | cons t mid =>
      obtain ⟨us, e, -⟩ := (parseStatement_reads.run_iff le_rfl h.wellFormed).mp hst
      by_cases hk : t.type = .semicolon
      · have hm : matchToken .semicolon (t :: mid) = .ok true mid := by rw [matchToken_cons, if_pos hk]
        rw [bind_ok hm] at hrun
        cases hrun
        obtain ⟨-, e'⟩ := List.append_inj' (h.eq_append.symm.trans e) rfl
        obtain rfl := List.singleton_inj.mp e'
        exact absurd (h.eof_type.symm.trans hk) TokenType.noConfusion
      · have hm : matchToken .semicolon (t :: mid) = .ok false (t :: mid) := by
          rw [matchToken_cons, if_neg hk]
        rw [bind_ok hm] at hrun
        cases hrun

end Tokenized

/-! ## A whole input -/

/-- `Parse` on the tokens of a derivation returns the tree of the derivation. -/
theorem parse_input {us : List Token} {stmt : Statement} (h : input us stmt) {eof : Token}
    (heof : eof.type = .eofToken) : parse (us ++ [eof]) = .ok stmt [eof] := by
  have hll := (parse_reads (n := 0)).ll
  refine (parse_reads.run_iff le_rfl fun t ht => ?_).mpr ⟨us, rfl, h, ?_⟩
  · rcases List.mem_append.mp ht with ht | ht
    · exact (hll us.length).wf le_rfl h t ht
    · obtain rfl := List.mem_singleton.mp ht
      exact fun hint => absurd (heof.symm.trans hint) TokenType.noConfusion
  · rintro ⟨vs, stmt', hv⟩
    have hmem := (hll _).cont (Nat.lt_succ_self _) h hv
    change eof.type ∈ _ at hmem
    rw [heof] at hmem
    exact absurd hmem (by decide)

theorem parse_input_select :
    parse [⟨.select, [], 1⟩, ⟨.star, [], 1⟩, ⟨.from, [], 1⟩, ⟨.identifier, lit "t", 1⟩, ⟨.where, [], 1⟩,
        ⟨.identifier, lit "a", 1⟩, ⟨.or, [], 1⟩, ⟨.identifier, lit "b", 1⟩, ⟨.and, [], 1⟩, ⟨.not, [], 1⟩,
        ⟨.lparen, [], 1⟩, ⟨.identifier, lit "c", 1⟩, ⟨.rparen, [], 1⟩, ⟨.eq, [], 1⟩,
        ⟨.intLiteral, lit "1", 1⟩, ⟨.semicolon, [], 1⟩, ⟨.eofToken, [], 1⟩] =
      .ok (.select ⟨[⟨.star, []⟩], lit "t", [], [], some (.binaryOp .or (.columnRef [] (lit "a"))
        (.binaryOp .and (.columnRef [] (lit "b"))
          (.not (.binaryOp .eq (.columnRef [] (lit "c")) (.intLiteral 1))))), [], []⟩)
        [⟨.eofToken, [], 1⟩] := by
  have hcol : ∀ s, Derives .not [⟨.identifier, s, 1⟩] (.columnRef [] s) := fun s =>
    .notCmp (.cmpPrim (.column rfl))
  have hc : Derives .prim [⟨.lparen, [], 1⟩, ⟨.identifier, lit "c", 1⟩, ⟨.rparen, [], 1⟩]
      (.columnRef [] (lit "c")) := .paren rfl (.exprAnd (.andNot (hcol _))) rfl
  have h1 : Derives .prim [⟨.intLiteral, lit "1", 1⟩] (.intLiteral 1) :=
    .int ⟨rfl, by decide +kernel, by decide +kernel, by decide +kernel, by decide⟩
  have hnot : Derives .not [⟨.not, [], 1⟩, ⟨.lparen, [], 1⟩, ⟨.identifier, lit "c", 1⟩, ⟨.rparen, [], 1⟩,
      ⟨.eq, [], 1⟩, ⟨.intLiteral, lit "1", 1⟩] (.not (.binaryOp .eq (.columnRef [] (lit "c")) (.intLiteral 1))) :=
    .not rfl (.cmp hc rfl h1)
  have hwhere := Derives.or (.exprAnd (.andNot (hcol (lit "a")))) (t := ⟨.or, [], 1⟩) rfl
    (.and (.andNot (hcol (lit "b"))) (t := ⟨.and, [], 1⟩) rfl hnot)
  have hstar : selectItem [⟨.star, [], 1⟩] ⟨.star, []⟩ :=
    ⟨_, [], _, rfl, .exprAnd (.andNot (.notCmp (.cmpPrim (.star rfl)))), Or.inr ⟨rfl, rfl⟩⟩
  have hselect : select _ _ :=
    ⟨[⟨.star, [], 1⟩], _, [⟨.star, []⟩], rfl, ⟨_, [], _, rfl, hstar, .done _⟩,
      [⟨.from, [], 1⟩], _, _, rfl, ⟨rfl, rfl⟩, [⟨.identifier, lit "t", 1⟩], _, _, rfl, ⟨rfl, rfl⟩,
      [], _, [], rfl, Or.inr (Or.inr ⟨rfl, rfl⟩), [], _, [], rfl, .done _,
      _, [], _, rfl, Or.inl ⟨[⟨.where, [], 1⟩], _, _, rfl, ⟨rfl, rfl⟩, _, [], _, rfl, hwhere, rfl, rfl⟩,
      [], [], [], rfl, Or.inr ⟨rfl, rfl⟩, [], [], [], rfl, Or.inr ⟨rfl, rfl⟩, rfl, rfl⟩
  have hinput : input _ _ :=
    ⟨_, [⟨.semicolon, [], 1⟩], _, rfl, Or.inr (Or.inr (Or.inl
      ⟨[⟨.select, [], 1⟩], _, _, rfl, ⟨rfl, rfl⟩, _, [], _, rfl, hselect, rfl, rfl⟩)),
      Or.inl ⟨[⟨.semicolon, [], 1⟩], [], _, rfl, ⟨rfl, rfl⟩, rfl, rfl⟩⟩
  have h := parse_input hinput (show Token.type ⟨.eofToken, [], 1⟩ = .eofToken from rfl)
  simpa only [List.append_assoc, List.cons_append, List.nil_append, List.append_nil] using h

/-- `Parse` leaves nothing but the end of the input exactly if every statement
that the tokens begin with can go on with the token after it. -/
theorem parse_consumes_input_iff {sql : Str} {tokens : List Token} (h : Lexer.tokenize sql = .ok tokens) :
    (∀ stmt rest, parse tokens = .ok stmt rest → rest.map Token.type = [.eofToken]) ↔
      ∀ us t vs stmt, tokens = us ++ t :: vs → t.type ≠ .eofToken → input us stmt → input.Cont us t := by
  obtain ⟨ts, eof, htok⟩ := Lexer.tokenize_tokenized h
  have hiff : ∀ {stmt t rest}, parse tokens = .ok stmt (t :: rest) ↔
      ∃ us, tokens = us ++ t :: rest ∧ input us stmt ∧ ¬ input.Cont us t :=
    parse_reads.run_iff le_rfl htok.wellFormed
  constructor
  · intro hall us t vs stmt e ht hin
    by_contra hcont
    have hrest := hall stmt (t :: vs) (hiff.mpr ⟨us, e, hin, hcont⟩)
    exact ht (List.cons.inj hrest).1
  · intro hall stmt rest hrun
    cases rest with
    | nil => exact absurd hrun htok.parse_ne_nil
    | cons t rest =>
      obtain ⟨us, e, hin, hstop⟩ := hiff.mp hrun
      have ht : t.type = .eofToken := by
        by_contra ht
        exact hstop (hall us t rest stmt e ht hin)
      obtain rfl := htok.eq_nil_of_eof e ht
      rw [List.map_singleton, ht]

theorem parse_consumes_input_select :
    let tokens : List Token := [⟨.select, lit "SELECT", 1⟩, ⟨.star, lit "*", 1⟩, ⟨.from, lit "FROM", 1⟩,
      ⟨.identifier, lit "t", 1⟩, ⟨.semicolon, lit ";", 1⟩, ⟨.eofToken, [], 1⟩]
    Lexer.tokenize (lit "SELECT * FROM t;") = .ok tokens ∧
    parse tokens = .ok (.select ⟨[⟨.star, []⟩], lit "t", [], [], none, [], []⟩) [⟨.eofToken, [], 1⟩] ∧
    ∀ us t vs stmt, tokens = us ++ t :: vs → t.type ≠ .eofToken → input us stmt → input.Cont us t := by
  intro tokens
  have h : Lexer.tokenize (lit "SELECT * FROM t;") = .ok tokens := by decide +kernel
  have hparse : parse tokens = .ok (.select ⟨[⟨.star, []⟩], lit "t", [], [], none, [], []⟩) [⟨.eofToken, [], 1⟩] := rfl
  refine ⟨h, hparse, (parse_consumes_input_iff h).mp ?_⟩
  intro stmt rest hrun
  cases hparse.symm.trans hrun
  rfl

/-- The `10` of `LIMIT 10` is left over, and `LIMIT` itself was read as an alias. -/
theorem parse_ignores_limit :
    Lexer.tokenize (lit "SELECT * FROM t LIMIT 10") = .ok [⟨.select, lit "SELECT", 1⟩, ⟨.star, lit "*", 1⟩,
      ⟨.from, lit "FROM", 1⟩, ⟨.identifier, lit "t", 1⟩, ⟨.identifier, lit "LIMIT", 1⟩,
      ⟨.intLiteral, lit "10", 1⟩, ⟨.eofToken, [], 1⟩] ∧
    parse [⟨.select, lit "SELECT", 1⟩, ⟨.star, lit "*", 1⟩, ⟨.from, lit "FROM", 1⟩, ⟨.identifier, lit "t", 1⟩,
      ⟨.identifier, lit "LIMIT", 1⟩, ⟨.intLiteral, lit "10", 1⟩, ⟨.eofToken, [], 1⟩] =
      .ok (.select ⟨[⟨.star, []⟩], lit "t", lit "LIMIT", [], none, [], []⟩)
        [⟨.intLiteral, lit "10", 1⟩, ⟨.eofToken, [], 1⟩] :=
  ⟨by decide +kernel, rfl⟩

end MyDB.Parser

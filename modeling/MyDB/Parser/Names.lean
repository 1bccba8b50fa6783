import MyDB.Lib.Fallible
import MyDB.Parser.ParseInput

/-! The names and numbers of a statement that was parsed: a name is one that the
lexer reads, and so has no dot in it, and a number is one that `int32_t` holds. -/

namespace MyDB.Parser
open Lib

/-! ## Statements -/

def Name (s : Str) : Prop := s ≠ [] ∧ dotChar ∉ s

def OptName (s : Str) : Prop := s = [] ∨ Name s

def Expr.Plain : Expr → Prop
  | .columnRef tableAlias colName => OptName tableAlias ∧ Name colName
  | .intLiteral v => 0 ≤ v ∧ v ≤ 2147483647
  | .stringLiteral _ => True
  | .binaryOp _ left right => left.Plain ∧ right.Plain
  | .not left => left.Plain
  | .star => True
  | .aggregate _ left => left.Plain
  | .aggregateStar _ => True

structure SelectStmt.Plain (stmt : SelectStmt) : Prop where
  items : ∀ item ∈ stmt.selectList, item.expr.Plain ∧ OptName item.aliasName
  fromTable : Name stmt.fromTable
  fromAlias : OptName stmt.fromAlias
  joins : ∀ j ∈ stmt.joins, Name j.tableName ∧ OptName j.aliasName ∧ j.condition.Plain
  whereClause : ∀ e ∈ stmt.whereClause, e.Plain
  groupBy : ∀ e ∈ stmt.groupBy, e.Plain
  orderBy : ∀ item ∈ stmt.orderBy, item.expr.Plain

def Statement.Plain : Statement → Prop
  | .createTable stmt => Name stmt.tableName ∧ ∀ c ∈ stmt.columns, Name c.name ∧ c.maxLen < 65536
  | .insert stmt => Name stmt.tableName ∧ ∀ e ∈ stmt.values, e.Plain
  | .select stmt => stmt.Plain
  | .explain stmt => stmt.Plain

/-! ## The lexer -/

def Token.Named (t : Token) : Prop := t.type = .identifier → Name t.value

namespace Lexer
variable {l l' : Lexer} {t : Token}

theorem not_dot_of_isIdentifierChar {c : UInt8} (h : isIdentifierChar c) : c ≠ dotChar := by
  rintro rfl
  revert h
  decide

theorem readIdentifierOrKeyword_named {c : UInt8} {s : Str} {line : Nat} (hc : isIdentifierChar c)
    (h : readIdentifierOrKeyword ⟨c :: s, line⟩ = .ok (t, l')) : t.Named := by
  intro htype
  unfold readIdentifierOrKeyword at h
  cases hk : keywords.lookup (((c :: s).takeWhile isIdentifierChar).map toUpper) with
  | some type =>
    simp only [hk] at h
    cases h
    exact absurd htype (lookup_ne (by decide) hk)
  | none =>
    simp only [hk] at h
    cases h
    constructor
    · simp [hc]
    · intro hdot
      exact not_dot_of_isIdentifierChar (List.mem_takeWhile_imp hdot) rfl

theorem nextToken_named (h : nextToken l = .ok (t, l')) : t.Named := by
  unfold nextToken at h
  rcases hs : skipWhitespace l.input l.line with ⟨_ | ⟨c, s⟩, line⟩
  · simp only [hs] at h
    cases h
    exact nofun
  · simp only [hs] at h
    split_ifs at h with hd hq ha
    · cases h
      exact nofun
    · exact fun hid => absurd ((readString_type h).symm.trans hid) TokenType.noConfusion
    · refine readIdentifierOrKeyword_named ?_ h
      simp only [isIdentifierChar, Bool.or_eq_true] at ha ⊢
      tauto
    · exact fun hid => absurd hid (readSymbol_type_ne h (by decide) (by decide) (by decide))

theorem tokenize_named {sql : Str} {tokens : List Token} (h : tokenize sql = .ok tokens) : ∀ t ∈ tokens, t.Named := by
  obtain ⟨ts, eof, rfl, -, heof, hall⟩ := tokenizeLoop_eq_ok nextToken_named (by simp) h
  simp only [List.forall_mem_append, List.forall_mem_singleton]
  exact ⟨fun t ht => (hall t ht).2, heof⟩

end Lexer

/-! ## The grammar -/

section Denotes
variable {α β : Type} {Q : α → Prop} {R : β → Prop}

theorem denotes_identifier {K : Token → Lang Token β} (h : ∀ t, Name t.value → (K t).Denotes Token.Named R) :
    (tok .identifier >>= K).Denotes Token.Named R :=
  (Lang.denotes_tok alphabet.kind .identifier).bind fun t ht => h t (ht.1 ht.2)

theorem denotes_keyword {k : TokenType} {K : Token → Lang Token β} (h : ∀ t, (K t).Denotes Token.Named R) :
    (tok k >>= K).Denotes Token.Named R :=
  (Lang.denotes_tok alphabet.kind k).bind fun t _ => h t

theorem denotes_sepBy {item : Lang Token α} (h : item.Denotes Token.Named Q) :
    (sepBy item).Denotes Token.Named fun list => ∀ a ∈ list, Q a := by
  apply h.bind
  intro first hfirst
  apply Lang.denotes_iter
  · intro list hlist
    apply denotes_keyword
    intro _
    apply h.bind
    intro a ha
    apply Lang.denotes_pure
    simp only [List.forall_mem_append, List.forall_mem_singleton]
    exact ⟨hlist, ha⟩
  · simpa using hfirst

theorem denotes_numeral : numeral.Denotes Token.Named fun v => 0 ≤ v ∧ v ≤ 2147483647 where
  of_word := by
    rintro us v - ⟨t, rfl, hv⟩
    refine ⟨?_, hv.le_max⟩
    rw [hv.value_eq]
    exact Int.natCast_nonneg _

theorem Derives.plain {level : Level} {us : List Token} {e : Expr} (h : Derives level us e)
    (hW : ∀ t ∈ us, t.Named) : e.Plain := by
  induction h with
  | exprAnd _ ih => exact ih hW
  | or _ _ _ ihl ihr =>
    simp only [List.forall_mem_append, List.forall_mem_cons] at hW
    exact ⟨ihl hW.1, ihr hW.2.2⟩
  | andNot _ ih => exact ih hW
  | and _ _ _ ihl ihr =>
    simp only [List.forall_mem_append, List.forall_mem_cons] at hW
    exact ⟨ihl hW.1, ihr hW.2.2⟩
  | notCmp _ ih => exact ih hW
  | not _ _ ih => exact ih (List.forall_mem_cons.mp hW).2
  | cmpPrim _ ih => exact ih hW
  | cmp _ _ _ ihl ihr =>
    simp only [List.forall_mem_append, List.forall_mem_cons] at hW
    exact ⟨ihl hW.1, ihr hW.2.2⟩
  | paren _ _ _ ih =>
    simp only [List.forall_mem_append, List.forall_mem_cons] at hW
    exact ih hW.2.1
  | star _ => trivial
  | int hv => exact denotes_numeral.of_word hW ⟨_, rfl, hv⟩
  | string _ => trivial
  | aggStar _ _ _ _ => trivial
  | agg _ _ _ _ _ ih =>
    simp only [List.forall_mem_append, List.forall_mem_cons] at hW
    exact ih hW.2.2.1
  | column ht => exact ⟨Or.inl rfl, hW _ List.mem_cons_self ht⟩
  | qualified ht _ ht₂ =>
    simp only [List.forall_mem_cons] at hW
    exact ⟨Or.inr (hW.1 ht), hW.2.2.1 ht₂⟩

theorem denotes_derives (level : Level) : Lang.Denotes Token.Named (Derives level) Expr.Plain where
  of_word hW h := h.plain hW

theorem denotes_columnDef : columnDef.Denotes Token.Named fun c => Name c.name ∧ c.maxLen < 65536 := by
  apply denotes_identifier
  intro name hname
  apply Lang.Denotes.alt
  · apply denotes_keyword
    intro _
    exact Lang.denotes_pure ⟨hname, Nat.zero_lt_succ _⟩
  apply Lang.Denotes.alt
  · apply denotes_keyword
    intro _
    apply denotes_keyword
    intro _
    apply denotes_numeral.bind
    intro len _
    apply denotes_keyword
    intro _
    apply Lang.denotes_pure
    refine ⟨hname, ?_⟩
    dsimp only
    omega
  · exact Lang.denotes_empty

theorem denotes_createTable :
    createTable.Denotes Token.Named fun stmt => (Statement.createTable stmt).Plain := by
  apply denotes_keyword
  intro _
  apply denotes_identifier
  intro name hname
  apply denotes_keyword
  intro _
  apply (denotes_sepBy denotes_columnDef).bind
  intro columns hcolumns
  apply denotes_keyword
  intro _
  exact Lang.denotes_pure ⟨hname, hcolumns⟩

theorem denotes_insert : insert.Denotes Token.Named fun stmt => (Statement.insert stmt).Plain := by
  apply denotes_keyword
  intro _
  apply denotes_identifier
  intro name hname
  apply denotes_keyword
  intro _
  apply denotes_keyword
  intro _
  apply (denotes_sepBy (denotes_derives .prim)).bind
  intro values hvalues
  apply denotes_keyword
  intro _
  exact Lang.denotes_pure ⟨hname, hvalues⟩

theorem denotes_selectItem :
    selectItem.Denotes Token.Named fun item => item.expr.Plain ∧ OptName item.aliasName := by
  apply (denotes_derives .expr).bind
  intro expr hexpr
  apply Lang.Denotes.alt
  · apply denotes_keyword
    intro _
    apply denotes_identifier
    intro name hname
    exact Lang.denotes_pure ⟨hexpr, Or.inr hname⟩
  · exact Lang.denotes_pure ⟨hexpr, Or.inl rfl⟩

theorem denotes_tableAlias : tableAlias.Denotes Token.Named OptName := by
  apply Lang.Denotes.alt
  · apply denotes_keyword
    intro _
    apply denotes_identifier
    intro name hname
    exact Lang.denotes_pure (Or.inr hname)
  apply Lang.Denotes.alt
  · apply denotes_identifier
    intro name hname
    exact Lang.denotes_pure (Or.inr hname)
  · exact Lang.denotes_pure (Or.inl rfl)

theorem denotes_joins : joins.Denotes Token.Named fun list =>
    ∀ j ∈ list, Name j.tableName ∧ OptName j.aliasName ∧ j.condition.Plain := by
  apply Lang.denotes_iter
  · intro list hlist
    apply denotes_keyword
    intro _
    refine Lang.Denotes.bind (Q := fun j => Name j.tableName ∧ OptName j.aliasName ∧ j.condition.Plain) ?_ ?_
    · apply denotes_identifier
      intro name hname
      apply denotes_tableAlias.bind
      intro aliasName halias
      apply denotes_keyword
      intro _
      apply (denotes_derives .expr).bind
      intro condition hcondition
      exact Lang.denotes_pure ⟨hname, halias, hcondition⟩
    · intro j hj
      apply Lang.denotes_pure
      simp only [List.forall_mem_append, List.forall_mem_singleton]
      exact ⟨hlist, hj⟩
  · simp

theorem denotes_whereClause : whereClause.Denotes Token.Named fun cond => ∀ e ∈ cond, e.Plain := by
  apply Lang.Denotes.alt
  · apply denotes_keyword
    intro _
    apply (denotes_derives .expr).bind
    intro e he
    apply Lang.denotes_pure
    simpa using he
  · exact Lang.denotes_pure (by simp)

theorem denotes_groupBy : groupBy.Denotes Token.Named fun list => ∀ e ∈ list, e.Plain := by
  apply Lang.Denotes.alt
  · apply denotes_keyword
    intro _
    apply denotes_keyword
    intro _
    exact denotes_sepBy (denotes_derives .prim)
  · exact Lang.denotes_pure (by simp)

theorem denotes_orderByItem : orderByItem.Denotes Token.Named fun item => item.expr.Plain := by
  apply (denotes_derives .prim).bind
  intro expr hexpr
  apply Lang.Denotes.alt
  · apply denotes_keyword
    intro _
    exact Lang.denotes_pure hexpr
  apply Lang.Denotes.alt
  · apply denotes_keyword
    intro _
    exact Lang.denotes_pure hexpr
  · exact Lang.denotes_pure hexpr

theorem denotes_orderBy : orderBy.Denotes Token.Named fun list => ∀ item ∈ list, item.expr.Plain := by
  apply Lang.Denotes.alt
  · apply denotes_keyword
    intro _
    apply denotes_keyword
    intro _
    exact denotes_sepBy denotes_orderByItem
  · exact Lang.denotes_pure (by simp)

theorem denotes_select : select.Denotes Token.Named SelectStmt.Plain := by
  apply (denotes_sepBy denotes_selectItem).bind
  intro selectList hitems
  apply denotes_keyword
  intro _
  apply denotes_identifier
  intro fromTable hfrom
  apply denotes_tableAlias.bind
  intro fromAlias halias
  apply denotes_joins.bind
  intro joinList hjoins
  apply denotes_whereClause.bind
  intro cond hcond
  apply denotes_groupBy.bind
  intro group hgroup
  apply denotes_orderBy.bind
  intro order horder
  exact Lang.denotes_pure ⟨hitems, hfrom, halias, hjoins, hcond, hgroup, horder⟩

theorem denotes_statement : statement.Denotes Token.Named Statement.Plain := by
  apply Lang.Denotes.alt
  · apply denotes_keyword
    intro _
    exact denotes_createTable.bind fun stmt hstmt => Lang.denotes_pure hstmt
  apply Lang.Denotes.alt
  · apply denotes_keyword
    intro _
    exact denotes_insert.bind fun stmt hstmt => Lang.denotes_pure hstmt
  apply Lang.Denotes.alt
  · apply denotes_keyword
    intro _
    exact denotes_select.bind fun stmt hstmt => Lang.denotes_pure hstmt
  apply Lang.Denotes.alt
  · apply denotes_keyword
    intro _
    apply denotes_keyword
    intro _
    exact denotes_select.bind fun stmt hstmt => Lang.denotes_pure hstmt
  · exact Lang.denotes_empty

theorem denotes_input : input.Denotes Token.Named Statement.Plain := by
  apply denotes_statement.bind
  intro stmt hstmt
  apply Lang.Denotes.alt
  · apply denotes_keyword
    intro _
    exact Lang.denotes_pure hstmt
  · exact Lang.denotes_pure hstmt

end Denotes

theorem parse_plain {sql : Str} {tokens rest : List Token} {stmt : Statement} (h : Lexer.tokenize sql = .ok tokens)
    (hparse : parse tokens = .ok stmt rest) : stmt.Plain := by
  obtain ⟨ts, eof, htok⟩ := Lexer.tokenize_tokenized h
  cases rest with
  | nil => exact absurd hparse htok.parse_ne_nil
  | cons t rest =>
    obtain ⟨us, rfl, hin, -⟩ := (parse_reads.run_iff le_rfl htok.wellFormed).mp hparse
    exact denotes_input.of_word (fun t ht => Lexer.tokenize_named h t (List.mem_append_left _ ht)) hin

end MyDB.Parser

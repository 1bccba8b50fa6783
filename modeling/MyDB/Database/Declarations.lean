import MyDB.Database.Select
import MyDB.Lib.Fallible

/-! `CREATE TABLE` as it is written and as it is stored. The columns are those that are
declared, in order and with their types, but the length of a `VARCHAR` is kept in 16 bits. -/

namespace MyDB.Database
open MyDB.Storage MyDB.Parser MyDB.Lib

/-! ## Declarations -/

/-- A column as it is declared: an `INT`, or a `VARCHAR` of a length. -/
structure ColumnDecl where
  name : Str
  length : Option Nat

namespace ColumnDecl

def typeId (d : ColumnDecl) : TypeId := if d.length.isSome then .varchar else .int

def column (d : ColumnDecl) : Column := ⟨d.name, ⟨d.typeId, d.length.getD 0⟩⟩

def columnDef (d : ColumnDecl) : ColumnDef := ⟨d.name, d.typeId, d.length.getD 0 % 65536⟩

end ColumnDecl

/-- `id INT` or `id VARCHAR ( int )`. -/
inductive ColumnTokens : List Token → ColumnDecl → Prop
  | int {name kw : Token} (hname : name.type = .identifier) (hkw : kw.type = .intKw) :
      ColumnTokens [name, kw] ⟨name.value, none⟩
  | varchar {name kw l len r : Token} (hname : name.type = .identifier) (hkw : kw.type = .varcharKw)
      (hl : l.type = .lparen) (hlen : len.type = .intLiteral) (hr : r.type = .rparen) :
      ColumnTokens [name, kw, l, len, r] ⟨name.value, some (digitsValue len.value)⟩

/-- `{, column}`. -/
inductive MoreColumns : List Token → List ColumnDecl → Prop
  | nil : MoreColumns [] []
  | cons {comma : Token} {us vs : List Token} {d : ColumnDecl} {ds : List ColumnDecl} (hcomma : comma.type = .comma)
      (h : ColumnTokens us d) (hs : MoreColumns vs ds) : MoreColumns (comma :: (us ++ vs)) (d :: ds)

/-- `TABLE id ( column {, column} )`. -/
inductive Declares : List Token → Str → List ColumnDecl → Prop
  | mk {table name l r : Token} {us vs : List Token} {d : ColumnDecl} {ds : List ColumnDecl}
      (htable : table.type = .table) (hname : name.type = .identifier) (hl : l.type = .lparen)
      (h : ColumnTokens us d) (hs : MoreColumns vs ds) (hr : r.type = .rparen) :
      Declares (table :: name :: l :: (us ++ (vs ++ [r]))) name.value (d :: ds)

theorem ColumnTokens.unique {us us' vs vs' : List Token} {d d' : ColumnDecl} (h : ColumnTokens us d)
    (h' : ColumnTokens us' d') (heq : us ++ vs = us' ++ vs') : d = d' ∧ vs = vs' := by
  cases h with
  | int hname hkw =>
    cases h' with
    | int => cases heq; exact ⟨rfl, rfl⟩
    | varchar _ hkw' =>
      cases heq
      cases hkw.symm.trans hkw'
  | varchar hname hkw =>
    cases h' with
    | int _ hkw' =>
      cases heq
      cases hkw.symm.trans hkw'
    | varchar => cases heq; exact ⟨rfl, rfl⟩

theorem MoreColumns.unique {vs vs' : List Token} {r r' : Token} {ds ds' : List ColumnDecl} (h : MoreColumns vs ds)
    (h' : MoreColumns vs' ds') (hr : r.type = .rparen) (hr' : r'.type = .rparen) (heq : vs ++ [r] = vs' ++ [r']) :
    ds = ds' := by
  induction h generalizing vs' ds' with
  | nil =>
    cases h' with
    | nil => rfl
    | cons hcomma =>
      obtain ⟨rfl, -⟩ := List.cons.inj heq
      cases hcomma.symm.trans hr
  | cons hcomma h _ ih =>
    cases h' with
    | nil =>
      obtain ⟨rfl, -⟩ := List.cons.inj heq
      cases hcomma.symm.trans hr'
    | cons _ h₁ hs₁ =>
      rw [List.cons_append, List.cons_append, List.append_assoc, List.append_assoc] at heq
      obtain ⟨rfl, hrest⟩ := h.unique h₁ (List.cons.inj heq).2
      rw [ih hs₁ hrest]

theorem Declares.unique {us us' : List Token} {name name' : Str} {decls decls' : List ColumnDecl}
    (h : Declares us name decls) (h' : Declares us' name' decls') (heq : us' = us) : name' = name ∧ decls' = decls := by
  obtain ⟨-, -, -, hd, hs, hr⟩ := h
  obtain ⟨-, -, -, hd', hs', hr'⟩ := h'
  obtain ⟨-, hname⟩ := List.cons.inj heq
  obtain ⟨rfl, hl⟩ := List.cons.inj hname
  obtain ⟨rfl, hrest⟩ := hd'.unique hd (List.cons.inj hl).2
  rw [hs'.unique hs hr' hr hrest]
  exact ⟨rfl, rfl⟩

/-! ## The parser -/

section parser
variable {inp rest : List Token}

/-- The lengths that `std::stoi` returns. -/
def ColumnDecl.Parsed (d : ColumnDecl) : Prop := ∀ n ∈ d.length, n ≤ 2147483647

theorem parseColumnDef_eq_ok {c : ColumnDef} (hwf : ∀ t ∈ inp, t.WellFormed) (h : parseColumnDef inp = .ok c rest) :
    ∃ us d, inp = us ++ rest ∧ ColumnTokens us d ∧ d.Parsed ∧ c = d.columnDef := by
  obtain ⟨name, inp₁, hname, h₁⟩ := run_bind_eq_ok.mp h
  obtain ⟨rfl, hid⟩ := expect_run.mp hname
  cases inp₁ with
  | nil => cases h₁
  | cons kw inp₂ =>
    rw [ifMatch_cons] at h₁
    split_ifs at h₁ with hint
    · cases h₁
      exact ⟨_, _, rfl, .int hid hint, nofun, rfl⟩
    rw [ifMatch_cons] at h₁
    split_ifs at h₁ with hvarchar
    · obtain ⟨l, inp₃, hl, h₂⟩ := run_bind_eq_ok.mp h₁
      obtain ⟨rfl, hlType⟩ := expect_run.mp hl
      obtain ⟨len, inp₄, hlen, h₃⟩ := run_bind_eq_ok.mp h₂
      obtain ⟨rfl, hlenType⟩ := expect_run.mp hlen
      obtain ⟨v, inp₅, hv, h₄⟩ := run_bind_eq_ok.mp h₃
      obtain ⟨hne, hdigits⟩ := hwf len (by simp) hlenType
      rw [stoi_digits hne hdigits] at hv
      split_ifs at hv with hmax
      cases hv
      obtain ⟨r, inp₆, hr, h₅⟩ := run_bind_eq_ok.mp h₄
      obtain ⟨rfl, hrType⟩ := expect_run.mp hr
      cases h₅
      refine ⟨_, _, rfl, .varchar hid hvarchar hlType hlenType hrType, ?_, ?_⟩
      · rintro n ⟨⟩
        exact_mod_cast hmax
      · have hmod : ((digitsValue len.value : Int) % 65536).toNat = digitsValue len.value % 65536 := by omega
        rw [hmod]
        rfl
    · cases h₁

theorem moreColumns_eq_ok {fuel : Nat} {list list' : List ColumnDef} (hwf : ∀ t ∈ inp, t.WellFormed)
    (h : whileMatch .comma (fun list => do return list ++ [← parseColumnDef]) fuel list inp = .ok list' rest) :
    ∃ us ds, inp = us ++ rest ∧ MoreColumns us ds ∧ (∀ d ∈ ds, d.Parsed) ∧
      list' = list ++ ds.map ColumnDecl.columnDef := by
  induction fuel generalizing inp list with
  | zero => cases h
  | succ fuel ih =>
    cases inp with
    | nil => cases h
    | cons t inp =>
      rw [whileMatch, ifMatch_cons] at h
      split_ifs at h with hcomma
      · obtain ⟨b, inp₁, hb, h₁⟩ := run_bind_eq_ok.mp h
        obtain ⟨c, inp₂, hc, hpure⟩ := run_bind_eq_ok.mp hb
        cases hpure
        have hwf' : ∀ t ∈ inp, t.WellFormed := fun x hx => hwf x (List.mem_cons_of_mem t hx)
        obtain ⟨us, d, rfl, hd, hparsed, rfl⟩ := parseColumnDef_eq_ok hwf' hc
        obtain ⟨vs, ds, rfl, hds, hparseds, rfl⟩ := ih (fun x hx => hwf' x (List.mem_append_right us hx)) h₁
        refine ⟨t :: (us ++ vs), d :: ds, ?_, .cons hcomma hd hds, List.forall_mem_cons.mpr ⟨hparsed, hparseds⟩, ?_⟩
        · rw [List.cons_append, List.append_assoc]
        · rw [List.append_assoc, List.map_cons, List.singleton_append]
      · cases h
        exact ⟨[], [], rfl, .nil, List.forall_mem_nil _, (List.append_nil _).symm⟩

theorem parseCreateTable_eq_ok {stmt : CreateTableStmt} (hwf : ∀ t ∈ inp, t.WellFormed)
    (h : parseCreateTable inp = .ok stmt rest) :
    ∃ us name decls, inp = us ++ rest ∧ Declares us name decls ∧ (∀ d ∈ decls, d.Parsed) ∧
      stmt = ⟨name, decls.map ColumnDecl.columnDef⟩ := by
  obtain ⟨table, inp₁, htable, h₁⟩ := run_bind_eq_ok.mp h
  obtain ⟨rfl, htableType⟩ := expect_run.mp htable
  obtain ⟨name, inp₂, hname, h₂⟩ := run_bind_eq_ok.mp h₁
  obtain ⟨rfl, hnameType⟩ := expect_run.mp hname
  obtain ⟨l, inp₃, hl, h₃⟩ := run_bind_eq_ok.mp h₂
  obtain ⟨rfl, hlType⟩ := expect_run.mp hl
  have hwf' : ∀ t ∈ inp₃, t.WellFormed := fun x hx => hwf x (by simp [hx])
  obtain ⟨columns, inp₄, hcolumns, h₄⟩ := run_bind_eq_ok.mp h₃
  obtain ⟨first, inp₅, hfirst, h₅⟩ := run_bind_eq_ok.mp hcolumns
  obtain ⟨us, d, rfl, hd, hparsed, rfl⟩ := parseColumnDef_eq_ok hwf' hfirst
  obtain ⟨vs, ds, rfl, hds, hparseds, rfl⟩ :=
    moreColumns_eq_ok (fun x hx => hwf' x (List.mem_append_right us hx)) h₅
  obtain ⟨r, inp₆, hr, h₆⟩ := run_bind_eq_ok.mp h₄
  obtain ⟨rfl, hrType⟩ := expect_run.mp hr
  cases h₆
  refine ⟨_, name.value, d :: ds, ?_, .mk htableType hnameType hlType hd hds hrType, List.forall_mem_cons.mpr ⟨hparsed, hparseds⟩, rfl⟩
  simp

end parser

/-! ## The catalog -/

section catalog
variable {σ P : Type} {bpm : PageStore σ HeapPage P} {db db' : Database σ} {result : QueryResult}

theorem getTable_execCreate {stmt : CreateTableStmt} (h : execCreate bpm stmt db = .ok result db') :
    ∃ info, db'.catalog.getTable stmt.tableName = .ok info ∧ info.schema = createSchema stmt := by
  obtain ⟨db₀, _, hget, h₁⟩ := run_bind_eq_ok.mp h
  cases hget
  obtain ⟨catalog, db₁, hcreate, h₂⟩ := run_bind_eq_ok.mp h₁
  obtain ⟨_, db₂, hmodify, h₃⟩ := run_bind_eq_ok.mp h₂
  cases hmodify
  cases h₃
  obtain ⟨pages, hrun, rfl⟩ := onPages_eq_ok.mp hcreate
  unfold Catalog.createTable at hrun
  split_ifs at hrun
  · cases hrun
  · obtain ⟨heapFile, _, -, hpure⟩ := run_bind_eq_ok.mp hrun
    cases hpure
    have hfind : Catalog.find ⟨⟨stmt.tableName, createSchema stmt, heapFile⟩ :: db.catalog.tables⟩ stmt.tableName =
        some ⟨stmt.tableName, createSchema stmt, heapFile⟩ := List.find?_cons_of_pos (decide_eq_true rfl)
    refine ⟨⟨stmt.tableName, createSchema stmt, heapFile⟩, ?_, rfl⟩
    unfold Catalog.getTable
    dsimp only
    rw [hfind]
    rfl

theorem column_eq_iff (d : ColumnDecl) :
    (⟨d.name, ⟨d.typeId, d.length.getD 0 % 65536⟩⟩ : Column) = d.column ↔ ∀ n ∈ d.length, n < 65536 := by
  rw [ColumnDecl.column, Column.mk.injEq, ColumnType.mk.injEq]
  cases d.length with
  | none => simp
  | some n => simp

/-- For every statement that the parser accepts, whose tokens are one declaration: the table
has the columns in order with their types, and they are the declared ones exactly if every
length is below 65536. A length that `int32_t` does not hold is not accepted. -/
theorem created_columns_iff {tokens rest : List Token} {stmt : CreateTableStmt} (hwf : ∀ t ∈ tokens, t.WellFormed)
    (hparse : parseCreateTable tokens = .ok stmt rest) (bpm : PageStore σ HeapPage P) :
    ∃ us name decls, tokens = us ++ rest ∧ Declares us name decls ∧
      (∀ name' decls', Declares us name' decls' → name' = name ∧ decls' = decls) ∧ (∀ d ∈ decls, d.Parsed) ∧
      ∀ db result db', execCreate bpm stmt db = .ok result db' → ∃ info, db'.catalog.getTable name = .ok info ∧
        info.schema.columns.map (fun c => (c.name, c.type.typeId)) = decls.map (fun d => (d.name, d.typeId)) ∧
        (info.schema.columns = decls.map ColumnDecl.column ↔ ∀ d ∈ decls, ∀ n ∈ d.length, n < 65536) := by
  obtain ⟨us, name, decls, htokens, hdecl, hparsed, rfl⟩ := parseCreateTable_eq_ok hwf hparse
  refine ⟨us, name, decls, htokens, hdecl, fun _ _ h => hdecl.unique h rfl, hparsed, fun db result db' hcreate => ?_⟩
  obtain ⟨info, hinfo, hschema⟩ := getTable_execCreate hcreate
  refine ⟨info, hinfo, ?_, ?_⟩
  · rw [hschema]
    simp [createSchema, ColumnDecl.columnDef]
  · rw [hschema, createSchema, List.map_map, List.map_inj_left]
    exact forall₂_congr fun d _ => column_eq_iff d

theorem created_columns_two :
    let tokens : List Token := [⟨.table, lit "TABLE", 1⟩, ⟨.identifier, lit "t", 1⟩, ⟨.lparen, lit "(", 1⟩,
      ⟨.identifier, lit "id", 1⟩, ⟨.intKw, lit "INT", 1⟩, ⟨.comma, lit ",", 1⟩, ⟨.identifier, lit "v", 1⟩,
      ⟨.varcharKw, lit "VARCHAR", 1⟩, ⟨.lparen, lit "(", 1⟩, ⟨.intLiteral, lit "5", 1⟩, ⟨.rparen, lit ")", 1⟩,
      ⟨.rparen, lit ")", 1⟩]
    let stmt : CreateTableStmt := ⟨lit "t", [⟨lit "id", .int, 0⟩, ⟨lit "v", .varchar, 5⟩]⟩
    parseCreateTable tokens = .ok stmt [] ∧ Declares tokens (lit "t") [⟨lit "id", none⟩, ⟨lit "v", some 5⟩] ∧
    ∃ result db' info, execCreate BufferPool.store stmt ⟨⟨[]⟩, BufferPool.init 1 ⟨0, fun _ => 0⟩⟩ = .ok result db' ∧
      db'.catalog.getTable (lit "t") = .ok info ∧
      info.schema.columns = [⟨lit "id", .int⟩, ⟨lit "v", ⟨.varchar, 5⟩⟩] := by
  intro tokens stmt
  have hparse : parseCreateTable tokens = .ok stmt [] := rfl
  have hwf : ∀ t ∈ tokens, t.WellFormed := by
    unfold Token.WellFormed
    decide +kernel
  have hdecl : Declares tokens (lit "t") [⟨lit "id", none⟩, ⟨lit "v", some 5⟩] :=
    .mk rfl rfl rfl (.int rfl rfl) (.cons rfl (.varchar rfl rfl rfl rfl rfl) .nil) rfl
  obtain ⟨us, name, decls, heq, -, hunique, -, hstored⟩ := created_columns_iff hwf hparse
    (BufferPool.store : PageStore (BufferPool HeapPage 1) HeapPage _)
  rw [List.append_nil] at heq
  obtain ⟨rfl, rfl⟩ := hunique _ _ (heq ▸ hdecl)
  have hcreate : ∃ result db', execCreate BufferPool.store stmt ⟨⟨[]⟩, BufferPool.init 1 ⟨0, fun _ => 0⟩⟩ =
      .ok result db' := ⟨_, _, rfl⟩
  obtain ⟨result, db', hcreate⟩ := hcreate
  obtain ⟨info, hinfo, -, hcolumns⟩ := hstored _ result db' hcreate
  refine ⟨hparse, hdecl, result, db', info, hcreate, hinfo, hcolumns.mpr ?_⟩
  decide

/-- A length of 65536 is stored as 0. -/
theorem varchar_length_lost : ∃ stmt result db' info,
    parseSql (lit "CREATE TABLE t (v VARCHAR(65536))") = .ok (.createTable stmt) ∧
    execCreate BufferPool.store stmt ⟨⟨[]⟩, BufferPool.init 1 ⟨0, fun _ => 0⟩⟩ = .ok result db' ∧
    db'.catalog.getTable (lit "t") = .ok info ∧ info.schema.columns = [⟨lit "v", ⟨.varchar, 0⟩⟩] := by
  have hparse : parseSql (lit "CREATE TABLE t (v VARCHAR(65536))") =
      .ok (.createTable ⟨lit "t", [⟨lit "v", .varchar, 0⟩]⟩) := by decide +kernel
  have hrun : ∃ result db', execCreate BufferPool.store ⟨lit "t", [⟨lit "v", .varchar, 0⟩]⟩
      ⟨⟨[]⟩, BufferPool.init 1 ⟨0, fun _ => 0⟩⟩ = .ok result db' := ⟨_, _, rfl⟩
  obtain ⟨result, db', hcreate⟩ := hrun
  obtain ⟨info, hinfo, hschema⟩ := getTable_execCreate hcreate
  exact ⟨_, result, db', info, hparse, hcreate, hinfo, congrArg Schema.columns hschema⟩

end catalog
end MyDB.Database

import MyDB.Database.Tables

/-! Runs of statements. Whatever tables they create and fill, in whatever order, a
`SELECT *` from one of them returns the rows that were inserted into it. -/

namespace MyDB.Database
open MyDB.Storage MyDB.Storage.HeapFile MyDB.Parser MyDB.Executor MyDB.Lib MyDB.Planner
variable {n : Nat} {outside : Env (BufferPool HeapPage n)} {disk : DiskManager HeapPage}
  {db db' : Database (BufferPool HeapPage n)} {tables : List Table} {stmts : List Statement}

/-- A new database after the statements, each of which succeeded. -/
inductive Reaches (outside : Env (BufferPool HeapPage n)) (disk : DiskManager HeapPage) :
    Database (BufferPool HeapPage n) → List Statement → Prop
  | new : Reaches outside disk ⟨⟨[]⟩, .init n disk⟩ []
  | execute {db db' : Database (BufferPool HeapPage n)} {stmts : List Statement} {sql : Str} {stmt : Statement}
      {result : QueryResult} : Reaches outside disk db stmts → parseSql sql = .ok stmt → Storable stmt →
      execute BufferPool.store outside sql db = .ok result db' → Reaches outside disk db' (stmts ++ [stmt])

theorem execute_eq {sql : Str} {stmt : Statement} (h : parseSql sql = .ok stmt) :
    execute BufferPool.store outside sql db = execStatement BufferPool.store outside stmt db := by
  rw [execute, bind_ok (ofExcept_ok h db)]

theorem stores_new (disk : DiskManager HeapPage) : Stores (n := n) ⟨⟨[]⟩, .init n disk⟩ [] := by
  refine ⟨_, fun _ => [], holds_init disk, fun p => rfl, ?_, .nil, List.nodup_nil, nofun⟩
  simp [BufferPool.view, BufferPool.unpinned, BufferPool.init]

/-! ## The rows of a table -/

def insertedInto (name : Str) (stmts : List Statement) : List (List Expr) :=
  stmts.filterMap fun
    | .insert stmt => if stmt.tableName = name then some stmt.values else none
    | _ => none

theorem insertedInto_concat (name : Str) (stmts : List Statement) (stmt : Statement) :
    insertedInto name (stmts ++ [stmt]) = insertedInto name stmts ++ insertedInto name [stmt] := List.filterMap_append

/-- The tables have what the statements put into them. -/
structure Logged (stmts : List Statement) (tables : List Table) : Prop where
  created : ∀ stmt, .createTable stmt ∈ stmts → ∃ t ∈ tables, t.name = stmt.tableName ∧ t.schema = createSchema stmt
  rows : ∀ t ∈ tables, List.Forall₂ (fun es vals => es.length = t.schema.columns.length ∧
    insertValues t.schema.columns es = .ok vals) (insertedInto t.name stmts) t.rows
  absent : ∀ name, name ∉ tables.map (·.name) → insertedInto name stmts = []

theorem Table.insert_schema (stmt : InsertStmt) (t : Table) : (t.insert stmt).schema = t.schema := by
  unfold insert
  split_ifs
  · split
    · rfl
    · rfl
  · rfl

theorem Logged.createTable (h : Logged stmts tables) {stmt : CreateTableStmt}
    (hnew : stmt.tableName ∉ tables.map (·.name)) :
    Logged (stmts ++ [.createTable stmt]) (⟨stmt.tableName, createSchema stmt, []⟩ :: tables) := by
  have hlog (name : Str) : insertedInto name (stmts ++ [.createTable stmt]) = insertedInto name stmts := by
    rw [insertedInto_concat]
    exact List.append_nil _
  refine ⟨fun stmt' hmem => ?_, fun t ht => ?_, fun name hname => ?_⟩
  · rcases List.mem_append.mp hmem with hmem | hmem
    · obtain ⟨t, ht, hname, hschema⟩ := h.created stmt' hmem
      exact ⟨t, List.mem_cons_of_mem _ ht, hname, hschema⟩
    · cases List.mem_singleton.mp hmem
      exact ⟨_, List.mem_cons_self, rfl, rfl⟩
  · rw [hlog]
    rcases List.mem_cons.mp ht with rfl | ht
    · rw [h.absent _ hnew]
      exact .nil
    · exact h.rows t ht
  · rw [hlog]
    rw [List.map_cons, List.mem_cons, not_or] at hname
    exact h.absent name hname.2

theorem Logged.insert (h : Logged stmts tables) {stmt : InsertStmt} (haccepts : Accepts tables (.insert stmt))
    (hnames : (tables.map (·.name)).Nodup) : Logged (stmts ++ [.insert stmt]) (tables.map (Table.insert stmt)) := by
  obtain ⟨t, ht, hname, hlen, vals, hvals⟩ := haccepts
  have hself : insertedInto stmt.tableName [.insert stmt] = [stmt.values] := by simp [insertedInto]
  have hother (name : Str) (hne : name ≠ stmt.tableName) : insertedInto name [.insert stmt] = [] := by
    simp [insertedInto, hne.symm]
  refine ⟨fun stmt' hmem => ?_, ?_, fun name hname' => ?_⟩
  · rcases List.mem_append.mp hmem with hmem | hmem
    · obtain ⟨u, hu, huname, hschema⟩ := h.created stmt' hmem
      refine ⟨u.insert stmt, List.mem_map_of_mem hu, ?_, ?_⟩
      · rw [Table.insert_name, huname]
      · rw [Table.insert_schema, hschema]
    · cases List.mem_singleton.mp hmem
  · simp only [List.forall_mem_map, Table.insert_name, Table.insert_schema, insertedInto_concat]
    intro u hu
    by_cases huname : u.name = stmt.tableName
    · obtain rfl := List.inj_on_of_nodup_map hnames hu ht (huname.trans hname.symm)
      rw [Table.insert_of_ok huname hvals, huname, hself]
      exact List.rel_append (huname ▸ h.rows u hu) (.cons ⟨hlen, hvals⟩ .nil)
    · rw [Table.insert_of_ne huname, hother u.name huname, List.append_nil]
      exact h.rows u hu
  · have hnames' : (tables.map (Table.insert stmt)).map (·.name) = tables.map (·.name) := by
      rw [List.map_map]
      exact List.map_congr_left fun u _ => Table.insert_name stmt u
    rw [hnames'] at hname'
    have hne : name ≠ stmt.tableName := by
      rintro rfl
      exact hname' (List.mem_map.mpr ⟨t, ht, hname⟩)
    rw [insertedInto_concat, hother name hne, List.append_nil]
    exact h.absent name hname'

theorem Reaches.stores (h : Reaches outside disk db stmts) (hn : n ≠ 0) : ∃ tables, Stores db tables ∧ Logged stmts tables := by
  induction h with
  | new => exact ⟨[], stores_new disk, nofun, nofun, fun _ _ => rfl⟩
  | @execute db db' stmts sql stmt result _ hparse hsize hrun ih =>
    obtain ⟨tables, hstores, hlogged⟩ := ih
    rw [execute_eq hparse] at hrun
    obtain ⟨haccepts, hstores'⟩ := (execStatement_stores hn hstores (parseSql_plain hparse)).1 result db' hrun
    refine ⟨applyStatement tables stmt, hstores' hsize, ?_⟩
    obtain ⟨m, pages, -, -, -, hkeeps⟩ := hstores
    have hsame (hnone : ∀ name, insertedInto name [stmt] = []) (hcreate : ∀ c, stmt ≠ .createTable c) :
        Logged (stmts ++ [stmt]) tables := by
      refine ⟨fun c hc => ?_, fun t ht => ?_, fun name hname => ?_⟩
      · rcases List.mem_append.mp hc with hc | hc
        · exact hlogged.created c hc
        · exact absurd (List.mem_singleton.mp hc).symm (hcreate c)
      · rw [insertedInto_concat, hnone, List.append_nil]
        exact hlogged.rows t ht
      · rw [insertedInto_concat, hnone, List.append_nil]
        exact hlogged.absent name hname
    cases stmt with
    | createTable stmt => exact hlogged.createTable haccepts
    | insert stmt => exact hlogged.insert haccepts hkeeps.nodup
    | select stmt => exact hsame (fun _ => rfl) nofun
    | explain stmt => exact hsame (fun _ => rfl) nofun

def cellText (c : Column) : Expr → Str
  | .intLiteral v => intToString v
  | .stringLiteral s => (s.take c.type.maxLen).takeWhile (· ≠ 0)
  | _ => []

def rowText (schema : Schema) (es : List Expr) : List Str := List.zipWith cellText schema.columns es

theorem insertValue_text {c : Column} {e : Expr} {v : Value} (h : insertValue c e = .ok v) :
    v.stored.toString = cellText c e := by
  unfold insertValue at h
  split at h
  · cases pure_eq_ok.mp h
    rfl
  · cases h
  · cases pure_eq_ok.mp h
    rfl
  · cases h

theorem insertValues_text {cols : List Column} {es : List Expr} {vals : List Value} (hlen : es.length = cols.length)
    (h : insertValues cols es = .ok vals) : (vals.map Value.stored).map Value.toString = List.zipWith cellText cols es := by
  induction cols generalizing es vals with
  | nil =>
    cases pure_eq_ok.mp h
    rfl
  | cons c cols ih =>
    cases es with
    | nil => cases hlen
    | cons e es =>
      obtain ⟨v, hv, h⟩ := bind_eq_ok.mp h
      obtain ⟨vs, hvs, h⟩ := bind_eq_ok.mp h
      cases pure_eq_ok.mp h
      rw [List.map_cons, List.map_cons, insertValue_text hv, ih (Nat.succ.inj hlen) hvs, List.zipWith_cons_cons]

theorem rows_text {schema : Schema} {inserted : List (List Expr)} {rows : List (List Value)}
    (h : List.Forall₂ (fun es vals => es.length = schema.columns.length ∧ insertValues schema.columns es = .ok vals)
      inserted rows) :
    (rows.map fun vals => (vals.map Value.stored).map Value.toString) = inserted.map (rowText schema) := by
  induction h with
  | nil => rfl
  | cons hvals _ ih =>
    rw [List.map_cons, List.map_cons, ih, insertValues_text hvals.1 hvals.2]
    rfl

/-- `SELECT * FROM t`, perhaps with an alias. -/
def selectStar (table itemAlias fromAlias : Str) : SelectStmt :=
  ⟨[⟨.star, itemAlias⟩], table, fromAlias, [], none, [], []⟩

theorem plan_selectStar {catalog : Catalog} {table : Str} {info : TableInfo} (hget : catalog.getTable table = .ok info)
    (itemAlias fromAlias : Str) : plan catalog (selectStar table itemAlias fromAlias) =
      .ok (.seqScan info (makeOutputSchema info.schema (if fromAlias = [] then table else fromAlias))) := by
  have hbase : planBase catalog (selectStar table itemAlias fromAlias) = .ok _ :=
    bind_eq_ok.mpr ⟨_, scanTable_eq_ok.mpr ⟨info, hget, rfl⟩, rfl⟩
  refine plan_eq_ok.mpr ⟨_, planInput_eq_ok.mpr ⟨_, hbase, rfl⟩, ?_⟩
  rfl

/-- `SELECT *` from a table returns the rows that were inserted into it, in order. -/
theorem select_star_returns_inserted (hn : 1 ≤ n) (hstd : Operator.Lawful outside.std) (h : Reaches outside disk db stmts)
    {create : CreateTableStmt} (hcreate : .createTable create ∈ stmts) {sql itemAlias fromAlias : Str}
    (hparse : parseSql sql = .ok (.select (selectStar create.tableName itemAlias fromAlias))) :
    ∃ columns db', execute BufferPool.store outside sql db =
      .ok ⟨columns, (insertedInto create.tableName stmts).map (rowText (createSchema create)), []⟩ db' := by
  obtain ⟨tables, ⟨m, pages, hs, hpins, hfree, hkeeps⟩, hlogged⟩ := h.stores (Nat.ne_of_gt hn)
  obtain ⟨t, ht, hname, hschema⟩ := hlogged.created create hcreate
  obtain ⟨info, hget, htable⟩ := hkeeps.getTable_of_mem ht
  obtain ⟨s', hscan, -⟩ := scan_table (Nat.ne_of_gt hn) hfree htable hs
  rw [hname] at hget
  have hplan := plan_selectStar hget itemAlias fromAlias
  have htypes := makeOutputSchema_types info.schema (if fromAlias = [] then create.tableName else fromAlias)
  have hcells : (t.rows.map Tuple.encode).mapM
      (rowCells (makeOutputSchema info.schema (if fromAlias = [] then create.tableName else fromAlias))) =
      .ok (t.rows.map fun vals => (vals.map Value.stored).map Value.toString) := by
    rw [List.mapM_map]
    refine mapM_of_ok fun vals hvals => rowCells_eq (rowValues_encode (Schema.Typed.congr ?_ htypes))
    rw [htable.schema_eq]
    exact htable.typed vals hvals
  have hrows := hlogged.rows t ht
  rw [hname, hschema] at hrows
  rw [rows_text hrows] at hcells
  have hrun := (execSelect_eq_ok hstd).mpr
    ⟨_, _, s', _, hplan, Operator.evaluates_seqScan_iff.mpr hscan, hcells, rfl, rfl⟩
  exact ⟨_, _, (execute_eq hparse).trans hrun⟩

theorem Reaches.mapM {db : Database (BufferPool HeapPage n)} {before : List Statement}
    (h : Reaches outside disk db before) {sqls : List Str} (hparse : sqls.mapM parseSql = .ok stmts)
    (hsize : ∀ stmt ∈ stmts, Storable stmt) {results : List QueryResult}
    (hrun : (sqls.mapM (Database.execute BufferPool.store outside)) db = .ok results db') :
    Reaches outside disk db' (before ++ stmts) := by
  induction sqls generalizing db before stmts results with
  | nil =>
    cases hparse
    cases hrun
    simpa using h
  | cons sql sqls ih =>
    obtain ⟨stmt, stmts', hstmt, hstmts, rfl⟩ := mapM_cons_eq_ok.mp hparse
    obtain ⟨hfirst, hrest⟩ := List.forall_mem_cons.mp hsize
    rw [List.mapM_cons] at hrun
    obtain ⟨result, db₁, hexec, hrun⟩ := run_bind_eq_ok.mp hrun
    obtain ⟨results', db₂, hexecs, hrun⟩ := run_bind_eq_ok.mp hrun
    cases hrun
    have hall := ih (h.execute hstmt hfirst hexec) hstmts hrest hexecs
    rwa [List.append_assoc] at hall

def oneFrame : Env (BufferPool HeapPage 1) :=
  ⟨fun _ => pure [], fun _ _ => pure [], fun _ _ _ _ => pure [], Operator.insertionStd⟩

def fillTables : List Str :=
  [lit "CREATE TABLE t (x INT, v VARCHAR(2))", lit "CREATE TABLE u (y INT)", lit "INSERT INTO t VALUES (5, 'abc')",
    lit "INSERT INTO u VALUES (6)", lit "INSERT INTO t VALUES (7, '')"]

def filled : List Statement :=
  [.createTable ⟨lit "t", [⟨lit "x", .int, 0⟩, ⟨lit "v", .varchar, 2⟩]⟩, .createTable ⟨lit "u", [⟨lit "y", .int, 0⟩]⟩,
    .insert ⟨lit "t", [.intLiteral 5, .stringLiteral (lit "abc")]⟩, .insert ⟨lit "u", [.intLiteral 6]⟩,
    .insert ⟨lit "t", [.intLiteral 7, .stringLiteral []]⟩]

def newDatabase : Database (BufferPool HeapPage 1) := ⟨⟨[]⟩, .init 1 ⟨0, fun _ => 0⟩⟩

theorem answers_error {sqls : List Str} {e : Fault} (h : answers sqls = .error e) :
    ∃ db, (sqls.mapM (execute BufferPool.store oneFrame)) newDatabase = .error e db := by
  unfold answers at h
  dsimp only at h
  split at h
  · cases h
  · next hrun =>
    cases h
    exact ⟨_, hrun⟩

theorem answers_ok {sqls : List Str} (h : (answers sqls).isOk = true) :
    ∃ results db, (sqls.mapM (execute BufferPool.store oneFrame)) newDatabase = .ok results db := by
  unfold answers at h
  dsimp only at h
  split at h
  · next hrun => exact ⟨_, _, hrun⟩
  · cases h

theorem reaches_of_answers {sqls : List Str} (hparse : sqls.mapM parseSql = .ok stmts)
    (hsize : ∀ stmt ∈ stmts, Storable stmt) (hok : (answers sqls).isOk = true) :
    ∃ db, Reaches oneFrame ⟨0, fun _ => 0⟩ db stmts ∧
      ∀ sql e, answers (sqls ++ [sql]) = .error e → ∃ db', execute BufferPool.store oneFrame sql db = .error e db' := by
  obtain ⟨results, db, hrun⟩ := answers_ok hok
  refine ⟨db, Reaches.new.mapM hparse hsize hrun, fun sql e he => ?_⟩
  obtain ⟨db', hall⟩ := answers_error he
  rw [List.mapM_append, bind_ok hrun, List.mapM_cons] at hall
  cases hlast : execute BufferPool.store oneFrame sql db with
  | ok result db₁ =>
    rw [bind_assoc, bind_ok hlast] at hall
    cases hall
  | error e' db₁ =>
    rw [bind_assoc, bind_error hlast] at hall
    cases hall
    exact ⟨db', rfl⟩

theorem reaches_filled : ∃ db, Reaches oneFrame ⟨0, fun _ => 0⟩ db filled := by
  have hparse : fillTables.mapM parseSql = .ok filled := by decide +kernel
  obtain ⟨db, h, -⟩ := reaches_of_answers hparse (by decide +kernel) (by decide +kernel)
  exact ⟨db, h⟩

theorem select_star_returns_filled : ∃ db columns db', Reaches oneFrame ⟨0, fun _ => 0⟩ db filled ∧
    execute BufferPool.store oneFrame (lit "SELECT * FROM t") db =
      .ok ⟨columns, [[lit "5", lit "ab"], [lit "7", []]], []⟩ db' := by
  obtain ⟨db, h⟩ := reaches_filled
  have hparse : parseSql (lit "SELECT * FROM t") = .ok (.select (selectStar (lit "t") [] [])) := by decide +kernel
  obtain ⟨columns, db', hrun⟩ :=
    select_star_returns_inserted le_rfl Operator.lawful_insertionStd h List.mem_cons_self hparse
  exact ⟨db, columns, db', h, hrun⟩

/-! ## The tables of a database -/

end MyDB.Database

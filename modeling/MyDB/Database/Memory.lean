import MyDB.Database.TableRows
import MyDB.Executor.OtherTables
import MyDB.Repl
import MyDB.Storage.DiskFile

/-! The database as its users see it: a list of tables in memory, with neither pages nor
a pool. A session with the database over its pages shows exactly what it shows over the
tables, results and errors alike, whatever the size of the pool and whatever the file has
in its other pages. -/

namespace MyDB.Memory
open MyDB.Storage MyDB.Storage.HeapFile MyDB.Parser MyDB.Executor MyDB.Executor.Operator MyDB.Lib MyDB.Planner MyDB.Database

/-! ## Tables in memory -/

def entry (name : Str) (schema : Schema) : TableInfo := ⟨name, schema, ⟨schema, invalidPageId, invalidPageId⟩⟩

def scanRows (name : Str) : EStateM Fault (List Table) (List Tuple) := fun tables =>
  match tables.find? (·.name = name) with
  | some t => .ok (t.rows.map Tuple.encode) tables
  | none => .error .nullPointer tables

/-- Scans of the tables. Plans have no other use for the rest of the surroundings. -/
def env (std : Std) : Env (List Table) where
  scan info := scanRows info.name
  parallelScan _ _ := throw .nullPointer
  parallelJoin _ _ _ _ := throw .nullPointer
  std := std

def execCreate (stmt : CreateTableStmt) : EStateM Fault (List Table) QueryResult := fun tables =>
  if stmt.tableName ∈ tables.map (·.name) then
    .error (.runtimeError (lit "Table already exists: " ++ stmt.tableName)) tables
  else .ok ⟨[], [], lit "Table '" ++ stmt.tableName ++ lit "' created."⟩ (⟨stmt.tableName, createSchema stmt, []⟩ :: tables)

/-- The row that an `INSERT` adds. -/
def newRow (tables : List Table) (stmt : InsertStmt) : Except Fault (List Value) :=
  match tables.find? (·.name = stmt.tableName) with
  | none => throw (.runtimeError (lit "Table not found: " ++ stmt.tableName))
  | some t =>
    if stmt.values.length ≠ t.schema.columns.length then throw (.runtimeError (lit "Column count mismatch in INSERT"))
    else insertValues t.schema.columns stmt.values

def execInsert (stmt : InsertStmt) : EStateM Fault (List Table) QueryResult := fun tables =>
  match newRow tables stmt with
  | .error e => .error e tables
  | .ok vals => .ok ⟨[], [], lit "Inserted 1 row."⟩
      (tables.map fun t => if t.name = stmt.tableName then { t with rows := t.rows ++ [vals] } else t)

variable (std : Std)

def execSelect (stmt : SelectStmt) : EStateM Fault (List Table) QueryResult := do
  let op ← ofExcept (plan ⟨(← get).map fun t => entry t.name t.schema⟩ stmt)
  let state ← op.init (env std) op.fresh
  let (rows, _) ← ofExcept (op.consume std (addRow op.outputSchema) [] state)
  return ⟨op.outputSchema.columns.map (·.name), rows, []⟩

def execStatement : Statement → EStateM Fault (List Table) QueryResult
  | .createTable stmt => execCreate stmt
  | .insert stmt => execInsert stmt
  | .select stmt => execSelect std stmt
  | .explain select => return execExplain select

def execute (sql : Str) : EStateM Fault (List Table) QueryResult := do
  execStatement std (← ofExcept (parseSql sql))

/-! ## The statements over the pages -/

section statements
variable {n : Nat} {outside : Env (BufferPool HeapPage n)} {tables : List Table} {std} {m₀ : PageMap HeapPage}

structure Beyond (m₀ m : PageMap HeapPage) (pages : Str → List PageId) : Prop where
  base : Extends m₀ [] m []
  new : ∀ name, ∀ p ∈ pages name, (m₀.numPages : PageId) ≤ p

theorem Beyond.update {m m' : PageMap HeapPage} {pages : Str → List PageId} {ids ids' : List PageId}
    (h : Beyond m₀ m pages) (hext : Extends m ids m' ids') (hids : ∀ p ∈ ids, (m₀.numPages : PageId) ≤ p) (name : Str) :
    Beyond m₀ m' (Function.update pages name ids') := by
  have hold : Extends m₀ [] m ids := ⟨h.base.numPages_le, h.base.contents_eq, fun p hp => Or.inr (hids p hp)⟩
  have hnew := hold.trans hext
  refine ⟨⟨hnew.numPages_le, hnew.contents_eq, fun _ hp => absurd hp List.not_mem_nil⟩, fun other p hp => ?_⟩
  by_cases hother : other = name
  · rw [hother, Function.update_self] at hp
    exact (hnew.ids_new p hp).resolve_left List.not_mem_nil
  · rw [Function.update_of_ne hother] at hp
    exact h.new other p hp

def StoresAfter (m₀ : PageMap HeapPage) (db : Database (BufferPool HeapPage n)) (tables : List Table) : Prop :=
  ∃ m pages, Holds db.pages m ∧ (∀ p, m.pins p = 0) ∧ m.free = n ∧ KeepsTables m pages db.catalog tables ∧
    Beyond m₀ m pages

theorem StoresAfter.stores {db : Database (BufferPool HeapPage n)} (h : StoresAfter m₀ db tables) : Stores db tables := by
  obtain ⟨m, pages, hs, hpins, hfree, hkeeps, -⟩ := h
  exact ⟨m, pages, hs, hpins, hfree, hkeeps⟩

theorem storesAfter_new (disk : DiskManager HeapPage) :
    StoresAfter (n := n) (BufferPool.init n disk).view ⟨⟨[]⟩, .init n disk⟩ [] := by
  refine ⟨_, fun _ => [], holds_init disk, fun p => rfl, ?_, ⟨.nil, List.nodup_nil, fun _ ht => absurd ht List.not_mem_nil⟩, ?_⟩
  · simp [BufferPool.view, BufferPool.unpinned, BufferPool.init]
  · exact ⟨⟨le_rfl, fun _ _ _ => rfl, fun _ hp => absurd hp List.not_mem_nil⟩, fun _ _ hp => absurd hp List.not_mem_nil⟩

theorem find_of_mem (hnames : (tables.map (·.name)).Nodup) {t : Table} (ht : t ∈ tables) :
    tables.find? (·.name = t.name) = some t := by
  obtain ⟨u, hu⟩ : ∃ u, tables.find? (·.name = t.name) = some u := by
    rw [← Option.isSome_iff_exists, List.find?_isSome]
    exact ⟨t, ht, decide_eq_true rfl⟩
  have hname := List.find?_some hu
  rw [decide_eq_true_eq] at hname
  rw [hu, List.inj_on_of_nodup_map hnames (List.mem_of_find?_eq_some hu) ht hname]

theorem getTable_cases {m : PageMap HeapPage} {pages : Str → List PageId} {catalog : Catalog}
    (h : KeepsTables m pages catalog tables) (name : Str) :
    (catalog.getTable name = .error (.runtimeError (lit "Table not found: " ++ name)) ∧
      tables.find? (·.name = name) = none) ∨
    ∃ info t, catalog.getTable name = .ok info ∧ tables.find? (·.name = name) = some t ∧ t.name = name ∧
      KeepsTable m (pages name) info t := by
  cases hfind : catalog.find name with
  | none =>
    have hget : catalog.getTable name = .error (.runtimeError (lit "Table not found: " ++ name)) := by
      rw [Catalog.getTable, hfind]
      rfl
    refine Or.inl ⟨hget, List.find?_eq_none.mpr fun t ht hname => ?_⟩
    obtain ⟨info, hok, -⟩ := h.getTable_of_mem ht
    rw [of_decide_eq_true hname, hget] at hok
    cases hok
  | some info =>
    have hget : catalog.getTable name = .ok info := by
      rw [Catalog.getTable, hfind]
      rfl
    obtain ⟨t, ht, rfl, hkeeps⟩ := h.getTable hget
    exact Or.inr ⟨info, t, hget, find_of_mem h.nodup ht, rfl, hkeeps⟩

theorem map_insert (hnames : (tables.map (·.name)).Nodup) {t : Table} (ht : t ∈ tables) {stmt : InsertStmt}
    (hname : t.name = stmt.tableName) {vals : List Value}
    (hvals : insertValues t.schema.columns stmt.values = .ok vals) :
    (tables.map fun u => if u.name = stmt.tableName then { u with rows := u.rows ++ [vals] } else u) =
      tables.map (Table.insert stmt) := by
  refine List.map_congr_left fun u hu => ?_
  by_cases huname : u.name = stmt.tableName
  · obtain rfl := List.inj_on_of_nodup_map hnames hu ht (huname.trans hname.symm)
    rw [if_pos huname, Table.insert_of_ok huname hvals]
  · rw [if_neg huname, Table.insert_of_ne huname]

theorem execCreate_mirrors (hn : n ≠ 0) {stmt : CreateTableStmt} (hsize : Storable (.createTable stmt)) :
    Mirrors (StoresAfter (n := n) m₀) id (Database.execCreate BufferPool.store stmt) (execCreate stmt) := by
  rintro db tables ⟨m, pages, hs, hpins, hfree, hkeeps, hbeyond⟩
  have hget : (get : EStateM Fault (Database (BufferPool HeapPage n)) _) db = .ok db db := rfl
  rw [Database.execCreate, bind_ok hget]
  by_cases hexists : db.catalog.tableExists stmt.tableName = true
  · have hthrow : db.catalog.createTable BufferPool.store stmt.tableName (createSchema stmt) db.pages =
        .error (.runtimeError (lit "Table already exists: " ++ stmt.tableName)) db.pages := by
      rw [Catalog.createTable, if_pos hexists]
      rfl
    rw [bind_error (onPages_error hthrow), execCreate, if_pos (hkeeps.tableExists_iff.mp hexists)]
    exact .error ⟨m, pages, hs, hpins, hfree, hkeeps, hbeyond⟩
  · have hnew : stmt.tableName ∉ tables.map (·.name) := fun hmem => hexists (hkeeps.tableExists_iff.mpr hmem)
    obtain ⟨s', hcreate, hs'⟩ := create_pool hs (hfree ▸ hn) (createSchema stmt)
    have hrun : db.catalog.createTable BufferPool.store stmt.tableName (createSchema stmt) db.pages =
        .ok ⟨⟨stmt.tableName, createSchema stmt, ⟨createSchema stmt, m.numPages, m.numPages⟩⟩ :: db.catalog.tables⟩ s' := by
      rw [Catalog.createTable, if_neg hexists, bind_ok hcreate]
      rfl
    rw [bind_ok (onPages_ok hrun), execCreate, if_neg hnew]
    refine .ok ⟨_, _, hs', hpins, hfree, hkeeps.create hnew hsize.1 hsize.2, ?_⟩
    exact hbeyond.update (extends_grow m _) (fun _ hp => absurd hp List.not_mem_nil) stmt.tableName

theorem execInsert_mirrors (hn : n ≠ 0) {stmt : InsertStmt} (hplain : ∀ e ∈ stmt.values, e.Plain) :
    Mirrors (StoresAfter (n := n) m₀) id (Database.execInsert BufferPool.store stmt) (execInsert stmt) := by
  rintro db tables ⟨m, pages, hs, hpins, hfree, hkeeps, hbeyond⟩
  have hstores : StoresAfter m₀ db tables := ⟨m, pages, hs, hpins, hfree, hkeeps, hbeyond⟩
  have hget : (get : EStateM Fault (Database (BufferPool HeapPage n)) _) db = .ok db db := rfl
  rw [Database.execInsert, bind_ok hget, execInsert, newRow]
  rcases getTable_cases hkeeps stmt.tableName with ⟨htable, hfind⟩ | ⟨info, t, htable, hfind, hname, htable'⟩
  · rw [bind_error (ofExcept_error htable db), hfind]
    exact .error hstores
  rw [bind_ok (ofExcept_ok htable db), hfind]
  dsimp only
  rw [htable'.schema_eq]
  by_cases hlen : stmt.values.length = t.schema.columns.length
  · rw [if_neg (not_not.mpr hlen), if_neg (not_not.mpr hlen)]
    cases hvals : insertValues t.schema.columns stmt.values with
    | error e =>
      rw [bind_error (ofExcept_error rfl db)]
      exact .error hstores
    | ok vals =>
      have htyped : info.schema.Typed vals :=
        insertValues_typed (htable'.schema_eq ▸ hlen) hplain (htable'.schema_eq ▸ hvals)
      have hsize := htable'.getTupleSize_eq
      have hlength : (Tuple.encode vals).length = info.heapFile.schema.getTupleSize := by
        rw [hsize, Tuple.length_encode_fits htyped.fits, htable'.schema_eq]
      have hunpinned : db.pages.unpinned ≠ 0 := by
        rw [← hs.free_eq, hfree]
        exact hn
      obtain ⟨rid, hf', s', m', ids', hrun, hs', hpins', hfree', happ⟩ :=
        insertTuple_pool hs hunpinned htable'.represents (hsize ▸ htable'.pos) (hsize ▸ htable'.size) hlength
      have hvalues := Tuple.ofValues_ok htyped.fits
      rw [htable'.schema_eq] at hvalues
      rw [bind_ok (ofExcept_ok rfl db), bind_ok (ofExcept_ok hvalues db), bind_ok (onPages_ok hrun)]
      have ht := List.mem_of_find?_eq_some hfind
      dsimp only
      rw [map_insert hkeeps.nodup ht hname hvals]
      refine .ok ⟨m', _, hs', fun p => ?_, hfree'.trans hfree, hkeeps.insert htable (htable'.schema_eq ▸ hvals) htyped happ,
        hbeyond.update happ.extends_ (hbeyond.new _) _⟩
      rw [hpins']
      exact hpins p
  · rw [if_pos hlen, if_pos hlen]
    exact .error hstores

theorem onPages_mirrors {α β τ : Type} {R : BufferPool HeapPage n → τ → Prop} {g : α → β}
    {x : EStateM Fault (BufferPool HeapPage n) α} {y : EStateM Fault τ β} (h : Mirrors R g x y) (catalog : Catalog) :
    Mirrors (fun (db : Database (BufferPool HeapPage n)) t => db.catalog = catalog ∧ R db.pages t) g (onPages x) y := by
  rintro db t ⟨hcat, hst⟩
  have hend := h db.pages t hst
  cases hx : x db.pages with
  | ok a s' =>
    rw [hx] at hend
    obtain ⟨t', hy, hst'⟩ := hend.ok_left
    rw [onPages_ok hx, hy]
    exact .ok ⟨hcat, hst'⟩
  | error e s' =>
    rw [hx] at hend
    obtain ⟨t', hy, hst'⟩ := hend.error_left
    rw [onPages_error hx, hy]
    exact .error ⟨hcat, hst'⟩

def forget (info : TableInfo) : TableInfo := entry info.name info.schema

theorem sameTables_forget : SameTables forget := ⟨fun _ => rfl, fun _ => rfl⟩

theorem map_entry {infos : List TableInfo}
    (h : List.Forall₂ (fun info t => info.name = t.name ∧ info.schema = t.schema) infos tables) :
    (tables.map fun t => entry t.name t.schema) = infos.map forget := by
  induction h with
  | nil => rfl
  | cons heq _ ih => rw [List.map_cons, List.map_cons, ih, forget, heq.1, heq.2]

theorem scan_mirrors (hn : n ≠ 0) {m : PageMap HeapPage} (hfree : m.free = n) {pages : Str → List PageId}
    {catalog : Catalog} (hkeeps : KeepsTables m pages catalog tables) {info : TableInfo} (hinfo : info ∈ catalog.tables) :
    Mirrors (fun s tables' => Holds s m ∧ tables' = tables) id ((Database.env BufferPool.store outside).scan info)
      ((env std).scan (forget info)) := by
  rintro s tables ⟨hs, rfl⟩
  obtain ⟨t, ht, hkeeps'⟩ := exists_of_forall₂ hkeeps.each hinfo
  obtain ⟨s', hrun, hs'⟩ := scan_table hn hfree hkeeps' hs
  have hpages : (Database.env BufferPool.store outside).scan info s = .ok (t.rows.map Tuple.encode) s' := hrun
  have hmem : (env std).scan (forget info) tables = .ok (t.rows.map Tuple.encode) tables := by
    change scanRows info.name tables = _
    rw [scanRows, hkeeps'.name_eq, find_of_mem hkeeps.nodup ht]
  rw [hpages, hmem]
  exact .ok ⟨hs', rfl⟩

theorem execSelect_mirrors (hn : n ≠ 0) (stmt : SelectStmt) :
    Mirrors (StoresAfter (n := n) m₀) id (Database.execSelect BufferPool.store outside stmt) (execSelect outside.std stmt) := by
  rintro db tables ⟨m, pages, hs, hpins, hfree, hkeeps, hbeyond⟩
  have hget : (get : EStateM Fault (Database (BufferPool HeapPage n)) _) db = .ok db db := rfl
  have hget' : (get : EStateM Fault (List Table) _) tables = .ok tables tables := rfl
  have hmap : plan ⟨tables.map fun t => entry t.name t.schema⟩ stmt = (plan db.catalog stmt).map (mapTables forget) := by
    rw [map_entry (hkeeps.each.imp fun _ _ h => ⟨h.name_eq, h.schema_eq⟩), plan_map sameTables_forget]
  rw [Database.execSelect, bind_ok hget, execSelect, bind_ok hget']
  cases hplan : plan db.catalog stmt with
  | error e =>
    have hplan' : plan ⟨tables.map fun t => entry t.name t.schema⟩ stmt = .error e := by
      rw [hmap, hplan]
      rfl
    rw [bind_error (ofExcept_error rfl db), bind_error (ofExcept_error hplan' tables)]
    exact .error ⟨m, pages, hs, hpins, hfree, hkeeps, hbeyond⟩
  | ok op =>
    have hplan' : plan ⟨tables.map fun t => entry t.name t.schema⟩ stmt = .ok (op.mapTables forget) := by
      rw [hmap, hplan]
      rfl
    have hstd : (env outside.std).std = (Database.env BufferPool.store outside).std := rfl
    have hmirrors := plan_mirrors hstd (fun _ hinfo => scan_mirrors hn hfree hkeeps hinfo) hplan
    have hinit := onPages_mirrors (hmirrors op.fresh) db.catalog
    rw [bind_ok (ofExcept_ok rfl db), bind_ok (ofExcept_ok hplan' tables), fresh_mapTables, outputSchema_mapTables]
    refine Corresponds.imp ?_ (hinit.bind (k := id) (fun state => ?_) db tables ⟨rfl, hs, rfl⟩)
    · rintro db' _ ⟨hcat, hs', rfl⟩
      exact ⟨m, pages, hs', hpins, hfree, hcat ▸ hkeeps, hbeyond⟩
    · rw [consume_mapState]
      exact (mirrors_ofExcept _ _).bind fun r => Mirrors.pure id _

theorem execStatement_mirrors (hn : n ≠ 0) {stmt : Statement} (hplain : stmt.Plain) (hsize : Storable stmt) :
    Mirrors (StoresAfter (n := n) m₀) id (Database.execStatement BufferPool.store outside stmt)
      (execStatement outside.std stmt) := by
  cases stmt with
  | createTable stmt => exact execCreate_mirrors hn hsize
  | insert stmt => exact execInsert_mirrors hn hplain.2
  | select stmt => exact execSelect_mirrors hn stmt
  | explain stmt => exact Mirrors.pure id (execExplain stmt)

/-- The texts whose tables have tuples that fit on a page, if they are statements at all. -/
def StorableSql (sql : Str) : Prop := ∀ stmt, parseSql sql = .ok stmt → Storable stmt

theorem execute_mirrors (hn : n ≠ 0) {sql : Str} (hsize : StorableSql sql) :
    Mirrors (StoresAfter (n := n) m₀) id (Database.execute BufferPool.store outside sql) (execute outside.std sql) := by
  intro db tables hst
  rw [Database.execute, execute]
  cases hparse : parseSql sql with
  | error e =>
    rw [bind_error (ofExcept_error rfl db), bind_error (ofExcept_error rfl tables)]
    exact .error hst
  | ok stmt =>
    rw [bind_ok (ofExcept_ok rfl db), bind_ok (ofExcept_ok rfl tables)]
    exact execStatement_mirrors hn (parseSql_plain hparse) (hsize stmt hparse) db tables hst

end statements

/-! ## Sessions -/

/-- The disk manager that the constructor makes of a file. It counts fewer pages than none
where the size overflows, and no page can be allocated then. -/
def openDisk (file : DbFile HeapPage) : Option (DiskManager HeapPage) :=
  if 0 ≤ (DiskFile.openFile file).numPages then
    some ⟨(DiskFile.openFile file).numPages.toNat, fun p => file.block p.toNat⟩
  else none

theorem openDisk_eq {file : DbFile HeapPage} (hsmall : file.size < 2 ^ 31) :
    ∃ disk, openDisk file = some disk ∧ disk.numPages = file.size / pageSize ∧ ∀ p, disk.pages p = file.block p.toNat := by
  have hnum : (DiskFile.openFile file).numPages = (file.size / pageSize : Nat) := by
    have hmod : Int.bmod file.size (2 ^ 32) = file.size := Int.bmod_eq_of_le (by omega) (by omega)
    rw [DiskFile.openFile, hmod]
    exact (Int.ofNat_tdiv _ _).symm
  refine ⟨⟨file.size / pageSize, fun p => file.block p.toNat⟩, ?_, rfl, fun _ => rfl⟩
  rw [openDisk, hnum, if_pos (Int.natCast_nonneg _), Int.toNat_natCast]

theorem attempt_mirrors {σ τ : Type} {R : σ → τ → Prop} {x : Str → EStateM Fault σ QueryResult}
    {y : Str → EStateM Fault τ QueryResult} {sql : Str} (h : Mirrors R id (x sql) (y sql)) :
    Mirrors R id (Repl.attempt x sql) (Repl.attempt y sql) := by
  intro s t hst
  have hend := h s t hst
  rw [Repl.attempt, Repl.attempt]
  cases hx : x sql s with
  | ok result s' =>
    rw [hx] at hend
    obtain ⟨t', hy, hst'⟩ := hend.ok_left
    rw [hy]
    exact .ok hst'
  | error e s' =>
    rw [hx] at hend
    obtain ⟨t', hy, hst'⟩ := hend.error_left
    rw [hy]
    dsimp only
    split_ifs
    · exact .ok hst'
    · exact .error hst'

theorem loop_mirrors {n : Nat} (hn : n ≠ 0) (outside : Env (BufferPool HeapPage n)) {lines : List Str}
    (hsize : ∀ sql ∈ Repl.statements [] lines, StorableSql sql) (m₀ : PageMap HeapPage) :
    Mirrors (StoresAfter (n := n) m₀) id (Repl.loop (Database.execute BufferPool.store outside) [] lines)
      (Repl.loop (execute outside.std) [] lines) := by
  rw [Repl.loop_eq_mapM, Repl.loop_eq_mapM]
  exact Mirrors.mapM fun sql hsql => attempt_mirrors (execute_mirrors hn (hsize sql hsql))

end MyDB.Memory

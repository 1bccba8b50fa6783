import MyDB.Database.Select
import MyDB.Lib.Total
import MyDB.Storage.HeapLog

/-! What the statements are for: tables of rows. The database keeps the rows of each
table in the pages of its heap file, which no other table has. `CREATE TABLE` adds an
empty table, `INSERT` a row at the end of one, and a statement that fails, or that
only reads, leaves the tables as they are. -/

namespace MyDB.Database
open MyDB.Storage MyDB.Storage.HeapFile MyDB.Parser MyDB.Executor MyDB.Lib MyDB.Planner

/-! ## Tables -/

/-- A table as its users see it, with the rows in the order of insertion. -/
structure Table where
  name : Str
  schema : Schema
  rows : List (List Value)

def Table.insert (stmt : InsertStmt) (t : Table) : Table :=
  if t.name = stmt.tableName then
    match insertValues t.schema.columns stmt.values with
    | .ok vals => { t with rows := t.rows ++ [vals] }
    | .error _ => t
  else t

def applyStatement (tables : List Table) : Statement → List Table
  | .createTable stmt => ⟨stmt.tableName, createSchema stmt, []⟩ :: tables
  | .insert stmt => tables.map (Table.insert stmt)
  | .select _ => tables
  | .explain _ => tables

def Accepts (tables : List Table) : Statement → Prop
  | .createTable stmt => stmt.tableName ∉ tables.map (·.name)
  | .insert stmt => ∃ t ∈ tables, t.name = stmt.tableName ∧ stmt.values.length = t.schema.columns.length ∧
      ∃ vals, insertValues t.schema.columns stmt.values = .ok vals
  | .select _ => True
  | .explain _ => True

theorem Table.insert_of_ne {stmt : InsertStmt} {t : Table} (h : t.name ≠ stmt.tableName) : t.insert stmt = t := if_neg h

theorem Table.insert_of_ok {stmt : InsertStmt} {t : Table} {vals : List Value} (h : t.name = stmt.tableName)
    (hvals : insertValues t.schema.columns stmt.values = .ok vals) :
    t.insert stmt = { t with rows := t.rows ++ [vals] } := by
  rw [insert, if_pos h, hvals]

theorem Table.insert_name (stmt : InsertStmt) (t : Table) : (t.insert stmt).name = t.name := by
  unfold insert
  split_ifs
  · split
    · rfl
    · rfl
  · rfl

/-! ## Tables in pages -/

section pages
variable {m m' : PageMap HeapPage} {ids ids' other other' : List PageId} {info : TableInfo} {t : Table}

structure KeepsTable (m : PageMap HeapPage) (ids : List PageId) (info : TableInfo) (t : Table) : Prop where
  name_eq : info.name = t.name
  schema_eq : info.schema = t.schema
  heap_eq : info.heapFile.schema = t.schema
  pos : 1 ≤ t.schema.tupleSize
  size : t.schema.tupleSize ≤ 4088
  typed : ∀ vals ∈ t.rows, t.schema.Typed vals
  represents : Represents m info.heapFile ids
  rows_eq : rows m info.heapFile ids = t.rows.map Tuple.encode

theorem KeepsTable.getTupleSize_eq (h : KeepsTable m ids info t) :
    info.heapFile.schema.getTupleSize = t.schema.tupleSize := by
  rw [h.heap_eq]
  exact Schema.getTupleSize_of_lt (h.size.trans_lt (by decide))

theorem KeepsTable.frame (h : KeepsTable m ids info t) (hext : Extends m other m' other') (hdis : ids.Disjoint other) :
    KeepsTable m' ids info t := by
  obtain ⟨hrep, hrows⟩ := h.represents.frame hext hdis
  exact { h with represents := hrep, rows_eq := hrows.trans h.rows_eq }

theorem KeepsTable.disjoint_extends (h : KeepsTable m ids info t) (hext : Extends m other m' other')
    (hdis : ids.Disjoint other) : ids.Disjoint other' := by
  intro p hp hp'
  rcases hext.ids_new p hp' with hold | hnew
  · exact hdis hp hold
  · exact (h.represents.chain.range p hp).2.not_ge hnew

structure KeepsTables (m : PageMap HeapPage) (pages : Str → List PageId) (catalog : Catalog) (tables : List Table) :
    Prop where
  each : List.Forall₂ (fun info t => KeepsTable m (pages t.name) info t) catalog.tables tables
  nodup : (tables.map (·.name)).Nodup
  disjoint : ∀ t ∈ tables, ∀ u ∈ tables, t.name ≠ u.name → (pages t.name).Disjoint (pages u.name)

namespace KeepsTables
variable {pages : Str → List PageId} {catalog : Catalog} {tables : List Table} {name : Str}

theorem eq_of_name (h : KeepsTables m pages catalog tables) {u : Table} (ht : t ∈ tables) (hu : u ∈ tables)
    (hname : t.name = u.name) : t = u := List.inj_on_of_nodup_map h.nodup ht hu hname

theorem getTable (h : KeepsTables m pages catalog tables) (hget : catalog.getTable name = .ok info) :
    ∃ t ∈ tables, t.name = name ∧ KeepsTable m (pages name) info t := by
  obtain ⟨hmem, hname⟩ := getTable_mem hget
  obtain ⟨t, ht, hkeeps⟩ := exists_of_forall₂ h.each hmem
  have htname : t.name = name := hkeeps.name_eq.symm.trans hname
  exact ⟨t, ht, htname, htname ▸ hkeeps⟩

theorem getTable_of_mem (h : KeepsTables m pages catalog tables) (ht : t ∈ tables) :
    ∃ info, catalog.getTable t.name = .ok info ∧ KeepsTable m (pages t.name) info t := by
  obtain ⟨info, hinfo, hkeeps⟩ := exists_of_forall₂ h.each.flip ht
  have hsome : (catalog.find t.name).isSome := by
    rw [Catalog.find, List.find?_isSome]
    exact ⟨info, hinfo, decide_eq_true hkeeps.name_eq⟩
  obtain ⟨info', hfind⟩ := Option.isSome_iff_exists.mp hsome
  have hget : catalog.getTable t.name = .ok info' := by
    rw [Catalog.getTable, hfind]
    rfl
  obtain ⟨u, hu, huname, hkeeps'⟩ := h.getTable hget
  obtain rfl := h.eq_of_name hu ht huname
  exact ⟨info', hget, hkeeps'⟩

theorem tableExists_iff (h : KeepsTables m pages catalog tables) :
    catalog.tableExists name = true ↔ name ∈ tables.map (·.name) := by
  rw [List.mem_map]
  constructor
  · intro hexists
    obtain ⟨info, hfind⟩ := Option.isSome_iff_exists.mp hexists
    have hget : catalog.getTable name = .ok info := by
      rw [Catalog.getTable, hfind]
      rfl
    obtain ⟨t, ht, hname, -⟩ := h.getTable hget
    exact ⟨t, ht, hname⟩
  · rintro ⟨t, ht, rfl⟩
    obtain ⟨info, hget, -⟩ := h.getTable_of_mem ht
    rw [Catalog.getTable] at hget
    rw [Catalog.tableExists]
    cases hfind : catalog.find t.name with
    | some info' => rfl
    | none =>
      rw [hfind] at hget
      cases hget

theorem create (h : KeepsTables m pages catalog tables) {schema : Schema} (hname : name ∉ tables.map (·.name))
    (hpos : 1 ≤ schema.tupleSize) (hsize : schema.tupleSize ≤ 4088) :
    KeepsTables (m.grow { (0 : HeapPage) with nextPageId := invalidPageId })
      (Function.update pages name [(m.numPages : PageId)])
      ⟨⟨name, schema, ⟨schema, m.numPages, m.numPages⟩⟩ :: catalog.tables⟩ (⟨name, schema, []⟩ :: tables) := by
  have hext := extends_grow m { (0 : HeapPage) with nextPageId := invalidPageId }
  have hpages (t : Table) (ht : t ∈ tables) : Function.update pages name [(m.numPages : PageId)] t.name = pages t.name :=
    Function.update_of_ne (ne_of_mem_of_not_mem (List.mem_map_of_mem ht) hname) _ _
  have hself : Function.update pages name [(m.numPages : PageId)] name = [(m.numPages : PageId)] :=
    Function.update_self ..
  have hnew (t : Table) (ht : t ∈ tables) : (pages t.name).Disjoint [(m.numPages : PageId)] := by
    obtain ⟨info, -, hkeeps⟩ := h.getTable_of_mem ht
    exact hkeeps.disjoint_extends hext (List.disjoint_nil_right _)
  refine ⟨.cons ?_ ?_, List.nodup_cons.mpr ⟨hname, h.nodup⟩, ?_⟩
  · rw [hself]
    exact ⟨rfl, rfl, rfl, hpos, hsize, nofun, create_represents m schema, rows_create m schema⟩
  · refine forall₂_imp_mem h.each fun info _ t ht hkeeps => ?_
    rw [hpages t ht]
    exact hkeeps.frame hext (List.disjoint_nil_right _)
  · simp only [List.forall_mem_cons, hself]
    refine ⟨⟨fun hne => absurd rfl hne, fun u hu _ => ?_⟩, fun t ht => ⟨fun _ => ?_, fun u hu hne => ?_⟩⟩
    · rw [hpages u hu]
      exact (hnew u hu).symm
    · rw [hpages t ht]
      exact hnew t ht
    · rw [hpages t ht, hpages u hu]
      exact h.disjoint t ht u hu hne

theorem insert (h : KeepsTables m pages catalog tables) {stmt : InsertStmt} {hf' : HeapFile} {vals : List Value}
    {rid : RID} (hget : catalog.getTable stmt.tableName = .ok info)
    (hvals : insertValues info.schema.columns stmt.values = .ok vals) (htyped : info.schema.Typed vals)
    (happ : Appended m info.heapFile (pages stmt.tableName) [(rid, Tuple.encode vals)] m' hf' ids') :
    KeepsTables m' (Function.update pages stmt.tableName ids') (catalog.setHeapFile stmt.tableName hf')
      (tables.map (Table.insert stmt)) := by
  obtain ⟨t, ht, htname, hkeeps⟩ := h.getTable hget
  have hself : Function.update pages stmt.tableName ids' stmt.tableName = ids' := Function.update_self ..
  have hother (u : Table) (hu : u.name ≠ stmt.tableName) :
      Function.update pages stmt.tableName ids' u.name = pages u.name := Function.update_of_ne hu _ _
  have hdis (u : Table) (hu : u ∈ tables) (hne : u.name ≠ stmt.tableName) :
      (pages u.name).Disjoint (pages stmt.tableName) := by
    have hdisjoint := h.disjoint u hu t ht (htname ▸ hne)
    rwa [htname] at hdisjoint
  have hdis' (u : Table) (hu : u ∈ tables) (hne : u.name ≠ stmt.tableName) : (pages u.name).Disjoint ids' := by
    obtain ⟨info', -, hkeeps'⟩ := h.getTable_of_mem hu
    exact hkeeps'.disjoint_extends happ.extends_ (hdis u hu hne)
  refine ⟨?_, ?_, ?_⟩
  · rw [Catalog.setHeapFile, List.forall₂_map_left_iff, List.forall₂_map_right_iff]
    refine forall₂_imp_mem h.each fun info' _ u hu hkeeps' => ?_
    rw [Table.insert_name]
    by_cases hname : u.name = stmt.tableName
    · obtain rfl := h.eq_of_name hu ht (hname.trans htname.symm)
      rw [if_pos (hkeeps'.name_eq.trans hname), hname, hself, Table.insert_of_ok hname (hkeeps.schema_eq ▸ hvals)]
      refine { hkeeps' with
        heap_eq := happ.schema_eq.trans hkeeps.heap_eq
        typed := ?_
        represents := happ.represents
        rows_eq := ?_ }
      · simp only [List.forall_mem_append, List.forall_mem_singleton]
        exact ⟨hkeeps.typed, hkeeps.schema_eq ▸ htyped⟩
      · rw [happ.rows_eq, hkeeps.rows_eq, List.map_append]
        rfl
    · rw [if_neg (hkeeps'.name_eq ▸ hname), hother u hname, Table.insert_of_ne hname]
      exact hkeeps'.frame happ.extends_ (hdis u hu hname)
  · rw [List.map_map]
    have hnames : ((fun u => u.name) ∘ Table.insert stmt) = fun u => u.name := by
      funext u
      exact Table.insert_name stmt u
    rw [hnames]
    exact h.nodup
  · simp only [List.forall_mem_map, Table.insert_name]
    intro u hu v hv hne
    by_cases hun : u.name = stmt.tableName
    · have hvn : v.name ≠ stmt.tableName := fun hvn => hne (hun.trans hvn.symm)
      rw [hun, hself, hother v hvn]
      exact (hdis' v hv hvn).symm
    · rw [hother u hun]
      by_cases hvn : v.name = stmt.tableName
      · rw [hvn, hself]
        exact hdis' u hu hun
      · rw [hother v hvn]
        exact h.disjoint u hu v hv hne

end KeepsTables

end pages

/-! ## Statements -/

theorem ofExcept_maintains {σ α : Type} {I : σ → Prop} (x : Except Fault α) : Maintains I (ofExcept x) := by
  intro s hs
  cases x with
  | ok a => exact hs
  | error e => exact hs

section plans
variable {σ : Type} {I : σ → Prop} {env : Env σ}

def InitMaintains (env : Env σ) (I : σ → Prop) (op : Operator) : Prop :=
  ∀ st : op.State, Maintains I (op.init env st)

theorem initMaintains_sort {child : Operator} (h : InitMaintains env I child) (orderBy : List OrderByItem) :
    InitMaintains env I (.sort child orderBy) := by
  rintro ⟨sc, b⟩
  apply (h sc).bind
  intro sc
  apply (ofExcept_maintains _).bind
  intro r
  apply (ofExcept_maintains _).bind
  intro ts
  exact Maintains.pure _

theorem initMaintains_hashAggregate {child : Operator} (h : InitMaintains env I child) (groupBy : List Expr)
    (aggExprs : List AggExpr) (schema : Schema) : InitMaintains env I (.hashAggregate child groupBy aggExprs schema) := by
  rintro ⟨sc, b⟩
  apply (h sc).bind
  intro sc
  apply (ofExcept_maintains _).bind
  intro r
  exact Maintains.pure _

theorem initMaintains_hashJoin {left right : Operator} (hleft : InitMaintains env I left)
    (hright : InitMaintains env I right) (leftKey rightKey : Expr) :
    InitMaintains env I (.hashJoin left right leftKey rightKey) := by
  rintro ⟨sl, sr, s⟩
  apply (hleft sl).bind
  intro sl
  apply (ofExcept_maintains _).bind
  intro r
  apply (hright sr).bind
  intro sr
  apply (ofExcept_maintains _).bind
  intro r'
  exact Maintains.pure _

theorem plan_maintains {catalog : Catalog} {stmt : SelectStmt} {op : Operator}
    (hscan : ∀ info ∈ catalog.tables, Maintains I (env.scan info)) (hplan : plan catalog stmt = .ok op) :
    InitMaintains env I op := by
  obtain ⟨input, hinput, hop⟩ := plan_eq_ok.mp hplan
  obtain ⟨base, hbase, rfl⟩ := planInput_eq_ok.mp hinput
  have hbase' : InitMaintains env I base := by
    refine planBase_induction (motive := InitMaintains env I) ?_ ?_ hbase
    · intro left right leftKey rightKey hleft hright
      exact initMaintains_hashJoin hleft hright leftKey rightKey
    · intro info hinfo aliasName st
      apply (hscan info hinfo).bind
      intro ts
      exact Maintains.pure _
  have hfilter : InitMaintains env I (planFilter stmt.whereClause base) := by
    cases stmt.whereClause with
    | none => exact hbase'
    | some p => exact hbase'
  have hsort {op : Operator} (h : InitMaintains env I op) : InitMaintains env I (planSort stmt.orderBy op) := by
    unfold planSort
    split_ifs
    · exact h
    · exact initMaintains_sort h stmt.orderBy
  split_ifs at hop
  · subst hop
    exact hsort hfilter
  · obtain ⟨schema, -, rfl⟩ := hop
    exact hsort (initMaintains_hashAggregate hfilter _ _ schema)
  · obtain ⟨schema, -, rfl⟩ := hop
    have hsorted := hsort hfilter
    exact hsorted

end plans

theorem insertValue_hasType {c : Column} {e : Expr} {v : Value} (hplain : e.Plain) (h : insertValue c e = .ok v) :
    v.HasType c.type := by
  unfold insertValue at h
  split at h
  · next v htype =>
    cases pure_eq_ok.mp h
    obtain ⟨hlo, hhi⟩ := hplain
    exact ⟨htype, by omega, by omega⟩
  · cases h
  · next s htype =>
    cases pure_eq_ok.mp h
    exact ⟨htype, rfl⟩
  · cases h

theorem insertValues_typed {cols : List Column} {es : List Expr} {vals : List Value} (hlen : es.length = cols.length)
    (hplain : ∀ e ∈ es, e.Plain) (h : insertValues cols es = .ok vals) :
    List.Forall₂ (fun v c => v.HasType c.type) vals cols := by
  induction cols generalizing es vals with
  | nil =>
    cases pure_eq_ok.mp h
    exact .nil
  | cons c cols ih =>
    cases es with
    | nil => cases hlen
    | cons e es =>
      obtain ⟨he, hes⟩ := List.forall_mem_cons.mp hplain
      obtain ⟨v, hv, h⟩ := bind_eq_ok.mp h
      obtain ⟨vs, hvs, h⟩ := bind_eq_ok.mp h
      cases pure_eq_ok.mp h
      exact .cons (insertValue_hasType he hv) (ih (Nat.succ.inj hlen) hes hvs)

section statements
variable {n : Nat} {outside : Env (BufferPool HeapPage n)} {db db' : Database (BufferPool HeapPage n)}
  {tables : List Table}

def Stores (db : Database (BufferPool HeapPage n)) (tables : List Table) : Prop :=
  ∃ m pages, Holds db.pages m ∧ (∀ p, m.pins p = 0) ∧ m.free = n ∧ KeepsTables m pages db.catalog tables

theorem onPages_ok {σ α : Type} {x : EStateM Fault σ α} {db : Database σ} {a : α} {pages : σ}
    (h : x db.pages = .ok a pages) : onPages x db = .ok a { db with pages } := by
  rw [onPages, h]

theorem onPages_error {σ α : Type} {x : EStateM Fault σ α} {db : Database σ} {e : Fault} {pages : σ}
    (h : x db.pages = .error e pages) : onPages x db = .error e { db with pages } := by
  rw [onPages, h]

theorem onPages_maintains {σ α : Type} {J : σ → Prop} {x : EStateM Fault σ α} (h : Maintains J x) (catalog : Catalog) :
    Maintains (fun db => db.catalog = catalog ∧ J db.pages) (onPages x) := by
  rintro db ⟨hcat, hpages⟩
  have hx := h db.pages hpages
  cases hrun : x db.pages with
  | ok a pages =>
    rw [hrun] at hx
    rw [onPages_ok hrun]
    exact ⟨hcat, hx⟩
  | error e pages =>
    rw [hrun] at hx
    rw [onPages_error hrun]
    exact ⟨hcat, hx⟩

theorem isException_of_getTable {catalog : Catalog} {name : Str} {e : Fault} (h : catalog.getTable name = .error e) :
    e.IsException := by
  unfold Catalog.getTable at h
  split at h
  · cases h
  · cases h
    trivial

theorem isException_of_insertValues {cols : List Column} {es : List Expr} {e : Fault}
    (h : insertValues cols es = .error e) : e.IsException := by
  fun_induction insertValues cols es with
  | case1 c cs e' es ih =>
    rcases bind_eq_error.mp h with hv | ⟨v, -, h⟩
    · unfold insertValue at hv
      split at hv <;> cases hv <;> trivial
    · rcases bind_eq_error.mp h with hvs | ⟨vs, -, h⟩
      · exact ih hvs
      · cases h
  | case2 => cases h

theorem execCreate_stores (hn : n ≠ 0) (h : Stores db tables) (stmt : CreateTableStmt) :
    (∃ e, execCreate BufferPool.store stmt db = .error e db ∧ e.IsException) ∨
    ∃ result db', execCreate BufferPool.store stmt db = .ok result db' ∧ Accepts tables (.createTable stmt) ∧
      (1 ≤ (createSchema stmt).tupleSize → (createSchema stmt).tupleSize ≤ 4088 →
        Stores db' (⟨stmt.tableName, createSchema stmt, []⟩ :: tables)) := by
  obtain ⟨m, pages, hs, hpins, hfree, hkeeps⟩ := h
  have hget : (get : EStateM Fault (Database (BufferPool HeapPage n)) _) db = .ok db db := rfl
  rw [execCreate, bind_ok hget]
  by_cases hexists : db.catalog.tableExists stmt.tableName = true
  · left
    have hthrow : db.catalog.createTable BufferPool.store stmt.tableName (createSchema stmt) db.pages =
        .error (.runtimeError (lit "Table already exists: " ++ stmt.tableName)) db.pages := by
      rw [Catalog.createTable, if_pos hexists]
      rfl
    rw [bind_error (onPages_error hthrow)]
    exact ⟨_, rfl, trivial⟩
  · right
    obtain ⟨s', hcreate, hs'⟩ := create_pool hs (hfree ▸ hn) (createSchema stmt)
    have hrun : db.catalog.createTable BufferPool.store stmt.tableName (createSchema stmt) db.pages =
        .ok ⟨⟨stmt.tableName, createSchema stmt, ⟨createSchema stmt, m.numPages, m.numPages⟩⟩ :: db.catalog.tables⟩ s' := by
      rw [Catalog.createTable, if_neg hexists, bind_ok hcreate]
      rfl
    rw [bind_ok (onPages_ok hrun)]
    have hnew : stmt.tableName ∉ tables.map (·.name) := fun hmem => hexists (hkeeps.tableExists_iff.mpr hmem)
    exact ⟨_, _, rfl, hnew, fun hpos hsize => ⟨_, _, hs', hpins, hfree, hkeeps.create hnew hpos hsize⟩⟩

theorem execInsert_stores (hn : n ≠ 0) (h : Stores db tables) {stmt : InsertStmt}
    (hplain : ∀ e ∈ stmt.values, e.Plain) :
    (∃ e, execInsert BufferPool.store stmt db = .error e db ∧ e.IsException) ∨
    ∃ result db', execInsert BufferPool.store stmt db = .ok result db' ∧ Accepts tables (.insert stmt) ∧
      Stores db' (tables.map (Table.insert stmt)) := by
  obtain ⟨m, pages, hs, hpins, hfree, hkeeps⟩ := h
  have hget : (get : EStateM Fault (Database (BufferPool HeapPage n)) _) db = .ok db db := rfl
  rw [execInsert, bind_ok hget]
  cases htable : db.catalog.getTable stmt.tableName with
  | error e =>
    rw [bind_error (ofExcept_error rfl db)]
    exact Or.inl ⟨e, rfl, isException_of_getTable htable⟩
  | ok info =>
    obtain ⟨t, ht, htname, htable'⟩ := hkeeps.getTable htable
    rw [bind_ok (ofExcept_ok rfl db)]
    dsimp only
    by_cases hlen : stmt.values.length = info.schema.columns.length
    · rw [if_neg (not_not.mpr hlen)]
      cases hvals : insertValues info.schema.columns stmt.values with
      | error e =>
        rw [bind_error (ofExcept_error rfl db)]
        exact Or.inl ⟨e, rfl, isException_of_insertValues hvals⟩
      | ok vals =>
        right
        have htyped : info.schema.Typed vals := insertValues_typed hlen hplain hvals
        have hsize := htable'.getTupleSize_eq
        have hlength : (Tuple.encode vals).length = info.heapFile.schema.getTupleSize := by
          rw [hsize, Tuple.length_encode_fits htyped.fits, htable'.schema_eq]
        have hunpinned : db.pages.unpinned ≠ 0 := by
          rw [← hs.free_eq, hfree]
          exact hn
        obtain ⟨rid, hf', s', m', ids', hrun, hs', hpins', hfree', happ⟩ :=
          insertTuple_pool hs hunpinned htable'.represents (hsize ▸ htable'.pos) (hsize ▸ htable'.size) hlength
        rw [bind_ok (ofExcept_ok rfl db), bind_ok (ofExcept_ok (Tuple.ofValues_ok htyped.fits) db),
          bind_ok (onPages_ok hrun)]
        refine ⟨_, _, rfl, ?_, m', _, hs', fun p => ?_, hfree'.trans hfree, hkeeps.insert htable hvals htyped happ⟩
        · rw [htable'.schema_eq] at hlen hvals
          exact ⟨t, ht, htname, hlen, vals, hvals⟩
        · rw [hpins']
          exact hpins p
    · rw [if_pos hlen]
      exact Or.inl ⟨_, rfl, trivial⟩

theorem scan_table (hn : n ≠ 0) {m : PageMap HeapPage} (hfree : m.free = n) {ids : List PageId} {info : TableInfo}
    {t : Table} (h : KeepsTable m ids info t) {s : BufferPool HeapPage n} (hs : Holds s m) :
    ∃ s', info.heapFile.scan BufferPool.store pushBack [] s = .ok (t.rows.map Tuple.encode) s' ∧ Holds s' m := by
  have hunpinned : s.unpinned ≠ 0 := by
    rw [← hs.free_eq, hfree]
    exact hn
  obtain ⟨s', hscan, hs'⟩ := scan_pool pushBack hs hunpinned h.represents []
  rw [visit_pushBack, map_snd_entries, h.rows_eq, List.nil_append] at hscan
  exact ⟨s', hscan, hs'⟩

theorem execSelect_stores (hn : n ≠ 0) (h : Stores db tables) (stmt : SelectStmt) :
    EndsIn (Stores · tables) (execSelect BufferPool.store outside stmt db) := by
  obtain ⟨m, pages, hs, hpins, hfree, hkeeps⟩ := h
  have hscan : ∀ info ∈ db.catalog.tables, Maintains (Holds · m) ((env BufferPool.store outside).scan info) := by
    intro info hinfo s hs
    obtain ⟨t, -, ht⟩ := exists_of_forall₂ hkeeps.each hinfo
    obtain ⟨s', hrun, hs'⟩ := scan_table hn hfree ht hs
    change EndsIn _ (info.heapFile.scan BufferPool.store pushBack [] s)
    rw [hrun]
    exact hs'
  have hget : (get : EStateM Fault (Database (BufferPool HeapPage n)) _) db = .ok db db := rfl
  rw [execSelect, bind_ok hget]
  cases hplan : plan db.catalog stmt with
  | error e =>
    rw [bind_error (ofExcept_error rfl db)]
    exact ⟨m, pages, hs, hpins, hfree, hkeeps⟩
  | ok op =>
    rw [bind_ok (ofExcept_ok rfl db)]
    have hinit := onPages_maintains (plan_maintains hscan hplan op.fresh) db.catalog
    have hend := hinit.bind (fun state => (ofExcept_maintains (op.consume outside.std (addRow op.outputSchema) [] state)).bind
      fun r => Maintains.pure (ε := Fault) (⟨op.outputSchema.columns.map (·.name), r.1, []⟩ : QueryResult)) db ⟨rfl, hs⟩
    refine EndsIn.imp ?_ hend
    rintro db' ⟨hcat, hs'⟩
    exact ⟨m, pages, hs', hpins, hfree, hcat ▸ hkeeps⟩

def Storable : Statement → Prop
  | .createTable stmt => 1 ≤ (createSchema stmt).tupleSize ∧ (createSchema stmt).tupleSize ≤ 4088
  | _ => True

instance : DecidablePred Storable := fun stmt => by
  cases stmt <;> unfold Storable <;> infer_instance

theorem execStatement_stores (hn : n ≠ 0) (h : Stores db tables) {stmt : Statement} (hplain : stmt.Plain) :
    (∀ result db', execStatement BufferPool.store outside stmt db = .ok result db' →
      Accepts tables stmt ∧ (Storable stmt → Stores db' (applyStatement tables stmt))) ∧
    ∀ e db', execStatement BufferPool.store outside stmt db = .error e db' → Stores db' tables := by
  cases stmt with
  | createTable stmt =>
    rcases execCreate_stores hn h stmt with ⟨e, hrun, -⟩ | ⟨result, db₁, hrun, haccepts, hstores⟩
    · refine ⟨fun result db' hok => ?_, fun e' db' herr => ?_⟩
      · cases hok.symm.trans hrun
      · cases herr.symm.trans hrun
        exact h
    · refine ⟨fun result db' hok => ?_, fun e' db' herr => ?_⟩
      · cases hok.symm.trans hrun
        exact ⟨haccepts, fun hsize => hstores hsize.1 hsize.2⟩
      · cases herr.symm.trans hrun
  | insert stmt =>
    rcases execInsert_stores hn h hplain.2 with ⟨e, hrun, -⟩ | ⟨result, db₁, hrun, haccepts, hstores⟩
    · refine ⟨fun result db' hok => ?_, fun e' db' herr => ?_⟩
      · cases hok.symm.trans hrun
      · cases herr.symm.trans hrun
        exact h
    · refine ⟨fun result db' hok => ?_, fun e' db' herr => ?_⟩
      · cases hok.symm.trans hrun
        exact ⟨haccepts, fun _ => hstores⟩
      · cases herr.symm.trans hrun
  | select stmt =>
    have hend : EndsIn (Stores · tables) (execSelect BufferPool.store outside stmt db) := execSelect_stores hn h stmt
    refine ⟨fun result db' hok => ⟨trivial, fun _ => ?_⟩, fun e' db' herr => ?_⟩
    · change execSelect BufferPool.store outside stmt db = _ at hok
      rw [hok] at hend
      exact hend
    · change execSelect BufferPool.store outside stmt db = _ at herr
      rw [herr] at hend
      exact hend
  | explain stmt =>
    refine ⟨fun result db' hok => ⟨trivial, fun _ => ?_⟩, fun e' db' herr => ?_⟩
    · cases hok
      exact h
    · cases herr

end statements

end MyDB.Database

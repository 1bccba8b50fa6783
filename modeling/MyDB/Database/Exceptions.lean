import MyDB.Database.TableRows
import MyDB.Database.UncheckedRuns
import MyDB.Parser.ParserTotal

/-! How a statement can fail. The lexer, the parser, the planner and the storage throw
exceptions, and so does the run of a plan that is guarded. A statement that throws leaves
the tables as they are. -/

namespace MyDB

/-! ## The planner and the parser -/

namespace Planner
open MyDB.Parser MyDB.Executor MyDB.Lib MyDB.Database
variable {catalog : Catalog} {schema : Schema} {e : Fault}

end Planner

namespace Database
open MyDB.Storage MyDB.Storage.HeapFile MyDB.Parser MyDB.Executor MyDB.Lib MyDB.Planner

section statements
variable {n : Nat} {outside : Env (BufferPool HeapPage n)} {disk : DiskManager HeapPage}
  {db db' : Database (BufferPool HeapPage n)} {tables : List Table} {stmts : List Statement} {sql : Str}

/-- The tuples that a scan of the table returns now. -/
def tuplesOf (db : Database (BufferPool HeapPage n)) (info : TableInfo) : List Tuple :=
  match info.heapFile.scan BufferPool.store pushBack [] db.pages with
  | .ok rows _ => rows
  | .error _ _ => []

theorem Stores.plain_iff (h : Stores db tables) :
    db.catalog.Plain ↔ ∀ t ∈ tables, ∀ c ∈ t.schema.columns, c.Plain := by
  obtain ⟨m, pages, -, -, -, hkeeps⟩ := h
  constructor
  · intro hplain t ht
    obtain ⟨info, hinfo, hkeep⟩ := exists_of_forall₂ hkeeps.each.flip ht
    rw [← hkeep.schema_eq]
    exact hplain info hinfo
  · intro hplain info hinfo
    obtain ⟨t, ht, hkeep⟩ := exists_of_forall₂ hkeeps.each hinfo
    rw [hkeep.schema_eq]
    exact hplain t ht

theorem plain_applyStatement {stmt : Statement} (hstmt : stmt.Plain)
    (h : ∀ t ∈ tables, ∀ c ∈ t.schema.columns, c.Plain) :
    ∀ t ∈ applyStatement tables stmt, ∀ c ∈ t.schema.columns, c.Plain := by
  cases stmt with
  | createTable stmt =>
    refine List.forall_mem_cons.mpr ⟨fun c hc => ?_, h⟩
    obtain ⟨d, hd, rfl⟩ := List.mem_map.mp hc
    exact (hstmt.2 d hd).1
  | insert stmt =>
    refine List.forall_mem_map.mpr fun t ht => ?_
    rw [Table.insert_schema]
    exact h t ht
  | select stmt => exact h
  | explain stmt => exact h

theorem Reaches.plain (h : Reaches outside disk db stmts) (hn : n ≠ 0) : db.catalog.Plain := by
  induction h with
  | new => exact fun info hinfo => absurd hinfo List.not_mem_nil
  | execute hreach hparse hsize hrun ih =>
    obtain ⟨tables, hstores, -⟩ := hreach.stores hn
    rw [execute_eq hparse] at hrun
    have hstores' := ((execStatement_stores hn hstores (parseSql_plain hparse)).1 _ _ hrun).2 hsize
    exact hstores'.plain_iff.mpr (plain_applyStatement (parseSql_plain hparse) (hstores.plain_iff.mp ih))

/-- If the statement is a `SELECT`, its plan is guarded on the tables as they are. -/
def Guarded (db : Database (BufferPool HeapPage n)) (sql : Str) : Prop :=
  ∀ stmt op, parseSql sql = .ok (.select stmt) → plan db.catalog stmt = .ok op → op.Guarded (tuplesOf db)

end statements

end Database

end MyDB

import MyDB.Storage.HeapFile

/-! The catalog: the tables by name. `first_page_id` of a `TableInfo` is never
read and is left out. -/

namespace MyDB
open MyDB.Storage

structure TableInfo where
  name : Str
  schema : Schema
  heapFile : HeapFile

/-- `tables_`, each table under its own name. -/
structure Catalog where
  tables : List TableInfo

namespace Catalog

def find (c : Catalog) (name : Str) : Option TableInfo := c.tables.find? (·.name = name)

def tableExists (c : Catalog) (name : Str) : Bool := (c.find name).isSome

def getTable (c : Catalog) (name : Str) : Except Fault TableInfo :=
  match c.find name with
  | some info => return info
  | none => throw (.runtimeError (lit "Table not found: " ++ name))

section Code
variable {σ P : Type} (bpm : PageStore σ HeapPage P)

def createTable (c : Catalog) (name : Str) (schema : Schema) : EStateM Fault σ Catalog := do
  if c.tableExists name then throw (.runtimeError (lit "Table already exists: " ++ name))
  else
    let heapFile ← HeapFile.create bpm schema
    return ⟨⟨name, schema, heapFile⟩ :: c.tables⟩

end Code

/-- The table is looked up by name each time, so `InsertTuple` changes it here. -/
def setHeapFile (c : Catalog) (name : Str) (heapFile : HeapFile) : Catalog :=
  ⟨c.tables.map fun info => if info.name = name then { info with heapFile } else info⟩

end Catalog

end MyDB

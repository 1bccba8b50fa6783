import MyDB.Parser.Parser
import MyDB.Planner.Planner
import MyDB.Storage.HeapRows

/-! The database: statements are parsed and carried out over the catalog and the
pages. What the operators take from outside comes from an `Env`, but for the scan
of a table, which is the heap file's. -/

namespace MyDB
open MyDB.Storage MyDB.Parser MyDB.Executor MyDB.Lib

structure QueryResult where
  columns : List Str
  rows : List (List Str)
  message : Str
  deriving DecidableEq, Repr

/-- The catalog, and the state of the pages below it. -/
structure Database (σ : Type) where
  catalog : Catalog
  pages : σ

namespace Database
variable {σ P : Type}

def onPages {α : Type} (x : EStateM Fault σ α) : EStateM Fault (Database σ) α := fun db =>
  match x db.pages with
  | .ok a pages => .ok a { db with pages }
  | .error e pages => .error e { db with pages }

/-- The schema that `ExecCreate` builds. -/
def createSchema (stmt : CreateTableStmt) : Schema :=
  ⟨stmt.columns.map fun d => ⟨d.name, ⟨d.typeId, d.maxLen⟩⟩⟩

/-- The value that `ExecInsert` makes of one expression. -/
def insertValue (c : Column) (e : Expr) : Except Fault Value :=
  match c.type.typeId, e with
  | .int, .intLiteral v => return .int v
  | .int, _ => throw (.runtimeError (lit "Expected integer for column " ++ c.name))
  | .varchar, .stringLiteral s => return .varchar s c.type.maxLen
  | .varchar, _ => throw (.runtimeError (lit "Expected string for column " ++ c.name))

/-- The loop of `ExecInsert`; both lists have the same length. -/
def insertValues : List Column → List Expr → Except Fault (List Value)
  | c :: cs, e :: es => return (← insertValue c e) :: (← insertValues cs es)
  | _, _ => return []

/-- `std::getline` until it fails. -/
def getLines (text : Str) : List Str :=
  let pieces := text.splitOn 10
  if pieces.getLast? = some [] then pieces.dropLast else pieces

variable (bpm : PageStore σ HeapPage P) (outside : Env σ)

/-- The operators' surroundings: `SeqScan` buffers a whole `Scan`. -/
def env : Env σ := { outside with scan := fun info => info.heapFile.scan bpm HeapFile.pushBack [] }

def execCreate (stmt : CreateTableStmt) : EStateM Fault (Database σ) QueryResult := do
  let catalog ← onPages ((← get).catalog.createTable bpm stmt.tableName (createSchema stmt))
  modify fun db => { db with catalog }
  return ⟨[], [], lit "Table '" ++ stmt.tableName ++ lit "' created."⟩

def execInsert (stmt : InsertStmt) : EStateM Fault (Database σ) QueryResult := do
  let info ← ofExcept ((← get).catalog.getTable stmt.tableName)
  if stmt.values.length ≠ info.schema.columns.length then
    throw (.runtimeError (lit "Column count mismatch in INSERT"))
  let vals ← ofExcept (insertValues info.schema.columns stmt.values)
  let t ← ofExcept (Tuple.ofValues vals info.schema)
  let (rid, heapFile) ← onPages (info.heapFile.insertTuple bpm t)
  modify fun db => { db with catalog := db.catalog.setHeapFile stmt.tableName heapFile }
  match rid with
  | some _ => return ⟨[], [], lit "Inserted 1 row."⟩
  | none => throw (.runtimeError (lit "INSERT failed — storage full"))

def rowCells (schema : Schema) (t : Tuple) : Except Fault (List Str) :=
  (List.range schema.columns.length).mapM fun i => return (← t.getValue schema i).toString

/-- The body of the loop of `ExecSelect`. -/
def addRow (schema : Schema) (rows : List (List Str)) (t : Tuple) : Except Fault (List (List Str)) :=
  return rows ++ [← rowCells schema t]

def execSelect (stmt : SelectStmt) : EStateM Fault (Database σ) QueryResult := do
  let op ← ofExcept (Planner.plan (← get).catalog stmt)
  let state ← onPages (op.init (env bpm outside) op.fresh)
  let (rows, _) ← ofExcept (op.consume outside.std (addRow op.outputSchema) [] state)
  return ⟨op.outputSchema.columns.map (·.name), rows, []⟩

def execExplain (stmt : SelectStmt) : QueryResult :=
  ⟨[lit "plan"], (getLines (Planner.explain stmt)).map fun line => [line], []⟩

def execStatement : Statement → EStateM Fault (Database σ) QueryResult
  | .createTable stmt => execCreate bpm stmt
  | .insert stmt => execInsert bpm stmt
  | .select stmt => execSelect bpm outside stmt
  | .explain select => return execExplain select

/-- `Lexer{sql}.Tokenize()` and `Parse()`. -/
def parseSql (sql : Str) : Except Fault Statement :=
  match Lexer.tokenize sql with
  | .error e => .error e
  | .ok tokens =>
    match Parser.parse tokens with
    | .ok stmt _ => .ok stmt
    | .error e _ => .error e

def execute (sql : Str) : EStateM Fault (Database σ) QueryResult := do
  execStatement bpm outside (← ofExcept (parseSql sql))

end Database
end MyDB

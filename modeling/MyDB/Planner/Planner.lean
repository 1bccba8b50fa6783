import MyDB.Executor.Operator

/-! The planner: the operator tree of a `SELECT`, and the text of `EXPLAIN`. -/

namespace MyDB.Planner
open MyDB.Parser MyDB.Executor

def isAggregate : Expr → Bool
  | .aggregate .. | .aggregateStar _ => true
  | _ => false

def hasAggregate (list : List SelectItem) : Bool := list.any fun item => isAggregate item.expr

/-- The fields `table_alias` and `col_name`, which are empty in other expressions. -/
def columnFields : Expr → Str × Str
  | .columnRef tableAlias colName => (tableAlias, colName)
  | _ => ([], [])

def fieldsKey (e : Expr) : Str := columnKey (columnFields e).1 (columnFields e).2

def getColumn (schema : Schema) (i : Nat) : Except Fault Column :=
  match schema.columns[i]? with
  | some c => return c
  | none => throw .outOfBounds

/-- The column of `BuildProjectionSchema` for one item. -/
def projectionColumn (input : Schema) (item : SelectItem) : Except Fault Column :=
  match item.expr with
  | .columnRef tableAlias colName => do
    let c ← getColumn input (← input.getColumnIdx (columnKey tableAlias colName))
    return ⟨if item.aliasName = [] then colName else item.aliasName, c.type⟩
  | _ => return ⟨if item.aliasName = [] then lit "?" else item.aliasName, .int⟩

def buildProjectionSchema (list : List SelectItem) (input : Schema) : Except Fault Schema :=
  return ⟨← list.mapM (projectionColumn input)⟩

/-- The column of `BuildAggSchema` for one expression of `GROUP BY`. -/
def groupColumn (input : Schema) (e : Expr) : Except Fault Column := do
  let c ← getColumn input (← input.getColumnIdx (fieldsKey e))
  return { c with name := (columnFields e).2 }

def buildAggSchema (groupBy : List Expr) (aggs : List AggExpr) (input : Schema) : Except Fault Schema :=
  return ⟨(← groupBy.mapM (groupColumn input)) ++ aggs.map fun ae => ⟨ae.outputName, .int⟩⟩

def makeOutputSchema (base : Schema) (aliasName : Str) : Schema :=
  if aliasName = [] then base
  else ⟨base.columns.map fun c => { c with name := aliasName ++ lit "." ++ c.name }⟩

/-- A `SeqScan` of the table, under its own name where there is no alias. -/
def scanTable (catalog : Catalog) (table aliasName : Str) : Except Fault Operator := do
  let info ← catalog.getTable table
  return .seqScan info (makeOutputSchema info.schema (if aliasName = [] then table else aliasName))

/-- The loop over `stmt.joins`. -/
def planJoins (catalog : Catalog) : List JoinClause → Operator → Except Fault Operator
  | [], plan => return plan
  | join :: joins, plan => do
    let right ← scanTable catalog join.tableName join.aliasName
    match join.condition with
    | .binaryOp .eq leftKey rightKey => planJoins catalog joins (.hashJoin plan right leftKey rightKey)
    | _ => throw (.runtimeError (lit "Only equality join conditions are supported"))

def planFilter (whereClause : Option Expr) (plan : Operator) : Operator :=
  match whereClause with
  | some predicate => .filter plan predicate
  | none => plan

def planSort (orderBy : List OrderByItem) (plan : Operator) : Operator :=
  if orderBy = [] then plan else .sort plan orderBy

def isStar (list : List SelectItem) : Bool :=
  match list with
  | [item] => item.expr = .star
  | _ => false

def aggExpr (item : SelectItem) : Option AggExpr :=
  let outputName (func : AggFunc) : Str := if item.aliasName = [] then func.name else item.aliasName
  match item.expr with
  | .aggregate func left => some ⟨func, some left, outputName func⟩
  | .aggregateStar func => some ⟨func, none, outputName func⟩
  | _ => none

/-- Scan, joins and filter. -/
def planInput (catalog : Catalog) (stmt : SelectStmt) : Except Fault Operator := do
  let base ← scanTable catalog stmt.fromTable stmt.fromAlias
  return planFilter stmt.whereClause (← planJoins catalog stmt.joins base)

def plan (catalog : Catalog) (stmt : SelectStmt) : Except Fault Operator := do
  let input ← planInput catalog stmt
  if isStar stmt.selectList then return planSort stmt.orderBy input
  else if hasAggregate stmt.selectList ∨ stmt.groupBy ≠ [] then
    let aggExprs := stmt.selectList.filterMap aggExpr
    let schema ← buildAggSchema stmt.groupBy aggExprs input.outputSchema
    return planSort stmt.orderBy (.hashAggregate input stmt.groupBy aggExprs schema)
  else
    -- sorted before the projection, which may drop the columns of `ORDER BY`
    let sorted := planSort stmt.orderBy input
    let schema ← buildProjectionSchema stmt.selectList sorted.outputSchema
    return .projection sorted (stmt.selectList.map (·.expr)) schema

/-! ## Explain -/

/-- What a line of `Explain` names. -/
inductive NodeLabel where
  | sort
  | hashAggregate
  | projection
  | filter
  | hashJoin
  | seqScan (table : Str)
  deriving DecidableEq, Repr

def NodeLabel.text : NodeLabel → Str
  | .sort => lit "Sort"
  | .hashAggregate => lit "HashAggregate"
  | .projection => lit "Projection"
  | .filter => lit "Filter"
  | .hashJoin => lit "HashJoin"
  | .seqScan table => lit "SeqScan [" ++ table ++ lit "]"

/-- The lines that `Explain` writes below `depth` other lines: joins and scans. -/
def explainInput (stmt : SelectStmt) (depth : Nat) : List (Nat × NodeLabel) :=
  if stmt.joins = [] then [(depth, .seqScan stmt.fromTable)]
  else
    (depth, .hashJoin) :: (depth + 1, .seqScan stmt.fromTable) ::
      stmt.joins.map fun j => (depth + 1, .seqScan j.tableName)

/-- A line that takes the lines after it one level down, where the condition holds. -/
def explainNode (c : Prop) [Decidable c] (label : NodeLabel)
    (rest : Nat → List (Nat × NodeLabel)) (depth : Nat) : List (Nat × NodeLabel) :=
  if c then (depth, label) :: rest (depth + 1) else rest depth

/-- The lines of `Explain`, each with its depth. -/
def explainLines (stmt : SelectStmt) : List (Nat × NodeLabel) :=
  let hasAgg := hasAggregate stmt.selectList ∨ stmt.groupBy ≠ []
  explainNode (stmt.orderBy ≠ []) .sort
    (explainNode hasAgg .hashAggregate
      (explainNode (¬ hasAgg ∧ ¬ isStar stmt.selectList) .projection
        (explainNode (stmt.whereClause.isSome) .filter (explainInput stmt)))) 0

def explain (stmt : SelectStmt) : Str :=
  (explainLines stmt).flatMap fun (depth, label) =>
    List.replicate (depth * 2) 32 ++ label.text ++ lit "\n"

end MyDB.Planner

import MyDB.Parser.Ast

/-! `EvalExpr` and `EvalPred`, which all operators share. -/

namespace MyDB.Executor
open MyDB.Parser

/-- The name that a `COLUMN_REF` looks up. -/
def columnKey (tableAlias colName : Str) : Str :=
  if tableAlias = [] then colName else tableAlias ++ lit "." ++ colName

def evalExpr (e : Expr) (t : Tuple) (schema : Schema) : Except Fault Value :=
  match e with
  | .intLiteral v => return .int v
  | .stringLiteral s => return .varchar s 255
  | .columnRef tableAlias colName => do
    t.getValue schema (← schema.getColumnIdx (columnKey tableAlias colName))
  | _ => throw (.runtimeError (lit "EvalExpr: unsupported expression type"))

/-- The comparisons of `EvalPred`; `AND` and `OR` are none. -/
def compareOp {α : Type} [DecidableEq α] [LT α] [DecidableLT α] (op : BinaryOp) (l r : α) : Option Bool :=
  match op with
  | .eq => some (l = r)
  | .lt => some (l < r)
  | .gt => some (r < l)
  | .leq => some (¬ r < l)
  | .geq => some (¬ l < r)
  | .neq => some (l ≠ r)
  | .and | .or => none

/-- Two `INT`s are compared as numbers, anything else as the text fields. -/
def compareValues (op : BinaryOp) (lv rv : Value) : Except Fault Bool :=
  let r :=
    if lv.typeId = .int ∧ rv.typeId = .int then compareOp op lv.asInt rv.asInt
    else compareOp op lv.asVarchar rv.asVarchar
  match r with
  | some b => return b
  | none => throw (.runtimeError (lit "EvalPred: unsupported predicate"))

def evalPred (e : Expr) (t : Tuple) (schema : Schema) : Except Fault Bool :=
  match e with
  | .not left => do return !(← evalPred left t schema)
  | .binaryOp .and left right => do
    if ← evalPred left t schema then evalPred right t schema else return false
  | .binaryOp .or left right => do
    if ← evalPred left t schema then return true else evalPred right t schema
  | .binaryOp op left right => do
    compareValues op (← evalExpr left t schema) (← evalExpr right t schema)
  | _ => throw (.runtimeError (lit "EvalPred: unsupported predicate"))

end MyDB.Executor

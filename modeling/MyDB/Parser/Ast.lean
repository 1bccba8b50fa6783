import MyDB.Common.Types

/-! The syntax trees of the parser. The struct `Expr` has one set of fields for
all its types; here each type has its own. -/

namespace MyDB.Parser

/-- The field `op` of a `BINARY_OP`. -/
inductive BinaryOp where
  | eq | lt | gt | leq | geq | neq | and | or
  deriving DecidableEq, Repr

/-- The field `func_name` of an `AGGREGATE`. -/
inductive AggFunc where
  | count | sum | avg | min | max
  deriving DecidableEq, Repr

def AggFunc.name : AggFunc → Str
  | .count => lit "COUNT"
  | .sum => lit "SUM"
  | .avg => lit "AVG"
  | .min => lit "MIN"
  | .max => lit "MAX"

inductive Expr where
  | columnRef (tableAlias colName : Str)
  | intLiteral (intVal : Int)
  | stringLiteral (strVal : Str)
  | binaryOp (op : BinaryOp) (left right : Expr)
  /-- `UNARY_OP`, whose `op` is always `NOT`. -/
  | not (left : Expr)
  | star
  | aggregate (func : AggFunc) (left : Expr)
  /-- `AGGREGATE` with `is_star_arg`, and then no `left`. -/
  | aggregateStar (func : AggFunc)
  deriving DecidableEq, Repr

structure ColumnDef where
  name : Str
  typeId : TypeId
  maxLen : Nat
  deriving DecidableEq, Repr

structure CreateTableStmt where
  tableName : Str
  columns : List ColumnDef
  deriving DecidableEq, Repr

structure InsertStmt where
  tableName : Str
  values : List Expr
  deriving DecidableEq, Repr

structure SelectItem where
  expr : Expr
  aliasName : Str
  deriving DecidableEq, Repr

structure JoinClause where
  tableName : Str
  aliasName : Str
  condition : Expr
  deriving DecidableEq, Repr

structure OrderByItem where
  expr : Expr
  ascending : Bool
  deriving DecidableEq, Repr

structure SelectStmt where
  selectList : List SelectItem
  fromTable : Str
  fromAlias : Str
  joins : List JoinClause
  whereClause : Option Expr
  groupBy : List Expr
  orderBy : List OrderByItem
  deriving DecidableEq, Repr

inductive Statement where
  | createTable (stmt : CreateTableStmt)
  | insert (stmt : InsertStmt)
  | select (stmt : SelectStmt)
  | explain (select : SelectStmt)
  deriving DecidableEq, Repr

end MyDB.Parser

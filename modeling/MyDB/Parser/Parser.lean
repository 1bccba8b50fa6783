import MyDB.Parser.Ast
import MyDB.Parser.Lexer

/-! The recursive-descent parser. Its state is the list of the tokens from `pos_`
on; a read past the end of `tokens_` is `outOfBounds`. A loop or recursion stops
with `diverges` after more rounds than there are tokens left. `Peek` is not
called and is left out. -/

namespace MyDB.Parser

abbrev P := EStateM Fault (List Token)

/-! ## `std::stoi` -/

def stoi (s : Str) : P Int :=
  let s := s.dropWhile isSpace
  let negative := s.head? = some dash
  let ds := (if negative ∨ s.head? = some 43 then s.tail else s).takeWhile isDigit
  let v : Int := if negative then -digitsValue ds else digitsValue ds
  if ds = [] then throw .invalidArgument
  else if -2147483648 ≤ v ∧ v ≤ 2147483647 then return v
  else throw .outOfRange

/-! ## Token helpers -/

def current : P Token := do
  match ← get with
  | [] => throw .outOfBounds
  | t :: _ => return t

def consume : P Token := do
  match ← get with
  | [] => throw .outOfBounds
  | t :: rest =>
    set rest
    return t

def check (type : TokenType) : P Bool := return (← current).type = type

def matchToken (type : TokenType) : P Bool := do
  if ← check type then
    let _ ← consume
    return true
  else return false

def expect (type : TokenType) (msg : Str) : P Token := do
  if ← check type then consume
  else throw (.runtimeError (lit "Parse error at '" ++ (← current).value ++ lit "': " ++ msg))

/-- `while (Match(type)) body`, where the body updates `b`. -/
def whileMatch {β : Type} (type : TokenType) (body : β → P β) : Nat → β → P β
  | 0, _ => throw .diverges
  | fuel + 1, b => do
    if ← matchToken type then
      let b ← body b
      whileMatch type body fuel b
    else return b

/-- `do { list.push_back(item) } while (Match(COMMA))`. -/
def commaList {α : Type} (item : P α) : P (List α) := do
  let first ← item
  let tokens ← get
  whileMatch .comma (fun list => do return list ++ [← item]) (tokens.length + 1) [first]

/-! ## Expressions -/

/-- The loops of `ParseOr` and `ParseAnd`. -/
def leftAssoc (type : TokenType) (op : BinaryOp) (operand : P Expr) : P Expr := do
  let left ← operand
  let tokens ← get
  whileMatch type (fun left => do return .binaryOp op left (← operand)) (tokens.length + 1) left

def comparisonOp : TokenType → Option BinaryOp
  | .eq => some .eq
  | .lt => some .lt
  | .gt => some .gt
  | .leq => some .leq
  | .geq => some .geq
  | .neq => some .neq
  | _ => none

def aggName : TokenType → Option AggFunc
  | .count => some .count
  | .sum => some .sum
  | .avg => some .avg
  | .min => some .min
  | .max => some .max
  | _ => none

section Levels
variable (parsePrimary : P Expr)

def parseComparison : P Expr := do
  let left ← parsePrimary
  match comparisonOp (← current).type with
  | some op =>
    let _ ← consume
    return .binaryOp op left (← parsePrimary)
  | none => return left

def parseNot : P Expr := do
  if ← matchToken .not then return .not (← parseComparison parsePrimary)
  else parseComparison parsePrimary

def parseAnd : P Expr := leftAssoc .and .and (parseNot parsePrimary)

def parseOr : P Expr := leftAssoc .or .or (parseAnd parsePrimary)

/-- `ParsePrimary` from the opening parenthesis of an aggregate on. -/
def parseAggregate (func : AggFunc) : P Expr := do
  let _ ← expect .lparen (lit "Expected '(' after " ++ func.name)
  if ← matchToken .star then
    let _ ← expect .rparen (lit "Expected ')'")
    return .aggregateStar func
  else
    let left ← parseOr parsePrimary
    let _ ← expect .rparen (lit "Expected ')'")
    return .aggregate func left

end Levels

/-- `ParsePrimary` from a name on that was consumed. -/
def parseColumnRef (name : Str) : P Expr := do
  if ← matchToken .dot then
    return .columnRef name (← expect .identifier (lit "Expected column name after '.'")).value
  else return .columnRef [] name

/-- `ParsePrimary`, nested at most `fuel` deep. -/
def parsePrimaryLoop : Nat → P Expr
  | 0 => throw .diverges
  | fuel + 1 => do
    if ← matchToken .lparen then
      let e ← parseOr (parsePrimaryLoop fuel)
      let _ ← expect .rparen (lit "Expected ')'")
      return e
    else if ← matchToken .star then return .star
    else if ← check .intLiteral then return .intLiteral (← stoi (← consume).value)
    else if ← check .stringLiteral then return .stringLiteral (← consume).value
    else
      match aggName (← current).type with
      | some func =>
        let _ ← consume
        parseAggregate (parsePrimaryLoop fuel) func
      | none =>
        if ← check .identifier then parseColumnRef (← consume).value
        else throw (.runtimeError
          (lit "Unexpected token in expression: '" ++ (← current).value ++ lit "'"))

def parsePrimary : P Expr := do
  let tokens ← get
  parsePrimaryLoop (tokens.length + 1)

def parseExpr : P Expr := parseOr parsePrimary

/-! ## Statements -/

def parseColumnDef : P ColumnDef := do
  let name ← expect .identifier (lit "Expected column name")
  if ← matchToken .intKw then return ⟨name.value, .int, 0⟩
  else if ← matchToken .varcharKw then
    let _ ← expect .lparen (lit "Expected '(' after VARCHAR")
    let len ← stoi (← expect .intLiteral (lit "Expected length")).value
    let _ ← expect .rparen (lit "Expected ')'")
    -- the cast to `uint16_t`
    return ⟨name.value, .varchar, (len % 65536).toNat⟩
  else throw (.runtimeError (lit "Expected type (INT or VARCHAR)"))

def parseCreateTable : P CreateTableStmt := do
  let _ ← expect .table (lit "Expected TABLE")
  let name ← expect .identifier (lit "Expected table name")
  let _ ← expect .lparen (lit "Expected '('")
  let columns ← commaList parseColumnDef
  let _ ← expect .rparen (lit "Expected ')'")
  return ⟨name.value, columns⟩

def parseInsert : P InsertStmt := do
  let _ ← expect .into (lit "Expected INTO")
  let name ← expect .identifier (lit "Expected table name")
  let _ ← expect .values (lit "Expected VALUES")
  let _ ← expect .lparen (lit "Expected '('")
  let values ← commaList parsePrimary
  let _ ← expect .rparen (lit "Expected ')'")
  return ⟨name.value, values⟩

def parseSelectItem : P SelectItem := do
  let expr ← parseExpr
  if ← matchToken .as then return ⟨expr, (← expect .identifier (lit "Expected alias")).value⟩
  else return ⟨expr, []⟩

def parseSelectList : P (List SelectItem) := commaList parseSelectItem

/-- The alias after a table name in `ParseSelect` and `ParseJoins`. A token that
is an `IDENTIFIER` is none of the other kinds that `ParseSelect` also rules out. -/
def parseAlias : P Str := do
  if ← matchToken .as then return (← expect .identifier (lit "Expected alias")).value
  else if ← check .identifier then return (← consume).value
  else return []

/-- The body of the loop of `ParseJoins`. -/
def parseJoin : P JoinClause := do
  let name ← expect .identifier (lit "Expected table name")
  let aliasName ← parseAlias
  let _ ← expect .on (lit "Expected ON")
  let condition ← parseExpr
  return ⟨name.value, aliasName, condition⟩

def parseJoins : P (List JoinClause) := do
  let tokens ← get
  whileMatch .join (fun joins => do return joins ++ [← parseJoin]) (tokens.length + 1) []

def parseWhere : P (Option Expr) := do
  if ← matchToken .where then return some (← parseExpr) else return none

def parseGroupBy : P (List Expr) := do
  if ← matchToken .group then
    let _ ← expect .by (lit "Expected BY after GROUP")
    commaList parsePrimary
  else return []

def parseOrderByItem : P OrderByItem := do
  let expr ← parsePrimary
  if ← matchToken .desc then return ⟨expr, false⟩
  else if ← matchToken .asc then return ⟨expr, true⟩
  else return ⟨expr, true⟩

def parseOrderBy : P (List OrderByItem) := do
  if ← matchToken .order then
    let _ ← expect .by (lit "Expected BY after ORDER")
    commaList parseOrderByItem
  else return []

def parseSelect : P SelectStmt := do
  let selectList ← parseSelectList
  let _ ← expect .from (lit "Expected FROM")
  let fromTable ← expect .identifier (lit "Expected table name")
  let fromAlias ← parseAlias
  let joins ← parseJoins
  let whereClause ← parseWhere
  let groupBy ← parseGroupBy
  let orderBy ← parseOrderBy
  return ⟨selectList, fromTable.value, fromAlias, joins, whereClause, groupBy, orderBy⟩

def parseExplain : P SelectStmt := do
  let _ ← expect .select (lit "EXPLAIN only supports SELECT")
  parseSelect

def parseStatement : P Statement := do
  if ← matchToken .create then return .createTable (← parseCreateTable)
  else if ← matchToken .insert then return .insert (← parseInsert)
  else if ← matchToken .select then return .select (← parseSelect)
  else if ← matchToken .explain then return .explain (← parseExplain)
  else throw (.runtimeError (lit "Expected CREATE, INSERT, SELECT, or EXPLAIN"))

def parse : P Statement := do
  let stmt ← parseStatement
  let _ ← matchToken .semicolon
  return stmt

end MyDB.Parser

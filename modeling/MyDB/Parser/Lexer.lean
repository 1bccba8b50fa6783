import MyDB.Common.Fault

/-! Tokens and the lexer. Its state is what is left of the input and the current
line. Character classes are those of the C locale. -/

namespace MyDB.Parser

inductive TokenType where
  | create | table | insert | into | values | select | from | where | as
  | join | on | and | or | not | group | by | order | asc | desc | explain
  | intKw | varcharKw
  | count | sum | avg | min | max
  | intLiteral | stringLiteral
  | identifier
  | lparen | rparen | comma | semicolon | dot | star
  | eq | lt | gt | leq | geq | neq
  | eofToken
  deriving DecidableEq, Repr

structure Token where
  type : TokenType
  value : Str
  line : Nat
  deriving DecidableEq, Repr

def isDigit (c : UInt8) : Bool := 48 ≤ c && c ≤ 57

def isUpper (c : UInt8) : Bool := 65 ≤ c && c ≤ 90

def isLower (c : UInt8) : Bool := 97 ≤ c && c ≤ 122

def isAlpha (c : UInt8) : Bool := isUpper c || isLower c

def isSpace (c : UInt8) : Bool := c == 32 || (9 ≤ c && c ≤ 13)

def toUpper (c : UInt8) : UInt8 := if isLower c then c - 32 else c

def newline : UInt8 := 10

def quote : UInt8 := 39

def dash : UInt8 := 45

def underscore : UInt8 := 95

def keywords : List (Str × TokenType) :=
  [(lit "CREATE", .create), (lit "TABLE", .table), (lit "INSERT", .insert), (lit "INTO", .into),
    (lit "VALUES", .values), (lit "SELECT", .select), (lit "FROM", .from), (lit "WHERE", .where),
    (lit "AS", .as), (lit "JOIN", .join), (lit "ON", .on), (lit "AND", .and), (lit "OR", .or),
    (lit "NOT", .not), (lit "GROUP", .group), (lit "BY", .by), (lit "ORDER", .order),
    (lit "ASC", .asc), (lit "DESC", .desc), (lit "EXPLAIN", .explain), (lit "INT", .intKw),
    (lit "VARCHAR", .varcharKw), (lit "COUNT", .count), (lit "SUM", .sum), (lit "AVG", .avg),
    (lit "MIN", .min), (lit "MAX", .max)]

structure Lexer where
  input : Str
  line : Nat
  deriving DecidableEq, Repr

namespace Lexer

def create (input : Str) : Lexer := ⟨input, 1⟩

mutual

/-- The loop of `SkipWhitespace`. -/
def skipWhitespace : Str → Nat → Lexer
  | [], line => ⟨[], line⟩
  | c :: s, line =>
    if c = newline then skipWhitespace s (line + 1)
    else if isSpace c then skipWhitespace s line
    else if c = dash ∧ s.head? = some dash then skipComment s line
    else ⟨c :: s, line⟩

/-- The inner loop of `SkipWhitespace`, which stops at the newline that its outer loop then skips. -/
def skipComment : Str → Nat → Lexer
  | [], line => ⟨[], line⟩
  | c :: s, line => if c = newline then skipWhitespace s (line + 1) else skipComment s line

end

abbrev Result := Except Fault (Token × Lexer)

def readNumber (l : Lexer) : Result :=
  .ok (⟨.intLiteral, l.input.takeWhile isDigit, l.line⟩, ⟨l.input.dropWhile isDigit, l.line⟩)

/-- `ReadString` on what follows the opening quote. -/
def readString (l : Lexer) : Result :=
  let val := l.input.takeWhile (· ≠ quote)
  match l.input.dropWhile (· ≠ quote) with
  | [] => .error (.runtimeError (lit "Unterminated string literal"))
  | _ :: rest =>
    let line := l.line + val.count newline
    .ok (⟨.stringLiteral, val, line⟩, ⟨rest, line⟩)

def isIdentifierChar (c : UInt8) : Bool := isAlpha c || isDigit c || c == underscore

def readIdentifierOrKeyword (l : Lexer) : Result :=
  let raw := l.input.takeWhile isIdentifierChar
  let upper := raw.map toUpper
  let token : Token :=
    match keywords.lookup upper with
    | some type => ⟨type, upper, l.line⟩
    | none => ⟨.identifier, raw, l.line⟩
  .ok (token, ⟨l.input.dropWhile isIdentifierChar, l.line⟩)

/-- The cases of the `switch` of `NextToken` that take one character. -/
def symbols : List (UInt8 × TokenType) :=
  [(40, .lparen), (41, .rparen), (44, .comma), (59, .semicolon), (46, .dot), (42, .star), (61, .eq)]

/-- The cases that take a second character: `<=`, `<>`, `>=` and `!=`. -/
def symbolPairs : List ((UInt8 × UInt8) × TokenType) :=
  [((60, 61), .leq), ((60, 62), .neq), ((62, 61), .geq), ((33, 61), .neq)]

def symbolHeads : List (UInt8 × TokenType) := [(60, .lt), (62, .gt)]

/-- The `switch` of `NextToken` on a character that was consumed. -/
def readSymbol (c : UInt8) (l : Lexer) : Result :=
  match symbols.lookup c, l.input.head?.bind (fun c' => symbolPairs.lookup (c, c')), symbolHeads.lookup c with
  | some type, _, _ => .ok (⟨type, [c], l.line⟩, l)
  | none, some type, _ => .ok (⟨type, c :: l.input.take 1, l.line⟩, ⟨l.input.tail, l.line⟩)
  | none, none, some type => .ok (⟨type, [c], l.line⟩, l)
  -- `!` alone is reported with the same text as a character of no token
  | none, none, none => .error (.runtimeError (lit "Unexpected character: " ++ [c]))

def nextToken (l : Lexer) : Result :=
  match skipWhitespace l.input l.line with
  | ⟨[], line⟩ => .ok (⟨.eofToken, [], line⟩, ⟨[], line⟩)
  | ⟨c :: s, line⟩ =>
    if isDigit c then readNumber ⟨c :: s, line⟩
    else if c = quote then readString ⟨s, line⟩
    else if isAlpha c || c == underscore then readIdentifierOrKeyword ⟨c :: s, line⟩
    else readSymbol c ⟨s, line⟩

/-- The loop of `Tokenize`; it stops with `diverges` after `fuel` rounds. -/
def tokenizeLoop : Nat → Lexer → List Token → Except Fault (List Token)
  | 0, _, _ => .error .diverges
  | fuel + 1, l, tokens => do
    let (t, l) ← nextToken l
    let tokens := tokens ++ [t]
    if t.type = .eofToken then return tokens else tokenizeLoop fuel l tokens

/-- `Lexer(input).Tokenize()`. A round consumes a character or is the last. -/
def tokenize (input : Str) : Except Fault (List Token) :=
  tokenizeLoop (input.length + 1) (create input) []

end Lexer

end MyDB.Parser

import MyDB.Common.Fault
import MyDB.Lib.Bytes

/-! Column types, schemas, values and tuples. A tuple is its bytes. The layout of a
tuple has unbounded sizes and offsets here, which is exact for schemas below 4 GiB;
`getTupleSize` is what the 32 bits of the field hold. -/

namespace MyDB
open Lib

inductive TypeId where
  | int
  | varchar
  deriving DecidableEq, Repr

structure ColumnType where
  typeId : TypeId
  maxLen : Nat
  deriving DecidableEq, Repr

def ColumnType.int : ColumnType := ⟨.int, 0⟩

def ColumnType.fixedSize (type : ColumnType) : Nat :=
  match type.typeId with
  | .int => 4
  | .varchar => type.maxLen

structure Column where
  name : Str
  type : ColumnType
  deriving DecidableEq, Repr

/-! ## Schemas -/

structure Schema where
  columns : List Column
  deriving DecidableEq, Repr

def dotChar : UInt8 := 46

/-- The part of `s` after `s.rfind('.')`. -/
def afterDot (s : Str) : Option Str :=
  if dotChar ∈ s then some (s.reverse.takeWhile (· ≠ dotChar)).reverse else none

namespace Schema

def tupleSize (schema : Schema) : Nat := (schema.columns.map (·.type.fixedSize)).sum

/-- `GetTupleSize`, as the heap file divides by it. -/
def getTupleSize (schema : Schema) : Nat := schema.tupleSize % 2 ^ 32

theorem getTupleSize_of_lt {schema : Schema} (h : schema.tupleSize < 2 ^ 32) :
    schema.getTupleSize = schema.tupleSize := Nat.mod_eq_of_lt h

def columnOffset (schema : Schema) (i : Nat) : Nat :=
  ((schema.columns.take i).map (·.type.fixedSize)).sum

def unqualified (schema : Schema) (name : Str) : List Nat :=
  schema.columns.findIdxs fun c => afterDot c.name = some name

def getColumnIdx (schema : Schema) (name : Str) : Except Fault Nat :=
  match schema.columns.findIdx? (·.name = name) with
  | some i => return i
  | none =>
    match afterDot name with
    | none =>
      match schema.unqualified name with
      | [] => throw (.runtimeError (lit "Column not found: " ++ name))
      | [i] => return i
      | _ => throw (.runtimeError (lit "Ambiguous column: " ++ name))
    | some unqual =>
      match schema.columns.findIdx? (·.name = unqual) with
      | some i => return i
      | none => throw (.runtimeError (lit "Column not found: " ++ name))

end Schema

/-! ## Values -/

inductive Value where
  | int (intVal : Int)
  | varchar (strVal : Str) (maxLen : Nat)
  deriving DecidableEq, Repr

/-- The digits that `std::to_string` writes, of which there are at most `fuel`. -/
def decimalDigits : Nat → Nat → Str
  | 0, _ => []
  | fuel + 1, n => (if n < 10 then [] else decimalDigits fuel (n / 10)) ++ [UInt8.ofNat (48 + n % 10)]

def digitsValue (ds : Str) : Nat := ds.foldl (fun v c => 10 * v + (c.toNat - 48)) 0

def intToString (v : Int) : Str :=
  (if v < 0 then lit "-" else []) ++ decimalDigits (v.natAbs + 1) v.natAbs

namespace Value

def typeId : Value → TypeId
  | .int _ => .int
  | .varchar .. => .varchar

/-- `AsInt`; the field is 0 in a `VARCHAR`. -/
def asInt : Value → Int
  | .int v => v
  | .varchar .. => 0

/-- `AsVarchar`; the field is empty in an `INT`. -/
def asVarchar : Value → Str
  | .int _ => []
  | .varchar s _ => s

def toString : Value → Str
  | .int v => intToString v
  | .varchar s _ => s

/-- The bytes that `SerializeTo` writes. -/
def serialize : Value → List UInt8
  | .int v => toLE 4 (v % 2 ^ 32).toNat
  | .varchar s maxLen => s.take maxLen ++ List.replicate (maxLen - s.length) 0

/-- `DeserializeFrom`, given the rest of the buffer from `src` on. -/
def deserialize (src : List UInt8) (type : ColumnType) : Except Fault Value :=
  match type.typeId with
  | .int => if 4 ≤ src.length then return .int (Int.bmod (ofLE (src.take 4)) (2 ^ 32)) else throw .outOfBounds
  | .varchar =>
    -- `strnlen` reads on until it meets a NUL
    let s := (src.take type.maxLen).takeWhile (· ≠ 0)
    if s.length = src.length ∧ s.length < type.maxLen then throw .outOfBounds
    else return .varchar s type.maxLen

end Value

/-! ## Tuples -/

abbrev Tuple := List UInt8

namespace Tuple

/-- The loop of the constructor, from column `i` on. -/
def write (schema : Schema) : Nat → List Value → Tuple → Except Fault Tuple
  | _, [], data => return data
  | i, v :: vs, data =>
    if i < schema.columns.length ∧ schema.columnOffset i + v.serialize.length ≤ data.length then
      write schema (i + 1) vs (splice data (schema.columnOffset i) v.serialize)
    else throw .outOfBounds

def ofValues (values : List Value) (schema : Schema) : Except Fault Tuple :=
  write schema 0 values (List.replicate schema.tupleSize 0)

def getValue (t : Tuple) (schema : Schema) (i : Nat) : Except Fault Value :=
  match schema.columns[i]? with
  | some c => Value.deserialize (t.drop (schema.columnOffset i)) c.type
  | none => throw .outOfBounds

end Tuple

end MyDB

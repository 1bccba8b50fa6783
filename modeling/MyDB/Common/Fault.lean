import Mathlib

/-! Byte strings, identifiers and the ways a call can fail to return. -/

namespace MyDB

/-- `std::string`: bytes, with no encoding attached. -/
abbrev Str := List UInt8

def lit (s : String) : Str := s.toList.flatMap String.utf8EncodeChar

abbrev PageId := Int

def invalidPageId : PageId := -1

def pageSize : Nat := 4096

/-- Why a call does not return: an exception, a failed `assert`, undefined
behaviour of one of the kinds the code can reach, or no return at all. -/
inductive Fault where
  | runtimeError (msg : Str)
  /-- `std::out_of_range`, which `std::stoi` throws. -/
  | outOfRange
  /-- `std::invalid_argument`, which `std::stoi` throws. -/
  | invalidArgument
  | assertFailed
  | nullPointer
  | outOfBounds
  | badCast
  | divisionByZero
  /-- `std::terminate`: an exception left a worker thread. -/
  | terminate
  | diverges
  /-- Raised by the abstract page store only: a written page lost its last pin
  without `is_dirty`. -/
  | lostWrite
  deriving DecidableEq, Repr

/-- The faults that are C++ exceptions, which a caller can catch. -/
def Fault.IsException : Fault → Prop
  | .runtimeError _ | .outOfRange | .invalidArgument => True
  | _ => False

instance : DecidablePred Fault.IsException
  | .runtimeError _ | .outOfRange | .invalidArgument => .isTrue trivial
  | .assertFailed | .nullPointer | .outOfBounds | .badCast | .divisionByZero | .terminate | .diverges | .lostWrite =>
    .isFalse id

def Fault.inWorker : Fault → Fault
  | .runtimeError _ | .outOfRange | .invalidArgument => .terminate
  | e => e

def ofExcept {σ α : Type} (x : Except Fault α) : EStateM Fault σ α := fun s =>
  match x with
  | .ok a => .ok a s
  | .error e => .error e s

theorem ofExcept_ok {σ α : Type} {x : Except Fault α} {a : α} (h : x = .ok a) (s : σ) :
    ofExcept x s = .ok a s := by
  rw [h]
  rfl

theorem ofExcept_error {σ α : Type} {x : Except Fault α} {e : Fault} (h : x = .error e) (s : σ) :
    ofExcept x s = .error e s := by
  rw [h]
  rfl

theorem ofExcept_bind_eq_ok {σ α β : Type} {x : Except Fault α} {f : α → EStateM Fault σ β} {b : β} {s s' : σ} :
    (ofExcept x >>= f) s = .ok b s' ↔ ∃ a, x = .ok a ∧ f a s = .ok b s' := by
  cases x with
  | ok a =>
    constructor
    · intro h
      exact ⟨a, rfl, h⟩
    · rintro ⟨a, h, hf⟩
      cases h
      exact hf
  | error e =>
    constructor
    · intro h
      cases h
    · rintro ⟨a, h, -⟩
      cases h

end MyDB

import MyDB.Common.Types
import MyDB.Storage.BPlusTree

/-! Heap files: chains of pages with tuples packed behind a header of 8 bytes. As
in the index, a walk down the chain stops with `diverges` once it has visited
more pages than there are. -/

namespace MyDB.Storage
open Lib

def heapHeaderSize : Nat := 8

/-- The array `data_` of a `Page`: the two words of the header, and the bytes behind
it. A write to a slot is checked against the end of the page and cannot reach the
header. -/
structure HeapPage where
  numTuples : Nat
  nextPageId : PageId
  bytes : List UInt8
  length_eq : bytes.length = pageSize - heapHeaderSize

namespace HeapPage

instance : Zero HeapPage := ⟨⟨0, 0, List.replicate _ 0, List.length_replicate⟩⟩

/-- `memcpy` of `b` to the offset `off` behind the header; a write past the end is none. -/
def put (d : HeapPage) (off : Nat) (b : List UInt8) : Option HeapPage :=
  if h : off + b.length ≤ pageSize - heapHeaderSize then
    some { d with
      bytes := splice d.bytes off b
      length_eq := (length_splice (d.length_eq ▸ h)).trans d.length_eq }
  else none

end HeapPage

/-- The offset of `TupleSlot`, behind the header. -/
def tupleSlot (slot tupleSize : Nat) : Nat := slot * tupleSize

/-- `Tuple::FromBytes` of a slot. -/
def slotTuple (d : HeapPage) (tupleSize slot : Nat) : Except Fault Tuple :=
  if tupleSlot slot tupleSize + tupleSize ≤ pageSize - heapHeaderSize then
    return slice d.bytes (tupleSlot slot tupleSize) tupleSize
  else throw .outOfBounds

structure HeapFile where
  schema : Schema
  firstPageId : PageId
  lastPageId : PageId

namespace HeapFile

def maxTuplesPerPage (schema : Schema) : Except Fault Nat :=
  if schema.getTupleSize = 0 then throw .divisionByZero
  else return (pageSize - heapHeaderSize) / schema.getTupleSize

/-- The loop over the slots of a page, from `slot` on; `false` is a callback that
stopped it. -/
def scanSlots {β : Type} (callback : β → RID → Tuple → β × Bool) (d : HeapPage) (tupleSize : Nat)
    (pid : PageId) : Nat → Nat → β → Except Fault (β × Bool)
  | 0, _, b => return (b, true)
  | left + 1, slot, b => do
    let t ← slotTuple d tupleSize slot
    match callback b ⟨pid, slot⟩ t with
    | (b, true) => scanSlots callback d tupleSize pid left (slot + 1) b
    | (b, false) => return (b, false)

section Code
variable {σ P : Type} (bpm : PageStore σ HeapPage P)

/-- `AllocateHeapPage`; none is the exception that it throws when the pool is full. -/
def allocateHeapPage : EStateM Fault σ (Option PageId) := do
  match ← bpm.newPage with
  | none => return none
  | some (pid, page) =>
    let data ← bpm.readData page
    bpm.writeData page { data with numTuples := 0, nextPageId := invalidPageId }
    let _ ← bpm.unpinPage pid true
    return some pid

/-- The constructor of a new heap file. -/
def create (schema : Schema) : EStateM Fault σ HeapFile := do
  match ← allocateHeapPage bpm with
  | none => throw (.runtimeError (lit "Buffer pool full — cannot allocate heap page"))
  | some pid => return ⟨schema, pid, pid⟩

def lastPage : Nat → PageId → EStateM Fault σ PageId
  | 0, _ => throw .diverges
  | fuel + 1, cur => do
    match ← bpm.fetchPage cur with
    | none => throw .nullPointer
    | some page =>
      let data ← bpm.readData page
      let _ ← bpm.unpinPage cur false
      if data.nextPageId = invalidPageId then return cur else lastPage fuel data.nextPageId

/-- The constructor of an existing heap file. -/
def reopen (schema : Schema) (firstPageId : PageId) : EStateM Fault σ HeapFile := do
  return ⟨schema, firstPageId, ← lastPage bpm ((← bpm.numPages) + 1) firstPageId⟩

/-- `InsertTuple` from the tuple's page on, which is pinned. -/
def insertAt (hf : HeapFile) (page : P) (tuple : Tuple) : EStateM Fault σ (Option RID × HeapFile) := do
  let data ← bpm.readData page
  let slot := data.numTuples
  if tuple.length < hf.schema.getTupleSize then throw .outOfBounds
  else
    match data.put (tupleSlot slot hf.schema.getTupleSize) (tuple.take hf.schema.getTupleSize) with
    | none => throw .outOfBounds
    | some data =>
      bpm.writeData page { data with numTuples := slot + 1 }
      let _ ← bpm.unpinPage hf.lastPageId true
      return (some ⟨hf.lastPageId, slot⟩, hf)

/-- `InsertTuple`: no `RID` is the result `false`. -/
def insertTuple (hf : HeapFile) (tuple : Tuple) : EStateM Fault σ (Option RID × HeapFile) := do
  match ← bpm.fetchPage hf.lastPageId with
  | none => return (none, hf)
  | some page =>
    let data ← bpm.readData page
    let max ← ofExcept (maxTuplesPerPage hf.schema)
    if data.numTuples < max then insertAt bpm hf page tuple
    else
      let _ ← bpm.unpinPage hf.lastPageId false
      match ← allocateHeapPage bpm with
      | none => return (none, hf)
      | some newPid =>
        match ← bpm.fetchPage hf.lastPageId with
        | none => return (none, hf)
        | some page =>
          let data ← bpm.readData page
          bpm.writeData page { data with nextPageId := newPid }
          let _ ← bpm.unpinPage hf.lastPageId true
          let hf := { hf with lastPageId := newPid }
          match ← bpm.fetchPage newPid with
          | none => return (none, hf)
          | some page => insertAt bpm hf page tuple

def scanLoop {β : Type} (callback : β → RID → Tuple → β × Bool) (tupleSize : Nat) :
    Nat → PageId → β → EStateM Fault σ β
  | 0, _, _ => throw .diverges
  | fuel + 1, cur, b => do
    if cur = invalidPageId then return b
    else
      match ← bpm.fetchPage cur with
      | none => return b
      | some page =>
        let data ← bpm.readData page
        let (b, go) ← ofExcept (scanSlots callback data tupleSize cur data.numTuples 0 b)
        let _ ← bpm.unpinPage cur false
        if go then scanLoop callback tupleSize fuel data.nextPageId b else return b

def scan {β : Type} (hf : HeapFile) (callback : β → RID → Tuple → β × Bool) (b : β) :
    EStateM Fault σ β := do
  scanLoop bpm callback hf.schema.getTupleSize ((← bpm.numPages) + 1) hf.firstPageId b

def getPageIdsLoop : Nat → PageId → List PageId → EStateM Fault σ (List PageId)
  | 0, _, _ => throw .diverges
  | fuel + 1, cur, ids => do
    if cur = invalidPageId then return ids
    else
      let ids := ids ++ [cur]
      match ← bpm.fetchPage cur with
      | none => return ids
      | some page =>
        let data ← bpm.readData page
        let _ ← bpm.unpinPage cur false
        getPageIdsLoop fuel data.nextPageId ids

def getPageIds (hf : HeapFile) : EStateM Fault σ (List PageId) := do
  getPageIdsLoop bpm ((← bpm.numPages) + 1) hf.firstPageId []

end Code

end HeapFile

end MyDB.Storage

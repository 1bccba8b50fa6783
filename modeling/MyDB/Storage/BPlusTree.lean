import MyDB.Lib.BinarySearch
import MyDB.Storage.PageStore

/-! The B+ tree index over a page store. A page is one of the two structs the
source overlays on `Page::GetData()`; its `size` is the length of `data`, and a
zeroed page reads as an internal page with no entries. `parent_page_id` is
never read and is left out. A loop over pages stops with `diverges` after as
many rounds as the store has pages. -/

namespace MyDB.Storage

structure RID where
  pageId : PageId
  slotNum : Nat
  deriving DecidableEq, Repr, Inhabited

structure InternalEntry where
  key : Int
  child : PageId
  deriving DecidableEq, Repr, Inhabited

structure LeafEntry where
  key : Int
  rid : RID
  deriving DecidableEq, Repr, Inhabited

inductive TreePage where
  | internal (data : List InternalEntry)
  | leaf (data : List LeafEntry) (nextPageId : PageId)
  deriving DecidableEq, Repr

instance : Zero TreePage := ⟨.internal []⟩

/-- `BPlusTreeInternalPage::CAPACITY`, with `HEADER_SIZE` 12 and 8-byte entries. -/
def internalCapacity : Nat := (pageSize - 12) / 8

/-- `BPlusTreeLeafPage::CAPACITY`, with `HEADER_SIZE` 16 and 12-byte entries. -/
def leafCapacity : Nat := (pageSize - 16) / 12

/-- The first index from `start` whose key exceeds `key`, else `size`. -/
def insertPos (keys : List Int) (start : Nat) (key : Int) : Nat :=
  match (keys.drop start).findIdx? (key < ·) with
  | some i => start + i
  | none => keys.length

/-- `InsertEntry` of both page structs. Its shift loop writes `data[size]`. -/
def insertEntry {σ α : Type} (keyOf : α → Int) (capacity start : Nat) (data : List α) (e : α) :
    EStateM Fault σ (List α) :=
  if data.length < capacity then
    return data.insertIdx (insertPos (data.map keyOf) start (keyOf e)) e
  else throw .outOfBounds

namespace BPlusTreeInternalPage

/-- The index `result` of the loop in `Lookup`. -/
def lookupIdx (data : List InternalEntry) (key : Int) : Nat :=
  Lib.bisectLast (fun i => (data.getD i default).key ≤ key) data.length 1 (data.length - 1) 0

def lookup (data : List InternalEntry) (key : Int) : PageId :=
  (data.getD (lookupIdx data key) default).child

def insertEntry {σ : Type} (data : List InternalEntry) (newKey : Int) (newRight : PageId) :
    EStateM Fault σ (List InternalEntry) :=
  Storage.insertEntry (·.key) internalCapacity 1 data ⟨newKey, newRight⟩

end BPlusTreeInternalPage

namespace BPlusTreeLeafPage

def insertEntry {σ : Type} (data : List LeafEntry) (key : Int) (rid : RID) :
    EStateM Fault σ (List LeafEntry) :=
  Storage.insertEntry (·.key) leafCapacity 0 data ⟨key, rid⟩

/-- The binary search of `BPlusTree::Search` in a leaf. -/
def search (data : List LeafEntry) (key : Int) : Option RID :=
  (Lib.bisectFind (fun i => compare (data.getD i default).key key) data.length 0 (data.length - 1)).map
    fun i => (data.getD i default).rid

/-- The loop of `RangeScan` over one leaf: the rids it appends, and `done`. -/
def scan (low high : Int) : List LeafEntry → List RID × Bool
  | [] => ([], false)
  | e :: data =>
    if e.key > high then ([], true)
    else
      let (rids, done) := scan low high data
      (if e.key ≥ low then e.rid :: rids else rids, done)

end BPlusTreeLeafPage

/-- The index object; its last two fields are the assertions of the constructor. -/
structure BPlusTree where
  rootPageId : PageId
  leafMaxSize : Nat
  internalMaxSize : Nat
  two_le_leaf : 2 ≤ leafMaxSize
  three_le_internal : 3 ≤ internalMaxSize

structure SplitResult where
  key : Int
  rightPid : PageId
  deriving DecidableEq, Repr

namespace BPlusTree

/-- The constructor; `none` is an assertion failing. -/
def create (leafMaxSize internalMaxSize : Int) : Option BPlusTree :=
  let leafMax := if leafMaxSize > 0 then leafMaxSize.toNat else leafCapacity
  let internalMax := if internalMaxSize > 0 then internalMaxSize.toNat else internalCapacity
  if h : 2 ≤ leafMax ∧ 3 ≤ internalMax then
    some ⟨invalidPageId, leafMax, internalMax, h.1, h.2⟩
  else none

section Code
variable {σ P : Type} (bpm : PageStore σ TreePage P) (t : BPlusTree)

def insertInLeaf (pid : PageId) (key : Int) (rid : RID) : EStateM Fault σ (Option SplitResult) := do
  match ← bpm.fetchPage pid with
  | none => throw .nullPointer
  | some page =>
    match ← bpm.readData page with
    | .internal _ => throw .badCast
    | .leaf data next =>
      match data.findIdx? (·.key = key) with
      | some i =>
        bpm.writeData page (.leaf (data.set i ⟨key, rid⟩) next)
        let _ ← bpm.unpinPage pid true
        return none
      | none =>
        let data ← BPlusTreeLeafPage.insertEntry data key rid
        bpm.writeData page (.leaf data next)
        if data.length < t.leafMaxSize then
          let _ ← bpm.unpinPage pid true
          return none
        else
          match ← bpm.newPage with
          | none => throw (.runtimeError (lit "BPlusTree — buffer pool full during leaf split"))
          | some (newPid, newPage) =>
            let mid := data.length / 2
            bpm.writeData newPage (.leaf (data.drop mid) next)
            bpm.writeData page (.leaf (data.take mid) newPid)
            let _ ← bpm.unpinPage newPid true
            let _ ← bpm.unpinPage pid true
            return some ⟨(data.getD mid default).key, newPid⟩

/-- The part of `InsertInInternal` after the child has split. -/
def insertSeparator (pid : PageId) (result : SplitResult) :
    EStateM Fault σ (Option SplitResult) := do
  match ← bpm.fetchPage pid with
  | none => throw .nullPointer
  | some page =>
    match ← bpm.readData page with
    | .leaf _ _ => throw .badCast
    | .internal data =>
      let data ← BPlusTreeInternalPage.insertEntry data result.key result.rightPid
      bpm.writeData page (.internal data)
      if data.length ≤ t.internalMaxSize then
        let _ ← bpm.unpinPage pid true
        return none
      else
        match ← bpm.newPage with
        | none => throw (.runtimeError (lit "BPlusTree — buffer pool full during internal split"))
        | some (newPid, newPage) =>
          let mid := data.length / 2
          let pushUp := data.getD mid default
          bpm.writeData newPage (.internal (⟨0, pushUp.child⟩ :: data.drop (mid + 1)))
          bpm.writeData page (.internal (data.take mid))
          let _ ← bpm.unpinPage newPid true
          let _ ← bpm.unpinPage pid true
          return some ⟨pushUp.key, newPid⟩

/-- `InsertInInternal`, with `InsertInPage` on the child as a parameter. -/
def insertInInternal (insertInPage : PageId → EStateM Fault σ (Option SplitResult)) (pid : PageId)
    (key : Int) : EStateM Fault σ (Option SplitResult) := do
  match ← bpm.fetchPage pid with
  | none => throw .nullPointer
  | some page =>
    match ← bpm.readData page with
    | .leaf _ _ => throw .badCast
    | .internal data =>
      let childPid := BPlusTreeInternalPage.lookup data key
      let _ ← bpm.unpinPage pid false
      match ← insertInPage childPid with
      | none => return none
      | some result => insertSeparator bpm t pid result

def insertInPage (key : Int) (rid : RID) : Nat → PageId → EStateM Fault σ (Option SplitResult)
  | 0, _ => throw .diverges
  | fuel + 1, pid => do
    match ← bpm.fetchPage pid with
    | none => throw (.runtimeError (lit "BPlusTree — failed to fetch page"))
    | some page =>
      match ← bpm.readData page with
      | .leaf _ _ =>
        let _ ← bpm.unpinPage pid false
        insertInLeaf bpm t pid key rid
      | .internal _ =>
        let _ ← bpm.unpinPage pid false
        insertInInternal bpm t (insertInPage key rid fuel) pid key

/-- `Insert` returns the index object it leaves; a throw leaves it as it was. -/
def insert (key : Int) (rid : RID) : EStateM Fault σ BPlusTree := do
  if t.rootPageId = invalidPageId then
    match ← bpm.newPage with
    | none => throw (.runtimeError (lit "BPlusTree::Insert — buffer pool full"))
    | some (pid, page) =>
      let data ← BPlusTreeLeafPage.insertEntry [] key rid
      bpm.writeData page (.leaf data invalidPageId)
      let _ ← bpm.unpinPage pid true
      return { t with rootPageId := pid }
  else
    match ← insertInPage bpm t key rid (← bpm.numPages) t.rootPageId with
    | none => return t
    | some result =>
      match ← bpm.newPage with
      | none => throw (.runtimeError (lit "BPlusTree::Insert — buffer pool full on root split"))
      | some (newRootPid, newRootPage) =>
        let data ← BPlusTreeInternalPage.insertEntry [⟨0, t.rootPageId⟩] result.key result.rightPid
        bpm.writeData newRootPage (.internal data)
        let _ ← bpm.unpinPage newRootPid true
        return { t with rootPageId := newRootPid }

def insertAll (t : BPlusTree) : List (Int × RID) → EStateM Fault σ BPlusTree
  | [] => return t
  | (key, rid) :: ops => do insertAll (← insert bpm t key rid) ops

def searchLoop (key : Int) : Nat → PageId → EStateM Fault σ (Option RID)
  | 0, _ => throw .diverges
  | fuel + 1, pid => do
    match ← bpm.fetchPage pid with
    | none => return none
    | some page =>
      match ← bpm.readData page with
      | .leaf data _ =>
        let _ ← bpm.unpinPage pid false
        return BPlusTreeLeafPage.search data key
      | .internal data =>
        let next := BPlusTreeInternalPage.lookup data key
        let _ ← bpm.unpinPage pid false
        searchLoop key fuel next

/-- `Search`: `none` is the result `false`, `some rid` the result `true` with `*rid` set. -/
def search (key : Int) : EStateM Fault σ (Option RID) := do
  if t.rootPageId = invalidPageId then return none
  else searchLoop bpm key (← bpm.numPages) t.rootPageId

/-- The first loop of `RangeScan`. -/
def findLeafLoop (low : Int) : Nat → PageId → EStateM Fault σ PageId
  | 0, _ => throw .diverges
  | fuel + 1, pid => do
    match ← bpm.fetchPage pid with
    | none => throw .nullPointer
    | some page =>
      match ← bpm.readData page with
      | .leaf _ _ =>
        let _ ← bpm.unpinPage pid false
        return pid
      | .internal data =>
        let next := BPlusTreeInternalPage.lookup data low
        let _ ← bpm.unpinPage pid false
        findLeafLoop low fuel next

/-- The second loop of `RangeScan`, down the leaf chain. -/
def scanLeafLoop (low high : Int) : Nat → PageId → List RID → EStateM Fault σ (List RID)
  | 0, _, _ => throw .diverges
  | fuel + 1, pid, results => do
    if pid = invalidPageId then return results
    else
      match ← bpm.fetchPage pid with
      | none => throw .nullPointer
      | some page =>
        match ← bpm.readData page with
        | .internal _ => throw .badCast
        | .leaf data next =>
          let (rids, done) := BPlusTreeLeafPage.scan low high data
          let _ ← bpm.unpinPage pid false
          if done then return results ++ rids
          else scanLeafLoop low high fuel next (results ++ rids)

/-- `RangeScan` returns what it leaves in `results`. -/
def rangeScan (low high : Int) (results : List RID) : EStateM Fault σ (List RID) := do
  if t.rootPageId = invalidPageId then return results
  else
    let pages ← bpm.numPages
    let pid ← findLeafLoop bpm low pages t.rootPageId
    scanLeafLoop bpm low high (pages + 1) pid results

end Code

end BPlusTree

end MyDB.Storage

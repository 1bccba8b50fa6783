import MyDB.Common.Fault
import MyDB.Storage.LruReplacer

/-! The disk manager and the buffer pool, over any type `D` of page contents
whose `0` is the zeroed page. A `Page*` is the frame it points to. Disk
operations do not fail here; their assertions do. -/

namespace MyDB.Storage

structure DiskManager (D : Type) where
  numPages : Nat
  pages : PageId → D

namespace DiskManager
variable {D : Type}

/-- `ReadPage`; `none` is its assertion failing. -/
def readPage (dm : DiskManager D) (pageId : PageId) : Option D :=
  if 0 ≤ pageId ∧ pageId < dm.numPages then some (dm.pages pageId) else none

def writePage (dm : DiskManager D) (pageId : PageId) (data : D) : DiskManager D :=
  { dm with pages := Function.update dm.pages pageId data }

def allocatePage [Zero D] (dm : DiskManager D) : PageId × DiskManager D :=
  (dm.numPages, { numPages := dm.numPages + 1, pages := Function.update dm.pages dm.numPages 0 })

end DiskManager

structure Page (D : Type) where
  data : D
  pageId : PageId := invalidPageId
  pinCount : Nat := 0
  isDirty : Bool := false
  deriving DecidableEq

structure BufferPool (D : Type) (n : Nat) where
  frames : Fin n → Page D
  pageTable : AList fun _ : PageId => Fin n
  freeList : List (Fin n)
  replacer : LruReplacer (Fin n)
  disk : DiskManager D

/-- A call on the buffer pool; an exception keeps the pool it was thrown in. -/
abbrev PoolM (D : Type) (n : Nat) := EStateM Fault (BufferPool D n)

namespace BufferPool
variable {D : Type} {n : Nat}

/-- The constructor. -/
def init [Zero D] (n : Nat) (disk : DiskManager D) : BufferPool D n where
  frames := fun _ => { data := 0 }
  pageTable := ∅
  freeList := List.finRange n
  replacer := .empty
  disk := disk

def lookup (s : BufferPool D n) (pageId : PageId) : Option (Fin n) := s.pageTable.lookup pageId

def setData (s : BufferPool D n) (f : Fin n) (data : D) : BufferPool D n :=
  let page := s.frames f
  { s with frames := Function.update s.frames f { page with data } }

/-- What eviction does to the victim `f` once the replacer has chosen it. -/
def evictFrame (s : BufferPool D n) (f : Fin n) : BufferPool D n :=
  let page := s.frames f
  { s with
    disk := if page.isDirty then s.disk.writePage page.pageId page.data else s.disk
    pageTable := s.pageTable.erase page.pageId
    frames := Function.update s.frames f { page with isDirty := false, pageId := invalidPageId } }

/-- `GetFreeFrame`; `none` is the result `-1`, which leaves the pool as it was. -/
def getFreeFrame (s : BufferPool D n) : Option (Fin n × BufferPool D n) :=
  match s.freeList with
  | f :: rest => some (f, { s with freeList := rest })
  | [] =>
    match s.replacer.evict with
    | some (f, r) => some (f, evictFrame { s with replacer := r } f)
    | none => none

/-- The tail of `NewPage` and `FetchPage`: map `page` to `f` and pin it. -/
def install (s : BufferPool D n) (f : Fin n) (page : Page D) : BufferPool D n :=
  { s with
    frames := Function.update s.frames f page
    pageTable := s.pageTable.insert page.pageId f
    replacer := (s.replacer.recordAccess f).setEvictable f false }

def newPage [Zero D] : PoolM D n (Option (PageId × Fin n)) := fun s =>
  match s.getFreeFrame with
  | none => .ok none s
  | some (f, s) =>
    let (pageId, disk) := s.disk.allocatePage
    .ok (some (pageId, f)) ({ s with disk }.install f { data := 0, pageId, pinCount := 1 })

/-- The hit branch of `FetchPage`. -/
def pinFrame (s : BufferPool D n) (f : Fin n) : BufferPool D n :=
  let page := s.frames f
  { s with
    frames := Function.update s.frames f { page with pinCount := page.pinCount + 1 }
    replacer := (s.replacer.recordAccess f).setEvictable f false }

/-- `FetchPage`. A failed assertion of `ReadPage` ends the process. -/
def fetchPage (pageId : PageId) : PoolM D n (Option (Fin n)) := fun s =>
  match s.lookup pageId with
  | some f => .ok (some f) (s.pinFrame f)
  | none =>
    match s.getFreeFrame with
    | none => .ok none s
    | some (f, s') =>
      match s'.disk.readPage pageId with
      | none => .error .assertFailed s
      | some data => .ok (some f) (s'.install f { data, pageId, pinCount := 1 })

def unpinFrame (s : BufferPool D n) (f : Fin n) (isDirty : Bool) : BufferPool D n :=
  let page := s.frames f
  { s with
    frames := Function.update s.frames f
      { page with isDirty := page.isDirty || isDirty, pinCount := page.pinCount - 1 }
    replacer := if page.pinCount - 1 = 0 then s.replacer.setEvictable f true else s.replacer }

def unpinPage (pageId : PageId) (isDirty : Bool) : PoolM D n Bool := fun s =>
  match s.lookup pageId with
  | none => .ok false s
  | some f =>
    if (s.frames f).pinCount = 0 then .ok false s
    else .ok true (s.unpinFrame f isDirty)

def flushFrame (s : BufferPool D n) (pageId : PageId) (f : Fin n) : BufferPool D n :=
  let page := s.frames f
  { s with
    disk := s.disk.writePage pageId page.data
    frames := Function.update s.frames f { page with isDirty := false } }

def flushPage (pageId : PageId) : PoolM D n Bool := fun s =>
  match s.lookup pageId with
  | none => .ok false s
  | some f => .ok true (s.flushFrame pageId f)

/-- The body of the loop of `FlushAllPages`. -/
def flushEntry (s : BufferPool D n) (entry : Σ _ : PageId, Fin n) : BufferPool D n :=
  if (s.frames entry.2).isDirty then s.flushFrame entry.1 entry.2 else s

def flushAllPages : PoolM D n Unit := fun s => .ok () (s.pageTable.entries.foldl flushEntry s)

def freeFrame [Zero D] (s : BufferPool D n) (pageId : PageId) (f : Fin n) : BufferPool D n :=
  let page := s.frames f
  { s with
    pageTable := s.pageTable.erase pageId
    replacer := s.replacer.remove f
    freeList := s.freeList ++ [f]
    frames := Function.update s.frames f
      { page with data := 0, pageId := invalidPageId, isDirty := false } }

def deletePage [Zero D] (pageId : PageId) : PoolM D n Bool := fun s =>
  match s.lookup pageId with
  | none => .ok true s
  | some f =>
    if 0 < (s.frames f).pinCount then .ok false s
    else .ok true (s.freeFrame pageId f)

/-- Reading `page->GetData()`. -/
def readData (f : Fin n) : PoolM D n D := fun s => .ok (s.frames f).data s

/-- Writing through `page->GetData()`. -/
def writeData (f : Fin n) (data : D) : PoolM D n Unit := fun s =>
  .ok () (s.setData f data)

/-! The pool as its clients see it. -/

def contents (s : BufferPool D n) (pageId : PageId) : D :=
  match s.lookup pageId with
  | some f => (s.frames f).data
  | none => s.disk.pages pageId

def pins (s : BufferPool D n) (pageId : PageId) : Nat :=
  match s.lookup pageId with
  | some f => (s.frames f).pinCount
  | none => 0

def unpinned (s : BufferPool D n) : Nat := (Finset.univ.filter fun f => (s.frames f).pinCount = 0).card

end BufferPool

end MyDB.Storage

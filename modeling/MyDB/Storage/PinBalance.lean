import MyDB.Storage.HeapFile
import MyDB.Storage.PinCounts
import MyDB.Storage.RangeScan

/-! The index and the heap file give back every pin they take, on every path on which
a call returns. -/

namespace MyDB.Storage
open BufferPool Lib
variable {n : Nat}

/-! ## The index -/

namespace BPlusTree
variable {io : PageId → Option TreePage} (index : BPlusTree) (key : Int) (rid : RID)

theorem balanced_insertEntry {α : Type} (keyOf : α → Int) (capacity start : Nat) (data : List α) (e : α) :
    Balanced (insertEntry keyOf capacity start data e : PoolM TreePage n (List α)) := by
  intro π
  unfold insertEntry
  split_ifs
  · exact Balanced.pure _
  · exact Ensures.throw _

theorem balanced_insertInLeaf (pid : PageId) :
    Balanced (insertInLeaf (failingStore io) index pid key rid : PoolM TreePage n _) := by
  intro π
  refine fetchPage_ensures (Ensures.throw _) fun f => readData_ensures fun d => ?_
  cases d with
  | internal data => exact Ensures.throw _
  | leaf data next =>
    dsimp only
    split
    · exact writeData_ensures (unpinPage_ensures fun _ => Balanced.pure _)
    · refine (balanced_insertEntry _ _ _ _ _).bind fun data => writeData_ensures ?_
      split_ifs
      · exact unpinPage_ensures fun _ => Balanced.pure _
      -- the leaf and its new sibling are both in hand
      · refine newPage_ensures (Ensures.throw _) fun newPid g => writeData_ensures (writeData_ensures ?_)
        exact unpinPage_ensures fun _ => unpinPage_ensures fun _ => Balanced.pure _

theorem balanced_insertSeparator (pid : PageId) (result : SplitResult) :
    Balanced (insertSeparator (failingStore io) index pid result : PoolM TreePage n _) := by
  intro π
  refine fetchPage_ensures (Ensures.throw _) fun f => readData_ensures fun d => ?_
  cases d with
  | leaf data next => exact Ensures.throw _
  | internal data =>
    refine (balanced_insertEntry _ _ _ _ _).bind fun data => writeData_ensures ?_
    split_ifs
    · exact unpinPage_ensures fun _ => Balanced.pure _
    · refine newPage_ensures (Ensures.throw _) fun newPid g => writeData_ensures (writeData_ensures ?_)
      exact unpinPage_ensures fun _ => unpinPage_ensures fun _ => Balanced.pure _

theorem balanced_insertInInternal {child : PageId → PoolM TreePage n (Option SplitResult)}
    (hchild : ∀ pid, Balanced (child pid)) (pid : PageId) :
    Balanced (insertInInternal (failingStore io) index child pid key) := by
  intro π
  refine fetchPage_ensures (Ensures.throw _) fun f => readData_ensures fun d => ?_
  cases d with
  | leaf data next => exact Ensures.throw _
  | internal data =>
    refine unpinPage_ensures fun _ => (hchild _).bind fun result => ?_
    cases result with
    | none => exact Balanced.pure _
    | some result => exact balanced_insertSeparator index pid result π

theorem balanced_insertInPage (fuel : Nat) (pid : PageId) :
    Balanced (insertInPage (failingStore io) index key rid fuel pid : PoolM TreePage n _) := by
  induction fuel generalizing pid with
  | zero => exact fun π => Ensures.throw _
  | succ fuel ih =>
    intro π
    refine fetchPage_ensures (Ensures.throw _) fun f => readData_ensures fun d => ?_
    cases d with
    | leaf data next => exact unpinPage_ensures fun _ => balanced_insertInLeaf index key rid pid π
    | internal data => exact unpinPage_ensures fun _ => balanced_insertInInternal index key ih pid π

theorem balanced_insert : Balanced (insert (failingStore io) index key rid : PoolM TreePage n _) := by
  intro π
  unfold insert
  split_ifs
  · refine newPage_ensures (Ensures.throw _) fun pid f => (balanced_insertEntry _ _ _ _ _).bind fun data => ?_
    exact writeData_ensures (unpinPage_ensures fun _ => Balanced.pure _)
  · refine numPages_ensures fun pages => (balanced_insertInPage index key rid pages _).bind fun result => ?_
    cases result with
    | none => exact Balanced.pure _
    | some result =>
      refine newPage_ensures (Ensures.throw _) fun pid f => (balanced_insertEntry _ _ _ _ _).bind fun data => ?_
      exact writeData_ensures (unpinPage_ensures fun _ => Balanced.pure _)

theorem balanced_searchLoop (fuel : Nat) (pid : PageId) :
    Balanced (searchLoop (failingStore io) key fuel pid : PoolM TreePage n _) := by
  induction fuel generalizing pid with
  | zero => exact fun π => Ensures.throw _
  | succ fuel ih =>
    intro π
    refine fetchPage_ensures (Balanced.pure _) fun f => readData_ensures fun d => ?_
    cases d with
    | leaf data next => exact unpinPage_ensures fun _ => Balanced.pure _
    | internal data => exact unpinPage_ensures fun _ => ih _ π

theorem balanced_search : Balanced (search (failingStore io) index key : PoolM TreePage n _) := by
  intro π
  unfold search
  split_ifs
  · exact Balanced.pure _
  · exact numPages_ensures fun pages => balanced_searchLoop key pages _ π

theorem balanced_findLeafLoop (low : Int) (fuel : Nat) (pid : PageId) :
    Balanced (findLeafLoop (failingStore io) low fuel pid : PoolM TreePage n _) := by
  induction fuel generalizing pid with
  | zero => exact fun π => Ensures.throw _
  | succ fuel ih =>
    intro π
    refine fetchPage_ensures (Ensures.throw _) fun f => readData_ensures fun d => ?_
    cases d with
    | leaf data next => exact unpinPage_ensures fun _ => Balanced.pure _
    | internal data => exact unpinPage_ensures fun _ => ih _ π

theorem balanced_scanLeafLoop (low high : Int) (fuel : Nat) (pid : PageId) (results : List RID) :
    Balanced (scanLeafLoop (failingStore io) low high fuel pid results : PoolM TreePage n _) := by
  induction fuel generalizing pid results with
  | zero => exact fun π => Ensures.throw _
  | succ fuel ih =>
    intro π
    unfold scanLeafLoop
    split_ifs
    · exact Balanced.pure _
    · refine fetchPage_ensures (Ensures.throw _) fun f => readData_ensures fun d => ?_
      cases d with
      | internal data => exact Ensures.throw _
      | leaf data next =>
        refine unpinPage_ensures fun _ => ?_
        split_ifs
        · exact Balanced.pure _
        · exact ih _ _ π

theorem balanced_rangeScan (low high : Int) (results : List RID) :
    Balanced (rangeScan (failingStore io) index low high results : PoolM TreePage n _) := by
  intro π
  unfold rangeScan
  split_ifs
  · exact Balanced.pure _
  · refine numPages_ensures fun pages => (balanced_findLeafLoop low pages _).bind fun pid => ?_
    exact balanced_scanLeafLoop low high (pages + 1) pid results π

end BPlusTree

/-! ## The heap file -/

namespace HeapFile

section Code
variable {σ P : Type} (bpm : PageStore σ HeapPage P)

/-- `InsertTuple` over a pool whose writes can throw: `catch (...)` takes what the
allocation throws. -/
def insertTupleCaught (hf : HeapFile) (tuple : Tuple) : EStateM Fault σ (Option RID × HeapFile) := do
  match ← bpm.fetchPage hf.lastPageId with
  | none => return (none, hf)
  | some page =>
    let data ← bpm.readData page
    let max ← ofExcept (maxTuplesPerPage hf.schema)
    if data.numTuples < max then insertAt bpm hf page tuple
    else
      let _ ← bpm.unpinPage hf.lastPageId false
      match ← tryCatch (allocateHeapPage bpm) fun e => if e.IsException then return none else throw e with
      | none => return (none, hf)
      | some newPid =>
        match ← bpm.fetchPage hf.lastPageId with
        | none => return (none, hf)
        | some page =>
          let data ← bpm.readData page
          bpm.writeData page { data with nextPageId := newPid }
          let _ ← bpm.unpinPage hf.lastPageId true
          let hf := { hf with lastPageId := newPid }
          match ← bpm.fetchPage newPid with
          | none => return (none, hf)
          | some page => insertAt bpm hf page tuple

variable {β : Type}

/-- The loop of `Scan` over the slots of the page in hand, with a callback that may call
the pool. -/
def scanSlotsM (callback : β → RID → Tuple → EStateM Fault σ (β × Bool)) (page : P) (tupleSize : Nat) (pid : PageId) :
    Nat → Nat → β → EStateM Fault σ (β × Bool)
  | 0, _, b => return (b, true)
  | left + 1, slot, b => do
    let data ← bpm.readData page
    let t ← ofExcept (slotTuple data tupleSize slot)
    match ← callback b ⟨pid, slot⟩ t with
    | (b, true) => scanSlotsM callback page tupleSize pid left (slot + 1) b
    | (b, false) => return (b, false)

def scanLoopM (callback : β → RID → Tuple → EStateM Fault σ (β × Bool)) (tupleSize : Nat) :
    Nat → PageId → β → EStateM Fault σ β
  | 0, _, _ => throw .diverges
  | fuel + 1, cur, b => do
    if cur = invalidPageId then return b
    else
      match ← bpm.fetchPage cur with
      | none => return b
      | some page =>
        let data ← bpm.readData page
        let (b, go) ← scanSlotsM bpm callback page tupleSize cur data.numTuples 0 b
        let _ ← bpm.unpinPage cur false
        if go then scanLoopM callback tupleSize fuel data.nextPageId b else return b

/-- `Scan`, with a callback that may call the pool. -/
def scanM (hf : HeapFile) (callback : β → RID → Tuple → EStateM Fault σ (β × Bool)) (b : β) : EStateM Fault σ β := do
  scanLoopM bpm callback hf.schema.getTupleSize ((← bpm.numPages) + 1) hf.firstPageId b

def scanPage (hf : HeapFile) (pageId : PageId) (callback : β → RID → Tuple → EStateM Fault σ β) (b : β) :
    EStateM Fault σ β := do
  match ← bpm.fetchPage pageId with
  | none => return b
  | some page =>
    let data ← bpm.readData page
    let each : β → RID → Tuple → EStateM Fault σ (β × Bool) := fun b rid t => return (← callback b rid t, true)
    let (b, _) ← scanSlotsM bpm each page hf.schema.getTupleSize pageId data.numTuples 0 b
    let _ ← bpm.unpinPage pageId false
    return b

end Code

variable {io : PageId → Option HeapPage} {β : Type}

/-! The pool that cannot fail and the callback that does not call it. -/

theorem unpinPage_returns (p : PageId) (dirty : Bool) (s : BufferPool HeapPage n) :
    ∃ b s', unpinPage p dirty s = .ok b s' := by
  unfold unpinPage
  split
  · exact ⟨_, _, rfl⟩
  · split_ifs <;> exact ⟨_, _, rfl⟩

theorem allocateHeapPage_error {s s' : BufferPool HeapPage n} {e : Fault}
    (hrun : allocateHeapPage (failingStore io) s = .error e s') : getFreeFrameIO io s = .error e s' := by
  cases hnew : (failingStore io).newPage s with
  | error e₁ s₁ =>
    rw [allocateHeapPage, bind_error hnew] at hrun
    cases hrun
    exact newPageIO_eq_error.mp hnew
  | ok r s₁ =>
    rw [allocateHeapPage, bind_ok hnew] at hrun
    cases r with
    | none => cases hrun
    | some x =>
      have hwrite (data : HeapPage) : (failingStore io).writeData x.2 data s₁ = .ok () (s₁.setData x.2 data) := rfl
      dsimp only at hrun
      rw [bind_ok (rfl : (failingStore io).readData x.2 s₁ = .ok (s₁.frames x.2).data s₁), bind_ok (hwrite _)] at hrun
      generalize s₁.setData x.2 _ = s₂ at hrun
      obtain ⟨b, s₃, hunpin⟩ := unpinPage_returns x.1 true s₂
      have hok : (failingStore io).unpinPage x.1 true s₂ = .ok b s₃ := hunpin
      rw [bind_ok hok] at hrun
      cases hrun

theorem allocateHeapPage_returns (s : BufferPool HeapPage n) :
    ∃ pid s', allocateHeapPage BufferPool.store s = .ok pid s' := by
  cases hrun : allocateHeapPage BufferPool.store s with
  | ok pid s' => exact ⟨pid, s', rfl⟩
  | error e s' =>
    rw [← failingStore_none] at hrun
    have hfail := allocateHeapPage_error hrun
    rw [getFreeFrameIO_none] at hfail
    split at hfail <;> cases hfail

theorem insertTupleCaught_store (hf : HeapFile) (tuple : Tuple) :
    insertTupleCaught (BufferPool.store (n := n)) hf tuple = insertTuple BufferPool.store hf tuple := by
  have hcaught : tryCatch (allocateHeapPage (BufferPool.store (n := n)))
      (fun e => if e.IsException then return none else throw e) = allocateHeapPage BufferPool.store := by
    funext s
    obtain ⟨pid, s', hrun⟩ := allocateHeapPage_returns s
    change EStateM.tryCatch _ _ s = _
    rw [EStateM.tryCatch, hrun]
  rw [insertTupleCaught, hcaught]
  rfl

theorem scanSlotsM_pure (callback : β → RID → Tuple → β × Bool) (f : Fin n) (tupleSize : Nat) (pid : PageId)
    (left slot : Nat) (b : β) (s : BufferPool HeapPage n) :
    scanSlotsM (failingStore io) (fun b rid t => pure (callback b rid t)) f tupleSize pid left slot b s =
      ofExcept (scanSlots callback (s.frames f).data tupleSize pid left slot b) s := by
  induction left generalizing slot b with
  | zero => rfl
  | succ left ih =>
    rw [scanSlotsM, scanSlots, bind_ok (rfl : (failingStore io).readData f s = .ok (s.frames f).data s)]
    cases slotTuple (s.frames f).data tupleSize slot with
    | error e => rfl
    | ok t =>
      -- the callback leaves the pool alone, so the page reads as before
      change (match callback b ⟨pid, slot⟩ t with
        | (b, true) => scanSlotsM (failingStore io) _ f tupleSize pid left (slot + 1) b
        | (b, false) => pure (b, false)) s = ofExcept (match callback b ⟨pid, slot⟩ t with
        | (b, true) => scanSlots callback (s.frames f).data tupleSize pid left (slot + 1) b
        | (b, false) => pure (b, false)) s
      rcases callback b ⟨pid, slot⟩ t with ⟨b', _ | _⟩
      · rfl
      · exact ih (slot + 1) b'

theorem scanLoop_eq_scanLoopM (callback : β → RID → Tuple → β × Bool) (tupleSize fuel : Nat) (cur : PageId) (b : β) :
    (scanLoop (failingStore io) callback tupleSize fuel cur b : PoolM HeapPage n β) =
      scanLoopM (failingStore io) (fun b rid t => pure (callback b rid t)) tupleSize fuel cur b := by
  induction fuel generalizing cur b with
  | zero => rfl
  | succ fuel ih =>
    rw [scanLoop, scanLoopM]
    split_ifs
    · rfl
    · congr 1
      funext page
      cases page with
      | none => rfl
      | some f =>
        funext s
        have hread : (failingStore io).readData f s = .ok (s.frames f).data s := rfl
        dsimp only
        simp only [ih]
        rw [bind_ok hread, bind_ok hread]
        change EStateM.bind _ _ s = EStateM.bind _ _ s
        rw [EStateM.bind, EStateM.bind, scanSlotsM_pure]

theorem scan_eq_scanM (hf : HeapFile) (callback : β → RID → Tuple → β × Bool) (b : β) :
    (scan (failingStore io) hf callback b : PoolM HeapPage n β) =
      scanM (failingStore io) hf (fun b rid t => pure (callback b rid t)) b := by
  simp only [scan, scanM, scanLoop_eq_scanLoopM]

theorem balanced_allocateHeapPage : Balanced (allocateHeapPage (failingStore io) : PoolM HeapPage n _) := by
  intro π
  refine newPage_ensures (Balanced.pure _) fun pid f => readData_ensures fun data => writeData_ensures ?_
  exact unpinPage_ensures fun _ => Balanced.pure _

theorem balanced_create (schema : Schema) : Balanced (create (failingStore io) schema : PoolM HeapPage n _) := by
  intro π
  refine balanced_allocateHeapPage.bind fun pid => ?_
  cases pid with
  | none => exact Ensures.throw _
  | some pid => exact Balanced.pure _

theorem balanced_lastPage (fuel : Nat) (cur : PageId) :
    Balanced (lastPage (failingStore io) fuel cur : PoolM HeapPage n _) := by
  induction fuel generalizing cur with
  | zero => exact fun π => Ensures.throw _
  | succ fuel ih =>
    intro π
    refine fetchPage_ensures (Ensures.throw _) fun f => readData_ensures fun data => unpinPage_ensures fun _ => ?_
    split_ifs
    · exact Balanced.pure _
    · exact ih _ π

theorem balanced_reopen (schema : Schema) (firstPageId : PageId) :
    Balanced (reopen (failingStore io) schema firstPageId : PoolM HeapPage n _) := by
  intro π
  exact numPages_ensures fun pages => (balanced_lastPage _ _).bind fun cur => Balanced.pure _

theorem insertAt_ensures {π : PageId → Nat} (hf : HeapFile) (f : Fin n) (tuple : Tuple) :
    Ensures (AtPins (withPin π hf.lastPageId)) (insertAt (failingStore io) hf f tuple) fun _ => AtPins π := by
  refine readData_ensures fun data => ?_
  dsimp only
  split_ifs
  · exact Ensures.throw _
  · split
    · exact Ensures.throw _
    · exact writeData_ensures (unpinPage_ensures fun _ => Balanced.pure _)

theorem balanced_insertTupleCaught (hf : HeapFile) (tuple : Tuple) :
    Balanced (insertTupleCaught (failingStore io) hf tuple : PoolM HeapPage n _) := by
  intro π
  refine fetchPage_ensures (Balanced.pure _) fun f => readData_ensures fun data => ?_
  refine (Balanced.ofExcept _).bind fun max => ?_
  split_ifs
  · exact insertAt_ensures hf f tuple
  · refine unpinPage_ensures fun _ => ?_
    refine Ensures.bind (Ensures.tryCatch (R := AtPins π) (balanced_allocateHeapPage π) ?_ fun e => ?_) fun pid => ?_
    -- what the allocation throws has moved no pin
    · intro s e s' hs hrun
      have hsame := samePins_writeFails (allocateHeapPage_error hrun)
      exact ⟨hsame.tracked hs.1, hsame.pins_eq.trans hs.2⟩
    · split_ifs
      · exact Balanced.pure _
      · exact Ensures.throw _
    · cases pid with
      | none => exact Balanced.pure _
      | some newPid =>
        refine fetchPage_ensures (Balanced.pure _) fun f => readData_ensures fun data => ?_
        refine writeData_ensures (unpinPage_ensures fun _ => ?_)
        exact fetchPage_ensures (Balanced.pure _) fun f => insertAt_ensures { hf with lastPageId := newPid } f tuple

theorem balanced_scanSlotsM {callback : β → RID → Tuple → PoolM HeapPage n (β × Bool)}
    (hcallback : ∀ b rid t, Balanced (callback b rid t)) (f : Fin n) (tupleSize : Nat) (pid : PageId)
    (left slot : Nat) (b : β) : Balanced (scanSlotsM (failingStore io) callback f tupleSize pid left slot b) := by
  induction left generalizing slot b with
  | zero => exact fun π => Balanced.pure _
  | succ left ih =>
    intro π
    refine readData_ensures fun data => (Balanced.ofExcept _).bind fun t => (hcallback _ _ _).bind fun r => ?_
    obtain ⟨b, go⟩ := r
    cases go with
    | true => exact ih _ b π
    | false => exact Balanced.pure _

theorem balanced_scanLoopM {callback : β → RID → Tuple → PoolM HeapPage n (β × Bool)}
    (hcallback : ∀ b rid t, Balanced (callback b rid t)) (tupleSize fuel : Nat) (cur : PageId) (b : β) :
    Balanced (scanLoopM (failingStore io) callback tupleSize fuel cur b) := by
  induction fuel generalizing cur b with
  | zero => exact fun π => Ensures.throw _
  | succ fuel ih =>
    intro π
    unfold scanLoopM
    split_ifs
    · exact Balanced.pure _
    · refine fetchPage_ensures (Balanced.pure _) fun f => readData_ensures fun data => ?_
      refine (balanced_scanSlotsM hcallback _ _ _ _ _ _).bind fun r => unpinPage_ensures fun _ => ?_
      split_ifs
      · exact ih _ _ π
      · exact Balanced.pure _

theorem balanced_scanM (hf : HeapFile) {callback : β → RID → Tuple → PoolM HeapPage n (β × Bool)}
    (hcallback : ∀ b rid t, Balanced (callback b rid t)) (b : β) : Balanced (scanM (failingStore io) hf callback b) :=
  fun π => numPages_ensures fun pages => balanced_scanLoopM hcallback _ (pages + 1) _ b π

theorem balanced_scanPage (hf : HeapFile) (pageId : PageId) {callback : β → RID → Tuple → PoolM HeapPage n β}
    (hcallback : ∀ b rid t, Balanced (callback b rid t)) (b : β) :
    Balanced (scanPage (failingStore io) hf pageId callback b) := by
  intro π
  refine fetchPage_ensures (Balanced.pure _) fun f => readData_ensures fun data => ?_
  -- the callback has no result, and the loop never stops early
  have heach (b : β) (rid : RID) (t : Tuple) :
      Balanced (do return (← callback b rid t, true) : PoolM HeapPage n (β × Bool)) :=
    fun π => (hcallback b rid t).bind fun b => Balanced.pure _
  exact (balanced_scanSlotsM heach _ _ _ _ _ _).bind fun r => unpinPage_ensures fun _ => Balanced.pure _

theorem balanced_getPageIdsLoop (fuel : Nat) (cur : PageId) (ids : List PageId) :
    Balanced (getPageIdsLoop (failingStore io) fuel cur ids : PoolM HeapPage n _) := by
  induction fuel generalizing cur ids with
  | zero => exact fun π => Ensures.throw _
  | succ fuel ih =>
    intro π
    unfold getPageIdsLoop
    split_ifs
    · exact Balanced.pure _
    · refine fetchPage_ensures (Balanced.pure _) fun f => readData_ensures fun data => ?_
      exact unpinPage_ensures fun _ => ih _ _ π

theorem balanced_getPageIds (hf : HeapFile) : Balanced (getPageIds (failingStore io) hf : PoolM HeapPage n _) :=
  fun π => numPages_ensures fun pages => balanced_getPageIdsLoop (pages + 1) _ [] π

end HeapFile

/-! ## Every call -/

theorem BufferPool.RepInv.tracked {D : Type} {s : BufferPool D n} (h : RepInv none s) : s.Tracked :=
  ⟨h.free_nodup, h.free_not_mapped, h.page_id, fun p f hp => (h.allocated p f hp).2, fun f => (h.evictable_iff f).mp⟩

theorem BPlusTree.calls_return {index index' : BPlusTree} {m : PageMap TreePage} {s s' : BufferPool TreePage n}
    (hs : Holds s m) (hfree : 2 ≤ s.unpinned) (hroot : index.rootPageId = invalidPageId)
    (hleaf : index.leafMaxSize ≤ leafCapacity) (hinner : index.internalMaxSize < internalCapacity)
    {ops : List (Int × RID)} (hrun : insertAll BufferPool.store index ops s = .ok index' s') :
    (∀ key, ∃ r s'', search BufferPool.store index' key s' = .ok r s'') ∧
      (∀ low high results, ∃ rids s'', rangeScan BufferPool.store index' low high results s' = .ok rids s'') ∧
      ∀ key rid, ∃ index'' s'', insert BufferPool.store index' key rid s' = .ok index'' s'' := by
  obtain ⟨m', hm, hs'⟩ := insertAll_pool hs hroot hrun
  obtain ⟨hk, hindex', hidx⟩ := insertAll_indexes hs.wf (.empty hroot) hm
  have hfree' : 2 ≤ m'.free := by
    rw [hk.free_eq, hs.free_eq]
    exact hfree
  have hsorted : ((insertedEntries ops []).map (·.key)).Pairwise (· < ·) :=
    pairwise_insertedEntries ops List.Pairwise.nil
  refine ⟨fun key => ?_, fun low high results => ?_, fun key rid => ?_⟩
  · obtain ⟨r, s'', hr, -⟩ :=
      (search_refines (n := n) _ key).ok (live_nil.mpr hs') (search_indexes hk.wf hidx (by omega) key)
    exact ⟨r, s'', hr⟩
  · obtain ⟨r, s'', hr, -⟩ := (rangeScan_refines (n := n) _ low high results).ok (live_nil.mpr hs')
      (rangeScan_indexes hk.wf hidx (fun _ => by omega) hsorted results)
    exact ⟨r, s'', hr⟩
  · obtain ⟨pid, rfl⟩ := hindex'
    obtain ⟨index'', m'', hins⟩ := insert_returns key rid hk.wf hidx hfree' hleaf hinner
    obtain ⟨r, s'', hr, -⟩ := (insert_refines (n := n) _ key rid).ok (live_nil.mpr hs') hins
    exact ⟨r, s'', hr⟩

/-- From every pool, a call that returns leaves every page with the pins it had. -/
def KeepsPins {D α : Type} [Zero D] (x : PoolM D n α) : Prop :=
  ∀ disk s a s', ReachableFailing disk s → x s = .ok a s' → ∀ p, s'.pins p = s.pins p

theorem Balanced.keepsPins {D α : Type} [Zero D] {x : PoolM D n α} (h : Balanced x) : KeepsPins x :=
  fun _ _ _ _ hs hrun p => congrFun (h.pins_eq hs.tracked hrun) p

open BPlusTree HeapFile in
/-- The calls of the index and of the heap file, whatever writes of the disk fail. The
callbacks may call the pool as well, if they give back the pins they take. With two
frames that nobody pins, the calls of an index do return. -/
theorem calls_keep_pins (n : Nat) :
    (∀ (io : PageId → Option TreePage) (index : BPlusTree),
      (∀ key, KeepsPins (search (failingStore io) index key : PoolM TreePage n _)) ∧
      (∀ low high results, KeepsPins (rangeScan (failingStore io) index low high results : PoolM TreePage n _)) ∧
      ∀ key rid, KeepsPins (insert (failingStore io) index key rid : PoolM TreePage n _)) ∧
    (∀ (index index' : BPlusTree) (ops : List (Int × RID)) (m : PageMap TreePage) (s s' : BufferPool TreePage n),
      Holds s m → 2 ≤ s.unpinned → index.rootPageId = invalidPageId → index.leafMaxSize ≤ leafCapacity →
      index.internalMaxSize < internalCapacity → insertAll BufferPool.store index ops s = .ok index' s' →
        (∀ key, ∃ r s'', search BufferPool.store index' key s' = .ok r s'') ∧
        (∀ low high results, ∃ rids s'', rangeScan BufferPool.store index' low high results s' = .ok rids s'') ∧
        ∀ key rid, ∃ index'' s'', insert BufferPool.store index' key rid s' = .ok index'' s'') ∧
    (∀ (io : PageId → Option HeapPage) (schema : Schema),
      KeepsPins (create (failingStore io) schema : PoolM HeapPage n _) ∧
      ∀ firstPageId, KeepsPins (reopen (failingStore io) schema firstPageId : PoolM HeapPage n _)) ∧
    ∀ (io : PageId → Option HeapPage) (hf : HeapFile),
      (∀ (β : Type) (callback : β → RID → Tuple → PoolM HeapPage n (β × Bool)) (b : β),
        (∀ b rid t, Balanced (callback b rid t)) → KeepsPins (scanM (failingStore io) hf callback b)) ∧
      KeepsPins (getPageIds (failingStore io) hf : PoolM HeapPage n _) ∧
      (∀ (pageId : PageId) (β : Type) (callback : β → RID → Tuple → PoolM HeapPage n β) (b : β),
        (∀ b rid t, Balanced (callback b rid t)) → KeepsPins (scanPage (failingStore io) hf pageId callback b)) ∧
      ∀ tuple, KeepsPins (insertTupleCaught (failingStore io) hf tuple : PoolM HeapPage n _) := by
  refine ⟨fun io index => ⟨fun key => ?_, fun low high results => ?_, fun key rid => ?_⟩, ?_,
    fun io schema => ⟨?_, fun firstPageId => ?_⟩, fun io hf => ⟨?_, ?_, ?_, fun tuple => ?_⟩⟩
  · exact (balanced_search index key).keepsPins
  · exact (balanced_rangeScan index low high results).keepsPins
  · exact (balanced_insert index key rid).keepsPins
  · intro index index' ops m s s' hs hfree hroot hleaf hinner hrun
    exact calls_return hs hfree hroot hleaf hinner hrun
  · exact (balanced_create schema).keepsPins
  · exact (balanced_reopen schema firstPageId).keepsPins
  · exact fun β callback b hcallback => (balanced_scanM hf hcallback b).keepsPins
  · exact (balanced_getPageIds hf).keepsPins
  · exact fun pageId β callback b hcallback => (balanced_scanPage hf pageId hcallback b).keepsPins
  · exact (balanced_insertTupleCaught hf tuple).keepsPins

theorem calls_keep_pins_failedWrite : ∃ (hf : HeapFile) (s s' : BufferPool HeapPage 1),
    ReachableFailing ⟨0, fun _ => 0⟩ s ∧
    HeapFile.insertTupleCaught (failingStore fun _ => some 0) hf [] s = .ok (none, hf) s' ∧ s'.replacer.order = [] ∧
    ∀ p, s'.pins p = s.pins p := by
  have hnew : ReachableFailing (⟨0, fun _ => 0⟩ : DiskManager HeapPage) _ := (ReachableFailing.init (n := 1)).exec
    (rfl : PoolOp.newPage.exec _ = .ok () _)
  have hs := (hnew.write 0 { (0 : HeapPage) with numTuples := 2000, nextPageId := invalidPageId }).exec
    (rfl : (PoolOp.unpinPage 0 true).exec _ = .ok () _)
  have hkeep := ((calls_keep_pins 1).2.2.2 (fun _ => some 0) ⟨⟨[⟨[], .int⟩]⟩, 0, 0⟩).2.2.2 []
  exact ⟨⟨⟨[⟨[], .int⟩]⟩, 0, 0⟩, _, _, hs, rfl, rfl, hkeep _ _ _ _ hs rfl⟩

end MyDB.Storage

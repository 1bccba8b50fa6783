import MyDB.Storage.HeapFile

/-! What a heap file is for: a sequence of rows, kept in the pages of a chain. The
code over the buffer pool does what it does over the abstract page store, and
there `Scan` returns the rows and `InsertTuple` appends one. -/

namespace MyDB.Storage.HeapFile
open Lib PageMap

/-! ## The pool refines the abstract store -/

section Refinement
variable {n : Nat} {ptrs : List (PageId × Fin n)} {α : Type}

def Agree (a b : α) (s : BufferPool HeapPage n) (m : PageMap HeapPage) : Prop := a = b ∧ Live [] s m

theorem refines_return (a : α) : RefinesStore (n := n) (D := HeapPage) [] (pure a) (pure a) Agree :=
  Refines.pure fun _ _ h => ⟨rfl, h⟩

theorem ofExcept_bind {β γ : Type} {R : β → γ → BufferPool HeapPage n → PageMap HeapPage → Prop}
    {x : Except Fault α} {f : α → EStateM Fault (BufferPool HeapPage n) β}
    {g : α → EStateM Fault (PageMap HeapPage) γ} (h : ∀ a, RefinesStore ptrs (f a) (g a) R) :
    RefinesStore ptrs (ofExcept x >>= f) (ofExcept x >>= g) R := by
  cases x with
  | ok a => exact h a
  | error e => exact refines_throw e

theorem allocateHeapPage_refines :
    RefinesStore [] (allocateHeapPage (BufferPool.store (n := n))) (allocateHeapPage PageMap.store) Agree := by
  unfold allocateHeapPage
  refine newPage_bind (refines_return none) fun p f => ?_
  refine readData_bind List.mem_cons_self fun d => writeData_bind List.mem_cons_self ?_
  exact unpinLast_bind fun _ => refines_return _

theorem create_refines (schema : Schema) :
    RefinesStore [] (create (BufferPool.store (n := n)) schema) (create PageMap.store schema) Agree := by
  refine allocateHeapPage_refines.bind_eq fun pid => ?_
  cases pid with
  | none => exact refines_throw _
  | some pid => exact refines_return _

theorem insertAt_refines (hf : HeapFile) (tuple : Tuple) {f : Fin n} :
    RefinesStore [(hf.lastPageId, f)] (insertAt BufferPool.store hf f tuple)
      (insertAt PageMap.store hf hf.lastPageId tuple) Agree := by
  unfold insertAt
  refine readData_bind List.mem_cons_self fun d => ?_
  dsimp only
  split_ifs
  · exact refines_throw _
  · split
    · exact refines_throw _
    · exact writeData_bind List.mem_cons_self (unpinLast_bind fun _ => refines_return _)

theorem insertTuple_refines (hf : HeapFile) (tuple : Tuple) :
    RefinesStore [] (insertTuple (BufferPool.store (n := n)) hf tuple) (insertTuple PageMap.store hf tuple)
      Agree := by
  unfold insertTuple
  refine fetchPage_bind (refines_return _) fun f => readData_bind List.mem_cons_self fun d => ?_
  refine ofExcept_bind fun max => ?_
  split_ifs
  · exact insertAt_refines hf tuple
  · refine unpinLast_bind fun _ => allocateHeapPage_refines.bind_eq fun newPid => ?_
    cases newPid with
    | none => exact refines_return _
    | some newPid =>
      refine fetchPage_bind (refines_return _) fun f => readData_bind List.mem_cons_self fun d => ?_
      refine writeData_bind List.mem_cons_self (unpinLast_bind fun _ => ?_)
      exact fetchPage_bind (refines_return _) fun f => insertAt_refines { hf with lastPageId := newPid } tuple

theorem scanLoop_refines (callback : α → RID → Tuple → α × Bool) (tupleSize fuel : Nat) (cur : PageId) (b : α) :
    RefinesStore [] (scanLoop (BufferPool.store (n := n)) callback tupleSize fuel cur b)
      (scanLoop PageMap.store callback tupleSize fuel cur b) Agree := by
  induction fuel generalizing cur b with
  | zero => exact refines_throw _
  | succ fuel ih =>
    unfold scanLoop
    split_ifs
    · exact refines_return _
    · refine fetchPage_bind (refines_return _) fun f => readData_bind List.mem_cons_self fun d => ?_
      refine ofExcept_bind fun r => unpinLast_bind fun _ => ?_
      split_ifs
      · exact ih _ _
      · exact refines_return _

theorem scan_refines (hf : HeapFile) (callback : α → RID → Tuple → α × Bool) (b : α) :
    RefinesStore [] (scan (BufferPool.store (n := n)) hf callback b) (scan PageMap.store hf callback b) Agree :=
  numPages_bind fun _ => scanLoop_refines callback _ _ _ b

theorem getPageIdsLoop_refines (fuel : Nat) (cur : PageId) (ids : List PageId) :
    RefinesStore [] (getPageIdsLoop (BufferPool.store (n := n)) fuel cur ids)
      (getPageIdsLoop PageMap.store fuel cur ids) Agree := by
  induction fuel generalizing cur ids with
  | zero => exact refines_throw _
  | succ fuel ih =>
    unfold getPageIdsLoop
    split_ifs
    · exact refines_return _
    · refine fetchPage_bind (refines_return _) fun f => readData_bind List.mem_cons_self fun d => ?_
      exact unpinLast_bind fun _ => ih _ _

theorem getPageIds_refines (hf : HeapFile) :
    RefinesStore [] (getPageIds (BufferPool.store (n := n)) hf) (getPageIds PageMap.store hf) Agree :=
  numPages_bind fun _ => getPageIdsLoop_refines _ _ _

end Refinement

/-! ## The chain of pages -/

def pageRows (tupleSize : Nat) (d : HeapPage) : List Tuple :=
  (List.range d.numTuples).map fun slot => slice d.bytes (tupleSlot slot tupleSize) tupleSize

def Fits (tupleSize : Nat) (d : HeapPage) : Prop := d.numTuples * tupleSize ≤ pageSize - heapHeaderSize

/-- `ids` are the pages from `cur` on. -/
def PageChain (m : PageMap HeapPage) : PageId → List PageId → Prop
  | cur, [] => cur = invalidPageId
  | cur, p :: ids => cur = p ∧ (0 ≤ p ∧ p < m.numPages) ∧ PageChain m (m.contents p).nextPageId ids

def chainRows (m : PageMap HeapPage) (tupleSize : Nat) (ids : List PageId) : List Tuple :=
  ids.flatMap fun p => pageRows tupleSize (m.contents p)

section Chain
variable {m : PageMap HeapPage} {cur : PageId} {ids : List PageId}

theorem PageChain.unique {ids' : List PageId} (h : PageChain m cur ids) (h' : PageChain m cur ids') :
    ids = ids' := by
  induction ids generalizing cur ids' with
  | nil =>
    cases ids' with
    | nil => rfl
    | cons p ids' =>
      obtain ⟨rfl, hr, -⟩ := h'
      obtain rfl : cur = invalidPageId := h
      exact absurd hr.1 (by decide)
  | cons p ids ih =>
    obtain ⟨rfl, hr, h⟩ := h
    cases ids' with
    | nil =>
      obtain rfl : cur = invalidPageId := h'
      exact absurd hr.1 (by decide)
    | cons q ids' =>
      obtain ⟨rfl, -, h'⟩ := h'
      rw [ih h h']

theorem PageChain.of_append {pre : List PageId} {p : PageId} {rest : List PageId}
    (h : PageChain m cur (pre ++ p :: rest)) : PageChain m p (p :: rest) := by
  induction pre generalizing cur with
  | nil =>
    obtain ⟨rfl, h⟩ := h
    exact ⟨rfl, h⟩
  | cons q pre ih => exact ih h.2.2

theorem PageChain.nodup (h : PageChain m cur ids) : ids.Nodup := by
  induction ids generalizing cur with
  | nil => exact List.nodup_nil
  | cons p ids ih =>
    obtain ⟨rfl, hr, h⟩ := h
    refine List.nodup_cons.mpr ⟨fun hmem => ?_, ih h⟩
    obtain ⟨pre, rest, rfl⟩ := List.append_of_mem hmem
    have hself : PageChain m cur (cur :: (pre ++ cur :: rest)) := ⟨rfl, hr, h⟩
    have hlen := congrArg List.length (h.of_append.unique hself)
    rw [List.length_cons, List.length_cons, List.length_append, List.length_cons] at hlen
    omega

theorem PageChain.range (h : PageChain m cur ids) : ∀ p ∈ ids, 0 ≤ p ∧ p < m.numPages := by
  induction ids generalizing cur with
  | nil => exact fun p hp => absurd hp List.not_mem_nil
  | cons q ids ih => exact List.forall_mem_cons.mpr ⟨h.2.1, ih h.2.2⟩

theorem PageChain.length_le (h : PageChain m cur ids) : ids.length ≤ m.numPages := by
  have hsub : ids.Subperm (List.map Int.ofNat (List.range m.numPages)) := by
    refine h.nodup.subperm fun p hp => ?_
    obtain ⟨h0, h1⟩ := h.range p hp
    exact List.mem_map.mpr ⟨p.toNat, List.mem_range.mpr ((Int.toNat_lt h0).mpr h1), Int.toNat_of_nonneg h0⟩
  simpa using hsub.length_le

end Chain

/-! ## Scans -/

def pageEntries (tupleSize : Nat) (p : PageId) (d : HeapPage) : List (RID × Tuple) :=
  (List.range d.numTuples).map fun slot => (⟨p, slot⟩, slice d.bytes (tupleSlot slot tupleSize) tupleSize)

def chainEntries (m : PageMap HeapPage) (tupleSize : Nat) (ids : List PageId) : List (RID × Tuple) :=
  ids.flatMap fun p => pageEntries tupleSize p (m.contents p)

theorem map_snd_pageEntries (tupleSize : Nat) (p : PageId) (d : HeapPage) :
    (pageEntries tupleSize p d).map Prod.snd = pageRows tupleSize d := by
  rw [pageEntries, List.map_map]
  rfl

theorem length_pageEntries (tupleSize : Nat) (p : PageId) (d : HeapPage) :
    (pageEntries tupleSize p d).length = d.numTuples := by
  rw [pageEntries, List.length_map, List.length_range]

theorem map_snd_chainEntries (m : PageMap HeapPage) (tupleSize : Nat) (ids : List PageId) :
    (chainEntries m tupleSize ids).map Prod.snd = chainRows m tupleSize ids := by
  rw [chainEntries, chainRows, List.map_flatMap]
  simp only [map_snd_pageEntries]

def visit {β : Type} (callback : β → RID → Tuple → β × Bool) : β → List (RID × Tuple) → β × Bool
  | b, [] => (b, true)
  | b, (rid, t) :: rest =>
    match callback b rid t with
    | (b, true) => visit callback b rest
    | (b, false) => (b, false)

section visit
variable {β : Type} {callback : β → RID → Tuple → β × Bool} {b : β} {es fs : List (RID × Tuple)}

theorem visit_append_go (h : (visit callback b es).2 = true) :
    visit callback b (es ++ fs) = visit callback (visit callback b es).1 fs := by
  induction es generalizing b with
  | nil => rfl
  | cons e es ih =>
    rw [List.cons_append, visit, visit]
    rw [visit] at h
    split at h
    · exact ih h
    · cases h

theorem visit_append_stop (h : (visit callback b es).2 = false) :
    visit callback b (es ++ fs) = visit callback b es := by
  induction es generalizing b with
  | nil => cases h
  | cons e es ih =>
    rw [List.cons_append, visit, visit]
    rw [visit] at h
    split at h
    · exact ih h
    · rfl

end visit

/-- The callback of `SeqScan::Init`. -/
def pushBack (buffer : List Tuple) (_ : RID) (t : Tuple) : List Tuple × Bool := (buffer ++ [t], true)

theorem visit_pushBack (buffer : List Tuple) (es : List (RID × Tuple)) :
    visit pushBack buffer es = (buffer ++ es.map Prod.snd, true) := by
  induction es generalizing buffer with
  | nil => rw [visit, List.map_nil, List.append_nil]
  | cons e es ih =>
    change visit pushBack (buffer ++ [e.2]) es = _
    rw [ih, List.append_assoc]
    rfl

theorem slotTuple_ok {d : HeapPage} {tupleSize slot : Nat} (hfits : Fits tupleSize d)
    (h : slot < d.numTuples) : slotTuple d tupleSize slot = .ok (slice d.bytes (tupleSlot slot tupleSize) tupleSize) := by
  have hend : tupleSlot slot tupleSize + tupleSize ≤ pageSize - heapHeaderSize := by
    have hle := Nat.mul_le_mul_right tupleSize h
    rw [Nat.succ_mul] at hle
    exact hle.trans hfits
  rw [slotTuple, if_pos hend]
  rfl

theorem drop_pageEntries {d : HeapPage} {tupleSize slot : Nat} (hfits : Fits tupleSize d) (h : slot < d.numTuples)
    (p : PageId) : ∃ t, slotTuple d tupleSize slot = .ok t ∧
      (pageEntries tupleSize p d).drop slot = (⟨p, slot⟩, t) :: (pageEntries tupleSize p d).drop (slot + 1) := by
  have hlt : slot < (pageEntries tupleSize p d).length := by
    rw [length_pageEntries]
    exact h
  refine ⟨_, slotTuple_ok hfits h, ?_⟩
  rw [List.drop_eq_getElem_cons hlt]
  simp [pageEntries]

theorem drop_pageEntries_nil {d : HeapPage} {tupleSize slot : Nat} (h : d.numTuples ≤ slot) (p : PageId) :
    (pageEntries tupleSize p d).drop slot = [] := by
  rw [List.drop_eq_nil_iff, length_pageEntries]
  exact h

theorem drop_pageRows {d : HeapPage} {tupleSize slot : Nat} (hfits : Fits tupleSize d) (h : slot < d.numTuples) :
    ∃ t, slotTuple d tupleSize slot = .ok t ∧
      (pageRows tupleSize d).drop slot = t :: (pageRows tupleSize d).drop (slot + 1) := by
  obtain ⟨t, ht, hdrop⟩ := drop_pageEntries hfits h 0
  refine ⟨t, ht, ?_⟩
  rw [← map_snd_pageEntries tupleSize 0, ← List.map_drop, hdrop, List.map_cons, List.map_drop]

theorem drop_pageRows_nil {d : HeapPage} {tupleSize slot : Nat} (h : d.numTuples ≤ slot) :
    (pageRows tupleSize d).drop slot = [] := by
  rw [← map_snd_pageEntries tupleSize 0, ← List.map_drop, drop_pageEntries_nil h, List.map_nil]

theorem scanSlots_eq {β : Type} (callback : β → RID → Tuple → β × Bool) {d : HeapPage} {tupleSize : Nat}
    (hfits : Fits tupleSize d) (pid : PageId) (left slot : Nat) (hleft : slot + left = d.numTuples) (b : β) :
    scanSlots callback d tupleSize pid left slot b = .ok (visit callback b ((pageEntries tupleSize pid d).drop slot)) := by
  induction left generalizing slot b with
  | zero =>
    have hend : d.numTuples ≤ slot := hleft.ge
    rw [drop_pageEntries_nil hend]
    rfl
  | succ left ih =>
    obtain ⟨t, ht, hdrop⟩ := drop_pageEntries hfits (show slot < d.numTuples by omega) pid
    rw [scanSlots, ht, hdrop, visit]
    change (match callback b ⟨pid, slot⟩ t with
      | (b, true) => scanSlots callback d tupleSize pid left (slot + 1) b
      | (b, false) => pure (b, false)) = _
    split
    · exact ih (slot + 1) (by omega) _
    · rfl

section Runs
variable {m : PageMap HeapPage} {ids rest : List PageId}

/-- `FetchPage` finds the page pinned, or a frame for it. -/
def Fetchable (m : PageMap HeapPage) (p : PageId) : Prop := m.pins p ≠ 0 ∨ m.free ≠ 0

theorem scanLoop_chain {β : Type} (callback : β → RID → Tuple → β × Bool) (hwf : m.WF) {tupleSize : Nat} {cur : PageId}
    (hchain : PageChain m cur (ids ++ rest)) (hfits : ∀ p ∈ ids, Fits tupleSize (m.contents p))
    (hfetch : ∀ p ∈ ids, Fetchable m p) (hrest : ∀ p ∈ rest.head?, ¬ Fetchable m p) {fuel : Nat}
    (hfuel : ids.length < fuel) (b : β) :
    scanLoop store callback tupleSize fuel cur b m = .ok (visit callback b (chainEntries m tupleSize ids)).1 m := by
  induction ids generalizing cur fuel b with
  | nil =>
    obtain ⟨fuel, rfl⟩ := Nat.exists_eq_succ_of_ne_zero (Nat.ne_of_gt hfuel)
    cases rest with
    | nil =>
      obtain rfl : cur = invalidPageId := hchain
      rw [scanLoop, if_pos rfl]
      rfl
    | cons p rest =>
      obtain ⟨rfl, hr, -⟩ := hchain
      have hcur : cur ≠ invalidPageId := fun e => absurd (e ▸ hr.1) (by decide)
      rw [scanLoop, if_neg hcur, bind_ok (fetchPage_none (hrest cur rfl))]
      rfl
  | cons p ids ih =>
    obtain ⟨fuel, rfl⟩ := Nat.exists_eq_succ_of_ne_zero (Nat.ne_of_gt ((Nat.zero_le _).trans_lt hfuel))
    obtain ⟨rfl, hr, hchain⟩ := hchain
    have hcur : cur ≠ invalidPageId := fun e => absurd (e ▸ hr.1) (by decide)
    obtain ⟨hfits, hfits'⟩ := List.forall_mem_cons.mp hfits
    obtain ⟨hfetch, hfetch'⟩ := List.forall_mem_cons.mp hfetch
    rw [scanLoop, if_neg hcur, bind_ok (fetchPage_ok hr hfetch)]
    dsimp only
    rw [bind_ok (readData_pin rfl), scanSlots_eq callback hfits cur _ 0 (Nat.zero_add _), List.drop_zero]
    change (store.unpinPage cur false >>= _) (m.pin cur) = _
    rw [bind_ok (unpin_pin hwf hfetch), chainEntries, List.flatMap_cons]
    -- the callback has seen the whole page, or it has stopped
    cases hgo : (visit callback b (pageEntries tupleSize cur (m.contents cur))).2 with
    | true =>
      rw [visit_append_go hgo, if_pos rfl]
      exact ih hchain hfits' hfetch' (Nat.lt_of_succ_lt_succ hfuel) _
    | false =>
      rw [visit_append_stop hgo, if_neg Bool.false_ne_true]
      rfl

theorem getPageIdsLoop_chain (hwf : m.WF) {cur : PageId} (hchain : PageChain m cur (ids ++ rest))
    (hfetch : ∀ p ∈ ids, Fetchable m p) (hrest : ∀ p ∈ rest.head?, ¬ Fetchable m p) {fuel : Nat}
    (hfuel : ids.length < fuel) (visited : List PageId) :
    getPageIdsLoop store fuel cur visited m = .ok (visited ++ (ids ++ rest.head?.toList)) m := by
  induction ids generalizing cur fuel visited with
  | nil =>
    obtain ⟨fuel, rfl⟩ := Nat.exists_eq_succ_of_ne_zero (Nat.ne_of_gt hfuel)
    cases rest with
    | nil =>
      obtain rfl : cur = invalidPageId := hchain
      rw [getPageIdsLoop, if_pos rfl]
      exact congrArg (EStateM.Result.ok · m) (List.append_nil visited).symm
    | cons p rest =>
      obtain ⟨rfl, hr, -⟩ := hchain
      have hcur : cur ≠ invalidPageId := fun e => absurd (e ▸ hr.1) (by decide)
      rw [getPageIdsLoop, if_neg hcur, bind_ok (fetchPage_none (hrest cur rfl))]
      rfl
  | cons p ids ih =>
    obtain ⟨fuel, rfl⟩ := Nat.exists_eq_succ_of_ne_zero (Nat.ne_of_gt ((Nat.zero_le _).trans_lt hfuel))
    obtain ⟨rfl, hr, hchain⟩ := hchain
    have hcur : cur ≠ invalidPageId := fun e => absurd (e ▸ hr.1) (by decide)
    obtain ⟨hfetch, hfetch'⟩ := List.forall_mem_cons.mp hfetch
    rw [getPageIdsLoop, if_neg hcur, bind_ok (fetchPage_ok hr hfetch)]
    dsimp only
    rw [bind_ok (readData_pin rfl), bind_ok (unpin_pin hwf hfetch),
      ih hchain hfetch' (Nat.lt_of_succ_lt_succ hfuel), List.append_assoc]
    rfl

/-- `hf` keeps its tuples in the pages `ids`. -/
structure Represents (m : PageMap HeapPage) (hf : HeapFile) (ids : List PageId) : Prop where
  chain : PageChain m hf.firstPageId ids
  fits : ∀ p ∈ ids, Fits hf.schema.getTupleSize (m.contents p)
  last : ids.getLast? = some hf.lastPageId

def rows (m : PageMap HeapPage) (hf : HeapFile) (ids : List PageId) : List Tuple :=
  chainRows m hf.schema.getTupleSize ids

variable {hf : HeapFile}

/-- The tuples of a heap file, each with its `RID`. -/
def entries (m : PageMap HeapPage) (hf : HeapFile) (ids : List PageId) : List (RID × Tuple) :=
  chainEntries m hf.schema.getTupleSize ids

theorem map_snd_entries (m : PageMap HeapPage) (hf : HeapFile) (ids : List PageId) :
    (entries m hf ids).map Prod.snd = rows m hf ids := map_snd_chainEntries m _ ids

theorem scan_entries {β : Type} (callback : β → RID → Tuple → β × Bool) (hwf : m.WF) (hfree : m.free ≠ 0)
    (h : Represents m hf ids) (b : β) :
    scan store hf callback b m = .ok (visit callback b (entries m hf ids)).1 m := by
  have hchain : PageChain m hf.firstPageId (ids ++ []) := (List.append_nil ids).symm ▸ h.chain
  exact scanLoop_chain callback hwf hchain h.fits (fun _ _ => Or.inr hfree) nofun
    (Nat.lt_succ_of_le h.chain.length_le) b

theorem scan_rows (hwf : m.WF) (hfree : m.free ≠ 0) (h : Represents m hf ids) :
    scan store hf pushBack [] m = .ok (rows m hf ids) m := by
  rw [scan_entries pushBack hwf hfree h, visit_pushBack, map_snd_entries]
  rfl

theorem getPageIds_rows (hwf : m.WF) (hfree : m.free ≠ 0) (h : Represents m hf ids) :
    getPageIds store hf m = .ok ids m := by
  have hchain : PageChain m hf.firstPageId (ids ++ []) := (List.append_nil ids).symm ▸ h.chain
  have hrun := getPageIdsLoop_chain hwf hchain (fun _ _ => Or.inr hfree) nofun (Nat.lt_succ_of_le h.chain.length_le) []
  rw [List.nil_append, List.head?_nil, Option.toList_none, List.append_nil] at hrun
  exact hrun

end Runs

/-! ## Insertion -/

section Insert
variable {m m' : PageMap HeapPage} {hf : HeapFile} {ids : List PageId} {cur p : PageId}

theorem PageChain.congr (h : PageChain m cur ids) (hnum : m.numPages ≤ m'.numPages)
    (hnext : ∀ p ∈ ids, (m'.contents p).nextPageId = (m.contents p).nextPageId) : PageChain m' cur ids := by
  induction ids generalizing cur with
  | nil => exact h
  | cons q ids ih =>
    obtain ⟨rfl, hr, h⟩ := h
    obtain ⟨hq, hrest⟩ := List.forall_mem_cons.mp hnext
    refine ⟨rfl, ⟨hr.1, hr.2.trans_le (Int.ofNat_le.mpr hnum)⟩, ?_⟩
    rw [hq]
    exact ih h hrest

theorem PageChain.concat (h : PageChain m cur ids) {last : PageId} (hlast : ids.getLast? = some last)
    (hnum : m.numPages ≤ m'.numPages) (hp : 0 ≤ p ∧ p < m'.numPages)
    (hother : ∀ q ∈ ids, q ≠ last → (m'.contents q).nextPageId = (m.contents q).nextPageId)
    (hnext : (m'.contents last).nextPageId = p) (hend : (m'.contents p).nextPageId = invalidPageId) :
    PageChain m' cur (ids ++ [p]) := by
  induction ids generalizing cur with
  | nil => cases hlast
  | cons q ids ih =>
    have hnodup := h.nodup
    obtain ⟨rfl, hr, h⟩ := h
    refine ⟨rfl, ⟨hr.1, hr.2.trans_le (Int.ofNat_le.mpr hnum)⟩, ?_⟩
    cases ids with
    | nil =>
      cases hlast
      exact ⟨hnext, hp, hend⟩
    | cons q' ids =>
      rw [List.getLast?_cons_cons] at hlast
      have hmem : last ∈ q' :: ids := List.mem_of_getLast? hlast
      have hne : cur ≠ last := fun e => (List.nodup_cons.mp hnodup).1 (e ▸ hmem)
      rw [hother cur List.mem_cons_self hne]
      exact ih h hlast fun x hx => hother x (List.mem_cons_of_mem _ hx)

theorem chainEntries_congr {tupleSize : Nat}
    (h : ∀ p ∈ ids, pageEntries tupleSize p (m'.contents p) = pageEntries tupleSize p (m.contents p)) :
    chainEntries m' tupleSize ids = chainEntries m tupleSize ids := by
  unfold chainEntries
  exact List.flatMap_congr h

structure Extends (m : PageMap HeapPage) (ids : List PageId) (m' : PageMap HeapPage) (ids' : List PageId) :
    Prop where
  numPages_le : m.numPages ≤ m'.numPages
  contents_eq : ∀ p : PageId, p < m.numPages → p ∉ ids → m'.contents p = m.contents p
  ids_new : ∀ p ∈ ids', p ∈ ids ∨ (m.numPages : PageId) ≤ p

theorem Extends.trans {m₁ m₂ : PageMap HeapPage} {ids₁ ids₂ : List PageId} (h : Extends m ids m₁ ids₁)
    (h' : Extends m₁ ids₁ m₂ ids₂) : Extends m ids m₂ ids₂ := by
  have hle : (m.numPages : PageId) ≤ m₁.numPages := Int.ofNat_le.mpr h.numPages_le
  refine ⟨h.numPages_le.trans h'.numPages_le, fun p hp hids => ?_, fun p hp => ?_⟩
  · have hids₁ : p ∉ ids₁ := fun hmem => (h.ids_new p hmem).elim hids hp.not_ge
    rw [h'.contents_eq p (hp.trans_le hle) hids₁, h.contents_eq p hp hids]
  · rcases h'.ids_new p hp with hp | hp
    · exact h.ids_new p hp
    · exact Or.inr (hle.trans hp)

theorem Represents.congr (h : Represents m hf ids) (hnum : m.numPages ≤ m'.numPages)
    (heq : ∀ p ∈ ids, m'.contents p = m.contents p) :
    Represents m' hf ids ∧ entries m' hf ids = entries m hf ids := by
  refine ⟨⟨h.chain.congr hnum fun p hp => ?_, fun p hp => ?_, h.last⟩, ?_⟩
  · rw [heq p hp]
  · rw [heq p hp]
    exact h.fits p hp
  · exact chainEntries_congr fun p hp => by rw [heq p hp]

theorem Represents.frame {other other' : List PageId} (h : Represents m hf ids) (hext : Extends m other m' other')
    (hdis : ids.Disjoint other) : Represents m' hf ids ∧ rows m' hf ids = rows m hf ids := by
  have heq (p : PageId) (hp : p ∈ ids) : m'.contents p = m.contents p :=
    hext.contents_eq p (h.chain.range p hp).2 (hdis hp)
  obtain ⟨hrep, hentries⟩ := h.congr hext.numPages_le heq
  refine ⟨hrep, ?_⟩
  rw [← map_snd_entries, hentries, map_snd_entries]

structure Appended (m : PageMap HeapPage) (hf : HeapFile) (ids : List PageId) (more : List (RID × Tuple))
    (m' : PageMap HeapPage) (hf' : HeapFile) (ids' : List PageId) : Prop where
  schema_eq : hf'.schema = hf.schema
  first_eq : hf'.firstPageId = hf.firstPageId
  represents : Represents m' hf' ids'
  entries_eq : entries m' hf' ids' = entries m hf ids ++ more
  extends_ : Extends m ids m' ids'

theorem Appended.trans {m₁ m₂ : PageMap HeapPage} {hf₁ hf₂ : HeapFile} {ids₁ ids₂ : List PageId}
    {more more' : List (RID × Tuple)} (h : Appended m hf ids more m₁ hf₁ ids₁)
    (h' : Appended m₁ hf₁ ids₁ more' m₂ hf₂ ids₂) : Appended m hf ids (more ++ more') m₂ hf₂ ids₂ where
  schema_eq := h'.schema_eq.trans h.schema_eq
  first_eq := h'.first_eq.trans h.first_eq
  represents := h'.represents
  entries_eq := by rw [h'.entries_eq, h.entries_eq, List.append_assoc]
  extends_ := h.extends_.trans h'.extends_

theorem Appended.rows_eq {hf' : HeapFile} {ids' : List PageId} {more : List (RID × Tuple)}
    (h : Appended m hf ids more m' hf' ids') : rows m' hf' ids' = rows m hf ids ++ more.map Prod.snd := by
  rw [← map_snd_entries, h.entries_eq, List.map_append, map_snd_entries]

theorem put_slot {d : HeapPage} {tupleSize : Nat} {tuple : Tuple} (ht : tuple.length = tupleSize)
    (hroom : (d.numTuples + 1) * tupleSize ≤ pageSize - heapHeaderSize) (p : PageId) :
    ∃ d', d.put (tupleSlot d.numTuples tupleSize) tuple = some d' ∧ d'.nextPageId = d.nextPageId ∧
      Fits tupleSize { d' with numTuples := d.numTuples + 1 } ∧
      pageEntries tupleSize p { d' with numTuples := d.numTuples + 1 } =
        pageEntries tupleSize p d ++ [(⟨p, d.numTuples⟩, tuple)] := by
  have hend : tupleSlot d.numTuples tupleSize + tuple.length ≤ pageSize - heapHeaderSize := by
    rw [ht, tupleSlot, ← Nat.succ_mul]
    exact hroom
  have hlen : tupleSlot d.numTuples tupleSize + tuple.length ≤ d.bytes.length := d.length_eq ▸ hend
  refine ⟨_, dif_pos hend, rfl, hroom, ?_⟩
  unfold pageEntries
  rw [List.range_succ, List.map_append, List.map_singleton]
  congr 1
  · refine List.map_congr_left fun slot hslot => ?_
    have hbefore : (slot + 1) * tupleSize ≤ d.numTuples * tupleSize :=
      Nat.mul_le_mul_right _ (List.mem_range.mp hslot)
    rw [Nat.succ_mul] at hbefore
    exact congrArg (Prod.mk _) (slice_splice_of_disjoint hlen (Or.inl hbefore))
  · have hself := slice_splice_self hlen
    rw [ht] at hself
    rw [hself]

theorem insertAt_ok (hfetch : m.pins hf.lastPageId ≠ 0 ∨ m.free ≠ 0) {tuple : Tuple} (ht : tuple.length = hf.schema.getTupleSize)
    {d : HeapPage} (hput : (m.contents hf.lastPageId).put
      (tupleSlot (m.contents hf.lastPageId).numTuples hf.schema.getTupleSize) tuple = some d) :
    insertAt store hf hf.lastPageId tuple (m.pin hf.lastPageId) =
      .ok (some ⟨hf.lastPageId, (m.contents hf.lastPageId).numTuples⟩, hf)
        (m.put hf.lastPageId { d with numTuples := (m.contents hf.lastPageId).numTuples + 1 }) := by
  rw [insertAt, bind_ok (readData_pin rfl), if_neg ht.not_lt, List.take_of_length_le ht.le, hput]
  dsimp only
  rw [bind_ok (writeData_ok _ _ _), bind_ok (unpin_write_pin hfetch _)]
  rfl

theorem allocateHeapPage_none (hfree : m.free = 0) : allocateHeapPage store m = .ok none m := by
  rw [allocateHeapPage, bind_ok (newPage_none hfree)]
  rfl

theorem allocateHeapPage_ok (hwf : m.WF) (hfree : m.free ≠ 0) :
    allocateHeapPage store m = .ok (some (m.numPages : PageId)) (m.grow { (0 : HeapPage) with nextPageId := invalidPageId }) := by
  rw [allocateHeapPage, bind_ok (newPage_ok hfree)]
  dsimp only
  have hread : store.readData (m.numPages : PageId) m.alloc = .ok (0 : HeapPage) m.alloc :=
    congrArg (EStateM.Result.ok · _) (Function.update_self ..)
  rw [bind_ok hread, bind_ok (writeData_ok _ _ _), bind_ok (unpin_alloc hwf hfree _)]
  rfl

theorem create_ok (hwf : m.WF) (hfree : m.free ≠ 0) (schema : Schema) :
    create store schema m = .ok ⟨schema, m.numPages, m.numPages⟩
      (m.grow { (0 : HeapPage) with nextPageId := invalidPageId }) := by
  rw [create, bind_ok (allocateHeapPage_ok hwf hfree)]
  rfl

theorem maxTuplesPerPage_ok {schema : Schema} (h : 0 < schema.getTupleSize) :
    maxTuplesPerPage schema = .ok ((pageSize - heapHeaderSize) / schema.getTupleSize) := by
  rw [maxTuplesPerPage, if_neg h.ne']
  rfl

theorem Represents.last_mem (h : Represents m hf ids) : hf.lastPageId ∈ ids := List.mem_of_getLast? h.last

theorem Represents.last_range (h : Represents m hf ids) : 0 ≤ hf.lastPageId ∧ hf.lastPageId < m.numPages :=
  h.chain.range _ h.last_mem

theorem Represents.entries_eq (h : Represents m hf ids) :
    entries m hf ids = chainEntries m hf.schema.getTupleSize ids.dropLast ++
      pageEntries hf.schema.getTupleSize hf.lastPageId (m.contents hf.lastPageId) := by
  conv_lhs => rw [entries, chainEntries, List.dropLast_append_getLast? _ h.last |>.symm]
  rw [List.flatMap_append, List.flatMap_singleton]
  rfl

theorem Represents.not_mem_dropLast (h : Represents m hf ids) : hf.lastPageId ∉ ids.dropLast := by
  have hnodup := h.chain.nodup
  rw [← List.dropLast_append_getLast? _ h.last] at hnodup
  exact fun hmem => (List.nodup_append.mp hnodup).2.2 _ hmem _ (List.mem_singleton_self _) rfl

theorem Represents.put_last (h : Represents m hf ids) {more : List (RID × Tuple)} {d : HeapPage}
    (hnext : d.nextPageId = (m.contents hf.lastPageId).nextPageId) (hfits : Fits hf.schema.getTupleSize d)
    (hmore : pageEntries hf.schema.getTupleSize hf.lastPageId d =
      pageEntries hf.schema.getTupleSize hf.lastPageId (m.contents hf.lastPageId) ++ more) :
    Appended m hf ids more (m.put hf.lastPageId d) hf ids := by
  have hself : (m.put hf.lastPageId d).contents hf.lastPageId = d := Function.update_self ..
  have hother (q : PageId) (hq : q ≠ hf.lastPageId) : (m.put hf.lastPageId d).contents q = m.contents q :=
    Function.update_of_ne hq _ _
  have hrep : Represents (m.put hf.lastPageId d) hf ids := by
    refine ⟨h.chain.congr le_rfl fun q _ => ?_, fun q hq => ?_, h.last⟩
    · by_cases hql : q = hf.lastPageId
      · rw [hql, hself, hnext]
      · rw [hother q hql]
    · by_cases hql : q = hf.lastPageId
      · rw [hql, hself]
        exact hfits
      · rw [hother q hql]
        exact h.fits q hq
  refine ⟨rfl, rfl, hrep, ?_, ⟨le_rfl, fun q _ hq => ?_, fun q hq => Or.inl hq⟩⟩
  · have hbefore : chainEntries (m.put hf.lastPageId d) hf.schema.getTupleSize ids.dropLast =
        chainEntries m hf.schema.getTupleSize ids.dropLast := by
      refine chainEntries_congr fun q hq => ?_
      rw [hother q fun e => h.not_mem_dropLast (e ▸ hq)]
    rw [hrep.entries_eq, hself, hbefore, hmore, ← List.append_assoc, ← h.entries_eq]
  · exact hother q fun e => hq (e ▸ h.last_mem)

def linked (m : PageMap HeapPage) (hf : HeapFile) : PageMap HeapPage :=
  (m.grow { (0 : HeapPage) with nextPageId := invalidPageId }).put hf.lastPageId
    { m.contents hf.lastPageId with nextPageId := m.numPages }

theorem contents_linked (h : Represents m hf ids) :
    (linked m hf).contents m.numPages = { (0 : HeapPage) with nextPageId := invalidPageId } :=
  (Function.update_of_ne h.last_range.2.ne' _ _).trans (Function.update_self ..)

theorem Represents.linked (h : Represents m hf ids) :
    Appended m hf ids [] (linked m hf) { hf with lastPageId := m.numPages } (ids ++ [(m.numPages : PageId)]) := by
  have hnew := contents_linked h
  have hlast : (HeapFile.linked m hf).contents hf.lastPageId =
      { m.contents hf.lastPageId with nextPageId := m.numPages } := Function.update_self ..
  have hother (q : PageId) (hq : q ≠ hf.lastPageId) (hqn : q ≠ m.numPages) :
      (HeapFile.linked m hf).contents q = m.contents q :=
    (Function.update_of_ne hq _ _).trans (Function.update_of_ne hqn _ _)
  have hold (q : PageId) (hq : q ∈ ids) : q ≠ m.numPages := (h.chain.range q hq).2.ne
  -- the old pages have their tuples
  have hpage (q : PageId) (hq : q ∈ ids) : (∀ ts, pageEntries ts q ((HeapFile.linked m hf).contents q) =
      pageEntries ts q (m.contents q)) ∧ ((HeapFile.linked m hf).contents q).numTuples = (m.contents q).numTuples := by
    by_cases hql : q = hf.lastPageId
    · rw [hql, hlast]
      exact ⟨fun _ => rfl, rfl⟩
    · rw [hother q hql (hold q hq)]
      exact ⟨fun _ => rfl, rfl⟩
  have hchain : PageChain (HeapFile.linked m hf) hf.firstPageId (ids ++ [(m.numPages : PageId)]) := by
    refine h.chain.concat h.last (Nat.le_succ _) ⟨Int.natCast_nonneg _, Int.ofNat_lt.mpr (Nat.lt_succ_self _)⟩
      (fun q hq hql => ?_) ?_ ?_
    · rw [hother q hql (hold q hq)]
    · rw [hlast]
    · rw [hnew]
  refine ⟨rfl, rfl, ⟨hchain, fun q hq => ?_, List.getLast?_concat⟩, ?_, ⟨Nat.le_succ _, fun q hq hqi => ?_, fun q hq => ?_⟩⟩
  · rcases List.mem_append.mp hq with hq | hq
    · rw [Fits, (hpage q hq).2]
      exact h.fits q hq
    · rw [List.mem_singleton.mp hq, hnew, Fits]
      exact (Nat.zero_mul _).trans_le (Nat.zero_le _)
  · change chainEntries (HeapFile.linked m hf) hf.schema.getTupleSize _ = _
    rw [chainEntries, List.flatMap_append, List.flatMap_singleton, hnew]
    exact congrArg (· ++ []) (chainEntries_congr fun q hq => (hpage q hq).1 _)
  · exact hother q (fun e => hqi (e ▸ h.last_mem)) hq.ne
  · rcases List.mem_append.mp hq with hq | hq
    · exact Or.inl hq
    · exact Or.inr (List.mem_singleton.mp hq).ge

theorem insertTuple_room (hfetch : m.pins hf.lastPageId ≠ 0 ∨ m.free ≠ 0) (h : Represents m hf ids)
    (hpos : 0 < hf.schema.getTupleSize) (tuple : Tuple)
    (hroom : (m.contents hf.lastPageId).numTuples < (pageSize - heapHeaderSize) / hf.schema.getTupleSize) :
    insertTuple store hf tuple m = insertAt store hf hf.lastPageId tuple (m.pin hf.lastPageId) := by
  rw [insertTuple, bind_ok (fetchPage_ok h.last_range hfetch)]
  dsimp only
  rw [bind_ok (readData_pin rfl), bind_ok (ofExcept_ok (maxTuplesPerPage_ok hpos) _), if_pos hroom]

theorem insertTuple_full (hwf : m.WF) (hfree : m.free ≠ 0) (h : Represents m hf ids)
    (hpos : 0 < hf.schema.getTupleSize) (tuple : Tuple)
    (hfull : ¬ (m.contents hf.lastPageId).numTuples < (pageSize - heapHeaderSize) / hf.schema.getTupleSize) :
    insertTuple store hf tuple m =
      insertAt store { hf with lastPageId := m.numPages } m.numPages tuple ((linked m hf).pin m.numPages) := by
  rw [insertTuple, bind_ok (fetchPage_ok h.last_range (Or.inr hfree))]
  dsimp only
  rw [bind_ok (readData_pin rfl), bind_ok (ofExcept_ok (maxTuplesPerPage_ok hpos) _), if_neg hfull,
    bind_ok (unpin_pin hwf (Or.inr hfree)), bind_ok (allocateHeapPage_ok hwf hfree)]
  dsimp only
  let m₁ := m.grow { (0 : HeapPage) with nextPageId := invalidPageId }
  have hfree₁ : m₁.free ≠ 0 := hfree
  have hlast₁ : 0 ≤ hf.lastPageId ∧ hf.lastPageId < m₁.numPages :=
    ⟨h.last_range.1, h.last_range.2.trans (Int.ofNat_lt.mpr (Nat.lt_succ_self _))⟩
  have hkeep : m₁.contents hf.lastPageId = m.contents hf.lastPageId :=
    Function.update_of_ne h.last_range.2.ne _ _
  rw [bind_ok (fetchPage_ok hlast₁ (Or.inr hfree₁))]
  dsimp only
  rw [bind_ok (readData_pin hkeep), bind_ok (writeData_ok _ _ _), bind_ok (unpin_write_pin (Or.inr hfree₁) _)]
  have hrange : 0 ≤ (m.numPages : PageId) ∧ (m.numPages : PageId) < (linked m hf).numPages :=
    ⟨Int.natCast_nonneg _, Int.ofNat_lt.mpr (Nat.lt_succ_self _)⟩
  have hfree₂ : (linked m hf).free ≠ 0 := hfree
  exact bind_ok (fetchPage_ok hrange (Or.inr hfree₂))

theorem insertTuple_rows (hwf : m.WF) (hfree : m.free ≠ 0) (h : Represents m hf ids)
    (hpos : 0 < hf.schema.getTupleSize) (hsize : hf.schema.getTupleSize ≤ pageSize - heapHeaderSize) {tuple : Tuple}
    (ht : tuple.length = hf.schema.getTupleSize) :
    ∃ rid hf' m' ids', insertTuple store hf tuple m = .ok (some rid, hf') m' ∧
      Appended m hf ids [(rid, tuple)] m' hf' ids' ∧ m'.pins = m.pins ∧ m'.free = m.free := by
  by_cases hroom : (m.contents hf.lastPageId).numTuples < (pageSize - heapHeaderSize) / hf.schema.getTupleSize
  · rw [insertTuple_room (Or.inr hfree) h hpos tuple hroom]
    obtain ⟨d, hput, hnext, hfits, hmore⟩ := put_slot ht ((Nat.le_div_iff_mul_le hpos).mp hroom) hf.lastPageId
    exact ⟨_, _, _, _, insertAt_ok (Or.inr hfree) ht hput, h.put_last hnext hfits hmore, rfl, rfl⟩
  · rw [insertTuple_full hwf hfree h hpos tuple hroom]
    have hnew := contents_linked h
    -- the new page is empty and has room for one tuple
    have hroom₂ : (((linked m hf).contents m.numPages).numTuples + 1) * hf.schema.getTupleSize ≤
        pageSize - heapHeaderSize := by
      rw [hnew]
      exact (Nat.one_mul _).le.trans hsize
    obtain ⟨d, hput, hnext, hfits, hmore⟩ := put_slot ht hroom₂ m.numPages
    let hf₂ : HeapFile := { hf with lastPageId := m.numPages }
    have ht₂ : tuple.length = hf₂.schema.getTupleSize := ht
    have hfree₂ : (linked m hf).free ≠ 0 := hfree
    have hlinked := h.linked
    exact ⟨_, _, _, _, insertAt_ok (Or.inr hfree₂) ht₂ hput, hlinked.trans (hlinked.represents.put_last hnext hfits hmore),
      rfl, rfl⟩

/-! ## Sizes that no page can hold -/

theorem create_represents (m : PageMap HeapPage) (schema : Schema) :
    Represents (m.grow { (0 : HeapPage) with nextPageId := invalidPageId }) ⟨schema, m.numPages, m.numPages⟩
      [(m.numPages : PageId)] := by
  have hnew : (m.grow { (0 : HeapPage) with nextPageId := invalidPageId }).contents m.numPages =
      { (0 : HeapPage) with nextPageId := invalidPageId } := Function.update_self ..
  refine ⟨⟨rfl, ⟨Int.natCast_nonneg _, Int.ofNat_lt.mpr (Nat.lt_succ_self _)⟩, ?_⟩, ?_, rfl⟩
  · rw [hnew]
    rfl
  · intro p hp
    rw [List.mem_singleton.mp hp, hnew, Fits]
    exact (Nat.zero_mul _).trans_le (Nat.zero_le _)

theorem rows_create (m : PageMap HeapPage) (schema : Schema) :
    rows (m.grow { (0 : HeapPage) with nextPageId := invalidPageId }) ⟨schema, m.numPages, m.numPages⟩
      [(m.numPages : PageId)] = [] := by
  have hnew : (m.grow { (0 : HeapPage) with nextPageId := invalidPageId }).contents m.numPages =
      { (0 : HeapPage) with nextPageId := invalidPageId } := Function.update_self ..
  rw [rows, chainRows, List.flatMap_singleton, hnew]
  rfl

theorem extends_grow (m : PageMap HeapPage) (d : HeapPage) : Extends m [] (m.grow d) [(m.numPages : PageId)] where
  numPages_le := Nat.le_succ _
  contents_eq _ hp _ := Function.update_of_ne hp.ne _ _
  ids_new _ hp := Or.inr (List.mem_singleton.mp hp).ge

theorem create_pool {n : Nat} {s : BufferPool HeapPage n} (hs : Holds s m) (hfree : m.free ≠ 0) (schema : Schema) :
    ∃ s', create BufferPool.store schema s = .ok ⟨schema, m.numPages, m.numPages⟩ s' ∧
      Holds s' (m.grow { (0 : HeapPage) with nextPageId := invalidPageId }) := by
  obtain ⟨_, s', hrun, rfl, hlive⟩ := (create_refines schema).ok (live_nil.mpr hs) (create_ok hs.wf hfree schema)
  exact ⟨s', hrun, live_nil.mp hlive⟩

theorem insertTuple_sizeZero (hfree : m.free ≠ 0) (h : Represents m hf ids) (hzero : hf.schema.getTupleSize = 0)
    (tuple : Tuple) : insertTuple store hf tuple m = .error .divisionByZero (m.pin hf.lastPageId) := by
  rw [insertTuple, bind_ok (fetchPage_ok h.last_range (Or.inr hfree))]
  dsimp only
  have hmax : maxTuplesPerPage hf.schema = .error .divisionByZero := if_pos hzero
  rw [bind_ok (readData_pin rfl), bind_error (ofExcept_error hmax _)]

theorem insertAt_outOfBounds {p : PageId} (tuple : Tuple) (hfar : pageSize - heapHeaderSize <
      tupleSlot (m.contents p).numTuples hf.schema.getTupleSize + hf.schema.getTupleSize) :
    insertAt store hf p tuple (m.pin p) = .error .outOfBounds (m.pin p) := by
  rw [insertAt, bind_ok (readData_pin rfl)]
  by_cases hshort : tuple.length < hf.schema.getTupleSize
  · rw [if_pos hshort]
    rfl
  · have hput : (m.contents p).put (tupleSlot (m.contents p).numTuples hf.schema.getTupleSize)
        (tuple.take hf.schema.getTupleSize) = none := by
      apply dif_neg
      rw [List.length_take, Nat.min_eq_left (Nat.not_lt.mp hshort)]
      exact Nat.not_le.mpr hfar
    rw [if_neg hshort, hput]
    rfl

theorem insertTuple_oversize (hwf : m.WF) (hfree : m.free ≠ 0) (h : Represents m hf ids)
    (hsize : pageSize - heapHeaderSize < hf.schema.getTupleSize) (tuple : Tuple) :
    ∃ m', insertTuple store hf tuple m = .error .outOfBounds m' := by
  have hmax : (pageSize - heapHeaderSize) / hf.schema.getTupleSize = 0 := Nat.div_eq_of_lt hsize
  have hfull : ¬ (m.contents hf.lastPageId).numTuples < (pageSize - heapHeaderSize) / hf.schema.getTupleSize := by
    rw [hmax]
    exact Nat.not_lt_zero _
  rw [insertTuple_full hwf hfree h (Nat.zero_lt_of_lt hsize) tuple hfull]
  exact ⟨_, insertAt_outOfBounds tuple (Nat.lt_add_left _ hsize)⟩

theorem insertTuple_returns (hwf : m.WF) (h : Represents m hf ids) (hpos : 0 < hf.schema.getTupleSize)
    (hsize : hf.schema.getTupleSize ≤ pageSize - heapHeaderSize) {tuple : Tuple}
    (ht : tuple.length = hf.schema.getTupleSize) : ∃ r m', insertTuple store hf tuple m = .ok r m' := by
  by_cases hfetch : m.pins hf.lastPageId ≠ 0 ∨ m.free ≠ 0
  · by_cases hroom : (m.contents hf.lastPageId).numTuples < (pageSize - heapHeaderSize) / hf.schema.getTupleSize
    · rw [insertTuple_room hfetch h hpos tuple hroom]
      obtain ⟨d, hput, -⟩ := put_slot ht ((Nat.le_div_iff_mul_le hpos).mp hroom) hf.lastPageId
      exact ⟨_, _, insertAt_ok hfetch ht hput⟩
    · by_cases hfree : m.free = 0
      · rw [insertTuple, bind_ok (fetchPage_ok h.last_range hfetch)]
        dsimp only
        rw [bind_ok (readData_pin rfl), bind_ok (ofExcept_ok (maxTuplesPerPage_ok hpos) _), if_neg hroom,
          bind_ok (unpin_pin hwf hfetch), bind_ok (allocateHeapPage_none hfree)]
        exact ⟨_, _, rfl⟩
      · obtain ⟨_, _, _, _, hrun, -⟩ := insertTuple_rows hwf hfree h hpos hsize ht
        exact ⟨_, _, hrun⟩
  · rw [insertTuple, bind_ok (fetchPage_none hfetch)]
    exact ⟨_, _, rfl⟩

end Insert

end MyDB.Storage.HeapFile

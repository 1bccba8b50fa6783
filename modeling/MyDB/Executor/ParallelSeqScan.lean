import MyDB.Lib.ClaimLoop
import MyDB.Storage.HeapRows
import MyDB.Storage.PoolReaders
import MyDB.Executor.Operator

/-! The workers of `ParallelSeqScan::Init`. Each takes the next page of the table
and runs `ScanPage` on it: the calls on the buffer pool and the reads of the slots
are the steps that interleave. -/

namespace MyDB.Executor.ParallelSeqScan
open MyDB.Lib MyDB.Lib.ClaimLoop MyDB.Storage MyDB.Storage.HeapFile
variable {frames : Nat}

/-- Where a worker stands in `ScanPage`. -/
inductive ScanPc (frames : Nat) where
  | fetch (pid : PageId)
  | count (pid : PageId) (page : Fin frames)
  | slot (pid : PageId) (page : Fin frames) (n slot : Nat)
  | fault (pid : PageId) (e : Fault)

inductive ScanStep (tupleSize : Nat) : BufferPool HeapPage frames → List Tuple → ScanPc frames →
    BufferPool HeapPage frames → List Tuple → Option (ScanPc frames) → Prop
  | fetch {s s' : BufferPool HeapPage frames} (out : List Tuple) {pid : PageId} {page : Fin frames}
      (h : BufferPool.store.fetchPage pid s = .ok (some page) s') :
      ScanStep tupleSize s out (.fetch pid) s' out (some (.count pid page))
  -- without a frame `ScanPage` returns, and the tuples of the page are missing
  | noFrame {s s' : BufferPool HeapPage frames} (out : List Tuple) {pid : PageId}
      (h : BufferPool.store.fetchPage pid s = .ok none s') :
      ScanStep tupleSize s out (.fetch pid) s' out none
  | fetchFault {s s' : BufferPool HeapPage frames} (out : List Tuple) {pid : PageId} {e : Fault}
      (h : BufferPool.store.fetchPage pid s = .error e s') :
      ScanStep tupleSize s out (.fetch pid) s' out (some (.fault pid e.inWorker))
  | count {s s' : BufferPool HeapPage frames} (out : List Tuple) {pid : PageId} {page : Fin frames} {d : HeapPage}
      (h : BufferPool.store.readData page s = .ok d s') :
      ScanStep tupleSize s out (.count pid page) s' out (some (.slot pid page d.numTuples 0))
  | slot {s s' : BufferPool HeapPage frames} (out : List Tuple) {pid : PageId} {page : Fin frames} {n slot : Nat}
      {d : HeapPage} {t : Tuple} (hslot : slot < n) (h : BufferPool.store.readData page s = .ok d s')
      (ht : slotTuple d tupleSize slot = .ok t) :
      ScanStep tupleSize s out (.slot pid page n slot) s' (out ++ [t]) (some (.slot pid page n (slot + 1)))
  | slotFault {s s' : BufferPool HeapPage frames} (out : List Tuple) {pid : PageId} {page : Fin frames}
      {n slot : Nat} {d : HeapPage} {e : Fault} (hslot : slot < n)
      (h : BufferPool.store.readData page s = .ok d s') (he : slotTuple d tupleSize slot = .error e) :
      ScanStep tupleSize s out (.slot pid page n slot) s' out (some (.fault pid e.inWorker))
  | unpin {s s' : BufferPool HeapPage frames} (out : List Tuple) {pid : PageId} {page : Fin frames} {n slot : Nat}
      {b : Bool} (hslot : n ≤ slot) (h : BufferPool.store.unpinPage pid false s = .ok b s') :
      ScanStep tupleSize s out (.slot pid page n slot) s' out none
  | unpinFault {s s' : BufferPool HeapPage frames} (out : List Tuple) {pid : PageId} {page : Fin frames}
      {n slot : Nat} {e : Fault} (hslot : n ≤ slot) (h : BufferPool.store.unpinPage pid false s = .error e s') :
      ScanStep tupleSize s out (.slot pid page n slot) s' out (some (.fault pid e.inWorker))

def scanTask (frames tupleSize : Nat) : Task PageId (BufferPool HeapPage frames) (List Tuple) (ScanPc frames) :=
  ⟨.fetch, ScanStep tupleSize⟩

/-! ## What the workers keep -/

def ScanPc.pid : ScanPc frames → PageId
  | .fetch pid | .count pid _ | .slot pid _ _ _ | .fault pid _ => pid

def ScanPc.held : ScanPc frames → Option (PageId × Fin frames)
  | .count pid page | .slot pid page _ _ => some (pid, page)
  | .fetch _ | .fault _ _ => none

section Invariant
variable (m₀ : PageMap HeapPage) (tupleSize : Nat)

def ScanPc.pending : ScanPc frames → Multiset Tuple
  | .fetch pid | .count pid _ => pageRows tupleSize (m₀.contents pid)
  | .slot pid _ _ k => ((pageRows tupleSize (m₀.contents pid)).drop k : List Tuple)
  | .fault _ _ => 0

def ScanPc.Sound : ScanPc frames → Prop
  | .fetch _ | .count _ _ => True
  | .slot pid _ n k => n = (m₀.contents pid).numTuples ∧ k ≤ n
  | .fault _ _ => False

variable {ι : Type}

def heldPages (pcs : ι → Option (ScanPc frames)) : ι → Option (PageId × Fin frames) :=
  fun i => (pcs i).bind ScanPc.held

structure ScanInv [Fintype ι] (lost : Multiset Tuple → Prop) (ids : List PageId) (next : Nat)
    (s : BufferPool HeapPage frames) (pcs : ι → Option (ScanPc frames)) (m : Multiset Tuple) : Prop where
  missing : lost m
  readers : Readers m₀ s (heldPages pcs)
  sound : ∀ i p, pcs i = some p → p.Sound m₀ ∧ p.pid ∈ ids.take next
  distinct : ∀ i j p q, pcs i = some p → pcs j = some q → p.pid = q.pid → i = j

end Invariant

section Steps
variable {ι : Type} {m₀ : PageMap HeapPage} {tupleSize : Nat} {pcs : ι → Option (ScanPc frames)}
  {i : ι} {p : ScanPc frames} {p' : Option (ScanPc frames)} {lost : Multiset Tuple → Prop}

theorem ScanInv.held {ids : List PageId} {next : Nat} {s : BufferPool HeapPage frames} {m : Multiset Tuple} [Fintype ι]
    (h : ScanInv m₀ lost ids next s pcs m) (hi : pcs i = some p)
    {x : PageId × Fin frames} (hp : p.held = some x) :
    heldPages pcs i = some x ∧ BufferPool.store.readData x.2 s = .ok (m₀.contents x.1) s := by
  have hheld : heldPages pcs i = some x := by
    rw [heldPages, hi]
    exact hp
  exact ⟨hheld, h.readers.read hheld⟩

theorem heldPages_fetch {pid : PageId} (hi : pcs i = some (.fetch pid)) : heldPages pcs i = none := by
  rw [heldPages, hi]
  rfl

variable [DecidableEq ι]

theorem heldPages_update : heldPages (Function.update pcs i p') =
    Function.update (heldPages pcs) i (p'.bind ScanPc.held) :=
  Function.comp_update (fun p : Option (ScanPc frames) => p.bind ScanPc.held) pcs i p'

variable [Fintype ι] {ids : List PageId} {next : Nat} {s s' : BufferPool HeapPage frames}

theorem ScanInv.advance {m m' : Multiset Tuple} {lost' : Multiset Tuple → Prop} (h : ScanInv m₀ lost ids next s pcs m) (hi : pcs i = some p)
    (hreaders : Readers m₀ s' (Function.update (heldPages pcs) i (p'.bind ScanPc.held)))
    (hp : ∀ q, p' = some q → q.Sound m₀ ∧ q.pid = p.pid) (hm : lost' m') :
    ScanInv m₀ lost' ids next s' (Function.update pcs i p') m' := by
  have hcase {j : ι} {q : ScanPc frames} (hj : Function.update pcs i p' j = some q) :
      (j = i ∧ p' = some q) ∨ (j ≠ i ∧ pcs j = some q) := by
    by_cases hji : j = i
    · rw [hji, Function.update_self] at hj
      exact Or.inl ⟨hji, hj⟩
    · rw [Function.update_of_ne hji] at hj
      exact Or.inr ⟨hji, hj⟩
  -- the page of each worker is the one it had
  have hbefore {j : ι} {q : ScanPc frames} (hj : Function.update pcs i p' j = some q) :
      ∃ q₀, pcs j = some q₀ ∧ q.pid = q₀.pid := by
    rcases hcase hj with ⟨rfl, hq⟩ | ⟨-, hq⟩
    · exact ⟨p, hi, (hp q hq).2⟩
    · exact ⟨q, hq, rfl⟩
  refine ⟨hm, ?_, fun j q hj => ?_, fun j k q r hj hk hqr => ?_⟩
  · rw [heldPages_update]
    exact hreaders
  · obtain ⟨q₀, hq₀, hpid⟩ := hbefore hj
    refine ⟨?_, hpid ▸ (h.sound j q₀ hq₀).2⟩
    rcases hcase hj with ⟨-, hq⟩ | ⟨-, hq⟩
    · exact (hp q hq).1
    · exact (h.sound j q hq).1
  · obtain ⟨q₀, hq₀, hq⟩ := hbefore hj
    obtain ⟨r₀, hr₀, hr⟩ := hbefore hk
    exact h.distinct j k q₀ r₀ hq₀ hr₀ (hq.symm.trans (hqr.trans hr))

theorem held_pid {x : PageId × Fin frames} (h : p.held = some x) : x.1 = p.pid := by
  cases p with
  | fetch pid => cases h
  | fault pid e => cases h
  | count pid page =>
    cases h
    rfl
  | slot pid page n k =>
    cases h
    rfl

theorem ScanInv.fetch {m : Multiset Tuple} (h : ScanInv m₀ lost ids next s pcs m) {pid : PageId}
    (hi : pcs i = some (.fetch pid)) (hrange : ∀ p ∈ ids, 0 ≤ p ∧ p < m₀.numPages) :
    (∃ page s', BufferPool.store.fetchPage pid s = .ok (some page) s' ∧
      Readers m₀ s' (Function.update (heldPages pcs) i (some (pid, page))) ∧
      ¬ (m₀.pins pid = 0 ∧ ∑ j, frameOf m₀ (heldPages pcs j) = m₀.free)) ∨
    ∃ s', BufferPool.store.fetchPage pid s = .ok none s' ∧ Readers m₀ s' (heldPages pcs) ∧ m₀.pins pid = 0 ∧
      ∑ j, frameOf m₀ (heldPages pcs j) = m₀.free := by
  refine h.readers.fetch_cases (heldPages_fetch hi) (fun j x hj hx => ?_)
    (hrange pid (List.mem_of_mem_take (h.sound i _ hi).2))
  obtain ⟨q, hq, hheld⟩ := Option.bind_eq_some_iff.mp hj
  obtain rfl := h.distinct j i q _ hq hi ((held_pid hheld).symm.trans hx)
  rw [hi] at hq
  cases hq
  cases hheld

theorem ScanInv.readers_same {m : Multiset Tuple} (h : ScanInv m₀ lost ids next s pcs m) {x : PageId × Fin frames}
    (hheld : heldPages pcs i = some x) : Readers m₀ s (Function.update (heldPages pcs) i (some x)) := by
  rw [← hheld, Function.update_eq_self]
  exact h.readers

theorem ScanInv.claim {m : Multiset Tuple} (h : ScanInv m₀ lost ids next s pcs m) (hnodup : ids.Nodup) {pid : PageId}
    (hpid : ids[next]? = some pid) (hi : pcs i = none) :
    ScanInv m₀ lost ids (next + 1) s (Function.update pcs i (some (.fetch pid))) m := by
  have hnew : pid ∉ ids.take next := by
    intro hmem
    obtain ⟨k, hk, hkpid⟩ := List.mem_iff_getElem.mp hmem
    rw [List.length_take, lt_min_iff] at hk
    rw [List.getElem_take, ← Option.some.injEq, ← List.getElem?_eq_getElem hk.2, ← hpid] at hkpid
    exact hk.1.ne ((List.getElem?_inj hk.2 hnodup).mp hkpid)
  have hnone : heldPages pcs i = none := by
    rw [heldPages, hi]
    rfl
  have hcase {j : ι} {q : ScanPc frames} (hj : Function.update pcs i (some (.fetch pid)) j = some q) :
      (j = i ∧ q = .fetch pid) ∨ (pcs j = some q ∧ q.pid ≠ pid) := by
    by_cases hji : j = i
    · rw [hji, Function.update_self] at hj
      exact Or.inl ⟨hji, (Option.some.inj hj).symm⟩
    · rw [Function.update_of_ne hji] at hj
      exact Or.inr ⟨hj, fun e => hnew (e ▸ (h.sound j q hj).2)⟩
  refine ⟨h.missing, ?_, fun j q hj => ?_, fun j k q r hj hk hqr => ?_⟩
  · rw [heldPages_update]
    change Readers m₀ s (Function.update (heldPages pcs) i none)
    rw [← hnone, Function.update_eq_self]
    exact h.readers
  · rcases hcase hj with ⟨-, rfl⟩ | ⟨hj, -⟩
    · refine ⟨trivial, ?_⟩
      rw [List.take_add_one, hpid]
      exact List.mem_append_right _ (List.mem_singleton_self pid)
    · exact ⟨(h.sound j q hj).1, List.take_subset_take_left _ (Nat.le_succ _) (h.sound j q hj).2⟩
  · rcases hcase hj with ⟨rfl, rfl⟩ | ⟨hj, hq⟩
    · rcases hcase hk with ⟨rfl, -⟩ | ⟨-, hr⟩
      · rfl
      · exact absurd hqr.symm hr
    · rcases hcase hk with ⟨-, rfl⟩ | ⟨hk, -⟩
      · exact absurd hqr hq
      · exact h.distinct j k q r hj hk hqr

theorem append_drop_pageRows {d : HeapPage} {slot : Nat} (hfits : Fits tupleSize d) (hslot : slot < d.numTuples)
    {t : Tuple} (ht : slotTuple d tupleSize slot = .ok t) (out : List Tuple) :
    ((out ++ [t] : List Tuple) : Multiset Tuple) + ((pageRows tupleSize d).drop (slot + 1) : List Tuple) =
      out + ((pageRows tupleSize d).drop slot : List Tuple) := by
  obtain ⟨t', ht', hdrop⟩ := drop_pageRows hfits hslot
  cases ht.symm.trans ht'
  rw [hdrop, Multiset.coe_add, Multiset.coe_add, List.append_assoc]
  rfl

theorem scanAccounts (hwf : m₀.WF) (hnodup : ids.Nodup) (hrange : ∀ p ∈ ids, 0 ≤ p ∧ p < m₀.numPages)
    (hfits : ∀ p ∈ ids, Fits tupleSize (m₀.contents p))
    (hlost : ∀ next s (pcs : ι → Option (ScanPc frames)) m i pid, ScanInv m₀ lost ids next s pcs m →
      pcs i = some (.fetch pid) → m₀.pins pid = 0 → ∑ j, frameOf m₀ (heldPages pcs j) = m₀.free →
      lost (m + (pageRows tupleSize (m₀.contents pid) : Multiset Tuple))) :
    Accounts (scanTask frames tupleSize) ids (fun pid => (pageRows tupleSize (m₀.contents pid) : Multiset Tuple))
      (fun out : List Tuple => (out : Multiset Tuple)) (ScanPc.pending m₀ tupleSize)
      (ScanInv m₀ lost ids : _ → _ → (ι → Option (ScanPc frames)) → _ → Prop) where
  start := by
    rintro next s pcs m i pid hpid h hi
    exact ⟨h.claim hnodup hpid hi, rfl⟩
  finish := by
    rintro next s pcs m hlen h
    refine ⟨h.missing, h.readers, fun i p hi => ⟨(h.sound i p hi).1, ?_⟩, h.distinct⟩
    exact List.take_subset_take_left _ (Nat.le_succ _) (h.sound i p hi).2
  step := by
    rintro next s pcs m i out p s' out' p' h hi hs
    obtain ⟨hsound, hclaimed⟩ := h.sound i p hi
    have hid : p.pid ∈ ids := List.mem_of_mem_take hclaimed
    cases hs with
    | fetch _ hf =>
      rcases h.fetch hi hrange with ⟨page', s'', hf', hreaders, -⟩ | ⟨s'', hf', -⟩
      · cases hf.symm.trans hf'
        refine ⟨m, h.advance hi hreaders (fun q hq => ?_) h.missing, rfl⟩
        cases hq
        exact ⟨trivial, rfl⟩
      · cases hf.symm.trans hf'
    | @noFrame _ _ pid hf =>
      rcases h.fetch hi hrange with ⟨page', s'', hf', -⟩ | ⟨s'', hf', hreaders, hpins, hall⟩
      · cases hf.symm.trans hf'
      · cases hf.symm.trans hf'
        refine ⟨_, h.advance hi ?_ nofun (hlost _ _ _ _ i _ h hi hpins hall), ?_⟩
        · change Readers m₀ s' (Function.update (heldPages pcs) i none)
          rw [← heldPages_fetch hi, Function.update_eq_self]
          exact hreaders
        · change m + (pageRows tupleSize (m₀.contents pid) : Multiset Tuple) + ((out : Multiset Tuple) + 0) = _
          rw [add_zero, add_assoc, add_comm (pageRows tupleSize _ : Multiset Tuple)]
          rfl
    | fetchFault _ hf =>
      rcases h.fetch hi hrange with ⟨page', s'', hf', -⟩ | ⟨s'', hf', -⟩
      · cases hf.symm.trans hf'
      · cases hf.symm.trans hf'
    | count _ hd =>
      obtain ⟨hheld, hread⟩ := h.held hi rfl
      cases hd.symm.trans hread
      refine ⟨m, h.advance hi (h.readers_same hheld) (fun q hq => ?_) h.missing, rfl⟩
      cases hq
      exact ⟨⟨rfl, Nat.zero_le _⟩, rfl⟩
    | slot _ hslot hd ht =>
      obtain ⟨hheld, hread⟩ := h.held hi rfl
      cases hd.symm.trans hread
      refine ⟨m, h.advance hi (h.readers_same hheld) (fun q hq => ?_) h.missing, ?_⟩
      · cases hq
        exact ⟨⟨hsound.1, hslot⟩, rfl⟩
      · exact congrArg (m + ·) (append_drop_pageRows (hfits _ hid) (hsound.1 ▸ hslot) ht out)
    | slotFault _ hslot hd he =>
      obtain ⟨hheld, hread⟩ := h.held hi rfl
      cases hd.symm.trans hread
      have hok := slotTuple_ok (hfits _ hid) (hsound.1 ▸ hslot)
      cases hok.symm.trans he
    | unpin _ hslot hu =>
      obtain ⟨hheld, -⟩ := h.held hi rfl
      obtain ⟨s'', hu', hreaders⟩ := h.readers.unpin hwf hheld
      cases hu.symm.trans hu'
      refine ⟨m, h.advance hi hreaders nofun h.missing, ?_⟩
      rw [ScanPc.pending, drop_pageRows_nil (hsound.1 ▸ hslot)]
      rfl
    | unpinFault _ hslot hu =>
      obtain ⟨hheld, -⟩ := h.held hi rfl
      obtain ⟨s'', hu', -⟩ := h.readers.unpin hwf hheld
      cases hu.symm.trans hu'

theorem slot_finishes (hwf : m₀.WF) {held : ι → Option (PageId × Fin frames)} (h : Readers m₀ s held)
    {pid : PageId} {page : Fin frames} (hheld : held i = some (pid, page))
    (hfits : Fits tupleSize (m₀.contents pid)) (left k : Nat) (hleft : k + left = (m₀.contents pid).numTuples)
    (out : List Tuple) :
    ∃ s' out', (scanTask frames tupleSize).Finishes s out (.slot pid page (m₀.contents pid).numTuples k) s' out' := by
  induction left generalizing k out with
  | zero =>
    obtain ⟨s', hu, -⟩ := h.unpin hwf hheld
    exact ⟨s', out, .last (.unpin out hleft.ge hu)⟩
  | succ left ih =>
    have hlt : k < (m₀.contents pid).numTuples := by omega
    obtain ⟨t, ht, -⟩ := drop_pageRows hfits hlt
    obtain ⟨s', out', hf⟩ := ih (k + 1) (by omega) (out ++ [t])
    exact ⟨s', out', .more (.slot out hlt (h.read hheld) ht) hf⟩

theorem count_finishes (hwf : m₀.WF) {held : ι → Option (PageId × Fin frames)} (h : Readers m₀ s held)
    {pid : PageId} {page : Fin frames} (hheld : held i = some (pid, page))
    (hfits : Fits tupleSize (m₀.contents pid)) (out : List Tuple) :
    ∃ s' out', (scanTask frames tupleSize).Finishes s out (.count pid page) s' out' := by
  obtain ⟨s', out', hf⟩ := slot_finishes hwf h hheld hfits _ 0 (Nat.zero_add _) out
  exact ⟨s', out', .more (.count out (h.read hheld)) hf⟩

end Steps

/-! ## The operator -/

section Runs
variable {n : Nat} {m₀ : PageMap HeapPage} {hf : HeapFile} {ids : List PageId} {s : BufferPool HeapPage frames}

theorem scan_run (hs : Holds s m₀) (hnodup : ids.Nodup) (hrange : ∀ p ∈ ids, 0 ≤ p ∧ p < m₀.numPages)
    {tupleSize : Nat} (hfits : ∀ p ∈ ids, Fits tupleSize (m₀.contents p)) (lost : Multiset Tuple → Prop) (hzero : lost 0)
    (hlost : ∀ next s (pcs : Fin n → Option (ScanPc frames)) m i pid, ScanInv m₀ lost ids next s pcs m →
      pcs i = some (.fetch pid) → m₀.pins pid = 0 → ∑ j, frameOf m₀ (heldPages pcs j) = m₀.free →
      lost (m + (pageRows tupleSize (m₀.contents pid) : Multiset Tuple)))
    {c : Threads (Fin n) (Shared (BufferPool HeapPage frames)) (Worker (List Tuple) (ScanPc frames))}
    (hrun : Threads.Run (Step (scanTask frames tupleSize) ids) (start s []) c) :
    ∃ m, Accounted ids (fun pid => (pageRows tupleSize (m₀.contents pid) : Multiset Tuple))
      (fun out : List Tuple => (out : Multiset Tuple)) (ScanPc.pending m₀ tupleSize) (ScanInv m₀ lost ids) c m := by
  refine accounted_run (scanAccounts hs.wf hnodup hrange hfits hlost) ?_ rfl hrun
  exact ⟨hzero, readers_start hs, nofun, nofun⟩

theorem scan_finishes (hs : Holds s m₀) (hnodup : ids.Nodup) (hrange : ∀ p ∈ ids, 0 ≤ p ∧ p < m₀.numPages)
    {tupleSize : Nat} (hfits : ∀ p ∈ ids, Fits tupleSize (m₀.contents p))
    (c : Threads (Fin n) (Shared (BufferPool HeapPage frames)) (Worker (List Tuple) (ScanPc frames)))
    (hrun : Threads.Run (Step (scanTask frames tupleSize) ids) (start s []) c) (i : Fin n) (out : List Tuple)
    (p : ScanPc frames) (hi : c.locals i = ⟨out, .busy p⟩) :
    ∃ s' out', (scanTask frames tupleSize).Finishes c.shared.state out p s' out' := by
  obtain ⟨m, hacc⟩ := scan_run hs hnodup hrange hfits (fun _ => True) trivial (fun _ _ _ _ _ _ _ _ _ _ => trivial) hrun
  have hp : busy c.locals i = some p := by
    rw [busy, hi]
    rfl
  obtain ⟨hsound, hclaimed⟩ := hacc.inv.sound i p hp
  have hfits := hfits _ (List.mem_of_mem_take hclaimed)
  cases p with
  | fetch pid =>
    rcases hacc.inv.fetch hp hrange with ⟨page, s', hfetch, hreaders, -⟩ | ⟨s', hfetch, -⟩
    · obtain ⟨s'', out', hfin⟩ := count_finishes hs.wf hreaders (Function.update_self ..) hfits out
      exact ⟨s'', out', .more (.fetch out hfetch) hfin⟩
    · exact ⟨s', out, .last (.noFrame out hfetch)⟩
  | count pid page => exact count_finishes hs.wf hacc.inv.readers (hacc.inv.held hp rfl).1 hfits out
  | slot pid page k slot =>
    obtain ⟨rfl, hle⟩ := hsound
    exact slot_finishes hs.wf hacc.inv.readers (hacc.inv.held hp rfl).1 hfits _ slot (Nat.add_sub_of_le hle) out
  | fault pid e => exact hsound.elim

theorem scan_completes (hs : Holds s m₀) (hnodup : ids.Nodup) (hrange : ∀ p ∈ ids, 0 ≤ p ∧ p < m₀.numPages)
    {tupleSize : Nat} (hfits : ∀ p ∈ ids, Fits tupleSize (m₀.contents p))
    {c : Threads (Fin n) (Shared (BufferPool HeapPage frames)) (Worker (List Tuple) (ScanPc frames))}
    (hrun : Threads.Run (Step (scanTask frames tupleSize) ids) (start s []) c) :
    ∃ c', Threads.Run (Step (scanTask frames tupleSize) ids) c c' ∧ ∀ i, (c'.locals i).pc = .done :=
  Threads.Run.all_done (fun w => w.pc = .done) (run_alone (scan_finishes hs hnodup hrange hfits)) hrun

theorem scan_run_all (hs : Holds s m₀) (h : Represents m₀ hf ids) (hfree : n ≤ m₀.free)
    {c : Threads (Fin n) (Shared (BufferPool HeapPage frames)) (Worker (List Tuple) (ScanPc frames))}
    (hrun : Threads.Run (Step (scanTask frames hf.schema.getTupleSize) ids) (start s []) c) :
    ∃ m, Accounted ids (fun pid => (pageRows hf.schema.getTupleSize (m₀.contents pid) : Multiset Tuple))
      (fun out : List Tuple => (out : Multiset Tuple)) (ScanPc.pending m₀ hf.schema.getTupleSize)
      (ScanInv m₀ (· = 0) ids) c m := by
  refine scan_run hs h.chain.nodup h.chain.range h.fits (· = 0) rfl (fun next s pcs m i pid _ hi _ hall => ?_) hrun
  have hlt : ∑ j, frameOf m₀ (heldPages pcs j) < Fintype.card (Fin n) := sum_frameOf_lt (heldPages_fetch hi)
  rw [Fintype.card_fin] at hlt
  omega

theorem scan_merged [NeZero n] (hs : Holds s m₀) (h : Represents m₀ hf ids) (hfree : n ≤ m₀.free)
    {c : Threads (Fin n) (Shared (BufferPool HeapPage frames)) (Worker (List Tuple) (ScanPc frames))}
    (hrun : Threads.Run (Step (scanTask frames hf.schema.getTupleSize) ids) (start s []) c)
    (hdone : ∀ i, (c.locals i).pc = .done) : (merged c).Perm (rows m₀ hf ids) := by
  obtain ⟨m, hacc⟩ := scan_run_all hs h hfree hrun
  have htotal := hacc.done hdone
  rw [hacc.inv.missing, zero_add, sum_map_coe, ← coe_merged] at htotal
  exact Multiset.coe_eq_coe.mp htotal

/-- For every heap file, any number of threads, and a pool with a frame for each
worker that the scan starts: no schedule is a dead end, no page is ever with two
workers, every page is claimed once and by one worker, and whatever the schedule,
draining `Next` gives the tuples of the table, each as often as `SeqScan` gives it. -/
theorem parallelSeqScan_rows (hs : Holds s m₀) (h : Represents m₀ hf ids) (nThreads : Nat) (hn : 0 < nThreads)
    (hfree : min nThreads ids.length ≤ s.unpinned) :
    ∃ scanned s₁ s₂, scan BufferPool.store hf pushBack [] s = .ok scanned s₁ ∧
      getPageIds BufferPool.store hf s = .ok ids s₂ ∧
      ∀ (c : Threads (Fin (min nThreads ids.length)) (Shared (BufferPool HeapPage frames))
          (Worker (List Tuple) (ScanPc frames))) (log : List (Fin (min nThreads ids.length) × PageId)),
        Claims (scanTask frames hf.schema.getTupleSize) ids (start s₂ []) c log →
        (∃ c', Threads.Run (Step (scanTask frames hf.schema.getTupleSize) ids) c c' ∧ ∀ i, (c'.locals i).pc = .done) ∧
        (∀ i j p q, busy c.locals i = some p → busy c.locals j = some q → p.pid = q.pid → i = j) ∧
        (log.map Prod.snd).Nodup ∧
        ((∀ i, (c.locals i).pc = .done) → (∀ p ∈ ids, ∃! i, (i, p) ∈ log) ∧
          ∃ out serial, Yields Buffer.next ⟨merged c, 0⟩ out ∧ Yields Buffer.next ⟨scanned, 0⟩ serial ∧
            out.Perm serial ∧ serial = rows m₀ hf ids) := by
  have hlen : 0 < ids.length := List.length_pos_of_mem h.last_mem
  have hworkers : 0 < min nThreads ids.length := lt_min hn hlen
  rw [← hs.free_eq] at hfree
  have hne : m₀.free ≠ 0 := (hworkers.trans_le hfree).ne'
  obtain ⟨scanned, s₁, hscan, rfl, -⟩ := (scan_refines hf pushBack []).ok (live_nil.mpr hs) (scan_rows hs.wf hne h)
  obtain ⟨ids', s₂, hids, rfl, hlive⟩ :=
    (getPageIds_refines hf).ok (live_nil.mpr hs) (getPageIds_rows hs.wf hne h)
  have hs₂ : Holds s₂ m₀ := live_nil.mp hlive
  refine ⟨_, s₁, s₂, hscan, hids, fun c log hclaims => ?_⟩
  have hrun := hclaims.run
  obtain ⟨m, hacc⟩ := scan_run_all hs₂ h hfree hrun
  have hitems := hclaims.items_eq
  refine ⟨scan_completes hs₂ h.chain.nodup h.chain.range h.fits hrun, hacc.inv.distinct, ?_, fun hdone => ⟨?_, ?_⟩⟩
  · rw [hitems]
    exact h.chain.nodup.sublist (List.take_sublist _ _)
  · rw [List.take_of_length_le (hacc.passed ⟨0, hworkers⟩ (hdone _))] at hitems
    exact fun p hp => existsUnique_claim h.chain.nodup hitems hp
  · have : NeZero (min nThreads ids'.length) := ⟨hworkers.ne'⟩
    exact ⟨_, _, Buffer.yields_drop _ 0, Buffer.yields_drop _ 0, scan_merged hs₂ h hfree hrun hdone, rfl⟩

end Runs

def twoPages : DiskManager HeapPage :=
  ⟨2, fun p => { (0 : HeapPage) with numTuples := 1, nextPageId := if p = 0 then 1 else invalidPageId }⟩

def twoPageTable : HeapFile := ⟨⟨[⟨lit "k", .int⟩]⟩, 0, 1⟩

theorem represents_twoPages : Represents (BufferPool.init 1 twoPages).view twoPageTable [0, 1] := by
  refine ⟨⟨rfl, by decide, rfl, by decide, rfl⟩, fun p _ => ?_, rfl⟩
  change 1 * 4 ≤ pageSize - heapHeaderSize
  decide

def pageOf (tuples : List Tuple) (nextPageId : PageId) : HeapPage :=
  { ((0 : HeapPage).put 0 tuples.flatten).getD 0 with numTuples := tuples.length, nextPageId }

def threePages : DiskManager HeapPage where
  numPages := 3
  pages p :=
    if p = 0 then pageOf [[10, 0, 0, 0], [11, 0, 0, 0]] 1
    else if p = 1 then pageOf [[12, 0, 0, 0]] 2
    else pageOf [[13, 0, 0, 0]] invalidPageId

def threePageTable : HeapFile := ⟨⟨[⟨lit "k", .int⟩]⟩, 0, 2⟩

theorem represents_threePages : Represents (BufferPool.init 2 threePages).view threePageTable [0, 1, 2] := by
  refine ⟨⟨rfl, by decide, by decide +kernel, by decide, by decide +kernel, by decide, ?_⟩, fun p hp => ?_, rfl⟩
  · change ((BufferPool.init 2 threePages).view.contents 2).nextPageId = invalidPageId
    decide +kernel
  · change ((BufferPool.init 2 threePages).view.contents p).numTuples * 4 ≤ pageSize - heapHeaderSize
    revert p
    decide +kernel

theorem parallelSeqScan_rows_smallPool :
    ∃ s₂, getPageIds BufferPool.store threePageTable (BufferPool.init 2 threePages) = .ok [0, 1, 2] s₂ ∧
      ∃ (c : Threads (Fin 2) (Shared (BufferPool HeapPage 2)) (Worker (List Tuple) (ScanPc 2)))
        (log : List (Fin 2 × PageId)),
        Claims (scanTask 2 4) [0, 1, 2] (start s₂ []) c log ∧ (∀ i, (c.locals i).pc = .done) ∧
        (∀ p ∈ [(0 : PageId), 1, 2], ∃! i, (i, p) ∈ log) ∧
        ∃ out, Yields Buffer.next ⟨merged c, 0⟩ out ∧
          out.Perm [[10, 0, 0, 0], [11, 0, 0, 0], [12, 0, 0, 0], [13, 0, 0, 0]] := by
  obtain ⟨scanned, s₁, s₂, hscan, hids, hruns⟩ :=
    parallelSeqScan_rows (holds_init threePages) represents_threePages 2 Nat.two_pos (by decide)
  obtain ⟨⟨c, hrun, hdone⟩, -⟩ := hruns (start s₂ []) [] .none
  obtain ⟨log, hclaims⟩ := exists_claims hrun
  obtain ⟨hpages, out, serial, hout, -, hperm, hserial⟩ := (hruns c log hclaims).2.2.2 hdone
  have hrows : rows (BufferPool.init 2 threePages).view threePageTable [0, 1, 2] =
      [[10, 0, 0, 0], [11, 0, 0, 0], [12, 0, 0, 0], [13, 0, 0, 0]] := by decide +kernel
  rw [hserial, hrows] at hperm
  exact ⟨s₂, hids, c, log, hclaims, hdone, hpages, out, hout, hperm⟩

end MyDB.Executor.ParallelSeqScan

import MyDB.Lib.Fallible
import MyDB.Storage.PageStore
import MyDB.Storage.Replacement

/-! Clients that use one page at a time. A pool of `n` frames then holds the `n` pages that
were used last, so a larger pool holds all that a smaller one does. -/

namespace MyDB.Storage
open BufferPool Lib

variable {D : Type} {n : Nat}

/-- A page is fetched and read, fetched and overwritten, or created, and then released. -/
inductive Access (D : Type) where
  | read (p : PageId)
  | write (p : PageId) (d : D)
  | create (d : D)

namespace Access

section Run
variable {σ Ptr : Type} (st : PageStore σ D Ptr)

/-- A page that has been handed out is read, overwritten if `d` says so, and released. -/
def release (p : PageId) (ptr : Ptr) : Option D → EStateM Fault σ D
  | none => do
    let old ← st.readData ptr
    let _ ← st.unpinPage p false
    return old
  | some d => do
    let old ← st.readData ptr
    st.writeData ptr d
    let _ ← st.unpinPage p true
    return old

/-- The calls of an access; the result is what the page held. -/
def run : Access D → EStateM Fault σ D
  | .read p => do
    let some ptr ← st.fetchPage p | throw .nullPointer
    release st p ptr none
  | .write p d => do
    let some ptr ← st.fetchPage p | throw .nullPointer
    release st p ptr (some d)
  | .create d => do
    let some (p, ptr) ← st.newPage | throw .nullPointer
    release st p ptr (some d)

end Run

def page (k : Nat) : Access D → PageId
  | .read p | .write p _ => p
  | .create _ => k

def grows : Access D → Nat
  | .read _ | .write _ _ => 0
  | .create _ => 1

def Valid (k : Nat) : Access D → Prop
  | .read p | .write p _ => 0 ≤ p ∧ p < k
  | .create _ => True

def missed (s : BufferPool D n) : Access D → Nat
  | .read p | .write p _ => if (s.lookup p).isNone then 1 else 0
  | .create _ => 0

end Access

def runAccesses {σ Ptr : Type} (st : PageStore σ D Ptr) : List (Access D) → EStateM Fault σ (List D)
  | [] => return []
  | a :: trace => do
    let d ← a.run st
    let ds ← runAccesses st trace
    return d :: ds

def usedPages (k : Nat) : List (Access D) → List PageId
  | [] => []
  | a :: trace => usedPages (k + a.grows) trace ++ [a.page k]

def ValidTrace (k : Nat) : List (Access D) → Prop
  | [] => True
  | a :: trace => a.Valid k ∧ ValidTrace (k + a.grows) trace

def missesOf [Zero D] (s : BufferPool D n) : List (Access D) → Nat
  | [] => 0
  | a :: trace => a.missed s + match a.run BufferPool.store s with
    | .ok _ s' => missesOf s' trace
    | .error _ _ => 0

/-! ## The order of the pages -/

namespace BufferPool
variable {s : BufferPool D n}

theorem RepInv.length_recent (h : RepInv none s) : s.recent.length + s.freeList.length = n := by
  have hdisjoint : (s.replacer.order ++ s.freeList).Nodup := by
    refine List.nodup_append.mpr ⟨s.replacer.order_nodup, h.free_nodup, fun f hf g hg hfg => ?_⟩
    obtain ⟨p, hp⟩ := (h.order_iff f).mp hf
    exact h.free_not_mapped g hg p (hfg ▸ hp)
  have hall : ∀ f, f ∈ s.replacer.order ++ s.freeList := by
    intro f
    rw [List.mem_append, h.order_iff]
    exact (h.free_or_mapped f (by simp)).symm
  have hcard : (s.replacer.order ++ s.freeList).length = n := by
    rw [← List.toFinset_card_of_nodup hdisjoint, Finset.eq_univ_of_forall fun f => List.mem_toFinset.mpr (hall f),
      Finset.card_univ, Fintype.card_fin]
  rwa [recent, List.length_map, ← List.length_append]

theorem Accessed.eq_take (h : RepInv none s) (hidle : ∀ p, s.pins p = 0) {p : PageId} {l : List PageId}
    (ha : Accessed s p l) : l = (touch p s.recent).take n := by
  have hlength := h.length_recent
  cases ha with
  | hit hp =>
    rw [List.take_of_length_le]
    exact (length_touch_of_mem hp).trans (Nat.le.intro hlength)
  | free hp hfree =>
    have hpos := List.length_pos_iff.mpr hfree
    rw [touch_of_not_mem hp, List.take_of_length_le]
    rw [List.length_cons]
    omega
  | @evict newer older v hp hfree hrecent hv holder =>
    have holder' : older = [] := List.eq_nil_iff_forall_not_mem.mpr fun w hw => (holder w hw).ne' (hidle w)
    subst holder'
    rw [hfree, hrecent, List.length_append] at hlength
    rw [touch_of_not_mem hp, hrecent, List.append_nil, ← List.cons_append]
    have hcons : (p :: newer).length = n := hlength
    rw [List.take_left' hcons]

theorem recent_setData (s : BufferPool D n) (f : Fin n) (d : D) : (s.setData f d).recent = s.recent := by
  refine recent_congr rfl fun g _ => ?_
  by_cases hg : g = f
  · simp [setData, hg]
  · simp [setData, hg]

theorem recent_unpinPage {s s' : BufferPool D n} {p : PageId} {dirty b : Bool}
    (hr : unpinPage p dirty s = .ok b s') : s'.recent = s.recent := by
  unfold unpinPage at hr
  split at hr
  · cases hr
    rfl
  · split_ifs at hr <;> cases hr
    · rfl
    · exact recent_unpinFrame ..

end BufferPool

/-! ## The abstract store -/

section Accesses
variable [Zero D]

def PageMap.access (m : PageMap D) : Access D → D × PageMap D
  | .read p => (m.contents p, m)
  | .write p d => (m.contents p, m.put p d)
  | .create d => (0, m.grow d)

theorem Access.run_pageMap {m : PageMap D} (hm : m.WF) (hfree : m.free ≠ 0) {a : Access D}
    (ha : a.Valid m.numPages) : a.run PageMap.store m = .ok (m.access a).1 (m.access a).2 := by
  cases a with
  | read p =>
    rw [Access.run, bind_ok (PageMap.fetchPage_ok ha (.inr hfree))]
    change release PageMap.store p p none _ = _
    rw [release, bind_ok (PageMap.readData_pin rfl), bind_ok (PageMap.unpin_pin hm (.inr hfree))]
    rfl
  | write p d =>
    rw [Access.run, bind_ok (PageMap.fetchPage_ok ha (.inr hfree))]
    change release PageMap.store p p (some d) _ = _
    rw [release, bind_ok (PageMap.readData_pin rfl), bind_ok (PageMap.writeData_ok _ p d),
      bind_ok (PageMap.unpin_write_pin (.inr hfree) d)]
    rfl
  | create d =>
    have hread : PageMap.store.readData (m.numPages : PageId) m.alloc = .ok (0 : D) m.alloc := by
      simp [PageMap.store, PageMap.alloc]
    rw [Access.run, bind_ok (PageMap.newPage_ok hfree)]
    change release PageMap.store (m.numPages : PageId) (m.numPages : PageId) (some d) _ = _
    rw [release, bind_ok hread, bind_ok (PageMap.writeData_ok _ _ d), bind_ok (PageMap.unpin_alloc hm hfree d)]
    rfl

theorem release_refines (p : PageId) (f : Fin n) (d : Option D) :
    RefinesStore [(p, f)] (Access.release BufferPool.store p f d) (Access.release PageMap.store p p d)
      fun x y s m => x = y ∧ Live [] s m := by
  cases d with
  | none =>
    refine readData_bind List.mem_cons_self fun old => unpinLast_bind fun _ => ?_
    exact Refines.pure fun s m h => ⟨rfl, h⟩
  | some d =>
    refine readData_bind List.mem_cons_self fun old => writeData_bind List.mem_cons_self (unpinLast_bind fun _ => ?_)
    exact Refines.pure fun s m h => ⟨rfl, h⟩

theorem Access.run_refines (a : Access D) :
    RefinesStore [] (a.run (BufferPool.store (D := D) (n := n))) (a.run PageMap.store)
      fun x y s m => x = y ∧ Live [] s m := by
  cases a with
  | read p => exact fetchPage_bind (refines_throw _) fun f => release_refines p f none
  | write p d => exact fetchPage_bind (refines_throw _) fun f => release_refines p f (some d)
  | create d => exact newPage_bind (refines_throw _) fun p f => release_refines p f (some d)

/-! ## Runs -/

theorem recent_release {s s' : BufferPool D n} {p : PageId} {f : Fin n} {d : Option D} {old : D}
    (hr : Access.release BufferPool.store p f d s = .ok old s') : s'.recent = s.recent := by
  cases d with
  | none =>
    obtain ⟨d₁, s₁, hread, hrest⟩ := run_bind_eq_ok.mp hr
    cases hread
    obtain ⟨b, s₂, hunpin, hpure⟩ := run_bind_eq_ok.mp hrest
    cases hpure
    exact recent_unpinPage hunpin
  | some d =>
    obtain ⟨d₁, s₁, hread, hwritten⟩ := run_bind_eq_ok.mp hr
    cases hread
    obtain ⟨u, s₂, hwrite, hrest⟩ := run_bind_eq_ok.mp hwritten
    cases hwrite
    obtain ⟨b, s₃, hunpin, hpure⟩ := run_bind_eq_ok.mp hrest
    cases hpure
    rw [recent_unpinPage hunpin, recent_setData]

theorem recent_run {s s' : BufferPool D n} (h : RepInv none s) {a : Access D} {old : D}
    (hr : a.run BufferPool.store s = .ok old s') : Accessed s (a.page s.disk.numPages) s'.recent := by
  cases a with
  | read p =>
    obtain ⟨r, s₁, hfetch, hr⟩ := run_bind_eq_ok.mp hr
    cases r with
    | none => cases hr
    | some f =>
      rw [recent_release hr]
      exact accessed_fetchPage h hfetch
  | write p d =>
    obtain ⟨r, s₁, hfetch, hr⟩ := run_bind_eq_ok.mp hr
    cases r with
    | none => cases hr
    | some f =>
      rw [recent_release hr]
      exact accessed_fetchPage h hfetch
  | create d =>
    obtain ⟨r, s₁, hnew, hr⟩ := run_bind_eq_ok.mp hr
    cases r with
    | none => cases hr
    | some r =>
      rw [recent_release hr]
      exact (accessed_newPage h hnew).2

/-- The results of a run on the abstract store, and how many of its accesses miss in a cache
of the `n` pages that were used last. -/
def PageMap.results (m : PageMap D) : List (Access D) → List D
  | [] => []
  | a :: trace => (m.access a).1 :: (m.access a).2.results trace

omit [Zero D] in
def coldMisses (n k : Nat) (log : List PageId) : List (Access D) → Nat
  | [] => 0
  | a :: trace => (if a.grows = 0 ∧ a.page k ∉ (recency log).take n then 1 else 0) +
      coldMisses n (k + a.grows) (a.page k :: log) trace

structure Caches (s : BufferPool D n) (m : PageMap D) (log : List PageId) : Prop where
  holds : Holds s m
  idle : ∀ p, m.pins p = 0
  recent_eq : s.recent = (recency log).take n

theorem Caches.run (hn : 0 < n) {s : BufferPool D n} {m : PageMap D} {log : List PageId} (h : Caches s m log)
    {a : Access D} (ha : a.Valid m.numPages) :
    ∃ s', a.run BufferPool.store s = .ok (m.access a).1 s' ∧
      Caches s' (m.access a).2 (a.page m.numPages :: log) := by
  have hpins (p : PageId) : s.pins p = 0 := (h.holds.pins_eq p).symm.trans (h.idle p)
  have hfree : m.free ≠ 0 := by
    rw [h.holds.free_eq, Ne, unpinned_eq_zero_iff]
    intro hall
    refine (hall ⟨0, hn⟩).ne' (h.holds.inv.unmapped_pin _ fun p hp => ?_)
    exact (hall ⟨0, hn⟩).ne' ((pins_of_lookup hp).symm.trans (hpins p))
  have habstract := a.run_pageMap h.holds.wf hfree ha
  obtain ⟨x, s', hrun, rfl, hlive⟩ := a.run_refines.ok (live_nil.mpr h.holds) habstract
  refine ⟨s', hrun, live_nil.mp hlive, ?_, ?_⟩
  · cases a <;> exact h.idle
  · have haccessed := recent_run h.holds.inv hrun
    rw [haccessed.eq_take h.holds.inv hpins, h.recent_eq, ← h.holds.numPages_eq, take_recency_cons]

omit [Zero D] in
theorem Caches.missed_eq {s : BufferPool D n} {m : PageMap D} {log : List PageId} (h : Caches s m log)
    (a : Access D) :
    a.missed s = if a.grows = 0 ∧ a.page m.numPages ∉ (recency log).take n then 1 else 0 := by
  have hresident (p : PageId) : (s.lookup p).isNone ↔ p ∉ (recency log).take n := by
    rw [← h.recent_eq, h.holds.inv.mem_recent, ← Option.isSome_iff_exists, Option.isNone_iff_eq_none,
      Bool.not_eq_true, Option.isSome_eq_false_iff, Option.isNone_iff_eq_none]
  cases a with
  | read p => simp [Access.missed, Access.grows, Access.page, hresident]
  | write p d => simp [Access.missed, Access.grows, Access.page, hresident]
  | create d => simp [Access.missed, Access.grows]

theorem PageMap.access_numPages (m : PageMap D) (a : Access D) :
    (m.access a).2.numPages = m.numPages + a.grows := by
  cases a <;> rfl

theorem Caches.runAccesses (hn : 0 < n) (trace : List (Access D)) {s : BufferPool D n} {m : PageMap D}
    {log : List PageId} (h : Caches s m log) (hvalid : ValidTrace m.numPages trace) :
    missesOf s trace = coldMisses n m.numPages log trace ∧
      ∃ s' m', runAccesses BufferPool.store trace s = .ok (m.results trace) s' ∧
        Caches s' m' (usedPages m.numPages trace ++ log) := by
  induction trace generalizing s m log with
  | nil => exact ⟨rfl, s, m, rfl, h⟩
  | cons a trace ih =>
    obtain ⟨s₁, hrun, hcaches⟩ := h.run hn hvalid.1
    have hrest := hvalid.2
    rw [← m.access_numPages a] at hrest
    obtain ⟨hmisses, s', m', hrun', hcaches'⟩ := ih hcaches hrest
    rw [m.access_numPages a] at hmisses hcaches'
    refine ⟨?_, s', m', ?_, ?_⟩
    · rw [missesOf, hrun, coldMisses, h.missed_eq]
      exact congrArg _ hmisses
    · rw [MyDB.Storage.runAccesses, bind_ok hrun, bind_ok hrun']
      rfl
    · rw [usedPages, List.append_assoc]
      exact hcaches'

omit [Zero D] in
theorem coldMisses_antitone {m : Nat} (hnm : n ≤ m) (trace : List (Access D)) (k : Nat) (log : List PageId) :
    coldMisses m k log trace ≤ coldMisses n k log trace := by
  induction trace generalizing k log with
  | nil => exact le_rfl
  | cons a trace ih =>
    refine Nat.add_le_add ?_ (ih ..)
    split_ifs with hm hn
    · exact le_rfl
    · exact absurd ⟨hm.1, fun hmem => hm.2 (List.take_subset_take_left _ hnm hmem)⟩ hn
    · exact Nat.zero_le _
    · exact le_rfl

theorem caches_init (disk : DiskManager D) :
    Caches (BufferPool.init n disk) (BufferPool.init n disk).view [] :=
  ⟨holds_init disk, fun _ => rfl, List.take_nil.symm⟩

theorem PageMap.results_congr (trace : List (Access D)) {m₁ m₂ : PageMap D} (hcontents : m₁.contents = m₂.contents)
    (hnum : m₁.numPages = m₂.numPages) : m₁.results trace = m₂.results trace := by
  induction trace generalizing m₁ m₂ with
  | nil => rfl
  | cons a trace ih =>
    cases a with
    | read p => exact congrArg₂ List.cons (congrFun hcontents p) (ih hcontents hnum)
    | write p d =>
      refine congrArg₂ List.cons (congrFun hcontents p) (ih ?_ hnum)
      simp only [access, put, hcontents]
    | create d =>
      refine congrArg₂ List.cons rfl (ih ?_ ?_)
      · simp only [access, grow, hcontents, hnum]
      · simp only [access, grow, hnum]

/-- A pool of `n` frames whose clients use one page at a time holds the `n` pages that were
used last. So a pool with more frames gives the same results, holds all pages that the
smaller one does, and reads no more pages from disk. -/
theorem more_frames_fewer_misses {m : Nat} (hn : 0 < n) (hnm : n ≤ m) (disk : DiskManager D)
    (trace : List (Access D)) (hvalid : ValidTrace disk.numPages trace) :
    ∃ (results : List D) (s : BufferPool D n) (t : BufferPool D m),
      runAccesses BufferPool.store trace (BufferPool.init n disk) = .ok results s ∧
      runAccesses BufferPool.store trace (BufferPool.init m disk) = .ok results t ∧
      (∀ p, (∃ f, s.lookup p = some f) ↔ p ∈ (recency (usedPages disk.numPages trace)).take n) ∧
      (∀ p, (∃ f, s.lookup p = some f) → ∃ f, t.lookup p = some f) ∧
      missesOf (BufferPool.init m disk) trace ≤ missesOf (BufferPool.init n disk) trace := by
  obtain ⟨hmisses, s, ms, hrun, hcaches⟩ := (caches_init disk).runAccesses hn trace hvalid
  obtain ⟨hmisses', t, mt, hrun', hcaches'⟩ := (caches_init disk).runAccesses (hn.trans_le hnm) trace hvalid
  have hresults : (BufferPool.init m disk).view.results trace = (BufferPool.init n disk).view.results trace :=
    PageMap.results_congr trace rfl rfl
  rw [hresults] at hrun'
  have hresident (p : PageId) : (∃ f, s.lookup p = some f) ↔ p ∈ (recency (usedPages disk.numPages trace)).take n := by
    rw [← hcaches.holds.inv.mem_recent, hcaches.recent_eq, List.append_nil]
    rfl
  refine ⟨_, s, t, hrun, hrun', hresident, fun p hp => ?_, ?_⟩
  · rw [← hcaches'.holds.inv.mem_recent, hcaches'.recent_eq, List.append_nil]
    exact List.take_subset_take_left _ hnm ((hresident p).mp hp)
  · rw [hmisses, hmisses']
    exact coldMisses_antitone hnm trace _ _

theorem more_frames_fewer_misses_twoPages :
    ∃ (results : List Nat) (s : BufferPool Nat 1) (t : BufferPool Nat 2),
      runAccesses BufferPool.store [.read 0, .read 1, .read 0, .read 1]
        (BufferPool.init 1 ⟨2, fun p => p.toNat⟩) = .ok results s ∧
      runAccesses BufferPool.store [.read 0, .read 1, .read 0, .read 1]
        (BufferPool.init 2 ⟨2, fun p => p.toNat⟩) = .ok results t ∧
      (∃ f, t.lookup 1 = some f) ∧
      missesOf (BufferPool.init 2 ⟨2, fun p => p.toNat⟩) [.read 0, .read 1, .read 0, .read 1] = 2 ∧
      missesOf (BufferPool.init 1 ⟨2, fun p => p.toNat⟩) [.read 0, .read 1, .read 0, .read 1] = 4 := by
  obtain ⟨results, s, t, hrun, hrun', hresident, hsub, -⟩ :=
    more_frames_fewer_misses Nat.one_pos one_le_two ⟨2, fun p => p.toNat⟩
      [.read 0, .read 1, .read 0, .read 1] (by simp [ValidTrace, Access.Valid, Access.grows])
  exact ⟨results, s, t, hrun, hrun', hsub 1 ((hresident 1).mpr (by decide)), by decide +kernel, by decide +kernel⟩

end Accesses

end MyDB.Storage

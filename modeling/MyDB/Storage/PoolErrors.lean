import MyDB.Common.Decimal
import MyDB.Storage.BufferPoolRuns

/-! When `NewPage` and `FetchPage` give no page: every frame is pinned, or the write of
a dirty victim throws. The victim has left the replacer before it is written, and no
handler puts it back. -/

namespace MyDB.Storage
open BufferPool
variable {D : Type} {n : Nat}

/-! ## No frame -/

/-- The pools that calls and writes through page pointers lead to. -/
inductive BufferPool.Reachable [Zero D] (disk : DiskManager D) : BufferPool D n → Prop
  | init : Reachable disk (init n disk)
  | exec {s s' : BufferPool D n} {op : PoolOp} : Reachable disk s → op.exec s = .ok () s' → Reachable disk s'
  | write {s : BufferPool D n} (f : Fin n) (data : D) : Reachable disk s → Reachable disk (s.setData f data)

theorem BufferPool.Reachable.repInv [Zero D] {disk : DiskManager D} {s : BufferPool D n} (h : Reachable disk s) :
    RepInv none s := by
  induction h with
  | init => exact repInv_init disk
  | exec _ hr ih => exact repInv_exec ih hr
  | write f data _ ih => exact ih.setData f data

theorem BufferPool.Reachable.execAll [Zero D] {disk : DiskManager D} {s s' : BufferPool D n} {ops : List PoolOp}
    (h : Reachable disk s) (hr : MyDB.Storage.execAll ops s = .ok () s') : Reachable disk s' := by
  induction ops generalizing s with
  | nil =>
    cases hr
    exact h
  | cons op ops ih =>
    obtain ⟨s₁, hop, hr⟩ := execAll_cons_eq_ok.mp hr
    exact ih (h.exec hop) hr

/-- Every frame holds a pinned page. -/
def BufferPool.AllPinned (s : BufferPool D n) : Prop := ∀ f, ∃ p, s.lookup p = some f ∧ 0 < (s.frames f).pinCount

theorem BufferPool.RepInv.getFreeFrame_none_iff {s : BufferPool D n} (h : RepInv none s) :
    s.getFreeFrame = none ↔ s.AllPinned := by
  rw [getFreeFrame_eq_none_iff h]
  constructor
  · intro hpin f
    by_contra hnone
    have hunmapped : ∀ p, s.lookup p ≠ some f := fun p hp => hnone ⟨p, hp, hpin f⟩
    exact (hpin f).ne' (h.unmapped_pin f hunmapped)
  · intro hall f
    obtain ⟨p, -, hpin⟩ := hall f
    exact hpin

/-- `NewPage` and `FetchPage` return null exactly if every frame holds a pinned page, and
the page to fetch is not one of them; they then change nothing. -/
theorem null_iff_allPinned [Zero D] {disk : DiskManager D} {s : BufferPool D n} (h : Reachable disk s) :
    (∀ s', newPage s = .ok none s' ↔ s.AllPinned ∧ s' = s) ∧
      ∀ p s', fetchPage p s = .ok none s' ↔ (s.lookup p = none ∧ s.AllPinned) ∧ s' = s := by
  have hnone := h.repInv.getFreeFrame_none_iff
  constructor
  · intro s'
    unfold newPage
    cases hfree : s.getFreeFrame with
    | none => simp [← hnone, hfree, eq_comm]
    | some taken => simp [← hnone, hfree]
  · intro p s'
    unfold fetchPage
    cases hp : s.lookup p with
    | some f => simp
    | none =>
      cases hfree : s.getFreeFrame with
      | none => simp [← hnone, hfree, eq_comm]
      | some taken =>
        simp only [← hnone, hfree]
        split <;> simp

theorem null_iff_allPinned_two : ∃ s : BufferPool Nat 2, s.AllPinned ∧ newPage s = .ok none s ∧
    ∀ p s', fetchPage p s = .ok none s' ↔ (s.lookup p = none ∧ s.AllPinned) ∧ s' = s := by
  have hrun : execAll [.newPage, .newPage] (BufferPool.init 2 (⟨0, fun _ => 0⟩ : DiskManager Nat)) = .ok () _ := rfl
  have h := null_iff_allPinned (Reachable.init.execAll hrun)
  exact ⟨_, ((h.1 _).mp rfl).1, rfl, h.2⟩

/-! ## A write that fails -/

section io
variable (io : PageId → Option D)

/-- `GetFreeFrame` where `WritePage` can throw: `io p` is what a write of the page `p` that
fails leaves in the file. -/
def getFreeFrameIO : PoolM D n (Option (Fin n)) := fun s =>
  match s.freeList with
  | f :: rest => .ok (some f) { s with freeList := rest }
  | [] =>
    match s.replacer.evict with
    | none => .ok none s
    | some (f, replacer) =>
      let page := s.frames f
      match if page.isDirty then io page.pageId else none with
      | some torn =>
        .error (.runtimeError (lit "I/O error writing page " ++ intToString page.pageId))
          { s with replacer, disk := s.disk.writePage page.pageId torn }
      | none => .ok (some f) (evictFrame { s with replacer } f)

def newPageIO [Zero D] : PoolM D n (Option (PageId × Fin n)) := fun s =>
  match getFreeFrameIO io s with
  | .error e s => .error e s
  | .ok none s => .ok none s
  | .ok (some f) s =>
    let (pageId, disk) := s.disk.allocatePage
    .ok (some (pageId, f)) ({ s with disk }.install f { data := 0, pageId, pinCount := 1 })

def fetchPageIO (pageId : PageId) : PoolM D n (Option (Fin n)) := fun s =>
  match s.lookup pageId with
  | some f => .ok (some f) (s.pinFrame f)
  | none =>
    match getFreeFrameIO io s with
    | .error e s => .error e s
    | .ok none s => .ok none s
    | .ok (some f) s' =>
      match s'.disk.readPage pageId with
      | none => .error .assertFailed s
      | some data => .ok (some f) (s'.install f { data, pageId, pinCount := 1 })

end io

theorem getFreeFrameIO_none (s : BufferPool D n) :
    getFreeFrameIO (fun _ => none) s =
      match s.getFreeFrame with
      | some (f, s') => .ok (some f) s'
      | none => .ok none s := by
  unfold getFreeFrameIO getFreeFrame
  cases s.freeList with
  | cons f rest => rfl
  | nil =>
    cases s.replacer.evict with
    | none => rfl
    | some victim => simp

theorem newPageIO_none [Zero D] : newPageIO (fun _ => none) = (newPage : PoolM D n _) := by
  funext s
  unfold newPageIO newPage
  rw [getFreeFrameIO_none]
  cases s.getFreeFrame with
  | none => rfl
  | some taken => rfl

theorem fetchPageIO_none (p : PageId) : fetchPageIO (fun _ => none) p = (fetchPage p : PoolM D n _) := by
  funext s
  unfold fetchPageIO fetchPage
  rw [getFreeFrameIO_none]
  cases s.lookup p with
  | some f => rfl
  | none =>
    cases s.getFreeFrame with
    | none => rfl
    | some taken => rfl

/-- The next frame is that of a dirty page whose write fails. -/
def WriteBackFails (io : PageId → Option D) (s : BufferPool D n) : Prop :=
  s.freeList = [] ∧ ∃ f replacer torn, s.replacer.evict = some (f, replacer) ∧ (s.frames f).isDirty = true ∧
    io (s.frames f).pageId = some torn

/-- The pool is as before: the same pages in the same frames, with the same marks, the
same free list, and the same frames known to the replacer in the same order. -/
structure LeftAlone (s s' : BufferPool D n) : Prop where
  frames : s'.frames = s.frames
  pageTable : s'.pageTable = s.pageTable
  freeList : s'.freeList = s.freeList
  order : s'.replacer.order = s.replacer.order
  evictable : s'.replacer.evictable = s.replacer.evictable

section failure
variable {io : PageId → Option D} {s s' : BufferPool D n} {e : Fault}

theorem getFreeFrameIO_eq_error : getFreeFrameIO io s = .error e s' ↔
    s.freeList = [] ∧ ∃ f replacer torn, s.replacer.evict = some (f, replacer) ∧ (s.frames f).isDirty = true ∧
      io (s.frames f).pageId = some torn ∧
      e = .runtimeError (lit "I/O error writing page " ++ intToString (s.frames f).pageId) ∧
      s' = { s with replacer, disk := s.disk.writePage (s.frames f).pageId torn } := by
  unfold getFreeFrameIO
  cases hfree : s.freeList with
  | cons f rest => simp
  | nil =>
    cases hev : s.replacer.evict with
    | none => simp
    | some victim =>
      obtain ⟨f, replacer⟩ := victim
      cases hdirty : (s.frames f).isDirty with
      | false => simp [hdirty]
      | true =>
        cases hio : io (s.frames f).pageId with
        | none => simp [hdirty, hio]
        | some torn =>
          dsimp only
          rw [if_pos hdirty, hio]
          constructor
          · rintro ⟨⟩
            exact ⟨rfl, f, replacer, torn, rfl, hdirty, hio, rfl, rfl⟩
          · rintro ⟨-, g, replacer', torn', ⟨⟩, -, hio', rfl, rfl⟩
            cases hio.symm.trans hio'
            rfl

theorem not_leftAlone (h : getFreeFrameIO io s = .error e s') : ¬ LeftAlone s s' := by
  obtain ⟨-, f, replacer, torn, hev, -, -, -, rfl⟩ := getFreeFrameIO_eq_error.mp h
  obtain ⟨-, horder, -⟩ := s.replacer.evict_eq_some hev
  intro hsame
  have hmem : f ∈ replacer.order := by
    rw [show replacer.order = s.replacer.order from hsame.order]
    exact (s.replacer.mem_of_evict hev).1
  simp [horder] at hmem

theorem writeBackFails_iff : WriteBackFails io s ↔ ∃ e s', getFreeFrameIO io s = .error e s' := by
  simp only [getFreeFrameIO_eq_error]
  constructor
  · rintro ⟨hfree, f, replacer, torn, hev, hdirty, hio⟩
    exact ⟨_, _, hfree, f, replacer, torn, hev, hdirty, hio, rfl, rfl⟩
  · rintro ⟨e, s', hfree, f, replacer, torn, hev, hdirty, hio, -⟩
    exact ⟨hfree, f, replacer, torn, hev, hdirty, hio⟩

theorem newPageIO_eq_error [Zero D] : newPageIO io s = .error e s' ↔ getFreeFrameIO io s = .error e s' := by
  unfold newPageIO
  cases getFreeFrameIO io s with
  | error e₁ s₁ => simp
  | ok found s₁ => cases found <;> simp

theorem fetchPageIO_eq_error {p : PageId} {msg : Str} : fetchPageIO io p s = .error (.runtimeError msg) s' ↔
    s.lookup p = none ∧ getFreeFrameIO io s = .error (.runtimeError msg) s' := by
  unfold fetchPageIO
  cases s.lookup p with
  | some f => simp
  | none =>
    cases getFreeFrameIO io s with
    | error e₁ s₁ => simp
    | ok found s₁ =>
      cases found with
      | none => simp
      | some f =>
        dsimp only
        split <;> simp

/-- For every pool: where `NewPage` or `FetchPage` throws, the pool is as it was if and
only if no write of a victim fails, since every such failure loses the victim. -/
theorem leftAlone_iff [Zero D] (io : PageId → Option D) (s : BufferPool D n) (p : PageId) :
    ((∀ msg s', newPageIO io s = .error (.runtimeError msg) s' → LeftAlone s s') ↔ ¬ WriteBackFails io s) ∧
      ((∀ msg s', fetchPageIO io p s = .error (.runtimeError msg) s' → LeftAlone s s') ↔
        ¬ (s.lookup p = none ∧ WriteBackFails io s)) := by
  have herror : WriteBackFails io s → ∃ msg s', getFreeFrameIO io s = .error (.runtimeError msg) s' := by
    rintro ⟨hfree, f, replacer, torn, hev, hdirty, hio⟩
    exact ⟨_, _, getFreeFrameIO_eq_error.mpr ⟨hfree, f, replacer, torn, hev, hdirty, hio, rfl, rfl⟩⟩
  constructor
  · constructor
    · intro hall hfails
      obtain ⟨msg, s', hrun⟩ := herror hfails
      exact not_leftAlone hrun (hall msg s' (newPageIO_eq_error.mpr hrun))
    · intro hnot msg s' hrun
      exact absurd (writeBackFails_iff.mpr ⟨_, s', newPageIO_eq_error.mp hrun⟩) hnot
  · constructor
    · rintro hall ⟨hp, hfails⟩
      obtain ⟨msg, s', hrun⟩ := herror hfails
      exact not_leftAlone hrun (hall msg s' (fetchPageIO_eq_error.mpr ⟨hp, hrun⟩))
    · intro hnot msg s' hrun
      obtain ⟨hp, hrun⟩ := fetchPageIO_eq_error.mp hrun
      exact absurd ⟨hp, writeBackFails_iff.mpr ⟨_, s', hrun⟩⟩ hnot

end failure

def dirtyRun : List PoolOp := [.newPage, .unpinPage 0 true]

/-- After the write has failed, no page is pinned and no page can be had. -/
theorem frame_lost : ∃ s s' : BufferPool Nat 1,
    execAll dirtyRun (BufferPool.init 1 ⟨0, fun _ => 0⟩) = .ok () s ∧
    newPageIO (fun _ => some 7) s = .error (.runtimeError (lit "I/O error writing page 0")) s' ∧
    s'.lookup 0 = some 0 ∧ (s'.frames 0).isDirty = true ∧ (s'.frames 0).pinCount = 0 ∧
    s.replacer.order = [0] ∧ s'.replacer.order = [] ∧ newPage s' = .ok none s' := by
  refine ⟨_, _, rfl, rfl, rfl, rfl, rfl, rfl, rfl, rfl⟩

end MyDB.Storage

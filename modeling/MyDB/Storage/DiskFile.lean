import MyDB.Storage.BufferPool

/-! The file under the disk manager, and what closing and opening it again does
to the page count. The file is read and written in whole pages, so it is its
size and its blocks; past the end a block is zero. -/

namespace MyDB.Storage

structure DbFile (D : Type) where
  size : Nat
  block : Nat → D

/-- A `DiskManager` on its file; `fail` is the failbit of `db_io_`. -/
structure DiskFile (D : Type) where
  file : DbFile D
  fail : Bool
  numPages : Int

namespace DiskFile
variable {D : Type}

/-- The constructor: the size is narrowed to `int` before it is divided. -/
def openFile (file : DbFile D) : DiskFile D where
  file := file
  fail := false
  numPages := (Int.bmod file.size (2 ^ 32)).tdiv pageSize

/-- The destructor, and the constructor on the same file. -/
def reopen (m : DiskFile D) : DiskFile D := openFile m.file

/-- `seekp` and `write`. Seeking before the beginning sets the failbit, and a
stream that has it set writes nothing. -/
def put (m : DiskFile D) (pageId : PageId) (data : D) : DiskFile D :=
  if m.fail then m
  else if pageId < 0 then { m with fail := true }
  else
    { m with file :=
      { size := max m.file.size ((pageId.toNat + 1) * pageSize)
        block := Function.update m.file.block pageId.toNat data } }

/-- `ReadPage`; `none` is its assertion failing. A failed read gives zeros and
clears the failbit. -/
def readPage [Zero D] (m : DiskFile D) (pageId : PageId) : Option (D × DiskFile D) :=
  if 0 ≤ pageId ∧ pageId < m.numPages then
    if m.fail then some (0, { m with fail := false }) else some (m.file.block pageId.toNat, m)
  else none

def writePage (m : DiskFile D) (pageId : PageId) (data : D) : Option (DiskFile D) :=
  if 0 ≤ pageId then some (m.put pageId data) else none

/-- `AllocatePage`; its `num_pages_++` is taken to wrap around. -/
def allocatePage [Zero D] (m : DiskFile D) : PageId × DiskFile D :=
  (m.numPages, { m.put m.numPages 0 with numPages := Int.bmod (m.numPages + 1) (2 ^ 32) })

/-! ## The disk manager of the buffer pool -/

structure Models (m : DiskFile D) (dm : DiskManager D) : Prop where
  good : m.fail = false
  numPages_eq : m.numPages = dm.numPages
  size_eq : m.file.size = dm.numPages * pageSize
  block_eq : ∀ p : Nat, p < dm.numPages → m.file.block p = dm.pages p

variable {m : DiskFile D} {dm : DiskManager D} {p : PageId}

theorem put_of_nonneg (h : m.fail = false) (hp : 0 ≤ p) (d : D) :
    m.put p d = { m with file :=
      { size := max m.file.size ((p.toNat + 1) * pageSize)
        block := Function.update m.file.block p.toNat d } } := by
  rw [put, if_neg (by simp [h]), if_neg (not_lt.mpr hp)]

theorem Models.readPage [Zero D] (h : m.Models dm) (p : PageId) :
    m.readPage p = (dm.readPage p).map fun d => (d, m) := by
  unfold DiskFile.readPage DiskManager.readPage
  rw [h.numPages_eq]
  by_cases hp : 0 ≤ p ∧ p < dm.numPages
  · have hlt : p.toNat < dm.numPages := (Int.toNat_lt hp.1).mpr hp.2
    have hcast : (p.toNat : PageId) = p := Int.toNat_of_nonneg hp.1
    rw [if_pos hp, if_pos hp, if_neg (by simp [h.good]), h.block_eq _ hlt, hcast]
    rfl
  · rw [if_neg hp, if_neg hp]
    rfl

theorem Models.writePage (h : m.Models dm) (hp : 0 ≤ p ∧ p < dm.numPages) (d : D) :
    ∃ m', m.writePage p d = some m' ∧ m'.Models (dm.writePage p d) := by
  have hlt : p.toNat < dm.numPages := (Int.toNat_lt hp.1).mpr hp.2
  have hcast : (p.toNat : PageId) = p := Int.toNat_of_nonneg hp.1
  refine ⟨_, if_pos hp.1, ?_⟩
  rw [put_of_nonneg h.good hp.1]
  refine ⟨h.good, h.numPages_eq, ?_, ?_⟩
  · refine (max_eq_left ?_).trans h.size_eq
    rw [h.size_eq]
    exact Nat.mul_le_mul_right _ hlt
  · intro q hq
    change Function.update m.file.block p.toNat d q = Function.update dm.pages p d q
    by_cases hqp : q = p.toNat
    · rw [hqp, hcast, Function.update_self, Function.update_self]
    · have hne : (q : PageId) ≠ p := fun e => hqp (by rw [← e, Int.toNat_natCast])
      rw [Function.update_of_ne hqp, Function.update_of_ne hne]
      exact h.block_eq q hq

theorem Models.allocatePage [Zero D] (h : m.Models dm) (hn : dm.numPages + 1 < 2 ^ 31) :
    m.allocatePage.2.Models dm.allocatePage.2 := by
  have hnonneg : (0 : Int) ≤ m.numPages := h.numPages_eq ▸ Int.natCast_nonneg _
  have hnat : m.numPages.toNat = dm.numPages := by rw [h.numPages_eq, Int.toNat_natCast]
  unfold DiskFile.allocatePage
  rw [put_of_nonneg h.good hnonneg, hnat]
  refine ⟨h.good, ?_, ?_, ?_⟩
  · change Int.bmod (m.numPages + 1) (2 ^ 32) = ((dm.numPages + 1 : Nat) : Int)
    rw [h.numPages_eq, ← Nat.cast_succ]
    apply Int.bmod_eq_of_le
    · omega
    · omega
  · refine max_eq_right ?_
    rw [h.size_eq]
    exact Nat.mul_le_mul_right _ (Nat.le_succ _)
  · intro q hq
    change Function.update m.file.block dm.numPages 0 q = Function.update dm.pages dm.numPages 0 q
    by_cases hqn : q = dm.numPages
    · rw [hqn, Function.update_self, Function.update_self]
    · rw [Function.update_of_ne hqn, Function.update_of_ne (Nat.cast_injective.ne hqn)]
      exact h.block_eq q (Nat.lt_of_le_of_ne (Nat.le_of_lt_succ hq) hqn)

/-! ## The page count of a file -/

theorem openFile_numPages_iff {file : DbFile D} {n : Nat} (hsize : file.size = n * pageSize) :
    (openFile file).numPages = n ↔ n < 2 ^ 19 := by
  have hcast : ((n * pageSize : Nat) : Int) = (n : Int) * pageSize := Nat.cast_mul n pageSize
  simp only [openFile, hsize]
  constructor
  · intro h
    have hlt : Int.bmod (n * pageSize : Nat) (2 ^ 32) ≤ 2 ^ 31 - 1 :=
      Int.le_sub_one_of_lt (Int.bmod_lt (Nat.two_pow_pos 32))
    have hdiv : (2 ^ 31 - 1 : Int).tdiv pageSize = 2 ^ 19 - 1 := by decide
    have hle := Int.tdiv_le_tdiv (c := (pageSize : Int)) (by decide) hlt
    rw [h, hdiv] at hle
    omega
  · intro h
    have hb : Int.bmod (n * pageSize : Nat) (2 ^ 32) = (n * pageSize : Nat) := by
      apply Int.bmod_eq_of_le
      · unfold pageSize
        omega
      · unfold pageSize
        omega
    rw [hb, hcast]
    exact Int.mul_tdiv_cancel _ (by decide)

theorem models_create (zero : D) : Models (openFile ⟨0, fun _ => zero⟩) ⟨0, fun _ => zero⟩ where
  good := rfl
  numPages_eq := (openFile_numPages_iff (Nat.zero_mul _).symm).mpr (Nat.two_pow_pos 19)
  size_eq := (Nat.zero_mul _).symm
  block_eq := fun _ _ => rfl

theorem Models.reopen (h : m.Models dm) (hn : dm.numPages < 2 ^ 19) : m.reopen.Models dm where
  good := rfl
  numPages_eq := (openFile_numPages_iff h.size_eq).mpr hn
  size_eq := h.size_eq
  block_eq := h.block_eq

end DiskFile

/-! ## Runs with any number of closings -/

inductive DiskOp (D : Type) where
  | allocatePage
  | readPage (pageId : PageId)
  | writePage (pageId : PageId) (data : D)
  | reopen

/-- The ids that `AllocatePage` returned, and what was last written to each page. -/
structure DiskWorld (D : Type) where
  disk : DiskFile D
  issued : List PageId
  last : PageId → D

def allocations {D : Type} (ops : List (DiskOp D)) : Nat :=
  ops.countP fun
    | .allocatePage => true
    | _ => false

namespace DiskWorld
variable {D : Type}

structure Good (w : DiskWorld D) (dm : DiskManager D) : Prop where
  models : w.disk.Models dm
  length_eq : w.issued.length = dm.numPages
  issued_iff : ∀ p, p ∈ w.issued ↔ 0 ≤ p ∧ p < dm.numPages
  nodup : w.issued.Nodup
  last_eq : ∀ p ∈ w.issued, dm.pages p = w.last p

theorem Good.fresh {w : DiskWorld D} {dm : DiskManager D} (h : w.Good dm) :
    (dm.numPages : PageId) ∉ w.issued := fun hp => lt_irrefl _ ((h.issued_iff _).mp hp).2

variable [Zero D]

/-- The constructor on a file that does not exist. -/
def create : DiskWorld D := ⟨.openFile ⟨0, fun _ => 0⟩, [], fun _ => 0⟩

/-- `none` is a failed assertion, or a write to an id that was not allocated. -/
def step (w : DiskWorld D) : DiskOp D → Option (DiskWorld D)
  | .allocatePage =>
    let (pageId, disk) := w.disk.allocatePage
    some ⟨disk, pageId :: w.issued, Function.update w.last pageId 0⟩
  | .readPage pageId => (w.disk.readPage pageId).map fun r => { w with disk := r.2 }
  | .writePage pageId data =>
    if pageId ∈ w.issued then
      (w.disk.writePage pageId data).map fun disk =>
        { w with disk, last := Function.update w.last pageId data }
    else none
  | .reopen => some { w with disk := w.disk.reopen }

def run : List (DiskOp D) → DiskWorld D → Option (DiskWorld D)
  | [], w => some w
  | op :: ops, w => (w.step op).bind (run ops)

/-- The page count is the number of pages, no id was returned twice, and
`ReadPage` takes every id that was and gives what was last written. -/
def Intact (w : DiskWorld D) : Prop :=
  w.disk.numPages = w.issued.length ∧ w.issued.Nodup ∧
    ∀ p ∈ w.issued, ∃ m, w.disk.readPage p = some (w.last p, m)

theorem run_append (as bs : List (DiskOp D)) (w : DiskWorld D) :
    run (as ++ bs) w = (run as w).bind (run bs) := by
  induction as generalizing w with
  | nil => rfl
  | cons a as ih =>
    rw [List.cons_append, run, run, Option.bind_assoc]
    exact congrArg _ (funext ih)

theorem run_of_isPrefix {as bs : List (DiskOp D)} {w w' : DiskWorld D} (h : as <+: bs)
    (hr : run bs w = some w') : ∃ w₁, run as w = some w₁ := by
  obtain ⟨cs, rfl⟩ := h
  rw [run_append] at hr
  obtain ⟨w₁, h1, -⟩ := Option.bind_eq_some_iff.mp hr
  exact ⟨w₁, h1⟩

section Step
variable {w w' : DiskWorld D} {dm : DiskManager D}

theorem good_create : (create : DiskWorld D).Good ⟨0, fun _ => 0⟩ where
  models := DiskFile.models_create 0
  length_eq := rfl
  issued_iff := by
    intro p
    refine ⟨fun h => absurd h List.not_mem_nil, fun h => ?_⟩
    exact absurd (h.1.trans_lt h.2) (lt_irrefl _)
  nodup := List.nodup_nil
  last_eq := fun _ _ => rfl

theorem Good.readPage (h : w.Good dm) {p : PageId} (hp : p ∈ w.issued) :
    w.disk.readPage p = some (w.last p, w.disk) := by
  rw [h.models.readPage, DiskManager.readPage, if_pos ((h.issued_iff p).mp hp), h.last_eq p hp]
  rfl

theorem Good.allocatePage (h : w.Good dm) (hn : dm.numPages + 1 < 2 ^ 31) :
    Good ⟨w.disk.allocatePage.2, w.disk.allocatePage.1 :: w.issued,
      Function.update w.last w.disk.allocatePage.1 0⟩ dm.allocatePage.2 := by
  have hid : w.disk.allocatePage.1 = dm.numPages := h.models.numPages_eq
  rw [hid]
  refine ⟨h.models.allocatePage hn, congrArg (· + 1) h.length_eq, ?_, h.nodup.cons h.fresh, ?_⟩
  · intro p
    have hsucc : (p < (dm.allocatePage.2.numPages : Nat)) ↔ p < dm.numPages ∨ p = dm.numPages := by
      change p < ((dm.numPages + 1 : Nat) : Int) ↔ _
      rw [Nat.cast_succ, Int.lt_add_one_iff, le_iff_lt_or_eq]
    have h0 : (0 : PageId) ≤ dm.numPages := Int.natCast_nonneg _
    rw [List.mem_cons, h.issued_iff, hsucc]
    constructor
    · rintro (rfl | hp)
      · exact ⟨h0, Or.inr rfl⟩
      · exact ⟨hp.1, Or.inl hp.2⟩
    · rintro ⟨hp, hlt | rfl⟩
      · exact Or.inr ⟨hp, hlt⟩
      · exact Or.inl rfl
  · intro p hp
    change Function.update dm.pages dm.numPages 0 p = Function.update w.last dm.numPages 0 p
    rcases List.mem_cons.mp hp with rfl | hp
    · rw [Function.update_self, Function.update_self]
    · have hne : p ≠ dm.numPages := fun e => h.fresh (e ▸ hp)
      rw [Function.update_of_ne hne, Function.update_of_ne hne, h.last_eq p hp]

theorem Good.intact (h : w.Good dm) : w.Intact :=
  ⟨h.length_eq ▸ h.models.numPages_eq, h.nodup, fun _ hp => ⟨_, h.readPage hp⟩⟩

theorem Good.step (h : w.Good dm) {op : DiskOp D} (hs : w.step op = some w')
    (hn : dm.numPages + allocations [op] < 2 ^ 31) (hre : op = .reopen → dm.numPages < 2 ^ 19) :
    ∃ dm', w'.Good dm' ∧ dm'.numPages = dm.numPages + allocations [op] := by
  cases op with
  | allocatePage =>
    cases hs
    exact ⟨_, h.allocatePage hn, rfl⟩
  | readPage p =>
    obtain ⟨r, hr, rfl⟩ := Option.map_eq_some_iff.mp hs
    rw [h.models.readPage] at hr
    obtain ⟨d, -, rfl⟩ := Option.map_eq_some_iff.mp hr
    exact ⟨dm, h, rfl⟩
  | writePage p d =>
    simp only [DiskWorld.step] at hs
    split_ifs at hs with hp
    obtain ⟨m, hm, hmodels⟩ := h.models.writePage ((h.issued_iff p).mp hp) d
    rw [hm] at hs
    cases hs
    refine ⟨_, ⟨hmodels, h.length_eq, h.issued_iff, h.nodup, ?_⟩, rfl⟩
    intro q hq
    change Function.update dm.pages p d q = Function.update w.last p d q
    by_cases hqp : q = p
    · rw [hqp, Function.update_self, Function.update_self]
    · rw [Function.update_of_ne hqp, Function.update_of_ne hqp, h.last_eq q hq]
  | reopen =>
    cases hs
    exact ⟨dm, ⟨h.models.reopen (hre rfl), h.length_eq, h.issued_iff, h.nodup, h.last_eq⟩, rfl⟩

end Step

theorem allocations_append {D : Type} (as bs : List (DiskOp D)) :
    allocations (as ++ bs) = allocations as + allocations bs := List.countP_append

theorem good_run {ops : List (DiskOp D)} {w : DiskWorld D} (hr : run ops create = some w)
    (hn : allocations ops < 2 ^ 31)
    (hre : ∀ pre, pre ++ [.reopen] <+: ops → allocations pre < 2 ^ 19) :
    ∃ dm, w.Good dm ∧ dm.numPages = allocations ops := by
  induction ops using List.reverseRecOn generalizing w with
  | nil =>
    cases hr
    exact ⟨_, good_create, rfl⟩
  | append_singleton ops op ih =>
    rw [run_append] at hr
    obtain ⟨w₁, hr₁, hr₂⟩ := Option.bind_eq_some_iff.mp hr
    obtain ⟨w₂, hs, hw⟩ := Option.bind_eq_some_iff.mp hr₂
    cases hw
    rw [allocations_append] at hn ⊢
    obtain ⟨dm, hgood, hdm⟩ := ih hr₁ (by omega) fun pre hpre => hre pre (hpre.trans (List.prefix_append ..))
    obtain ⟨dm', hgood', hdm'⟩ := hgood.step hs (by omega) fun e => by
      rw [hdm]
      exact hre ops (e ▸ List.prefix_rfl)
    exact ⟨dm', hgood', by rw [hdm', hdm]⟩

/-- The page count survives closing and opening exactly for files of fewer than
2^19 pages; over a run from an empty file, the pages stay intact at every point
exactly if each time that it is closed the file is that small. -/
theorem reopen_intact_iff :
    (∀ (file : DbFile D) (n : Nat), n < 2 ^ 31 → file.size = n * pageSize →
      ((DiskFile.openFile file).numPages = n ↔ n < 2 ^ 19)) ∧
    ∀ (ops : List (DiskOp D)) (w : DiskWorld D), allocations ops < 2 ^ 31 → run ops create = some w →
      ((∀ pre w', pre <+: ops → run pre create = some w' → w'.Intact) ↔
        ∀ pre, pre ++ [.reopen] <+: ops → allocations pre < 2 ^ 19) := by
  refine ⟨fun file n _ hsize => DiskFile.openFile_numPages_iff hsize, ?_⟩
  intro ops w hn hrun
  have hle {pre : List (DiskOp D)} (h : pre <+: ops) : allocations pre ≤ allocations ops :=
    h.sublist.countP_le
  constructor
  · intro hintact pre
    -- before the first file that is too large, the run is good
    induction hlen : pre.length using Nat.strong_induction_on generalizing pre with
    | h k ih =>
      intro hpre
      have hpre' : pre <+: ops := (List.prefix_append ..).trans hpre
      obtain ⟨w₁, hr₁⟩ := run_of_isPrefix hpre' hrun
      obtain ⟨dm, hgood, hdm⟩ := good_run hr₁ ((hle hpre').trans_lt hn) fun pre₂ h₂ => by
        have hlt := h₂.length_le
        rw [List.length_append, List.length_singleton] at hlt
        exact ih pre₂.length (by omega) pre₂ rfl (h₂.trans hpre')
      have hr₂ : run (pre ++ [.reopen]) create = some { w₁ with disk := w₁.disk.reopen } := by
        rw [run_append, hr₁]
        rfl
      have hcount := (hintact _ _ hpre hr₂).1
      rw [← hdm]
      refine (DiskFile.openFile_numPages_iff hgood.models.size_eq).mp (hcount.trans ?_)
      exact congrArg _ hgood.length_eq
  · intro hre pre w' hpre hr
    obtain ⟨dm, hgood, -⟩ := good_run hr ((hle hpre).trans_lt hn) fun pre₂ h₂ =>
      hre pre₂ (h₂.trans hpre)
    exact hgood.intact

def oneCycle : List (DiskOp Nat) := [.allocatePage, .writePage 0 7, .reopen, .allocatePage]

theorem reopen_intact_oneCycle : ∃ w, run oneCycle create = some w ∧ w.Intact := by
  obtain ⟨w, hw⟩ : ∃ w, run oneCycle create = some w := ⟨_, rfl⟩
  have hcount : allocations oneCycle = 2 := rfl
  have hsmall : allocations oneCycle < 2 ^ 31 := by
    rw [hcount]
    norm_num
  refine ⟨w, hw, ((reopen_intact_iff.2 oneCycle w hsmall hw).mpr ?_) oneCycle w List.prefix_rfl hw⟩
  intro pre hpre
  have hle : allocations pre ≤ 2 := ((List.prefix_append ..).trans hpre).sublist.countP_le
  exact hle.trans_lt (by norm_num)

/-- A file of 4 GiB: the page count is recovered as 0, and the next page
allocated is page 0 again, which is zeroed. -/
theorem openFile_wraps :
    (DiskFile.openFile (⟨2 ^ 20 * pageSize, fun _ => 7⟩ : DbFile Nat)).numPages = 0 ∧
    (DiskFile.openFile (⟨2 ^ 20 * pageSize, fun _ => 7⟩ : DbFile Nat)).allocatePage.1 = 0 ∧
    (DiskFile.openFile (⟨2 ^ 20 * pageSize, fun _ => 7⟩ : DbFile Nat)).allocatePage.2.file.block 0 = 0 ∧
    (DiskFile.openFile (⟨2 ^ 20 * pageSize, fun _ => 7⟩ : DbFile Nat)).readPage 5 = none := by
  have hnum : (DiskFile.openFile (⟨2 ^ 20 * pageSize, fun _ => 7⟩ : DbFile Nat)).numPages = 0 := by
    decide
  refine ⟨hnum, hnum, ?_, ?_⟩
  · decide
  · exact if_neg (by decide)

end DiskWorld

end MyDB.Storage

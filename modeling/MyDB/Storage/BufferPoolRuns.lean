import MyDB.Storage.BufferPoolInvariant

/-! Runs of buffer pool calls by any callers, in any order. -/

namespace MyDB.Storage
open BufferPool

inductive PoolOp where
  | newPage
  | fetchPage (pageId : PageId)
  | unpinPage (pageId : PageId) (isDirty : Bool)
  | flushPage (pageId : PageId)
  | flushAllPages
  | deletePage (pageId : PageId)
  deriving DecidableEq, Repr

variable {D : Type} {n : Nat}

def PoolOp.exec [Zero D] : PoolOp → PoolM D n Unit
  | .newPage => discard BufferPool.newPage
  | .fetchPage pageId => discard (BufferPool.fetchPage pageId)
  | .unpinPage pageId isDirty => discard (BufferPool.unpinPage pageId isDirty)
  | .flushPage pageId => discard (BufferPool.flushPage pageId)
  | .flushAllPages => BufferPool.flushAllPages
  | .deletePage pageId => discard (BufferPool.deletePage pageId)

def execAll [Zero D] : List PoolOp → PoolM D n Unit
  | [] => pure ()
  | op :: ops => do
    op.exec
    execAll ops

namespace BufferPool

theorem discard_eq_ok {α : Type} {x : PoolM D n α} {s s' : BufferPool D n} :
    (discard x) s = .ok () s' ↔ ∃ a, x s = .ok a s' := by
  change EStateM.map _ x s = _ ↔ _
  unfold EStateM.map
  cases h : x s <;> simp

theorem execAll_cons_eq_ok [Zero D] {op : PoolOp} {ops : List PoolOp} {s s' : BufferPool D n} :
    execAll (op :: ops) s = .ok () s' ↔ ∃ s₁, op.exec s = .ok () s₁ ∧ execAll ops s₁ = .ok () s' := by
  change EStateM.bind _ _ s = _ ↔ _
  unfold EStateM.bind
  cases h : op.exec s <;> simp

/-- The page `p` stays where it is, and its pin count changes by the call's own
pin or unpin of `p` only. -/
structure KeepsPinned (op : PoolOp) (p : PageId) (f : Fin n) (s s' : BufferPool D n) : Prop where
  lookup_eq : s'.lookup p = some f
  pin_eq : (s'.frames f).pinCount =
    match op with
    | .fetchPage q => if q = p then (s.frames f).pinCount + 1 else (s.frames f).pinCount
    | .unpinPage q _ => if q = p then (s.frames f).pinCount - 1 else (s.frames f).pinCount
    | _ => (s.frames f).pinCount

theorem flush_foldl (es : List (Σ _ : PageId, Fin n)) {s : BufferPool D n} (h : RepInv none s)
    (hes : ∀ e ∈ es, s.lookup e.1 = some e.2) :
    RepInv none (es.foldl flushEntry s) ∧ (es.foldl flushEntry s).pageTable = s.pageTable ∧
      ∀ f, ((es.foldl flushEntry s).frames f).pinCount = (s.frames f).pinCount := by
  induction es generalizing s with
  | nil => exact ⟨h, rfl, fun _ => rfl⟩
  | cons e es ih =>
    rw [List.foldl_cons]
    have he := hes e (List.mem_cons_self ..)
    have hstep : RepInv none (s.flushEntry e) ∧ (s.flushEntry e).pageTable = s.pageTable ∧
        ∀ f, ((s.flushEntry e).frames f).pinCount = (s.frames f).pinCount := by
      unfold flushEntry
      split_ifs
      · refine ⟨h.flushFrame he, rfl, fun f => ?_⟩
        by_cases hf : f = e.2
        · simp [flushFrame, hf]
        · simp [flushFrame, hf]
      · exact ⟨h, rfl, fun _ => rfl⟩
    obtain ⟨h1, h2, h3⟩ := hstep
    have hlook (q : PageId) : (s.flushEntry e).lookup q = s.lookup q := congrArg _ h2
    obtain ⟨h4, h5, h6⟩ := ih h1 (fun e' he' => (hlook _).trans (hes e' (List.mem_cons_of_mem _ he')))
    exact ⟨h4, h5.trans h2, fun f => (h6 f).trans (h3 f)⟩

theorem lookup_of_mem_entries {s : BufferPool D n} {e : Σ _ : PageId, Fin n}
    (he : e ∈ s.pageTable.entries) : s.lookup e.1 = some e.2 := AList.mem_lookup_iff.mpr he

/-! ## One call -/

section Step
variable {s s' : BufferPool D n}

theorem fetchPage_cases {p : PageId} {r : Option (Fin n)} (h : RepInv none s)
    (hr : fetchPage p s = .ok r s') :
    (∃ f, r = some f ∧ s.lookup p = some f ∧ s' = s.pinFrame f) ∨
    (r = none ∧ s' = s ∧ s.lookup p = none ∧ s.getFreeFrame = none) ∨
    ∃ f s₁, r = some f ∧ s.lookup p = none ∧ TookFrame s f s₁ ∧ 0 ≤ p ∧ p < s.disk.numPages ∧
      s' = s₁.install f { data := s₁.disk.pages p, pageId := p, pinCount := 1 } := by
  unfold fetchPage at hr
  split at hr
  · next f hf =>
    cases hr
    exact Or.inl ⟨f, rfl, hf, rfl⟩
  · next hp =>
    split at hr
    · next hf =>
      cases hr
      exact Or.inr (Or.inl ⟨rfl, rfl, hp, hf⟩)
    · next f s₁ hf =>
      have ht := getFreeFrame_spec h hf
      split at hr
      · cases hr
      · next data hd =>
        unfold DiskManager.readPage at hd
        split_ifs at hd with hrange
        rw [ht.numPages_eq] at hrange
        obtain rfl := Option.some.inj hd
        cases hr
        exact Or.inr (Or.inr ⟨f, s₁, rfl, hp, ht, hrange.1, hrange.2, rfl⟩)

theorem keepsPinned_install {p q : PageId} {f g : Fin n} {s₁ : BufferPool D n} (hp : s.lookup p = some f)
    (hpin : 0 < (s.frames f).pinCount) (ht : TookFrame s g s₁) (page : Page D)
    (hq : s.lookup q = none) (hid : page.pageId = q) (disk : DiskManager D) :
    (({ s₁ with disk } : BufferPool D n).install g page).lookup p = some f ∧
      ((({ s₁ with disk } : BufferPool D n).install g page).frames f).pinCount =
        (s.frames f).pinCount := by
  have hgf : f ≠ g := fun e => by
    have := ht.pin_zero
    rw [← e] at this
    omega
  have hpq : p ≠ q := fun e => by rw [e, hq] at hp; cases hp
  constructor
  · change ((({ s₁ with disk } : BufferPool D n)).pageTable.insert page.pageId g).lookup p = _
    rw [lookup_insert, hid, if_neg hpq]
    change s₁.lookup p = _
    rw [ht.lookup_eq, hp, if_neg (fun e => hgf (Option.some.inj e))]
  · change (Function.update s₁.frames g page f).pinCount = _
    rw [Function.update_of_ne hgf, ht.frames_eq f hgf]

theorem repInv_fetchPage {p : PageId} {r : Option (Fin n)} (h : RepInv none s)
    (hr : fetchPage p s = .ok r s') : RepInv none s' := by
  rcases fetchPage_cases h hr with ⟨f, -, hp, rfl⟩ | ⟨-, rfl, -⟩ | ⟨f, s₁, -, hp, ht, h0, h1, rfl⟩
  · exact h.pinFrame hp
  · exact h
  · refine ht.inv.install _ Nat.one_pos (ht.lookup_none hp) ⟨h0, ?_⟩
    rw [ht.numPages_eq]
    exact h1

section pinned
variable {p q : PageId} {f g : Fin n}

theorem frame_ne_of_ne (h : RepInv none s) (hp : s.lookup p = some f) (hq : s.lookup q = some g) (hqp : q ≠ p) : f ≠ g :=
  fun e => hqp (h.lookup_inj (e ▸ hq) hp)

theorem ne_of_absent (hp : s.lookup p = some f) (hq : s.lookup q = none) : q ≠ p := by
  rintro rfl
  cases hp.symm.trans hq

theorem keepsPinned_fetchPage (h : RepInv none s) (hp : s.lookup p = some f) (hpin : 0 < (s.frames f).pinCount)
    {r : Option (Fin n)} (hr : fetchPage q s = .ok r s') : KeepsPinned (.fetchPage q) p f s s' := by
  rcases fetchPage_cases h hr with ⟨g, -, hq, rfl⟩ | ⟨-, rfl, hq, -⟩ | ⟨g, s₁, -, hq, ht, -, -, rfl⟩
  · refine ⟨hp, ?_⟩
    by_cases hqp : q = p
    · subst hqp
      obtain rfl := Option.some.inj (hp.symm.trans hq)
      simp [pinFrame]
    · simp [pinFrame, hqp, frame_ne_of_ne h hp hq hqp]
  · refine ⟨hp, ?_⟩
    simp only [if_neg (ne_of_absent hp hq)]
  · have hk := keepsPinned_install hp hpin ht
      { data := s₁.disk.pages q, pageId := q, pinCount := 1 } hq rfl s₁.disk
    exact ⟨hk.1, by simpa only [if_neg (ne_of_absent hp hq)] using hk.2⟩

theorem keepsPinned_unpinPage (h : RepInv none s) (hp : s.lookup p = some f) (hpin : 0 < (s.frames f).pinCount)
    {d r : Bool} (hr : unpinPage q d s = .ok r s') : KeepsPinned (.unpinPage q d) p f s s' := by
  unfold unpinPage at hr
  split at hr
  · next hq =>
    cases hr
    exact ⟨hp, by simp only [if_neg (ne_of_absent hp hq)]⟩
  · next g hq =>
    split_ifs at hr with h0 <;> cases hr
    · have hqp : q ≠ p := by
        rintro rfl
        obtain rfl := Option.some.inj (hp.symm.trans hq)
        omega
      exact ⟨hp, by simp only [if_neg hqp]⟩
    · refine ⟨hp, ?_⟩
      by_cases hqp : q = p
      · subst hqp
        obtain rfl := Option.some.inj (hp.symm.trans hq)
        simp [unpinFrame]
      · simp [unpinFrame, hqp, frame_ne_of_ne h hp hq hqp]

theorem keepsPinned_flushPage (hp : s.lookup p = some f) {r : Bool} (hr : flushPage q s = .ok r s') :
    KeepsPinned (.flushPage q) p f s s' := by
  unfold flushPage at hr
  split at hr <;> cases hr
  · exact ⟨hp, rfl⟩
  · next g hq =>
    refine ⟨hp, ?_⟩
    by_cases hg : f = g
    · simp [flushFrame, hg]
    · simp [flushFrame, hg]

theorem keepsPinned_deletePage [Zero D] (h : RepInv none s) (hp : s.lookup p = some f)
    (hpin : 0 < (s.frames f).pinCount) {r : Bool} (hr : deletePage q s = .ok r s') : KeepsPinned (.deletePage q) p f s s' := by
  unfold deletePage at hr
  split at hr
  · cases hr
    exact ⟨hp, rfl⟩
  · next g hq =>
    split_ifs at hr with h0 <;> cases hr
    · exact ⟨hp, rfl⟩
    · have hqp : q ≠ p := by
        rintro rfl
        obtain rfl := Option.some.inj (hp.symm.trans hq)
        exact h0 hpin
      refine ⟨?_, ?_⟩
      · change (s.pageTable.erase q).lookup p = some f
        rw [lookup_erase, if_neg (Ne.symm hqp), hp]
      · simp [freeFrame, frame_ne_of_ne h hp hq hqp]

end pinned

variable [Zero D]

theorem newPage_cases {r : Option (PageId × Fin n)} (h : RepInv none s) (hr : newPage s = .ok r s') :
    (r = none ∧ s' = s ∧ s.getFreeFrame = none) ∨
    ∃ f s₁, r = some ((s.disk.numPages : PageId), f) ∧ TookFrame s f s₁ ∧
      s' = ({ s₁ with disk := s₁.disk.allocatePage.2 } : BufferPool D n).install f
        { data := 0, pageId := s.disk.numPages, pinCount := 1 } := by
  unfold newPage at hr
  split at hr
  · next hf =>
    cases hr
    exact Or.inl ⟨rfl, rfl, hf⟩
  · next f s₁ hf =>
    have ht := getFreeFrame_spec h hf
    cases hr
    refine Or.inr ⟨f, s₁, ?_, ht, ?_⟩ <;> simp only [DiskManager.allocatePage, ht.numPages_eq]

theorem repInv_newPage {r : Option (PageId × Fin n)} (h : RepInv none s) (hr : newPage s = .ok r s') :
    RepInv none s' := by
  rcases newPage_cases h hr with ⟨-, rfl, -⟩ | ⟨f, s₁, -, ht, rfl⟩
  · exact h
  · have hinv : RepInv (some f) ({ s₁ with disk := s₁.disk.allocatePage.2 } : BufferPool D n) :=
      { ht.inv with
        allocated := fun p g hp => by
          have := ht.inv.allocated p g hp
          refine ⟨this.1, this.2.trans ?_⟩
          exact_mod_cast Nat.lt_succ_self _ }
    refine hinv.install _ Nat.one_pos (ht.lookup_none h.lookup_numPages) ⟨Int.natCast_nonneg _, ?_⟩
    simp only [DiskManager.allocatePage, ht.numPages_eq]
    exact_mod_cast Nat.lt_succ_self _

theorem repInv_exec {op : PoolOp} (h : RepInv none s) (hr : op.exec s = .ok () s') :
    RepInv none s' := by
  cases op with
  | newPage =>
    obtain ⟨r, hr⟩ := discard_eq_ok.mp hr
    exact repInv_newPage h hr
  | fetchPage p =>
    obtain ⟨r, hr⟩ := discard_eq_ok.mp hr
    exact repInv_fetchPage h hr
  | unpinPage p d =>
    obtain ⟨r, hr⟩ := discard_eq_ok.mp hr
    unfold unpinPage at hr
    split at hr
    · cases hr
      exact h
    · next f hf =>
      split_ifs at hr with h0 <;> cases hr
      · exact h
      · exact h.unpinFrame hf h0 d
  | flushPage p =>
    obtain ⟨r, hr⟩ := discard_eq_ok.mp hr
    unfold flushPage at hr
    split at hr <;> cases hr
    · exact h
    · next f hf => exact h.flushFrame hf
  | flushAllPages =>
    cases hr
    exact (flush_foldl _ h fun _ he => lookup_of_mem_entries he).1
  | deletePage p =>
    obtain ⟨r, hr⟩ := discard_eq_ok.mp hr
    unfold deletePage at hr
    split at hr
    · cases hr
      exact h
    · next f hf =>
      split_ifs at hr with h0 <;> cases hr
      · exact h
      · exact h.freeFrame hf (by omega)

theorem repInv_execAll {ops : List PoolOp} (h : RepInv none s) (hr : execAll ops s = .ok () s') :
    RepInv none s' := by
  induction ops generalizing s with
  | nil =>
    cases hr
    exact h
  | cons op ops ih =>
    obtain ⟨s₁, h1, h2⟩ := execAll_cons_eq_ok.mp hr
    exact ih (repInv_exec h h1) h2

/-! ## A pinned page keeps its frame -/

theorem keepsPinned_newPage {p : PageId} {f : Fin n} (h : RepInv none s) (hp : s.lookup p = some f)
    (hpin : 0 < (s.frames f).pinCount) {r : Option (PageId × Fin n)} (hr : newPage s = .ok r s') :
    KeepsPinned .newPage p f s s' := by
  rcases newPage_cases h hr with ⟨-, rfl, -⟩ | ⟨g, s₁, -, ht, rfl⟩
  · exact ⟨hp, rfl⟩
  · have hk := keepsPinned_install hp hpin ht
      { data := 0, pageId := s.disk.numPages, pinCount := 1 } h.lookup_numPages rfl s₁.disk.allocatePage.2
    exact ⟨hk.1, hk.2⟩

theorem keepsPinned_exec {op : PoolOp} {p : PageId} {f : Fin n} (h : RepInv none s) (hp : s.lookup p = some f)
    (hpin : 0 < (s.frames f).pinCount) (hr : op.exec s = .ok () s') : KeepsPinned op p f s s' := by
  cases op with
  | newPage =>
    obtain ⟨r, hr⟩ := discard_eq_ok.mp hr
    exact keepsPinned_newPage h hp hpin hr
  | fetchPage q =>
    obtain ⟨r, hr⟩ := discard_eq_ok.mp hr
    exact keepsPinned_fetchPage h hp hpin hr
  | unpinPage q d =>
    obtain ⟨r, hr⟩ := discard_eq_ok.mp hr
    exact keepsPinned_unpinPage h hp hpin hr
  | flushPage q =>
    obtain ⟨r, hr⟩ := discard_eq_ok.mp hr
    exact keepsPinned_flushPage hp hr
  | flushAllPages =>
    cases hr
    obtain ⟨-, h2, h3⟩ := flush_foldl s.pageTable.entries h fun _ he => lookup_of_mem_entries he
    exact ⟨(congrArg (AList.lookup p) h2).trans hp, h3 f⟩
  | deletePage q =>
    obtain ⟨r, hr⟩ := discard_eq_ok.mp hr
    exact keepsPinned_deletePage h hp hpin hr

/-- `p` is pinned whenever a call of the run starts. -/
def StaysPinned (p : PageId) : List PoolOp → BufferPool D n → Prop
  | [], _ => True
  | op :: ops, s => 0 < s.pins p ∧ ∀ s', op.exec s = .ok () s' → StaysPinned p ops s'

theorem lookup_of_staysPinned {ops : List PoolOp} {p : PageId} {f : Fin n} (h : RepInv none s)
    (hp : s.lookup p = some f) (hstay : StaysPinned p ops s) (hr : execAll ops s = .ok () s') :
    s'.lookup p = some f := by
  induction ops generalizing s with
  | nil =>
    cases hr
    exact hp
  | cons op ops ih =>
    obtain ⟨s₁, h1, h2⟩ := execAll_cons_eq_ok.mp hr
    have hpin : 0 < (s.frames f).pinCount := by
      have := hstay.1
      rwa [pins, hp] at this
    exact ih (repInv_exec h h1) (keepsPinned_exec h hp hpin h1).lookup_eq (hstay.2 s₁ h1) h2

end Step

theorem RepInv.free_xor_mapped {s : BufferPool D n} (h : RepInv none s) (f : Fin n) :
    (s.freeList.count f = 1 ∧ ∀ p, s.lookup p ≠ some f) ∨
      (s.freeList.count f = 0 ∧ ∃! p, s.lookup p = some f) := by
  by_cases hf : f ∈ s.freeList
  · exact Or.inl ⟨List.count_eq_one_of_mem h.free_nodup hf, h.free_not_mapped f hf⟩
  · obtain ⟨p, hp⟩ := (h.free_or_mapped f (by simp)).resolve_left hf
    exact Or.inr ⟨List.count_eq_zero_of_not_mem hf, p, hp, fun q hq => h.lookup_inj hq hp⟩

end BufferPool

/-- Every run of calls keeps the representation invariant; a pinned page keeps
its frame until the run has released its last pin. -/
theorem execAll_representation [Zero D] (n : Nat) (disk : DiskManager D) (ops : List PoolOp)
    (s : BufferPool D n) (h : execAll ops (BufferPool.init n disk) = .ok () s) :
    (∀ f, (s.freeList.count f = 1 ∧ ∀ p, s.lookup p ≠ some f) ∨
      (s.freeList.count f = 0 ∧ ∃! p, s.lookup p = some f)) ∧
    (∀ p f, s.lookup p = some f → (s.frames f).pageId = p) ∧
    (s.replacer.order.Nodup ∧ ∀ f, f ∈ s.replacer.order ↔ ∃ p, s.lookup p = some f) ∧
    (∀ f, f ∈ s.replacer.evictable ↔
      (∃ p, s.lookup p = some f) ∧ (s.frames f).pinCount = 0) ∧
    (∀ p f, s.lookup p = some f → 0 < (s.frames f).pinCount →
      (∀ op s', op.exec s = .ok () s' → KeepsPinned op p f s s') ∧
      ∀ ops' s', execAll ops' s = .ok () s' → StaysPinned p ops' s → s'.lookup p = some f) := by
  have hinv := repInv_execAll (repInv_init disk) h
  refine ⟨hinv.free_xor_mapped, hinv.page_id, ⟨s.replacer.order_nodup, hinv.order_iff⟩,
    hinv.evictable_iff, ?_⟩
  intro p f hp hpin
  exact ⟨fun op s' hr => keepsPinned_exec hinv hp hpin hr,
    fun ops' s' hr hstay => lookup_of_staysPinned hinv hp hstay hr⟩

/-- A run with an eviction, a failing `NewPage`, a failing `DeletePage` and two
pins on one page. -/
def evictingRun : List PoolOp :=
  [.newPage, .newPage, .newPage, .unpinPage 0 true, .newPage, .deletePage 2, .fetchPage 1]

theorem execAll_representation_evictingRun :
    ∃ s : BufferPool Nat 2, execAll evictingRun (BufferPool.init 2 ⟨0, fun _ => 0⟩) = .ok () s ∧
      s.lookup 1 = some 1 ∧ (s.frames 1).pinCount = 2 ∧
      ∀ ops' s', execAll ops' s = .ok () s' → StaysPinned 1 ops' s → s'.lookup 1 = some 1 :=
  ⟨_, rfl, rfl, rfl, ((execAll_representation 2 ⟨0, fun _ => 0⟩ evictingRun _ rfl).2.2.2.2 1 1 rfl
    (by decide)).2⟩

end MyDB.Storage

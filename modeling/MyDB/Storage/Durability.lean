import MyDB.Storage.TransparentCache

/-! Shutdown. Clients may delete pages too; a deleted page falls back to the
bytes that the disk has of it. Once every pin is released `FlushAllPages` leaves
on disk what was last written. -/

namespace MyDB.Storage
open BufferPool

variable {D : Type} {n : Nat}

section
variable [Zero D]

inductive PoolStep (w : World D n) : World D n → Prop
  | client {w' : World D n} (h : ClientStep w w') : PoolStep w w'
  | deletePage {p : PageId} {s : BufferPool D n} (h : deletePage p w.pool = .ok true s) :
      PoolStep w { w with pool := s, last := Function.update w.last p (s.disk.pages p) }
  | deletePagePinned {p : PageId} {s : BufferPool D n} (h : deletePage p w.pool = .ok false s) :
      PoolStep w { w with pool := s }

inductive PoolRun (disk : DiskManager D) : World D n → Prop
  | init : PoolRun disk (World.init n disk)
  | step {w w' : World D n} (h : PoolRun disk w) (hs : PoolStep w w') : PoolRun disk w'

/-! ## Deleting a page -/

theorem deletePage_cases {p : PageId} {b : Bool} {s s' : BufferPool D n}
    (hr : deletePage p s = .ok b s') :
    (b = true ∧ s.lookup p = none ∧ s' = s) ∨
    (∃ f, b = false ∧ s.lookup p = some f ∧ s' = s) ∨
    ∃ f, b = true ∧ s.lookup p = some f ∧ (s.frames f).pinCount = 0 ∧ s' = s.freeFrame p f := by
  unfold BufferPool.deletePage at hr
  split at hr
  · next hp =>
    cases hr
    exact Or.inl ⟨rfl, hp, rfl⟩
  · next f hp =>
    split_ifs at hr with h0
    · cases hr
      exact Or.inr (Or.inl ⟨f, rfl, hp, rfl⟩)
    · cases hr
      exact Or.inr (Or.inr ⟨f, rfl, hp, Nat.eq_zero_of_not_pos h0, rfl⟩)

theorem lookup_freeFrame (s : BufferPool D n) (p q : PageId) (f : Fin n) :
    (s.freeFrame p f).lookup q = if q = p then none else s.lookup q := lookup_erase s p q

theorem Holds.freeFrame {s : BufferPool D n} {t : PageMap D} (h : Holds s t) {p : PageId} {f : Fin n}
    (hp : s.lookup p = some f) (hpin : (s.frames f).pinCount = 0) :
    Holds (s.freeFrame p f) { t with contents := Function.update t.contents p (s.disk.pages p) } := by
  have hframes {q : PageId} {g : Fin n} (hq : q ≠ p) (hg : s.lookup q = some g) :
      (s.freeFrame p f).frames g = s.frames g :=
    Function.update_of_ne (fun e => hq (h.inv.lookup_inj (e ▸ hg) hp)) _ _
  refine ⟨h.inv.freeFrame hp hpin, ?_, ?_, ?_, h.numPages_eq, ?_, h.pending_pinned⟩
  · intro q
    by_cases hq : q = p
    · subst hq
      simp only [contents, lookup_freeFrame, if_true, Function.update_self]
      rfl
    · have hcon : Function.update t.contents p (s.disk.pages p) q = s.contents q :=
        (Function.update_of_ne hq _ _).trans (h.contents_eq q)
      refine hcon.trans ?_
      cases hl : s.lookup q with
      | none =>
        simp only [contents, lookup_freeFrame, if_neg hq, hl]
        rfl
      | some g => simp only [contents, lookup_freeFrame, if_neg hq, hl, hframes hq hl]
  · intro q
    rw [h.pins_eq]
    by_cases hq : q = p
    · subst hq
      rw [pins_of_lookup hp, hpin]
      simp only [pins, lookup_freeFrame, if_true]
    · cases hl : s.lookup q with
      | none => simp only [pins, lookup_freeFrame, if_neg hq, hl]
      | some g => simp only [pins, lookup_freeFrame, if_neg hq, hl, hframes hq hl]
  · change t.free = (Finset.univ.filter fun g => (Function.update s.frames f _ g).pinCount = 0).card
    rw [card_unpinned_update, h.free_eq]
    simp [hpin, unpinned]
  · intro q g hg hd hpend
    rw [lookup_freeFrame] at hg
    split_ifs at hg with hq
    rw [hframes hq hg] at hd ⊢
    exact h.coherent q g hg hd hpend

theorem World.Inv.deletePage {w : World D n} (h : w.Inv) {p : PageId} {s : BufferPool D n}
    (hr : deletePage p w.pool = .ok true s) :
    World.Inv { w with pool := s, last := Function.update w.last p (s.disk.pages p) } := by
  rcases deletePage_cases hr with ⟨-, hp, rfl⟩ | ⟨f, hb, -⟩ | ⟨f, -, hp, hpin, rfl⟩
  · have hlast : w.last p = w.pool.disk.pages p := by
      have hcon := h.holds.contents_eq p
      simp only [contents, hp] at hcon
      exact hcon
    rw [← hlast, Function.update_eq_self]
    exact h
  · cases hb
  · have hne (pin : Pin n) (hmem : pin ∈ w.held) : pin.page ≠ p := by
      intro e
      have hpos : 0 < w.map.pins p := List.countP_pos_iff.mpr ⟨pin, hmem, by simpa using e⟩
      rw [h.holds.pins_eq, pins_of_lookup hp, hpin] at hpos
      exact absurd hpos (lt_irrefl _)
    refine ⟨World.holds_map (h.holds.freeFrame hp hpin) (fun _ => rfl) (fun _ => rfl) (fun _ hq => hq),
      ?_, h.issued_lt⟩
    intro pin hmem
    rw [lookup_freeFrame, if_neg (hne pin hmem)]
    exact h.held_mapped pin hmem

end

/-! ## Dirty flags

A frame without a page is not dirty. -/

def UnmappedClean (s : BufferPool D n) : Prop :=
  ∀ f, (∀ p, s.lookup p ≠ some f) → (s.frames f).isDirty = false

section Clean
variable {s s₁ s' : BufferPool D n} {p : PageId} {f : Fin n}

theorem UnmappedClean.of_update (h : UnmappedClean s) (hf : ∃ p, s'.lookup p = some f)
    (hlook : ∀ q g, g ≠ f → s.lookup q = some g → s'.lookup q = some g)
    (hframes : ∀ g, g ≠ f → s'.frames g = s.frames g) : UnmappedClean s' := by
  intro g hg
  have hgf : g ≠ f := by
    rintro rfl
    obtain ⟨q, hq⟩ := hf
    exact hg q hq
  rw [hframes g hgf]
  exact h g fun q hq => hg q (hlook q g hgf hq)

theorem UnmappedClean.updateFrame (h : UnmappedClean s) (hp : s.lookup p = some f) (page : Page D)
    (r : LruReplacer (Fin n)) (disk : DiskManager D) :
    UnmappedClean ({ s with frames := Function.update s.frames f page, replacer := r, disk }) :=
  h.of_update ⟨p, hp⟩ (fun _ _ _ hq => hq) fun _ hg => Function.update_of_ne hg _ _

theorem UnmappedClean.install (h : UnmappedClean s) (ht : TookFrame s f s₁) (disk : DiskManager D)
    {page : Page D} (hp : s.lookup page.pageId = none) :
    UnmappedClean (({ s₁ with disk } : BufferPool D n).install f page) := by
  refine h.of_update ⟨page.pageId, AList.lookup_insert _⟩ ?_ ?_
  · intro q g hg hq
    have hne : q ≠ page.pageId := by
      rintro rfl
      rw [hp] at hq
      cases hq
    have hlook : s₁.lookup q = some g := by
      rw [ht.lookup_eq, hq, if_neg fun e => hg (Option.some.inj e)]
    exact (AList.lookup_insert_ne hne).trans hlook
  · intro g hg
    exact (Function.update_of_ne hg _ _).trans (ht.frames_eq g hg)

theorem flush_foldl_dirty (es : List (Σ _ : PageId, Fin n)) {f : Fin n}
    (hd : ((es.foldl flushEntry s).frames f).isDirty = true) :
    (s.frames f).isDirty = true ∧ ∀ e ∈ es, e.2 ≠ f := by
  induction es generalizing s with
  | nil => exact ⟨hd, fun _ he => absurd he List.not_mem_nil⟩
  | cons e es ih =>
    obtain ⟨h1, h2⟩ := ih hd
    have hstep : (s.frames f).isDirty = true ∧ e.2 ≠ f := by
      unfold flushEntry at h1
      split_ifs at h1 with he
      · by_cases hf : e.2 = f
        · rw [← hf] at h1
          exact absurd h1 (by simp [flushFrame])
        · simp only [flushFrame, Function.update_of_ne (Ne.symm hf)] at h1
          exact ⟨h1, hf⟩
      · exact ⟨h1, fun hf => he (hf ▸ h1)⟩
    exact ⟨hstep.1, List.forall_mem_cons.mpr ⟨hstep.2, h2⟩⟩

theorem UnmappedClean.flushAllPages (h : UnmappedClean s) (hr : flushAllPages s = .ok () s') (f : Fin n) :
    (s'.frames f).isDirty = false := by
  cases hr
  by_contra hd
  obtain ⟨hbefore, hes⟩ := flush_foldl_dirty _ (Bool.not_eq_false _ ▸ hd)
  refine Bool.false_ne_true ((h f fun q hq => ?_).symm.trans hbefore)
  exact hes ⟨q, f⟩ (AList.mem_lookup_iff.mp hq) rfl

theorem UnmappedClean.unpinPage {dirty b : Bool} (h : UnmappedClean s)
    (hr : unpinPage p dirty s = .ok b s') : UnmappedClean s' := by
  unfold BufferPool.unpinPage at hr
  split at hr
  · cases hr
    exact h
  · next f hp =>
    split_ifs at hr with h0
    · cases hr
      exact h
    · cases hr
      exact h.updateFrame hp _ _ s.disk

theorem UnmappedClean.flushPage {b : Bool} (h : UnmappedClean s) (hr : flushPage p s = .ok b s') :
    UnmappedClean s' := by
  unfold BufferPool.flushPage at hr
  split at hr
  · cases hr
    exact h
  · next f hp =>
    cases hr
    exact h.updateFrame hp _ s.replacer _

theorem UnmappedClean.fetchPage {r : Option (Fin n)} (h : UnmappedClean s) (hinv : RepInv none s)
    (hr : fetchPage p s = .ok r s') : UnmappedClean s' := by
  rcases fetchPage_cases hinv hr with ⟨f, -, hp, rfl⟩ | ⟨-, rfl, -⟩ | ⟨f, s₁, -, hp, ht, -, -, rfl⟩
  · exact h.updateFrame hp _ _ s.disk
  · exact h
  · exact h.install ht s₁.disk hp

variable [Zero D]

theorem UnmappedClean.newPage {r : Option (PageId × Fin n)} (h : UnmappedClean s) (hinv : RepInv none s)
    (hr : newPage s = .ok r s') : UnmappedClean s' := by
  rcases newPage_cases hinv hr with ⟨-, rfl, -⟩ | ⟨f, s₁, -, ht, rfl⟩
  · exact h
  · exact h.install ht _ hinv.lookup_numPages

theorem UnmappedClean.deletePage {b : Bool} (h : UnmappedClean s) (hr : deletePage p s = .ok b s') :
    UnmappedClean s' := by
  rcases deletePage_cases hr with ⟨-, -, rfl⟩ | ⟨f, -, -, rfl⟩ | ⟨f, -, hp, -, rfl⟩
  · exact h
  · exact h
  · intro g hg
    by_cases hgf : g = f
    · rw [hgf]
      simp [freeFrame]
    · have hframe : (s.freeFrame p f).frames g = s.frames g := Function.update_of_ne hgf _ _
      rw [hframe]
      refine h g fun q hq => hg q ?_
      rw [lookup_freeFrame, if_neg, hq]
      rintro rfl
      exact hgf (Option.some.inj (hq.symm.trans hp))

end Clean

section
variable [Zero D]

theorem UnmappedClean.clientStep {w w' : World D n} (h : UnmappedClean w.pool) (hinv : w.Inv)
    (hs : ClientStep w w') : UnmappedClean w'.pool := by
  cases hs with
  | newPage hr => exact h.newPage hinv.holds.inv hr
  | newPageNull hr => exact h.newPage hinv.holds.inv hr
  | fetchPage hr => exact h.fetchPage hinv.holds.inv hr
  | fetchPageNull hr => exact h.fetchPage hinv.holds.inv hr
  | write hpin hr =>
    cases hr
    exact h.updateFrame (hinv.held_mapped _ hpin) _ w.pool.replacer w.pool.disk
  | unpinPage hpin hdirty hr => exact h.unpinPage hr
  | unpinStray hpin hr => exact h.unpinPage hr
  | flushPage hr => exact h.flushPage hr
  | flushAllPages hr => exact fun f _ => h.flushAllPages hr f

theorem PoolRun.inv {disk : DiskManager D} {w : World D n} (h : PoolRun disk w) :
    w.Inv ∧ UnmappedClean w.pool := by
  induction h with
  | init => exact ⟨World.inv_init disk, fun _ _ => rfl⟩
  | step _ hs ih =>
    cases hs with
    | client hs => exact ⟨ih.1.step hs, ih.2.clientStep ih.1 hs⟩
    | deletePage hr => exact ⟨ih.1.deletePage hr, ih.2.deletePage hr⟩
    | deletePagePinned hr =>
      rcases deletePage_cases hr with ⟨hb, -⟩ | ⟨f, -, -, rfl⟩ | ⟨f, hb, -⟩
      · cases hb
      · exact ih
      · cases hb

end

/-! ## Shutdown -/

theorem Holds.disk_eq {s : BufferPool D n} {t : PageMap D} (h : Holds s t)
    (hclean : ∀ f, (s.frames f).isDirty = false) (hpend : ∀ p, t.pending p = false) :
    s.disk.pages = t.contents := by
  funext p
  rw [h.contents_eq]
  cases hp : s.lookup p with
  | none => simp only [contents, hp]
  | some f =>
    rw [contents_of_lookup hp]
    exact (h.coherent p f hp (hclean f) (hpend p)).symm

section
variable [Zero D]

theorem fetchPage_init {m : Nat} (hm : 0 < m) (disk : DiskManager D) {p : PageId}
    (hp : 0 ≤ p ∧ p < disk.numPages) :
    ∃ f s, fetchPage p (BufferPool.init m disk) = .ok (some f) s ∧ (s.frames f).data = disk.pages p := by
  have hfree : (BufferPool.init m disk).unpinned ≠ 0 := by
    rw [Ne, unpinned_eq_zero_iff]
    exact fun h => absurd (h ⟨0, hm⟩) (lt_irrefl 0)
  have hinv : (World.init m disk).Inv := World.inv_init disk
  obtain ⟨r, s, hr, hq⟩ := (fetchPage_refines p).ok hinv.live (PageMap.fetchPage_ok hp (Or.inr hfree))
  cases r with
  | none => exact hq.elim
  | some f => exact ⟨f, s, hr, (hinv.fetchPage hr).2⟩

/-- After `FlushAllPages`, which the destructor runs, the disk has what was last
written to each page, and a new pool reads just that. -/
theorem flushAllPages_durable {disk : DiskManager D} {w : World D n} (h : PoolRun disk w)
    (hheld : w.held = []) :
    ∃ s, flushAllPages w.pool = .ok () s ∧ s.disk.numPages = w.pool.disk.numPages ∧
      s.disk.pages = w.last ∧ (∀ f, (s.frames f).isDirty = false) ∧
      ∀ m, 0 < m → ∀ p : PageId, 0 ≤ p → p < s.disk.numPages →
        ∃ f s', fetchPage p (BufferPool.init m s.disk) = .ok (some f) s' ∧ (s'.frames f).data = w.last p := by
  obtain ⟨hinv, hclean⟩ := h.inv
  have hrun : flushAllPages w.pool = .ok () (w.pool.pageTable.entries.foldl flushEntry w.pool) := rfl
  have hflags := hclean.flushAllPages hrun
  have hholds := holds_flush_foldl w.pool.pageTable.entries hinv.holds fun _ he => lookup_of_mem_entries he
  have hdisk := hholds.disk_eq hflags fun p => by simp [World.map, hheld]
  refine ⟨_, hrun, hholds.numPages_eq.symm, hdisk, hflags, ?_⟩
  intro m hm p h0 hlt
  rw [← show _ = w.last p from congrFun hdisk p]
  exact fetchPage_init hm _ ⟨h0, hlt⟩

end

theorem flushAllPages_durable_afterDelete :
    ∃ (w : World Nat 1) (s : BufferPool Nat 1), PoolRun ⟨0, fun _ => 0⟩ w ∧ w.held = [] ∧
      flushAllPages w.pool = .ok () s ∧ s.disk.pages 0 = 7 := by
  have h1 : PoolRun (n := 1) ⟨0, fun _ => 0⟩ _ := .step .init (.client (.newPage rfl))
  have h2 : PoolRun (n := 1) ⟨0, fun _ => 0⟩ _ :=
    .step h1 (.client (.write (d := 7) (List.mem_cons_self ..) rfl))
  have h3 : PoolRun (n := 1) ⟨0, fun _ => 0⟩ _ :=
    .step h2 (.client (.unpinPage (List.mem_cons_self ..) (fun _ => rfl) rfl))
  have h4 : PoolRun (n := 1) ⟨0, fun _ => 0⟩ _ := .step h3 (.client (.newPage rfl))
  have h5 : PoolRun (n := 1) ⟨0, fun _ => 0⟩ _ :=
    .step h4 (.client (.unpinPage (List.mem_cons_self ..) (by simp) (rfl : unpinPage 1 false _ = _)))
  have h6 : PoolRun (n := 1) ⟨0, fun _ => 0⟩ _ :=
    .step h5 (.deletePage (rfl : deletePage 1 _ = _))
  obtain ⟨s, hrun, -, hdisk, -⟩ := flushAllPages_durable h6 rfl
  exact ⟨_, s, h6, rfl, hrun, congrFun hdisk 0⟩

end MyDB.Storage

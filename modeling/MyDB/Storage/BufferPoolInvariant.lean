import MyDB.Storage.BufferPool

/-! The representation invariant of the buffer pool. Between `GetFreeFrame` and
the installation of a page one frame is in neither structure, so the invariant
takes that frame as a parameter; `RepInv none` is the invariant between calls. -/

namespace MyDB.Storage.BufferPool
variable {D : Type} {n : Nat}

structure RepInv (off : Option (Fin n)) (s : BufferPool D n) : Prop where
  free_nodup : s.freeList.Nodup
  free_or_mapped : ∀ f, off ≠ some f → f ∈ s.freeList ∨ ∃ p, s.lookup p = some f
  free_not_mapped : ∀ f ∈ s.freeList, ∀ p, s.lookup p ≠ some f
  off_out : ∀ f, off = some f → f ∉ s.freeList ∧ ∀ p, s.lookup p ≠ some f
  page_id : ∀ p f, s.lookup p = some f → (s.frames f).pageId = p
  allocated : ∀ p f, s.lookup p = some f → 0 ≤ p ∧ p < s.disk.numPages
  order_iff : ∀ f, f ∈ s.replacer.order ↔ ∃ p, s.lookup p = some f
  evictable_iff : ∀ f, f ∈ s.replacer.evictable ↔
    (∃ p, s.lookup p = some f) ∧ (s.frames f).pinCount = 0
  unmapped_pin : ∀ f, (∀ p, s.lookup p ≠ some f) → (s.frames f).pinCount = 0

theorem RepInv.lookup_inj {off : Option (Fin n)} {s : BufferPool D n} (h : RepInv off s)
    {p q : PageId} {f : Fin n} (hp : s.lookup p = some f) (hq : s.lookup q = some f) : p = q :=
  (h.page_id p f hp).symm.trans (h.page_id q f hq)

theorem RepInv.lookup_numPages {off : Option (Fin n)} {s : BufferPool D n} (h : RepInv off s) :
    s.lookup s.disk.numPages = none := by
  cases hl : s.lookup s.disk.numPages with
  | none => rfl
  | some g => exact absurd (h.allocated _ g hl).2 (lt_irrefl _)

theorem repInv_init [Zero D] (disk : DiskManager D) : RepInv none (init n disk) where
  free_nodup := List.nodup_finRange n
  free_or_mapped := fun f _ => Or.inl (List.mem_finRange f)
  free_not_mapped := by simp [lookup, init]
  off_out := by simp
  page_id := by simp [lookup, init]
  allocated := by simp [lookup, init]
  order_iff := by simp [lookup, init]
  evictable_iff := by simp [lookup, init]
  unmapped_pin := fun _ _ => rfl

/-! ## Lookups after a change of the page table -/

theorem lookup_insert (s : BufferPool D n) (p q : PageId) (f : Fin n) :
    (s.pageTable.insert p f).lookup q = if q = p then some f else s.lookup q := by
  by_cases h : q = p
  · rw [if_pos h, h, AList.lookup_insert]
  · rw [if_neg h, AList.lookup_insert_ne h]
    rfl

theorem lookup_erase (s : BufferPool D n) (p q : PageId) :
    (s.pageTable.erase p).lookup q = if q = p then none else s.lookup q := by
  by_cases h : q = p
  · rw [if_pos h, h, AList.lookup_erase]
  · rw [if_neg h, AList.lookup_erase_ne h]
    rfl

/-! ## Taking a frame -/

structure TookFrame (s : BufferPool D n) (f : Fin n) (s' : BufferPool D n) : Prop where
  inv : RepInv (some f) s'
  lookup_eq : ∀ q, s'.lookup q = if s.lookup q = some f then none else s.lookup q
  frames_eq : ∀ g, g ≠ f → s'.frames g = s.frames g
  pin_eq : (s'.frames f).pinCount = (s.frames f).pinCount
  pin_zero : (s.frames f).pinCount = 0
  numPages_eq : s'.disk.numPages = s.disk.numPages
  pages_eq : ∀ q, s'.disk.pages q =
    if s.lookup q = some f ∧ (s.frames f).isDirty then (s.frames f).data else s.disk.pages q

theorem TookFrame.lookup_none {s s' : BufferPool D n} {f : Fin n} (ht : TookFrame s f s')
    {p : PageId} (hp : s.lookup p = none) : s'.lookup p = none := by
  rw [ht.lookup_eq, hp]
  rfl

theorem tookFrame_of_free {s : BufferPool D n} (h : RepInv none s) {f : Fin n} {rest : List (Fin n)}
    (hl : s.freeList = f :: rest) : TookFrame s f { s with freeList := rest } := by
  have hnd := h.free_nodup
  rw [hl, List.nodup_cons] at hnd
  have hf : f ∈ s.freeList := by simp [hl]
  have hun := h.free_not_mapped f hf
  have hlook (q : PageId) : ¬ s.lookup q = some f := hun q
  refine ⟨⟨hnd.2, ?_, ?_, ?_, h.page_id, h.allocated, h.order_iff, h.evictable_iff,
    h.unmapped_pin⟩, ?_, fun _ _ => rfl, rfl, h.unmapped_pin f hun, rfl, ?_⟩
  · intro g hg
    rcases h.free_or_mapped g (by simp) with hm | hm
    · rw [hl, List.mem_cons] at hm
      rcases hm with e | hm
      · exact absurd (congrArg some e.symm) hg
      · exact Or.inl hm
    · exact Or.inr hm
  · intro g hg
    exact h.free_not_mapped g (by rw [hl]; exact List.mem_cons_of_mem _ hg)
  · intro g hg
    obtain rfl := Option.some.inj hg
    exact ⟨hnd.1, hun⟩
  · intro q
    rw [if_neg (hlook q)]
    rfl
  · intro q
    rw [if_neg (fun hq => hlook q hq.1)]

theorem tookFrame_of_evict {s : BufferPool D n} (h : RepInv none s) {f : Fin n}
    {r : LruReplacer (Fin n)} (he : s.replacer.evict = some (f, r)) :
    TookFrame s f (evictFrame { s with replacer := r } f) := by
  obtain ⟨-, hord, hev⟩ := s.replacer.evict_eq_some he
  obtain ⟨-, hmem⟩ := s.replacer.mem_of_evict he
  obtain ⟨⟨p, hp⟩, hpin⟩ := (h.evictable_iff f).mp hmem
  have hpid := h.page_id p f hp
  have hiff (q : PageId) : s.lookup q = some f ↔ q = p :=
    ⟨fun hq => h.lookup_inj hq hp, fun e => e ▸ hp⟩
  have hlook (q : PageId) : (evictFrame { s with replacer := r } f).lookup q =
      if s.lookup q = some f then none else s.lookup q := by
    simp only [hiff]
    change (s.pageTable.erase (s.frames f).pageId).lookup q = _
    rw [lookup_erase, hpid]
  have hsome (q : PageId) (g : Fin n) : (evictFrame { s with replacer := r } f).lookup q = some g ↔
      s.lookup q = some g ∧ g ≠ f := by
    rw [hlook]
    split_ifs with hq
    · rw [hq]
      simp only [Option.some.injEq, false_iff, not_and, not_not]
      exact Eq.symm
    · exact ⟨fun e => ⟨e, fun e' => hq (e' ▸ e)⟩, And.left⟩
  have hframes (g : Fin n) (hg : g ≠ f) :
      (evictFrame { s with replacer := r } f).frames g = s.frames g := Function.update_of_ne hg _ _
  have hpinf : ((evictFrame { s with replacer := r } f).frames f).pinCount =
      (s.frames f).pinCount := by
    simp only [evictFrame, Function.update_self]
  have hnum : (evictFrame { s with replacer := r } f).disk.numPages = s.disk.numPages := by
    simp only [evictFrame]
    split_ifs <;> rfl
  have hmapped (g : Fin n) : (∃ q, (evictFrame { s with replacer := r } f).lookup q = some g) ↔
      (∃ q, s.lookup q = some g) ∧ g ≠ f := by
    simp only [hsome, exists_and_right]
  refine ⟨⟨h.free_nodup, ?_, ?_, ?_, ?_, ?_, ?_, ?_, ?_⟩, hlook, hframes, hpinf, hpin, hnum, ?_⟩
  · intro g hg
    rcases h.free_or_mapped g (by simp) with hm | hm
    · exact Or.inl hm
    · exact Or.inr ((hmapped g).mpr ⟨hm, fun e => hg (congrArg some e.symm)⟩)
  · intro g hg q hq
    exact h.free_not_mapped g hg q ((hsome q g).mp hq).1
  · intro g hg
    obtain rfl := Option.some.inj hg
    exact ⟨fun hf => h.free_not_mapped f hf p hp, fun q hq => ((hsome q f).mp hq).2 rfl⟩
  · intro q g hq
    obtain ⟨hq, hg⟩ := (hsome q g).mp hq
    rw [hframes g hg]
    exact h.page_id q g hq
  · intro q g hq
    rw [hnum]
    exact h.allocated q g ((hsome q g).mp hq).1
  · intro g
    change g ∈ r.order ↔ _
    rw [hmapped, hord, List.mem_filter, h.order_iff, decide_eq_true_iff]
  · intro g
    change g ∈ r.evictable ↔ _
    rw [hmapped, hev, Finset.mem_erase, h.evictable_iff]
    by_cases hg : g = f
    · simp [hg]
    · rw [hframes g hg]
      tauto
  · intro g hg
    by_cases hgf : g = f
    · rw [hgf, hpinf, hpin]
    · rw [hframes g hgf]
      exact h.unmapped_pin g (fun q hq => hg q ((hsome q g).mpr ⟨hq, hgf⟩))
  · intro q
    simp only [hiff, evictFrame, hpid]
    by_cases hd : (s.frames f).isDirty
    · simp only [hd, if_true, and_true, DiskManager.writePage, Function.update_apply]
    · simp only [hd, Bool.false_eq_true, if_false, and_false]

theorem getFreeFrame_spec {s : BufferPool D n} (h : RepInv none s) {f : Fin n}
    {s' : BufferPool D n} (he : s.getFreeFrame = some (f, s')) : TookFrame s f s' := by
  unfold getFreeFrame at he
  split at he
  · next g rest hl =>
    obtain ⟨rfl, rfl⟩ := Prod.mk.inj (Option.some.inj he)
    exact tookFrame_of_free h hl
  · split at he
    · next g r hev =>
      obtain ⟨rfl, rfl⟩ := Prod.mk.inj (Option.some.inj he)
      exact tookFrame_of_evict h hev
    · cases he

theorem getFreeFrame_eq_none_iff {s : BufferPool D n} (h : RepInv none s) :
    s.getFreeFrame = none ↔ ∀ f, 0 < (s.frames f).pinCount := by
  unfold getFreeFrame
  cases hl : s.freeList with
  | cons f rest =>
    simp only [reduceCtorEq, false_iff, not_forall, not_lt, nonpos_iff_eq_zero]
    exact ⟨f, h.unmapped_pin f (h.free_not_mapped f (by simp [hl]))⟩
  | nil =>
    have hall (f : Fin n) : ∃ p, s.lookup p = some f :=
      (h.free_or_mapped f (by simp)).resolve_left (by simp [hl])
    have hnone : s.replacer.evict = none ↔ ∀ f, 0 < (s.frames f).pinCount := by
      rw [s.replacer.evict_eq_none_iff]
      constructor
      · intro he f
        rcases Nat.eq_zero_or_pos (s.frames f).pinCount with h0 | h0
        · exact absurd ((h.evictable_iff f).mpr ⟨hall f, h0⟩) (he f ((h.order_iff f).mpr (hall f)))
        · exact h0
      · intro hp f _ hf
        exact absurd ((h.evictable_iff f).mp hf).2 (hp f).ne'
    rw [← hnone]
    cases s.replacer.evict with
    | none => simp
    | some x => simp

/-! ## The operations keep the invariant -/

theorem RepInv.install {s : BufferPool D n} {f : Fin n} (h : RepInv (some f) s) (page : Page D)
    (hpin : 0 < page.pinCount) (hfresh : s.lookup page.pageId = none)
    (halloc : 0 ≤ page.pageId ∧ page.pageId < s.disk.numPages) :
    RepInv none (s.install f page) := by
  have hoff := h.off_out f rfl
  have hlook (q : PageId) : (s.install f page).lookup q =
      if q = page.pageId then some f else s.lookup q := lookup_insert s page.pageId q f
  have hself : (s.install f page).lookup page.pageId = some f := by rw [hlook, if_pos rfl]
  have hsome (q : PageId) (g : Fin n) (hg : g ≠ f) :
      (s.install f page).lookup q = some g ↔ s.lookup q = some g := by
    rw [hlook]
    split_ifs with hq
    · rw [hq, hfresh]
      simpa using hg.symm
    · rfl
  have hframe : (s.install f page).frames f = page := Function.update_self _ _ _
  have hframes (g : Fin n) (hg : g ≠ f) : (s.install f page).frames g = s.frames g :=
    Function.update_of_ne hg _ _
  refine ⟨h.free_nodup, ?_, ?_, by simp, ?_, ?_, ?_, ?_, ?_⟩
  · intro g _
    by_cases hg : g = f
    · exact Or.inr ⟨page.pageId, hg ▸ hself⟩
    · rcases h.free_or_mapped g (fun e => hg (Option.some.inj e).symm) with hm | ⟨q, hq⟩
      · exact Or.inl hm
      · exact Or.inr ⟨q, (hsome q g hg).mpr hq⟩
  · intro g hg q hq
    by_cases hgf : g = f
    · exact hoff.1 (hgf ▸ hg)
    · exact h.free_not_mapped g hg q ((hsome q g hgf).mp hq)
  · intro q g hq
    by_cases hg : g = f
    · subst hg
      rw [hlook] at hq
      split_ifs at hq with hqp
      · rw [hframe, hqp]
      · exact absurd hq (hoff.2 q)
    · rw [hframes g hg]
      exact h.page_id q g ((hsome q g hg).mp hq)
  · intro q g hq
    rw [hlook] at hq
    split_ifs at hq with hqp
    · exact hqp ▸ halloc
    · exact h.allocated q g hq
  · intro g
    change g ∈ (s.replacer.recordAccess f).order ↔ _
    rw [LruReplacer.order_recordAccess, List.mem_cons, List.mem_filter, h.order_iff,
      decide_eq_true_iff]
    by_cases hg : g = f
    · simp only [hg, true_or, true_iff]
      exact ⟨_, hself⟩
    · simp only [hg, hsome _ _ hg, ne_eq, not_false_eq_true, and_true, false_or]
  · intro g
    change g ∈ s.replacer.evictable.erase f ↔ _
    rw [Finset.mem_erase, h.evictable_iff]
    by_cases hg : g = f
    · simp only [hg, hframe, ne_eq, not_true_eq_false, false_and, false_iff, not_and]
      exact fun _ => hpin.ne'
    · simp only [hg, hsome _ _ hg, hframes g hg, ne_eq, not_false_eq_true, true_and]
  · intro g hg
    by_cases hgf : g = f
    · exact absurd (hgf ▸ hself) (hg page.pageId)
    · rw [hframes g hgf]
      exact h.unmapped_pin g (fun q hq => hg q ((hsome q g hgf).mpr hq))

theorem RepInv.updateFrame {s : BufferPool D n} (h : RepInv none s) {p : PageId} {f : Fin n}
    (hp : s.lookup p = some f) (page : Page D) (hid : page.pageId = p) (r : LruReplacer (Fin n))
    (hord : ∀ g, g ∈ r.order ↔ g ∈ s.replacer.order)
    (hev : ∀ g, g ∈ r.evictable ↔ if g = f then page.pinCount = 0 else g ∈ s.replacer.evictable)
    (disk : DiskManager D) (hnum : s.disk.numPages ≤ disk.numPages) :
    RepInv none { s with frames := Function.update s.frames f page, replacer := r, disk } := by
  have hframes (g : Fin n) (hg : g ≠ f) : Function.update s.frames f page g = s.frames g :=
    Function.update_of_ne hg _ _
  refine ⟨h.free_nodup, h.free_or_mapped, h.free_not_mapped, h.off_out, ?_, ?_, ?_, ?_, ?_⟩
  · intro q g hq
    change (Function.update s.frames f page g).pageId = q
    by_cases hg : g = f
    · subst hg
      rw [Function.update_self, hid]
      exact h.lookup_inj hp hq
    · rw [hframes g hg]
      exact h.page_id q g hq
  · intro q g hq
    have := h.allocated q g hq
    exact ⟨this.1, this.2.trans_le (by exact_mod_cast hnum)⟩
  · intro g
    exact (hord g).trans (h.order_iff g)
  · intro g
    change g ∈ r.evictable ↔ (∃ q, s.lookup q = some g) ∧
      (Function.update s.frames f page g).pinCount = 0
    rw [hev]
    by_cases hg : g = f
    · subst hg
      simp only [if_true, Function.update_self, iff_and_self]
      exact fun _ => ⟨p, hp⟩
    · rw [if_neg hg, hframes g hg]
      exact h.evictable_iff g
  · intro g hg
    change (Function.update s.frames f page g).pinCount = 0
    have hgf : g ≠ f := fun e => hg p (e ▸ hp)
    rw [hframes g hgf]
    exact h.unmapped_pin g hg

theorem RepInv.updateData {s : BufferPool D n} (h : RepInv none s) {p : PageId} {f : Fin n}
    (hp : s.lookup p = some f) (page : Page D) (hid : page.pageId = (s.frames f).pageId)
    (hpin : page.pinCount = (s.frames f).pinCount) (disk : DiskManager D)
    (hnum : s.disk.numPages ≤ disk.numPages) :
    RepInv none { s with frames := Function.update s.frames f page, disk } := by
  refine h.updateFrame hp page (hid.trans (h.page_id p f hp)) s.replacer (fun _ => Iff.rfl) ?_
    disk hnum
  intro g
  by_cases hg : g = f
  · subst hg
    rw [if_pos rfl, h.evictable_iff, hpin]
    exact ⟨And.right, fun e => ⟨⟨p, hp⟩, e⟩⟩
  · rw [if_neg hg]

theorem RepInv.pinFrame {s : BufferPool D n} (h : RepInv none s) {p : PageId} {f : Fin n}
    (hp : s.lookup p = some f) : RepInv none (s.pinFrame f) := by
  refine h.updateFrame hp
    { (s.frames f) with pinCount := (s.frames f).pinCount + 1 } (h.page_id p f hp) _ ?_ ?_ s.disk le_rfl
  · intro g
    rw [LruReplacer.order_setEvictable, LruReplacer.order_recordAccess, List.mem_cons,
      List.mem_filter, decide_eq_true_iff]
    by_cases hg : g = f
    · simp only [hg, true_or, true_iff, h.order_iff]
      exact ⟨p, hp⟩
    · simp [hg]
  · intro g
    by_cases hg : g = f <;> simp [hg]

theorem RepInv.unpinFrame {s : BufferPool D n} (h : RepInv none s) {p : PageId} {f : Fin n}
    (hp : s.lookup p = some f) (hpos : (s.frames f).pinCount ≠ 0) (dirty : Bool) :
    RepInv none (s.unpinFrame f dirty) := by
  refine h.updateFrame hp
    { (s.frames f) with
      isDirty := (s.frames f).isDirty || dirty, pinCount := (s.frames f).pinCount - 1 }
    (h.page_id p f hp) _ ?_ ?_ s.disk le_rfl
  · intro g
    split_ifs <;> simp
  · intro g
    by_cases hg : g = f
    · subst hg
      rw [if_pos rfl]
      split_ifs with h1
      · simp [h1]
      · simp only [h1, iff_false, h.evictable_iff, not_and]
        exact fun _ => hpos
    · rw [if_neg hg]
      split_ifs <;> simp [hg]

theorem RepInv.freeFrame [Zero D] {s : BufferPool D n} (h : RepInv none s) {p : PageId} {f : Fin n}
    (hp : s.lookup p = some f) (hpin : (s.frames f).pinCount = 0) :
    RepInv none (s.freeFrame p f) := by
  have hiff (q : PageId) : s.lookup q = some f ↔ q = p :=
    ⟨fun hq => h.lookup_inj hq hp, fun e => e ▸ hp⟩
  have hsome (q : PageId) (g : Fin n) : (s.pageTable.erase p).lookup q = some g ↔
      s.lookup q = some g ∧ g ≠ f := by
    rw [lookup_erase]
    split_ifs with hq
    · rw [hq, hp]
      simp only [Option.some.injEq, false_iff, not_and, not_not]
      exact Eq.symm
    · exact ⟨fun e => ⟨e, fun e' => hq ((hiff q).mp (e' ▸ e))⟩, And.left⟩
  have hmapped (g : Fin n) : (∃ q, (s.pageTable.erase p).lookup q = some g) ↔
      (∃ q, s.lookup q = some g) ∧ g ≠ f := by
    simp only [hsome, exists_and_right]
  have hnf : f ∉ s.freeList := fun hf => h.free_not_mapped f hf p hp
  have hframes (g : Fin n) (hg : g ≠ f) (page : Page D) :
      Function.update s.frames f page g = s.frames g := Function.update_of_ne hg _ _
  refine ⟨?_, ?_, ?_, by simp, ?_, ?_, ?_, ?_, ?_⟩
  · exact List.nodup_append.mpr ⟨h.free_nodup, List.nodup_singleton f,
      fun a ha b hb e => hnf (List.mem_singleton.mp hb ▸ e ▸ ha)⟩
  · intro g _
    change g ∈ s.freeList ++ [f] ∨ ∃ q, (s.pageTable.erase p).lookup q = some g
    rw [hmapped, List.mem_append, List.mem_singleton]
    have := h.free_or_mapped g (by simp)
    tauto
  · intro g hg q hq
    obtain ⟨hq, hgf⟩ := (hsome q g).mp hq
    rcases List.mem_append.mp hg with hg | hg
    · exact h.free_not_mapped g hg q hq
    · exact hgf (List.mem_singleton.mp hg)
  · intro q g hq
    obtain ⟨hq, hgf⟩ := (hsome q g).mp hq
    change (Function.update s.frames f _ g).pageId = q
    rw [hframes g hgf]
    exact h.page_id q g hq
  · intro q g hq
    exact h.allocated q g ((hsome q g).mp hq).1
  · intro g
    change g ∈ (s.replacer.remove f).order ↔ ∃ q, (s.pageTable.erase p).lookup q = some g
    rw [hmapped, LruReplacer.order_remove, List.mem_filter, h.order_iff, decide_eq_true_iff]
  · intro g
    change g ∈ (s.replacer.remove f).evictable ↔
      (∃ q, (s.pageTable.erase p).lookup q = some g) ∧ (Function.update s.frames f _ g).pinCount = 0
    rw [hmapped, LruReplacer.evictable_remove, Finset.mem_erase, h.evictable_iff]
    by_cases hg : g = f
    · simp [hg]
    · rw [hframes g hg]
      tauto
  · intro g hg
    change (Function.update s.frames f _ g).pinCount = 0
    by_cases hgf : g = f
    · rw [hgf, Function.update_self]
      exact hpin
    · rw [hframes g hgf]
      exact h.unmapped_pin g (fun q hq => hg q ((hsome q g).mpr ⟨hq, hgf⟩))

theorem RepInv.setData {off : Option (Fin n)} {s : BufferPool D n} (h : RepInv off s) (f : Fin n) (data : D) :
    RepInv off (s.setData f data) := by
  have hframe (g : Fin n) : ((s.setData f data).frames g).pageId = (s.frames g).pageId ∧
      ((s.setData f data).frames g).pinCount = (s.frames g).pinCount := by
    unfold BufferPool.setData
    by_cases hg : g = f
    · simp [hg]
    · simp [hg]
  refine ⟨h.free_nodup, h.free_or_mapped, h.free_not_mapped, h.off_out, fun p g hp => ?_, h.allocated, h.order_iff,
    fun g => ?_, fun g hg => ?_⟩
  · rw [(hframe g).1]
    exact h.page_id p g hp
  · rw [(hframe g).2]
    exact h.evictable_iff g
  · rw [(hframe g).2]
    exact h.unmapped_pin g hg

theorem RepInv.flushFrame {s : BufferPool D n} (h : RepInv none s) {p : PageId} {f : Fin n}
    (hp : s.lookup p = some f) : RepInv none (s.flushFrame p f) :=
  h.updateData hp { (s.frames f) with isDirty := false } rfl rfl _ le_rfl

end MyDB.Storage.BufferPool

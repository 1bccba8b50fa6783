import MyDB.Lib.Total
import MyDB.Storage.PageStore
import MyDB.Storage.PoolErrors

/-! The pin counts of the pages, through every call on the pool. What they rest on
survives a write that fails, after which the replacer no longer knows every frame. -/

namespace MyDB.Storage
open BufferPool Lib
variable {D : Type} {n : Nat}

/-- The pool whose `WritePage` can throw. -/
def BufferPool.failingStore [Zero D] (io : PageId → Option D) : PageStore (BufferPool D n) D (Fin n) :=
  { BufferPool.store with newPage := newPageIO io, fetchPage := fetchPageIO io }

theorem failingStore_none [Zero D] :
    failingStore (fun _ => none) = (BufferPool.store : PageStore (BufferPool D n) D (Fin n)) := by
  have hfetch : fetchPageIO (fun _ => none) = (fetchPage : PageId → PoolM D n _) := funext fetchPageIO_none
  rw [failingStore, newPageIO_none, hfetch]
  rfl

structure BufferPool.Tracked (s : BufferPool D n) : Prop where
  free_nodup : s.freeList.Nodup
  free_not_mapped : ∀ f ∈ s.freeList, ∀ p, s.lookup p ≠ some f
  page_id : ∀ p f, s.lookup p = some f → (s.frames f).pageId = p
  allocated : ∀ p f, s.lookup p = some f → p < s.disk.numPages
  evictable : ∀ f ∈ s.replacer.evictable, (∃ p, s.lookup p = some f) ∧ (s.frames f).pinCount = 0

namespace BufferPool
variable {s s' : BufferPool D n}

theorem tracked_init [Zero D] (disk : DiskManager D) : Tracked (init n disk) where
  free_nodup := List.nodup_finRange n
  free_not_mapped := by simp [lookup, init]
  page_id := by simp [lookup, init]
  allocated := by simp [lookup, init]
  evictable := by simp [init]

theorem Tracked.lookup_inj (h : Tracked s) {p q : PageId} {f : Fin n} (hp : s.lookup p = some f)
    (hq : s.lookup q = some f) : p = q :=
  (h.page_id p f hp).symm.trans (h.page_id q f hq)

theorem Tracked.lookup_numPages (h : Tracked s) : s.lookup s.disk.numPages = none := by
  cases hl : s.lookup s.disk.numPages with
  | none => rfl
  | some f => exact absurd (h.allocated _ f hl) (lt_irrefl _)

/-! ## Changes that move no pin -/

structure SamePins (s s' : BufferPool D n) : Prop where
  lookup_eq : ∀ p, s'.lookup p = s.lookup p
  free_eq : s'.freeList = s.freeList
  page_id_eq : ∀ f, (s'.frames f).pageId = (s.frames f).pageId
  pin_eq : ∀ f, (s'.frames f).pinCount = (s.frames f).pinCount
  numPages_eq : s'.disk.numPages = s.disk.numPages
  evictable : ∀ f ∈ s'.replacer.evictable, f ∈ s.replacer.evictable

theorem SamePins.refl (s : BufferPool D n) : SamePins s s :=
  ⟨fun _ => rfl, rfl, fun _ => rfl, fun _ => rfl, rfl, fun _ => id⟩

theorem SamePins.trans {s₁ : BufferPool D n} (h : SamePins s s₁) (h₁ : SamePins s₁ s') : SamePins s s' where
  lookup_eq := fun p => (h₁.lookup_eq p).trans (h.lookup_eq p)
  free_eq := h₁.free_eq.trans h.free_eq
  page_id_eq := fun f => (h₁.page_id_eq f).trans (h.page_id_eq f)
  pin_eq := fun f => (h₁.pin_eq f).trans (h.pin_eq f)
  numPages_eq := h₁.numPages_eq.trans h.numPages_eq
  evictable := fun f hf => h.evictable f (h₁.evictable f hf)

theorem SamePins.tracked (hsame : SamePins s s') (h : Tracked s) : Tracked s' := by
  obtain ⟨hlook, hfree, hid, hpin, hnum, hev⟩ := hsame
  refine ⟨hfree ▸ h.free_nodup, ?_, ?_, ?_, ?_⟩
  · intro f hf p
    rw [hlook]
    exact h.free_not_mapped f (hfree ▸ hf) p
  · intro p f hp
    rw [hid]
    exact h.page_id p f (hlook p ▸ hp)
  · intro p f hp
    rw [hnum]
    exact h.allocated p f (hlook p ▸ hp)
  · intro f hf
    simp only [hlook, hpin]
    exact h.evictable f (hev f hf)

theorem SamePins.pins_eq (hsame : SamePins s s') : s'.pins = s.pins := by
  funext p
  simp only [pins, hsame.lookup_eq, hsame.pin_eq]

theorem samePins_update (f : Fin n) (page : Page D) (hid : page.pageId = (s.frames f).pageId)
    (hpin : page.pinCount = (s.frames f).pinCount) (disk : DiskManager D)
    (hnum : disk.numPages = s.disk.numPages) :
    SamePins s { s with frames := Function.update s.frames f page, disk } := by
  refine ⟨fun _ => rfl, rfl, fun g => ?_, fun g => ?_, hnum, fun _ => id⟩
  · by_cases hg : g = f
    · simp [hg, hid]
    · simp [hg]
  · by_cases hg : g = f
    · simp [hg, hpin]
    · simp [hg]

theorem samePins_setData (f : Fin n) (data : D) : SamePins s (s.setData f data) :=
  samePins_update f { s.frames f with data } rfl rfl s.disk rfl

theorem samePins_flushFrame (p : PageId) (f : Fin n) : SamePins s (s.flushFrame p f) :=
  samePins_update f { s.frames f with isDirty := false } rfl rfl _ rfl

theorem samePins_flushAll (es : List (Σ _ : PageId, Fin n)) (s : BufferPool D n) :
    SamePins s (es.foldl flushEntry s) := by
  induction es generalizing s with
  | nil => exact .refl s
  | cons e es ih =>
    refine SamePins.trans ?_ (ih _)
    unfold flushEntry
    split_ifs
    · exact samePins_flushFrame e.1 e.2
    · exact .refl s

theorem samePins_writeFails {io : PageId → Option D} {e : Fault} (h : getFreeFrameIO io s = .error e s') :
    SamePins s s' := by
  obtain ⟨-, f, replacer, torn, hev, -, -, -, rfl⟩ := getFreeFrameIO_eq_error.mp h
  obtain ⟨-, -, hset⟩ := s.replacer.evict_eq_some hev
  refine ⟨fun _ => rfl, rfl, fun _ => rfl, fun _ => rfl, rfl, fun g hg => ?_⟩
  change g ∈ replacer.evictable at hg
  rw [hset] at hg
  exact Finset.mem_of_mem_erase hg

/-! ## Pinning and unpinning a resident page -/

theorem Tracked.updateFrame (h : Tracked s) {p : PageId} {f : Fin n} (hp : s.lookup p = some f) (page : Page D)
    (hid : page.pageId = (s.frames f).pageId) (r : LruReplacer (Fin n))
    (hev : ∀ g ∈ r.evictable, if g = f then page.pinCount = 0 else g ∈ s.replacer.evictable) :
    Tracked { s with frames := Function.update s.frames f page, replacer := r } ∧
      BufferPool.pins { s with frames := Function.update s.frames f page, replacer := r } =
        Function.update s.pins p page.pinCount := by
  have hother (g : Fin n) (hg : g ≠ f) : Function.update s.frames f page g = s.frames g := Function.update_of_ne hg _ _
  refine ⟨⟨h.free_nodup, h.free_not_mapped, ?_, h.allocated, ?_⟩, funext fun q => ?_⟩
  · intro q g hq
    rw [← h.page_id q g hq]
    by_cases hg : g = f
    · simp [hg, hid]
    · simp [hg]
  · intro g hg
    have hg' := hev g hg
    by_cases hgf : g = f
    · subst hgf
      rw [if_pos rfl] at hg'
      exact ⟨⟨p, hp⟩, by simpa using hg'⟩
    · rw [if_neg hgf] at hg'
      obtain ⟨hmapped, hzero⟩ := h.evictable g hg'
      exact ⟨hmapped, (congrArg Page.pinCount (hother g hgf)).trans hzero⟩
  · by_cases hq : q = p
    · subst hq
      rw [pins_of_lookup (s := { s with frames := Function.update s.frames f page, replacer := r }) hp]
      simp
    · rw [Function.update_of_ne hq]
      cases hl : s.lookup q with
      | none =>
        rw [pins_of_not_resident hl]
        exact pins_of_not_resident hl
      | some g =>
        have hg : g ≠ f := fun e => hq (h.lookup_inj (e ▸ hl) hp)
        rw [pins_of_lookup hl, ← hother g hg]
        exact pins_of_lookup hl

theorem Tracked.pinFrame (h : Tracked s) {p : PageId} {f : Fin n} (hp : s.lookup p = some f) :
    Tracked (s.pinFrame f) ∧ (s.pinFrame f).pins = Function.update s.pins p (s.pins p + 1) := by
  rw [pins_of_lookup hp]
  refine h.updateFrame hp { s.frames f with pinCount := (s.frames f).pinCount + 1 } rfl _ fun g hg => ?_
  rw [LruReplacer.evictable_setEvictable, LruReplacer.evictable_recordAccess] at hg
  have hg' := Finset.mem_erase.mp hg
  rw [if_neg hg'.1]
  exact hg'.2

theorem Tracked.unpinFrame (h : Tracked s) {p : PageId} {f : Fin n} (hp : s.lookup p = some f) (dirty : Bool)
    (hpos : (s.frames f).pinCount ≠ 0) :
    Tracked (s.unpinFrame f dirty) ∧ (s.unpinFrame f dirty).pins = Function.update s.pins p (s.pins p - 1) := by
  rw [pins_of_lookup hp]
  refine h.updateFrame hp
    { s.frames f with isDirty := (s.frames f).isDirty || dirty, pinCount := (s.frames f).pinCount - 1 } rfl _
    fun g hg => ?_
  by_cases hgf : g = f
  · subst hgf
    rw [if_pos rfl]
    split_ifs at hg with hzero
    · exact hzero
    · exact absurd (h.evictable g hg).2 hpos
  · rw [if_neg hgf]
    split_ifs at hg with hzero
    · simpa [hgf] using hg
    · exact hg

/-! ## Taking a frame -/

structure Took (s : BufferPool D n) (f : Fin n) (s₁ : BufferPool D n) : Prop where
  tracked : Tracked s₁
  not_free : f ∉ s₁.freeList
  not_mapped : ∀ p, s₁.lookup p ≠ some f
  pins_eq : s₁.pins = s.pins
  lookup_none : ∀ p, s.lookup p = none → s₁.lookup p = none
  numPages_eq : s₁.disk.numPages = s.disk.numPages

theorem Tracked.took_free (h : Tracked s) {f : Fin n} {rest : List (Fin n)} (hl : s.freeList = f :: rest) :
    Took s f { s with freeList := rest } := by
  have hnd := h.free_nodup
  rw [hl, List.nodup_cons] at hnd
  refine ⟨⟨hnd.2, fun g hg => ?_, h.page_id, h.allocated, h.evictable⟩, hnd.1, ?_, rfl, fun _ => id, rfl⟩
  · exact h.free_not_mapped g (hl ▸ List.mem_cons_of_mem f hg)
  · exact h.free_not_mapped f (hl ▸ List.mem_cons_self)

theorem Tracked.took_evict (h : Tracked s) {f : Fin n} {r : LruReplacer (Fin n)} (he : s.replacer.evict = some (f, r)) :
    Took s f (evictFrame { s with replacer := r } f) := by
  obtain ⟨-, -, hset⟩ := s.replacer.evict_eq_some he
  obtain ⟨⟨p, hp⟩, hzero⟩ := h.evictable f (s.replacer.mem_of_evict he).2
  have hlook (q : PageId) : (evictFrame { s with replacer := r } f).lookup q = if q = p then none else s.lookup q := by
    rw [← h.page_id p f hp]
    exact lookup_erase s _ q
  have hsome {q : PageId} {g : Fin n} (hq : (evictFrame { s with replacer := r } f).lookup q = some g) :
      s.lookup q = some g ∧ g ≠ f := by
    rw [hlook] at hq
    split_ifs at hq with hqp
    exact ⟨hq, fun e => hqp (h.lookup_inj (e ▸ hq) hp)⟩
  have hother (g : Fin n) (hg : g ≠ f) : (evictFrame { s with replacer := r } f).frames g = s.frames g :=
    Function.update_of_ne hg _ _
  have hnum : (evictFrame { s with replacer := r } f).disk.numPages = s.disk.numPages := by
    simp only [evictFrame]
    split_ifs <;> rfl
  refine ⟨⟨h.free_nodup, fun g hg q hq => h.free_not_mapped g hg q (hsome hq).1, ?_, ?_, ?_⟩,
    fun hf => h.free_not_mapped f hf p hp, fun q hq => (hsome hq).2 rfl, funext fun q => ?_, fun q hq => ?_, hnum⟩
  · intro q g hq
    rw [hother g (hsome hq).2]
    exact h.page_id q g (hsome hq).1
  · intro q g hq
    rw [hnum]
    exact h.allocated q g (hsome hq).1
  · intro g hg
    change g ∈ r.evictable at hg
    rw [hset, Finset.mem_erase] at hg
    obtain ⟨⟨q, hq⟩, hpin⟩ := h.evictable g hg.2
    have hqp : q ≠ p := fun e => hg.1 (Option.some.inj (hq.symm.trans (e ▸ hp)))
    refine ⟨⟨q, by rw [hlook, if_neg hqp, hq]⟩, ?_⟩
    rw [hother g hg.1, hpin]
  -- the page of the victim leaves the table, and has no pin to lose
  · by_cases hq : q = p
    · rw [hq, pins_of_lookup hp, hzero]
      exact pins_of_not_resident (by rw [hlook, if_pos rfl])
    · have hsame : (evictFrame { s with replacer := r } f).lookup q = s.lookup q := by rw [hlook, if_neg hq]
      cases hl : s.lookup q with
      | none => rw [pins_of_not_resident hl, pins_of_not_resident (hsame.trans hl)]
      | some g => rw [pins_of_lookup hl, pins_of_lookup (hsame.trans hl), hother g (hsome (hsame.trans hl)).2]
  · rw [hlook, hq]
    split_ifs <;> rfl

theorem took_of_getFreeFrame (h : Tracked s) {io : PageId → Option D} {f : Fin n}
    (hrun : getFreeFrameIO io s = .ok (some f) s') : Took s f s' := by
  unfold getFreeFrameIO at hrun
  split at hrun
  · next g rest hl =>
    cases hrun
    exact h.took_free hl
  · split at hrun
    · cases hrun
    · next g r hev =>
      dsimp only at hrun
      split at hrun
      · cases hrun
      · cases hrun
        exact h.took_evict hev

theorem getFreeFrameIO_eq_none {io : PageId → Option D} (hrun : getFreeFrameIO io s = .ok none s') : s' = s := by
  unfold getFreeFrameIO at hrun
  split at hrun
  · cases hrun
  · split at hrun
    · cases hrun
      rfl
    · dsimp only at hrun
      split at hrun <;> cases hrun

theorem Took.install {s₁ : BufferPool D n} {f : Fin n} (ht : Took s f s₁) {p : PageId} (hp : s.lookup p = none)
    (disk : DiskManager D) (hnum : s.disk.numPages ≤ disk.numPages) (hrange : p < disk.numPages) (data : D) :
    Tracked (({ s₁ with disk } : BufferPool D n).install f { data, pageId := p, pinCount := 1 }) ∧
      (({ s₁ with disk } : BufferPool D n).install f { data, pageId := p, pinCount := 1 }).pins =
        Function.update s.pins p (s.pins p + 1) := by
  set t := ({ s₁ with disk } : BufferPool D n).install f { data, pageId := p, pinCount := 1 } with hdef
  have h := ht.tracked
  have hlook (q : PageId) : t.lookup q = if q = p then some f else s₁.lookup q := lookup_insert s₁ p q f
  have hself : t.frames f = { data, pageId := p, pinCount := 1 } := Function.update_self _ _ _
  have hother (g : Fin n) (hg : g ≠ f) : t.frames g = s₁.frames g := Function.update_of_ne hg _ _
  have hne {q : PageId} {g : Fin n} (hq : s₁.lookup q = some g) : g ≠ f := fun e => ht.not_mapped q (e ▸ hq)
  refine ⟨⟨h.free_nodup, ?_, ?_, ?_, ?_⟩, funext fun q => ?_⟩
  · intro g hg q hq
    rw [hlook] at hq
    split_ifs at hq with hqp
    · exact ht.not_free (Option.some.inj hq ▸ hg)
    · exact h.free_not_mapped g hg q hq
  · intro q g hq
    rw [hlook] at hq
    split_ifs at hq with hqp
    · rw [← Option.some.inj hq, hself, hqp]
    · rw [hother g (hne hq)]
      exact h.page_id q g hq
  · intro q g hq
    rw [hlook] at hq
    split_ifs at hq with hqp
    · exact hqp ▸ hrange
    · have := ht.numPages_eq ▸ h.allocated q g hq
      exact this.trans_le (by exact_mod_cast hnum)
  · intro g hg
    change g ∈ s₁.replacer.evictable.erase f at hg
    obtain ⟨hgf, hg⟩ := Finset.mem_erase.mp hg
    obtain ⟨⟨q, hq⟩, hzero⟩ := h.evictable g hg
    have hqp : q ≠ p := fun e => by
      rw [e, ht.lookup_none p hp] at hq
      cases hq
    exact ⟨⟨q, by rw [hlook, if_neg hqp, hq]⟩, by rw [hother g hgf, hzero]⟩
  · by_cases hq : q = p
    · subst hq
      rw [Function.update_self, pins_of_not_resident hp, pins_of_lookup (by rw [hlook, if_pos rfl]), hself]
    · rw [Function.update_of_ne hq, ← ht.pins_eq]
      have hsame : t.lookup q = s₁.lookup q := by rw [hlook, if_neg hq]
      cases hl : s₁.lookup q with
      | none => rw [pins_of_not_resident hl, pins_of_not_resident (hsame.trans hl)]
      | some g => rw [pins_of_lookup hl, pins_of_lookup (hsame.trans hl), hother g (hne hl)]

theorem Tracked.freeFrame [Zero D] (h : Tracked s) {p : PageId} {f : Fin n} (hp : s.lookup p = some f) :
    Tracked (s.freeFrame p f) := by
  have hsome {q : PageId} {g : Fin n} (hq : (s.freeFrame p f).lookup q = some g) : s.lookup q = some g ∧ g ≠ f := by
    change (s.pageTable.erase p).lookup q = some g at hq
    rw [lookup_erase] at hq
    split_ifs at hq with hqp
    exact ⟨hq, fun e => hqp (h.lookup_inj (e ▸ hq) hp)⟩
  have hother (g : Fin n) (hg : g ≠ f) : (s.freeFrame p f).frames g = s.frames g := Function.update_of_ne hg _ _
  refine ⟨?_, ?_, ?_, fun q g hq => h.allocated q g (hsome hq).1, ?_⟩
  · exact List.nodup_append.mpr ⟨h.free_nodup, List.nodup_singleton f,
      fun g hg k hk e => h.free_not_mapped g hg p (by rw [e, List.mem_singleton.mp hk, hp])⟩
  · intro g hg q hq
    rcases List.mem_append.mp hg with hg | hg
    · exact h.free_not_mapped g hg q (hsome hq).1
    · exact (hsome hq).2 (List.mem_singleton.mp hg)
  · intro q g hq
    rw [hother g (hsome hq).2]
    exact h.page_id q g (hsome hq).1
  · intro g hg
    change g ∈ (s.replacer.remove f).evictable at hg
    rw [LruReplacer.evictable_remove, Finset.mem_erase] at hg
    obtain ⟨⟨q, hq⟩, hzero⟩ := h.evictable g hg.2
    have hqp : q ≠ p := fun e => hg.1 (Option.some.inj (hq.symm.trans (e ▸ hp)))
    refine ⟨⟨q, ?_⟩, by rw [hother g hg.1, hzero]⟩
    change (s.pageTable.erase p).lookup q = some g
    rw [lookup_erase, if_neg hqp, hq]

end BufferPool

/-! ## The calls -/

def AtPins (π : PageId → Nat) (s : BufferPool D n) : Prop := s.Tracked ∧ s.pins = π

def withPin (π : PageId → Nat) (p : PageId) : PageId → Nat := Function.update π p (π p + 1)

section Calls
variable {io : PageId → Option D} {π : PageId → Nat} {s s' : BufferPool D n}

theorem newPage_atPins [Zero D] {r : Option (PageId × Fin n)} (h : AtPins π s) (hrun : newPageIO io s = .ok r s') :
    r.elim (AtPins π s') fun x => AtPins (withPin π x.1) s' := by
  obtain ⟨h, rfl⟩ := h
  unfold newPageIO at hrun
  split at hrun
  · cases hrun
  · next s₁ hfree =>
    cases hrun
    rw [getFreeFrameIO_eq_none hfree]
    exact ⟨h, rfl⟩
  · next f s₁ hfree =>
    have ht := took_of_getFreeFrame h hfree
    cases hrun
    have hnum : s₁.disk.allocatePage.2.numPages = s.disk.numPages + 1 := by
      simp only [DiskManager.allocatePage, ht.numPages_eq]
    have hfresh : s.lookup s₁.disk.numPages = none := by
      rw [ht.numPages_eq]
      exact h.lookup_numPages
    refine ht.install hfresh s₁.disk.allocatePage.2 (by omega) ?_ 0
    rw [hnum, ht.numPages_eq]
    exact_mod_cast Nat.lt_succ_self _

theorem fetchPage_atPins {p : PageId} {r : Option (Fin n)} (h : AtPins π s) (hrun : fetchPageIO io p s = .ok r s') :
    r.elim (AtPins π s') fun _ => AtPins (withPin π p) s' := by
  obtain ⟨h, rfl⟩ := h
  unfold fetchPageIO at hrun
  split at hrun
  · next f hp =>
    cases hrun
    exact h.pinFrame hp
  · next hp =>
    split at hrun
    · cases hrun
    · next s₁ hfree =>
      cases hrun
      rw [getFreeFrameIO_eq_none hfree]
      exact ⟨h, rfl⟩
    · next f s₁ hfree =>
      have ht := took_of_getFreeFrame h hfree
      split at hrun
      · cases hrun
      · next data hread =>
        unfold DiskManager.readPage at hread
        split_ifs at hread with hrange
        cases hrun
        exact ht.install hp s₁.disk ht.numPages_eq.ge hrange.2 data

theorem unpinPage_atPins {p : PageId} {dirty b : Bool} (h : AtPins (withPin π p) s)
    (hrun : unpinPage p dirty s = .ok b s') : AtPins π s' := by
  obtain ⟨h, hpins⟩ := h
  have hp : s.pins p = π p + 1 := by rw [hpins, withPin, Function.update_self]
  unfold unpinPage at hrun
  split at hrun
  -- the pin to give back is there, so the page is resident
  · next hl =>
    rw [pins_of_not_resident hl] at hp
    omega
  · next f hl =>
    rw [pins_of_lookup hl] at hp
    rw [if_neg (by omega)] at hrun
    cases hrun
    obtain ⟨hnew, hpins'⟩ := h.unpinFrame hl dirty (by omega)
    refine ⟨hnew, ?_⟩
    rw [hpins', hpins, withPin, Function.update_idem, Function.update_self, Nat.add_sub_cancel, Function.update_eq_self]

end Calls

/-- The pools that calls, writes through page pointers and failing writes lead to. -/
inductive BufferPool.ReachableFailing [Zero D] (disk : DiskManager D) : BufferPool D n → Prop
  | init : ReachableFailing disk (init n disk)
  | exec {s s' : BufferPool D n} {op : PoolOp} : ReachableFailing disk s → op.exec s = .ok () s' → ReachableFailing disk s'
  | write {s : BufferPool D n} (f : Fin n) (data : D) : ReachableFailing disk s → ReachableFailing disk (s.setData f data)
  | evictFails {s s' : BufferPool D n} {io : PageId → Option D} {e : Fault} : ReachableFailing disk s →
      getFreeFrameIO io s = .error e s' → ReachableFailing disk s'
  -- `FlushPage` and `FlushAllPages` leave the page that they fail to write as it is
  | flushFails {s : BufferPool D n} (p : PageId) (torn : D) : ReachableFailing disk s →
      ReachableFailing disk { s with disk := s.disk.writePage p torn }

theorem tracked_exec [Zero D] {s s' : BufferPool D n} {op : PoolOp} (h : s.Tracked) (hrun : op.exec s = .ok () s') :
    s'.Tracked := by
  have hstart : AtPins s.pins s := ⟨h, rfl⟩
  cases op with
  | newPage =>
    obtain ⟨r, hrun⟩ := discard_eq_ok.mp hrun
    rw [← newPageIO_none] at hrun
    cases r with
    | none => exact (newPage_atPins hstart hrun).1
    | some x => exact (newPage_atPins hstart hrun).1
  | fetchPage p =>
    obtain ⟨r, hrun⟩ := discard_eq_ok.mp hrun
    rw [← fetchPageIO_none] at hrun
    cases r with
    | none => exact (fetchPage_atPins hstart hrun).1
    | some f => exact (fetchPage_atPins hstart hrun).1
  | unpinPage p dirty =>
    obtain ⟨r, hrun⟩ := discard_eq_ok.mp hrun
    unfold unpinPage at hrun
    split at hrun
    · cases hrun
      exact h
    · next f hp =>
      split_ifs at hrun with hzero <;> cases hrun
      · exact h
      · exact (h.unpinFrame hp dirty hzero).1
  | flushPage p =>
    obtain ⟨r, hrun⟩ := discard_eq_ok.mp hrun
    unfold flushPage at hrun
    split at hrun <;> cases hrun
    · exact h
    · next f hp => exact (samePins_flushFrame p f).tracked h
  | flushAllPages =>
    cases hrun
    exact (samePins_flushAll _ s).tracked h
  | deletePage p =>
    obtain ⟨r, hrun⟩ := discard_eq_ok.mp hrun
    unfold deletePage at hrun
    split at hrun
    · cases hrun
      exact h
    · next f hp =>
      split_ifs at hrun <;> cases hrun
      · exact h
      · exact h.freeFrame hp

theorem BufferPool.ReachableFailing.tracked [Zero D] {disk : DiskManager D} {s : BufferPool D n}
    (h : ReachableFailing disk s) : s.Tracked := by
  induction h with
  | init => exact tracked_init disk
  | exec _ hrun ih => exact tracked_exec ih hrun
  | write f data _ ih => exact (samePins_setData f data).tracked ih
  | evictFails _ hfail ih => exact (samePins_writeFails hfail).tracked ih
  | flushFails p torn _ ih => exact ⟨ih.free_nodup, ih.free_not_mapped, ih.page_id, ih.allocated, ih.evictable⟩

/-! ## Rules -/

section Rules
variable [Zero D] {io : PageId → Option D} {π : PageId → Nat} {α : Type} {Q : α → BufferPool D n → Prop}

theorem newPage_ensures {k : Option (PageId × Fin n) → PoolM D n α} (hnone : Ensures (AtPins π) (k none) Q)
    (hsome : ∀ p f, Ensures (AtPins (withPin π p)) (k (some (p, f))) Q) :
    Ensures (AtPins π) ((failingStore io).newPage >>= k) Q := by
  refine Ensures.bind (fun s r s' hs hrun => newPage_atPins hs hrun) fun r => ?_
  cases r with
  | none => exact hnone
  | some x => exact hsome x.1 x.2

theorem fetchPage_ensures {p : PageId} {k : Option (Fin n) → PoolM D n α} (hnone : Ensures (AtPins π) (k none) Q)
    (hsome : ∀ f, Ensures (AtPins (withPin π p)) (k (some f)) Q) :
    Ensures (AtPins π) ((failingStore io).fetchPage p >>= k) Q := by
  refine Ensures.bind (fun s r s' hs hrun => fetchPage_atPins hs hrun) fun r => ?_
  cases r with
  | none => exact hnone
  | some f => exact hsome f

theorem unpinPage_ensures {p : PageId} {dirty : Bool} {k : Bool → PoolM D n α}
    (h : ∀ b, Ensures (AtPins π) (k b) Q) :
    Ensures (AtPins (withPin π p)) ((failingStore io).unpinPage p dirty >>= k) Q :=
  Ensures.bind (fun _ _ _ hs hrun => unpinPage_atPins hs hrun) h

theorem readData_ensures {f : Fin n} {k : D → PoolM D n α} (h : ∀ d, Ensures (AtPins π) (k d) Q) :
    Ensures (AtPins π) ((failingStore io).readData f >>= k) Q := by
  refine Ensures.bind (fun s d s' hs hrun => ?_) h
  cases hrun
  exact hs

theorem writeData_ensures {f : Fin n} {d : D} {k : Unit → PoolM D n α} (h : Ensures (AtPins π) (k ()) Q) :
    Ensures (AtPins π) ((failingStore io).writeData f d >>= k) Q := by
  refine Ensures.bind (fun s _ s' hs hrun => ?_) fun _ => h
  cases hrun
  have hsame : SamePins s (s.setData f d) := samePins_setData f d
  exact ⟨hsame.tracked hs.1, hsame.pins_eq.trans hs.2⟩

theorem numPages_ensures {k : Nat → PoolM D n α} (h : ∀ m, Ensures (AtPins π) (k m) Q) :
    Ensures (AtPins π) ((failingStore io).numPages >>= k) Q := by
  refine Ensures.bind (fun s m s' hs hrun => ?_) h
  cases hrun
  exact hs

end Rules

/-- A call that returns leaves the pin counts as they were. -/
def Balanced {α : Type} (x : PoolM D n α) : Prop := ∀ π, Ensures (AtPins π) x fun _ => AtPins π

namespace Balanced
variable {α β : Type} {π : PageId → Nat} {Q : β → BufferPool D n → Prop}

theorem bind {x : PoolM D n α} {k : α → PoolM D n β} (hx : Balanced x) (hk : ∀ a, Ensures (AtPins π) (k a) Q) :
    Ensures (AtPins π) (x >>= k) Q := Ensures.bind (hx π) hk

theorem pure (a : α) : Ensures (AtPins π) (Pure.pure a : PoolM D n α) fun _ => AtPins π := Ensures.pure fun _ => id

theorem ofExcept (x : Except Fault α) : Balanced (MyDB.ofExcept x : PoolM D n α) := by
  intro π s a s' hs hrun
  cases x with
  | ok b =>
    cases hrun
    exact hs
  | error e => cases hrun

theorem pins_eq {x : PoolM D n α} (h : Balanced x) {s s' : BufferPool D n} {a : α} (hs : s.Tracked)
    (hrun : x s = .ok a s') : s'.pins = s.pins := (h s.pins s a s' ⟨hs, rfl⟩ hrun).2

end Balanced

end MyDB.Storage

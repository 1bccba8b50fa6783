import MyDB.Lib.Refinement
import MyDB.Storage.BufferPoolRuns

/-! What the buffer pool is for: a store of pages that reads back what was last
written, with a count of the frames nobody pins. The storage structures are
written over the interface `PageStore`; the pool implements it with frames, the
abstract store `PageMap` without them, and the pool refines the abstract store. -/

namespace MyDB.Storage

/-- The calls that the access methods make on `bpm_` and on a `Page*`. -/
structure PageStore (σ D Ptr : Type) where
  newPage : EStateM Fault σ (Option (PageId × Ptr))
  fetchPage : PageId → EStateM Fault σ (Option Ptr)
  unpinPage : PageId → Bool → EStateM Fault σ Bool
  readData : Ptr → EStateM Fault σ D
  writeData : Ptr → D → EStateM Fault σ Unit
  /-- Bounds the loops of the model: no walk over distinct pages is longer. -/
  numPages : EStateM Fault σ Nat

variable {D : Type} {n : Nat}

def BufferPool.store [Zero D] : PageStore (BufferPool D n) D (Fin n) where
  newPage := newPage
  fetchPage := fetchPage
  unpinPage := unpinPage
  readData := readData
  writeData := writeData
  numPages := fun s => .ok s.disk.numPages s

/-- `pending` marks a page written under a pin that is still to be released. -/
structure PageMap (D : Type) where
  contents : PageId → D
  pins : PageId → Nat
  free : Nat
  numPages : Nat
  pending : PageId → Bool

namespace PageMap

def pin (t : PageMap D) (p : PageId) : PageMap D :=
  { t with
    pins := Function.update t.pins p (t.pins p + 1)
    free := if t.pins p = 0 then t.free - 1 else t.free }

def unpin (t : PageMap D) (p : PageId) (dirty : Bool) : PageMap D :=
  { t with
    pins := Function.update t.pins p (t.pins p - 1)
    free := if t.pins p = 1 then t.free + 1 else t.free
    pending := if dirty then Function.update t.pending p false else t.pending }

def write (t : PageMap D) (p : PageId) (d : D) : PageMap D :=
  { t with
    contents := Function.update t.contents p d
    pending := Function.update t.pending p true }

def alloc [Zero D] (t : PageMap D) : PageMap D :=
  { t with
    contents := Function.update t.contents t.numPages 0
    pins := Function.update t.pins t.numPages 1
    free := t.free - 1
    numPages := t.numPages + 1 }

def store [Zero D] : PageStore (PageMap D) D PageId where
  newPage := fun t =>
    if t.free = 0 then .ok none t else .ok (some (t.numPages, t.numPages)) t.alloc
  fetchPage := fun p t =>
    if t.pins p = 0 ∧ t.free = 0 then .ok none t
    else if 0 ≤ p ∧ p < t.numPages then .ok (some p) (t.pin p)
    else .error .assertFailed t
  unpinPage := fun p dirty t =>
    if t.pins p = 0 then .ok false t
    else if t.pins p = 1 ∧ t.pending p ∧ !dirty then .error .lostWrite t
    else .ok true (t.unpin p dirty)
  readData := fun p t => .ok (t.contents p) t
  writeData := fun p d t => .ok () (t.write p d)
  numPages := fun t => .ok t.numPages t

end PageMap

open BufferPool

/-- The pool holds the abstract store `t`. -/
structure Holds (s : BufferPool D n) (t : PageMap D) : Prop where
  inv : RepInv none s
  contents_eq : ∀ p, t.contents p = s.contents p
  pins_eq : ∀ p, t.pins p = s.pins p
  free_eq : t.free = s.unpinned
  numPages_eq : t.numPages = s.disk.numPages
  coherent : ∀ p f, s.lookup p = some f → (s.frames f).isDirty = false → t.pending p = false →
    (s.frames f).data = s.disk.pages p
  pending_pinned : ∀ p, t.pending p = true → 0 < t.pins p

/-! ## Counting unpinned frames -/

theorem unpinned_update (frames : Fin n → Page D) (f : Fin n) (page : Page D) :
    (Finset.univ.filter fun g => (Function.update frames f page g).pinCount = 0) =
      if page.pinCount = 0 then
        insert f (Finset.univ.filter fun g => (frames g).pinCount = 0)
      else (Finset.univ.filter fun g => (frames g).pinCount = 0).erase f := by
  ext g
  by_cases hg : g = f
  · subst hg
    by_cases hp : page.pinCount = 0 <;> simp [hp]
  · by_cases hp : page.pinCount = 0 <;> simp [hp, hg]

theorem card_unpinned_update (frames : Fin n → Page D) (f : Fin n) (page : Page D) :
    (Finset.univ.filter fun g => (Function.update frames f page g).pinCount = 0).card =
      (Finset.univ.filter fun g => (frames g).pinCount = 0).card +
        (if page.pinCount = 0 then 1 else 0) - (if (frames f).pinCount = 0 then 1 else 0) := by
  rw [unpinned_update]
  by_cases h1 : page.pinCount = 0 <;> by_cases h2 : (frames f).pinCount = 0
  · simp [h1, h2]
  · simp [h1, h2]
  · simp [h1, h2]
  · simp [h1, h2]

theorem unpinned_eq_zero_iff (s : BufferPool D n) :
    s.unpinned = 0 ↔ ∀ f, 0 < (s.frames f).pinCount := by
  simp only [unpinned, Finset.card_eq_zero, Finset.filter_eq_empty_iff, Finset.mem_univ,
    true_implies, Nat.pos_iff_ne_zero, ne_eq]

/-! ## Taking and installing a frame -/

theorem contents_of_lookup {s : BufferPool D n} {p : PageId} {f : Fin n} (h : s.lookup p = some f) :
    s.contents p = (s.frames f).data := by simp only [contents, h]

theorem pins_of_lookup {s : BufferPool D n} {p : PageId} {f : Fin n} (h : s.lookup p = some f) :
    s.pins p = (s.frames f).pinCount := by simp only [pins, h]

theorem pins_of_not_resident {s : BufferPool D n} {p : PageId} (h : s.lookup p = none) :
    s.pins p = 0 := by simp only [pins, h]

theorem same_page {s s' : BufferPool D n} {q : PageId} (hlook : s'.lookup q = s.lookup q)
    (hframes : ∀ g, s.lookup q = some g → s'.frames g = s.frames g) (hpages : s'.disk.pages q = s.disk.pages q) :
    s'.contents q = s.contents q ∧ s'.pins q = s.pins q := by
  cases hl : s.lookup q with
  | none =>
    rw [hl] at hlook
    simp only [contents, pins, hlook, hl, hpages, and_self]
  | some g =>
    rw [hl] at hlook
    simp only [contents, pins, hlook, hl, hframes g hl, and_self]

theorem Holds.tookFrame {s s₁ : BufferPool D n} {t : PageMap D} (h : Holds s t) {f : Fin n}
    (ht : TookFrame s f s₁) (q : PageId) :
    s₁.contents q = s.contents q ∧ s₁.pins q = s.pins q := by
  by_cases hq : s.lookup q = some f
  · have hnone : s₁.lookup q = none := by rw [ht.lookup_eq, if_pos hq]
    have hpin : t.pins q = 0 := by rw [h.pins_eq, pins_of_lookup hq, ht.pin_zero]
    have hpend : t.pending q = false := by
      cases hc : t.pending q with
      | false => rfl
      | true => exact absurd (h.pending_pinned q hc) (by omega)
    refine ⟨?_, ?_⟩
    · rw [contents_of_lookup hq]
      simp only [contents, hnone]
      rw [ht.pages_eq]
      cases hd : (s.frames f).isDirty with
      | true => rw [if_pos ⟨hq, rfl⟩]
      | false =>
        rw [if_neg (fun e => by simp at e), h.coherent q f hq hd hpend]
    · rw [pins_of_not_resident hnone, pins_of_lookup hq, ht.pin_zero]
  · apply same_page
    · rw [ht.lookup_eq, if_neg hq]
    · exact fun g hg => ht.frames_eq g fun e => hq (e ▸ hg)
    · rw [ht.pages_eq, if_neg (fun e => hq e.1)]

theorem BufferPool.TookFrame.unpinned_eq {s s₁ : BufferPool D n} {f : Fin n} (ht : TookFrame s f s₁) :
    s₁.unpinned = s.unpinned := by
  have hpin (g : Fin n) : (s₁.frames g).pinCount = (s.frames g).pinCount := by
    by_cases hg : g = f
    · rw [hg]
      exact ht.pin_eq
    · rw [ht.frames_eq g hg]
  simp only [unpinned, hpin]

theorem Holds.install {s s₁ : BufferPool D n} {t : PageMap D} (h : Holds s t) {f : Fin n}
    (ht : TookFrame s f s₁) {p : PageId} (hp : s.lookup p = none) (disk : DiskManager D) (d : D)
    (hnum : s.disk.numPages ≤ disk.numPages) (hrange : 0 ≤ p ∧ p < disk.numPages)
    (hpages : ∀ q, q ≠ p → disk.pages q = s₁.disk.pages q) (hd : disk.pages p = d) :
    Holds (({ s₁ with disk } : BufferPool D n).install f { data := d, pageId := p, pinCount := 1 })
      { t with
        contents := Function.update t.contents p d
        pins := Function.update t.pins p 1
        free := t.free - 1
        numPages := disk.numPages } := by
  have hinv : RepInv (some f) ({ s₁ with disk } : BufferPool D n) :=
    { ht.inv with
      allocated := fun q g hq => by
        have := ht.inv.allocated q g hq
        rw [ht.numPages_eq] at this
        exact ⟨this.1, this.2.trans_le (by exact_mod_cast hnum)⟩ }
  have hp₁ : s₁.lookup p = none := ht.lookup_none hp
  have hlook (q : PageId) : (({ s₁ with disk } : BufferPool D n).install f
      { data := d, pageId := p, pinCount := 1 }).lookup q =
        if q = p then some f else s₁.lookup q := lookup_insert s₁ p q f
  have hframes (g : Fin n) (hg : g ≠ f) : (({ s₁ with disk } : BufferPool D n).install f
      { data := d, pageId := p, pinCount := 1 }).frames g = s₁.frames g :=
    Function.update_of_ne hg _ _
  have hframe : (({ s₁ with disk } : BufferPool D n).install f
      { data := d, pageId := p, pinCount := 1 }).frames f = { data := d, pageId := p, pinCount := 1 } :=
    Function.update_self _ _ _
  have hne (q : PageId) (g : Fin n) (hq : s₁.lookup q = some g) : g ≠ f :=
    fun e => (ht.inv.off_out f rfl).2 q (e ▸ hq)
  have hother (q : PageId) (hq : q ≠ p) := same_page ((hlook q).trans (if_neg hq))
    (fun g hg => hframes g (hne q g hg)) (hpages q hq)
  refine ⟨hinv.install _ Nat.one_pos hp₁ hrange, ?_, ?_, ?_, rfl, ?_, ?_⟩
  · intro q
    by_cases hq : q = p
    · subst hq
      rw [contents_of_lookup (f := f) (by rw [hlook, if_pos rfl]), hframe]
      simp
    · rw [(hother q hq).1, (h.tookFrame ht q).1, ← h.contents_eq]
      exact Function.update_of_ne hq ..
  · intro q
    by_cases hq : q = p
    · subst hq
      rw [pins_of_lookup (f := f) (by rw [hlook, if_pos rfl]), hframe]
      simp
    · rw [(hother q hq).2, (h.tookFrame ht q).2, ← h.pins_eq]
      exact Function.update_of_ne hq ..
  · change t.free - 1 = Finset.card _
    rw [h.free_eq, ← ht.unpinned_eq]
    have hz : (s₁.frames f).pinCount = 0 := ht.pin_eq.trans ht.pin_zero
    exact ((card_unpinned_update s₁.frames f { data := d, pageId := p, pinCount := 1 }).trans
      (by simp [unpinned, hz])).symm
  · intro q g hq hdirty hpend
    rw [hlook] at hq
    split_ifs at hq with hqp
    · obtain rfl := Option.some.inj hq
      rw [hframe, hqp]
      exact hd.symm
    · have hgf := hne q g hq
      rw [hframes g hgf] at hdirty ⊢
      rw [ht.frames_eq g hgf] at hdirty ⊢
      have hsq : s.lookup q = some g := by
        rw [ht.lookup_eq] at hq
        split_ifs at hq
        exact hq
      rw [h.coherent q g hsq hdirty hpend]
      change s.disk.pages q = disk.pages q
      rw [hpages q hqp, ht.pages_eq, if_neg (fun e => hgf (Option.some.inj (hsq.symm.trans e.1)))]
  · intro q hq
    by_cases hqp : q = p
    · simp [hqp]
    · simpa [hqp] using h.pending_pinned q hq

theorem Holds.updateFrame {s : BufferPool D n} {t t' : PageMap D} (h : Holds s t) {p : PageId}
    {f : Fin n} (hp : s.lookup p = some f) (page : Page D) (r : LruReplacer (Fin n))
    (disk : DiskManager D)
    (hinv : RepInv none
      ({ s with frames := Function.update s.frames f page, replacer := r, disk } : BufferPool D n))
    (hnum : disk.numPages = s.disk.numPages) (hpages : ∀ q, q ≠ p → disk.pages q = s.disk.pages q)
    (hcon : t'.contents = Function.update t.contents p page.data)
    (hpin : t'.pins = Function.update t.pins p page.pinCount)
    (hfree : t'.free = t.free + (if page.pinCount = 0 then 1 else 0) - (if t.pins p = 0 then 1 else 0))
    (hnp : t'.numPages = t.numPages) (hpend : ∀ q, q ≠ p → t'.pending q = t.pending q)
    (hcoh : page.isDirty = false → t'.pending p = false → page.data = disk.pages p)
    (hpp : t'.pending p = true → 0 < page.pinCount) :
    Holds ({ s with frames := Function.update s.frames f page, replacer := r, disk } : BufferPool D n)
      t' := by
  have hne (q : PageId) (hq : q ≠ p) (g : Fin n) (hg : s.lookup q = some g) : g ≠ f :=
    fun e => hq (h.inv.lookup_inj (e ▸ hg) hp)
  set s' : BufferPool D n :=
    { s with frames := Function.update s.frames f page, replacer := r, disk } with hs'
  have hlook (q : PageId) : s'.lookup q = s.lookup q := rfl
  have hself : s'.frames f = page := Function.update_self _ _ _
  have hframes (g : Fin n) (hg : g ≠ f) : s'.frames g = s.frames g := Function.update_of_ne hg _ _
  have hother (q : PageId) (hq : q ≠ p) : s'.contents q = s.contents q ∧ s'.pins q = s.pins q :=
    same_page (hlook q) (fun g hg => hframes g (hne q hq g hg)) (hpages q hq)
  refine ⟨hinv, ?_, ?_, ?_, ?_, ?_, ?_⟩
  · intro q
    by_cases hq : q = p
    · subst hq
      rw [contents_of_lookup ((hlook q).trans hp), hcon, hself, Function.update_self]
    · rw [hcon, Function.update_of_ne hq, h.contents_eq, (hother q hq).1]
  · intro q
    by_cases hq : q = p
    · subst hq
      rw [pins_of_lookup ((hlook q).trans hp), hpin, hself, Function.update_self]
    · rw [hpin, Function.update_of_ne hq, h.pins_eq, (hother q hq).2]
  · rw [hfree, h.free_eq, h.pins_eq, pins_of_lookup hp]
    exact (card_unpinned_update s.frames f page).symm
  · rw [hnp, h.numPages_eq]
    exact hnum.symm
  · intro q g hq hd hpd
    by_cases hqp : q = p
    · subst hqp
      obtain rfl : f = g := Option.some.inj (hp.symm.trans hq)
      rw [hself] at hd ⊢
      exact hcoh hd hpd
    · rw [hframes g (hne q hqp g hq)] at hd ⊢
      rw [hpend q hqp] at hpd
      change _ = disk.pages q
      rw [hpages q hqp]
      exact h.coherent q g hq hd hpd
  · intro q hq
    by_cases hqp : q = p
    · subst hqp
      rw [hpin, Function.update_self]
      exact hpp hq
    · rw [hpin, Function.update_of_ne hqp]
      exact h.pending_pinned q (hpend q hqp ▸ hq)

theorem Holds.pinFrame {s : BufferPool D n} {t : PageMap D} (h : Holds s t) {p : PageId} {f : Fin n}
    (hp : s.lookup p = some f) : Holds (s.pinFrame f) (t.pin p) := by
  have hpin : t.pins p = (s.frames f).pinCount := by rw [h.pins_eq, pins_of_lookup hp]
  refine h.updateFrame hp { s.frames f with pinCount := (s.frames f).pinCount + 1 } _ s.disk
    (h.inv.pinFrame hp) rfl (fun _ _ => rfl) ?_ ?_ ?_ rfl (fun _ _ => rfl) (h.coherent p f hp)
    (fun _ => Nat.succ_pos _)
  · rw [← contents_of_lookup hp, ← h.contents_eq, Function.update_eq_self]
    rfl
  · simp only [PageMap.pin, hpin]
  · simp only [PageMap.pin, hpin]
    split_ifs <;> simp_all

theorem Holds.unpinFrame {s : BufferPool D n} {t : PageMap D} (h : Holds s t) {p : PageId}
    {f : Fin n} (hp : s.lookup p = some f) (hpos : t.pins p ≠ 0) (dirty : Bool)
    (hkeep : t.pins p = 1 → t.pending p = true → dirty = true) :
    Holds (s.unpinFrame f dirty) (t.unpin p dirty) := by
  have hpin : t.pins p = (s.frames f).pinCount := by rw [h.pins_eq, pins_of_lookup hp]
  refine h.updateFrame hp
    { s.frames f with
      isDirty := (s.frames f).isDirty || dirty, pinCount := (s.frames f).pinCount - 1 } _ s.disk
    (h.inv.unpinFrame hp (hpin ▸ hpos) dirty) rfl (fun _ _ => rfl) ?_ ?_ ?_ rfl ?_ ?_ ?_
  · rw [← contents_of_lookup hp, ← h.contents_eq, Function.update_eq_self]
    rfl
  · simp only [PageMap.unpin, hpin]
  · simp only [PageMap.unpin]
    split_ifs <;> omega
  · intro q hq
    cases dirty <;> simp [PageMap.unpin, hq]
  · cases dirty with
    | true => simp
    | false => simpa [PageMap.unpin] using h.coherent p f hp
  · cases dirty with
    | true => simp [PageMap.unpin]
    | false =>
      intro hpend
      have h1 : t.pins p ≠ 1 := fun e => by simpa using hkeep e hpend
      change 0 < (s.frames f).pinCount - 1
      omega

theorem Holds.setData {s : BufferPool D n} {t : PageMap D} (h : Holds s t) {p : PageId} {f : Fin n}
    (hp : s.lookup p = some f) (hpos : 0 < t.pins p) (d : D) :
    Holds (s.setData f d) (t.write p d) := by
  have hpin : t.pins p = (s.frames f).pinCount := by rw [h.pins_eq, pins_of_lookup hp]
  refine h.updateFrame hp { s.frames f with data := d } s.replacer s.disk (h.inv.setData f d) rfl
    (fun _ _ => rfl) rfl ?_ ?_ rfl ?_ ?_ (fun _ => hpin ▸ hpos)
  · rw [← hpin, Function.update_eq_self]
    rfl
  · simp only [PageMap.write, hpin]
    split_ifs <;> simp
  · intro q hq
    simp [PageMap.write, hq]
  · intro _ hpend
    simp [PageMap.write] at hpend

theorem Holds.flushFrame {s : BufferPool D n} {t : PageMap D} (h : Holds s t) {p : PageId}
    {f : Fin n} (hp : s.lookup p = some f) : Holds (s.flushFrame p f) t := by
  have hpin : t.pins p = (s.frames f).pinCount := by rw [h.pins_eq, pins_of_lookup hp]
  refine h.updateFrame hp { s.frames f with isDirty := false } s.replacer
    (s.disk.writePage p (s.frames f).data) (h.inv.flushFrame hp) rfl ?_ ?_ ?_ ?_ rfl (fun _ _ => rfl)
    ?_ ?_
  · intro q hq
    exact Function.update_of_ne hq _ _
  · rw [← contents_of_lookup hp, ← h.contents_eq, Function.update_eq_self]
  · rw [← hpin, Function.update_eq_self]
  · rw [hpin]
    split_ifs <;> simp
  · intro _ _
    exact (Function.update_self (f := s.disk.pages) p _).symm
  · intro hpend
    exact hpin ▸ h.pending_pinned p hpend

theorem holds_flush_foldl (es : List (Σ _ : PageId, Fin n)) {s : BufferPool D n} {t : PageMap D}
    (h : Holds s t) (hes : ∀ e ∈ es, s.lookup e.1 = some e.2) : Holds (es.foldl flushEntry s) t := by
  induction es generalizing s with
  | nil => exact h
  | cons e es ih =>
    have he := hes e (List.mem_cons_self ..)
    have hstep : Holds (s.flushEntry e) t ∧ (s.flushEntry e).pageTable = s.pageTable := by
      unfold flushEntry
      split_ifs
      · exact ⟨h.flushFrame he, rfl⟩
      · exact ⟨h, rfl⟩
    exact ih hstep.1 fun e' he' =>
      (congrArg (AList.lookup e'.1) hstep.2).trans (hes e' (List.mem_cons_of_mem _ he'))

def Live (ptrs : List (PageId × Fin n)) (s : BufferPool D n) (t : PageMap D) : Prop :=
  Holds s t ∧ ∀ x ∈ ptrs, s.lookup x.1 = some x.2 ∧ 0 < t.pins x.1

theorem live_nil {s : BufferPool D n} {t : PageMap D} : Live [] s t ↔ Holds s t := by
  simp [Live]

theorem Holds.ne_of_pinned {s s₁ : BufferPool D n} {t : PageMap D} (h : Holds s t) {f g : Fin n}
    (ht : TookFrame s f s₁) {p : PageId} (hp : s.lookup p = some g) (hpin : 0 < t.pins p) : g ≠ f := by
  intro e
  rw [h.pins_eq, pins_of_lookup hp, e, ht.pin_zero] at hpin
  exact lt_irrefl _ hpin

theorem live_install {ptrs : List (PageId × Fin n)} {s s₁ : BufferPool D n} {t t' : PageMap D}
    (h : Live ptrs s t) {f : Fin n} (ht : TookFrame s f s₁) {p : PageId} (hp : s.lookup p = none)
    (disk : DiskManager D) (page : Page D) (hid : page.pageId = p)
    (hpins : t'.pins = Function.update t.pins p 1)
    (hold : Holds (({ s₁ with disk } : BufferPool D n).install f page) t') :
    Live ((p, f) :: ptrs) (({ s₁ with disk } : BufferPool D n).install f page) t' := by
  have hlook (q : PageId) : (({ s₁ with disk } : BufferPool D n).install f page).lookup q =
      if q = p then some f else s₁.lookup q := hid ▸ lookup_insert s₁ page.pageId q f
  refine ⟨hold, ?_⟩
  intro x hx
  rcases List.mem_cons.mp hx with rfl | hx
  · exact ⟨by rw [hlook, if_pos rfl], by simp [hpins]⟩
  · obtain ⟨h1, h2⟩ := h.2 x hx
    have hxp : x.1 ≠ p := fun e => by rw [e, hp] at h1; cases h1
    refine ⟨?_, by simpa [hpins, hxp] using h2⟩
    rw [hlook, if_neg hxp, ht.lookup_eq, h1,
      if_neg (fun e => h.1.ne_of_pinned ht h1 h2 (Option.some.inj e))]

/-! ## The pool refines the abstract store -/

section Refinement
variable [Zero D] {ptrs : List (PageId × Fin n)}

abbrev RefinesStore {α β : Type} (ptrs : List (PageId × Fin n)) (x : EStateM Fault (BufferPool D n) α)
    (y : EStateM Fault (PageMap D) β) (Q : α → β → BufferPool D n → PageMap D → Prop) : Prop :=
  Lib.Refines (· = Fault.lostWrite) Holds (Live ptrs) x y Q

theorem newPage_refines :
    RefinesStore (D := D) ptrs (BufferPool.store (n := n)).newPage PageMap.store.newPage
      fun a b s t => match a, b with
        | none, none => Live ptrs s t
        | some (p, f), some (p', q) => p = p' ∧ q = p ∧ Live ((p, f) :: ptrs) s t
        | _, _ => False := by
  intro s t h
  have hnone : s.getFreeFrame = none ↔ t.free = 0 := by
    rw [getFreeFrame_eq_none_iff h.1.inv, ← unpinned_eq_zero_iff, h.1.free_eq]
  simp only [PageMap.store]
  split_ifs with h0
  · refine ⟨none, s, ?_, h⟩
    simp only [BufferPool.store, newPage, hnone.mpr h0]
  · obtain ⟨⟨f, s₁⟩, hf⟩ := Option.ne_none_iff_exists'.mp (fun e => h0 (hnone.mp e))
    have ht := getFreeFrame_spec h.1.inv hf
    have hn := h.1.numPages_eq
    have hfresh : s.lookup t.numPages = none := by
      cases hl : s.lookup t.numPages with
      | none => rfl
      | some g => exact absurd (h.1.inv.allocated _ g hl).2 (by rw [hn]; exact lt_irrefl _)
    have hs := h.1.install ht hfresh s₁.disk.allocatePage.2 0
      (by simp [DiskManager.allocatePage, ht.numPages_eq])
      (by simp [DiskManager.allocatePage, ht.numPages_eq, hn])
      (fun q hq => by simp [DiskManager.allocatePage, ht.numPages_eq, ← hn, hq])
      (by simp [DiskManager.allocatePage, ht.numPages_eq, hn])
    have ht' : ({ t with
        contents := Function.update t.contents t.numPages 0
        pins := Function.update t.pins t.numPages 1
        free := t.free - 1
        numPages := s₁.disk.allocatePage.2.numPages } : PageMap D) = t.alloc := by
      simp only [PageMap.alloc, DiskManager.allocatePage, ht.numPages_eq, hn]
    rw [ht'] at hs
    refine ⟨some (t.numPages, f), _, ?_, rfl, rfl,
      live_install h ht hfresh s₁.disk.allocatePage.2 _ rfl rfl hs⟩
    simp only [BufferPool.store, newPage, hf, DiskManager.allocatePage, ht.numPages_eq, hn]

theorem fetchPage_refines (p : PageId) :
    RefinesStore (D := D) ptrs ((BufferPool.store (n := n)).fetchPage p) (PageMap.store.fetchPage p)
      fun a b s t => match a, b with
        | none, none => Live ptrs s t
        | some f, some q => q = p ∧ Live ((p, f) :: ptrs) s t
        | _, _ => False := by
  intro s t h
  have hnone : s.getFreeFrame = none ↔ t.free = 0 := by
    rw [getFreeFrame_eq_none_iff h.1.inv, ← unpinned_eq_zero_iff, h.1.free_eq]
  simp only [PageMap.store, BufferPool.store, fetchPage]
  cases hl : s.lookup p with
  | some f =>
    have hrange := h.1.inv.allocated p f hl
    have hfree : ¬ (t.pins p = 0 ∧ t.free = 0) := by
      rintro ⟨h1, h2⟩
      rw [h.1.pins_eq, pins_of_lookup hl] at h1
      rw [h.1.free_eq, unpinned_eq_zero_iff] at h2
      exact (h2 f).ne' h1
    rw [if_neg hfree, if_pos (h.1.numPages_eq ▸ hrange)]
    refine ⟨some f, _, rfl, rfl, h.1.pinFrame hl, ?_⟩
    intro x hx
    rcases List.mem_cons.mp hx with rfl | hx
    · exact ⟨hl, by simp [PageMap.pin]⟩
    · obtain ⟨h1, h2⟩ := h.2 x hx
      refine ⟨h1, ?_⟩
      by_cases hxp : x.1 = p
      · simp [PageMap.pin, hxp]
      · simpa [PageMap.pin, hxp] using h2
  | none =>
    have hpin : t.pins p = 0 := by rw [h.1.pins_eq, pins_of_not_resident hl]
    by_cases h0 : t.free = 0
    · rw [if_pos ⟨hpin, h0⟩]
      exact ⟨none, s, by simp only [hnone.mpr h0], h⟩
    · rw [if_neg (fun e => h0 e.2)]
      obtain ⟨⟨f, s₁⟩, hf⟩ := Option.ne_none_iff_exists'.mp (fun e => h0 (hnone.mp e))
      have ht := getFreeFrame_spec h.1.inv hf
      have hn := h.1.numPages_eq
      have hd : s₁.disk.pages p = t.contents p := by
        rw [h.1.contents_eq, ← (h.1.tookFrame ht p).1]
        simp only [contents, ht.lookup_none hl]
      by_cases hrange : 0 ≤ p ∧ p < t.numPages
      · have hs := h.1.install ht hl s₁.disk (t.contents p) (by rw [ht.numPages_eq])
          (by rw [ht.numPages_eq, ← hn]; exact hrange) (fun _ _ => rfl) hd
        have ht' : ({ t with
            contents := Function.update t.contents p (t.contents p)
            pins := Function.update t.pins p 1
            free := t.free - 1
            numPages := s₁.disk.numPages } : PageMap D) = t.pin p := by
          simp only [PageMap.pin, Function.update_eq_self, hpin, ht.numPages_eq, ← hn, zero_add,
            if_true]
        rw [ht'] at hs
        rw [if_pos hrange]
        have hread : s₁.disk.readPage p = some (t.contents p) := by
          rw [DiskManager.readPage, ht.numPages_eq, ← hn, if_pos hrange, hd]
        refine ⟨some f, _, by simp only [hf, hread], rfl,
          live_install h ht hl s₁.disk { data := t.contents p, pageId := p, pinCount := 1 } rfl ?_ hs⟩
        simp only [PageMap.pin, hpin]
      · rw [if_neg hrange]
        refine Or.inr ⟨s, ?_, h.1⟩
        have hread : s₁.disk.readPage p = none := by
          rw [DiskManager.readPage, ht.numPages_eq, ← hn, if_neg hrange]
        simp only [hf, hread]

theorem unpinPage_refines {ptrs' : List (PageId × Fin n)} (p : PageId) (dirty : Bool)
    (hsub : ptrs' ⊆ ptrs) (hp : ∀ x ∈ ptrs', x.1 ≠ p) :
    RefinesStore (D := D) ptrs ((BufferPool.store (n := n)).unpinPage p dirty)
      (PageMap.store.unpinPage p dirty) fun a b s t => a = b ∧ Live ptrs' s t := by
  intro s t h
  have hrest : Live ptrs' s t := ⟨h.1, fun x hx => h.2 x (hsub hx)⟩
  simp only [PageMap.store, BufferPool.store, unpinPage]
  cases hl : s.lookup p with
  | none =>
    rw [if_pos (by rw [h.1.pins_eq, pins_of_not_resident hl])]
    exact ⟨false, s, rfl, rfl, hrest⟩
  | some f =>
    have hpin : t.pins p = (s.frames f).pinCount := by rw [h.1.pins_eq, pins_of_lookup hl]
    simp only [← hpin]
    split_ifs with h0 h1
    · exact ⟨false, s, rfl, rfl, hrest⟩
    · exact Or.inl rfl
    · refine ⟨true, _, rfl, rfl, h.1.unpinFrame hl h0 dirty ?_, ?_⟩
      · intro e1 e2
        by_contra hd
        exact h1 ⟨e1, e2, by simpa using hd⟩
      · intro x hx
        obtain ⟨hx1, hx2⟩ := hrest.2 x hx
        exact ⟨hx1, by simpa [PageMap.unpin, hp x hx] using hx2⟩

theorem readData_refines {p : PageId} {f : Fin n} (hp : (p, f) ∈ ptrs) :
    RefinesStore (D := D) ptrs ((BufferPool.store (n := n)).readData f) (PageMap.store.readData p)
      fun a b s t => a = b ∧ Live ptrs s t := by
  intro s t h
  obtain ⟨hl, -⟩ := h.2 _ hp
  exact ⟨_, s, rfl, by rw [h.1.contents_eq, contents_of_lookup hl], h⟩

theorem writeData_refines {p : PageId} {f : Fin n} (hp : (p, f) ∈ ptrs) (d : D) :
    RefinesStore (D := D) ptrs ((BufferPool.store (n := n)).writeData f d)
      (PageMap.store.writeData p d) fun _ _ s t => Live ptrs s t := by
  intro s t h
  obtain ⟨hl, hpos⟩ := h.2 _ hp
  exact ⟨(), _, rfl, h.1.setData hl hpos d, fun x hx => ⟨(h.2 x hx).1, (h.2 x hx).2⟩⟩

theorem numPages_refines :
    RefinesStore (D := D) ptrs (BufferPool.store (n := n)).numPages PageMap.store.numPages
      fun a b s t => a = b ∧ Live ptrs s t :=
  fun s _ h => ⟨_, s, rfl, h.1.numPages_eq.symm, h⟩

section Bind
variable {α β : Type} {R : α → β → BufferPool D n → PageMap D → Prop}

theorem newPage_bind {f : Option (PageId × Fin n) → EStateM Fault (BufferPool D n) α}
    {g : Option (PageId × PageId) → EStateM Fault (PageMap D) β}
    (hnone : RefinesStore ptrs (f none) (g none) R)
    (hsome : ∀ p fr, RefinesStore ((p, fr) :: ptrs) (f (some (p, fr))) (g (some (p, p))) R) :
    RefinesStore ptrs (BufferPool.store.newPage >>= f) (PageMap.store.newPage >>= g) R := by
  refine newPage_refines.bind ?_
  rintro (_ | ⟨p, fr⟩) (_ | ⟨p', q⟩) s t h
  · exact hnone s t h
  · exact h.elim
  · exact h.elim
  · obtain ⟨rfl, rfl, h⟩ := h
    exact hsome q fr s t h

theorem fetchPage_bind {p : PageId} {f : Option (Fin n) → EStateM Fault (BufferPool D n) α}
    {g : Option PageId → EStateM Fault (PageMap D) β} (hnone : RefinesStore ptrs (f none) (g none) R)
    (hsome : ∀ fr, RefinesStore ((p, fr) :: ptrs) (f (some fr)) (g (some p)) R) :
    RefinesStore ptrs (BufferPool.store.fetchPage p >>= f) (PageMap.store.fetchPage p >>= g) R := by
  refine (fetchPage_refines p).bind ?_
  rintro (_ | fr) (_ | q) s t h
  · exact hnone s t h
  · exact h.elim
  · exact h.elim
  · obtain ⟨rfl, h⟩ := h
    exact hsome fr s t h

theorem unpinPage_bind {ptrs' : List (PageId × Fin n)} {p : PageId} {dirty : Bool}
    (hsub : ptrs' ⊆ ptrs) (hp : ∀ x ∈ ptrs', x.1 ≠ p)
    {f : Bool → EStateM Fault (BufferPool D n) α} {g : Bool → EStateM Fault (PageMap D) β}
    (h : ∀ b, RefinesStore ptrs' (f b) (g b) R) :
    RefinesStore ptrs (BufferPool.store.unpinPage p dirty >>= f)
      (PageMap.store.unpinPage p dirty >>= g) R :=
  (unpinPage_refines p dirty hsub hp).bind_eq h

theorem unpinLast_bind {p : PageId} {dirty : Bool} {f : Bool → EStateM Fault (BufferPool D n) α}
    {g : Bool → EStateM Fault (PageMap D) β} (h : ∀ b, RefinesStore [] (f b) (g b) R) :
    RefinesStore ptrs (BufferPool.store.unpinPage p dirty >>= f)
      (PageMap.store.unpinPage p dirty >>= g) R :=
  unpinPage_bind (List.nil_subset _) (by simp) h

theorem readData_bind {p : PageId} {fr : Fin n} (hp : (p, fr) ∈ ptrs)
    {f : D → EStateM Fault (BufferPool D n) α} {g : D → EStateM Fault (PageMap D) β}
    (h : ∀ d, RefinesStore ptrs (f d) (g d) R) :
    RefinesStore ptrs (BufferPool.store.readData fr >>= f) (PageMap.store.readData p >>= g) R :=
  (readData_refines hp).bind_eq h

theorem writeData_bind {p : PageId} {fr : Fin n} (hp : (p, fr) ∈ ptrs) {d : D}
    {f : Unit → EStateM Fault (BufferPool D n) α} {g : Unit → EStateM Fault (PageMap D) β}
    (h : RefinesStore ptrs (f ()) (g ()) R) :
    RefinesStore ptrs (BufferPool.store.writeData fr d >>= f) (PageMap.store.writeData p d >>= g) R :=
  (writeData_refines hp d).bind fun _ _ => h

theorem numPages_bind {f : Nat → EStateM Fault (BufferPool D n) α}
    {g : Nat → EStateM Fault (PageMap D) β} (h : ∀ k, RefinesStore ptrs (f k) (g k) R) :
    RefinesStore ptrs (BufferPool.store.numPages >>= f) (PageMap.store.numPages >>= g) R :=
  numPages_refines.bind_eq h

omit [Zero D] in
theorem refines_throw (e : Fault) : RefinesStore ptrs (throw e) (throw e) R :=
  Lib.Refines.throw e fun _ _ h => h.1

end Bind

end Refinement

/-! ## Runs of the abstract store -/

namespace PageMap

structure WF (m : PageMap D) : Prop where
  allocated : ∀ p, m.pins p ≠ 0 → 0 ≤ p ∧ p < m.numPages
  pending_pinned : ∀ p, m.pending p = true → 0 < m.pins p

def put (m : PageMap D) (p : PageId) (d : D) : PageMap D :=
  { m with
    contents := Function.update m.contents p d
    pending := Function.update m.pending p false }

def grow (m : PageMap D) (d : D) : PageMap D :=
  { m with contents := Function.update m.contents m.numPages d, numPages := m.numPages + 1 }

variable {m : PageMap D} {p : PageId}

theorem WF.pins_fresh (h : m.WF) : m.pins m.numPages = 0 := by
  by_contra hp
  exact lt_irrefl _ (h.allocated _ hp).2

theorem WF.not_pending (h : m.WF) (hp : m.pins p = 0) : m.pending p = false := by
  cases hc : m.pending p with
  | false => rfl
  | true => exact absurd (h.pending_pinned p hc) (by omega)

theorem WF.put (h : m.WF) (p : PageId) (d : D) : (m.put p d).WF := by
  refine ⟨h.allocated, fun q hq => ?_⟩
  by_cases hqp : q = p
  · simp [PageMap.put, hqp] at hq
  · exact h.pending_pinned q (by simpa [PageMap.put, hqp] using hq)

theorem WF.grow (h : m.WF) (d : D) : (m.grow d).WF := by
  refine ⟨fun q hq => ?_, h.pending_pinned⟩
  obtain ⟨h1, h2⟩ := h.allocated q hq
  exact ⟨h1, h2.trans (by simp [PageMap.grow])⟩

theorem WF.write_pin (h : m.WF) (hr : 0 ≤ p ∧ p < m.numPages) (d : D) : ((m.pin p).write p d).WF := by
  refine ⟨fun q hq => ?_, fun q hq => ?_⟩
  · by_cases hqp : q = p
    · exact hqp ▸ hr
    · exact h.allocated q (by simpa [pin, write, hqp] using hq)
  · by_cases hqp : q = p
    · simp [pin, write, hqp]
    · simpa [pin, write, hqp] using h.pending_pinned q (by simpa [pin, write, hqp] using hq)

variable [Zero D]

theorem fetchPage_ok (hr : 0 ≤ p ∧ p < m.numPages) (hf : m.pins p ≠ 0 ∨ m.free ≠ 0) :
    store.fetchPage p m = .ok (some p) (m.pin p) := by
  have hf' : ¬ (m.pins p = 0 ∧ m.free = 0) := fun h => hf.elim (· h.1) (· h.2)
  simp only [store, if_neg hf', if_pos hr]

theorem fetchPage_none (hf : ¬ (m.pins p ≠ 0 ∨ m.free ≠ 0)) : store.fetchPage p m = .ok none m := by
  have hf' : m.pins p = 0 ∧ m.free = 0 := by simpa only [not_or, not_not] using hf
  simp only [store, if_pos hf']

theorem readData_pin {d : D} (h : m.contents p = d) : store.readData p (m.pin p) = .ok d (m.pin p) :=
  congrArg (EStateM.Result.ok · _) h

theorem writeData_ok (m : PageMap D) (p : PageId) (d : D) :
    store.writeData p d m = .ok () (m.write p d) := rfl

theorem newPage_none (hf : m.free = 0) : store.newPage m = .ok none m := by simp only [store, if_pos hf]

theorem newPage_ok (hf : m.free ≠ 0) :
    store.newPage m = .ok (some ((m.numPages : PageId), (m.numPages : PageId))) m.alloc := by
  simp only [store, if_neg hf]

theorem unpin_pin (h : m.WF) (hf : m.pins p ≠ 0 ∨ m.free ≠ 0) :
    store.unpinPage p false (m.pin p) = .ok true m := by
  have hkeep : ¬ ((m.pin p).pins p = 1 ∧ (m.pin p).pending p ∧ !false) := by
    rintro ⟨h1, h2, -⟩
    have hz : m.pins p = 0 := by simpa [pin] using h1
    exact absurd ((h.not_pending hz).symm.trans h2) (by simp)
  have hback : (m.pin p).unpin p false = m := by
    cases m with
    | mk contents pins free numPages pending =>
      simp only [pin, unpin, Function.update_self, Nat.add_sub_cancel, Function.update_idem,
        Function.update_eq_self, Nat.reduceEqDiff, Bool.false_eq_true, if_false]
      congr 1
      simp only [ne_eq] at hf
      split_ifs <;> omega
  simp only [store, if_neg hkeep, hback]
  simp [pin]

theorem unpin_write_pin (hf : m.pins p ≠ 0 ∨ m.free ≠ 0) (d : D) :
    store.unpinPage p true ((m.pin p).write p d) = .ok true (m.put p d) := by
  have hback : ((m.pin p).write p d).unpin p true = m.put p d := by
    cases m with
    | mk contents pins free numPages pending =>
      simp only [pin, unpin, write, put, Function.update_self, Nat.add_sub_cancel, Function.update_idem,
        Function.update_eq_self, Nat.reduceEqDiff, if_true]
      congr 1
      simp only [ne_eq] at hf
      split_ifs <;> omega
  simp only [store, hback]
  simp [pin, write]

theorem unpin_alloc (h : m.WF) (hf : m.free ≠ 0) (d : D) :
    store.unpinPage m.numPages true (m.alloc.write m.numPages d) = .ok true (m.grow d) := by
  have hback : (m.alloc.write m.numPages d).unpin m.numPages true = m.grow d := by
    have hp := h.pins_fresh
    have hpend := h.not_pending hp
    cases m with
    | mk contents pins free numPages pending =>
      simp only [alloc, write, unpin, grow, Function.update_self, Function.update_idem, if_true,
        Nat.sub_self] at hp hpend hf ⊢
      rw [← hp, ← hpend, Function.update_eq_self, Function.update_eq_self]
      congr 1
      omega
  simp only [store, hback]
  simp [alloc, write]

theorem newPage_write_pin (hf : (if m.pins p = 0 then 2 else 1) ≤ m.free) (d : D) :
    store.newPage ((m.pin p).write p d) =
      .ok (some ((m.numPages : PageId), (m.numPages : PageId))) ((m.pin p).write p d).alloc := by
  refine newPage_ok ?_
  simp only [pin, write]
  split_ifs at hf ⊢ <;> omega

theorem newPage_write_pin_none (hneed : m.free < if m.pins p = 0 then 2 else 1) (d : D) :
    store.newPage ((m.pin p).write p d) = .ok none ((m.pin p).write p d) := by
  refine newPage_none ?_
  simp only [pin, write]
  split_ifs at hneed ⊢ <;> omega

theorem unpin_split (h : m.WF) (hr : 0 ≤ p ∧ p < m.numPages)
    (hf : (if m.pins p = 0 then 2 else 1) ≤ m.free) (d₀ d d' : D) :
    ∃ m₁, store.unpinPage m.numPages true
        ((((m.pin p).write p d₀).alloc.write m.numPages d').write p d) = .ok true m₁ ∧
      store.unpinPage p true m₁ = .ok true ((m.grow d').put p d) := by
  have hne : p ≠ (m.numPages : PageId) := ne_of_lt hr.2
  have hfree : m.pins p ≠ 0 ∨ m.free ≠ 0 := Or.inr (by split_ifs at hf <;> omega)
  have hswap : (((m.pin p).write p d₀).alloc.write m.numPages d').write p d =
      ((m.pin p).write p d).alloc.write m.numPages d' := by
    simp only [write, alloc, pin]
    congr 1
    · simp only [Function.update_idem, Function.update_comm hne.symm]
    · rw [Function.update_comm hne.symm, Function.update_idem]
  refine ⟨((m.pin p).write p d).grow d', ?_, ?_⟩
  · rw [hswap]
    refine unpin_alloc (h.write_pin hr d) ?_ d'
    simp only [pin, write]
    split_ifs at hf ⊢ <;> omega
  · have hgrow : ((m.pin p).write p d).grow d' = ((m.grow d').pin p).write p d := by
      simp only [grow, pin, write, Function.update_comm hne]
      rfl
    rw [hgrow]
    exact unpin_write_pin (m := m.grow d') hfree d

end PageMap

theorem Holds.wf {s : BufferPool D n} {t : PageMap D} (h : Holds s t) : t.WF where
  allocated := by
    intro p hp
    rw [h.pins_eq] at hp
    cases hl : s.lookup p with
    | none => exact absurd (pins_of_not_resident hl) hp
    | some f => exact h.numPages_eq ▸ h.inv.allocated p f hl
  pending_pinned := h.pending_pinned

/-- Every pool that keeps its invariant and is coherent holds an abstract store. -/
def BufferPool.view (s : BufferPool D n) : PageMap D where
  contents := s.contents
  pins := s.pins
  free := s.unpinned
  numPages := s.disk.numPages
  pending := fun _ => false

theorem holds_init [Zero D] (disk : DiskManager D) :
    Holds (BufferPool.init n disk) (BufferPool.init n disk).view where
  inv := repInv_init disk
  contents_eq := fun _ => rfl
  pins_eq := fun _ => rfl
  free_eq := rfl
  numPages_eq := rfl
  coherent := by simp [lookup, BufferPool.init]
  pending_pinned := by simp [BufferPool.view]

end MyDB.Storage

import MyDB.Storage.PageStore

/-! Clients of the buffer pool. A client holds pins; it writes a page through
a pin it holds, and releases a pin under which it wrote with `is_dirty`. The
ghost fields `last` and `issued` record what was last written to each page and
which ids `NewPage` has handed out. -/

namespace MyDB.Storage
open BufferPool

variable {D : Type} {n : Nat}

structure Pin (n : Nat) where
  page : PageId
  frame : Fin n
  wrote : Bool
  deriving DecidableEq

structure World (D : Type) (n : Nat) where
  pool : BufferPool D n
  held : List (Pin n)
  last : PageId → D
  issued : List PageId

def World.init [Zero D] (n : Nat) (disk : DiskManager D) : World D n where
  pool := BufferPool.init n disk
  held := []
  last := disk.pages
  issued := []

inductive ClientStep [Zero D] (w : World D n) : World D n → Prop
  | newPage {p : PageId} {f : Fin n} {s : BufferPool D n} (h : newPage w.pool = .ok (some (p, f)) s) :
      ClientStep w ⟨s, ⟨p, f, false⟩ :: w.held, Function.update w.last p 0, p :: w.issued⟩
  | newPageNull {s : BufferPool D n} (h : newPage w.pool = .ok none s) :
      ClientStep w { w with pool := s }
  | fetchPage {p : PageId} {f : Fin n} {s : BufferPool D n} (h : fetchPage p w.pool = .ok (some f) s) :
      ClientStep w { w with pool := s, held := ⟨p, f, false⟩ :: w.held }
  | fetchPageNull {p : PageId} {s : BufferPool D n} (h : fetchPage p w.pool = .ok none s) :
      ClientStep w { w with pool := s }
  | write {pin : Pin n} {d : D} {s : BufferPool D n} (hpin : pin ∈ w.held)
      (h : writeData pin.frame d w.pool = .ok () s) :
      ClientStep w { w with
        pool := s
        held := { pin with wrote := true } :: w.held.erase pin
        last := Function.update w.last pin.page d }
  | unpinPage {pin : Pin n} {dirty b : Bool} {s : BufferPool D n} (hpin : pin ∈ w.held)
      (hdirty : pin.wrote → dirty) (h : unpinPage pin.page dirty w.pool = .ok b s) :
      ClientStep w { w with pool := s, held := w.held.erase pin }
  | unpinStray {p : PageId} {dirty b : Bool} {s : BufferPool D n} (hpin : ∀ pin ∈ w.held, pin.page ≠ p)
      (h : unpinPage p dirty w.pool = .ok b s) : ClientStep w { w with pool := s }
  | flushPage {p : PageId} {b : Bool} {s : BufferPool D n} (h : flushPage p w.pool = .ok b s) :
      ClientStep w { w with pool := s }
  | flushAllPages {s : BufferPool D n} (h : flushAllPages w.pool = .ok () s) :
      ClientStep w { w with pool := s }

inductive ClientRun [Zero D] (disk : DiskManager D) : World D n → Prop
  | init : ClientRun disk (World.init n disk)
  | step {w w' : World D n} (h : ClientRun disk w) (hs : ClientStep w w') : ClientRun disk w'

/-- The abstract store that the clients of `w` rely on. -/
def World.map (w : World D n) : PageMap D where
  contents := w.last
  pins := fun p => w.held.countP (·.page = p)
  free := w.pool.unpinned
  numPages := w.pool.disk.numPages
  pending := fun p => w.held.any fun pin => pin.page = p ∧ pin.wrote

structure World.Inv (w : World D n) : Prop where
  holds : Holds w.pool w.map
  held_mapped : ∀ pin ∈ w.held, w.pool.lookup pin.page = some pin.frame
  issued_lt : ∀ p ∈ w.issued, p < w.pool.disk.numPages

/-! ## The calls as functions of the abstract store -/

section Calls
variable [Zero D] {ptrs : List (PageId × Fin n)} {s s' : BufferPool D n} {t : PageMap D}

theorem newPage_of_live {r : Option (PageId × Fin n)} (h : Live ptrs s t) (hr : newPage s = .ok r s') :
    (r = none ∧ t.free = 0 ∧ Live ptrs s' t) ∨
      ∃ f, r = some ((t.numPages : PageId), f) ∧ t.free ≠ 0 ∧
        Live (((t.numPages : PageId), f) :: ptrs) s' t.alloc := by
  have href := newPage_refines s t h
  simp only [PageMap.store, BufferPool.store] at href
  split_ifs at href with h0
  · obtain ⟨a, s₁, hx, hq⟩ := href
    obtain ⟨rfl, rfl⟩ : r = a ∧ s' = s₁ := by simpa using hr.symm.trans hx
    cases r with
    | none => exact Or.inl ⟨rfl, h0, hq⟩
    | some x => exact hq.elim
  · obtain ⟨a, s₁, hx, hq⟩ := href
    obtain ⟨rfl, rfl⟩ : r = a ∧ s' = s₁ := by simpa using hr.symm.trans hx
    cases r with
    | none => exact hq.elim
    | some x =>
      obtain ⟨h1, -, h2⟩ := hq
      exact Or.inr ⟨x.2, by rw [← h1], h0, h1 ▸ h2⟩

theorem fetchPage_of_live {p : PageId} {r : Option (Fin n)} (h : Live ptrs s t)
    (hr : fetchPage p s = .ok r s') :
    (r = none ∧ t.pins p = 0 ∧ t.free = 0 ∧ Live ptrs s' t) ∨
      ∃ f, r = some f ∧ 0 ≤ p ∧ p < t.numPages ∧ Live ((p, f) :: ptrs) s' (t.pin p) := by
  have href := fetchPage_refines p s t h
  simp only [PageMap.store, BufferPool.store] at href
  split_ifs at href with h0 h1
  · obtain ⟨a, s₁, hx, hq⟩ := href
    obtain ⟨rfl, rfl⟩ : r = a ∧ s' = s₁ := by simpa using hr.symm.trans hx
    cases r with
    | none => exact Or.inl ⟨rfl, h0.1, h0.2, hq⟩
    | some x => exact hq.elim
  · obtain ⟨a, s₁, hx, hq⟩ := href
    obtain ⟨rfl, rfl⟩ : r = a ∧ s' = s₁ := by simpa using hr.symm.trans hx
    cases r with
    | none => exact hq.elim
    | some f => exact Or.inr ⟨f, rfl, h1.1, h1.2, hq.2⟩
  · rcases href with hb | ⟨s₁, hx, -⟩
    · cases hb
    · rw [hr] at hx
      cases hx

end Calls

/-! ## Steps -/

theorem World.Inv.live {w : World D n} (h : w.Inv) :
    Live (w.held.map fun pin => (pin.page, pin.frame)) w.pool w.map := by
  refine ⟨h.holds, ?_⟩
  intro x hx
  obtain ⟨pin, hpin, rfl⟩ := List.mem_map.mp hx
  exact ⟨h.held_mapped pin hpin, List.countP_pos_iff.mpr ⟨pin, hpin, by simp⟩⟩

theorem World.holds_map {w : World D n} {t : PageMap D} (h : Holds w.pool t)
    (hcon : ∀ p, w.last p = t.contents p) (hpins : ∀ p, w.held.countP (·.page = p) = t.pins p)
    (hpend : ∀ p, t.pending p = true → w.map.pending p = true) : Holds w.pool w.map where
  inv := h.inv
  contents_eq := fun p => (hcon p).trans (h.contents_eq p)
  pins_eq := fun p => (hpins p).trans (h.pins_eq p)
  free_eq := rfl
  numPages_eq := rfl
  coherent := by
    intro p f hp hd hnp
    refine h.coherent p f hp hd ?_
    cases hc : t.pending p with
    | false => rfl
    | true => exact absurd (hpend p hc) (by simp [hnp])
  pending_pinned := by
    intro p hp
    obtain ⟨pin, hmem, hpin⟩ := List.any_eq_true.mp hp
    refine List.countP_pos_iff.mpr ⟨pin, hmem, ?_⟩
    simp only [decide_eq_true_eq] at hpin ⊢
    exact hpin.1

theorem World.mem_pending {w : World D n} {p : PageId} :
    w.map.pending p = true ↔ ∃ pin ∈ w.held, pin.page = p ∧ pin.wrote = true := by
  simp [World.map]

theorem countP_erase_add {pin : Pin n} {l : List (Pin n)} (h : pin ∈ l) (p : PageId) :
    (l.erase pin).countP (·.page = p) + (if pin.page = p then 1 else 0) = l.countP (·.page = p) := by
  have hperm := List.perm_cons_erase h
  rw [hperm.countP_eq (fun x : Pin n => decide (x.page = p)), List.countP_cons]
  simp

theorem World.Inv.write {w : World D n} (h : w.Inv) {pin : Pin n} (hpin : pin ∈ w.held) {d : D} :
    World.Inv
      { w with
        pool := w.pool.setData pin.frame d
        held := { pin with wrote := true } :: w.held.erase pin
        last := Function.update w.last pin.page d } := by
  have hlook := h.held_mapped pin hpin
  have hpos : 0 < w.map.pins pin.page := List.countP_pos_iff.mpr ⟨pin, hpin, by simp⟩
  refine ⟨World.holds_map (h.holds.setData hlook hpos d) (fun _ => rfl) ?_ ?_, ?_, h.issued_lt⟩
  · intro q
    change _ = w.held.countP (·.page = q)
    rw [← countP_erase_add hpin q, List.countP_cons]
    simp
  · intro q hq
    rw [World.mem_pending]
    by_cases hqp : q = pin.page
    · exact ⟨_, List.mem_cons_self .., hqp.symm, rfl⟩
    · have hold : w.map.pending q = true := by simpa [PageMap.write, hqp] using hq
      obtain ⟨pin', hmem, hpage, hw⟩ := World.mem_pending.mp hold
      have hne : pin' ≠ pin := fun e => hqp (e ▸ hpage.symm)
      exact ⟨pin', List.mem_cons_of_mem _ ((List.mem_erase_of_ne hne).mpr hmem), hpage, hw⟩
  · intro pin' hmem
    rcases List.mem_cons.mp hmem with rfl | hmem
    · exact hlook
    · exact h.held_mapped pin' (List.mem_of_mem_erase hmem)

theorem World.Inv.unpinPage {w : World D n} (h : w.Inv) {pin : Pin n} (hpin : pin ∈ w.held)
    {dirty b : Bool} (hdirty : pin.wrote → dirty) {s : BufferPool D n}
    (hr : unpinPage pin.page dirty w.pool = .ok b s) :
    World.Inv { w with pool := s, held := w.held.erase pin } := by
  have hlook := h.held_mapped pin hpin
  have hcount := countP_erase_add hpin pin.page
  have hpos : w.map.pins pin.page ≠ 0 :=
    (List.countP_pos_iff.mpr ⟨pin, hpin, by simp⟩ : 0 < w.map.pins pin.page).ne'
  -- the last pin on a page that was written is the pin it was written under
  have hkeep : w.map.pins pin.page = 1 → w.map.pending pin.page = true → dirty = true := by
    intro h1 hp
    obtain ⟨pin', hmem, hpage, hw⟩ := World.mem_pending.mp hp
    by_cases he : pin' = pin
    · exact hdirty (he ▸ hw)
    · have hpos' : 0 < (w.held.erase pin).countP (·.page = pin.page) :=
        List.countP_pos_iff.mpr ⟨pin', (List.mem_erase_of_ne he).mpr hmem, by simpa using hpage⟩
      rw [if_pos rfl] at hcount
      exact absurd (hcount.trans h1) (by omega)
  have hs : s = w.pool.unpinFrame pin.frame dirty := by
    have hp0 : (w.pool.frames pin.frame).pinCount ≠ 0 := by
      rw [← pins_of_lookup hlook, ← h.holds.pins_eq]
      exact hpos
    simp only [BufferPool.unpinPage, hlook, if_neg hp0] at hr
    cases hr
    rfl
  subst hs
  refine ⟨World.holds_map (h.holds.unpinFrame hlook hpos dirty hkeep) (fun _ => rfl) ?_ ?_, ?_,
    h.issued_lt⟩
  · intro q
    have hc := countP_erase_add hpin q
    by_cases hq : pin.page = q
    · subst hq
      simp only [PageMap.unpin, Function.update_self]
      rw [if_pos rfl] at hc
      change _ = w.held.countP (·.page = pin.page) - 1
      omega
    · simp only [PageMap.unpin, Function.update_of_ne (Ne.symm hq)]
      rw [if_neg hq] at hc
      exact hc
  · intro q hq
    have hold : w.map.pending q = true ∧ (dirty = true → q ≠ pin.page) := by
      cases dirty with
      | false => exact ⟨by simpa [PageMap.unpin] using hq, by simp⟩
      | true =>
        by_cases hqp : q = pin.page
        · simp [PageMap.unpin, hqp] at hq
        · exact ⟨by simpa [PageMap.unpin, hqp] using hq, fun _ => hqp⟩
    obtain ⟨pin', hmem, hpage, hw⟩ := World.mem_pending.mp hold.1
    have hne : pin' ≠ pin := by
      rintro rfl
      exact hold.2 (hdirty hw) hpage.symm
    exact World.mem_pending.mpr ⟨pin', (List.mem_erase_of_ne hne).mpr hmem, hpage, hw⟩
  · intro pin' hmem
    exact h.held_mapped pin' (List.mem_of_mem_erase hmem)

theorem World.Inv.of_holds {w : World D n} (h : w.Inv) {s : BufferPool D n} (hs : Holds s w.map)
    (hlook : ∀ pin ∈ w.held, s.lookup pin.page = some pin.frame) :
    World.Inv { w with pool := s } := by
  refine ⟨World.holds_map hs (fun _ => rfl) (fun _ => rfl) (fun _ hp => hp), hlook, ?_⟩
  intro q hq
  change q < (s.disk.numPages : Int)
  rw [← hs.numPages_eq]
  exact h.issued_lt q hq

section
variable [Zero D]

theorem World.inv_init (disk : DiskManager D) : (World.init n disk).Inv where
  holds := by
    refine World.holds_map (holds_init disk) (fun _ => ?_) (fun _ => ?_) (fun _ h => ?_)
    · rfl
    · rfl
    · cases h
  held_mapped := by simp [World.init]
  issued_lt := by simp [World.init]

theorem World.Inv.newPage {w : World D n} (h : w.Inv) {p : PageId} {f : Fin n} {s : BufferPool D n}
    (hr : newPage w.pool = .ok (some (p, f)) s) :
    World.Inv ⟨s, ⟨p, f, false⟩ :: w.held, Function.update w.last p 0, p :: w.issued⟩ ∧
      p ∉ w.issued ∧ (s.frames f).data = 0 := by
  rcases newPage_of_live h.live hr with ⟨h0, -⟩ | ⟨g, hg, -, hlive⟩
  · cases h0
  · obtain ⟨rfl, rfl⟩ : p = w.map.numPages ∧ f = g := by simpa using hg
    have hnum : s.disk.numPages = w.pool.disk.numPages + 1 := hlive.1.numPages_eq.symm
    have hnew : (w.held.countP fun pin => decide (pin.page = (w.map.numPages : PageId))) = 0 := by
      rw [List.countP_eq_zero]
      intro pin hpin
      have := (h.holds.inv.allocated _ _ (h.held_mapped pin hpin)).2
      simp only [decide_eq_true_eq]
      exact fun e => absurd (e ▸ this) (lt_irrefl _)
    have hlook := (hlive.2 _ (List.mem_cons_self ..)).1
    refine ⟨⟨World.holds_map hlive.1 (fun _ => rfl) ?_ ?_, ?_, ?_⟩, ?_, ?_⟩
    · intro q
      by_cases hq : q = w.map.numPages
      · subst hq
        simp [PageMap.alloc, hnew]
      · have hq' : ¬ (w.map.numPages : PageId) = q := fun e => hq e.symm
        simp only [List.countP_cons, hq', decide_false, Bool.false_eq_true, if_false, add_zero,
          PageMap.alloc, Function.update_of_ne hq]
        rfl
    · intro q hq
      obtain ⟨pin, hpin, hw⟩ := World.mem_pending.mp (show w.map.pending q = true from hq)
      exact World.mem_pending.mpr ⟨pin, List.mem_cons_of_mem _ hpin, hw⟩
    · intro pin hpin
      rcases List.mem_cons.mp hpin with rfl | hpin
      · exact hlook
      · exact (hlive.2 _ (List.mem_cons_of_mem _
          (List.mem_map_of_mem (f := fun pin : Pin n => (pin.page, pin.frame)) hpin))).1
    · intro q hq
      change q < (s.disk.numPages : Int)
      rw [hnum]
      rcases List.mem_cons.mp hq with rfl | hq
      · exact_mod_cast Nat.lt_succ_self _
      · exact (h.issued_lt q hq).trans (by exact_mod_cast Nat.lt_succ_self _)
    · intro hmem
      exact absurd (h.issued_lt _ hmem) (lt_irrefl _)
    · rw [← contents_of_lookup hlook, ← hlive.1.contents_eq]
      simp [PageMap.alloc]

theorem World.Inv.fetchPage {w : World D n} (h : w.Inv) {p : PageId} {f : Fin n}
    {s : BufferPool D n} (hr : fetchPage p w.pool = .ok (some f) s) :
    World.Inv { w with pool := s, held := ⟨p, f, false⟩ :: w.held } ∧
      (s.frames f).data = w.last p := by
  rcases fetchPage_of_live h.live hr with ⟨h0, -⟩ | ⟨g, hg, -, -, hlive⟩
  · cases h0
  · obtain rfl : f = g := Option.some.inj hg
    have hlook := (hlive.2 _ (List.mem_cons_self ..)).1
    refine ⟨⟨World.holds_map hlive.1 (fun _ => rfl) ?_ ?_, ?_, ?_⟩, ?_⟩
    · intro q
      by_cases hq : p = q
      · subst hq
        simp [PageMap.pin, World.map]
      · simp only [List.countP_cons, hq, decide_false, Bool.false_eq_true, if_false, add_zero,
          PageMap.pin, Function.update_of_ne (Ne.symm hq)]
        rfl
    · intro q hq
      obtain ⟨pin, hpin, hw⟩ := World.mem_pending.mp (show w.map.pending q = true from hq)
      exact World.mem_pending.mpr ⟨pin, List.mem_cons_of_mem _ hpin, hw⟩
    · intro pin hpin
      rcases List.mem_cons.mp hpin with rfl | hpin
      · exact hlook
      · exact (hlive.2 _ (List.mem_cons_of_mem _
          (List.mem_map_of_mem (f := fun pin : Pin n => (pin.page, pin.frame)) hpin))).1
    · intro q hq
      have hnum : s.disk.numPages = w.pool.disk.numPages := hlive.1.numPages_eq.symm
      change q < (s.disk.numPages : Int)
      rw [hnum]
      exact h.issued_lt q hq
    · rw [← contents_of_lookup hlook, ← hlive.1.contents_eq]
      rfl

theorem World.Inv.step {w w' : World D n} (h : w.Inv) (hs : ClientStep w w') : w'.Inv := by
  cases hs with
  | newPage hr => exact (h.newPage hr).1
  | newPageNull hr =>
    rcases newPage_of_live h.live hr with ⟨-, -, hlive⟩ | ⟨g, hg, -⟩
    · exact h.of_holds hlive.1 fun pin hpin =>
        (hlive.2 _ (List.mem_map_of_mem (f := fun pin : Pin n => (pin.page, pin.frame)) hpin)).1
    · cases hg
  | fetchPage hr => exact (h.fetchPage hr).1
  | fetchPageNull hr =>
    rcases fetchPage_of_live h.live hr with ⟨-, -, -, hlive⟩ | ⟨g, hg, -⟩
    · exact h.of_holds hlive.1 fun pin hpin =>
        (hlive.2 _ (List.mem_map_of_mem (f := fun pin : Pin n => (pin.page, pin.frame)) hpin)).1
    · cases hg
  | write hpin hr =>
    cases hr
    exact h.write hpin
  | unpinPage hpin hdirty hr => exact h.unpinPage hpin hdirty hr
  | @unpinStray p dirty b s hpin hr =>
    have h0 : w.map.pins p = 0 := by
      refine List.countP_eq_zero.mpr fun pin hmem => ?_
      simpa using hpin pin hmem
    have hsame : s = w.pool := by
      unfold BufferPool.unpinPage at hr
      split at hr
      · cases hr
        rfl
      · next f hf =>
        rw [h.holds.pins_eq, pins_of_lookup hf] at h0
        rw [if_pos h0] at hr
        cases hr
        rfl
    rw [hsame]
    exact h.of_holds h.holds h.held_mapped
  | @flushPage p b s hr =>
    unfold BufferPool.flushPage at hr
    split at hr <;> cases hr
    · exact h.of_holds h.holds h.held_mapped
    · next f hf => exact h.of_holds (h.holds.flushFrame hf) h.held_mapped
  | flushAllPages hr =>
    cases hr
    have hes := fun e (he : e ∈ w.pool.pageTable.entries) => lookup_of_mem_entries he
    obtain ⟨-, htab, -⟩ := flush_foldl _ h.holds.inv hes
    exact h.of_holds (holds_flush_foldl _ h.holds hes) fun pin hpin =>
      (congrArg (AList.lookup pin.page) htab).trans (h.held_mapped pin hpin)

theorem ClientRun.inv {disk : DiskManager D} {w : World D n} (h : ClientRun disk w) : w.Inv := by
  induction h with
  | init => exact World.inv_init disk
  | step _ hs ih => exact ih.step hs

/-- The pool is a transparent cache for clients that keep the pin discipline. -/
theorem fetchPage_returns_last_written {disk : DiskManager D} {w : World D n} (h : ClientRun disk w) :
    (∀ p f s, fetchPage p w.pool = .ok (some f) s → (s.frames f).data = w.last p) ∧
    (∀ p f s, newPage w.pool = .ok (some (p, f)) s → p ∉ w.issued ∧ (s.frames f).data = 0) ∧
    ∀ pin ∈ w.held, (w.pool.frames pin.frame).data = w.last pin.page := by
  have hinv := h.inv
  refine ⟨fun p f s hr => (hinv.fetchPage hr).2, fun p f s hr => (hinv.newPage hr).2, ?_⟩
  intro pin hpin
  rw [← contents_of_lookup (hinv.held_mapped pin hpin)]
  exact (hinv.holds.contents_eq pin.page).symm

end

theorem fetchPage_after_eviction :
    ∃ (w : World Nat 1) (s : BufferPool Nat 1), ClientRun ⟨0, fun _ => 0⟩ w ∧ w.last 0 = 7 ∧
      w.pool.lookup 0 = none ∧ fetchPage 0 w.pool = .ok (some 0) s ∧ (s.frames 0).data = 7 := by
  have h1 : ClientRun (n := 1) ⟨0, fun _ => 0⟩ _ := .step .init (.newPage rfl)
  have h2 : ClientRun (n := 1) ⟨0, fun _ => 0⟩ _ :=
    .step h1 (.write (d := 7) (List.mem_cons_self ..) rfl)
  have h3 : ClientRun (n := 1) ⟨0, fun _ => 0⟩ _ :=
    .step h2 (.unpinPage (List.mem_cons_self ..) (fun _ => rfl) rfl)
  have h4 : ClientRun (n := 1) ⟨0, fun _ => 0⟩ _ := .step h3 (.newPage rfl)
  have h5 : ClientRun (n := 1) ⟨0, fun _ => 0⟩ _ :=
    .step h4 (.unpinPage (List.mem_cons_self ..) (by simp) (rfl : unpinPage 1 false _ = _))
  exact ⟨_, _, h5, rfl, rfl, rfl, (fetchPage_returns_last_written h5).1 0 0 _ rfl⟩

end MyDB.Storage

import MyDB.Lib.Threads
import MyDB.Storage.PageStore

/-! Threads that read pages through one buffer pool. Each pins one page at a time, no
two the same; others may have pinned pages before and keep them. While the threads
are no more than the frames that were free, every fetch succeeds, and a page in hand
is the one the store had, whatever has been evicted meanwhile. -/

namespace MyDB.Storage
open Lib BufferPool
variable {D ι : Type} {n : Nat}

theorem held_update [DecidableEq ι] {held : ι → Option (PageId × Fin n)} {i : ι} {x : Option (PageId × Fin n)}
    {j : ι} {y : PageId × Fin n} (h : Function.update held i x j = some y) :
    (j = i ∧ x = some y) ∨ (j ≠ i ∧ held j = some y) := by
  by_cases hj : j = i
  · rw [hj, Function.update_self] at h
    exact Or.inl ⟨hj, h⟩
  · rw [Function.update_of_ne hj] at h
    exact Or.inr ⟨hj, h⟩

variable [Fintype ι]

noncomputable def heldPtrs (held : ι → Option (PageId × Fin n)) : List (PageId × Fin n) :=
  Finset.univ.toList.filterMap held

theorem mem_heldPtrs {held : ι → Option (PageId × Fin n)} {x : PageId × Fin n} :
    x ∈ heldPtrs held ↔ ∃ i, held i = some x := by
  simp [heldPtrs]

def pinOf (p : PageId) (x : Option (PageId × Fin n)) : Nat := if x.map Prod.fst = some p then 1 else 0

def frameOf (m₀ : PageMap D) : Option (PageId × Fin n) → Nat
  | none => 0
  | some x => if m₀.pins x.1 = 0 then 1 else 0

structure Pinned (m₀ : PageMap D) (held : ι → Option (PageId × Fin n)) (m : PageMap D) : Prop where
  contents_eq : m.contents = m₀.contents
  numPages_eq : m.numPages = m₀.numPages
  pending_eq : m.pending = m₀.pending
  pins_eq : ∀ p, m.pins p = m₀.pins p + ∑ i, pinOf p (held i)
  free_eq : m.free + ∑ i, frameOf m₀ (held i) = m₀.free

structure Readers (m₀ : PageMap D) (s : BufferPool D n) (held : ι → Option (PageId × Fin n)) : Prop where
  pool : ∃ m, Live (heldPtrs held) s m ∧ Pinned m₀ held m
  distinct : ∀ i j x y, held i = some x → held j = some y → x.1 = y.1 → i = j

variable {m₀ m : PageMap D} {s : BufferPool D n} {held : ι → Option (PageId × Fin n)} {i : ι} {pid : PageId}
  {f : Fin n}

theorem readers_start (h : Holds s m₀) : Readers m₀ s (fun _ : ι => none) := by
  refine ⟨⟨m₀, ⟨h, fun x hx => ?_⟩, ⟨rfl, rfl, rfl, fun p => ?_, ?_⟩⟩, fun i j x y hx => by cases hx⟩
  · obtain ⟨i, hi⟩ := mem_heldPtrs.mp hx
    cases hi
  · exact (Nat.add_eq_left.mpr (Finset.sum_eq_zero fun _ _ => rfl)).symm
  · exact Nat.add_eq_left.mpr (Finset.sum_eq_zero fun _ _ => rfl)

theorem Readers.read [Zero D] (h : Readers m₀ s held) (hi : held i = some (pid, f)) :
    BufferPool.store.readData f s = .ok (m₀.contents pid) s := by
  obtain ⟨m, hlive, hm⟩ := h.pool
  have hlookup := (hlive.2 _ (mem_heldPtrs.mpr ⟨i, hi⟩)).1
  have hdata : (s.frames f).data = m₀.contents pid := by
    rw [← contents_of_lookup hlookup, ← hlive.1.contents_eq, hm.contents_eq]
  exact congrArg (EStateM.Result.ok · s) hdata

theorem Pinned.pins_of_not_held (hm : Pinned m₀ held m) (hother : ∀ j x, held j = some x → x.1 ≠ pid) :
    m.pins pid = m₀.pins pid := by
  rw [hm.pins_eq, Nat.add_eq_left]
  apply Finset.sum_eq_zero
  intro j _
  cases hj : held j with
  | none => rfl
  | some x => exact if_neg fun e => hother j x hj (Option.some.inj e)

theorem frameOf_le (x : Option (PageId × Fin n)) : frameOf m₀ x ≤ 1 := by
  cases x with
  | none => exact Nat.zero_le 1
  | some x =>
    change (if m₀.pins x.1 = 0 then 1 else 0) ≤ 1
    split_ifs
    · exact le_rfl
    · exact Nat.zero_le 1

theorem sum_frameOf_lt (hi : held i = none) : ∑ j, frameOf m₀ (held j) < Fintype.card ι := by
  have hlt : ∑ j, frameOf m₀ (held j) < ∑ _j : ι, 1 := by
    refine Finset.sum_lt_sum (fun j _ => frameOf_le (held j)) ⟨i, Finset.mem_univ i, ?_⟩
    rw [hi]
    exact Nat.zero_lt_one
  rwa [Finset.sum_const, Finset.card_univ, smul_eq_mul, mul_one] at hlt

variable [DecidableEq ι]

theorem Pinned.pin (hm : Pinned m₀ held m) (hi : held i = none) (hother : ∀ j x, held j = some x → x.1 ≠ pid)
    (hfree : m.pins pid ≠ 0 ∨ m.free ≠ 0) : Pinned m₀ (Function.update held i (some (pid, f))) (m.pin pid) := by
  refine ⟨hm.contents_eq, hm.numPages_eq, hm.pending_eq, fun p => ?_, ?_⟩
  · have hsum := Threads.sum_locals_update (pinOf p) held i (some (pid, f))
    have hold := hm.pins_eq p
    change Function.update m.pins pid (m.pins pid + 1) p = _
    rw [hi] at hsum
    change _ + 0 = _ at hsum
    by_cases hp : p = pid
    · subst hp
      have hone : pinOf p (some (p, f)) = 1 := if_pos rfl
      rw [Function.update_self]
      omega
    · have hzero : pinOf p (some (pid, f)) = 0 := if_neg fun e => hp (Option.some.inj e).symm
      rw [Function.update_of_ne hp]
      omega
  · have hsum := Threads.sum_locals_update (frameOf m₀) held i (some (pid, f))
    rw [hi] at hsum
    change _ + 0 = _ + (if m₀.pins pid = 0 then 1 else 0) at hsum
    have hold := hm.free_eq
    change (if m.pins pid = 0 then m.free - 1 else m.free) + _ = _
    rw [hm.pins_of_not_held hother] at hfree ⊢
    split_ifs at hsum ⊢ <;> omega

theorem Pinned.unpin (hm : Pinned m₀ held m) (hi : held i = some (pid, f))
    (hpins : m.pins pid = m₀.pins pid + 1) :
    Pinned m₀ (Function.update held i none) (m.unpin pid false) := by
  refine ⟨hm.contents_eq, hm.numPages_eq, hm.pending_eq, fun p => ?_, ?_⟩
  · have hsum := Threads.sum_locals_update (pinOf p) held i none
    have hold := hm.pins_eq p
    change Function.update m.pins pid (m.pins pid - 1) p = _
    rw [hi] at hsum
    change _ = _ + 0 at hsum
    by_cases hp : p = pid
    · subst hp
      have hone : pinOf p (some (p, f)) = 1 := if_pos rfl
      rw [Function.update_self]
      omega
    · have hzero : pinOf p (some (pid, f)) = 0 := if_neg fun e => hp (Option.some.inj e).symm
      rw [Function.update_of_ne hp]
      omega
  · have hsum := Threads.sum_locals_update (frameOf m₀) held i none
    rw [hi] at hsum
    change _ + (if m₀.pins pid = 0 then 1 else 0) = _ + 0 at hsum
    have hold := hm.free_eq
    change (if m.pins pid = 1 then m.free + 1 else m.free) + _ = _
    rw [hpins]
    split_ifs at hsum ⊢ <;> omega

theorem Readers.fetch_cases [Zero D] (h : Readers m₀ s held) (hi : held i = none)
    (hother : ∀ j x, held j = some x → x.1 ≠ pid) (hr : 0 ≤ pid ∧ pid < m₀.numPages) :
    (∃ f s', BufferPool.store.fetchPage pid s = .ok (some f) s' ∧
      Readers m₀ s' (Function.update held i (some (pid, f))) ∧
      ¬ (m₀.pins pid = 0 ∧ ∑ j, frameOf m₀ (held j) = m₀.free)) ∨
    ∃ s', BufferPool.store.fetchPage pid s = .ok none s' ∧ Readers m₀ s' held ∧ m₀.pins pid = 0 ∧
      ∑ j, frameOf m₀ (held j) = m₀.free := by
  obtain ⟨m, hlive, hm⟩ := h.pool
  have hpins := hm.pins_of_not_held hother
  have htotal := hm.free_eq
  by_cases hfree : m.pins pid ≠ 0 ∨ m.free ≠ 0
  · have hfetch := PageMap.fetchPage_ok (m := m) (hm.numPages_eq ▸ hr) hfree
    obtain ⟨a, s', hs, hlive'⟩ := (fetchPage_refines pid).ok hlive hfetch
    cases a with
    | none => exact hlive'.elim
    | some f =>
      refine Or.inl ⟨f, s', hs, ⟨⟨m.pin pid, ⟨hlive'.2.1, fun x hx => ?_⟩, hm.pin hi hother hfree⟩, ?_⟩, ?_⟩
      · obtain ⟨j, hj⟩ := mem_heldPtrs.mp hx
        rcases held_update hj with ⟨-, hx⟩ | ⟨-, hj⟩
        · exact hlive'.2.2 x (List.mem_cons.mpr (Or.inl (Option.some.inj hx).symm))
        · exact hlive'.2.2 x (List.mem_cons_of_mem _ (mem_heldPtrs.mpr ⟨j, hj⟩))
      · intro j k x y hx hy hxy
        rcases held_update hx with ⟨hj, hx⟩ | ⟨hj, hx⟩
        · rcases held_update hy with ⟨hk, -⟩ | ⟨-, hy⟩
          · rw [hj, hk]
          · exact absurd (hxy.symm.trans (congrArg Prod.fst (Option.some.inj hx)).symm) (hother k y hy)
        · rcases held_update hy with ⟨-, hy⟩ | ⟨-, hy⟩
          · exact absurd (hxy.trans (congrArg Prod.fst (Option.some.inj hy)).symm) (hother j x hx)
          · exact h.distinct j k x y hx hy hxy
      · rintro ⟨hzero, hall⟩
        rw [hpins] at hfree
        omega
  · obtain ⟨a, s', hs, hlive'⟩ := (fetchPage_refines pid).ok hlive (PageMap.fetchPage_none hfree)
    rw [hpins] at hfree
    cases a with
    | some a => exact hlive'.elim
    | none => exact Or.inr ⟨s', hs, ⟨⟨m, hlive', hm⟩, h.distinct⟩, by omega, by omega⟩

theorem Readers.unpin [Zero D] (h : Readers m₀ s held) (hwf : m₀.WF) (hi : held i = some (pid, f)) :
    ∃ s', BufferPool.store.unpinPage pid false s = .ok true s' ∧
      Readers m₀ s' (Function.update held i none) := by
  obtain ⟨m, hlive, hm⟩ := h.pool
  have hpins : m.pins pid = m₀.pins pid + 1 := by
    rw [hm.pins_eq, Finset.sum_eq_single i]
    · rw [hi]
      exact congrArg _ (if_pos rfl)
    · intro j _ hj
      cases hx : held j with
      | none => rfl
      | some x => exact if_neg fun e => hj (h.distinct j i x _ hx hi (Option.some.inj e))
    · exact fun hu => absurd (Finset.mem_univ i) hu
  have hkeep : ¬ (m.pins pid = 1 ∧ m.pending pid ∧ !false) := by
    rintro ⟨hone, hpend, -⟩
    have hzero : m₀.pins pid = 0 := by omega
    rw [hm.pending_eq, hwf.not_pending hzero] at hpend
    cases hpend
  have hunpin : PageMap.store.unpinPage pid false m = .ok true (m.unpin pid false) := by
    simp only [PageMap.store, if_neg hkeep, if_neg (show m.pins pid ≠ 0 by omega)]
  have hrest : ∀ x ∈ heldPtrs (Function.update held i none), x ∈ heldPtrs held ∧ x.1 ≠ pid := by
    intro x hx
    obtain ⟨j, hj⟩ := mem_heldPtrs.mp hx
    rcases held_update hj with ⟨-, hx⟩ | ⟨hji, hj⟩
    · cases hx
    · exact ⟨mem_heldPtrs.mpr ⟨j, hj⟩, fun e => hji (h.distinct j i x _ hj hi e)⟩
  obtain ⟨a, s', hs, rfl, hlive'⟩ := (unpinPage_refines pid false (fun x hx => (hrest x hx).1)
    fun x hx => (hrest x hx).2).ok hlive hunpin
  refine ⟨s', hs, ⟨m.unpin pid false, hlive', hm.unpin hi hpins⟩, fun j k x y hx hy hxy => ?_⟩
  rcases held_update hx with ⟨-, hx⟩ | ⟨-, hx⟩
  · cases hx
  · rcases held_update hy with ⟨-, hy⟩ | ⟨-, hy⟩
    · cases hy
    · exact h.distinct j k x y hx hy hxy

end MyDB.Storage

import Mathlib

/-! Threads that share a state. `step s l s' l'` is one atomic step of a thread
with the local state `l`; a step of the whole is a step of one of the threads. -/

namespace MyDB.Lib
variable {ι S L : Type} [DecidableEq ι]

structure Threads (ι S L : Type) where
  shared : S
  locals : ι → L

namespace Threads
variable {step : S → L → S → L → Prop}

inductive Step (step : S → L → S → L → Prop) (c : Threads ι S L) : Threads ι S L → Prop
  | run (i : ι) {s' : S} {l' : L} (h : step c.shared (c.locals i) s' l') :
      Step step c ⟨s', Function.update c.locals i l'⟩

theorem Step.of_local {c : Threads ι S L} {i : ι} {l l' : L} {s' : S} (hl : c.locals i = l)
    (h : step c.shared l s' l') : Step step c ⟨s', Function.update c.locals i l'⟩ :=
  .run i (hl ▸ h)

/-- Any number of steps, under any scheduler. -/
abbrev Run (step : S → L → S → L → Prop) : Threads ι S L → Threads ι S L → Prop :=
  Relation.ReflTransGen (Step step)

theorem Run.invariant {Inv : Threads ι S L → Prop} {c c' : Threads ι S L} (hrun : Run step c c')
    (hstep : ∀ (c : Threads ι S L) (i : ι) (s' : S) (l' : L), Inv c → step c.shared (c.locals i) s' l' →
      Inv ⟨s', Function.update c.locals i l'⟩) (h : Inv c) : Inv c' := by
  induction hrun with
  | refl => exact h
  | tail _ hs ih =>
    obtain ⟨i, hs⟩ := hs
    exact hstep _ i _ _ ih hs

/-- If each thread, running alone, comes to its end from every reachable state, then
all of them can. -/
theorem Run.all_done [Fintype ι] (Done : L → Prop) {c₀ c : Threads ι S L}
    (hsolo : ∀ c, Run step c₀ c → ∀ i, ∃ c', Run step c c' ∧ Done (c'.locals i) ∧
      ∀ j, j ≠ i → c'.locals j = c.locals j)
    (hc : Run step c₀ c) : ∃ c', Run step c c' ∧ ∀ i, Done (c'.locals i) := by
  have hset (t : Finset ι) : ∃ c', Run step c c' ∧ ∀ i ∈ t, Done (c'.locals i) := by
    induction t using Finset.induction_on with
    | empty => exact ⟨c, .refl, fun i hi => absurd hi (Finset.notMem_empty i)⟩
    | insert i t hi ih =>
      obtain ⟨c₁, hrun, hdone⟩ := ih
      obtain ⟨c₂, hrun₂, hdone₂, hsame⟩ := hsolo c₁ (hc.trans hrun) i
      refine ⟨c₂, hrun.trans hrun₂, fun j hj => ?_⟩
      by_cases hji : j = i
      · rw [hji]
        exact hdone₂
      · rw [hsame j hji]
        exact hdone j (Finset.mem_of_mem_insert_of_ne hj hji)
  obtain ⟨c', hrun, hdone⟩ := hset Finset.univ
  exact ⟨c', hrun, fun i => hdone i (Finset.mem_univ i)⟩

theorem Run.each {I : Threads ι S L → Prop} {A B : ι → L → Prop}
    (hsolo : ∀ c i, I c → A i (c.locals i) → ∃ c', Run step c c' ∧ I c' ∧ B i (c'.locals i) ∧
      ∀ j, j ≠ i → c'.locals j = c.locals j)
    {is : List ι} (hnodup : is.Nodup) {c : Threads ι S L} (hI : I c) (hA : ∀ i ∈ is, A i (c.locals i)) :
    ∃ c', Run step c c' ∧ I c' ∧ (∀ i ∈ is, B i (c'.locals i)) ∧ ∀ j, j ∉ is → c'.locals j = c.locals j := by
  induction is generalizing c with
  | nil => exact ⟨c, .refl, hI, fun i hi => absurd hi List.not_mem_nil, fun _ _ => rfl⟩
  | cons i is ih =>
    obtain ⟨hi, hnodup⟩ := List.nodup_cons.mp hnodup
    obtain ⟨hAi, hAis⟩ := List.forall_mem_cons.mp hA
    obtain ⟨c₁, hrun₁, hI₁, hB₁, hsame₁⟩ := hsolo c i hI hAi
    have hA₁ : ∀ j ∈ is, A j (c₁.locals j) := fun j hj => by
      rw [hsame₁ j (ne_of_mem_of_not_mem hj hi)]
      exact hAis j hj
    obtain ⟨c₂, hrun₂, hI₂, hB₂, hsame₂⟩ := ih hnodup hI₁ hA₁
    refine ⟨c₂, hrun₁.trans hrun₂, hI₂, List.forall_mem_cons.mpr ⟨?_, hB₂⟩, fun j hj => ?_⟩
    · rwa [hsame₂ i hi]
    · obtain ⟨hji, hjis⟩ := not_or.mp (List.mem_cons.not.mp hj)
      rw [hsame₂ j hjis, hsame₁ j hji]

theorem sum_locals_update [Fintype ι] {M : Type} [AddCommMonoid M] (m : L → M) (ls : ι → L) (i : ι)
    (l' : L) : (∑ j, m (Function.update ls i l' j)) + m (ls i) = (∑ j, m (ls j)) + m l' := by
  rw [← Finset.add_sum_erase _ _ (Finset.mem_univ i), ← Finset.add_sum_erase _ _ (Finset.mem_univ i),
    Function.update_self]
  have hrest : ∑ j ∈ Finset.univ.erase i, m (Function.update ls i l' j) =
      ∑ j ∈ Finset.univ.erase i, m (ls j) := by
    apply Finset.sum_congr rfl
    intro j hj
    rw [Function.update_of_ne (Finset.ne_of_mem_erase hj)]
  rw [hrest, add_comm (m l'), add_comm (m (ls i)), add_right_comm]

end Threads

theorem filter_sum {κ α : Type} [Fintype κ] (p : α → Prop) [DecidablePred p] (m : κ → Multiset α) :
    (∑ k, m k).filter p = ∑ k, (m k).filter p :=
  map_sum (⟨⟨Multiset.filter p, Multiset.filter_zero p⟩, Multiset.filter_add p⟩ :
    Multiset α →+ Multiset α) m Finset.univ

end MyDB.Lib

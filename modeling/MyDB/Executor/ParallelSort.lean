import MyDB.Executor.Evaluation

/-! The slices of the input that `ParallelSort::Init` gives to its workers. The length
of a slice is rounded up, so that the last workers can begin behind the end of the
input. -/

namespace MyDB.Executor.MergeState
open MyDB.Lib

/-- `start` and `end` of a worker. -/
def sliceOf (nThreads size i : Nat) : Nat × Nat :=
  (i * chunk nThreads size, min (i * chunk nThreads size + chunk nThreads size) size)

variable {nThreads size : Nat}

theorem chunk_pos (hsize : 0 < size) (hw : 0 < workers nThreads size) : 0 < chunk nThreads size :=
  Nat.pos_of_mul_pos_left (hsize.trans_le (size_le hw))

theorem existsUnique_slice (hsize : 0 < size) (hw : 0 < workers nThreads size) {k : Nat} (hk : k < size) :
    ∃! i, i < workers nThreads size ∧ (sliceOf nThreads size i).1 ≤ k ∧ k < (sliceOf nThreads size i).2 := by
  have hchunk := chunk_pos hsize hw
  refine ⟨k / chunk nThreads size, ⟨?_, ?_, ?_⟩, ?_⟩
  · exact (Nat.div_lt_iff_lt_mul hchunk).mpr (hk.trans_le (size_le hw))
  · exact Nat.div_mul_le_self ..
  · apply lt_min _ hk
    rw [← Nat.succ_mul, Nat.mul_comm]
    exact Nat.lt_mul_div_succ k hchunk
  · rintro i ⟨-, hlo, hhi⟩
    apply (Nat.div_eq_of_lt_le hlo _).symm
    rw [Nat.succ_mul]
    exact hhi.trans_le (min_le_left ..)

/-- The slices are well-formed and partition the input if and only if the last worker
does not begin behind the end. -/
theorem slices_iff (hsize : 0 < size) (hn : 0 < nThreads) :
    ((∀ i < workers nThreads size, (sliceOf nThreads size i).1 ≤ (sliceOf nThreads size i).2 ∧
        (sliceOf nThreads size i).2 ≤ size) ∧
      ∀ k < size, ∃! i, i < workers nThreads size ∧ (sliceOf nThreads size i).1 ≤ k ∧
        k < (sliceOf nThreads size i).2) ↔
    (workers nThreads size - 1) * chunk nThreads size ≤ size := by
  have hw : 0 < workers nThreads size := lt_min hn hsize
  constructor
  · rintro ⟨h, -⟩
    exact (h _ (Nat.sub_one_lt hw.ne')).1.trans (min_le_right ..)
  · intro h
    refine ⟨fun i hi => ⟨le_min (Nat.le_add_right ..) ?_, min_le_right ..⟩, fun k hk => existsUnique_slice hsize hw hk⟩
    exact (Nat.mul_le_mul_right _ (Nat.le_sub_one_of_lt hi)).trans h

theorem slices_even :
    (∀ i < workers 4 2000, (sliceOf 4 2000 i).1 ≤ (sliceOf 4 2000 i).2 ∧ (sliceOf 4 2000 i).2 ≤ 2000) ∧
      ∀ k < 2000, ∃! i, i < workers 4 2000 ∧ (sliceOf 4 2000 i).1 ≤ k ∧ k < (sliceOf 4 2000 i).2 :=
  (slices_iff (by decide) (by decide)).mpr (by decide)

theorem sortPartition_eq (std : Std) (less : Tuple → Tuple → Except Fault Bool) (all : List Tuple) (i : Nat) :
    sortPartition std less all (chunk nThreads all.length) i =
      if (sliceOf nThreads all.length i).2 < (sliceOf nThreads all.length i).1 then .error .outOfBounds
      else (std.sort less (slice all (sliceOf nThreads all.length i).1
        ((sliceOf nThreads all.length i).2 - (sliceOf nThreads all.length i).1))).mapError Fault.inWorker :=
  rfl

/-- With five tuples and four threads, the last worker begins at the index 6. -/
theorem slices_five_four :
    sliceOf 4 5 3 = (6, 5) ∧ ∀ (std : Std) (less : Tuple → Tuple → Except Fault Bool) (t : Tuple),
      sortPartition std less [t, t, t, t, t] (chunk 4 5) 3 = .error .outOfBounds := by
  have hslice : sliceOf 4 5 3 = (6, 5) := by decide
  refine ⟨hslice, fun std less t => ?_⟩
  have hlt : (sliceOf 4 5 3).2 < (sliceOf 4 5 3).1 := by rw [hslice]; decide
  exact (sortPartition_eq std less [t, t, t, t, t] 3).trans (if_pos hlt)

end MyDB.Executor.MergeState

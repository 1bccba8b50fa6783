import MyDB.Executor.ParallelSort
import MyDB.Executor.SortOrder

/-! The merge of `ParallelSort`: from sorted partitions, whatever their number and their
lengths, `Next` returns every tuple once and in order. The heap has an entry for each
partition that has not run out, and an entry stands for the rest of its partition. -/

namespace MyDB.Executor.MergeState
open MyDB.Lib MyDB.Parser
variable {std : Std} {less : Tuple → Tuple → Except Fault Bool} {lt : Tuple → Tuple → Prop} [DecidableRel lt]
  {s s' : MergeState}

def entryLess (lt : Tuple → Tuple → Prop) (a b : HeapEntry) : Prop := lt b.tuple a.tuple

instance : DecidableRel (entryLess lt) := fun a b => inferInstanceAs (Decidable (lt b.tuple a.tuple))

structure Merging (less : Tuple → Tuple → Except Fault Bool) (lt : Tuple → Tuple → Prop) [DecidableRel lt]
    (s : MergeState) : Prop where
  ready : s.heapReady = true
  sorted : ∀ p ∈ s.partitions, p.Pairwise fun a b => ¬ lt b a
  decides : Decides less lt s.partitions.flatten
  entry : ∀ e ∈ s.heap, (s.partitions.getD e.partition [])[e.index]? = some e.tuple
  heap : IsHeap (entryLess lt) s.heap

theorem getD_mem_or_nil (partitions : List (List Tuple)) (i : Nat) :
    partitions.getD i [] ∈ partitions ∨ partitions.getD i [] = [] := by
  rw [List.getD_eq_getElem?_getD]
  cases h : partitions[i]? with
  | none => exact Or.inr rfl
  | some p => exact Or.inl (List.mem_of_getElem? h)

section entries
variable {e : HeapEntry}

theorem mem_flatten_of_entry {partitions : List (List Tuple)} (he : (partitions.getD e.partition [])[e.index]? = some e.tuple) :
    e.tuple ∈ partitions.flatten := by
  have hmem := List.mem_of_getElem? he
  rcases getD_mem_or_nil partitions e.partition with hp | hp
  · exact List.mem_flatten.mpr ⟨_, hp, hmem⟩
  · rw [hp] at hmem
    cases hmem

theorem decides_entries (h : Decides less lt s.partitions.flatten) {l : List HeapEntry}
    (hl : ∀ e ∈ l, (s.partitions.getD e.partition [])[e.index]? = some e.tuple) :
    Decides (heapLess less) (entryLess lt) l := by
  intro a ha b hb
  exact h b.tuple (mem_flatten_of_entry (hl b hb)) a.tuple (mem_flatten_of_entry (hl a ha))

theorem Merging.pending_le (hlt : WeakLess lt) (h : Merging less lt s) (he : e ∈ s.heap) {t : Tuple} (ht : t ∈ s.pending e) :
    ¬ lt t e.tuple := by
  unfold pending at ht
  rcases List.mem_cons.mp ht with rfl | ht
  · exact fun hself => hlt.asymm _ _ hself hself
  · have hentry := h.entry e he
    have hpairwise : (s.partitions.getD e.partition []).Pairwise fun a b => ¬ lt b a := by
      rcases getD_mem_or_nil s.partitions e.partition with hp | hp
      · exact h.sorted _ hp
      · rw [hp]
        exact .nil
    obtain ⟨hi, htuple⟩ := List.getElem?_eq_some_iff.mp hentry
    have hdrop := hpairwise.drop (i := e.index)
    rw [List.drop_eq_getElem_cons hi, htuple] at hdrop
    exact (List.pairwise_cons.mp hdrop).1 t ht

end entries

section next
variable {heap heap' : List HeapEntry} {top : HeapEntry} (hready : ¬ (s.heapReady = false ∨ s.heap = []))
  (hpop : std.popHeap (heapLess less) s.heap = .ok heap) (hlast : heap.getLast? = some top)
include hready hpop hlast

theorem next_of_none (hnext : (s.partitions.getD top.partition [])[top.index + 1]? = none) :
    next std less s = .ok (some top.tuple, { s with heap := heap.dropLast }) := by
  rw [next, if_neg hready]
  refine bind_eq_ok.mpr ⟨heap, hpop, ?_⟩
  dsimp only
  rw [hlast]
  dsimp only
  rw [hnext]
  rfl

theorem next_of_some {t : Tuple} (hnext : (s.partitions.getD top.partition [])[top.index + 1]? = some t)
    (hpush : std.pushHeap (heapLess less) (heap.dropLast ++ [⟨t, top.partition, top.index + 1⟩]) = .ok heap') :
    next std less s = .ok (some top.tuple, { s with heap := heap' }) := by
  rw [next, if_neg hready]
  refine bind_eq_ok.mpr ⟨heap, hpop, ?_⟩
  dsimp only
  rw [hlast]
  dsimp only
  rw [hnext]
  exact bind_eq_ok.mpr ⟨heap', hpush, rfl⟩

end next

section step
variable (hheap : HeapSpec std.makeHeap std.popHeap std.pushHeap) (hlt : WeakLess lt)
include hheap hlt

theorem Merging.next (h : Merging less lt s) :
    (s.heap = [] ∧ next std less s = .ok (none, s)) ∨
      ∃ top s', top ∈ s.heap ∧ (∀ e ∈ s.heap, ¬ lt e.tuple top.tuple) ∧
        next std less s = .ok (some top.tuple, s') ∧ Merging less lt s' := by
  have hentryLess : WeakLess (entryLess lt) := hlt.swap.on HeapEntry.tuple
  by_cases hnil : s.heap = []
  · left
    refine ⟨hnil, ?_⟩
    unfold MergeState.next
    rw [if_pos (Or.inr hnil)]
    rfl
  · right
    have hdecides := decides_entries h.decides h.entry
    obtain ⟨heap, hpop⟩ := (hheap.pop_failsBy (heapLess less) s.heap).ok hdecides
    have hperm := hheap.pop_perm _ _ _ hpop
    obtain ⟨hlast, hrest⟩ := hheap.pop_heap _ (entryLess lt) _ _ hentryLess.isStrictWeakOrder hdecides h.heap hpop
    obtain ⟨top, tail, hcons⟩ := List.exists_cons_of_ne_nil hnil
    have hhead : s.heap.head? = some top := by
      rw [hcons]
      rfl
    have htop : top ∈ s.heap := List.mem_of_head? hhead
    have hleast : ∀ e ∈ s.heap, ¬ lt e.tuple top.tuple := fun e he => h.heap.head_max hentryLess hhead he
    have hdropLast : ∀ e ∈ heap.dropLast, (s.partitions.getD e.partition [])[e.index]? = some e.tuple :=
      fun e he => h.entry e (hperm.subset (List.dropLast_subset _ he))
    have hnot : ¬ (s.heapReady = false ∨ s.heap = []) := by
      rw [h.ready]
      simp [hnil]
    refine ⟨top, ?_⟩
    cases hnext : (s.partitions.getD top.partition [])[top.index + 1]? with
    | none =>
      exact ⟨_, htop, hleast, next_of_none hnot hpop (hlast.trans hhead) hnext, h.ready, h.sorted, h.decides, hdropLast,
        hrest⟩
    | some t =>
      have hentries : ∀ e ∈ heap.dropLast ++ [⟨t, top.partition, top.index + 1⟩],
          (s.partitions.getD e.partition [])[e.index]? = some e.tuple := by
        intro e he
        rcases List.mem_append.mp he with he | he
        · exact hdropLast e he
        · rw [List.mem_singleton.mp he]
          exact hnext
      have hdecides' := decides_entries h.decides hentries
      obtain ⟨heap', hpush⟩ := (hheap.push_failsBy (heapLess less) _).ok hdecides'
      have hheap' := hheap.push_heap _ (entryLess lt) _ _ hentryLess.isStrictWeakOrder hdecides'
        (by rwa [List.dropLast_concat]) hpush
      have hsub := (hheap.push_perm _ _ _ hpush).subset
      exact ⟨{ s with heap := heap' }, htop, hleast, next_of_some hnot hpop (hlast.trans hhead) hnext hpush, h.ready,
        h.sorted, h.decides, fun e he => hentries e (hsub he), hheap'⟩

theorem Merging.exists_yields (h : Merging less lt s) : ∃ out, Yields (MergeState.next std less) s out := by
  refine MyDB.Lib.exists_yields (I := Merging less lt) bound (fun s hs => ?_) h
  rcases hs.next hheap hlt with ⟨-, hend⟩ | ⟨top, s', -, -, hnext, hs'⟩
  · exact Or.inl ⟨s, hend⟩
  · exact Or.inr ⟨top.tuple, s', hnext, hs', next_bound hheap hnext⟩

theorem Merging.yields_sorted (h : Merging less lt s) {out : List Tuple} (hout : Yields (MergeState.next std less) s out) :
    out.Pairwise fun a b => ¬ lt b a := by
  obtain ⟨s', hout⟩ := hout
  induction hout with
  | done => exact .nil
  | @more s s₁ s' a l hnext hl ih =>
    rcases h.next hheap hlt with ⟨-, hend⟩ | ⟨top, s₂, htop, hleast, hnext', hs₂⟩
    · cases hnext.symm.trans hend
    · cases hnext.symm.trans hnext'
      refine List.pairwise_cons.mpr ⟨fun t ht => ?_, ih hs₂⟩
      have hperm := yields_perm hheap h.ready ⟨s', .more hnext hl⟩
      obtain ⟨e, he, hte⟩ := List.mem_flatMap.mp (hperm.subset (List.mem_cons_of_mem _ ht))
      exact hlt.negTrans _ _ _ (h.pending_le hlt he hte) (hleast e he)

end step

/-! ## From the partitions on -/

theorem entry_of_mem_entries {partitions : List (List Tuple)} {e : HeapEntry} (he : e ∈ entries partitions 0) :
    (partitions.getD e.partition [])[e.index]? = some e.tuple := by
  unfold entries at he
  obtain ⟨⟨p, i⟩, hmem, he⟩ := List.mem_filterMap.mp he
  obtain ⟨t, ht, rfl⟩ := Option.map_eq_some_iff.mp he
  rw [List.mk_mem_zipIdx_iff_getElem?] at hmem
  rw [List.getD_eq_getElem?_getD, hmem, ← List.head?_eq_getElem?]
  exact ht

section merge
variable (hheap : HeapSpec std.makeHeap std.popHeap std.pushHeap) (hlt : WeakLess lt) {partitions : List (List Tuple)}
include hheap hlt

theorem merging_init (hless : Decides less lt partitions.flatten)
    (hsorted : ∀ p ∈ partitions, p.Pairwise fun a b => ¬ lt b a) :
    ∃ heap, std.makeHeap (heapLess less) (entries partitions 0) = .ok heap ∧ Merging less lt ⟨partitions, heap, true⟩ := by
  have hentry : ∀ e ∈ entries partitions 0, (partitions.getD e.partition [])[e.index]? = some e.tuple :=
    fun e he => entry_of_mem_entries he
  have hdecides : Decides (heapLess less) (entryLess lt) (entries partitions 0) :=
    decides_entries (s := ⟨partitions, [], true⟩) hless hentry
  have hentryLess : WeakLess (entryLess lt) := hlt.swap.on HeapEntry.tuple
  obtain ⟨heap, hmake⟩ := (hheap.make_failsBy (heapLess less) _).ok hdecides
  have hsub := (hheap.make_perm _ _ _ hmake).subset
  refine ⟨heap, hmake, rfl, hsorted, hless, fun e he => hentry e (hsub he), ?_⟩
  exact hheap.make_heap _ (entryLess lt) _ _ hentryLess.isStrictWeakOrder hdecides hmake

theorem merge_yields (hless : Decides less lt partitions.flatten)
    (hsorted : ∀ p ∈ partitions, p.Pairwise fun a b => ¬ lt b a) :
    ∃ heap out, std.makeHeap (heapLess less) (entries partitions 0) = .ok heap ∧
      Yields (next std less) ⟨partitions, heap, true⟩ out ∧ out.Perm partitions.flatten ∧
      out.Pairwise fun a b => ¬ lt b a := by
  obtain ⟨heap, hmake, hmerging⟩ := merging_init hheap hlt hless hsorted
  obtain ⟨out, hout⟩ := hmerging.exists_yields hheap hlt
  refine ⟨heap, out, hmake, hout, ?_, hmerging.yields_sorted hheap hlt hout⟩
  refine (yields_perm hheap rfl hout).trans (((hheap.make_perm _ _ _ hmake).flatMap_right _).trans ?_)
  rw [pending_entries (List.drop_zero ..)]

end merge

/-- For all partitions that are sorted by a strict weak order, the merge returns every
tuple of every partition once, in order, and then the end. Where the partitions are those
of an input, it returns what `std::sort` returns for it, up to tuples with equal keys. -/
theorem merge_sorted (hstd : Operator.Lawful std) (hlt : IsStrictWeakOrder Tuple lt) {partitions : List (List Tuple)}
    (hless : Decides less lt partitions.flatten) (hsorted : ∀ p ∈ partitions, p.Pairwise fun a b => ¬ lt b a) :
    ∃ heap out, std.makeHeap (heapLess less) (entries partitions 0) = .ok heap ∧
      Yields (next std less) ⟨partitions, heap, true⟩ out ∧ out.Perm partitions.flatten ∧
      (out.Pairwise fun a b => ¬ lt b a) ∧
      ∀ all, partitions.flatten.Perm all → out.Perm all ∧ ∃ sorted, std.sort less all = .ok sorted ∧
        List.Forall₂ (fun a b => ¬ lt a b ∧ ¬ lt b a) out sorted := by
  have hweak := WeakLess.of_strictWeakOrder hlt
  obtain ⟨heap, out, hmake, hout, hperm, hpair⟩ := merge_yields hstd.heap hweak hless hsorted
  refine ⟨heap, out, hmake, hout, hperm, hpair, fun all hall => ⟨hperm.trans hall, ?_⟩⟩
  have hdecides : Decides less lt all := fun a ha b hb => hless a (hall.symm.subset ha) b (hall.symm.subset hb)
  obtain ⟨sorted, hsort, hperm', hpair'⟩ := hstd.sort.sorted_of hweak hdecides
  exact ⟨sorted, hsort, hweak.forall₂_of_perm (hperm.trans (hall.trans hperm'.symm)) hpair hpair'⟩

theorem merge_sorted_three :
    let less : Tuple → Tuple → Except Fault Bool := fun a b => .ok (decide (a < b))
    let partitions : List (List Tuple) := [[[1], [3]], [], [[2], [2]]]
    ∃ heap out, Operator.insertionStd.makeHeap (heapLess less) (entries partitions 0) = .ok heap ∧
      Yields (next Operator.insertionStd less) ⟨partitions, heap, true⟩ out ∧ out.Perm partitions.flatten ∧
      out.Pairwise fun a b => ¬ b < a := by
  intro less partitions
  have hlt : WeakLess fun a b : Tuple => a < b := WeakLess.of_key id
  have hless : Decides less (fun a b => a < b) partitions.flatten := fun _ _ _ _ => rfl
  obtain ⟨heap, out, hmake, hout, hperm, hpair, -⟩ :=
    merge_sorted Operator.lawful_insertionStd hlt.isStrictWeakOrder hless (by decide)
  exact ⟨heap, out, hmake, hout, hperm, hpair⟩

end MyDB.Executor.MergeState

namespace MyDB.Executor.Operator
open MyDB.Lib MyDB.Parser MergeState
variable {σ : Type} {env : Env σ} {s s' : σ} {child : Operator} {orderBy : List OrderByItem} {all : List Tuple} {n : Nat}

theorem sortPartition_ok (hstd : Lawful env.std) (hsort : Sortable child.outputSchema orderBy all) (hsize : 0 < all.length)
    (hn : 0 < n) (hsplit : (workers n all.length - 1) * chunk n all.length ≤ all.length) {i : Nat}
    (hi : i < workers n all.length) :
    ∃ p, sortPartition env.std (tupleLess child.outputSchema orderBy) all (chunk n all.length) i = .ok p ∧
      p.Pairwise fun a b => ¬ rowLess child.outputSchema orderBy b a := by
  obtain ⟨hle, -⟩ := ((slices_iff hsize hn).mpr hsplit).1 i hi
  have hslice : Sortable child.outputSchema orderBy (slice all (sliceOf n all.length i).1
      ((sliceOf n all.length i).2 - (sliceOf n all.length i).1)) := by
    intro item hitem
    obtain ⟨type, htype⟩ := hsort item hitem
    exact ⟨type, fun t ht => htype t (List.mem_of_mem_drop (List.mem_of_mem_take ht))⟩
  obtain ⟨p, hp, -, hpair⟩ := sort_rows hstd hslice
  refine ⟨p, ?_, hpair⟩
  rw [sortPartition_eq, if_neg (Nat.not_lt.mpr hle), hp]
  rfl

/-- A `ParallelSort` whose slices split the input returns the tuples of its child in order,
as `Sort` does up to tuples with equal keys. -/
theorem evaluates_parallelSort_rows (hstd : Lawful env.std) (hchild : child.Evaluates env s all s')
    (hsort : Sortable child.outputSchema orderBy all) (hn : 0 < n)
    (hsplit : (workers n all.length - 1) * chunk n all.length ≤ all.length) :
    ∃ rows sorted, (Operator.parallelSort child orderBy n).Evaluates env s rows s' ∧
      (Operator.sort child orderBy).Evaluates env s sorted s' ∧ rows.Perm all ∧
      (rows.Pairwise fun a b => ¬ rowLess child.outputSchema orderBy b a) ∧
      List.Forall₂ (fun a b => ¬ rowLess child.outputSchema orderBy a b ∧ ¬ rowLess child.outputSchema orderBy b a)
        rows sorted := by
  have hlt := weakLess_row child.outputSchema orderBy
  obtain ⟨sorted, hsorted, hperm, hpair⟩ := sort_rows hstd hsort
  have hserial : (Operator.sort child orderBy).Evaluates env s sorted s' :=
    (evaluates_sort_iff hstd).mpr ⟨all, hchild, hsorted⟩
  by_cases hnil : all = []
  · subst hnil
    rw [hperm.eq_nil] at hserial
    have hinit : MergeState.init env.std (tupleLess child.outputSchema orderBy) n [] = .ok ⟨[], [], false⟩ := rfl
    have hend : Yields (MergeState.next env.std (tupleLess child.outputSchema orderBy)) ⟨[], [], false⟩ [] := ⟨_, .done rfl⟩
    exact ⟨[], [], (evaluates_parallelSort_iff hstd).mpr ⟨[], _, hchild, hinit, hend⟩, hserial, .rfl, .nil, .nil⟩
  · have hsize : 0 < all.length := List.length_pos_iff.mpr hnil
    have hw : 0 < workers n all.length := lt_min hn hsize
    have hworker {i : Nat} (hi : i ∈ List.range (workers n all.length)) :=
      sortPartition_ok hstd hsort hsize hn hsplit (List.mem_range.mp hi)
    obtain ⟨partitions, hparts⟩ := exists_mapM fun i hi => (hworker hi).imp fun p hp => hp.1
    have hflatten := flatten_partitions_perm hstd.sort hw hparts
    have hdecides : Decides (tupleLess child.outputSchema orderBy) (rowLess child.outputSchema orderBy) partitions.flatten :=
      fun a ha b hb => tupleLess_eq hsort (hflatten.subset ha) (hflatten.subset hb)
    have hpartitions : ∀ p ∈ partitions, p.Pairwise fun a b => ¬ rowLess child.outputSchema orderBy b a := by
      intro p hp
      obtain ⟨i, hi, hip⟩ := mem_of_mapM hparts hp
      obtain ⟨q, hq, hqpair⟩ := hworker hi
      cases hip.symm.trans hq
      exact hqpair
    obtain ⟨heap, rows, hmake, hrows, hrowsPerm, hrowsPair⟩ := merge_yields hstd.heap hlt hdecides hpartitions
    have hinit : MergeState.init env.std (tupleLess child.outputSchema orderBy) n all = .ok ⟨partitions, heap, true⟩ := by
      rw [MergeState.init, if_neg hnil]
      dsimp only
      rw [if_neg (show min n all.length ≠ 0 from hw.ne')]
      exact bind_eq_ok.mpr ⟨partitions, hparts, bind_eq_ok.mpr ⟨heap, hmake, rfl⟩⟩
    have hall := hrowsPerm.trans hflatten
    exact ⟨rows, sorted, (evaluates_parallelSort_iff hstd).mpr ⟨all, _, hchild, hinit, hrows⟩, hserial, hall, hrowsPair,
      hlt.forall₂_of_perm (hall.trans hperm.symm) hrowsPair hpair⟩

end MyDB.Executor.Operator

import MyDB.Storage.BPlusTreeMap

/-! The shape of the index: after any run of insertions that return, the pages
reachable from the root are a valid B+ tree. -/

namespace MyDB.Storage
open Lib PageTree BPlusTree

variable {d : Nat} {index : BPlusTree} {m : PageMap TreePage}

/-- Keys rise in every leaf and separators in every internal page, and the keys
below `data[i].child` lie in `[data[i].key, data[i + 1].key)`. -/
def PageTree.Sorted : {d : Nat} → PageTree d → Prop
  | 0, lf => ((LeafNode.entries lf).map (·.key)).Pairwise (· < ·)
  | d + 1, nd =>
    (((InnerNode.data nd).drop 1).map (·.key)).Pairwise (· < ·) ∧
    (∀ (i : Nat) (c : PageTree d), (InnerNode.row nd).items[i]? = some c → ∀ b ∈ c.entries,
      (∀ x, 0 < i → (InnerNode.data nd)[i]? = some x → x.key ≤ b.key) ∧
      ∀ x, (InnerNode.data nd)[i + 1]? = some x → b.key < x.key) ∧
    ∀ c ∈ (InnerNode.row nd).items, Sorted (d := d) c

/-- The pages met from `pid` on by following `next_page_id`. -/
def leafChain (c : PageId → TreePage) : Nat → PageId → List PageId
  | 0, _ => []
  | fuel + 1, pid =>
    if pid = invalidPageId then []
    else match c pid with
      | .leaf _ next => pid :: leafChain c fuel next
      | .internal _ => [pid]

/-- The tree in the pages `c` is a valid B+ tree. That all its leaves have the
depth `d` is in its type. -/
structure ValidTree (index : BPlusTree) (c : PageId → TreePage) (tr : PageTree d) : Prop where
  root_eq : index.rootPageId = tr.pid
  held : tr.In c
  pages_once : tr.pages.Nodup
  sorted : tr.Sorted
  occupied : tr.Occupied index 1 2
  chain : ∀ fuel, tr.leaves.length < fuel →
    leafChain c fuel (firstPid invalidPageId tr.leaves) = tr.leaves.map (·.pid)

/-! ## Order from left to right gives the order in every page -/

theorem pairs_ranges {r : SepList Int (PageTree d)} (h : (marksOf r).Pairwise (· < ·)) (k₀ : Int)
    {i : Nat} {c : PageTree d} (hc : r.items[i]? = some c) {b : LeafEntry} (hb : b ∈ c.entries) :
    (∀ x, 0 < i → (r.pairs k₀)[i]? = some x → x.1 ≤ b.key) ∧
      ∀ x, (r.pairs k₀)[i + 1]? = some x → b.key < x.1 := by
  induction r generalizing k₀ i with
  | one a =>
    refine ⟨fun x hi hx => ?_, fun x hx => ?_⟩
    · rw [SepList.pairs, List.getElem?_eq_none (by simp; omega)] at hx
      cases hx
    · rw [SepList.pairs, List.getElem?_eq_none (by simp)] at hx
      cases hx
  | cons a s r ih =>
    simp only [marksOf, SepList.flat] at h
    obtain ⟨-, hrest, hcross⟩ := List.pairwise_append.mp h
    obtain ⟨hs, hr⟩ := List.pairwise_cons.mp hrest
    obtain ⟨rest, hpairs⟩ := r.pairs_head
    cases i with
    | zero =>
      obtain rfl : a = c := Option.some.inj hc
      refine ⟨fun x hi => absurd hi (lt_irrefl _), fun x hx => ?_⟩
      rw [SepList.pairs, hpairs] at hx
      obtain rfl : (s, r.head) = x := Option.some.inj hx
      have := hcross _ (mark_of_mem_entries hb) _ List.mem_cons_self
      change b.key < s
      omega
    | succ i =>
      rw [SepList.items_cons, List.getElem?_cons_succ] at hc
      obtain ⟨h1, h2⟩ := ih hr s hc
      refine ⟨fun x _ hx => ?_, h2⟩
      rw [SepList.pairs, List.getElem?_cons_succ] at hx
      rcases Nat.eq_zero_or_pos i with rfl | hi
      · rw [hpairs] at hx
        obtain rfl : (s, r.head) = x := Option.some.inj hx
        have hmem : 2 * b.key + 1 ∈ marksOf r := SepList.mem_flat.mpr
          (Or.inl ⟨c, List.mem_of_getElem? hc, mark_of_mem_entries hb⟩)
        have := hs _ hmem
        change s ≤ b.key
        omega
      · exact h1 x hi hx

theorem seps_pairwise {r : SepList Int (PageTree d)} (h : (marksOf r).Pairwise (· < ·)) :
    r.seps.Pairwise (· < ·) := by
  induction r with
  | one a => exact List.Pairwise.nil
  | cons a s r ih =>
    simp only [marksOf, SepList.flat] at h
    obtain ⟨-, hrest, -⟩ := List.pairwise_append.mp h
    obtain ⟨hs, hr⟩ := List.pairwise_cons.mp hrest
    refine List.pairwise_cons.mpr ⟨fun s' hs' => ?_, ih hr⟩
    have := hs _ (SepList.mem_flat.mpr (Or.inr ⟨s', hs', List.mem_singleton_self _⟩))
    omega

theorem PageTree.Ordered.sorted {tr : PageTree d} (h : tr.Ordered) : tr.Sorted := by
  revert h
  refine PageTree.induction (motive := fun tr => tr.Ordered → tr.Sorted) ?leaf ?inner tr
  case leaf => exact fun lf h => LeafNode.keys_sorted h
  case inner =>
    intro d nd ih h
    have hget (i : Nat) (x : InternalEntry) (hx : nd.data[i]? = some x) :
        ∃ y, (nd.row.pairs 0)[i]? = some y ∧ x.key = y.1 := by
      rw [InnerNode.data, List.getElem?_map] at hx
      obtain ⟨y, hy, rfl⟩ := Option.map_eq_some_iff.mp hx
      exact ⟨y, hy, rfl⟩
    refine ⟨?_, fun i c hc b hb => ?_, fun c hc => ih c hc (ordered_child h hc)⟩
    · have hkeys : (nd.data.drop 1).map (·.key) = nd.row.seps := by
        rw [InnerNode.data, List.map_drop, List.map_map]
        exact congrArg (List.drop 1) (SepList.pairs_fst 0 nd.row)
      rw [hkeys]
      exact seps_pairwise h
    · obtain ⟨h1, h2⟩ := pairs_ranges h 0 hc hb
      refine ⟨fun x hi hx => ?_, fun x hx => ?_⟩
      · obtain ⟨y, hy, hk⟩ := hget _ _ hx
        exact hk ▸ h1 y hi hy
      · obtain ⟨y, hy, hk⟩ := hget _ _ hx
        exact hk ▸ h2 y hy

/-! ## The chain of the leaves -/

theorem in_leaves {c : PageId → TreePage} {tr : PageTree d} (h : tr.In c) :
    ∀ lf ∈ tr.leaves, c lf.pid = .leaf lf.entries lf.next := by
  revert h
  refine PageTree.induction (motive := fun tr => tr.In c →
    ∀ lf ∈ tr.leaves, c lf.pid = .leaf lf.entries lf.next) ?leaf ?inner tr
  case leaf =>
    intro lf h lf' hlf
    obtain rfl := List.mem_singleton.mp hlf
    exact h
  case inner =>
    intro d nd ih h lf hlf
    rcases SepList.mem_flat.mp hlf with ⟨x, hx, hlf⟩ | ⟨s, -, hs⟩
    · exact ih x hx ((in_succ.mp h).2 x hx) lf hlf
    · cases hs

theorem leafChain_of_linked {c : PageId → TreePage} {ls : List LeafNode}
    (hin : ∀ lf ∈ ls, c lf.pid = .leaf lf.entries lf.next) (hne : ∀ lf ∈ ls, lf.pid ≠ invalidPageId)
    (h : Linked invalidPageId ls) {fuel : Nat} (hfuel : ls.length < fuel) :
    leafChain c fuel (firstPid invalidPageId ls) = ls.map (·.pid) := by
  induction ls generalizing fuel with
  | nil =>
    obtain ⟨fuel, rfl⟩ := Nat.exists_eq_succ_of_ne_zero hfuel.ne'
    rfl
  | cons lf ls ih =>
    obtain ⟨fuel, rfl⟩ := Nat.exists_eq_succ_of_ne_zero (Nat.zero_lt_of_lt hfuel).ne'
    obtain ⟨hin₀, hin'⟩ := List.forall_mem_cons.mp hin
    obtain ⟨hne₀, hne'⟩ := List.forall_mem_cons.mp hne
    rw [firstPid, leafChain, if_neg hne₀, hin₀, h.1]
    exact congrArg (lf.pid :: ·) (ih hin' hne' h.2 (Nat.lt_of_succ_lt_succ hfuel))

theorem leaf_pid_mem {tr : PageTree d} : ∀ lf ∈ tr.leaves, lf.pid ∈ tr.pages := by
  refine PageTree.induction (motive := fun tr => ∀ lf ∈ tr.leaves, lf.pid ∈ tr.pages) ?leaf ?inner tr
  case leaf =>
    intro lf lf' hlf
    obtain rfl := List.mem_singleton.mp hlf
    exact List.mem_singleton_self _
  case inner =>
    intro d nd ih lf hlf
    rcases SepList.mem_flat.mp hlf with ⟨x, hx, hlf⟩ | ⟨s, -, hs⟩
    · exact List.mem_cons_of_mem _ (pages_child_subset hx (ih x hx lf hlf))
    · cases hs

theorem validTree_of_stored {tr : PageTree d} (hr : Rooted index m tr) (hsh : Shaped index tr) :
    ValidTree index m.contents tr where
  root_eq := hr.root_eq
  held := hr.stored.held
  pages_once := hr.stored.nodup
  sorted := hr.stored.ordered.sorted
  occupied := hsh.occupied
  chain := by
    intro fuel hfuel
    refine leafChain_of_linked (in_leaves hr.stored.held) (fun lf hlf e => ?_) hsh.linked hfuel
    have h0 := (hr.stored.allocated _ (leaf_pid_mem lf hlf)).1
    rw [e] at h0
    exact absurd h0 (by decide)

theorem insertedEntries_ne_nil (op : Int × RID) (ops : List (Int × RID)) (es : List LeafEntry) :
    insertedEntries (op :: ops) es ≠ [] := by
  induction ops generalizing op es with
  | nil =>
    change Lib.upsert (·.key) (⟨op.1, op.2⟩ : LeafEntry) es ≠ []
    cases es with
    | nil => exact List.cons_ne_nil _ _
    | cons b es =>
      rw [Lib.upsert]
      split_ifs <;> exact List.cons_ne_nil _ _
  | cons op' ops ih => exact ih op' _

/-- Every run of insertions that return leaves a valid tree; only the empty run leaves no root. -/
theorem insertAll_valid {n : Nat} {s s' : BufferPool TreePage n} (hs : Holds s m)
    (hroot : index.rootPageId = invalidPageId) {ops : List (Int × RID)} {index' : BPlusTree}
    (hrun : insertAll BufferPool.store index ops s = .ok index' s') :
    (ops = [] ∧ index'.rootPageId = invalidPageId) ∨
      ∃ (d : Nat) (tr : PageTree d), ValidTree index' s'.contents tr := by
  obtain ⟨m', hm, hs'⟩ := insertAll_pool hs hroot hrun
  obtain ⟨-, -, hidx⟩ := insertAll_indexes hs.wf (.empty hroot) hm
  have hcontents : m'.contents = s'.contents := funext hs'.contents_eq
  rw [← hcontents]
  generalize hes : insertedEntries ops [] = es at hidx
  cases hidx with
  | empty hroot' =>
    refine Or.inl ⟨?_, hroot'⟩
    cases ops with
    | nil => rfl
    | cons op ops => exact absurd hes (insertedEntries_ne_nil op ops [])
  | tree tr hr hsh => exact Or.inr ⟨_, tr, validTree_of_stored hr hsh⟩

theorem insertAll_valid_smallNodes :
    ∃ index' s', insertAll BufferPool.store ⟨invalidPageId, 2, 3, le_rfl, le_rfl⟩
        [(5, ⟨0, 0⟩), (3, ⟨0, 1⟩), (9, ⟨0, 2⟩)]
        (BufferPool.init 2 ⟨0, fun _ => 0⟩ : BufferPool TreePage 2) = .ok index' s' ∧
      ∃ (d : Nat) (tr : PageTree d), ValidTree index' s'.contents tr := by
  have hindex : (⟨invalidPageId, 2, 3, le_rfl, le_rfl⟩ : BPlusTree).rootPageId = invalidPageId := rfl
  obtain ⟨index', s', hrun⟩ := insertAll_pool_returns (n := 2) (holds_init ⟨0, fun _ => 0⟩)
    (by decide) hindex (by decide) (by decide) [(5, ⟨0, 0⟩), (3, ⟨0, 1⟩), (9, ⟨0, 2⟩)]
  refine ⟨index', s', hrun, ?_⟩
  exact (insertAll_valid (holds_init _) rfl hrun).resolve_left fun h => List.cons_ne_nil _ _ h.1

end MyDB.Storage

import MyDB.Storage.BPlusTreeShape

/-! Whether `InsertEntry` stays inside the page at the default sizes. Leaves
split when they reach the maximum, internal pages when they exceed it, so an
internal page of 510 entries is full before it splits. -/

namespace MyDB.Storage
open Lib PageTree BPlusTree

variable {d : Nat} {index : BPlusTree} {fr : Frames} {e : LeafEntry} {m : PageMap TreePage}

/-- The maxima that the constructor takes when it is given none. -/
structure DefaultSizes (index : BPlusTree) : Prop where
  leaf : index.leafMaxSize = leafCapacity
  inner : index.internalMaxSize = internalCapacity

/-- The root is a full internal page, the leaf for `key` takes its last entry
without splitting, and the pool has the frames to split it. -/
def Overfull (index : BPlusTree) (c : PageId → TreePage) (pins : PageId → Nat) (free : Nat)
    (key : Int) : Prop :=
  index.rootPageId ≠ invalidPageId ∧
  ∃ data entries next, c index.rootPageId = .internal data ∧ data.length = internalCapacity ∧
    c (BPlusTreeInternalPage.lookup data key) = .leaf entries next ∧
    entries.length + 1 = leafCapacity ∧ (∀ b ∈ entries, b.key ≠ key) ∧
    (if pins (BPlusTreeInternalPage.lookup data key) = 0 then 2 else 1) ≤ free

/-! ## One call -/

theorem insert_full_iff {nd : InnerNode (PageTree 0)} (hsz : DefaultSizes index) {np : Nat}
    (ho : Ordered (d := 1) nd) (hocc : Occupied index 1 2 (d := 1) nd) {lf : LeafNode}
    (hlf : nd.row.child e.key = lf) :
    PageTree.insert index fr e (d := 1) nd np = .error .full ↔
      nd.row.size = internalCapacity ∧ lf.entries.length + 1 = leafCapacity ∧ ¬ lf.Has e.key ∧
        fr.need lf.pid ≤ fr.free := by
  obtain ⟨-, hsize, hfill⟩ := occupied_succ.mp hocc
  have hmem : lf ∈ nd.row.items := hlf ▸ SepList.child_mem e.key nd.row
  have hlen : lf.entries.length < index.leafMaxSize := (occupied_zero.mp (hfill _ hmem)).2
  have hkeys := LeafNode.keys_sorted (ordered_child ho hmem)
  have hleafMax := hsz.leaf
  have hinnerMax := hsz.inner
  rw [insert_succ, hlf]
  change (if ¬ fr.Fetchable nd.pid then .error .noFrame
    else lf.insert index fr e np >>= nd.absorb index fr e.key) = .error .full ↔ _
  constructor
  · intro h
    split_ifs at h with hf
    · cases hy : lf.insert index fr e np with
      | error stop =>
        rw [hy] at h
        cases h
        exact absurd hy (LeafNode.insert_ne_full hsz.leaf.le (hfill _ hmem))
      | ok r =>
        obtain ⟨y, np₁⟩ := r
        rw [hy] at h
        change nd.absorb index fr e.key (y, np₁) = .error .full at h
        rcases LeafNode.insert_ok hy with ⟨rfl, -, -⟩ | ⟨rfl, -, hhas, hfull, hneed⟩
        · cases h
        · rw [LeafNode.length_upsert_of_not_has hhas hkeys] at hfull
          have hcap : internalCapacity ≤ nd.row.size := by
            by_contra hcap
            rw [LeafNode.split, InnerNode.absorb, if_neg hcap] at h
            split_ifs at h
            cases h
          exact ⟨by omega, by omega, hhas, hneed⟩
    · cases h
  · rintro ⟨hroot, hleaf, hhas, hneed⟩
    have hfree : fr.Fetchable nd.pid := Frames.fetchable_of_need hneed
    have hsplit : ¬ (lf.upsert e).entries.length < index.leafMaxSize := by
      rw [LeafNode.length_upsert_of_not_has hhas hkeys]
      omega
    have hy : lf.insert index fr e np = .ok ((lf.upsert e).split np, np + 1) := by
      rw [LeafNode.insert, if_neg (not_not.mpr (Frames.fetchable_of_need hneed)), if_neg hhas,
        if_neg (by omega : ¬ leafCapacity ≤ _), if_neg hsplit, if_neg (not_lt.mpr hneed)]
    rw [if_neg (not_not.mpr hfree), hy]
    change nd.absorb index fr e.key ((lf.upsert e).split np, np + 1) = .error .full
    rw [LeafNode.split, InnerNode.absorb, if_pos hroot.ge]

theorem insert_inner_one {nd : InnerNode (PageTree d)} (hsz : DefaultSizes index) {np np' : Nat}
    {x : SepList Int (PageTree (d + 1))}
    (h : PageTree.insert index fr e (d := d + 1) nd np = .ok (x, np')) : ∃ tr, x = .one tr := by
  obtain ⟨y, np₁, hy, hx⟩ := insert_succ_ok h
  rcases InnerNode.absorb_ok hx with ⟨rfl, -, -⟩ | ⟨rfl, -, hroom, -⟩
  · exact ⟨_, rfl⟩
  · obtain ⟨-, ⟨c, rfl⟩ | ⟨l, s, r, rfl, -⟩⟩ := insert_shape hy
    · cases hx
    · exfalso
      have hsize : (nd.replace e.key (.cons l s (.one r))).row.size + 1 = nd.row.size + 2 :=
        SepList.size_replace e.key (.cons l s (.one r)) nd.row
      have := hsz.inner
      rw [InnerNode.absorb, if_pos (by omega : internalCapacity ≤ nd.row.size)] at hx
      cases hx

/-! ## Runs -/

def Shallow (index : BPlusTree) (m : PageMap TreePage) : Prop :=
  index.rootPageId = invalidPageId ∨
    (∃ lf : LeafNode, Rooted (d := 0) index m lf ∧ Shaped (d := 0) index lf) ∨
    ∃ nd : InnerNode (PageTree 0), Rooted (d := 1) index m nd ∧ Shaped (d := 1) index nd

theorem insert_shallow {key : Int} {rid : RID} (hwf : m.WF) (hsz : DefaultSizes index)
    (h : Shallow index m) {index' : BPlusTree} {m' : PageMap TreePage}
    (hrun : BPlusTree.insert PageMap.store index key rid m = .ok index' m') : Shallow index' m' := by
  rcases h with hroot | ⟨lf, hr, hsh⟩ | ⟨nd, hr, hsh⟩
  · obtain ⟨rfl, rfl⟩ := insert_empty_ok hwf hroot hrun
    exact Or.inr (Or.inl ⟨_, rooted_first rfl, shaped_first⟩)
  · obtain ⟨x, np', hins, rfl, -, hs⟩ := insert_tree_ok hwf hr hrun
    have hsh' := (shaped_grown hr.stored hsh hins).reroot (grown np' x).2.pid
    obtain ⟨-, ⟨tr, rfl⟩ | ⟨l, s, r, rfl, -⟩⟩ := insert_shape hins
    · exact Or.inr (Or.inl ⟨tr, ⟨rfl, hs⟩, hsh'⟩)
    · exact Or.inr (Or.inr ⟨_, ⟨rfl, hs⟩, hsh'⟩)
  · obtain ⟨x, np', hins, rfl, -, hs⟩ := insert_tree_ok hwf hr hrun
    have hsh' := (shaped_grown hr.stored hsh hins).reroot (grown np' x).2.pid
    obtain ⟨tr, rfl⟩ := insert_inner_one hsz hins
    exact Or.inr (Or.inr ⟨tr, ⟨rfl, hs⟩, hsh'⟩)

theorem insert_outOfBounds_iff {key : Int} {rid : RID} (hwf : m.WF) (hsz : DefaultSizes index)
    (h : Shallow index m) :
    (∃ m', BPlusTree.insert PageMap.store index key rid m = .error .outOfBounds m') ↔
      Overfull index m.contents m.pins m.free key := by
  rcases h with hroot | ⟨lf, hr, hsh⟩ | ⟨nd, hr, hsh⟩
  · refine ⟨?_, fun h => absurd hroot h.1⟩
    rintro ⟨m', hrun⟩
    by_cases hfree : m.free = 0
    · rw [insert_first_none hroot hfree] at hrun
      cases hrun
    · rw [insert_first hwf hroot hfree] at hrun
      cases hrun
  · rw [insert_outOfBounds_iff_full hwf hr]
    refine ⟨fun h => absurd h (LeafNode.insert_ne_full hsz.leaf.le hsh.occupied), ?_⟩
    rintro ⟨-, data, entries, next, hpage, -⟩
    rw [hr.root_eq] at hpage
    cases hpage.symm.trans hr.stored.held
  · have hchild := hr.stored.child (SepList.child_mem key nd.row)
    have hpage : m.contents index.rootPageId = .internal nd.data := by
      rw [hr.root_eq]
      exact (in_succ.mp hr.stored.held).1
    have hlook := InnerNode.lookup_eq key hr.stored.ordered
    rw [insert_outOfBounds_iff_full hwf hr,
      insert_full_iff hsz hr.stored.ordered hsh.occupied rfl]
    constructor
    · rintro ⟨h1, h2, h3, h4⟩
      refine ⟨hr.root_ne, nd.data, _, (nd.row.child key).next, hpage, nd.length_data.trans h1, ?_, h2,
        ?_, ?_⟩
      · rw [hlook]
        exact hchild.held
      · exact fun b hb hk => h3 ⟨b, hb, hk⟩
      · rw [hlook]
        exact h4
    · rintro ⟨-, data, entries, next, hdata, h1, hleaf, h2, h3, h4⟩
      obtain rfl : nd.data = data := TreePage.internal.inj (hpage.symm.trans hdata)
      rw [hlook] at hleaf h4
      obtain ⟨rfl, -⟩ := TreePage.leaf.inj (hleaf.symm.trans hchild.held)
      exact ⟨nd.length_data.symm.trans h1, h2, fun ⟨b, hb, hk⟩ => h3 b hb hk, h4⟩

theorem Shallow.indexes (h : Shallow index m) : ∃ es, Indexes index m es := by
  rcases h with hroot | ⟨lf, hr, hsh⟩ | ⟨nd, hr, hsh⟩
  · exact ⟨_, .empty hroot⟩
  · exact ⟨_, .tree _ hr hsh⟩
  · exact ⟨_, .tree _ hr hsh⟩

/-- The state of index and pool before some call of the run is overfull for its key. -/
def ReachesOverfull {n : Nat} (index : BPlusTree) (s : BufferPool TreePage n) (ops : List (Int × RID)) :
    Prop :=
  ∃ ops₁ op ops₂ index' s', ops = ops₁ ++ op :: ops₂ ∧
    insertAll BufferPool.store index ops₁ s = .ok index' s' ∧
    Overfull index' s'.contents s'.pins s'.unpinned op.1

theorem insertAll_outOfBounds_iff {n : Nat} {s : BufferPool TreePage n} (hs : Holds s m)
    (hsz : DefaultSizes index) (h : Shallow index m) (ops : List (Int × RID)) :
    (∃ s', insertAll BufferPool.store index ops s = .error .outOfBounds s') ↔
      ReachesOverfull index s ops := by
  induction ops generalizing index s m with
  | nil =>
    constructor
    · rintro ⟨s', h⟩
      cases h
    · rintro ⟨ops₁, op, ops₂, -, -, h, -⟩
      cases ops₁ <;> cases h
  | cons op ops ih =>
    obtain ⟨es, hidx⟩ := h.indexes
    obtain ⟨t, htree⟩ := hidx.holdsTree
    obtain ⟨hok, herr⟩ := insert_pool op.1 op.2 hs htree
    have hover : Overfull index s.contents s.pins s.unpinned op.1 ↔
        ∃ m', BPlusTree.insert PageMap.store index op.1 op.2 m = .error .outOfBounds m' := by
      rw [insert_outOfBounds_iff hs.wf hsz h, funext hs.contents_eq, funext hs.pins_eq, hs.free_eq]
    cases hstep : BPlusTree.insert BufferPool.store index op.1 op.2 s with
    | error e s₁ =>
      obtain ⟨m₁, hm, -⟩ := herr e s₁ hstep
      rw [insertAll, bind_error hstep]
      constructor
      · rintro ⟨s', h⟩
        cases h
        exact ⟨[], op, ops, index, s, rfl, rfl, hover.mpr ⟨m₁, hm⟩⟩
      · rintro ⟨ops₁, op', ops₂, index', s', heq, hrun, hfull⟩
        cases ops₁ with
        | nil =>
          cases heq
          cases hrun
          obtain ⟨m', hm'⟩ := hover.mp hfull
          rw [hm] at hm'
          cases hm'
          exact ⟨s₁, rfl⟩
        | cons op₁ ops₁ =>
          cases heq
          rw [insertAll, bind_error hstep] at hrun
          cases hrun
    | ok index₁ s₁ =>
      obtain ⟨m₁, hm, hs₁⟩ := hok index₁ s₁ hstep
      obtain ⟨-, ⟨pid, rfl⟩, -⟩ := insert_indexes hs.wf hidx hm
      have hsz₁ : DefaultSizes { index with rootPageId := pid } := ⟨hsz.leaf, hsz.inner⟩
      have hih := ih hs₁ hsz₁ (insert_shallow hs.wf hsz h hm)
      rw [insertAll, bind_ok hstep, hih]
      constructor
      · rintro ⟨ops₁, op', ops₂, index', s', rfl, hrun, hfull⟩
        exact ⟨op :: ops₁, op', ops₂, index', s', rfl, by rw [insertAll, bind_ok hstep, hrun], hfull⟩
      · rintro ⟨ops₁, op', ops₂, index', s', heq, hrun, hfull⟩
        cases ops₁ with
        | nil =>
          cases heq
          cases hrun
          obtain ⟨m', hm'⟩ := hover.mp hfull
          rw [hm] at hm'
          cases hm'
        | cons op₁ ops₁ =>
          cases heq
          rw [insertAll, bind_ok hstep] at hrun
          exact ⟨ops₁, op', ops₂, index', s', rfl, hrun, hfull⟩

/-! ## Ascending keys

Every leaf but the last keeps the 170 entries of its split, so `InsertEntry` is
called on the full root after 340 + 508 * 170 + 169 keys. -/

def ascending (i : Nat) : List (Int × RID) := (List.range i).map fun k : Nat => ((k : Int), ⟨0, 0⟩)

theorem ascending_succ (i : Nat) : ascending (i + 1) = ascending i ++ [((i : Int), ⟨0, 0⟩)] := by
  rw [ascending, List.range_succ, List.map_append]
  rfl

theorem insertAll_append {σ P : Type} (bpm : PageStore σ TreePage P) {t t' : BPlusTree}
    {ops : List (Int × RID)} (op : Int × RID) {s s' : σ} (h : insertAll bpm t ops s = .ok t' s') :
    insertAll bpm t (ops ++ [op]) s = (BPlusTree.insert bpm t' op.1 op.2 >>= pure) s' := by
  induction ops generalizing t s with
  | nil =>
    cases h
    rfl
  | cons op₁ ops ih =>
    rw [insertAll] at h
    rw [List.cons_append, insertAll]
    cases hstep : BPlusTree.insert bpm t op₁.1 op₁.2 s with
    | error e s₁ =>
      rw [bind_error hstep] at h
      cases h
    | ok t₁ s₁ =>
      rw [bind_ok hstep] at h ⊢
      exact ih h

def Below (i : Nat) (tr : PageTree d) : Prop := ∀ y ∈ tr.marks, y < 2 * (i : Int)

theorem below_grown {i np np' : Nat} {tr : PageTree d} {x : SepList Int (PageTree d)} {rid : RID}
    (h : Below i tr) (ho : tr.Ordered) (hins : tr.insert index fr ⟨i, rid⟩ np = .ok (x, np')) :
    Below (i + 1) (grown np' x).2 := by
  intro y hy
  rw [marks_grown] at hy
  obtain ⟨-, z, hz, hyz⟩ := (insert_ordered hins ho).2 y hy
  rcases List.mem_cons.mp hz with rfl | hz
  · push_cast
    change y ≤ 2 * (i : Int) + 1 at hyz
    omega
  · have := h z hz
    push_cast
    omega

theorem Below.not_has {i : Nat} {lf : LeafNode} (h : Below (d := 0) i lf) : ¬ lf.Has i := by
  rintro ⟨b, hb, hk⟩
  have := h _ (List.mem_map_of_mem hb)
  omega

theorem Below.seps_le {i : Nat} {nd : InnerNode (PageTree d)} (h : Below (d := d + 1) i nd) :
    ∀ s ∈ nd.row.seps, s ≤ (i : Int) := by
  intro s hs
  have := h _ (SepList.mem_flat.mpr (Or.inr ⟨s, hs, List.mem_singleton_self _⟩))
  omega

theorem leaf_ascending {i np np' : Nat} {rid : RID} {lf : LeafNode} {x : SepList Int LeafNode}
    (hsz : DefaultSizes index) (hb : Below (d := 0) i lf) (ho : Ordered (d := 0) lf)
    (hins : lf.insert index fr ⟨i, rid⟩ np = .ok (x, np')) :
    (lf.entries.length < 339 → x.size = 1 ∧ x.last.entries.length = lf.entries.length + 1) ∧
      (lf.entries.length = 339 → x.size = 2 ∧ x.last.entries.length = 170) := by
  have hmax : index.leafMaxSize = 340 := hsz.leaf
  have hlen := LeafNode.length_upsert_of_not_has (e := ⟨i, rid⟩) hb.not_has (LeafNode.keys_sorted ho)
  rcases LeafNode.insert_ok hins with ⟨rfl, -, hroom⟩ | ⟨rfl, -, -, hfull, -⟩
  · have := hroom.resolve_left hb.not_has
    exact ⟨fun _ => ⟨rfl, hlen⟩, fun h => by omega⟩
  · refine ⟨fun h => by omega, fun h => ⟨rfl, ?_⟩⟩
    simp only [LeafNode.split, SepList.last, List.length_drop, hlen, h]

structure Ascended (i : Nat) (index : BPlusTree) (m : PageMap TreePage) : Prop where
  sizes : DefaultSizes index
  wf : m.WF
  free : 2 ≤ m.free
  tree : (i = 0 ∧ index.rootPageId = invalidPageId) ∨
    (∃ lf : LeafNode, Rooted (d := 0) index m lf ∧ Shaped (d := 0) index lf ∧ Below (d := 0) i lf ∧
      lf.entries.length = i ∧ i < 340) ∨
    ∃ nd : InnerNode (PageTree 0), Rooted (d := 1) index m nd ∧ Shaped (d := 1) index nd ∧
      Below (d := 1) i nd ∧ 340 ≤ i ∧ nd.row.size = 2 + (i - 340) / 170 ∧
      (LeafNode.entries nd.row.last).length = 170 + (i - 340) % 170

theorem Ascended.step {i : Nat} (h : Ascended i index m) (hi : i < 86869) :
    ∃ index' m', BPlusTree.insert PageMap.store index i ⟨0, 0⟩ m = .ok index' m' ∧
      Ascended (i + 1) index' m' := by
  have hsz := h.sizes
  have hwf := h.wf
  have hmax : index.leafMaxSize = 340 := hsz.leaf
  rcases h.tree with ⟨rfl, hroot⟩ | ⟨lf, hr, hsh, hb, hlen, hlt⟩ | ⟨nd, hr, hsh, hb, hge, hsize, hlast⟩
  · have hfree := h.free
    refine ⟨_, _, insert_first hwf hroot (by omega), ⟨hsz.leaf, hsz.inner⟩, hwf.grow _, hfree, ?_⟩
    refine Or.inr (Or.inl ⟨_, rooted_first rfl, shaped_first, ?_, rfl, by omega⟩)
    intro y hy
    obtain rfl := List.mem_singleton.mp hy
    decide
  · have hfull : PageTree.insert index m.frames ⟨i, ⟨0, 0⟩⟩ (d := 0) lf m.numPages ≠ .error .full :=
      LeafNode.insert_ne_full hsz.leaf.le hsh.occupied
    cases hins : PageTree.insert index m.frames ⟨i, ⟨0, 0⟩⟩ (d := 0) lf m.numPages with
    | error stop => exact absurd (insert_error_of_free h.free _ _ _ hins ▸ hins) hfull
    | ok r =>
      obtain ⟨x, np'⟩ := r
      obtain ⟨m', hrun, hk, hs⟩ := insert_grown hwf hr hins
      have hsh' := (shaped_grown hr.stored hsh hins).reroot (grown np' x).2.pid
      have hb' := below_grown hb hr.stored.ordered hins
      obtain ⟨hroom, hsplit⟩ := leaf_ascending hsz hb hr.stored.ordered hins
      refine ⟨_, m', hrun, ⟨hsz.leaf, hsz.inner⟩, hk.wf, hk.free_eq ▸ h.free, ?_⟩
      rcases Nat.lt_or_ge i 339 with hlt' | hge'
      · obtain ⟨h1, h2⟩ := hroom (by omega)
        obtain ⟨lf', rfl⟩ := size_eq_one h1
        exact Or.inr (Or.inl ⟨lf', ⟨rfl, hs⟩, hsh', hb', by rw [← hlen]; exact h2, by omega⟩)
      · obtain ⟨h1, h2⟩ := hsplit (by omega)
        obtain rfl : i = 339 := by omega
        cases x with
        | one lf' => cases h1
        | cons l s r =>
          exact Or.inr (Or.inr ⟨_, ⟨rfl, hs⟩, hsh', hb', le_rfl, h1, h2⟩)
  · have hchild : nd.row.child (i : Int) = nd.row.last := SepList.child_eq_last hb.seps_le
    have hfull : PageTree.insert index m.frames ⟨i, ⟨0, 0⟩⟩ (d := 1) nd m.numPages ≠ .error .full := by
      rw [Ne, insert_full_iff hsz hr.stored.ordered hsh.occupied hchild]
      rintro ⟨h1, h2, -⟩
      change nd.row.size = 510 at h1
      change (LeafNode.entries nd.row.last).length + 1 = 340 at h2
      omega
    cases hins : PageTree.insert index m.frames ⟨i, ⟨0, 0⟩⟩ (d := 1) nd m.numPages with
    | error stop => exact absurd (insert_error_of_free h.free _ _ _ hins ▸ hins) hfull
    | ok r =>
      obtain ⟨x, np'⟩ := r
      obtain ⟨m', hrun, hk, hs⟩ := insert_grown hwf hr hins
      have hsh' := (shaped_grown hr.stored hsh hins).reroot (grown np' x).2.pid
      have hb' := below_grown hb hr.stored.ordered hins
      refine ⟨_, m', hrun, ⟨hsz.leaf, hsz.inner⟩, hk.wf, hk.free_eq ▸ h.free, Or.inr (Or.inr ?_)⟩
      obtain ⟨nd', rfl⟩ := insert_inner_one hsz hins
      refine ⟨nd', ⟨rfl, hs⟩, hsh', hb', by omega, ?_⟩
      obtain ⟨y, np₁, hy, hx⟩ := insert_succ_ok hins
      obtain ⟨rfl, -⟩ : nd' = nd.replace i y ∧ np' = np₁ := by
        rcases InnerNode.absorb_ok hx with ⟨hx', hnp, -⟩ | ⟨hx', -⟩
        · exact ⟨(SepList.one.inj hx'), hnp⟩
        · cases hx'
      have hmem : nd.row.last ∈ nd.row.items := hchild ▸ SepList.child_mem _ _
      rw [hchild] at hy
      have hlastBelow : Below (d := 0) i nd.row.last := fun z hz =>
        hb z (SepList.mem_flat.mpr (Or.inl ⟨_, hmem, hz⟩))
      obtain ⟨hroom, hsplit⟩ := leaf_ascending hsz hlastBelow (ordered_child hr.stored.ordered hmem) hy
      have hsize' : (nd.row.replace (i : Int) y).size + 1 = nd.row.size + y.size :=
        SepList.size_replace (i : Int) y nd.row
      have hlast' : (nd.row.replace (i : Int) y).last = y.last := SepList.last_replace hb.seps_le y
      change (nd.row.replace (i : Int) y).size = _ ∧ (LeafNode.entries (nd.row.replace (i : Int) y).last).length = _
      rw [hlast']
      by_cases hrem : (i - 340) % 170 = 169
      · obtain ⟨h1, h2⟩ := hsplit (by omega)
        exact ⟨by omega, by omega⟩
      · obtain ⟨h1, h2⟩ := hroom (by omega)
        exact ⟨by omega, by omega⟩

theorem ascended (i : Nat) (hi : i ≤ 86869) (h : Ascended 0 index m) :
    ∃ index' m', insertAll PageMap.store index (ascending i) m = .ok index' m' ∧
      Ascended i index' m' := by
  induction i with
  | zero => exact ⟨index, m, rfl, h⟩
  | succ i ih =>
    obtain ⟨index₁, m₁, hrun, h₁⟩ := ih (by omega)
    obtain ⟨index', m', hstep, h'⟩ := h₁.step (by omega)
    refine ⟨index', m', ?_, h'⟩
    rw [ascending_succ, insertAll_append PageMap.store _ hrun, bind_ok hstep]
    rfl

theorem Ascended.overflows (h : Ascended 86869 index m) :
    ∃ m', BPlusTree.insert PageMap.store index 86869 ⟨0, 0⟩ m = .error .outOfBounds m' := by
  rcases h.tree with ⟨h0, -⟩ | ⟨lf, -, -, -, -, hlt⟩ | ⟨nd, hr, hsh, hb, -, hsize, hlast⟩
  · cases h0
  · exact absurd hlt (by decide)
  · have hchild : nd.row.child ((86869 : Nat) : Int) = nd.row.last :=
      SepList.child_eq_last hb.seps_le
    have hlastBelow : Below (d := 0) 86869 nd.row.last := fun z hz =>
      hb z (SepList.mem_flat.mpr (Or.inl ⟨_, hchild ▸ SepList.child_mem _ _, hz⟩))
    refine (insert_outOfBounds_iff_full h.wf hr).mpr ?_
    rw [insert_full_iff h.sizes hr.stored.ordered hsh.occupied hchild]
    refine ⟨hsize, congrArg (· + 1) hlast, hlastBelow.not_has, ?_⟩
    have hfree := h.free
    unfold Frames.need
    change _ ≤ m.free
    split_ifs <;> omega

theorem ascended_zero : Ascended 0 ⟨invalidPageId, 340, 510, by decide, by decide⟩
    (BufferPool.init 2 ⟨0, fun _ => 0⟩ : BufferPool TreePage 2).view :=
  ⟨⟨rfl, rfl⟩, (holds_init ⟨0, fun _ => 0⟩).wf, by decide, Or.inl ⟨rfl, rfl⟩⟩

/-- Over a pool of two frames, the insertion of the key 86869 writes past the root page. -/
theorem ascending_overflows : ∃ s', insertAll BufferPool.store
    ⟨invalidPageId, 340, 510, by decide, by decide⟩ (ascending 86870)
    (BufferPool.init 2 ⟨0, fun _ => 0⟩ : BufferPool TreePage 2) = .error .outOfBounds s' := by
  have hs := holds_init (n := 2) (D := TreePage) ⟨0, fun _ => 0⟩
  obtain ⟨index', m', hrun, hasc⟩ := ascended 86869 le_rfl ascended_zero
  obtain ⟨m'', hover⟩ := hasc.overflows
  have hlast : insertAll PageMap.store ⟨invalidPageId, 340, 510, by decide, by decide⟩
      (ascending 86870) (BufferPool.init 2 ⟨0, fun _ => 0⟩ : BufferPool TreePage 2).view =
        .error .outOfBounds m'' := by
    rw [ascending_succ, insertAll_append PageMap.store _ hrun]
    exact bind_error hover
  obtain ⟨s', hs', -⟩ := (insertAll_refines _ _).error (live_nil.mpr hs) hlast (by simp)
  exact ⟨s', hs'⟩

/-- At the default sizes `InsertEntry` stays inside its page in exactly the runs
no call of which finds a full root and a leaf that is to split. -/
theorem insertEntry_in_bounds_iff {n : Nat} {s : BufferPool TreePage n} (hs : Holds s m)
    (hsz : DefaultSizes index) (hroot : index.rootPageId = invalidPageId) (ops : List (Int × RID)) :
    (∀ s', insertAll BufferPool.store index ops s ≠ .error .outOfBounds s') ↔
      ¬ ReachesOverfull index s ops := by
  rw [← insertAll_outOfBounds_iff hs hsz (Or.inl hroot) ops, not_exists]

/-- The run of `ascending_overflows` without its last call. -/
theorem insertEntry_in_bounds_ascending :
    (∃ index' s', insertAll BufferPool.store ⟨invalidPageId, 340, 510, by decide, by decide⟩ (ascending 86869)
      (BufferPool.init 2 ⟨0, fun _ => 0⟩ : BufferPool TreePage 2) = .ok index' s') ∧
    ¬ ReachesOverfull ⟨invalidPageId, 340, 510, by decide, by decide⟩
      (BufferPool.init 2 ⟨0, fun _ => 0⟩ : BufferPool TreePage 2) (ascending 86869) := by
  have hs := holds_init (n := 2) (D := TreePage) ⟨0, fun _ => 0⟩
  obtain ⟨index', m', hrun, -⟩ := ascended 86869 le_rfl ascended_zero
  obtain ⟨_, s', hs', rfl, -⟩ := (insertAll_refines _ _).ok (live_nil.mpr hs) hrun
  refine ⟨⟨_, s', hs'⟩, (insertEntry_in_bounds_iff hs ⟨rfl, rfl⟩ rfl _).mp ?_⟩
  intro s'' herr
  cases hs'.symm.trans herr

end MyDB.Storage

import MyDB.Storage.BPlusTreeRefinement
import MyDB.Storage.TreeRuns

/-! The index is a finite map: `Insert` writes the map at its key, and `Search`
reads it. -/

namespace MyDB.Storage
open Lib PageTree BPlusTree

variable {d : Nat} {index : BPlusTree} {key : Int} {rid : RID} {m : PageMap TreePage}

def grown (np : Nat) : SepList Int (PageTree d) → Σ d, PageTree d
  | .one tr => ⟨d, tr⟩
  | .cons l s r => ⟨d + 1, ⟨np, .cons l s r⟩⟩

theorem marks_grown (np : Nat) (x : SepList Int (PageTree d)) : (grown np x).2.marks = marksOf x := by
  cases x <;> rfl

theorem leaves_grown (np : Nat) (x : SepList Int (PageTree d)) : (grown np x).2.leaves = leavesOf x := by
  cases x <;> rfl

theorem entries_grown (np : Nat) (x : SepList Int (PageTree d)) :
    (grown np x).2.entries = entriesOf x := congrArg (List.flatMap _) (leaves_grown np x)

structure Rooted (index : BPlusTree) (m : PageMap TreePage) (tr : PageTree d) : Prop where
  root_eq : index.rootPageId = tr.pid
  stored : Stored m tr

theorem Rooted.root_ne {tr : PageTree d} (h : Rooted index m tr) : index.rootPageId ≠ invalidPageId := by
  have h0 := (h.stored.allocated _ (pid_mem_pages tr)).1
  rw [h.root_eq]
  intro e
  rw [e] at h0
  exact absurd h0 (by decide)

/-- The index holds a tree, or none before the first insertion. -/
def HoldsTree (index : BPlusTree) (m : PageMap TreePage) : Option (Σ d, PageTree d) → Prop
  | none => index.rootPageId = invalidPageId
  | some tr => Rooted index m tr.2

structure Kept (m m' : PageMap TreePage) : Prop where
  wf : m'.WF
  pins_eq : m'.pins = m.pins
  free_eq : m'.free = m.free

theorem insert_first (hwf : m.WF) (hroot : index.rootPageId = invalidPageId) (hfree : m.free ≠ 0) :
    insert PageMap.store index key rid m = .ok { index with rootPageId := m.numPages }
      (m.grow (.leaf [⟨key, rid⟩] invalidPageId)) := by
  rw [BPlusTree.insert, if_pos hroot, bind_ok (PageMap.newPage_ok hfree)]
  dsimp only
  rw [BPlusTreeLeafPage.insertEntry, bind_ok (insertEntry_ok (by decide) _),
    bind_ok (PageMap.writeData_ok ..), bind_ok (PageMap.unpin_alloc hwf hfree _)]
  rfl

theorem insert_first_none (hroot : index.rootPageId = invalidPageId) (hfree : m.free = 0) :
    insert PageMap.store index key rid m =
      .error (.runtimeError (lit "BPlusTree::Insert — buffer pool full")) m := by
  rw [BPlusTree.insert, if_pos hroot, bind_ok (PageMap.newPage_none hfree)]
  rfl

theorem rooted_first (hroot : index.rootPageId = m.numPages) :
    Rooted (d := 0) index (m.grow (.leaf [⟨key, rid⟩] invalidPageId))
      ⟨m.numPages, [⟨key, rid⟩], invalidPageId⟩ where
  root_eq := hroot
  stored :=
    { held := Function.update_self ..
      ordered := List.pairwise_singleton ..
      nodup := List.nodup_singleton _
      allocated := by
        intro p hp
        obtain rfl := List.mem_singleton.mp hp
        exact ⟨Int.natCast_nonneg _, Int.ofNat_lt.mpr (Nat.lt_succ_self _)⟩ }

theorem stored_insert {tr : PageTree d} {x : SepList Int (PageTree d)} {np' : Nat} (hs : Stored m tr)
    (hins : tr.insert index m.frames ⟨key, rid⟩ m.numPages = .ok (x, np')) :
    (marksOf x).Pairwise (· < ·) ∧ (pagesOf x).Nodup ∧ ∀ p ∈ pagesOf x, 0 ≤ p ∧ p < (np' : Int) := by
  obtain ⟨hle, hperm⟩ := insert_pages hins
  refine ⟨(insert_ordered hins hs.ordered).1, ?_, ?_⟩
  · refine (hperm.nodup_iff).mpr (List.nodup_append.mpr ⟨hs.nodup, nodup_fresh _ _, ?_⟩)
    rintro p hp _ hq rfl
    exact absurd (hs.allocated p hp).2 (not_lt.mpr (mem_fresh.mp hq).1)
  · intro p hp
    rcases List.mem_append.mp (hperm.subset hp) with hp | hp
    · obtain ⟨h1, h2⟩ := hs.allocated p hp
      exact ⟨h1, h2.trans_le (Int.ofNat_le.mpr hle)⟩
    · obtain ⟨h1, h2⟩ := mem_fresh.mp hp
      exact ⟨(Int.natCast_nonneg _).trans h1, h2⟩

theorem insert_grown (hwf : m.WF) {tr : PageTree d} (h : Rooted index m tr)
    {x : SepList Int (PageTree d)} {np' : Nat}
    (hins : tr.insert index m.frames ⟨key, rid⟩ m.numPages = .ok (x, np')) :
    ∃ m', BPlusTree.insert PageMap.store index key rid m =
        .ok { index with rootPageId := (grown np' x).2.pid } m' ∧
      Kept m m' ∧ Stored m' (grown np' x).2 := by
  have hout := insertInPage_outcome index key rid hwf tr m.numPages h.stored h.stored.depth_lt
  rw [hins] at hout
  obtain ⟨m₁, hrun, hafter⟩ := hout
  obtain ⟨hmarks, hnodup, halloc⟩ := stored_insert h.stored hins
  have hnum := hafter.numPages_eq
  rw [BPlusTree.insert, if_neg h.root_ne, bind_ok (rfl : PageMap.store.numPages m = .ok m.numPages m),
    h.root_eq, bind_ok hrun]
  obtain ⟨hpid, ⟨tr', rfl⟩ | ⟨l, s, r, rfl, hfree⟩⟩ := insert_shape hins
  · refine ⟨m₁, ?_, ⟨hafter.wf, hafter.pins_eq, hafter.free_eq⟩,
      hafter.held tr' (List.mem_singleton_self _), hmarks, hnodup, ?_⟩
    · have hroot : index.rootPageId = tr'.pid := h.root_eq.trans hpid.symm
      change EStateM.Result.ok index m₁ = .ok { index with rootPageId := tr'.pid } m₁
      rw [← hroot]
    · intro p hp
      rw [hnum]
      exact halloc p hp
  · have hfree₁ : m₁.free ≠ 0 := by rwa [hafter.free_eq]
    have hdata : insertEntry InternalEntry.key internalCapacity 1 [⟨0, tr.pid⟩]
        ⟨s, (SepList.one r : SepList Int (PageTree d)).head.pid⟩ m₁.alloc =
        .ok (InnerNode.data (⟨np', .cons l s (.one r)⟩ : InnerNode (PageTree d))) m₁.alloc := by
      rw [insertEntry_ok (by simp [internalCapacity, pageSize]), ← hpid]
      rfl
    refine ⟨m₁.grow (.internal (InnerNode.data (⟨np', .cons l s (.one r)⟩ : InnerNode (PageTree d)))),
      ?_, ⟨hafter.wf.grow _, hafter.pins_eq, hafter.free_eq⟩, ?_, hmarks, ?_, ?_⟩
    · change (PageMap.store.newPage >>= _) m₁ = _
      rw [bind_ok (PageMap.newPage_ok hfree₁)]
      dsimp only
      rw [BPlusTreeInternalPage.insertEntry, bind_ok hdata, bind_ok (PageMap.writeData_ok ..),
        bind_ok (PageMap.unpin_alloc hafter.wf hfree₁ _), hnum]
      rfl
    · refine in_succ.mpr ⟨?_, fun c hc => (hafter.held c hc).congr fun p hp => ?_⟩
      · rw [← hnum]
        exact Function.update_self ..
      · have hlt := (halloc p (SepList.mem_flat.mpr (Or.inl ⟨c, hc, hp⟩))).2
        exact Function.update_of_ne (hnum ▸ hlt.ne) _ _
    · exact List.nodup_cons.mpr ⟨fun hp => lt_irrefl _ (halloc _ hp).2, hnodup⟩
    · intro p hp
      have hnum' : (m₁.grow (.internal (InnerNode.data
          (⟨np', .cons l s (.one r)⟩ : InnerNode (PageTree d))))).numPages = np' + 1 := by
        rw [← hnum]
        rfl
      rw [hnum']
      rcases List.mem_cons.mp hp with rfl | hp
      · exact ⟨Int.natCast_nonneg _, Int.ofNat_lt.mpr (Nat.lt_succ_self _)⟩
      · obtain ⟨h1, h2⟩ := halloc p hp
        exact ⟨h1, h2.trans (Int.ofNat_lt.mpr (Nat.lt_succ_self _))⟩

theorem insert_stopped (hwf : m.WF) {tr : PageTree d} (h : Rooted index m tr) {stop : Stop}
    (hins : tr.insert index m.frames ⟨key, rid⟩ m.numPages = .error stop) :
    ∃ e m', BPlusTree.insert PageMap.store index key rid m = .error e m' ∧
      match stop with
      | .noFrame => e = .runtimeError (lit "BPlusTree — failed to fetch page") ∧ m' = m
      | .full => e = .outOfBounds
      | .starved p => (∃ msg, e = .runtimeError msg) ∧ m'.pins p = m.pins p + 1 := by
  have hout := insertInPage_outcome index key rid hwf tr m.numPages h.stored h.stored.depth_lt
  rw [hins] at hout
  rw [BPlusTree.insert, if_neg h.root_ne, bind_ok (rfl : PageMap.store.numPages m = .ok m.numPages m),
    h.root_eq]
  cases stop with
  | noFrame =>
    rw [bind_error hout]
    exact ⟨_, _, rfl, rfl, rfl⟩
  | full =>
    obtain ⟨m', h'⟩ := hout
    rw [bind_error h']
    exact ⟨_, _, rfl, rfl⟩
  | starved p =>
    obtain ⟨msg, m', h', hp⟩ := hout
    rw [bind_error h']
    exact ⟨_, _, rfl, ⟨msg, rfl⟩, hp⟩

theorem insert_outOfBounds_iff_full (hwf : m.WF) {tr : PageTree d} (h : Rooted index m tr) :
    (∃ m', BPlusTree.insert PageMap.store index key rid m = .error .outOfBounds m') ↔
      tr.insert index m.frames ⟨key, rid⟩ m.numPages = .error .full := by
  constructor
  · rintro ⟨m', hrun⟩
    cases hins : tr.insert index m.frames ⟨key, rid⟩ m.numPages with
    | ok r =>
      obtain ⟨m'', h', -⟩ := insert_grown hwf h hins
      rw [hrun] at h'
      cases h'
    | error stop =>
      obtain ⟨e, m'', h', hstop⟩ := insert_stopped hwf h hins
      rw [hrun] at h'
      cases h'
      cases stop with
      | noFrame => cases hstop.1
      | full => rfl
      | starved p => obtain ⟨⟨msg, hmsg⟩, -⟩ := hstop; cases hmsg
  · intro hins
    obtain ⟨e, m', h', rfl⟩ := insert_stopped hwf h hins
    exact ⟨m', h'⟩

theorem insert_error (hwf : m.WF) {t : Option (Σ d, PageTree d)} (h : HoldsTree index m t) {e : Fault}
    {m' : PageMap TreePage} (hrun : BPlusTree.insert PageMap.store index key rid m = .error e m') :
    e = .outOfBounds ∨ ∃ msg, e = .runtimeError msg := by
  cases t with
  | none =>
    by_cases hfree : m.free = 0
    · rw [insert_first_none h hfree] at hrun
      cases hrun
      exact Or.inr ⟨_, rfl⟩
    · rw [insert_first hwf h hfree] at hrun
      cases hrun
  | some tr =>
    cases hins : tr.2.insert index m.frames ⟨key, rid⟩ m.numPages with
    | ok r =>
      obtain ⟨m'', h', -⟩ := insert_grown hwf h hins
      rw [hrun] at h'
      cases h'
    | error stop =>
      obtain ⟨e', m'', h', hstop⟩ := insert_stopped hwf h hins
      rw [hrun] at h'
      cases h'
      cases stop with
      | noFrame => exact Or.inr ⟨_, hstop.1⟩
      | full => exact Or.inl hstop
      | starved p => exact Or.inr hstop.1

theorem insert_pool (key : Int) (rid : RID) {n : Nat} {s : BufferPool TreePage n} (hs : Holds s m)
    {t : Option (Σ d, PageTree d)} (h : HoldsTree index m t) :
    (∀ index' s', BPlusTree.insert BufferPool.store index key rid s = .ok index' s' →
      ∃ m', BPlusTree.insert PageMap.store index key rid m = .ok index' m' ∧ Holds s' m') ∧
    ∀ e s', BPlusTree.insert BufferPool.store index key rid s = .error e s' →
      ∃ m', BPlusTree.insert PageMap.store index key rid m = .error e m' ∧ Holds s' m' := by
  have hrefines := insert_refines (n := n) index key rid
  have hbad : ∀ e m', BPlusTree.insert PageMap.store index key rid m = .error e m' →
      e ≠ Fault.lostWrite := by
    intro e m' he hbad
    rcases insert_error hs.wf h he with h | ⟨msg, h⟩
    · cases hbad.symm.trans h
    · cases hbad.symm.trans h
  constructor
  · intro index' s' hrun
    obtain ⟨b, m', hm, rfl, hlive⟩ := hrefines.of_ok (live_nil.mpr hs) hrun hbad
    exact ⟨m', hm, live_nil.mp hlive⟩
  · intro e s' hrun
    cases hm : BPlusTree.insert PageMap.store index key rid m with
    | ok b m' =>
      obtain ⟨a, s'', hx, -⟩ := hrefines.ok (live_nil.mpr hs) hm
      rw [hrun] at hx
      cases hx
    | error e' m' =>
      obtain ⟨s'', hx, hs'⟩ := hrefines.error (live_nil.mpr hs) hm (hbad e' m' hm)
      rw [hrun] at hx
      cases hx
      exact ⟨m', rfl, hs'⟩

/-! ## Runs of insertions -/

structure Shaped (index : BPlusTree) (tr : PageTree d) : Prop where
  occupied : tr.Occupied index 1 2
  linked : Linked invalidPageId tr.leaves

inductive Indexes (index : BPlusTree) (m : PageMap TreePage) : List LeafEntry → Prop
  | empty (h : index.rootPageId = invalidPageId) : Indexes index m []
  | tree {d : Nat} (tr : PageTree d) (h : Rooted index m tr) (hsh : Shaped index tr) :
      Indexes index m tr.entries

theorem occupied_reroot {a b : Nat} (p : PageId) (tr : PageTree d) : tr.Occupied index a b →
    tr.Occupied { index with rootPageId := p } a b := by
  revert a b
  refine PageTree.induction (motive := fun tr => ∀ {a b}, tr.Occupied index a b →
    tr.Occupied { index with rootPageId := p } a b) ?leaf ?inner tr
  case leaf => exact fun lf a b h => h
  case inner => exact fun nd ih a b h => ⟨h.1, h.2.1, fun c hc => ih c hc (h.2.2 c hc)⟩

theorem shaped_grown {tr : PageTree d} (hs : Stored m tr) (h : Shaped index tr) {np' : Nat}
    {x : SepList Int (PageTree d)}
    (hins : tr.insert index m.frames ⟨key, rid⟩ m.numPages = .ok (x, np')) :
    Shaped index (grown np' x).2 := by
  refine ⟨?_, ?_⟩
  · rcases insert_occupied hins hs.ordered h.occupied with ⟨tr', rfl, hocc⟩ | ⟨hsize, hfill⟩
    · exact hocc
    · cases x with
      | one tr' => cases hsize
      | cons l s r =>
        have := index.three_le_internal
        exact occupied_succ.mpr ⟨hsize.ge, hsize.le.trans (by omega), hfill⟩
  · rw [leaves_grown]
    exact (insert_linked hins _ h.linked).1

def insertedEntries (ops : List (Int × RID)) (es : List LeafEntry) : List LeafEntry :=
  ops.foldl (fun es op => Lib.upsert (·.key) ⟨op.1, op.2⟩ es) es

theorem insert_empty_ok (hwf : m.WF) (hroot : index.rootPageId = invalidPageId) {index' : BPlusTree}
    {m' : PageMap TreePage} (hrun : BPlusTree.insert PageMap.store index key rid m = .ok index' m') :
    index' = { index with rootPageId := m.numPages } ∧
      m' = m.grow (.leaf [⟨key, rid⟩] invalidPageId) := by
  by_cases hfree : m.free = 0
  · rw [insert_first_none hroot hfree] at hrun
    cases hrun
  · rw [insert_first hwf hroot hfree] at hrun
    cases hrun
    exact ⟨rfl, rfl⟩

theorem insert_tree_ok (hwf : m.WF) {tr : PageTree d} (h : Rooted index m tr) {index' : BPlusTree}
    {m' : PageMap TreePage} (hrun : BPlusTree.insert PageMap.store index key rid m = .ok index' m') :
    ∃ x np', tr.insert index m.frames ⟨key, rid⟩ m.numPages = .ok (x, np') ∧
      index' = { index with rootPageId := (grown np' x).2.pid } ∧ Kept m m' ∧
      Stored m' (grown np' x).2 := by
  cases hins : tr.insert index m.frames ⟨key, rid⟩ m.numPages with
  | error stop =>
    obtain ⟨e, m'', h', -⟩ := insert_stopped hwf h hins
    rw [hrun] at h'
    cases h'
  | ok r =>
    obtain ⟨m'', h', hkept, hs⟩ := insert_grown hwf h hins
    rw [hrun] at h'
    cases h'
    exact ⟨r.1, r.2, rfl, rfl, hkept, hs⟩

theorem shaped_first : Shaped (d := 0) index ⟨m.numPages, [⟨key, rid⟩], invalidPageId⟩ := by
  have := index.two_le_leaf
  exact ⟨occupied_zero.mpr ⟨le_rfl, by change 1 < index.leafMaxSize; omega⟩, rfl, trivial⟩

theorem Shaped.reroot {tr : PageTree d} (h : Shaped index tr) (p : PageId) :
    Shaped { index with rootPageId := p } tr := ⟨occupied_reroot p tr h.occupied, h.linked⟩

theorem insert_indexes (hwf : m.WF) {es : List LeafEntry} (h : Indexes index m es)
    {index' : BPlusTree} {m' : PageMap TreePage}
    (hrun : BPlusTree.insert PageMap.store index key rid m = .ok index' m') :
    Kept m m' ∧ (∃ pid, index' = { index with rootPageId := pid }) ∧
      Indexes index' m' (Lib.upsert (·.key) ⟨key, rid⟩ es) := by
  cases h with
  | empty hroot =>
    obtain ⟨rfl, rfl⟩ := insert_empty_ok hwf hroot hrun
    exact ⟨⟨hwf.grow _, rfl, rfl⟩, ⟨_, rfl⟩, .tree (d := 0) _ (rooted_first rfl) shaped_first⟩
  | tree tr hr hsh =>
    obtain ⟨x, np', hins, rfl, hkept, hs⟩ := insert_tree_ok hwf hr hrun
    refine ⟨hkept, ⟨_, rfl⟩, ?_⟩
    rw [← insert_entries hins hr.stored.ordered, ← entries_grown np' x]
    exact .tree _ ⟨rfl, hs⟩ ((shaped_grown hr.stored hsh hins).reroot _)

theorem Indexes.holdsTree {es : List LeafEntry} (h : Indexes index m es) : ∃ t, HoldsTree index m t := by
  cases h with
  | empty hroot => exact ⟨none, hroot⟩
  | tree tr hr hsh => exact ⟨some ⟨_, tr⟩, hr⟩

theorem insertAll_error (hwf : m.WF) {es : List LeafEntry} (h : Indexes index m es) {e : Fault}
    {m' : PageMap TreePage} {ops : List (Int × RID)}
    (hrun : insertAll PageMap.store index ops m = .error e m') :
    e = .outOfBounds ∨ ∃ msg, e = .runtimeError msg := by
  induction ops generalizing index m es with
  | nil => cases hrun
  | cons op ops ih =>
    rw [insertAll] at hrun
    cases hstep : BPlusTree.insert PageMap.store index op.1 op.2 m with
    | error e' m₁ =>
      rw [bind_error hstep] at hrun
      cases hrun
      obtain ⟨t, ht⟩ := h.holdsTree
      exact insert_error hwf ht hstep
    | ok index₁ m₁ =>
      rw [bind_ok hstep] at hrun
      obtain ⟨hk, -, h₁⟩ := insert_indexes hwf h hstep
      exact ih hk.wf h₁ hrun

theorem insertAll_indexes (hwf : m.WF) {es : List LeafEntry} (h : Indexes index m es)
    {index' : BPlusTree} {m' : PageMap TreePage} {ops : List (Int × RID)}
    (hrun : insertAll PageMap.store index ops m = .ok index' m') :
    Kept m m' ∧ (∃ pid, index' = { index with rootPageId := pid }) ∧
      Indexes index' m' (insertedEntries ops es) := by
  induction ops generalizing index m es with
  | nil =>
    cases hrun
    exact ⟨⟨hwf, rfl, rfl⟩, ⟨_, rfl⟩, h⟩
  | cons op ops ih =>
    rw [insertAll] at hrun
    cases hstep : BPlusTree.insert PageMap.store index op.1 op.2 m with
    | error e m₁ =>
      rw [bind_error hstep] at hrun
      cases hrun
    | ok index₁ m₁ =>
      rw [bind_ok hstep] at hrun
      obtain ⟨hk, ⟨pid, rfl⟩, h₁⟩ := insert_indexes hwf h hstep
      obtain ⟨hk', ⟨pid', rfl⟩, h'⟩ := ih hk.wf h₁ hrun
      exact ⟨⟨hk'.wf, hk'.pins_eq.trans hk.pins_eq, hk'.free_eq.trans hk.free_eq⟩, ⟨pid', rfl⟩, h'⟩

theorem insert_returns (key : Int) (rid : RID) (hwf : m.WF) {es : List LeafEntry} (h : Indexes index m es) (hfree : 2 ≤ m.free)
    (hleaf : index.leafMaxSize ≤ leafCapacity) (hinner : index.internalMaxSize < internalCapacity) :
    ∃ index' m', BPlusTree.insert PageMap.store index key rid m = .ok index' m' := by
  cases h with
  | empty hroot => exact ⟨_, _, insert_first hwf hroot (by omega)⟩
  | tree tr hr hsh =>
    obtain ⟨⟨x, np'⟩, hins⟩ := insert_total m.frames ⟨key, rid⟩ m.numPages hleaf
      hinner hfree hsh.occupied
    obtain ⟨m', h', -⟩ := insert_grown hwf hr hins
    exact ⟨_, m', h'⟩

theorem insertAll_returns (hwf : m.WF) {es : List LeafEntry} (h : Indexes index m es)
    (hfree : 2 ≤ m.free) (hleaf : index.leafMaxSize ≤ leafCapacity)
    (hinner : index.internalMaxSize < internalCapacity) (ops : List (Int × RID)) :
    ∃ index' m', insertAll PageMap.store index ops m = .ok index' m' := by
  induction ops generalizing index m es with
  | nil => exact ⟨_, _, rfl⟩
  | cons op ops ih =>
    obtain ⟨index₁, m₁, hstep⟩ := insert_returns op.1 op.2 hwf h hfree hleaf hinner
    obtain ⟨hk, ⟨pid, rfl⟩, h₁⟩ := insert_indexes hwf h hstep
    obtain ⟨index', m', h'⟩ := ih hk.wf h₁ (hk.free_eq ▸ hfree) hleaf hinner
    exact ⟨index', m', by rw [insertAll, bind_ok hstep, h']⟩

theorem search_indexes (hwf : m.WF) {es : List LeafEntry} (h : Indexes index m es) (hfree : m.free ≠ 0)
    (k : Int) : search PageMap.store index k m =
      .ok ((es.find? fun b => b.key = k).map (·.rid)) m := by
  cases h with
  | empty hroot =>
    rw [search, if_pos hroot]
    rfl
  | tree tr hr hsh =>
    rw [search, if_neg hr.root_ne, bind_ok (rfl : PageMap.store.numPages m = .ok m.numPages m), hr.root_eq]
    exact searchLoop_ok hwf hfree tr _ hr.stored hr.stored.depth_lt

/-- The map that a sequence of insertions writes. -/
def insertedMap (ops : List (Int × RID)) : Int → Option RID :=
  ops.foldl (fun f op => Function.update f op.1 (some op.2)) fun _ => none

theorem find_insertedEntries (ops : List (Int × RID)) {es : List LeafEntry} {f : Int → Option RID}
    (hs : (es.map (·.key)).Pairwise (· < ·))
    (hf : ∀ k, (es.find? fun b => b.key = k).map (·.rid) = f k) (k : Int) :
    ((insertedEntries ops es).find? fun b => b.key = k).map (·.rid) =
      ops.foldl (fun (f : Int → Option RID) op => Function.update f op.1 (some op.2)) f k := by
  induction ops generalizing es f with
  | nil => exact hf k
  | cons op ops ih =>
    refine ih (pairwise_upsert hs) fun k => ?_
    rw [find_upsert hs]
    change _ = Function.update f op.1 (some op.2) k
    by_cases hk : op.1 = k
    · rw [if_pos hk, ← hk, Function.update_self]
      rfl
    · rw [if_neg hk, hf, Function.update_of_ne (Ne.symm hk)]

theorem insertAll_pool {n : Nat} {s s' : BufferPool TreePage n} (hs : Holds s m)
    (hroot : index.rootPageId = invalidPageId) {ops : List (Int × RID)} {index' : BPlusTree}
    (hrun : insertAll BufferPool.store index ops s = .ok index' s') :
    ∃ m', insertAll PageMap.store index ops m = .ok index' m' ∧ Holds s' m' := by
  obtain ⟨b, m', hm, rfl, hlive⟩ := (insertAll_refines (n := n) index ops).of_ok (live_nil.mpr hs) hrun
    fun e m' he hbad => by
      rcases insertAll_error hs.wf (.empty hroot) he with h | ⟨msg, h⟩
      · cases hbad.symm.trans h
      · cases hbad.symm.trans h
  exact ⟨m', hm, live_nil.mp hlive⟩

theorem insertAll_pool_returns {n : Nat} {s : BufferPool TreePage n} (hs : Holds s m)
    (hfree : 2 ≤ s.unpinned) (hroot : index.rootPageId = invalidPageId)
    (hleaf : index.leafMaxSize ≤ leafCapacity) (hinner : index.internalMaxSize < internalCapacity)
    (ops : List (Int × RID)) : ∃ index' s', insertAll BufferPool.store index ops s = .ok index' s' := by
  rw [← hs.free_eq] at hfree
  obtain ⟨index', m', hrun⟩ := insertAll_returns hs.wf (.empty hroot) hfree hleaf hinner ops
  obtain ⟨index', s', hpool, -⟩ := (insertAll_refines (n := n) index ops).ok (live_nil.mpr hs) hrun
  exact ⟨index', s', hpool⟩

theorem insertAll_search {n : Nat} {s : BufferPool TreePage n} (hs : Holds s m) (hfree : 2 ≤ s.unpinned)
    (hroot : index.rootPageId = invalidPageId) (hleaf : index.leafMaxSize ≤ 340)
    (hinner : index.internalMaxSize ≤ 509) (ops : List (Int × RID)) :
    ∃ index' s', insertAll BufferPool.store index ops s = .ok index' s' ∧
      ∀ k, ∃ s'', search BufferPool.store index' k s' = .ok (insertedMap ops k) s'' := by
  obtain ⟨index', s', hpool⟩ := insertAll_pool_returns hs hfree hroot hleaf
    (Nat.lt_succ_of_le hinner) ops
  obtain ⟨m', hrun, hs'⟩ := insertAll_pool hs hroot hpool
  obtain ⟨hk, -, hidx⟩ := insertAll_indexes hs.wf (.empty hroot) hrun
  refine ⟨index', s', hpool, fun k => ?_⟩
  have hfree' : m'.free ≠ 0 := by
    rw [hk.free_eq, hs.free_eq]
    omega
  have hsearch := search_indexes hk.wf hidx hfree' k
  rw [find_insertedEntries ops (by simp) fun _ => rfl] at hsearch
  obtain ⟨_, s'', hfound, rfl, -⟩ := (search_refines (n := n) _ k).ok (live_nil.mpr hs') hsearch
  exact ⟨s'', hfound⟩

theorem insertAll_search_smallNodes :
    ∃ index' s', insertAll BufferPool.store ⟨invalidPageId, 2, 3, le_rfl, le_rfl⟩
        [(5, ⟨0, 0⟩), (3, ⟨0, 1⟩), (9, ⟨0, 2⟩), (3, ⟨7, 7⟩)]
        (BufferPool.init 2 ⟨0, fun _ => 0⟩ : BufferPool TreePage 2) = .ok index' s' ∧
      ∀ k, ∃ s'', search BufferPool.store index' k s' =
        .ok (insertedMap [(5, ⟨0, 0⟩), (3, ⟨0, 1⟩), (9, ⟨0, 2⟩), (3, ⟨7, 7⟩)] k) s'' :=
  insertAll_search (holds_init _) (by decide) rfl (by decide) (by decide) _

end MyDB.Storage

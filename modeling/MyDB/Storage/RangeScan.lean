import MyDB.Storage.BPlusTreeShape

/-! `RangeScan`: the descent ends at the leaf on the path to `low`, left of which all
keys are smaller, and the walk down the chain of the leaves then meets the other
keys in order. -/

namespace MyDB.Storage
open Lib PageTree BPlusTree

variable {d : Nat} {index : BPlusTree} {m : PageMap TreePage} {low high : Int}

/-! ## The descent -/

theorem leaves_around (k : Int) (tr : PageTree d) (h : tr.Ordered) :
    ∃ l r, tr.leaves = l ++ leafOf k tr :: r ∧ ∀ lf ∈ l, ∀ b ∈ lf.entries, b.key < k := by
  induction d with
  | zero => exact ⟨[], [], rfl, fun lf hlf => absurd hlf List.not_mem_nil⟩
  | succ d ih =>
    obtain ⟨l, r, hchild, hl⟩ := ih _ (ordered_child h (SepList.child_mem k tr.row))
    refine ⟨SepList.left leaves (fun _ => []) k tr.row ++ l,
      r ++ SepList.right leaves (fun _ => []) k tr.row, ?_, ?_⟩
    · rw [leaves_succ, SepList.flat_child leaves _ k, hchild]
      simp only [List.append_assoc, List.cons_append]
      rfl
    · intro lf hlf b hb
      cases List.mem_append.mp hlf with
      | inl hlf => exact key_lt_of_left h hlf hb
      | inr hlf => exact hl lf hlf b hb

theorem findLeafLoop_ok (hwf : m.WF) (hfree : m.free ≠ 0) (tr : PageTree d) (fuel : Nat) (hs : Stored m tr)
    (hfuel : d < fuel) : findLeafLoop PageMap.store low fuel tr.pid m = .ok (leafOf low tr).pid m := by
  revert fuel hs hfuel
  have hf (p : PageId) : m.pins p ≠ 0 ∨ m.free ≠ 0 := Or.inr hfree
  refine PageTree.induction (motive := fun {d} tr => ∀ fuel, Stored m tr → d < fuel →
    findLeafLoop PageMap.store low fuel tr.pid m = .ok (leafOf low tr).pid m) ?leaf ?inner tr
  case leaf =>
    intro lf fuel hs hfuel
    obtain ⟨fuel, rfl⟩ := Nat.exists_eq_succ_of_ne_zero hfuel.ne'
    have hrange : 0 ≤ lf.pid ∧ lf.pid < m.numPages := hs.allocated _ (List.mem_singleton_self _)
    rw [pid_zero, findLeafLoop, bind_ok (PageMap.fetchPage_ok hrange (hf _))]
    dsimp only
    rw [bind_ok (PageMap.readData_pin (in_zero.mp hs.held))]
    dsimp only
    rw [bind_ok (PageMap.unpin_pin hwf (hf _))]
    rfl
  case inner =>
    intro d nd ih fuel hs hfuel
    obtain ⟨fuel, rfl⟩ := Nat.exists_eq_succ_of_ne_zero (Nat.zero_lt_of_lt hfuel).ne'
    have hrange : 0 ≤ nd.pid ∧ nd.pid < m.numPages := hs.allocated _ List.mem_cons_self
    have hchild := SepList.child_mem low nd.row
    rw [pid_succ, findLeafLoop, bind_ok (PageMap.fetchPage_ok hrange (hf _))]
    dsimp only
    rw [bind_ok (PageMap.readData_pin (in_succ.mp hs.held).1)]
    dsimp only
    rw [bind_ok (PageMap.unpin_pin hwf (hf _)), InnerNode.lookup_eq low hs.ordered,
      ih _ hchild fuel (hs.child hchild) (Nat.lt_of_succ_lt_succ hfuel)]
    rfl

/-! ## The walk -/

def ridsIn (low high : Int) (es : List LeafEntry) : List RID :=
  (es.filter fun e => low ≤ e.key ∧ e.key ≤ high).map (·.rid)

theorem ridsIn_append (l r : List LeafEntry) : ridsIn low high (l ++ r) = ridsIn low high l ++ ridsIn low high r := by
  rw [ridsIn, List.filter_append, List.map_append]
  rfl

theorem ridsIn_cons (e : LeafEntry) (es : List LeafEntry) : ridsIn low high (e :: es) =
    if low ≤ e.key ∧ e.key ≤ high then e.rid :: ridsIn low high es else ridsIn low high es := by
  by_cases h : low ≤ e.key ∧ e.key ≤ high
  · rw [if_pos h, ridsIn, List.filter_cons, if_pos (decide_eq_true h)]
    rfl
  · rw [if_neg h, ridsIn, List.filter_cons, if_neg (by rwa [decide_eq_true_iff])]
    rfl

theorem ridsIn_eq_nil {es : List LeafEntry} (h : ∀ e ∈ es, e.key < low ∨ high < e.key) : ridsIn low high es = [] := by
  apply List.map_eq_nil_iff.mpr
  apply List.filter_eq_nil_iff.mpr
  intro e he hin
  have hin := of_decide_eq_true hin
  have := h e he
  omega

theorem scan_eq {data : List LeafEntry} (hs : (data.map (·.key)).Pairwise (· < ·)) :
    BPlusTreeLeafPage.scan low high data = (ridsIn low high data, data.any fun e => high < e.key) := by
  induction data with
  | nil => rfl
  | cons e data ih =>
    obtain ⟨he, hs⟩ := List.pairwise_cons.mp hs
    rw [BPlusTreeLeafPage.scan]
    by_cases hhigh : e.key > high
    · have hnil : ridsIn low high (e :: data) = [] := by
        apply ridsIn_eq_nil
        intro b hb
        cases List.mem_cons.mp hb with
        | inl heq => exact .inr (heq ▸ hhigh)
        | inr hmem => exact .inr (hhigh.trans (he _ (List.mem_map_of_mem hmem)))
      rw [if_pos hhigh, hnil, List.any_cons, decide_eq_true hhigh, Bool.true_or]
    · rw [if_neg hhigh, ih hs, List.any_cons, decide_eq_false hhigh, Bool.false_or]
      dsimp only
      rw [ridsIn_cons]
      by_cases hlow : e.key ≥ low
      · rw [if_pos hlow, if_pos ⟨hlow, not_lt.mp hhigh⟩]
      · rw [if_neg hlow, if_neg fun h => hlow h.1]

theorem scanLeafLoop_ok (hwf : m.WF) (hfree : m.free ≠ 0) {ls : List LeafNode} {fuel : Nat} {results : List RID}
    (hin : ∀ lf ∈ ls, m.contents lf.pid = .leaf lf.entries lf.next)
    (hrange : ∀ lf ∈ ls, 0 ≤ lf.pid ∧ lf.pid < m.numPages) (hl : Linked invalidPageId ls)
    (hs : ((ls.flatMap (·.entries)).map (·.key)).Pairwise (· < ·)) (hfuel : ls.length < fuel) :
    scanLeafLoop PageMap.store low high fuel (firstPid invalidPageId ls) results m =
      .ok (results ++ ridsIn low high (ls.flatMap (·.entries))) m := by
  have hf (p : PageId) : m.pins p ≠ 0 ∨ m.free ≠ 0 := Or.inr hfree
  induction ls generalizing fuel results with
  | nil =>
    obtain ⟨fuel, rfl⟩ := Nat.exists_eq_succ_of_ne_zero hfuel.ne'
    rw [firstPid, scanLeafLoop, if_pos rfl]
    exact congrArg (EStateM.Result.ok · m) (List.append_nil _).symm
  | cons lf ls ih =>
    obtain ⟨fuel, rfl⟩ := Nat.exists_eq_succ_of_ne_zero (Nat.zero_lt_of_lt hfuel).ne'
    obtain ⟨hin₀, hin'⟩ := List.forall_mem_cons.mp hin
    obtain ⟨hrange₀, hrange'⟩ := List.forall_mem_cons.mp hrange
    rw [List.flatMap_cons, List.map_append, List.pairwise_append] at hs
    obtain ⟨hs₀, hs', hlt⟩ := hs
    have hne : lf.pid ≠ invalidPageId := by
      intro h
      rw [h] at hrange₀
      exact absurd hrange₀.1 (by decide)
    rw [firstPid, scanLeafLoop, if_neg hne, bind_ok (PageMap.fetchPage_ok hrange₀ (hf _))]
    dsimp only
    rw [bind_ok (PageMap.readData_pin hin₀)]
    dsimp only
    rw [scan_eq hs₀]
    dsimp only
    rw [bind_ok (PageMap.unpin_pin hwf (hf _)), List.flatMap_cons, ridsIn_append]
    split
    case isTrue hdone =>
      obtain ⟨e, he, hhigh⟩ := List.any_eq_true.mp hdone
      have hnil : ridsIn low high (ls.flatMap (·.entries)) = [] := by
        apply ridsIn_eq_nil
        intro b hb
        have := hlt _ (List.mem_map_of_mem he) _ (List.mem_map_of_mem hb)
        exact .inr ((of_decide_eq_true hhigh).trans this)
      rw [hnil, List.append_nil]
      rfl
    case isFalse =>
      rw [hl.1, ih hin' hrange' hl.2 hs' (Nat.lt_of_succ_lt_succ hfuel), List.append_assoc]

/-! ## The whole scan -/

theorem length_leaves_le (tr : PageTree d) : tr.leaves.length ≤ tr.pages.length := by
  induction d with
  | zero => exact le_rfl
  | succ d ih =>
    have hrow (r : SepList Int (PageTree d)) :
        (r.flat leaves fun _ => []).length ≤ (r.flat pages fun _ => []).length := by
      induction r with
      | one c => exact ih c
      | cons c k r ihr =>
        simp only [SepList.flat, List.length_append]
        have := ih c
        omega
    rw [leaves_succ, pages_succ, List.length_cons]
    exact (hrow _).trans (Nat.le_succ _)

theorem rangeScan_tree (hwf : m.WF) (hfree : m.free ≠ 0) {tr : PageTree d} (hr : Rooted index m tr)
    (hsh : Shaped index tr) (hs : (tr.entries.map (·.key)).Pairwise (· < ·)) (results : List RID) :
    rangeScan PageMap.store index low high results m = .ok (results ++ ridsIn low high tr.entries) m := by
  obtain ⟨l, r, hleaves, hl⟩ := leaves_around low tr hr.stored.ordered
  have hmem : ∀ lf ∈ leafOf low tr :: r, lf ∈ tr.leaves := by
    intro lf hlf
    rw [hleaves]
    exact List.mem_append_right _ hlf
  have hlinked : Linked invalidPageId (leafOf low tr :: r) := by
    have hall := hsh.linked
    rw [hleaves, linked_append] at hall
    exact hall.2
  have hentries : tr.entries = l.flatMap (·.entries) ++ (leafOf low tr :: r).flatMap (·.entries) := by
    rw [entries, hleaves, List.flatMap_append]
  have hsmall : ridsIn low high (l.flatMap (·.entries)) = [] := by
    apply ridsIn_eq_nil
    intro e he
    obtain ⟨lf, hlf, he⟩ := List.mem_flatMap.mp he
    exact .inl (hl lf hlf e he)
  have hsorted : (((leafOf low tr :: r).flatMap (·.entries)).map (·.key)).Pairwise (· < ·) := by
    rw [hentries, List.map_append, List.pairwise_append] at hs
    exact hs.2.1
  have hfuel : (leafOf low tr :: r).length < m.numPages + 1 := by
    have hle := (length_leaves_le tr).trans hr.stored.length_pages_le
    rw [hleaves, List.length_append] at hle
    omega
  rw [rangeScan, if_neg hr.root_ne, bind_ok (rfl : PageMap.store.numPages m = .ok m.numPages m), hr.root_eq,
    bind_ok (findLeafLoop_ok hwf hfree tr _ hr.stored hr.stored.depth_lt)]
  rw [hentries, ridsIn_append, hsmall, List.nil_append]
  exact scanLeafLoop_ok hwf hfree (fun lf hlf => in_leaves hr.stored.held lf (hmem lf hlf))
    (fun lf hlf => hr.stored.allocated _ (leaf_pid_mem lf (hmem lf hlf))) hlinked hsorted hfuel

theorem free_ne_zero {ops : List (Int × RID)} (hops : ops ≠ []) (hroot : index.rootPageId = invalidPageId)
    {index' : BPlusTree} {m' : PageMap TreePage} (hrun : insertAll PageMap.store index ops m = .ok index' m') :
    m.free ≠ 0 := by
  intro hfree
  cases ops with
  | nil => exact hops rfl
  | cons op ops =>
    rw [insertAll, bind_error (insert_first_none hroot hfree)] at hrun
    cases hrun

theorem pairwise_insertedEntries (ops : List (Int × RID)) {es : List LeafEntry}
    (hs : (es.map (·.key)).Pairwise (· < ·)) : ((insertedEntries ops es).map (·.key)).Pairwise (· < ·) := by
  induction ops generalizing es with
  | nil => exact hs
  | cons op ops ih => exact ih (pairwise_upsert hs)

theorem rangeScan_indexes (hwf : m.WF) {es : List LeafEntry} (h : Indexes index m es)
    (hfree : index.rootPageId ≠ invalidPageId → m.free ≠ 0) (hs : (es.map (·.key)).Pairwise (· < ·))
    (results : List RID) :
    rangeScan PageMap.store index low high results m = .ok (results ++ ridsIn low high es) m := by
  cases h with
  | empty hroot =>
    rw [rangeScan, if_pos hroot]
    exact congrArg (EStateM.Result.ok · m) (List.append_nil _).symm
  | tree tr hr hsh => exact rangeScan_tree hwf (hfree hr.root_ne) hr hsh hs results

def keysIn (low high : Int) (es : List LeafEntry) : List Int :=
  (es.filter fun e => low ≤ e.key ∧ e.key ≤ high).map (·.key)

theorem pairwise_keysIn {es : List LeafEntry} (hs : (es.map (·.key)).Pairwise (· < ·)) :
    (keysIn low high es).Pairwise (· < ·) :=
  hs.sublist (List.filter_sublist.map _)

theorem find_of_mem {es : List LeafEntry} (hs : (es.map (·.key)).Pairwise (· < ·)) {e : LeafEntry}
    (he : e ∈ es) : es.find? (fun b => b.key = e.key) = some e := by
  have hsome : (es.find? fun b => b.key = e.key).isSome :=
    List.find?_isSome.mpr ⟨e, he, decide_eq_true (rfl : e.key = e.key)⟩
  obtain ⟨b, hb⟩ := Option.isSome_iff_exists.mp hsome
  have hkey : b.key = e.key := by simpa using List.find?_some hb
  have hinj := List.inj_on_of_nodup_map (hs.imp fun h => h.ne)
  rw [hb, hinj (List.mem_of_find?_eq_some hb) he hkey]

theorem ridsIn_eq {es : List LeafEntry} {f : Int → Option RID} (hs : (es.map (·.key)).Pairwise (· < ·))
    (hf : ∀ k, (es.find? fun b => b.key = k).map (·.rid) = f k) :
    ridsIn low high es = (keysIn low high es).filterMap f := by
  rw [ridsIn, keysIn, List.filterMap_map, ← List.filterMap_eq_map]
  apply List.filterMap_congr
  intro e he
  show some e.rid = f e.key
  rw [← hf, find_of_mem hs (List.mem_of_mem_filter he), Option.map_some]

theorem mem_keysIn {es : List LeafEntry} {f : Int → Option RID}
    (hf : ∀ k, (es.find? fun b => b.key = k).map (·.rid) = f k) (k : Int) :
    k ∈ keysIn low high es ↔ low ≤ k ∧ k ≤ high ∧ f k ≠ none := by
  have hfound : f k ≠ none ↔ ∃ e ∈ es, e.key = k := by
    rw [← hf, ne_eq, Option.map_eq_none_iff, ← ne_eq, Option.ne_none_iff_isSome, List.find?_isSome]
    simp only [decide_eq_true_eq]
  simp only [keysIn, List.mem_map, List.mem_filter, decide_eq_true_eq, hfound]
  constructor
  · rintro ⟨e, ⟨he, h1, h2⟩, rfl⟩
    exact ⟨h1, h2, e, he, rfl⟩
  · rintro ⟨h1, h2, e, he, rfl⟩
    exact ⟨e, ⟨he, h1, h2⟩, rfl⟩

theorem rangeScan_insertAll {n : Nat} {s s' : BufferPool TreePage n} (hs : Holds s m)
    (hroot : index.rootPageId = invalidPageId) {ops : List (Int × RID)} {index' : BPlusTree}
    (hrun : insertAll BufferPool.store index ops s = .ok index' s') (low high : Int) (results : List RID) :
    ∃ (keys : List Int) (s'' : BufferPool TreePage n), rangeScan BufferPool.store index' low high results s' =
        .ok (results ++ keys.filterMap (insertedMap ops)) s'' ∧
      keys.Pairwise (· < ·) ∧
      ∀ k, k ∈ keys ↔ low ≤ k ∧ k ≤ high ∧ insertedMap ops k ≠ none := by
  obtain ⟨m', hm, hs'⟩ := insertAll_pool hs hroot hrun
  obtain ⟨hk, -, hidx⟩ := insertAll_indexes hs.wf (.empty hroot) hm
  have hfree : index'.rootPageId ≠ invalidPageId → m'.free ≠ 0 := by
    intro hne
    rw [hk.free_eq]
    apply free_ne_zero _ hroot hm
    rintro rfl
    cases hm
    exact hne hroot
  have hsorted : ((insertedEntries ops []).map (·.key)).Pairwise (· < ·) :=
    pairwise_insertedEntries ops List.Pairwise.nil
  have hfind : ∀ k, ((insertedEntries ops []).find? fun b => b.key = k).map (·.rid) = insertedMap ops k :=
    find_insertedEntries ops List.Pairwise.nil fun _ => rfl
  have hscan : rangeScan PageMap.store index' low high results m' =
      .ok (results ++ ridsIn low high (insertedEntries ops [])) m' :=
    rangeScan_indexes hk.wf hidx hfree hsorted results
  obtain ⟨_, s'', hpool, rfl, -⟩ := (rangeScan_refines _ low high results).ok (live_nil.mpr hs') hscan
  rw [ridsIn_eq hsorted hfind] at hpool
  exact ⟨_, s'', hpool, pairwise_keysIn hsorted, mem_keysIn hfind⟩

theorem rangeScan_insertAll_smallNodes :
    ∃ index' s', insertAll BufferPool.store ⟨invalidPageId, 2, 3, le_rfl, le_rfl⟩
        [(5, ⟨0, 0⟩), (3, ⟨0, 1⟩), (9, ⟨0, 2⟩), (3, ⟨7, 7⟩)]
        (BufferPool.init 2 ⟨0, fun _ => 0⟩ : BufferPool TreePage 2) = .ok index' s' ∧
      ∃ (keys : List Int) (s'' : BufferPool TreePage 2), rangeScan BufferPool.store index' 4 9 [] s' =
          .ok ([] ++ keys.filterMap
            (insertedMap [(5, ⟨0, 0⟩), (3, ⟨0, 1⟩), (9, ⟨0, 2⟩), (3, ⟨7, 7⟩)])) s'' ∧
        keys.Pairwise (· < ·) ∧
        ∀ k, k ∈ keys ↔ 4 ≤ k ∧ k ≤ 9 ∧
          insertedMap [(5, ⟨0, 0⟩), (3, ⟨0, 1⟩), (9, ⟨0, 2⟩), (3, ⟨7, 7⟩)] k ≠ none := by
  have hs := holds_init (n := 2) (D := TreePage) ⟨0, fun _ => 0⟩
  have hpool : ∃ index' s', insertAll BufferPool.store ⟨invalidPageId, 2, 3, le_rfl, le_rfl⟩
      [(5, ⟨0, 0⟩), (3, ⟨0, 1⟩), (9, ⟨0, 2⟩), (3, ⟨7, 7⟩)] (BufferPool.init 2 ⟨0, fun _ => 0⟩) =
        .ok index' s' := insertAll_pool_returns hs (by decide) rfl (by decide) (by decide) _
  obtain ⟨index', s', hrun⟩ := hpool
  exact ⟨index', s', hrun, rangeScan_insertAll hs rfl hrun 4 9 []⟩

end MyDB.Storage

import MyDB.Storage.SearchTreeInsert

/-! The pages of an index hold a tree, and the code on the abstract page store
computes on the pages what `PageTree.insert` computes on the tree. -/

namespace MyDB.Storage
open Lib PageTree

variable {d : Nat}

/-- The entry of an internal page for a child and the separator on its left. -/
def childEntry (x : Int × PageTree d) : InternalEntry := ⟨x.1, x.2.pid⟩

def InnerNode.data (nd : InnerNode (PageTree d)) : List InternalEntry := (nd.row.pairs 0).map childEntry

/-- The pages `c` hold the tree. -/
def PageTree.In (c : PageId → TreePage) : {d : Nat} → PageTree d → Prop
  | 0, lf => c (LeafNode.pid lf) = .leaf (LeafNode.entries lf) (LeafNode.next lf)
  | d + 1, nd => c (InnerNode.pid nd) = .internal (InnerNode.data nd) ∧
      ∀ x ∈ (InnerNode.row nd).items, In c (d := d) x

theorem PageTree.in_zero {c : PageId → TreePage} {lf : LeafNode} :
    In c (d := 0) lf ↔ c lf.pid = .leaf lf.entries lf.next := Iff.rfl

theorem PageTree.in_succ {c : PageId → TreePage} {nd : InnerNode (PageTree d)} :
    In c (d := d + 1) nd ↔ c nd.pid = .internal nd.data ∧ ∀ x ∈ nd.row.items, x.In c := Iff.rfl

theorem pages_child_subset {nd : InnerNode (PageTree d)} {x : PageTree d} (hx : x ∈ nd.row.items) :
    x.pages ⊆ nd.row.flat pages fun _ => [] := (SepList.infix_flat pages _ hx).subset

theorem PageTree.In.congr {c c' : PageId → TreePage} {tr : PageTree d} (h : tr.In c)
    (hc : ∀ p ∈ tr.pages, c' p = c p) : tr.In c' := by
  revert h hc
  refine PageTree.induction (motive := fun tr => tr.In c → (∀ p ∈ tr.pages, c' p = c p) → tr.In c')
    ?leaf ?inner tr
  case leaf =>
    intro lf h hc
    exact (hc _ (List.mem_singleton_self _)).trans h
  case inner =>
    intro d nd ih h hc
    obtain ⟨h1, h2⟩ := in_succ.mp h
    refine in_succ.mpr ⟨(hc _ List.mem_cons_self).trans h1, fun x hx => ?_⟩
    exact ih x hx (h2 x hx) fun p hp => hc p (List.mem_cons_of_mem _ (pages_child_subset hx hp))

theorem pid_mem_pages (tr : PageTree d) : tr.pid ∈ tr.pages := by
  cases d <;> exact List.mem_cons_self

/-! ## Single pages -/

theorem insertIdx_length_append {α : Type} (l r : List α) (a : α) :
    (l ++ r).insertIdx l.length a = l ++ a :: r := by
  induction l with
  | nil => rfl
  | cons b l ih => rw [List.cons_append, List.length_cons, List.insertIdx_succ_cons, ih, List.cons_append]

theorem insertIdx_insertPos {α : Type} (keyOf : α → Int) (start : Nat) {l r : List α} {a : α}
    (hstart : start ≤ l.length) (hl : ∀ b ∈ l.drop start, keyOf b ≤ keyOf a)
    (hr : ∀ b ∈ r, keyOf a < keyOf b) :
    (l ++ r).insertIdx (insertPos ((l ++ r).map keyOf) start (keyOf a)) a = l ++ a :: r := by
  have hpos : insertPos ((l ++ r).map keyOf) start (keyOf a) = l.length := by
    have hdrop : ((l ++ r).map keyOf).drop start = (l.drop start).map keyOf ++ r.map keyOf := by
      rw [← List.map_drop, List.drop_append_of_le_length hstart, List.map_append]
    have hnone : ((l.drop start).map keyOf).findIdx? (fun k => keyOf a < k) = none := by
      refine List.findIdx?_eq_none_iff.mpr fun k hk => ?_
      obtain ⟨b, hb, rfl⟩ := List.mem_map.mp hk
      exact decide_eq_false (not_lt.mpr (hl b hb))
    unfold insertPos
    rw [hdrop, List.findIdx?_append, hnone]
    cases r with
    | nil => simp
    | cons b r =>
      have hb := hr b List.mem_cons_self
      simp only [List.map_cons, List.findIdx?_cons, hb, decide_true, if_true, Option.map_some,
        Option.none_or, List.length_map, List.length_drop]
      omega
  rw [hpos, insertIdx_length_append]

theorem LeafNode.insertIdx_eq {lf : LeafNode} {e : LeafEntry} (h : ¬ lf.Has e.key)
    (hs : (lf.entries.map (·.key)).Pairwise (· < ·)) :
    lf.entries.insertIdx (insertPos (lf.entries.map (·.key)) 0 e.key) e = (lf.upsert e).entries := by
  obtain ⟨l, r, hlr, hup, hl, hr⟩ := upsert_of_absent (a := e) hs fun b hb hk => h ⟨b, hb, hk⟩
  rw [upsert, hup, hlr]
  exact insertIdx_insertPos (·.key) 0 (Nat.zero_le _) (fun b hb => (hl b hb).le) hr

theorem LeafNode.search_eq {lf : LeafNode} (hs : (lf.entries.map (·.key)).Pairwise (· < ·)) (k : Int) :
    BPlusTreeLeafPage.search lf.entries k =
      (lf.entries.find? fun b => b.key = k).map (·.rid) := by
  have hget (i : Nat) (hi : i < lf.entries.length) : lf.entries.getD i default = lf.entries[i] :=
    List.getD_eq_getElem _ _ hi
  have hmono (i j : Nat) (hij : i ≤ j) (hj : j < lf.entries.length) :
      (lf.entries.getD i default).key ≤ (lf.entries.getD j default).key := by
    rw [hget i (by omega), hget j hj]
    rcases hij.eq_or_lt with rfl | hij
    · exact le_rfl
    · exact (List.pairwise_iff_getElem.mp (List.pairwise_map.mp hs) i j (by omega) hj hij).le
  unfold BPlusTreeLeafPage.search
  cases hf : bisectFind (fun i => compare (lf.entries.getD i default).key k) lf.entries.length 0
      (lf.entries.length - 1) with
  | some i =>
    obtain ⟨heq, -, hi⟩ := bisectFind_some _ _ hf le_rfl
    have hi : i < lf.entries.length := by omega
    have hk : (lf.entries.getD i default).key = k := compare_eq_iff_eq.mp heq
    rw [hget i hi] at hk
    have hfind : lf.entries.find? (fun b => b.key = k) = some lf.entries[i] := by
      refine List.find?_eq_some_iff_getElem.mpr ⟨decide_eq_true hk, i, hi, rfl, fun j hj => ?_⟩
      have := List.pairwise_iff_getElem.mp (List.pairwise_map.mp hs) j i (by omega) hi hj
      simp only [Bool.not_eq_true', decide_eq_false_iff_not]
      omega
    simp only [hfind, hget i hi, Option.map_some]
  | none =>
    have hne := bisectFind_none _ _ hf (by omega) le_rfl ?_ ?_
    · have hfind : lf.entries.find? (fun b => b.key = k) = none := by
        refine List.find?_eq_none.mpr fun b hb => ?_
        obtain ⟨i, hi, rfl⟩ := List.getElem_of_mem hb
        have := hne i (Int.natCast_nonneg i) (by omega)
        rw [hget i hi] at this
        simpa [compare_eq_iff_eq] using this
      rw [hfind]
      rfl
    · intro i j hij hj hlt
      have := hmono i j hij (by omega)
      rw [compare_lt_iff_lt] at hlt ⊢
      omega
    · intro i j hij hj hgt
      have := hmono i j hij (by omega)
      rw [compare_gt_iff_gt] at hgt ⊢
      omega

theorem InnerNode.data_around (k : Int) (nd : InnerNode (PageTree d)) :
    ∃ (l r : List InternalEntry) (k₁ : Int),
      nd.data = l ++ childEntry (k₁, nd.row.child k) :: r ∧
      (∀ x, (nd.replace k x).data = l ++ ((x.pairs k₁).map childEntry ++ r)) ∧
      (∀ b ∈ (l ++ [childEntry (k₁, nd.row.child k)]).drop 1,
        2 * b.key ∈ SepList.left marks (fun s => [2 * s]) k nd.row) ∧
      ∀ b ∈ r, 2 * b.key ∈ SepList.right marks (fun s => [2 * s]) k nd.row := by
  obtain ⟨l, k₁, r, h1, h2, h3, h4⟩ := SepList.pairs_replace 0 k nd.row
  refine ⟨l.map childEntry, r.map childEntry, k₁, ?_, ?_, ?_, ?_⟩
  · rw [data, h1, List.map_append, List.map_cons]
  · intro x
    rw [data, replace, h2, List.map_append, List.map_append]
  · intro b hb
    have hkeys : (l.map childEntry ++ [childEntry (k₁, nd.row.child k)]).map (·.key) =
        0 :: SepList.left (fun _ => []) (fun s => [s]) k nd.row := by
      rw [← h3]
      simp [childEntry, Function.comp_def]
    have hmem : b.key ∈ SepList.left (fun _ => []) (fun s => [s]) k nd.row := by
      have := List.mem_map_of_mem (f := (·.key)) hb
      rwa [List.map_drop, hkeys] at this
    exact SepList.mem_left.mpr (Or.inr ⟨_, hmem, List.mem_singleton_self _⟩)
  · intro b hb
    obtain ⟨x, hx, rfl⟩ := List.mem_map.mp hb
    have hmem : x.1 ∈ SepList.right (fun _ => []) (fun s => [s]) k nd.row :=
      h4 ▸ List.mem_map_of_mem hx
    exact SepList.mem_right.mpr (Or.inr ⟨_, hmem, List.mem_singleton_self _⟩)

theorem lookup_append {l r : List InternalEntry} {x : InternalEntry} {k : Int}
    (hl : ∀ b ∈ (l ++ [x]).drop 1, b.key ≤ k) (hr : ∀ b ∈ r, k < b.key) :
    BPlusTreeInternalPage.lookup (l ++ x :: r) k = x.child := by
  have hidx : BPlusTreeInternalPage.lookupIdx (l ++ x :: r) k = l.length := by
    unfold BPlusTreeInternalPage.lookupIdx
    have hlen : (l ++ x :: r).length = l.length + 1 + r.length := by
      rw [List.length_append, List.length_cons]
      omega
    refine bisectLast_eq _ _ _ (by omega) (by omega) (by omega) ⟨by omega, by omega⟩ (by omega) ?_ ?_
    · intro i hi1 hi2
      have hi : i < (l ++ [x]).length := by
        rw [List.length_append, List.length_singleton]
        omega
      have hmem : (l ++ [x])[i] ∈ (l ++ [x]).drop 1 :=
        List.mem_drop_iff_getElem.mpr ⟨i - 1, by omega, by congr 1; omega⟩
      have hget : (l ++ x :: r).getD i default = (l ++ [x])[i] := by
        rw [List.append_cons, List.getD_append _ _ _ _ hi, List.getD_eq_getElem _ _ hi]
      rw [hget]
      exact decide_eq_true (hl _ hmem)
    · intro i hi1 hi2
      have hi : i - (l ++ [x]).length < r.length := by
        rw [List.length_append, List.length_singleton]
        omega
      have hget : (l ++ x :: r).getD i default = r[i - (l ++ [x]).length] := by
        rw [List.append_cons, List.getD_append_right _ _ _ _ (by
          rw [List.length_append, List.length_singleton]; omega), List.getD_eq_getElem _ _ hi]
      rw [hget]
      exact decide_eq_false (not_le.mpr (hr _ (List.getElem_mem hi)))
  rw [BPlusTreeInternalPage.lookup, hidx, List.getD_append_right _ _ _ _ le_rfl, Nat.sub_self,
    List.getD_cons_zero]

theorem InnerNode.lookup_eq (k : Int) {nd : InnerNode (PageTree d)} (h : Ordered (d := d + 1) nd) :
    BPlusTreeInternalPage.lookup nd.data k = (nd.row.child k).pid := by
  obtain ⟨l, r, k₁, hdata, -, hl, hr⟩ := data_around k nd
  obtain ⟨hleft, hright⟩ := marks_around k h
  rw [hdata]
  refine lookup_append ?_ ?_
  · intro b hb
    have := hleft _ (hl b hb)
    omega
  · intro b hb
    have := hright _ (hr b hb)
    omega

theorem InnerNode.insertIdx_eq {k : Int} {nd : InnerNode (PageTree d)} {l r : PageTree d} {s : Int}
    (hpid : l.pid = (nd.row.child k).pid)
    (hl : ∀ y ∈ SepList.left marks (fun s => [2 * s]) k nd.row, y < 2 * s)
    (hr : ∀ y ∈ SepList.right marks (fun s => [2 * s]) k nd.row, 2 * s < y) :
    nd.data.insertIdx (insertPos (nd.data.map (·.key)) 1 s) ⟨s, r.pid⟩ =
      (nd.replace k (.cons l s (.one r))).data := by
  obtain ⟨a, b, k₁, hdata, hrep, ha, hb⟩ := data_around k nd
  rw [hrep, hdata, List.append_cons]
  refine (insertIdx_insertPos (a := (⟨s, r.pid⟩ : InternalEntry)) (·.key) 1 ?_ ?_ ?_).trans ?_
  · simp
  · intro x hx
    have := hl _ (ha x hx)
    change x.key ≤ s
    omega
  · intro x hx
    have := hr _ (hb x hx)
    change s < x.key
    omega
  · simp [SepList.pairs, childEntry, hpid]

theorem InnerNode.length_data (nd : InnerNode (PageTree d)) : nd.data.length = nd.row.size := by
  rw [data, List.length_map, SepList.length_pairs]

theorem InnerNode.data_replace_one {k : Int} {nd : InnerNode (PageTree d)} {c : PageTree d}
    (hpid : c.pid = (nd.row.child k).pid) : (nd.replace k (.one c)).data = nd.data := by
  obtain ⟨a, b, k₁, hdata, hrep, -, -⟩ := data_around k nd
  rw [hrep, hdata]
  simp [SepList.pairs, childEntry, hpid]

theorem take_getD_drop {α : Type} [Inhabited α] {l a c : List α} {b : α} {i : Nat}
    (h : l = a ++ b :: c) (hi : a.length = i) :
    l.take i = a ∧ l.getD i default = b ∧ l.drop (i + 1) = c := by
  subst hi
  refine ⟨?_, ?_, ?_⟩
  · rw [h, List.take_left]
  · rw [h, List.getD_append_right _ _ _ _ le_rfl, Nat.sub_self, List.getD_cons_zero]
  · rw [h, List.append_cons, List.drop_left' (by simp)]

theorem InnerNode.data_split (nd : InnerNode (PageTree d)) (h : 2 ≤ nd.row.size) (np : PageId) :
    nd.data.take (nd.row.size / 2) = data ⟨nd.pid, nd.row.take (nd.row.size / 2 - 1)⟩ ∧
      nd.data.getD (nd.row.size / 2) default =
        ⟨nd.row.sepAt (nd.row.size / 2 - 1), (nd.row.drop (nd.row.size / 2 - 1)).head.pid⟩ ∧
      ⟨0, (nd.data.getD (nd.row.size / 2) default).child⟩ :: nd.data.drop (nd.row.size / 2 + 1) =
        data ⟨np, nd.row.drop (nd.row.size / 2 - 1)⟩ := by
  have happ := SepList.append_take_drop nd.row (nd.row.size / 2 - 1) (by omega)
  obtain ⟨rest, hrest⟩ := (nd.row.drop (nd.row.size / 2 - 1)).pairs_head
  have hleft : (data ⟨nd.pid, nd.row.take (nd.row.size / 2 - 1)⟩).length = nd.row.size / 2 := by
    rw [length_data, SepList.size_take _ _ (by omega)]
    omega
  have hdata : nd.data = data ⟨nd.pid, nd.row.take (nd.row.size / 2 - 1)⟩ ++
      childEntry (nd.row.sepAt (nd.row.size / 2 - 1), (nd.row.drop (nd.row.size / 2 - 1)).head) ::
        rest.map childEntry := by
    have hpairs := SepList.pairs_append 0 (nd.row.take (nd.row.size / 2 - 1))
      (nd.row.sepAt (nd.row.size / 2 - 1)) (nd.row.drop (nd.row.size / 2 - 1))
    rw [happ, hrest] at hpairs
    rw [data, hpairs, List.map_append, List.map_cons, data]
  obtain ⟨h1, h2, h3⟩ := take_getD_drop hdata hleft
  refine ⟨h1, h2, ?_⟩
  rw [h2, h3, data, hrest]
  rfl

end MyDB.Storage

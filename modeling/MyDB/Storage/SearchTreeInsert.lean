import MyDB.Storage.SearchTree

/-! What an insertion that comes to its end does to the tree. It keeps the
order, puts the entry into the map that the leaves hold, keeps the chain of the
leaves and the bounds on the sizes of nodes, and uses each page once. -/

namespace MyDB.Storage
open Lib

namespace PageTree
variable {d : Nat}

def marksOf (x : SepList Int (PageTree d)) : List Int := x.flat marks fun s => [2 * s]

def leavesOf (x : SepList Int (PageTree d)) : List LeafNode := x.flat leaves fun _ => []

def entriesOf (x : SepList Int (PageTree d)) : List LeafEntry := (leavesOf x).flatMap (·.entries)

def pagesOf (x : SepList Int (PageTree d)) : List PageId := x.flat pages fun _ => []

end PageTree

open PageTree

variable {index : BPlusTree} {fr : Frames} {e : LeafEntry} {d : Nat}

theorem LeafNode.keys_sorted {lf : LeafNode} (h : PageTree.Ordered (d := 0) lf) :
    (lf.entries.map (·.key)).Pairwise (· < ·) := by
  rw [ordered_zero, List.pairwise_map] at h
  rw [List.pairwise_map]
  exact h.imp fun hab => by omega

theorem LeafNode.ordered_of_keys {lf : LeafNode} (h : (lf.entries.map (·.key)).Pairwise (· < ·)) :
    PageTree.Ordered (d := 0) lf := by
  rw [List.pairwise_map] at h
  rw [ordered_zero, List.pairwise_map]
  exact h.imp fun hab => by omega

theorem InnerNode.flat_split {α β : Type} (g : α → List β) (h : Int → List β) {nd : InnerNode α}
    (hsize : 2 ≤ nd.row.size) (np : Nat) :
    (nd.split np).flat (fun nd => nd.row.flat g h) h = nd.row.flat g h := by
  have happ := SepList.append_take_drop nd.row (nd.row.size / 2 - 1) (by omega)
  calc (nd.split np).flat (fun nd => nd.row.flat g h) h
      = ((nd.row.take (nd.row.size / 2 - 1)).append (nd.row.sepAt (nd.row.size / 2 - 1))
          (nd.row.drop (nd.row.size / 2 - 1))).flat g h := (SepList.flat_append g h _ _ _).symm
    _ = nd.row.flat g h := by rw [happ]

theorem InnerNode.flat_absorb {α β : Type} (g : α → List β) (h : Int → List β) {nd : InnerNode α}
    {y : SepList Int α} {np np' : Nat} {x : SepList Int (InnerNode α)}
    (hx : nd.absorb index fr e.key (y, np) = .ok (x, np')) :
    x.flat (fun nd => nd.row.flat g h) h = (nd.row.replace e.key y).flat g h := by
  rcases absorb_ok hx with ⟨rfl, -, -⟩ | ⟨rfl, -, hsize, -⟩
  · rfl
  · have := index.three_le_internal
    exact flat_split g h (by omega) np

/-! ## Order -/

theorem ordered_child {nd : InnerNode (PageTree d)} (h : Ordered (d := d + 1) nd) {c : PageTree d}
    (hc : c ∈ nd.row.items) : c.Ordered :=
  List.Pairwise.sublist (SepList.infix_flat marks _ hc).sublist h

theorem marks_around (k : Int) {nd : InnerNode (PageTree d)} (h : Ordered (d := d + 1) nd) :
    (∀ y ∈ SepList.left marks (fun s => [2 * s]) k nd.row, y < 2 * k + 1) ∧
      ∀ y ∈ SepList.right marks (fun s => [2 * s]) k nd.row, 2 * k + 1 < y := by
  refine SepList.left_lt_right (c := fun s => 2 * s) ?_ ?_ h
  · intro s hs
    change 2 * k + 1 < 2 * s
    omega
  · intro s hs
    change 2 * s < 2 * k + 1
    omega

theorem marks_replace {k : Int} {nd : InnerNode (PageTree d)} (h : Ordered (d := d + 1) nd)
    {y : SepList Int (PageTree d)} (hy : (marksOf y).Pairwise (· < ·))
    (hbet : ∀ x ∈ marksOf y, Between ((2 * k + 1) :: (nd.row.child k).marks) x) :
    (SepList.left marks (fun s => [2 * s]) k nd.row ++
      (marksOf y ++ SepList.right marks (fun s => [2 * s]) k nd.row)).Pairwise (· < ·) := by
  obtain ⟨hl, hr⟩ := marks_around k h
  rw [ordered_succ, SepList.flat_child marks _ k nd.row] at h
  exact pairwise_splice h hl hr hy hbet

theorem LeafNode.ordered_split {lf : LeafNode} (h : PageTree.Ordered (d := 0) lf)
    (hlen : 2 ≤ lf.entries.length) (np : Nat) :
    (marksOf (d := 0) (lf.split np)).Pairwise (· < ·) ∧
      ∀ y ∈ marksOf (d := 0) (lf.split np), Between (marks (d := 0) lf) y := by
  set mid := lf.entries.length / 2 with hmid
  have hlt : mid < lf.entries.length := by omega
  have hsep : lf.entries.getD mid default = lf.entries[mid] := List.getD_eq_getElem _ _ hlt
  have hdrop : lf.entries.drop mid = lf.entries[mid] :: lf.entries.drop (mid + 1) :=
    List.drop_eq_getElem_cons hlt
  have hmarks : marksOf (d := 0) (lf.split np) =
      (lf.entries.take mid).map (fun b => 2 * b.key + 1) ++ (2 * lf.entries[mid].key ::
        (lf.entries.drop mid).map fun b => 2 * b.key + 1) := by
    simp only [marksOf, split, SepList.flat, marks_zero, ← hmid, hsep, List.singleton_append]
  have hkeys := keys_sorted h
  rw [List.pairwise_map, ← List.take_append_drop mid lf.entries, List.pairwise_append] at hkeys
  obtain ⟨htake, hrest, hcross⟩ := hkeys
  have hmem : lf.entries[mid] ∈ lf.entries.drop mid := by rw [hdrop]; exact List.mem_cons_self
  have hge : ∀ b ∈ lf.entries.drop mid, lf.entries[mid].key ≤ b.key := by
    intro b hb
    rw [hdrop] at hrest hb
    rcases List.mem_cons.mp hb with rfl | hb
    · exact le_rfl
    · exact ((List.pairwise_cons.mp hrest).1 b hb).le
  rw [hmarks]
  constructor
  · refine List.pairwise_append.mpr ⟨?_, List.pairwise_cons.mpr ⟨?_, ?_⟩, ?_⟩
    · exact List.pairwise_map.mpr (htake.imp fun hab => by omega)
    · intro y hy
      obtain ⟨b, hb, rfl⟩ := List.mem_map.mp hy
      have := hge b hb
      omega
    · exact List.pairwise_map.mpr (hrest.imp fun hab => by omega)
    · intro x hx y hy
      obtain ⟨a, ha, rfl⟩ := List.mem_map.mp hx
      rcases List.mem_cons.mp hy with rfl | hy
      · have := hcross a ha _ hmem
        omega
      · obtain ⟨b, hb, rfl⟩ := List.mem_map.mp hy
        have := hcross a ha b hb
        omega
  · intro y hy
    rw [marks_zero]
    rcases List.mem_append.mp hy with hy | hy
    · refine between_of_mem ?_
      obtain ⟨b, hb, rfl⟩ := List.mem_map.mp hy
      exact List.mem_map_of_mem (List.mem_of_mem_take hb)
    · rcases List.mem_cons.mp hy with rfl | hy
      · -- the separator lies above the first key of the leaf
        have hpos : 0 < lf.entries.length := by omega
        have hfirst : lf.entries[0] ∈ lf.entries.take mid :=
          List.mem_take_iff_getElem.mpr ⟨0, by omega, rfl⟩
        have := hcross _ hfirst _ hmem
        refine ⟨⟨2 * lf.entries[0].key + 1, ?_, by omega⟩, ⟨2 * lf.entries[mid].key + 1, ?_, by omega⟩⟩
        · exact List.mem_map_of_mem (List.getElem_mem hpos)
        · exact List.mem_map_of_mem (List.getElem_mem hlt)
      · refine between_of_mem ?_
        obtain ⟨b, hb, rfl⟩ := List.mem_map.mp hy
        exact List.mem_map_of_mem (List.mem_of_mem_drop hb)

theorem LeafNode.ordered_upsert {lf : LeafNode} (h : PageTree.Ordered (d := 0) lf) :
    PageTree.Ordered (d := 0) (lf.upsert e) := ordered_of_keys (pairwise_upsert (keys_sorted h))

theorem LeafNode.marks_upsert {lf : LeafNode} :
    marks (d := 0) (lf.upsert e) ⊆ (2 * e.key + 1) :: marks (d := 0) lf := by
  intro y hy
  obtain ⟨b, hb, rfl⟩ := List.mem_map.mp hy
  rcases mem_upsert hb with rfl | hb
  · exact List.mem_cons_self
  · exact List.mem_cons_of_mem _ (List.mem_map_of_mem hb)

theorem PageTree.insert_ordered {tr : PageTree d} {np np' : Nat} {x : SepList Int (PageTree d)}
    (h : tr.insert index fr e np = .ok (x, np')) : tr.Ordered →
    (marksOf x).Pairwise (· < ·) ∧ ∀ y ∈ marksOf x, Between ((2 * e.key + 1) :: tr.marks) y := by
  refine insert_induction (motive := fun tr _ x _ => tr.Ordered → (marksOf x).Pairwise (· < ·) ∧
    ∀ y ∈ marksOf x, Between ((2 * e.key + 1) :: tr.marks) y) ?leaf ?inner h
  case leaf =>
    intro lf np x np' h ho
    rcases LeafNode.insert_ok h with ⟨rfl, -, -⟩ | ⟨rfl, -, -, hlen, -⟩
    · exact ⟨LeafNode.ordered_upsert ho, fun y hy => between_of_mem (LeafNode.marks_upsert hy)⟩
    · have := index.two_le_leaf
      obtain ⟨h1, h2⟩ := LeafNode.ordered_split (LeafNode.ordered_upsert (e := e) ho) (by omega) np
      exact ⟨h1, fun y hy => (h2 y hy).mono LeafNode.marks_upsert⟩
  case inner =>
    intro d nd np y np₁ x np' ih hx ho
    have hmarks : marksOf (d := _ + 1) x = _ := InnerNode.flat_absorb marks (fun s => [2 * s]) hx
    obtain ⟨h1, h2⟩ := ih (ordered_child ho (SepList.child_mem _ _))
    rw [hmarks, SepList.flat_replace, marks_succ, SepList.flat_child marks _ e.key nd.row]
    exact ⟨marks_replace ho h1 h2, between_splice h2⟩

/-! ## Contents -/

theorem mark_of_mem_entries {tr : PageTree d} {b : LeafEntry} (h : b ∈ tr.entries) :
    2 * b.key + 1 ∈ tr.marks := by
  obtain ⟨lf, hlf, hb⟩ := List.mem_flatMap.mp h
  induction d with
  | zero =>
    obtain rfl := List.mem_singleton.mp hlf
    exact List.mem_map_of_mem hb
  | succ d ih =>
    rcases SepList.mem_flat.mp hlf with ⟨c, hc, hlf⟩ | ⟨s, -, hs⟩
    · exact SepList.mem_flat.mpr (Or.inl ⟨c, hc, ih (List.mem_flatMap.mpr ⟨lf, hlf, hb⟩) hlf⟩)
    · cases hs

theorem key_lt_of_left {k : Int} {nd : InnerNode (PageTree d)} (h : Ordered (d := d + 1) nd) {lf : LeafNode}
    (hlf : lf ∈ SepList.left leaves (fun _ => []) k nd.row) {b : LeafEntry} (hb : b ∈ lf.entries) : b.key < k := by
  rcases SepList.mem_left.mp hlf with ⟨c, hc, hlf⟩ | ⟨s, -, hs⟩
  · have := (marks_around k h).1 _ (SepList.mem_left.mpr
      (Or.inl ⟨c, hc, mark_of_mem_entries (List.mem_flatMap.mpr ⟨lf, hlf, hb⟩)⟩))
    omega
  · cases hs

theorem entries_around (k : Int) {nd : InnerNode (PageTree d)} (h : Ordered (d := d + 1) nd) :
    ∃ l r : List LeafEntry, entries (d := d + 1) nd = l ++ ((nd.row.child k).entries ++ r) ∧
      (∀ y, entriesOf (nd.row.replace k y) = l ++ (entriesOf y ++ r)) ∧
      (∀ b ∈ l, b.key < k) ∧ ∀ b ∈ r, k < b.key := by
  obtain ⟨-, hr⟩ := marks_around k h
  refine ⟨(SepList.left leaves (fun _ => []) k nd.row).flatMap (·.entries),
    (SepList.right leaves (fun _ => []) k nd.row).flatMap (·.entries), ?_, ?_, ?_, ?_⟩
  · rw [entries_succ, SepList.flat_child leaves _ k]
    simp only [List.flatMap_append, entries]
  · intro y
    rw [entriesOf, leavesOf, SepList.flat_replace]
    simp only [List.flatMap_append, entriesOf, leavesOf]
  · intro b hb
    obtain ⟨lf, hlf, hb⟩ := List.mem_flatMap.mp hb
    exact key_lt_of_left h hlf hb
  · intro b hb
    obtain ⟨lf, hlf, hb⟩ := List.mem_flatMap.mp hb
    rcases SepList.mem_right.mp hlf with ⟨c, hc, hlf⟩ | ⟨s, -, hs⟩
    · have := hr _ (SepList.mem_right.mpr
        (Or.inl ⟨c, hc, mark_of_mem_entries (List.mem_flatMap.mpr ⟨lf, hlf, hb⟩)⟩))
      omega
    · cases hs

theorem PageTree.insert_entries {tr : PageTree d} {np np' : Nat} {x : SepList Int (PageTree d)}
    (h : tr.insert index fr e np = .ok (x, np')) :
    tr.Ordered → entriesOf x = Lib.upsert (·.key) e tr.entries := by
  refine insert_induction (motive := fun tr _ x _ =>
    tr.Ordered → entriesOf x = Lib.upsert (·.key) e tr.entries) ?leaf ?inner h
  case leaf =>
    intro lf np x np' h ho
    rw [entries_zero]
    rcases LeafNode.insert_ok h with ⟨rfl, -, -⟩ | ⟨rfl, -, -, -, -⟩
    · exact List.append_nil _
    · simp only [entriesOf, leavesOf, LeafNode.split, SepList.flat, leaves_zero, List.nil_append,
        List.singleton_append, List.flatMap_cons, List.flatMap_nil, List.append_nil,
        List.take_append_drop]
      rfl
  case inner =>
    intro d nd np y np₁ x np' ih hx ho
    obtain ⟨l, r, hnd, hrep, hl, hr⟩ := entries_around e.key ho
    have hx' : entriesOf (d := d + 1) x = entriesOf (nd.row.replace e.key y) :=
      congrArg (List.flatMap _) (InnerNode.flat_absorb leaves (fun _ => []) hx)
    rw [hx', hrep, hnd, ih (ordered_child ho (SepList.child_mem _ _)), upsert_append _ hl hr]

theorem find_leafOf (k : Int) (tr : PageTree d) (h : tr.Ordered) :
    tr.entries.find? (fun b => b.key = k) = (leafOf k tr).entries.find? fun b => b.key = k := by
  induction d with
  | zero => exact congrArg (List.find? _) (entries_zero tr)
  | succ d ih =>
    obtain ⟨l, r, hnd, -, hl, hr⟩ := entries_around k h
    rw [hnd, List.find?_append, List.find?_append, find_eq_none_of_lt fun b hb => Or.inl (hl b hb),
      find_eq_none_of_lt fun b hb => Or.inr (hr b hb), Option.none_or, Option.or_none,
      ih _ (ordered_child h (SepList.child_mem _ _))]
    rfl

/-! ## The chain of the leaves -/

def firstPid (after : PageId) : List LeafNode → PageId
  | [] => after
  | lf :: _ => lf.pid

def Linked (after : PageId) : List LeafNode → Prop
  | [] => True
  | lf :: ls => lf.next = firstPid after ls ∧ Linked after ls

theorem firstPid_append (after : PageId) (l r : List LeafNode) :
    firstPid after (l ++ r) = firstPid (firstPid after r) l := by
  cases l <;> rfl

theorem linked_append {after : PageId} {l r : List LeafNode} :
    Linked after (l ++ r) ↔ Linked (firstPid after r) l ∧ Linked after r := by
  induction l with
  | nil => simp [Linked]
  | cons lf l ih => simp only [List.cons_append, Linked, ih, firstPid_append, and_assoc]

theorem PageTree.insert_linked {tr : PageTree d} {np np' : Nat} {x : SepList Int (PageTree d)}
    (h : tr.insert index fr e np = .ok (x, np')) : ∀ after, Linked after tr.leaves →
      Linked after (leavesOf x) ∧ firstPid after (leavesOf x) = firstPid after tr.leaves := by
  refine insert_induction (motive := fun tr _ x _ => ∀ after, Linked after tr.leaves →
    Linked after (leavesOf x) ∧ firstPid after (leavesOf x) = firstPid after tr.leaves) ?leaf ?inner h
  case leaf =>
    intro lf np x np' h after hl
    rcases LeafNode.insert_ok h with ⟨rfl, -, -⟩ | ⟨rfl, -, -, -, -⟩
    · exact ⟨hl, rfl⟩
    · exact ⟨⟨rfl, hl⟩, rfl⟩
  case inner =>
    intro d nd np y np₁ x np' ih hx after hl
    have hx' : leavesOf (d := d + 1) x = _ := InnerNode.flat_absorb leaves (fun _ => []) hx
    rw [leaves_succ, SepList.flat_child leaves _ e.key] at hl ⊢
    rw [hx', SepList.flat_replace]
    rw [linked_append, linked_append] at hl
    obtain ⟨h1, h2, h3⟩ := hl
    obtain ⟨h4, h5⟩ := ih _ h2
    rw [firstPid_append, ← h5] at h1
    simp only [linked_append, firstPid_append]
    exact ⟨⟨h1, h4, h3⟩, congrArg (firstPid · _) h5⟩

/-! ## Pages -/

def fresh (np np' : Nat) : List PageId := (List.range' np (np' - np)).map fun i : Nat => (i : PageId)

theorem fresh_self (np : Nat) : fresh np np = [] := by simp [fresh]

theorem fresh_succ {np np' : Nat} (h : np ≤ np') : fresh np (np' + 1) = fresh np np' ++ [(np' : PageId)] := by
  have hlen : np' + 1 - np = (np' - np) + 1 := by omega
  rw [fresh, hlen, List.range'_concat, List.map_append]
  congr 3
  simp only [one_mul, List.map_cons, List.map_nil, Nat.add_sub_cancel' h]

theorem mem_fresh {np np' : Nat} {p : PageId} : p ∈ fresh np np' ↔ (np : Int) ≤ p ∧ p < (np' : Int) := by
  simp only [fresh, List.mem_map, List.mem_range'_1]
  constructor
  · rintro ⟨i, ⟨h1, h2⟩, rfl⟩
    exact ⟨Int.ofNat_le.mpr h1, Int.ofNat_lt.mpr (by omega)⟩
  · rintro ⟨h1, h2⟩
    obtain ⟨i, rfl⟩ := Int.eq_ofNat_of_zero_le ((Int.natCast_nonneg np).trans h1)
    exact ⟨i, ⟨Int.ofNat_le.mp h1, by have := Int.ofNat_lt.mp h2; omega⟩, rfl⟩

theorem nodup_fresh (np np' : Nat) : (fresh np np').Nodup :=
  (List.nodup_range' ..).map fun _ _ h => Int.ofNat.inj h

theorem PageTree.insert_pages {tr : PageTree d} {np np' : Nat} {x : SepList Int (PageTree d)}
    (h : tr.insert index fr e np = .ok (x, np')) :
    np ≤ np' ∧ (pagesOf x).Perm (tr.pages ++ fresh np np') := by
  refine insert_induction (motive := fun tr np x np' =>
    np ≤ np' ∧ (pagesOf x).Perm (tr.pages ++ fresh np np')) ?leaf ?inner h
  case leaf =>
    intro lf np x np' h
    rcases LeafNode.insert_ok h with ⟨rfl, rfl, -⟩ | ⟨rfl, rfl, -, -, -⟩
    · exact ⟨le_rfl, by rw [fresh_self]; exact List.Perm.refl _⟩
    · refine ⟨by omega, ?_⟩
      rw [fresh_succ le_rfl, fresh_self]
      exact List.Perm.refl _
  case inner =>
    intro d nd np y np₁ x np' ih hx
    obtain ⟨hle, hperm⟩ := ih
    have hrow : ((nd.row.replace e.key y).flat pages fun _ => []).Perm
        (nd.row.flat pages (fun _ => []) ++ fresh np np₁) := by
      rw [SepList.flat_replace, SepList.flat_child pages _ e.key nd.row, List.append_assoc,
        List.append_assoc]
      refine List.Perm.append_left _ ((hperm.append_right _).trans ?_)
      rw [List.append_assoc]
      exact List.Perm.append_left _ List.perm_append_comm
    rcases InnerNode.absorb_ok hx with ⟨rfl, rfl, -⟩ | ⟨rfl, rfl, hsize, -⟩
    · exact ⟨hle, hrow.cons _⟩
    · have := index.three_le_internal
      refine ⟨by omega, ?_⟩
      have happ := SepList.append_take_drop (nd.replace e.key y).row
        ((nd.replace e.key y).row.size / 2 - 1) (by omega)
      have hsplit : (pagesOf (d := d + 1) ((nd.replace e.key y).split np₁)).Perm
          ((np₁ : PageId) :: nd.pid :: ((nd.row.replace e.key y).flat pages fun _ => [])) := by
        have hflat := congrArg (SepList.flat pages fun _ => []) happ
        rw [SepList.flat_append] at hflat
        change _ = (nd.row.replace e.key y).flat pages (fun _ => []) at hflat
        rw [← hflat]
        change (nd.pid :: SepList.flat pages (fun _ => []) _ ++ (np₁ : PageId) :: _).Perm _
        exact List.perm_middle
      rw [fresh_succ hle, ← List.append_assoc]
      refine hsplit.trans ?_
      refine List.Perm.trans ?_ List.perm_append_comm
      exact (hrow.cons _).cons _

/-! ## Sizes -/

/-- Every node has at most its maximum of entries; the root has at least
`minLeaf` or `minInner`, the others at least half of the maximum. -/
def PageTree.Occupied (index : BPlusTree) (minLeaf minInner : Nat) : {d : Nat} → PageTree d → Prop
  | 0, lf => minLeaf ≤ (LeafNode.entries lf).length ∧
      (LeafNode.entries lf).length < index.leafMaxSize
  | d + 1, nd => minInner ≤ (InnerNode.row nd).size ∧
      (InnerNode.row nd).size ≤ index.internalMaxSize ∧
      ∀ c ∈ (InnerNode.row nd).items,
        Occupied index (index.leafMaxSize / 2) ((index.internalMaxSize + 1) / 2) (d := d) c

def PageTree.Filled (index : BPlusTree) (tr : PageTree d) : Prop :=
  tr.Occupied index (index.leafMaxSize / 2) ((index.internalMaxSize + 1) / 2)

theorem occupied_zero {a b : Nat} {lf : LeafNode} : Occupied index a b (d := 0) lf ↔
    a ≤ lf.entries.length ∧ lf.entries.length < index.leafMaxSize := Iff.rfl

theorem occupied_succ {a b : Nat} {nd : InnerNode (PageTree d)} :
    Occupied index a b (d := d + 1) nd ↔ b ≤ nd.row.size ∧ nd.row.size ≤ index.internalMaxSize ∧
      ∀ c ∈ nd.row.items, c.Filled index := Iff.rfl

theorem PageTree.insert_shape {tr : PageTree d} {np np' : Nat} {x : SepList Int (PageTree d)}
    (h : tr.insert index fr e np = .ok (x, np')) :
    x.head.pid = tr.pid ∧ ((∃ tr', x = .one tr') ∨ ∃ l s r, x = .cons l s (.one r) ∧ fr.free ≠ 0) := by
  have hfree : ∀ p, fr.need p ≤ fr.free → fr.free ≠ 0 := by
    intro p hp
    unfold Frames.need at hp
    split_ifs at hp <;> omega
  cases d with
  | zero =>
    rcases LeafNode.insert_ok h with ⟨rfl, -, -⟩ | ⟨rfl, -, -, -, hneed⟩
    · exact ⟨rfl, Or.inl ⟨_, rfl⟩⟩
    · exact ⟨rfl, Or.inr ⟨_, _, _, rfl, hfree _ hneed⟩⟩
  | succ d =>
    obtain ⟨y, np₁, -, hx⟩ := insert_succ_ok h
    rcases InnerNode.absorb_ok hx with ⟨rfl, -, -⟩ | ⟨rfl, -, -, hneed⟩
    · exact ⟨rfl, Or.inl ⟨_, rfl⟩⟩
    · exact ⟨rfl, Or.inr ⟨_, _, _, rfl, hfree _ hneed⟩⟩

theorem LeafNode.filled_split {lf : LeafNode} (hlen : lf.entries.length = index.leafMaxSize) (np : Nat) :
    ∀ c ∈ (lf.split np).items, Filled index (d := 0) c := by
  have := index.two_le_leaf
  intro c hc
  refine occupied_zero.mpr ?_
  simp only [split, SepList.items_cons, SepList.items_one, List.mem_cons, List.not_mem_nil,
    or_false] at hc
  rcases hc with rfl | rfl
  · simp only [List.length_take]
    omega
  · simp only [List.length_drop]
    omega

theorem InnerNode.filled_split {nd : InnerNode (PageTree d)}
    (hsize : nd.row.size = index.internalMaxSize + 1) (hc : ∀ c ∈ nd.row.items, c.Filled index)
    (np : Nat) : ∀ c ∈ (nd.split np).items, Filled index (d := d + 1) c := by
  have := index.three_le_internal
  have happ := SepList.append_take_drop nd.row (nd.row.size / 2 - 1) (by omega)
  rw [← happ, SepList.items_append] at hc
  intro c' hc'
  refine occupied_succ.mpr ?_
  simp only [split, SepList.items_cons, SepList.items_one, List.mem_cons, List.not_mem_nil,
    or_false] at hc'
  rcases hc' with rfl | rfl
  · refine ⟨?_, ?_, fun c h => hc c (List.mem_append_left _ h)⟩
    · rw [SepList.size_take _ _ (by omega)]
      omega
    · rw [SepList.size_take _ _ (by omega)]
      omega
  · refine ⟨?_, ?_, fun c h => hc c (List.mem_append_right _ h)⟩
    · rw [SepList.size_drop _ _ (by omega)]
      omega
    · rw [SepList.size_drop _ _ (by omega)]
      omega

theorem size_eq_one {α : Type} {y : SepList Int α} (h : y.size = 1) : ∃ c, y = .one c := by
  cases y with
  | one c => exact ⟨c, rfl⟩
  | cons a s r =>
    have := r.size_pos
    simp only [SepList.size] at h
    omega

theorem PageTree.insert_occupied {a b : Nat} {tr : PageTree d} {np np' : Nat}
    {x : SepList Int (PageTree d)} (h : tr.insert index fr e np = .ok (x, np')) (ho : tr.Ordered)
    (hocc : tr.Occupied index a b) :
    (∃ tr', x = .one tr' ∧ tr'.Occupied index a b) ∨ (x.size = 2 ∧ ∀ c ∈ x.items, c.Filled index) := by
  induction d generalizing np np' a b with
  | zero =>
    obtain ⟨h1, h2⟩ := occupied_zero.mp hocc
    have hkeys := LeafNode.keys_sorted ho
    rcases LeafNode.insert_ok h with ⟨rfl, -, hlen⟩ | ⟨rfl, -, hhas, hlen, -⟩
    · refine Or.inl ⟨_, rfl, occupied_zero.mpr ?_⟩
      by_cases hhas : LeafNode.Has e.key tr
      · rw [LeafNode.length_upsert_of_has hhas hkeys]
        exact ⟨h1, h2⟩
      · rw [LeafNode.length_upsert_of_not_has hhas hkeys] at hlen ⊢
        exact ⟨by omega, hlen.resolve_left hhas⟩
    · have := LeafNode.length_upsert_of_not_has hhas hkeys
      exact Or.inr ⟨rfl, LeafNode.filled_split (by omega) np⟩
  | succ d ih =>
    obtain ⟨h1, h2, h3⟩ := occupied_succ.mp hocc
    obtain ⟨y, np₁, hy, hx⟩ := insert_succ_ok h
    have hmem := SepList.child_mem e.key (InnerNode.row tr)
    have hsize : (InnerNode.replace e.key y tr).row.size + 1 = (InnerNode.row tr).size + y.size :=
      SepList.size_replace e.key y (InnerNode.row tr)
    have hy' := ih hy (ordered_child ho hmem) (h3 _ hmem)
    have hfill : ∀ c ∈ (InnerNode.replace e.key y tr).row.items, c.Filled index := by
      intro c hc
      rcases SepList.mem_items_replace hc with hc | hc
      · rcases hy' with ⟨tr', rfl, hocc'⟩ | ⟨-, hall⟩
        · obtain rfl := List.mem_singleton.mp hc
          exact hocc'
        · exact hall c hc
      · exact h3 c hc
    have hle : y.size ≤ 2 := by
      rcases hy' with ⟨tr', rfl, -⟩ | ⟨h2, -⟩
      · exact Nat.le_succ 1
      · exact h2.le
    have hpos := y.size_pos
    rcases InnerNode.absorb_ok hx with ⟨rfl, -, hroom⟩ | ⟨rfl, -, hroom, -⟩
    · refine Or.inl ⟨_, rfl, occupied_succ.mpr ⟨by omega, ?_, hfill⟩⟩
      rcases hroom with hone | hroom
      · omega
      · exact hroom
    · exact Or.inr ⟨rfl, InnerNode.filled_split (by omega) hfill np₁⟩

theorem PageTree.insert_error_of_free (hfree : 2 ≤ fr.free) (np : Nat) (tr : PageTree d) :
    ∀ stop, tr.insert index fr e np = .error stop → stop = .full := by
  have hneed : ∀ p, ¬ fr.free < fr.need p := by
    intro p
    unfold Frames.need
    split_ifs <;> omega
  have hfetch : ∀ p, fr.Fetchable p := fun p => Frames.fetchable_of_need (not_lt.mp (hneed p))
  refine induction (motive := fun tr => ∀ stop, tr.insert index fr e np = .error stop → stop = .full)
    ?leaf ?inner tr
  case leaf =>
    intro lf stop h
    change lf.insert index fr e np = .error stop at h
    rw [LeafNode.insert, if_neg (not_not.mpr (hfetch _)), if_neg (hneed _)] at h
    split_ifs at h
    all_goals cases h
    rfl
  case inner =>
    intro d nd ih stop h
    rw [insert_succ, if_neg (not_not.mpr (hfetch _))] at h
    cases hy : (nd.row.child e.key).insert index fr e np with
    | error stop' =>
      rw [hy] at h
      cases h
      exact ih _ (SepList.child_mem e.key nd.row) _ hy
    | ok r =>
      rw [hy] at h
      change nd.absorb index fr e.key r = .error stop at h
      obtain ⟨y, np₁⟩ := r
      cases y with
      | one c => cases h
      | cons l s r =>
        rw [InnerNode.absorb, if_neg (hneed _)] at h
        split_ifs at h
        all_goals cases h
        rfl

theorem LeafNode.insert_ne_full {lf : LeafNode} (hleaf : index.leafMaxSize ≤ leafCapacity)
    {a b np : Nat} (hocc : Occupied index a b (d := 0) lf) : lf.insert index fr e np ≠ .error .full := by
  intro h
  have hlen := (occupied_zero.mp hocc).2
  rw [insert, if_neg (by omega : ¬ leafCapacity ≤ _)] at h
  split_ifs at h
  all_goals cases h

theorem PageTree.insert_ne_full (np : Nat) (hleaf : index.leafMaxSize ≤ leafCapacity)
    (hinner : index.internalMaxSize < internalCapacity) (tr : PageTree d) :
    ∀ a b, tr.Occupied index a b → tr.insert index fr e np ≠ .error .full := by
  refine induction (motive := fun tr => ∀ a b, tr.Occupied index a b →
    tr.insert index fr e np ≠ .error .full) ?leaf ?inner tr
  case leaf => exact fun lf a b hocc => LeafNode.insert_ne_full hleaf hocc
  case inner =>
    intro d nd ih a b hocc h
    obtain ⟨-, h2, h3⟩ := occupied_succ.mp hocc
    have hmem := SepList.child_mem e.key nd.row
    rw [insert_succ] at h
    split_ifs at h
    · cases hy : (nd.row.child e.key).insert index fr e np with
      | error stop =>
        rw [hy] at h
        cases h
        exact ih _ hmem _ _ (h3 _ hmem) hy
      | ok r =>
        rw [hy] at h
        change nd.absorb index fr e.key r = .error .full at h
        obtain ⟨y, np₁⟩ := r
        cases y with
        | one c => cases h
        | cons l s r =>
          rw [InnerNode.absorb, if_neg (by omega : ¬ internalCapacity ≤ _)] at h
          split_ifs at h
          all_goals cases h
    · cases h

theorem PageTree.insert_total (fr : Frames) (e : LeafEntry) (np : Nat)
    (hleaf : index.leafMaxSize ≤ leafCapacity) (hinner : index.internalMaxSize < internalCapacity)
    (hfree : 2 ≤ fr.free) {a b : Nat} {tr : PageTree d} (hocc : tr.Occupied index a b) :
    ∃ r, tr.insert index fr e np = .ok r := by
  cases hr : tr.insert index fr e np with
  | ok r => exact ⟨r, rfl⟩
  | error stop =>
    obtain rfl := insert_error_of_free hfree np tr stop hr
    exact absurd hr (insert_ne_full np hleaf hinner tr a b hocc)

end MyDB.Storage

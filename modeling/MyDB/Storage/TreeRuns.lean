import MyDB.Storage.TreePages

/-! Runs of the index code on the abstract page store. `Insert` computes
`PageTree.insert` on the pages, and the two search loops follow the path of
their key. -/

namespace MyDB.Storage
open Lib PageTree BPlusTree

variable {d : Nat}

def PageMap.frames (m : PageMap TreePage) : Frames := ⟨m.pins, m.free⟩

structure Stored (m : PageMap TreePage) (tr : PageTree d) : Prop where
  held : tr.In m.contents
  ordered : tr.Ordered
  nodup : tr.pages.Nodup
  allocated : ∀ p ∈ tr.pages, 0 ≤ p ∧ p < m.numPages

/-- The store `m'` after a call has turned `tr` into `x`. -/
structure After (m m' : PageMap TreePage) (tr : PageTree d) (x : SepList Int (PageTree d))
    (np' : Nat) : Prop where
  wf : m'.WF
  pins_eq : m'.pins = m.pins
  free_eq : m'.free = m.free
  numPages_eq : m'.numPages = np'
  held : ∀ y ∈ x.items, y.In m'.contents
  frame : ∀ p, p ∉ tr.pages → p ∉ fresh m.numPages np' → m'.contents p = m.contents p

def splitResult : SepList Int (PageTree d) → Option SplitResult
  | .one _ => none
  | .cons _ s r => some ⟨s, r.head.pid⟩

/-- How a run of the code ends when the insertion into the tree ends as `r`. -/
def Outcome (m : PageMap TreePage) (tr : PageTree d) (r : Except Stop (SepList Int (PageTree d) × Nat))
    (res : EStateM.Result Fault (PageMap TreePage) (Option SplitResult)) : Prop :=
  match r with
  | .ok (x, np') => ∃ m', res = .ok (splitResult x) m' ∧ After m m' tr x np'
  | .error .noFrame => res = .error (.runtimeError (lit "BPlusTree — failed to fetch page")) m
  | .error .full => ∃ m', res = .error .outOfBounds m'
  | .error (.starved p) => ∃ msg m', res = .error (.runtimeError msg) m' ∧ m'.pins p = m.pins p + 1

variable {index : BPlusTree} {key : Int} {rid : RID} {m : PageMap TreePage}

theorem after_put (hwf : m.WF) {lf : LeafNode} (lf' : LeafNode) (hpid : lf'.pid = lf.pid) :
    After (d := 0) m (m.put lf.pid (.leaf lf'.entries lf'.next)) lf (.one lf') m.numPages where
  wf := hwf.put _ _
  pins_eq := rfl
  free_eq := rfl
  numPages_eq := rfl
  held := by
    intro y hy
    obtain rfl := List.mem_singleton.mp hy
    refine in_zero.mpr ?_
    rw [hpid]
    exact Function.update_self ..
  frame := fun p hp _ => Function.update_of_ne (fun h => hp (List.mem_singleton.mpr h)) _ _

theorem insertEntry_ok {σ α : Type} {keyOf : α → Int} {capacity start : Nat} {data : List α} {a : α}
    (h : data.length < capacity) (s : σ) : insertEntry keyOf capacity start data a s =
      .ok (data.insertIdx (insertPos (data.map keyOf) start (keyOf a)) a) s := by
  rw [insertEntry, if_pos h]
  rfl

theorem insertEntry_error {σ α : Type} {keyOf : α → Int} {capacity start : Nat} {data : List α} {a : α}
    (h : capacity ≤ data.length) (s : σ) :
    insertEntry keyOf capacity start data a s = .error .outOfBounds s := by
  rw [insertEntry, if_neg (not_lt.mpr h)]
  rfl

theorem after_split (hwf : m.WF) {lf : LeafNode} (lf' : LeafNode) (hlt : lf.pid < m.numPages)
    (hpid : lf'.pid = lf.pid) :
    After (d := 0) m
      ((m.grow (.leaf (lf'.entries.drop (lf'.entries.length / 2)) lf'.next)).put lf.pid
        (.leaf (lf'.entries.take (lf'.entries.length / 2)) m.numPages)) lf
      (lf'.split m.numPages) (m.numPages + 1) where
  wf := (hwf.grow _).put _ _
  pins_eq := rfl
  free_eq := rfl
  numPages_eq := rfl
  held := by
    intro y hy
    simp only [LeafNode.split, SepList.items_cons, SepList.items_one, List.mem_cons, List.not_mem_nil,
      or_false] at hy
    rcases hy with rfl | rfl
    · refine in_zero.mpr ?_
      rw [hpid]
      exact Function.update_self ..
    · refine in_zero.mpr ?_
      simp only [PageMap.put, PageMap.grow]
      rw [Function.update_of_ne hlt.ne', Function.update_self]
  frame := by
    intro p hp hfresh
    have hne : p ≠ m.numPages := fun h => hfresh (by rw [fresh_succ le_rfl, h]; simp)
    simp only [PageMap.put, PageMap.grow]
    rw [Function.update_of_ne (fun h => hp (List.mem_singleton.mpr h)), Function.update_of_ne hne]

theorem insertInLeaf_outcome (hwf : m.WF) {lf : LeafNode} (hs : Stored (d := 0) m lf)
    (hf : m.frames.Fetchable lf.pid) :
    Outcome (d := 0) m lf (lf.insert index m.frames ⟨key, rid⟩ m.numPages)
      (insertInLeaf PageMap.store index lf.pid key rid m) := by
  have hkeys := LeafNode.keys_sorted hs.ordered
  have hrange : 0 ≤ lf.pid ∧ lf.pid < m.numPages := hs.allocated _ (pid_mem_pages _)
  unfold insertInLeaf LeafNode.insert
  rw [bind_ok (PageMap.fetchPage_ok hrange hf), if_neg (not_not.mpr hf)]
  dsimp only
  rw [bind_ok (PageMap.readData_pin hs.held)]
  dsimp only
  by_cases hhas : lf.Has key
  · obtain ⟨b, hb, hk⟩ := hhas
    have hsome : (lf.entries.findIdx? fun b => b.key = key).isSome := by
      rw [List.findIdx?_isSome, List.any_eq_true]
      exact ⟨b, hb, decide_eq_true hk⟩
    obtain ⟨i, hi⟩ := Option.isSome_iff_exists.mp hsome
    rw [if_pos ⟨b, hb, hk⟩, hi]
    have hset : lf.entries.set i ⟨key, rid⟩ = (lf.upsert ⟨key, rid⟩).entries :=
      (upsert_of_findIdx (a := ⟨key, rid⟩) hkeys hi).symm
    refine ⟨m.put lf.pid (.leaf (lf.upsert ⟨key, rid⟩).entries lf.next), ?_,
      after_put hwf (lf.upsert ⟨key, rid⟩) rfl⟩
    dsimp only
    rw [bind_ok (PageMap.writeData_ok ..), bind_ok (PageMap.unpin_write_pin hf _), hset]
    rfl
  · have hnone : (lf.entries.findIdx? fun b => b.key = key) = none :=
      List.findIdx?_eq_none_iff.mpr fun b hb => decide_eq_false fun hk => hhas ⟨b, hb, hk⟩
    rw [if_neg hhas, hnone]
    dsimp only
    unfold BPlusTreeLeafPage.insertEntry
    by_cases hcap : leafCapacity ≤ lf.entries.length
    · rw [if_pos hcap, bind_error (insertEntry_error hcap _)]
      exact ⟨_, rfl⟩
    · rw [if_neg hcap, bind_ok (insertEntry_ok (not_le.mp hcap) _),
        LeafNode.insertIdx_eq (e := ⟨key, rid⟩) hhas hkeys,
        bind_ok (PageMap.writeData_ok ..)]
      by_cases hlen : (lf.upsert ⟨key, rid⟩).entries.length < index.leafMaxSize
      · rw [if_pos hlen, if_pos hlen]
        refine ⟨_, ?_, after_put hwf (lf.upsert ⟨key, rid⟩) rfl⟩
        rw [bind_ok (PageMap.unpin_write_pin hf _)]
        rfl
      · rw [if_neg hlen, if_neg hlen]
        by_cases hneed : m.frames.free < m.frames.need lf.pid
        · rw [if_pos hneed, bind_ok (PageMap.newPage_write_pin_none hneed _)]
          exact ⟨_, _, rfl, Function.update_self ..⟩
        · rw [if_neg hneed]
          have hneed' := not_lt.mp hneed
          obtain ⟨m₁, h1, h2⟩ := PageMap.unpin_split hwf hrange hneed'
            (.leaf (lf.upsert ⟨key, rid⟩).entries lf.next)
            (.leaf ((lf.upsert ⟨key, rid⟩).entries.take ((lf.upsert ⟨key, rid⟩).entries.length / 2))
              m.numPages)
            (.leaf ((lf.upsert ⟨key, rid⟩).entries.drop ((lf.upsert ⟨key, rid⟩).entries.length / 2))
              lf.next)
          refine ⟨_, ?_, after_split hwf (lf.upsert ⟨key, rid⟩) hrange.2 rfl⟩
          rw [bind_ok (PageMap.newPage_write_pin hneed' _)]
          dsimp only
          rw [bind_ok (PageMap.writeData_ok ..), bind_ok (PageMap.writeData_ok ..), bind_ok h1, bind_ok h2]
          rfl

/-! ## Inner nodes -/

theorem Stored.child {nd : InnerNode (PageTree d)} (h : Stored (d := d + 1) m nd) {x : PageTree d}
    (hx : x ∈ nd.row.items) : Stored m x where
  held := (in_succ.mp h.held).2 x hx
  ordered := ordered_child h.ordered hx
  nodup := ((SepList.infix_flat pages _ hx).sublist.trans (List.sublist_cons_self ..)).nodup h.nodup
  allocated := fun p hp => h.allocated p (List.mem_cons_of_mem _ (pages_child_subset hx hp))

theorem children_after {nd : InnerNode (PageTree d)} (h : Stored (d := d + 1) m nd)
    {m₁ : PageMap TreePage} {y : SepList Int (PageTree d)} {np₁ : Nat}
    (hins : (nd.row.child key).insert index m.frames ⟨key, rid⟩ m.numPages = .ok (y, np₁))
    (hafter : After m m₁ (nd.row.child key) y np₁) {x : PageTree d}
    (hx : x ∈ (nd.row.replace key y).items) :
    x.In m₁.contents ∧ nd.pid ∉ x.pages ∧ (np₁ : PageId) ∉ x.pages := by
  obtain ⟨hle, hperm⟩ := insert_pages hins
  have hnodup : (nd.pid :: nd.row.flat pages fun _ => []).Nodup := h.nodup
  have hold : ∀ p ∈ nd.row.flat pages (fun _ => []), p ≠ nd.pid ∧ p < (m.numPages : Int) := by
    intro p hp
    exact ⟨fun e => (List.nodup_cons.mp hnodup).1 (e ▸ hp), (h.allocated p (List.mem_cons_of_mem _ hp)).2⟩
  have hnot : ∀ p ∈ nd.row.flat pages (fun _ => []), p ∉ fresh m.numPages np₁ := by
    intro p hp hf
    exact absurd (hold p hp).2 (not_lt.mpr (mem_fresh.mp hf).1)
  have hle' : (m.numPages : Int) ≤ np₁ := Int.ofNat_le.mpr hle
  rw [SepList.items_replace] at hx
  by_cases hy : x ∈ y.items
  · -- a page of `y` is a page of the old child or a new one
    have hpages : ∀ p ∈ x.pages, p ∈ nd.row.flat pages (fun _ => []) ∨ p ∈ fresh m.numPages np₁ := by
      intro p hp
      have hmem := hperm.subset (SepList.mem_flat.mpr (Or.inl ⟨x, hy, hp⟩))
      exact (List.mem_append.mp hmem).imp (fun h => pages_child_subset (SepList.child_mem key _) h) id
    refine ⟨hafter.held x hy, fun hp => ?_, fun hp => ?_⟩
    · rcases hpages _ hp with hp | hp
      · exact (hold _ hp).1 rfl
      · exact absurd (h.allocated nd.pid List.mem_cons_self).2 (not_lt.mpr (mem_fresh.mp hp).1)
    · rcases hpages _ hp with hp | hp
      · exact absurd (hold _ hp).2 (not_lt.mpr hle')
      · exact lt_irrefl _ (mem_fresh.mp hp).2
  · have hx' : x ∈ nd.row.items ∧ ∀ p ∈ x.pages, p ∉ (nd.row.child key).pages := by
      rw [SepList.items_child key nd.row]
      have hdisj := (List.nodup_cons.mp hnodup).2
      rw [SepList.flat_child pages _ key nd.row] at hdisj
      obtain ⟨-, hrest, hl⟩ := List.nodup_append.mp hdisj
      obtain ⟨-, -, hr⟩ := List.nodup_append.mp hrest
      simp only [List.mem_append] at hx
      rcases hx with hx | hx | hx
      · refine ⟨List.mem_append_left _ hx, fun p hp hc => ?_⟩
        exact hl p (SepList.mem_left.mpr (Or.inl ⟨x, hx, hp⟩)) p (List.mem_append_left _ hc) rfl
      · exact absurd hx hy
      · refine ⟨List.mem_append_right _ (List.mem_cons_of_mem _ hx), fun p hp hc => ?_⟩
        exact hr p hc p (SepList.mem_right.mpr (Or.inl ⟨x, hx, hp⟩)) rfl
    have hsub := pages_child_subset hx'.1
    refine ⟨((in_succ.mp h.held).2 x hx'.1).congr fun p hp => ?_, fun hp => ?_, fun hp => ?_⟩
    · exact hafter.frame p (hx'.2 p hp) (hnot p (hsub hp))
    · exact (hold _ (hsub hp)).1 rfl
    · exact absurd (hold _ (hsub hp)).2 (not_lt.mpr hle')

theorem pid_after {nd : InnerNode (PageTree d)} (h : Stored (d := d + 1) m nd)
    {m₁ : PageMap TreePage} {y : SepList Int (PageTree d)} {np₁ : Nat}
    (hafter : After m m₁ (nd.row.child key) y np₁) : m₁.contents nd.pid = .internal nd.data := by
  rw [hafter.frame nd.pid, (in_succ.mp h.held).1]
  · exact fun hp => (List.nodup_cons.mp h.nodup).1 (pages_child_subset (SepList.child_mem key _) hp)
  · exact fun hp => absurd (h.allocated nd.pid List.mem_cons_self).2 (not_lt.mpr (mem_fresh.mp hp).1)

theorem after_node {nd : InnerNode (PageTree d)} (h : Stored (d := d + 1) m nd)
    {m₁ m₂ : PageMap TreePage} {y : SepList Int (PageTree d)} {np₁ np' : Nat}
    (hins : (nd.row.child key).insert index m.frames ⟨key, rid⟩ m.numPages = .ok (y, np₁))
    (hafter : After m m₁ (nd.row.child key) y np₁) {x : SepList Int (InnerNode (PageTree d))}
    (hwf : m₂.WF) (hpins : m₂.pins = m₁.pins) (hfree : m₂.free = m₁.free) (hnp : m₂.numPages = np')
    (hle : np₁ ≤ np')
    (hsame : ∀ p, p ≠ nd.pid → (np' = np₁ ∨ p ≠ np₁) → m₂.contents p = m₁.contents p)
    (hdata : ∀ z ∈ x.items, m₂.contents z.pid = .internal z.data ∧
      ∀ c ∈ z.row.items, c ∈ (nd.row.replace key y).items) :
    After (d := d + 1) m m₂ nd x np' where
  wf := hwf
  pins_eq := hpins.trans hafter.pins_eq
  free_eq := hfree.trans hafter.free_eq
  numPages_eq := hnp
  held := by
    intro z hz
    obtain ⟨h1, h2⟩ := hdata z hz
    refine in_succ.mpr ⟨h1, fun c hc => ?_⟩
    obtain ⟨hc1, hc2, hc3⟩ := children_after h hins hafter (h2 c hc)
    exact hc1.congr fun p hp => hsame p (fun e => hc2 (e ▸ hp)) (Or.inr fun e => hc3 (e ▸ hp))
  frame := by
    intro p hp hfresh
    have hle0 := (insert_pages hins).1
    have hp1 : p ≠ nd.pid := fun e => hp (e ▸ List.mem_cons_self)
    have hp2 : np' = np₁ ∨ p ≠ (np₁ : PageId) := by
      by_cases e : np' = np₁
      · exact Or.inl e
      · refine Or.inr fun hpe => hfresh (mem_fresh.mpr ?_)
        rw [hpe]
        exact ⟨Int.ofNat_le.mpr hle0, Int.ofNat_lt.mpr (by omega)⟩
    rw [hsame p hp1 hp2]
    refine hafter.frame p (fun hc => hp ?_) (fun hc => hfresh ?_)
    · exact List.mem_cons_of_mem _ (pages_child_subset (SepList.child_mem key _) hc)
    · obtain ⟨h1, h2⟩ := mem_fresh.mp hc
      exact mem_fresh.mpr ⟨h1, h2.trans_le (Int.ofNat_le.mpr hle)⟩

theorem data_insertSeparator {nd : InnerNode (PageTree d)} (h : Stored (d := d + 1) m nd) {l r : PageTree d} {s : Int}
    {np₁ : Nat}
    (hins : (nd.row.child key).insert index m.frames ⟨key, rid⟩ m.numPages = .ok (.cons l s (.one r), np₁)) :
    nd.data.insertIdx (insertPos (nd.data.map (·.key)) 1 s) ⟨s, r.pid⟩ = (nd.replace key (.cons l s (.one r))).data := by
  have hchild := SepList.child_mem key nd.row
  obtain ⟨h1, h2⟩ := insert_ordered hins (ordered_child h.ordered hchild)
  obtain ⟨-, hrest, hl⟩ := List.pairwise_append.mp (marks_replace h.ordered h1 h2)
  obtain ⟨-, -, hr⟩ := List.pairwise_append.mp hrest
  have hmem : 2 * s ∈ marksOf (.cons l s (.one r)) := by simp [marksOf, SepList.flat]
  exact InnerNode.insertIdx_eq (insert_shape hins).1
    (fun x hx => hl x hx _ (List.mem_append_left _ hmem)) (fun x hx => hr _ hmem x hx)

theorem InnerNode.items_split {nd : InnerNode (PageTree d)} (hsize : nd.row.size / 2 - 1 + 1 < nd.row.size) {c : PageTree d} :
    (c ∈ (nd.row.take (nd.row.size / 2 - 1)).items → c ∈ nd.row.items) ∧
      (c ∈ (nd.row.drop (nd.row.size / 2 - 1)).items → c ∈ nd.row.items) := by
  have hitems := (congrArg SepList.items (SepList.append_take_drop nd.row (nd.row.size / 2 - 1) hsize).symm).trans
    (SepList.items_append ..)
  rw [hitems]
  exact ⟨List.mem_append_left _, List.mem_append_right _⟩

theorem insertSeparator_outcome {nd : InnerNode (PageTree d)} (h : Stored (d := d + 1) m nd)
    {m₁ : PageMap TreePage} {l r : PageTree d} {s : Int} {np₁ : Nat}
    (hins : (nd.row.child key).insert index m.frames ⟨key, rid⟩ m.numPages =
      .ok (.cons l s (.one r), np₁))
    (hafter : After m m₁ (nd.row.child key) (.cons l s (.one r)) np₁)
    (hf : m.frames.Fetchable nd.pid) :
    Outcome (d := d + 1) m nd (nd.absorb index m.frames key (.cons l s (.one r), np₁))
      (insertSeparator PageMap.store index nd.pid ⟨s, r.pid⟩ m₁) := by
  have hle := (insert_pages hins).1
  have hnum := hafter.numPages_eq
  have hrange : 0 ≤ nd.pid ∧ nd.pid < m₁.numPages := by
    obtain ⟨h1, h2⟩ := h.allocated nd.pid List.mem_cons_self
    exact ⟨h1, h2.trans_le (by rw [hnum]; exact Int.ofNat_le.mpr hle)⟩
  have hf₁ : m₁.pins nd.pid ≠ 0 ∨ m₁.free ≠ 0 := by
    rw [hafter.pins_eq, hafter.free_eq]
    exact hf
  unfold insertSeparator BPlusTreeInternalPage.insertEntry
  rw [bind_ok (PageMap.fetchPage_ok hrange hf₁), InnerNode.absorb]
  dsimp only
  rw [bind_ok (PageMap.readData_pin (pid_after h hafter))]
  dsimp only
  by_cases hcap : internalCapacity ≤ nd.row.size
  · rw [if_pos hcap, bind_error (insertEntry_error (by rwa [InnerNode.length_data]) _)]
    exact ⟨_, rfl⟩
  · rw [if_neg hcap, bind_ok (insertEntry_ok (by rw [InnerNode.length_data]; exact not_le.mp hcap) _),
      data_insertSeparator h hins, bind_ok (PageMap.writeData_ok ..), InnerNode.length_data]
    by_cases hsize : (nd.replace key (.cons l s (.one r))).row.size ≤ index.internalMaxSize
    · rw [if_pos hsize, if_pos hsize]
      refine ⟨_, by rw [bind_ok (PageMap.unpin_write_pin hf₁ _)]; rfl,
        after_node h hins hafter (hafter.wf.put _ _) rfl rfl hnum le_rfl ?_ ?_⟩
      · exact fun p hp _ => Function.update_of_ne hp _ _
      · intro z hz
        obtain rfl := List.mem_singleton.mp hz
        exact ⟨Function.update_self .., fun c hc => hc⟩
    · rw [if_neg hsize, if_neg hsize]
      by_cases hneed : m.frames.free < m.frames.need nd.pid
      · have hneed₁ : m₁.free < if m₁.pins nd.pid = 0 then 2 else 1 := by
          rw [hafter.pins_eq, hafter.free_eq]
          exact hneed
        rw [if_pos hneed, bind_ok (PageMap.newPage_write_pin_none hneed₁ _)]
        refine ⟨_, _, rfl, ?_⟩
        rw [← hafter.pins_eq]
        exact Function.update_self ..
      · have hneed₁ : (if m₁.pins nd.pid = 0 then 2 else 1) ≤ m₁.free := by
          rw [hafter.pins_eq, hafter.free_eq]
          exact not_lt.mp hneed
        have := index.three_le_internal
        obtain ⟨h1, h2, h3⟩ := InnerNode.data_split (nd.replace key (.cons l s (.one r)))
          (by omega) m₁.numPages
        rw [if_neg hneed, bind_ok (PageMap.newPage_write_pin hneed₁ _)]
        dsimp only
        rw [bind_ok (PageMap.writeData_ok ..), bind_ok (PageMap.writeData_ok ..), h1, h3, h2]
        obtain ⟨m₂, hm1, hm2⟩ := PageMap.unpin_split hafter.wf hrange hneed₁
          (.internal (nd.replace key (.cons l s (.one r))).data) _ _
        refine ⟨_, by rw [bind_ok hm1, bind_ok hm2, hnum]; rfl, after_node h hins hafter
          ((hafter.wf.grow _).put _ _) rfl rfl (congrArg (· + 1) hnum) (Nat.le_succ _) ?_ ?_⟩
        · intro p hp hp'
          have hne : p ≠ m₁.numPages := hp'.elim (fun e => absurd e (Nat.succ_ne_self _)) (hnum ▸ ·)
          simp only [PageMap.put, PageMap.grow, Function.update_of_ne hp, Function.update_of_ne hne]
        · have hhalf : (nd.replace key (.cons l s (.one r))).row.size / 2 - 1 + 1 <
            (nd.replace key (.cons l s (.one r))).row.size := by omega
          intro z hz
          simp only [InnerNode.split, SepList.items_cons, SepList.items_one, List.mem_cons,
            List.not_mem_nil, or_false] at hz
          rcases hz with rfl | rfl
          · exact ⟨Function.update_self .., fun c => (InnerNode.items_split hhalf).1⟩
          · refine ⟨?_, fun c => (InnerNode.items_split hhalf).2⟩
            simp only [PageMap.put, PageMap.grow, hnum]
            rw [Function.update_of_ne (hnum ▸ hrange.2.ne'), Function.update_self]

theorem insertInInternal_outcome (hwf : m.WF) {nd : InnerNode (PageTree d)}
    (hs : Stored (d := d + 1) m nd) (hf : m.frames.Fetchable nd.pid)
    {ins : PageId → EStateM Fault (PageMap TreePage) (Option SplitResult)}
    (hins : Outcome m (nd.row.child key)
      ((nd.row.child key).insert index m.frames ⟨key, rid⟩ m.numPages)
      (ins (nd.row.child key).pid m)) :
    Outcome (d := d + 1) m nd (PageTree.insert index m.frames ⟨key, rid⟩ (d := d + 1) nd m.numPages)
      (insertInInternal PageMap.store index ins nd.pid key m) := by
  have hrange : 0 ≤ nd.pid ∧ nd.pid < m.numPages := hs.allocated _ List.mem_cons_self
  have hread := (in_succ.mp hs.held).1
  rw [insertInInternal, bind_ok (PageMap.fetchPage_ok hrange hf), insert_succ, if_neg (not_not.mpr hf)]
  dsimp only
  rw [bind_ok (PageMap.readData_pin hread)]
  dsimp only
  rw [bind_ok (PageMap.unpin_pin hwf hf), InnerNode.lookup_eq key hs.ordered]
  cases hr : (nd.row.child key).insert index m.frames ⟨key, rid⟩ m.numPages with
  | error stop =>
    rw [hr] at hins
    cases stop with
    | noFrame =>
      rw [bind_error hins]
      rfl
    | full =>
      obtain ⟨m', h'⟩ := hins
      rw [bind_error h']
      exact ⟨m', rfl⟩
    | starved p =>
      obtain ⟨msg, m', h', hp⟩ := hins
      rw [bind_error h']
      exact ⟨msg, m', rfl, hp⟩
  | ok r =>
    obtain ⟨y, np₁⟩ := r
    rw [hr] at hins
    obtain ⟨m₁, h', hafter⟩ := hins
    obtain ⟨hpid, ⟨c, rfl⟩ | ⟨l, s, r, rfl, -⟩⟩ := insert_shape hr
    · rw [bind_ok h']
      refine ⟨m₁, rfl, after_node hs hr hafter hafter.wf rfl rfl hafter.numPages_eq le_rfl
        (fun _ _ _ => rfl) ?_⟩
      intro z hz
      obtain rfl := List.mem_singleton.mp hz
      refine ⟨?_, fun c hc => hc⟩
      rw [InnerNode.data_replace_one (c := c) hpid]
      exact pid_after hs hafter
    · rw [bind_ok h']
      exact insertSeparator_outcome hs hr hafter hf

theorem insertInPage_outcome (index : BPlusTree) (key : Int) (rid : RID) (hwf : m.WF) (tr : PageTree d) (fuel : Nat) (hs : Stored m tr)
    (hfuel : d < fuel) : Outcome m tr (tr.insert index m.frames ⟨key, rid⟩ m.numPages)
      (insertInPage PageMap.store index key rid fuel tr.pid m) := by
  revert fuel hs hfuel
  refine PageTree.induction (motive := fun {d} tr => ∀ fuel, Stored m tr → d < fuel →
    Outcome m tr (tr.insert index m.frames ⟨key, rid⟩ m.numPages)
      (insertInPage PageMap.store index key rid fuel tr.pid m)) ?leaf ?inner tr
  case leaf =>
    intro lf fuel hs hfuel
    obtain ⟨fuel, rfl⟩ := Nat.exists_eq_succ_of_ne_zero hfuel.ne'
    have hrange : 0 ≤ lf.pid ∧ lf.pid < m.numPages := hs.allocated _ (List.mem_singleton_self _)
    rw [pid_zero, insertInPage]
    by_cases hf : m.frames.Fetchable lf.pid
    · rw [bind_ok (PageMap.fetchPage_ok hrange hf)]
      dsimp only
      rw [bind_ok (PageMap.readData_pin (in_zero.mp hs.held))]
      dsimp only
      rw [bind_ok (PageMap.unpin_pin hwf hf)]
      exact insertInLeaf_outcome hwf hs hf
    · rw [bind_ok (PageMap.fetchPage_none hf)]
      change Outcome (d := 0) m lf (LeafNode.insert index m.frames ⟨key, rid⟩ lf m.numPages) _
      rw [LeafNode.insert, if_pos hf]
      rfl
  case inner =>
    intro d nd ih fuel hs hfuel
    obtain ⟨fuel, rfl⟩ := Nat.exists_eq_succ_of_ne_zero (Nat.zero_lt_of_lt hfuel).ne'
    have hrange : 0 ≤ nd.pid ∧ nd.pid < m.numPages := hs.allocated _ List.mem_cons_self
    have hchild := SepList.child_mem key nd.row
    rw [pid_succ, insertInPage]
    by_cases hf : m.frames.Fetchable nd.pid
    · rw [bind_ok (PageMap.fetchPage_ok hrange hf)]
      dsimp only
      rw [bind_ok (PageMap.readData_pin (in_succ.mp hs.held).1)]
      dsimp only
      rw [bind_ok (PageMap.unpin_pin hwf hf)]
      exact insertInInternal_outcome hwf hs hf
        (ih _ hchild fuel (hs.child hchild) (Nat.lt_of_succ_lt_succ hfuel))
    · rw [bind_ok (PageMap.fetchPage_none hf), insert_succ, if_pos hf]
      rfl

/-! ## Searching -/

theorem depth_lt_length_pages (tr : PageTree d) : d < tr.pages.length := by
  induction d with
  | zero => exact Nat.one_pos
  | succ d ih =>
    have hchild := (SepList.infix_flat pages (fun _ => []) tr.row.head_mem).length_le
    have := ih tr.row.head
    rw [pages_succ, List.length_cons]
    omega

theorem Stored.length_pages_le {tr : PageTree d} (h : Stored m tr) : tr.pages.length ≤ m.numPages := by
  have hinj : (tr.pages.map Int.toNat).Nodup := by
    refine List.Nodup.map_on (fun p hp q hq e => ?_) h.nodup
    rw [← Int.toNat_of_nonneg (h.allocated p hp).1, ← Int.toNat_of_nonneg (h.allocated q hq).1, e]
  have hsub : tr.pages.map Int.toNat ⊆ List.range m.numPages := by
    intro i hi
    obtain ⟨p, hp, rfl⟩ := List.mem_map.mp hi
    obtain ⟨h1, h2⟩ := h.allocated p hp
    exact List.mem_range.mpr ((Int.toNat_lt h1).mpr h2)
  have hlen := (hinj.subperm hsub).length_le
  rwa [List.length_map, List.length_range] at hlen

theorem Stored.depth_lt {tr : PageTree d} (h : Stored m tr) : d < m.numPages :=
  (depth_lt_length_pages tr).trans_le h.length_pages_le

theorem searchLoop_ok (hwf : m.WF) (hfree : m.free ≠ 0) (tr : PageTree d) (fuel : Nat)
    (hs : Stored m tr) (hfuel : d < fuel) : searchLoop PageMap.store key fuel tr.pid m =
      .ok ((tr.entries.find? fun b => b.key = key).map (·.rid)) m := by
  revert fuel hs hfuel
  have hf (p : PageId) : m.pins p ≠ 0 ∨ m.free ≠ 0 := Or.inr hfree
  refine PageTree.induction (motive := fun {d} tr => ∀ fuel, Stored m tr → d < fuel →
    searchLoop PageMap.store key fuel tr.pid m =
      .ok ((tr.entries.find? fun b => b.key = key).map (·.rid)) m) ?leaf ?inner tr
  case leaf =>
    intro lf fuel hs hfuel
    obtain ⟨fuel, rfl⟩ := Nat.exists_eq_succ_of_ne_zero hfuel.ne'
    have hrange : 0 ≤ lf.pid ∧ lf.pid < m.numPages := hs.allocated _ (List.mem_singleton_self _)
    rw [pid_zero, searchLoop, bind_ok (PageMap.fetchPage_ok hrange (hf _))]
    dsimp only
    rw [bind_ok (PageMap.readData_pin (in_zero.mp hs.held))]
    dsimp only
    rw [bind_ok (PageMap.unpin_pin hwf (hf _)), LeafNode.search_eq (LeafNode.keys_sorted hs.ordered),
      entries_zero]
    rfl
  case inner =>
    intro d nd ih fuel hs hfuel
    obtain ⟨fuel, rfl⟩ := Nat.exists_eq_succ_of_ne_zero (Nat.zero_lt_of_lt hfuel).ne'
    have hrange : 0 ≤ nd.pid ∧ nd.pid < m.numPages := hs.allocated _ List.mem_cons_self
    have hchild := SepList.child_mem key nd.row
    rw [pid_succ, searchLoop, bind_ok (PageMap.fetchPage_ok hrange (hf _))]
    dsimp only
    rw [bind_ok (PageMap.readData_pin (in_succ.mp hs.held).1)]
    dsimp only
    rw [bind_ok (PageMap.unpin_pin hwf (hf _)), InnerNode.lookup_eq key hs.ordered,
      ih _ hchild fuel (hs.child hchild) (Nat.lt_of_succ_lt_succ hfuel),
      find_leafOf key _ (ordered_child hs.ordered hchild), find_leafOf key _ hs.ordered]
    rfl

end MyDB.Storage

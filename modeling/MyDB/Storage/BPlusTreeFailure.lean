import MyDB.Storage.BPlusTreeMap

/-! What a call of `Insert` that throws leaves behind. The leaf or internal
page that is to split is written and pinned before the new page is asked for,
and nothing undoes either. The other places that throw have not written. -/

namespace MyDB.Storage
open Lib PageTree BPlusTree

variable {d : Nat} {index : BPlusTree} {fr : Frames} {e : LeafEntry} {m : PageMap TreePage}

/-! ## When a split is short of a frame -/

/-- The page on the path to `key` splits, and gets the frames for it. -/
def PageTree.Splits (index : BPlusTree) (fr : Frames) (key : Int) : {d : Nat} → PageTree d → Prop
  | 0, lf => ¬ LeafNode.Has key lf ∧ (LeafNode.entries lf).length < leafCapacity ∧
      index.leafMaxSize ≤ (LeafNode.entries lf).length + 1 ∧ fr.need (LeafNode.pid lf) ≤ fr.free
  | d + 1, nd => Splits index fr key (d := d) ((InnerNode.row nd).child key) ∧
      (InnerNode.row nd).size < internalCapacity ∧ index.internalMaxSize ≤ (InnerNode.row nd).size ∧
      fr.need (InnerNode.pid nd) ≤ fr.free

/-- Some page on the path to `key` can be fetched and is to split, but there is
no frame for the new page. -/
def PageTree.Starves (index : BPlusTree) (fr : Frames) (key : Int) : {d : Nat} → PageTree d → Prop
  | 0, lf => fr.Fetchable (LeafNode.pid lf) ∧ ¬ LeafNode.Has key lf ∧
      (LeafNode.entries lf).length < leafCapacity ∧
      index.leafMaxSize ≤ (LeafNode.entries lf).length + 1 ∧ fr.free < fr.need (LeafNode.pid lf)
  | d + 1, nd => fr.Fetchable (InnerNode.pid nd) ∧
      (Starves index fr key (d := d) ((InnerNode.row nd).child key) ∨
        Splits index fr key (d := d) ((InnerNode.row nd).child key) ∧
        (InnerNode.row nd).size < internalCapacity ∧ index.internalMaxSize ≤ (InnerNode.row nd).size ∧
        fr.free < fr.need (InnerNode.pid nd))

theorem LeafNode.insert_two_iff {lf : LeafNode} {np : Nat} (ho : Ordered (d := 0) lf) :
    (∃ x np', lf.insert index fr e np = .ok (x, np') ∧ x.size = 2) ↔
      Splits index fr e.key (d := 0) lf := by
  have hkeys := keys_sorted ho
  constructor
  · rintro ⟨x, np', hins, hsize⟩
    rcases insert_ok hins with ⟨rfl, -, -⟩ | ⟨rfl, -, hhas, hfull, hneed⟩
    · cases hsize
    · rw [length_upsert_of_not_has hhas hkeys] at hfull
      refine ⟨hhas, ?_, hfull, hneed⟩
      by_contra hcap
      rw [LeafNode.insert, if_neg (not_not.mpr (Frames.fetchable_of_need hneed)), if_neg hhas,
        if_pos (not_lt.mp hcap)] at hins
      cases hins
  · rintro ⟨hhas, hcap, hfull, hneed⟩
    refine ⟨(lf.upsert e).split np, np + 1, ?_, rfl⟩
    have hroom : ¬ (lf.upsert e).entries.length < index.leafMaxSize := by
      rw [length_upsert_of_not_has hhas hkeys]
      exact not_lt.mpr hfull
    rw [LeafNode.insert, if_neg (not_not.mpr (Frames.fetchable_of_need hneed)), if_neg hhas,
      if_neg (not_le.mpr hcap), if_neg hroom, if_neg (not_lt.mpr hneed)]

theorem InnerNode.absorb_two_iff {nd : InnerNode (PageTree d)} {l r : PageTree d} {s : Int} {np : Nat} :
    (∃ x np', nd.absorb index fr e.key (.cons l s (.one r), np) = .ok (x, np') ∧ x.size = 2) ↔
      nd.row.size < internalCapacity ∧ index.internalMaxSize ≤ nd.row.size ∧
        fr.need nd.pid ≤ fr.free := by
  have hsize : (nd.replace e.key (.cons l s (.one r))).row.size + 1 = nd.row.size + 2 :=
    SepList.size_replace e.key (.cons l s (.one r)) nd.row
  rw [absorb]
  constructor
  · rintro ⟨x, np', h, hx⟩
    split_ifs at h with h1 h2 h3
    · cases h
      cases hx
    · exact ⟨not_le.mp h1, by omega, not_lt.mp h3⟩
  · rintro ⟨h1, h2, h3⟩
    rw [if_neg (not_le.mpr h1), if_neg (by omega), if_neg (not_lt.mpr h3)]
    exact ⟨_, _, rfl, rfl⟩

theorem insert_two_iff (index : BPlusTree) (fr : Frames) (e : LeafEntry) (np : Nat) (tr : PageTree d) : tr.Ordered →
    ((∃ x np', tr.insert index fr e np = .ok (x, np') ∧ x.size = 2) ↔ tr.Splits index fr e.key) := by
  refine PageTree.induction (motive := fun tr => tr.Ordered →
    ((∃ x np', tr.insert index fr e np = .ok (x, np') ∧ x.size = 2) ↔ tr.Splits index fr e.key))
    ?leaf ?inner tr
  case leaf => exact fun lf ho => LeafNode.insert_two_iff ho
  case inner =>
    intro d nd ih ho
    have hmem := SepList.child_mem e.key nd.row
    have hchild := ih _ hmem (ordered_child ho hmem)
    constructor
    · rintro ⟨x, np', hins, hx⟩
      obtain ⟨y, np₁, hy, habs⟩ := insert_succ_ok hins
      obtain ⟨-, ⟨c, rfl⟩ | ⟨l, s, r, rfl, -⟩⟩ := insert_shape hy
      · cases habs
        cases hx
      · exact ⟨hchild.mp ⟨_, _, hy, rfl⟩, InnerNode.absorb_two_iff.mp ⟨x, np', habs, hx⟩⟩
    · rintro ⟨h1, h2, h3, h4⟩
      obtain ⟨y, np₁, hy, hsize⟩ := hchild.mpr h1
      obtain ⟨-, ⟨c, rfl⟩ | ⟨l, s, r, rfl, -⟩⟩ := insert_shape hy
      · cases hsize
      · obtain ⟨x, np', habs, hx⟩ := InnerNode.absorb_two_iff.mpr ⟨h2, h3, h4⟩
        refine ⟨x, np', ?_, hx⟩
        rw [insert_succ, if_neg (not_not.mpr (Frames.fetchable_of_need h4)), hy]
        exact habs

theorem LeafNode.insert_starved_iff {lf : LeafNode} {np : Nat} (ho : Ordered (d := 0) lf) :
    (∃ p, lf.insert index fr e np = .error (.starved p)) ↔ Starves index fr e.key (d := 0) lf := by
  have hkeys := keys_sorted ho
  rw [LeafNode.insert]
  constructor
  · rintro ⟨p, h⟩
    split_ifs at h with h1 h2 h3 h4 h5
    all_goals cases h
    rw [length_upsert_of_not_has h2 hkeys] at h4
    exact ⟨h1, h2, not_le.mp h3, not_lt.mp h4, h5⟩
  · rintro ⟨h1, h2, h3, h4, h5⟩
    have hroom : ¬ (lf.upsert e).entries.length < index.leafMaxSize := by
      rw [length_upsert_of_not_has h2 hkeys]
      exact not_lt.mpr h4
    rw [if_neg (not_not.mpr h1), if_neg h2, if_neg (not_le.mpr h3), if_neg hroom, if_pos h5]
    exact ⟨lf.pid, rfl⟩

theorem InnerNode.absorb_starved_iff {nd : InnerNode (PageTree d)} {l r : PageTree d} {s : Int} {np : Nat} :
    (∃ p, nd.absorb index fr e.key (.cons l s (.one r), np) = .error (.starved p)) ↔
      nd.row.size < internalCapacity ∧ index.internalMaxSize ≤ nd.row.size ∧
        fr.free < fr.need nd.pid := by
  have hsize : (nd.replace e.key (.cons l s (.one r))).row.size + 1 = nd.row.size + 2 :=
    SepList.size_replace e.key (.cons l s (.one r)) nd.row
  rw [absorb]
  constructor
  · rintro ⟨p, h⟩
    split_ifs at h with h1 h2 h3
    all_goals cases h
    exact ⟨not_le.mp h1, by omega, h3⟩
  · rintro ⟨h1, h2, h3⟩
    rw [if_neg (not_le.mpr h1), if_neg (by omega), if_pos h3]
    exact ⟨_, rfl⟩

theorem insert_starved_iff (np : Nat) (tr : PageTree d) : tr.Ordered →
    ((∃ p, tr.insert index fr e np = .error (.starved p)) ↔ tr.Starves index fr e.key) := by
  refine PageTree.induction (motive := fun tr => tr.Ordered →
    ((∃ p, tr.insert index fr e np = .error (.starved p)) ↔ tr.Starves index fr e.key)) ?leaf ?inner tr
  case leaf => exact fun lf ho => LeafNode.insert_starved_iff ho
  case inner =>
    intro d nd ih ho
    have hmem := SepList.child_mem e.key nd.row
    have hchild := ih _ hmem (ordered_child ho hmem)
    have hsplit := insert_two_iff index fr e np _ (ordered_child ho hmem)
    rw [insert_succ]
    constructor
    · rintro ⟨p, h⟩
      split_ifs at h with hf
      · refine ⟨hf, ?_⟩
        cases hy : (nd.row.child e.key).insert index fr e np with
        | error stop =>
          rw [hy] at h
          cases h
          exact Or.inl (hchild.mp ⟨p, hy⟩)
        | ok y =>
          rw [hy] at h
          change nd.absorb index fr e.key y = .error (.starved p) at h
          obtain ⟨y, np₁⟩ := y
          obtain ⟨-, ⟨c, rfl⟩ | ⟨l, s, r, rfl, -⟩⟩ := insert_shape hy
          · cases h
          · exact Or.inr ⟨hsplit.mp ⟨_, _, hy, rfl⟩, InnerNode.absorb_starved_iff.mp ⟨p, h⟩⟩
      · cases h
    · rintro ⟨hf, h⟩
      rw [if_neg (not_not.mpr hf)]
      rcases h with h | ⟨h, hrest⟩
      · obtain ⟨p, hp⟩ := hchild.mpr h
        rw [hp]
        exact ⟨p, rfl⟩
      · obtain ⟨y, np₁, hy, hsize⟩ := hsplit.mpr h
        rw [hy]
        obtain ⟨-, ⟨c, rfl⟩ | ⟨l, s, r, rfl, -⟩⟩ := insert_shape hy
        · cases hsize
        · exact InnerNode.absorb_starved_iff.mpr hrest

/-! ## The read paths leave the store as it is -/

def Quiet {α : Type} (m₀ m : PageMap TreePage) (x : EStateM Fault (PageMap TreePage) α) : Prop :=
  (∃ a, x m₀ = .ok a m) ∨ ∃ e m', x m₀ = .error e m' ∧ e ≠ .lostWrite

section Quiet
variable {α β : Type} {m₀ : PageMap TreePage} {p : PageId}

theorem quiet_pure (a : α) : Quiet m m (pure a) := Or.inl ⟨a, rfl⟩

theorem quiet_throw {e : Fault} (h : e ≠ .lostWrite) :
    Quiet m₀ m (throw e : EStateM Fault (PageMap TreePage) α) := Or.inr ⟨e, m₀, rfl, h⟩

theorem Quiet.bind {x : EStateM Fault (PageMap TreePage) α}
    {f : α → EStateM Fault (PageMap TreePage) β} (hx : Quiet m m x) (hf : ∀ a, Quiet m m (f a)) :
    Quiet m m (x >>= f) := by
  rcases hx with ⟨a, ha⟩ | ⟨e, m', he, hne⟩
  · have := hf a
    unfold Quiet at this ⊢
    rwa [bind_ok ha]
  · exact Or.inr ⟨e, m', bind_error he, hne⟩

theorem quiet_numPages {f : Nat → EStateM Fault (PageMap TreePage) α} (hf : ∀ k, Quiet m m (f k)) :
    Quiet m m (PageMap.store.numPages >>= f) := Quiet.bind (Or.inl ⟨m.numPages, rfl⟩) hf

theorem quiet_fetch {f : Option PageId → EStateM Fault (PageMap TreePage) α}
    (hnone : Quiet m m (f none))
    (hsome : m.pins p ≠ 0 ∨ m.free ≠ 0 → Quiet (m.pin p) m (f (some p))) :
    Quiet m m (PageMap.store.fetchPage p >>= f) := by
  by_cases hf : m.pins p ≠ 0 ∨ m.free ≠ 0
  · by_cases hr : 0 ≤ p ∧ p < m.numPages
    · have := hsome hf
      unfold Quiet at this ⊢
      rwa [bind_ok (PageMap.fetchPage_ok hr hf)]
    · have hassert : PageMap.store.fetchPage p m = .error .assertFailed m := by
        have hf' : ¬ (m.pins p = 0 ∧ m.free = 0) := fun h => hf.elim (· h.1) (· h.2)
        simp only [PageMap.store, if_neg hf', if_neg hr]
      exact Or.inr ⟨_, _, bind_error hassert, by simp⟩
  · unfold Quiet at hnone ⊢
    rwa [bind_ok (PageMap.fetchPage_none hf)]

theorem quiet_read {f : TreePage → EStateM Fault (PageMap TreePage) α}
    (hf : ∀ d, Quiet m₀ m (f d)) : Quiet m₀ m (PageMap.store.readData p >>= f) := hf (m₀.contents p)

theorem quiet_unpin (hwf : m.WF) (hf : m.pins p ≠ 0 ∨ m.free ≠ 0)
    {f : Bool → EStateM Fault (PageMap TreePage) α} (h : ∀ b, Quiet m m (f b)) :
    Quiet (m.pin p) m (PageMap.store.unpinPage p false >>= f) := by
  have := h true
  unfold Quiet at this ⊢
  rwa [bind_ok (PageMap.unpin_pin hwf hf)]

end Quiet

theorem searchLoop_quiet (hwf : m.WF) (key : Int) (fuel : Nat) (pid : PageId) :
    Quiet m m (searchLoop PageMap.store key fuel pid) := by
  induction fuel generalizing pid with
  | zero => exact quiet_throw (by simp)
  | succ fuel ih =>
    unfold searchLoop
    refine quiet_fetch (quiet_pure none) fun hf => quiet_read fun d => ?_
    cases d with
    | leaf data next => exact quiet_unpin hwf hf fun _ => quiet_pure _
    | internal data => exact quiet_unpin hwf hf fun _ => ih _

theorem search_quiet (hwf : m.WF) (index : BPlusTree) (key : Int) :
    Quiet m m (search PageMap.store index key) := by
  unfold search
  split_ifs
  · exact quiet_pure none
  · exact quiet_numPages fun pages => searchLoop_quiet hwf key pages _

theorem findLeafLoop_quiet (hwf : m.WF) (low : Int) (fuel : Nat) (pid : PageId) :
    Quiet m m (findLeafLoop PageMap.store low fuel pid) := by
  induction fuel generalizing pid with
  | zero => exact quiet_throw (by simp)
  | succ fuel ih =>
    unfold findLeafLoop
    refine quiet_fetch (quiet_throw Fault.noConfusion) fun hf => quiet_read fun d => ?_
    cases d with
    | leaf data next => exact quiet_unpin hwf hf fun _ => quiet_pure _
    | internal data => exact quiet_unpin hwf hf fun _ => ih _

theorem scanLeafLoop_quiet (hwf : m.WF) (low high : Int) (fuel : Nat) (pid : PageId)
    (results : List RID) : Quiet m m (scanLeafLoop PageMap.store low high fuel pid results) := by
  induction fuel generalizing pid results with
  | zero => exact quiet_throw (by simp)
  | succ fuel ih =>
    unfold scanLeafLoop
    split_ifs
    · exact quiet_pure results
    · refine quiet_fetch (quiet_throw Fault.noConfusion) fun hf => quiet_read fun d => ?_
      cases d with
      | internal data => exact quiet_throw Fault.noConfusion
      | leaf data next =>
        refine quiet_unpin hwf hf fun _ => ?_
        split_ifs
        · exact quiet_pure _
        · exact ih _ _

theorem rangeScan_quiet (hwf : m.WF) (index : BPlusTree) (low high : Int) (results : List RID) :
    Quiet m m (rangeScan PageMap.store index low high results) := by
  unfold rangeScan
  split_ifs
  · exact quiet_pure results
  · refine quiet_numPages fun pages => (findLeafLoop_quiet hwf low pages _).bind fun pid => ?_
    exact scanLeafLoop_quiet hwf low high (pages + 1) pid results

/-! ## A call that throws -/

/-- What the caller of a method sees of it. -/
def answer {α σ : Type} : EStateM.Result Fault σ α → Except Fault α
  | .ok a _ => .ok a
  | .error e _ => .error e

/-- The call has no effect that a client of the index or of the pool can see. -/
structure NoEffect {n : Nat} (index : BPlusTree) (s s' : BufferPool TreePage n) : Prop where
  search_eq : ∀ k, answer (search BufferPool.store index k s') = answer (search BufferPool.store index k s)
  rangeScan_eq : ∀ low high results, answer (rangeScan BufferPool.store index low high results s') =
    answer (rangeScan BufferPool.store index low high results s)
  pins_eq : ∀ p, s'.pins p = s.pins p

theorem answer_of_refines {n : Nat} {α : Type} {x : EStateM Fault (BufferPool TreePage n) α}
    {y : EStateM Fault (PageMap TreePage) α} (h : RefinesStore [] x y Agree) (hq : Quiet m m y)
    {s : BufferPool TreePage n} (hs : Holds s m) : answer (x s) = answer (y m) := by
  rcases hq with ⟨a, ha⟩ | ⟨e, m', he, hne⟩
  · obtain ⟨b, s', hx, rfl, -⟩ := h.ok (live_nil.mpr hs) ha
    rw [hx, ha]
    rfl
  · obtain ⟨s', hx, -⟩ := h.error (live_nil.mpr hs) he hne
    rw [hx, he]
    rfl

theorem noEffect_of_holds {n : Nat} {s s' : BufferPool TreePage n} (hs : Holds s m) (hs' : Holds s' m) :
    NoEffect index s s' where
  search_eq := fun k => by
    have hq := search_quiet hs.wf index k
    rw [answer_of_refines (search_refines index k) hq hs', answer_of_refines (search_refines index k) hq hs]
  rangeScan_eq := fun low high results => by
    have hq := rangeScan_quiet hs.wf index low high results
    rw [answer_of_refines (rangeScan_refines index low high results) hq hs',
      answer_of_refines (rangeScan_refines index low high results) hq hs]
  pins_eq := fun p => by rw [← hs'.pins_eq, hs.pins_eq]

def StarvesIndex {n : Nat} (index : BPlusTree) (s : BufferPool TreePage n) (key : Int) :
    Option (Σ d, PageTree d) → Prop
  | none => False
  | some tr => tr.2.Starves index ⟨s.pins, s.unpinned⟩ key

/-- A throw for want of a frame has no effect exactly when it is not a split that lacks its frame. -/
theorem insert_failure_noEffect_iff {n : Nat} {s : BufferPool TreePage n} (hs : Holds s m)
    {t : Option (Σ d, PageTree d)} (h : HoldsTree index m t) (key : Int) (rid : RID) :
    (∀ msg s', BPlusTree.insert BufferPool.store index key rid s = .error (.runtimeError msg) s' →
      NoEffect index s s') ↔ ¬ StarvesIndex index s key t := by
  obtain ⟨-, herr⟩ := insert_pool key rid hs h
  have hframes : (⟨s.pins, s.unpinned⟩ : Frames) = m.frames := by
    rw [PageMap.frames, funext hs.pins_eq, hs.free_eq]
  constructor
  · intro hno hstarve
    cases t with
    | none => exact hstarve
    | some tr =>
      change tr.2.Starves index ⟨s.pins, s.unpinned⟩ key at hstarve
      rw [hframes, ← insert_starved_iff (e := ⟨key, rid⟩) m.numPages tr.2 h.stored.ordered]
        at hstarve
      obtain ⟨p, hp⟩ := hstarve
      obtain ⟨e, m', hm, ⟨msg, rfl⟩, hpin⟩ := insert_stopped hs.wf h hp
      obtain ⟨s', hrun, hs'⟩ := (insert_refines (n := n) index key rid).error (live_nil.mpr hs) hm
        Fault.noConfusion
      have hsame := (hno msg s' hrun).pins_eq p
      rw [← hs'.pins_eq, ← hs.pins_eq, hpin] at hsame
      exact absurd hsame (Nat.succ_ne_self _)
  · intro hstarve msg s' hrun
    obtain ⟨m', hm, hs'⟩ := herr _ s' hrun
    suffices hsame : m' = m from noEffect_of_holds hs (hsame ▸ hs')
    cases t with
    | none =>
      by_cases hfree : m.free = 0
      · rw [insert_first_none h hfree] at hm
        cases hm
        rfl
      · rw [insert_first hs.wf h hfree] at hm
        cases hm
    | some tr =>
      cases hins : tr.2.insert index m.frames ⟨key, rid⟩ m.numPages with
      | ok r =>
        obtain ⟨m'', h', -⟩ := insert_grown hs.wf h hins
        rw [hm] at h'
        cases h'
      | error stop =>
        obtain ⟨e, m'', h', hstop⟩ := insert_stopped hs.wf h hins
        rw [hm] at h'
        cases h'
        cases stop with
        | noFrame => exact hstop.2
        | full => cases hstop
        | starved p =>
          refine absurd ?_ hstarve
          change tr.2.Starves index ⟨s.pins, s.unpinned⟩ key
          rw [hframes, ← insert_starved_iff (e := ⟨key, rid⟩) m.numPages tr.2 h.stored.ordered]
          exact ⟨p, hins⟩

theorem insert_failure_noEffect_oneLeaf : ∃ (index : BPlusTree) (s : BufferPool TreePage 1)
    (m : PageMap TreePage) (t : Option (Σ d, PageTree d)), Holds s m ∧ HoldsTree index m t ∧
      ¬ (∀ msg s', BPlusTree.insert BufferPool.store index 2 ⟨0, 1⟩ s = .error (.runtimeError msg) s' →
        NoEffect index s s') ∧
      ∀ msg s', BPlusTree.insert BufferPool.store index 1 ⟨0, 1⟩ s = .error (.runtimeError msg) s' →
        NoEffect index s s' := by
  have h₀ : Holds (BufferPool.init 1 ⟨0, fun _ => 0⟩ : BufferPool TreePage 1) _ := holds_init _
  obtain ⟨index, s, -, rfl, hl⟩ := (insert_refines (n := 1) ⟨invalidPageId, 2, 3, le_rfl, le_rfl⟩ 1 ⟨0, 0⟩).ok
    (live_nil.mpr h₀) (insert_first h₀.wf rfl (by decide))
  have hs := live_nil.mp hl
  have hpins : s.pins 0 = 0 := (hs.pins_eq 0).symm
  have hfree : s.unpinned = 1 := hs.free_eq.symm
  have ht : HoldsTree ⟨0, 2, 3, le_rfl, le_rfl⟩
      ((BufferPool.init 1 ⟨0, fun _ => 0⟩ : BufferPool TreePage 1).view.grow _)
      (some ⟨0, (⟨0, [⟨1, ⟨0, 0⟩⟩], invalidPageId⟩ : LeafNode)⟩) := rooted_first rfl
  refine ⟨_, s, _, _, hs, ht, ?_, ?_⟩
  · rw [insert_failure_noEffect_iff hs ht, not_not]
    refine ⟨Or.inr ?_, by decide, by decide, by decide, ?_⟩
    · rw [hfree]
      exact one_ne_zero
    · simp only [Frames.need, hpins, hfree]
      decide
  · rw [insert_failure_noEffect_iff hs ht]
    exact fun h => h.2.1 (by decide)

/-- One frame and leaves of at most two entries: the second call throws in the
leaf split, with its key in the leaf and the leaf pinned. -/
theorem insert_failure_leaks : ∃ (index : BPlusTree) (s s' : BufferPool TreePage 1),
    BPlusTree.insert BufferPool.store ⟨invalidPageId, 2, 3, le_rfl, le_rfl⟩ 1 ⟨0, 0⟩
      (BufferPool.init 1 ⟨0, fun _ => 0⟩) = .ok index s ∧
    BPlusTree.insert BufferPool.store index 2 ⟨0, 1⟩ s =
      .error (.runtimeError (lit "BPlusTree — buffer pool full during leaf split")) s' ∧
    s.pins 0 = 0 ∧ s'.pins 0 = 1 ∧
    answer (search BufferPool.store index 2 s) = .ok none ∧
    answer (search BufferPool.store index 2 s') = .ok (some ⟨0, 1⟩) :=
  ⟨_, _, _, rfl, rfl, rfl, rfl, rfl, rfl⟩

end MyDB.Storage

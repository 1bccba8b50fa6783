import MyDB.Lib.SepList
import MyDB.Lib.SortedAssoc
import MyDB.Storage.BPlusTree

/-! The tree that the pages of an index hold, and what `Insert` does to it.
All leaves of a `PageTree d` are at depth `d`. A call can stop early: on a page that
has no room for one more entry, or for want of frames. -/

namespace MyDB.Storage
open Lib

structure LeafNode where
  pid : PageId
  entries : List LeafEntry
  next : PageId
  deriving DecidableEq

structure InnerNode (α : Type) where
  pid : PageId
  row : SepList Int α
  deriving DecidableEq

@[reducible] def PageTree : Nat → Type
  | 0 => LeafNode
  | d + 1 => InnerNode (PageTree d)

/-- What the pool grants: the pin counts, and the number of unpinned frames. -/
structure Frames where
  pins : PageId → Nat
  free : Nat

namespace Frames

def Fetchable (fr : Frames) (p : PageId) : Prop := fr.pins p ≠ 0 ∨ fr.free ≠ 0

instance (fr : Frames) (p : PageId) : Decidable (fr.Fetchable p) := inferInstanceAs (Decidable (_ ∨ _))

def need (fr : Frames) (p : PageId) : Nat := if fr.pins p = 0 then 2 else 1

theorem fetchable_of_need {fr : Frames} {p q : PageId} (h : fr.need p ≤ fr.free) : fr.Fetchable q := by
  unfold need at h
  refine Or.inr ?_
  split_ifs at h <;> omega

end Frames

inductive Stop where
  | noFrame
  | full
  | starved (p : PageId)
  deriving DecidableEq

namespace LeafNode

def upsert (e : LeafEntry) (lf : LeafNode) : LeafNode :=
  { lf with entries := Lib.upsert (·.key) e lf.entries }

def Has (key : Int) (lf : LeafNode) : Prop := ∃ b ∈ lf.entries, b.key = key

instance (key : Int) (lf : LeafNode) : Decidable (lf.Has key) := List.decidableBEx _ _

def split (lf : LeafNode) (np : Nat) : SepList Int LeafNode :=
  let mid := lf.entries.length / 2
  .cons ⟨lf.pid, lf.entries.take mid, np⟩ (lf.entries.getD mid default).key
    (.one ⟨np, lf.entries.drop mid, lf.next⟩)

/-- The nodes that take the place of `lf`, and the number of pages then. -/
def insert (index : BPlusTree) (fr : Frames) (e : LeafEntry) (lf : LeafNode) (np : Nat) :
    Except Stop (SepList Int LeafNode × Nat) :=
  if ¬ fr.Fetchable lf.pid then .error .noFrame
  else if lf.Has e.key then .ok (.one (lf.upsert e), np)
  else if leafCapacity ≤ lf.entries.length then .error .full
  else if (lf.upsert e).entries.length < index.leafMaxSize then .ok (.one (lf.upsert e), np)
  else if fr.free < fr.need lf.pid then .error (.starved lf.pid)
  else .ok ((lf.upsert e).split np, np + 1)

end LeafNode

namespace InnerNode
variable {α : Type}

def split (nd : InnerNode α) (np : Nat) : SepList Int (InnerNode α) :=
  let i := nd.row.size / 2 - 1
  .cons ⟨nd.pid, nd.row.take i⟩ (nd.row.sepAt i) (.one ⟨np, nd.row.drop i⟩)

def replace (key : Int) (x : SepList Int α) (nd : InnerNode α) : InnerNode α :=
  { nd with row := nd.row.replace key x }

/-- The child on the path to `key` has become `x`. -/
def absorb (index : BPlusTree) (fr : Frames) (key : Int) (nd : InnerNode α) :
    SepList Int α × Nat → Except Stop (SepList Int (InnerNode α) × Nat)
  | (.one c, np) => .ok (.one (nd.replace key (.one c)), np)
  | (.cons l s r, np) =>
    if internalCapacity ≤ nd.row.size then .error .full
    else if (nd.replace key (.cons l s r)).row.size ≤ index.internalMaxSize then
      .ok (.one (nd.replace key (.cons l s r)), np)
    else if fr.free < fr.need nd.pid then .error (.starved nd.pid)
    else .ok ((nd.replace key (.cons l s r)).split np, np + 1)

end InnerNode

namespace PageTree

def pid : {d : Nat} → PageTree d → PageId
  | 0, lf => LeafNode.pid lf
  | _ + 1, nd => InnerNode.pid nd

def pages : {d : Nat} → PageTree d → List PageId
  | 0, lf => [LeafNode.pid lf]
  | d + 1, nd => InnerNode.pid nd :: (InnerNode.row nd).flat (pages (d := d)) fun _ => []

def leaves : {d : Nat} → PageTree d → List LeafNode
  | 0, lf => [lf]
  | d + 1, nd => (InnerNode.row nd).flat (leaves (d := d)) fun _ => []

def entries {d : Nat} (tr : PageTree d) : List LeafEntry := tr.leaves.flatMap (·.entries)

/-- The tree read in order, as points of a line: the separator `s` is the point
`2 * s`, just left of the point `2 * s + 1` of the key `s`. -/
def marks : {d : Nat} → PageTree d → List Int
  | 0, lf => (LeafNode.entries lf).map fun b => 2 * b.key + 1
  | d + 1, nd => (InnerNode.row nd).flat (marks (d := d)) fun s => [2 * s]

def Ordered {d : Nat} (tr : PageTree d) : Prop := tr.marks.Pairwise (· < ·)

def leafOf (key : Int) : {d : Nat} → PageTree d → LeafNode
  | 0, lf => lf
  | _ + 1, nd => leafOf key ((InnerNode.row nd).child key)

def insert (index : BPlusTree) (fr : Frames) (e : LeafEntry) :
    {d : Nat} → PageTree d → Nat → Except Stop (SepList Int (PageTree d) × Nat)
  | 0, lf, np => LeafNode.insert index fr e lf np
  | d + 1, nd, np =>
    if ¬ fr.Fetchable (InnerNode.pid nd) then .error .noFrame
    else insert index fr e (d := d) ((InnerNode.row nd).child e.key) np >>=
      InnerNode.absorb index fr e.key nd

variable {d : Nat} (lf : LeafNode) (nd : InnerNode (PageTree d))

theorem induction {motive : ∀ {d : Nat}, PageTree d → Prop} (leaf : ∀ lf : LeafNode, motive (d := 0) lf)
    (inner : ∀ {d : Nat} (nd : InnerNode (PageTree d)), (∀ c ∈ nd.row.items, motive c) →
      motive (d := d + 1) nd) {d : Nat} (tr : PageTree d) : motive tr := by
  induction d with
  | zero => exact leaf tr
  | succ d ih => exact inner tr fun c _ => ih c

@[simp] theorem pid_zero : pid (d := 0) lf = lf.pid := rfl

@[simp] theorem pid_succ : pid (d := d + 1) nd = nd.pid := rfl

@[simp] theorem pages_zero : pages (d := 0) lf = [lf.pid] := rfl

@[simp] theorem pages_succ : pages (d := d + 1) nd = nd.pid :: nd.row.flat pages fun _ => [] := rfl

@[simp] theorem leaves_zero : leaves (d := 0) lf = [lf] := rfl

@[simp] theorem leaves_succ : leaves (d := d + 1) nd = nd.row.flat leaves fun _ => [] := rfl

theorem entries_zero : entries (d := 0) lf = lf.entries := List.append_nil _

theorem entries_succ :
    entries (d := d + 1) nd = (nd.row.flat leaves fun _ => []).flatMap (·.entries) := rfl

@[simp] theorem marks_zero : marks (d := 0) lf = lf.entries.map fun b => 2 * b.key + 1 := rfl

@[simp] theorem marks_succ : marks (d := d + 1) nd = nd.row.flat marks fun s => [2 * s] := rfl

theorem ordered_zero :
    Ordered (d := 0) lf ↔ (lf.entries.map fun b => 2 * b.key + 1).Pairwise (· < ·) := Iff.rfl

theorem ordered_succ :
    Ordered (d := d + 1) nd ↔ (nd.row.flat marks fun s => [2 * s]).Pairwise (· < ·) := Iff.rfl

@[simp] theorem leafOf_zero (key : Int) : leafOf key (d := 0) lf = lf := rfl

@[simp] theorem leafOf_succ (key : Int) : leafOf key (d := d + 1) nd = leafOf key (nd.row.child key) := rfl

theorem insert_succ (index : BPlusTree) (fr : Frames) (e : LeafEntry) (np : Nat) :
    insert index fr e (d := d + 1) nd np =
      if ¬ fr.Fetchable nd.pid then .error .noFrame
      else (nd.row.child e.key).insert index fr e np >>= nd.absorb index fr e.key := rfl

end PageTree

variable {index : BPlusTree} {fr : Frames} {e : LeafEntry}

/-! ## One step -/

theorem LeafNode.length_upsert_of_has {lf : LeafNode} (h : lf.Has e.key)
    (hs : (lf.entries.map (·.key)).Pairwise (· < ·)) :
    (lf.upsert e).entries.length = lf.entries.length := by
  obtain ⟨b, hb, hk⟩ := h
  have hsome : (lf.entries.findIdx? fun b => b.key = e.key).isSome := by
    rw [List.findIdx?_isSome, List.any_eq_true]
    exact ⟨b, hb, decide_eq_true hk⟩
  obtain ⟨i, hi⟩ := Option.isSome_iff_exists.mp hsome
  rw [upsert, upsert_of_findIdx hs hi, List.length_set]

theorem LeafNode.length_upsert_of_not_has {lf : LeafNode} (h : ¬ lf.Has e.key)
    (hs : (lf.entries.map (·.key)).Pairwise (· < ·)) :
    (lf.upsert e).entries.length = lf.entries.length + 1 := by
  obtain ⟨l₁, l₂, hl, hup, -⟩ := upsert_of_absent (a := e) hs fun b hb hk => h ⟨b, hb, hk⟩
  rw [upsert, hup, hl]
  simp only [List.length_append, List.length_cons]
  omega

theorem LeafNode.insert_ok {lf : LeafNode} {np np' : Nat} {x : SepList Int LeafNode}
    (h : lf.insert index fr e np = .ok (x, np')) :
    (x = .one (lf.upsert e) ∧ np' = np ∧
      (lf.Has e.key ∨ (lf.upsert e).entries.length < index.leafMaxSize)) ∨
    (x = (lf.upsert e).split np ∧ np' = np + 1 ∧ ¬ lf.Has e.key ∧
      index.leafMaxSize ≤ (lf.upsert e).entries.length ∧ fr.need lf.pid ≤ fr.free) := by
  unfold insert at h
  split_ifs at h with h1 h2 h3 h4 h5
  all_goals simp only [Except.ok.injEq, Prod.mk.injEq] at h
  · exact Or.inl ⟨h.1.symm, h.2.symm, Or.inl h2⟩
  · exact Or.inl ⟨h.1.symm, h.2.symm, Or.inr h4⟩
  · exact Or.inr ⟨h.1.symm, h.2.symm, h2, not_lt.mp h4, not_lt.mp h5⟩

theorem InnerNode.absorb_ok {α : Type} {nd : InnerNode α} {y : SepList Int α} {np np' : Nat}
    {x : SepList Int (InnerNode α)} (h : nd.absorb index fr e.key (y, np) = .ok (x, np')) :
    (x = .one (nd.replace e.key y) ∧ np' = np ∧
      (y.size = 1 ∨ (nd.replace e.key y).row.size ≤ index.internalMaxSize)) ∨
    (x = (nd.replace e.key y).split np ∧ np' = np + 1 ∧
      index.internalMaxSize < (nd.replace e.key y).row.size ∧ fr.need nd.pid ≤ fr.free) := by
  cases y with
  | one c =>
    simp only [absorb, Except.ok.injEq, Prod.mk.injEq] at h
    exact Or.inl ⟨h.1.symm, h.2.symm, Or.inl rfl⟩
  | cons l s r =>
    simp only [absorb] at h
    split_ifs at h with h1 h2 h3
    all_goals simp only [Except.ok.injEq, Prod.mk.injEq] at h
    · exact Or.inl ⟨h.1.symm, h.2.symm, Or.inr h2⟩
    · exact Or.inr ⟨h.1.symm, h.2.symm, not_le.mp h2, not_lt.mp h3⟩

theorem PageTree.insert_succ_ok {d : Nat} {nd : InnerNode (PageTree d)} {np np' : Nat}
    {x : SepList Int (InnerNode (PageTree d))}
    (h : PageTree.insert index fr e (d := d + 1) nd np = .ok (x, np')) :
    ∃ y np₁, (nd.row.child e.key).insert index fr e np = .ok (y, np₁) ∧
      nd.absorb index fr e.key (y, np₁) = .ok (x, np') := by
  rw [PageTree.insert_succ] at h
  split_ifs at h with hf
  cases hc : (nd.row.child e.key).insert index fr e np with
  | error stop =>
    rw [hc] at h
    cases h
  | ok r =>
    rw [hc] at h
    exact ⟨r.1, r.2, rfl, h⟩

theorem PageTree.insert_induction
    {motive : ∀ {d : Nat}, PageTree d → Nat → SepList Int (PageTree d) → Nat → Prop}
    (leaf : ∀ (lf : LeafNode) np x np', lf.insert index fr e np = .ok (x, np') →
      motive (d := 0) lf np x np')
    (inner : ∀ {d : Nat} (nd : InnerNode (PageTree d)) np y np₁ x np',
      motive (nd.row.child e.key) np y np₁ → nd.absorb index fr e.key (y, np₁) = .ok (x, np') →
      motive (d := d + 1) nd np x np')
    {d : Nat} {tr : PageTree d} {np np' : Nat} {x : SepList Int (PageTree d)}
    (h : tr.insert index fr e np = .ok (x, np')) : motive tr np x np' := by
  induction d generalizing np np' with
  | zero => exact leaf tr np x np' h
  | succ d ih =>
    obtain ⟨y, np₁, hy, hx⟩ := insert_succ_ok h
    exact inner tr np y np₁ x np' (ih hy) hx

end MyDB.Storage

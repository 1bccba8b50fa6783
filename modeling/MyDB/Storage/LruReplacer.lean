import Mathlib

/-! The replacer of the buffer pool. `lruMap` holds list iterators, which
`std::list` keeps valid while their node lives, so a node carries an identity
and the map holds that identity. The fields below `nextNode` say that the map
indexes exactly the nodes of the list. -/

namespace MyDB.Storage

structure LruNode (F : Type) where
  node : Nat
  frame : F
  deriving DecidableEq, Repr

structure LruReplacer (F : Type) where
  /-- Most recently used first. -/
  lruList : List (LruNode F)
  lruMap : F → Option Nat
  evictable : Finset F
  nextNode : Nat
  nodes_nodup : (lruList.map LruNode.node).Nodup
  map_iff : ∀ f i, lruMap f = some i ↔ ⟨i, f⟩ ∈ lruList
  node_lt : ∀ a ∈ lruList, a.node < nextNode

namespace LruReplacer
variable {F : Type}

def order (r : LruReplacer F) : List F := r.lruList.map LruNode.frame

def empty : LruReplacer F where
  lruList := []
  lruMap := fun _ => none
  evictable := ∅
  nextNode := 0
  nodes_nodup := List.nodup_nil
  map_iff := by simp
  node_lt := by simp

@[simp] theorem order_empty : (empty : LruReplacer F).order = [] := rfl

@[simp] theorem evictable_empty : (empty : LruReplacer F).evictable = ∅ := rfl

theorem node_inj (r : LruReplacer F) {a b : LruNode F} (ha : a ∈ r.lruList) (hb : b ∈ r.lruList)
    (h : a.node = b.node) : a = b :=
  List.inj_on_of_nodup_map r.nodes_nodup ha hb h

theorem frame_inj (r : LruReplacer F) {a b : LruNode F} (ha : a ∈ r.lruList) (hb : b ∈ r.lruList)
    (h : a.frame = b.frame) : a = b := by
  have h1 := (r.map_iff a.frame a.node).mpr ha
  have h2 := (r.map_iff b.frame b.node).mpr hb
  rw [h, h2] at h1
  exact r.node_inj ha hb (Option.some.inj h1).symm

theorem order_nodup (r : LruReplacer F) : r.order.Nodup :=
  List.Nodup.map_on (fun _ ha _ hb h => r.frame_inj ha hb h) (List.Nodup.of_map _ r.nodes_nodup)

theorem mem_order (r : LruReplacer F) (f : F) : f ∈ r.order ↔ ∃ i, r.lruMap f = some i := by
  simp only [order, List.mem_map, r.map_iff]
  constructor
  · rintro ⟨a, ha, rfl⟩
    exact ⟨a.node, ha⟩
  · rintro ⟨i, hi⟩
    exact ⟨_, hi, rfl⟩

/-- `lru_list_.erase(it)`. -/
def eraseNode (l : List (LruNode F)) (it : Nat) : List (LruNode F) :=
  l.filter fun a => a.node ≠ it

theorem mem_eraseNode {l : List (LruNode F)} {it : Nat} {a : LruNode F} :
    a ∈ eraseNode l it ↔ a ∈ l ∧ a.node ≠ it := by
  simp [eraseNode]

theorem eraseNode_nodup {l : List (LruNode F)} (h : (l.map LruNode.node).Nodup) (it : Nat) :
    ((eraseNode l it).map LruNode.node).Nodup :=
  h.sublist (List.filter_sublist.map _)

variable [DecidableEq F]

theorem order_eraseNode (r : LruReplacer F) {a : LruNode F} (ha : a ∈ r.lruList) :
    (eraseNode r.lruList a.node).map LruNode.frame = r.order.filter (· ≠ a.frame) := by
  rw [order, List.filter_map, eraseNode]
  congr 1
  apply List.filter_congr
  intro b hb
  by_cases h : b = a
  · simp [h]
  · have hn : b.node ≠ a.node := fun e => h (r.node_inj hb ha e)
    have hf : b.frame ≠ a.frame := fun e => h (r.frame_inj hb ha e)
    simp [hn, hf]

/-- The list, map and set erasures that `Evict` and `Remove` make for one node. -/
def eraseEntry (r : LruReplacer F) (a : LruNode F) (ha : a ∈ r.lruList) : LruReplacer F where
  lruList := eraseNode r.lruList a.node
  lruMap := Function.update r.lruMap a.frame none
  evictable := r.evictable.erase a.frame
  nextNode := r.nextNode
  nodes_nodup := eraseNode_nodup r.nodes_nodup _
  map_iff := by
    intro f i
    rw [mem_eraseNode]
    by_cases hf : f = a.frame
    · subst hf
      simp only [Function.update_self, reduceCtorEq, false_iff, not_and, not_not]
      exact fun h => congrArg LruNode.node (r.frame_inj h ha rfl)
    · rw [Function.update_of_ne hf, r.map_iff, iff_self_and]
      exact fun h e => hf (congrArg LruNode.frame (r.node_inj h ha e))
  node_lt := fun b hb => r.node_lt b (mem_eraseNode.mp hb).1

theorem order_eraseEntry (r : LruReplacer F) (a : LruNode F) (ha : a ∈ r.lruList) :
    (r.eraseEntry a ha).order = r.order.filter (· ≠ a.frame) := r.order_eraseNode ha

/-- `Evict`: the scan runs from the back of the list. -/
def evict (r : LruReplacer F) : Option (F × LruReplacer F) :=
  match h : r.lruList.reverse.find? fun a => a.frame ∈ r.evictable with
  | some a => some (a.frame, r.eraseEntry a (List.mem_reverse.mp (List.mem_of_find?_eq_some h)))
  | none => none

def recordAccess (r : LruReplacer F) (f : F) : LruReplacer F where
  lruList := ⟨r.nextNode, f⟩ ::
    (match r.lruMap f with
      | some it => eraseNode r.lruList it
      | none => r.lruList)
  lruMap := Function.update r.lruMap f (some r.nextNode)
  evictable := r.evictable
  nextNode := r.nextNode + 1
  nodes_nodup := by
    rw [List.map_cons, List.nodup_cons]
    cases h : r.lruMap f with
    | none =>
      refine ⟨fun hm => ?_, r.nodes_nodup⟩
      obtain ⟨a, ha, he⟩ := List.mem_map.mp hm
      exact (r.node_lt a ha).ne he
    | some it =>
      refine ⟨fun hm => ?_, eraseNode_nodup r.nodes_nodup _⟩
      obtain ⟨a, ha, he⟩ := List.mem_map.mp hm
      exact (r.node_lt a (mem_eraseNode.mp ha).1).ne he
  map_iff := by
    intro g i
    by_cases hg : g = f
    · subst hg
      simp only [Function.update_self, Option.some.injEq, List.mem_cons, LruNode.mk.injEq, and_true]
      constructor
      · exact fun h => Or.inl h.symm
      · rintro (h | h)
        · exact h.symm
        · cases hm : r.lruMap g with
          | none =>
            rw [hm] at h
            exact absurd ((r.map_iff g i).mpr h) (by simp [hm])
          | some it =>
            rw [hm] at h
            have hi := (r.map_iff g i).mpr (mem_eraseNode.mp h).1
            exact absurd (Option.some.inj (hm.symm.trans hi)).symm (mem_eraseNode.mp h).2
    · rw [Function.update_of_ne hg, r.map_iff]
      simp only [List.mem_cons, LruNode.mk.injEq, hg, and_false, false_or]
      cases hm : r.lruMap f with
      | none => rfl
      | some it =>
        simp only [mem_eraseNode, iff_self_and]
        intro h e
        exact hg (congrArg LruNode.frame (r.node_inj h ((r.map_iff f it).mp hm) e))
  node_lt := by
    intro a ha
    rcases List.mem_cons.mp ha with rfl | ha
    · exact Nat.lt_succ_self _
    · cases hm : r.lruMap f with
      | none =>
        rw [hm] at ha
        exact (r.node_lt a ha).trans (Nat.lt_succ_self _)
      | some it =>
        rw [hm] at ha
        exact (r.node_lt a (mem_eraseNode.mp ha).1).trans (Nat.lt_succ_self _)

def setEvictable (r : LruReplacer F) (f : F) (evictable : Bool) : LruReplacer F :=
  { r with evictable := if evictable then insert f r.evictable else r.evictable.erase f }

def remove (r : LruReplacer F) (f : F) : LruReplacer F :=
  match h : r.lruMap f with
  | some it => r.eraseEntry ⟨it, f⟩ ((r.map_iff f it).mp h)
  | none => { r with evictable := r.evictable.erase f }

def size (r : LruReplacer F) : Nat := r.evictable.card

/-! What each operation does to the order and to the evictable set. -/

theorem filter_ne_of_not_mem (r : LruReplacer F) {f : F} (h : r.lruMap f = none) :
    r.order.filter (· ≠ f) = r.order := by
  apply List.filter_eq_self.mpr
  intro g hg
  obtain ⟨i, hi⟩ := (r.mem_order g).mp hg
  have : g ≠ f := fun e => by rw [e, h] at hi; cases hi
  simpa using this

@[simp] theorem order_recordAccess (r : LruReplacer F) (f : F) :
    (r.recordAccess f).order = f :: r.order.filter (· ≠ f) := by
  rw [order, recordAccess, List.map_cons]
  cases h : r.lruMap f with
  | none => exact congrArg (List.cons f) (r.filter_ne_of_not_mem h).symm
  | some it => exact congrArg (List.cons f) (r.order_eraseNode ((r.map_iff f it).mp h))

@[simp] theorem evictable_recordAccess (r : LruReplacer F) (f : F) :
    (r.recordAccess f).evictable = r.evictable := rfl

@[simp] theorem order_setEvictable (r : LruReplacer F) (f : F) (b : Bool) :
    (r.setEvictable f b).order = r.order := rfl

@[simp] theorem evictable_setEvictable (r : LruReplacer F) (f : F) (b : Bool) :
    (r.setEvictable f b).evictable = if b then insert f r.evictable else r.evictable.erase f := rfl

@[simp] theorem order_remove (r : LruReplacer F) (f : F) :
    (r.remove f).order = r.order.filter (· ≠ f) := by
  unfold remove
  split
  · exact r.order_eraseEntry _ _
  · next h => exact (r.filter_ne_of_not_mem h).symm

@[simp] theorem evictable_remove (r : LruReplacer F) (f : F) :
    (r.remove f).evictable = r.evictable.erase f := by
  unfold remove
  split <;> rfl

theorem evict_eq_none_iff (r : LruReplacer F) :
    r.evict = none ↔ ∀ f ∈ r.order, f ∉ r.evictable := by
  unfold evict
  split
  · next a h =>
    have ha := List.mem_reverse.mp (List.mem_of_find?_eq_some h)
    have he := List.find?_some h
    simp only [reduceCtorEq, false_iff, not_forall, not_not]
    exact ⟨a.frame, List.mem_map_of_mem ha, by simpa using he⟩
  · next h =>
    simp only [true_iff]
    intro f hf
    obtain ⟨a, ha, rfl⟩ := List.mem_map.mp hf
    simpa using List.find?_eq_none.mp h a (List.mem_reverse.mpr ha)

theorem evict_eq_some (r : LruReplacer F) {f : F} {r' : LruReplacer F} (h : r.evict = some (f, r')) :
    r.order.reverse.find? (· ∈ r.evictable) = some f ∧
      r'.order = r.order.filter (· ≠ f) ∧ r'.evictable = r.evictable.erase f := by
  unfold evict at h
  split at h
  · next a ha =>
    obtain ⟨rfl, rfl⟩ := Prod.mk.inj (Option.some.inj h)
    refine ⟨?_, r.order_eraseEntry a _, rfl⟩
    rw [order, ← List.map_reverse, List.find?_map]
    exact congrArg (Option.map LruNode.frame) ha
  · cases h

theorem mem_of_evict (r : LruReplacer F) {f : F} {r' : LruReplacer F} (h : r.evict = some (f, r')) :
    f ∈ r.order ∧ f ∈ r.evictable := by
  have hf := (r.evict_eq_some h).1
  exact ⟨List.mem_reverse.mp (List.mem_of_find?_eq_some hf), by simpa using List.find?_some hf⟩

end LruReplacer

end MyDB.Storage

import Mathlib.Data.Multiset.Bind
import Mathlib.Data.List.Forall2

/-! Relational algebra on bags of rows. A row has a value for each attribute of the
header, of the kind that the attribute asks for. -/

namespace MyDB.Lib
variable {V A : Type}

structure Relation (T : V → A → Prop) where
  header : List A
  rows : Multiset (List V)
  typed : ∀ row ∈ rows, List.Forall₂ T row header

def pick {B : Type} (positions : List Nat) (l : List B) : List B := positions.filterMap (l[·]?)

theorem forall₂_getElem? {R : V → A → Prop} {l : List V} {l' : List A} (h : List.Forall₂ R l l') (i : Nat) :
    Option.Rel R l[i]? l'[i]? := by
  induction h generalizing i with
  | nil => exact .none
  | cons hr _ ih =>
    cases i with
    | zero => exact .some hr
    | succ i => exact ih i

theorem forall₂_pick {R : V → A → Prop} {l : List V} {l' : List A} (h : List.Forall₂ R l l') (positions : List Nat) :
    List.Forall₂ R (pick positions l) (pick positions l') := by
  refine List.rel_filterMap (R := Eq) ?_ (List.forall₂_refl positions)
  rintro i _ rfl
  exact forall₂_getElem? h i

namespace Relation
variable {T : V → A → Prop}

instance : Inhabited (Relation T) := ⟨⟨[], 0, fun _ h => absurd h (Multiset.notMem_zero _)⟩⟩

def select (p : List V → Bool) (r : Relation T) : Relation T where
  header := r.header
  rows := r.rows.filter fun row => p row
  typed := fun row h => r.typed row (Multiset.mem_filter.mp h).1

/-- The pairs of rows that satisfy a condition: for each row of the one, those of the
other. -/
def join (θ : List V → List V → Bool) (r s : Relation T) : Relation T where
  header := r.header ++ s.header
  rows := r.rows.bind fun a => (s.rows.filter fun b => θ a b).map fun b => a ++ b
  typed := by
    intro row h
    obtain ⟨a, ha, h⟩ := Multiset.mem_bind.mp h
    obtain ⟨b, hb, rfl⟩ := Multiset.mem_map.mp h
    exact List.rel_append (r.typed a ha) (s.typed b (Multiset.mem_filter.mp hb).1)

def project (positions : List Nat) (r : Relation T) : Relation T where
  header := pick positions r.header
  rows := r.rows.map (pick positions)
  typed := by
    intro row h
    obtain ⟨a, ha, rfl⟩ := Multiset.mem_map.mp h
    exact forall₂_pick (r.typed a ha) positions

def rename (f : A → A) (hf : ∀ v a, T v a → T v (f a)) (r : Relation T) : Relation T where
  header := r.header.map f
  rows := r.rows
  typed := fun row h => List.forall₂_map_right_iff.mpr ((r.typed row h).imp fun v a hva => hf v a hva)

theorem map_filter_eq_bind {B C : Type} (p : B → Bool) (f : B → C) (s : Multiset B) :
    (s.filter fun b => p b).map f = s.bind fun b => if p b then {f b} else 0 := by
  induction s using Multiset.induction_on with
  | empty => rfl
  | cons b s ih =>
    rw [Multiset.cons_bind, ← ih, Multiset.filter_cons]
    by_cases hb : p b
    · simp [hb]
    · simp [hb]

theorem join_rows_coe (θ : List V → List V → Bool) {r s : Relation T} {as bs : List (List V)} (hr : r.rows = as)
    (hs : s.rows = bs) : (r.join θ s).rows = ↑(bs.flatMap fun b => (as.filter fun a => θ a b).map fun a => a ++ b) := by
  have hswap : (r.join θ s).rows = s.rows.bind fun b => (r.rows.filter fun a => θ a b).map fun a => a ++ b := by
    show (r.rows.bind fun a => (s.rows.filter fun b => θ a b).map fun b => a ++ b) = _
    simp only [map_filter_eq_bind]
    exact Multiset.bind_bind r.rows s.rows
  rw [hswap, hr, hs, ← Multiset.coe_bind]
  simp only [Multiset.filter_coe, Multiset.map_coe, Bool.decide_eq_true]

end Relation
end MyDB.Lib

import Mathlib

/-! Nonempty sequences with a separator between neighbours, as the children of
a search-tree node. `child k` is the item whose range of separators holds `k`,
and `replace k x` puts the sequence `x` in its place. -/

namespace MyDB.Lib

inductive SepList (K α : Type) where
  | one (a : α)
  | cons (a : α) (s : K) (rest : SepList K α)
  deriving DecidableEq, Repr

namespace SepList
variable {K α β : Type}

def size : SepList K α → Nat
  | one _ => 1
  | cons _ _ r => r.size + 1

def head : SepList K α → α
  | one a => a
  | cons a _ _ => a

def last : SepList K α → α
  | one a => a
  | cons _ _ r => r.last

def flat (g : α → List β) (h : K → List β) : SepList K α → List β
  | one a => g a
  | cons a s r => g a ++ (h s ++ flat g h r)

def items (r : SepList K α) : List α := r.flat (fun a => [a]) fun _ => []

def seps (r : SepList K α) : List K := r.flat (fun _ => []) fun s => [s]

/-- Each item with the separator on its left; `k₀` stands left of the first. -/
def pairs (k₀ : K) : SepList K α → List (K × α)
  | one a => [(k₀, a)]
  | cons a s r => (k₀, a) :: r.pairs s

def append : SepList K α → K → SepList K α → SepList K α
  | one a, s, r => cons a s r
  | cons a s' l, s, r => cons a s' (l.append s r)

def take : Nat → SepList K α → SepList K α
  | _, one a => one a
  | 0, cons a _ _ => one a
  | i + 1, cons a s r => cons a s (r.take i)

def drop : Nat → SepList K α → SepList K α
  | _, one a => one a
  | 0, cons _ _ r => r
  | i + 1, cons _ _ r => r.drop i

def sepAt [Inhabited K] : Nat → SepList K α → K
  | _, one _ => default
  | 0, cons _ s _ => s
  | i + 1, cons _ _ r => r.sepAt i

@[simp] theorem items_one (a : α) : (one a : SepList K α).items = [a] := rfl

@[simp] theorem items_cons (a : α) (s : K) (r : SepList K α) : (cons a s r).items = a :: r.items := rfl

@[simp] theorem seps_one (a : α) : (one a : SepList K α).seps = [] := rfl

@[simp] theorem seps_cons (a : α) (s : K) (r : SepList K α) : (cons a s r).seps = s :: r.seps := rfl

theorem size_pos (r : SepList K α) : 0 < r.size := by
  cases r <;> simp [size]

theorem length_pairs (k₀ : K) (r : SepList K α) : (r.pairs k₀).length = r.size := by
  induction r generalizing k₀ with
  | one a => rfl
  | cons a s r ih => simp [pairs, size, ih]

theorem pairs_fst (k₀ : K) (r : SepList K α) : (r.pairs k₀).map Prod.fst = k₀ :: r.seps := by
  induction r generalizing k₀ with
  | one a => rfl
  | cons a s r ih => simp [pairs, ih]

theorem pairs_head (r : SepList K α) : ∃ l, ∀ k₀, r.pairs k₀ = (k₀, r.head) :: l := by
  cases r <;> exact ⟨_, fun _ => rfl⟩

theorem head_mem (r : SepList K α) : r.head ∈ r.items := by
  cases r <;> simp [head]

theorem mem_flat {g : α → List β} {h : K → List β} {r : SepList K α} {b : β} :
    b ∈ r.flat g h ↔ (∃ a ∈ r.items, b ∈ g a) ∨ ∃ s ∈ r.seps, b ∈ h s := by
  induction r with
  | one a => simp [flat]
  | cons a s r ih =>
    simp only [flat, List.mem_append, ih, items_cons, seps_cons, List.exists_mem_cons_iff, or_assoc,
      or_left_comm (a := b ∈ h s)]

theorem infix_flat (g : α → List β) (h : K → List β) {r : SepList K α} {a : α} (ha : a ∈ r.items) :
    g a <:+: r.flat g h := by
  induction r with
  | one b =>
    obtain rfl := List.mem_singleton.mp ha
    exact List.infix_rfl
  | cons b s r ih =>
    rcases List.mem_cons.mp ha with rfl | ha
    · exact ⟨[], _, rfl⟩
    · refine (ih ha).trans ⟨g b ++ h s, [], ?_⟩
      simp [flat]

section Append
variable (g : α → List β) (h : K → List β)

theorem flat_append (l : SepList K α) (s : K) (r : SepList K α) :
    (l.append s r).flat g h = l.flat g h ++ (h s ++ r.flat g h) := by
  induction l with
  | one a => rfl
  | cons a s' l ih => simp only [append, flat, ih, List.append_assoc]

theorem items_append (l : SepList K α) (s : K) (r : SepList K α) :
    (l.append s r).items = l.items ++ r.items := flat_append _ _ l s r

theorem size_append (l : SepList K α) (s : K) (r : SepList K α) :
    (l.append s r).size = l.size + r.size := by
  induction l with
  | one a => simp [append, size, Nat.add_comm]
  | cons a s' l ih =>
    simp only [append, size, ih]
    omega

theorem pairs_append (k₀ : K) (l : SepList K α) (s : K) (r : SepList K α) :
    (l.append s r).pairs k₀ = l.pairs k₀ ++ r.pairs s := by
  induction l generalizing k₀ with
  | one a => rfl
  | cons a s' l ih => simp only [append, pairs, ih, List.cons_append]

theorem append_take_drop [Inhabited K] (r : SepList K α) (i : Nat) (hi : i + 1 < r.size) :
    (r.take i).append (r.sepAt i) (r.drop i) = r := by
  induction r generalizing i with
  | one a => simp [size] at hi
  | cons a s r ih =>
    cases i with
    | zero => rfl
    | succ i => simp only [take, drop, sepAt, append, ih i (by simpa [size] using hi)]

theorem size_take (r : SepList K α) (i : Nat) (hi : i + 1 ≤ r.size) : (r.take i).size = i + 1 := by
  induction r generalizing i with
  | one a =>
    simp only [size] at hi
    simp only [take, size]
    omega
  | cons a s r ih =>
    cases i with
    | zero => rfl
    | succ i => simp only [take, size, ih i (by simpa [size] using hi)]

theorem size_drop [Inhabited K] (r : SepList K α) (i : Nat) (hi : i + 1 < r.size) :
    (r.drop i).size = r.size - (i + 1) := by
  have hsize := congrArg size (append_take_drop r i hi)
  rw [size_append, size_take r i hi.le] at hsize
  omega

end Append

section Focus
variable [LinearOrder K]

def child (k : K) : SepList K α → α
  | one a => a
  | cons a s r => if k < s then a else r.child k

def replace (k : K) : SepList K α → SepList K α → SepList K α
  | one _, x => x
  | cons a s r, x => if k < s then x.append s r else cons a s (r.replace k x)

variable (g : α → List β) (h : K → List β)

def left (k : K) : SepList K α → List β
  | one _ => []
  | cons a s r => if k < s then [] else g a ++ (h s ++ r.left k)

def right (k : K) : SepList K α → List β
  | one _ => []
  | cons _ s r => if k < s then h s ++ r.flat g h else r.right k

theorem flat_child (k : K) (r : SepList K α) :
    r.flat g h = left g h k r ++ (g (r.child k) ++ right g h k r) := by
  induction r with
  | one a => simp [flat, left, child, right]
  | cons a s r ih =>
    simp only [left, child, right]
    split_ifs
    · simp [flat]
    · rw [flat, ih]
      simp only [List.append_assoc]

theorem flat_replace (k : K) (x r : SepList K α) :
    (r.replace k x).flat g h = left g h k r ++ (x.flat g h ++ right g h k r) := by
  induction r with
  | one a => simp [replace, left, right]
  | cons a s r ih =>
    simp only [replace, left, right]
    split_ifs
    · simp only [flat_append, List.nil_append]
    · simp only [flat, ih, List.append_assoc]

theorem child_mem (k : K) (r : SepList K α) : r.child k ∈ r.items := by
  induction r with
  | one a => simp [child]
  | cons a s r ih =>
    simp only [child, items_cons]
    split_ifs
    · exact List.mem_cons_self
    · exact List.mem_cons_of_mem _ ih

theorem items_child (k : K) (r : SepList K α) : r.items =
    left (fun a => [a]) (fun _ => []) k r ++ (r.child k :: right (fun a => [a]) (fun _ => []) k r) :=
  flat_child _ _ k r

theorem items_replace (k : K) (r x : SepList K α) : (r.replace k x).items =
    left (fun a => [a]) (fun _ => []) k r ++ (x.items ++ right (fun a => [a]) (fun _ => []) k r) :=
  flat_replace _ _ k x r

theorem mem_items_replace {k : K} {r x : SepList K α} {a : α} (h : a ∈ (r.replace k x).items) :
    a ∈ x.items ∨ a ∈ r.items := by
  simp only [items_replace, items_child k r, List.mem_append, List.mem_cons] at h ⊢
  rcases h with h | h | h
  · exact Or.inr (Or.inl h)
  · exact Or.inl h
  · exact Or.inr (Or.inr (Or.inr h))

theorem child_eq_last {k : K} {r : SepList K α} (h : ∀ s ∈ r.seps, s ≤ k) : r.child k = r.last := by
  induction r with
  | one a => rfl
  | cons a s r ih =>
    obtain ⟨hs, hr⟩ := List.forall_mem_cons.mp h
    rw [child, if_neg (not_lt.mpr hs), last, ih hr]

theorem last_replace {k : K} {r : SepList K α} (h : ∀ s ∈ r.seps, s ≤ k) (x : SepList K α) :
    (r.replace k x).last = x.last := by
  induction r with
  | one a => rfl
  | cons a s r ih =>
    obtain ⟨hs, hr⟩ := List.forall_mem_cons.mp h
    rw [replace, if_neg (not_lt.mpr hs), last, ih hr]

theorem size_replace (k : K) (x r : SepList K α) : (r.replace k x).size + 1 = r.size + x.size := by
  induction r with
  | one a => simp [replace, size, Nat.add_comm]
  | cons a s r ih =>
    simp only [replace]
    split_ifs
    · simp only [size_append, size]
      omega
    · simp only [size]
      omega

theorem pairs_replace (k₀ k : K) (r : SepList K α) :
    ∃ (l : List (K × α)) (k₁ : K) (t : List (K × α)),
      r.pairs k₀ = l ++ (k₁, r.child k) :: t ∧
      (∀ x, (r.replace k x).pairs k₀ = l ++ (x.pairs k₁ ++ t)) ∧
      l.map Prod.fst ++ [k₁] = k₀ :: left (fun _ => []) (fun s => [s]) k r ∧
      t.map Prod.fst = right (fun _ => []) (fun s => [s]) k r := by
  induction r generalizing k₀ with
  | one a => exact ⟨[], k₀, [], by simp [pairs, child, replace, left, right]⟩
  | cons a s r ih =>
    simp only [child, replace, left, right, pairs]
    split_ifs
    · refine ⟨[], k₀, r.pairs s, rfl, fun x => pairs_append k₀ x s r, rfl, ?_⟩
      exact pairs_fst s r
    · obtain ⟨l, k₁, t, h1, h2, h3, h4⟩ := ih s
      refine ⟨(k₀, a) :: l, k₁, t, by rw [h1, List.cons_append], ?_, ?_, h4⟩
      · intro x
        rw [pairs, h2, List.cons_append]
      · rw [List.map_cons, List.cons_append, h3]
        rfl

theorem mem_left {g : α → List β} {h : K → List β} {k : K} {r : SepList K α} {b : β} :
    b ∈ left g h k r ↔ (∃ a ∈ left (fun a => [a]) (fun _ => []) k r, b ∈ g a) ∨
      ∃ s ∈ left (fun _ => []) (fun s => [s]) k r, b ∈ h s := by
  induction r with
  | one a => simp [left]
  | cons a s r ih =>
    simp only [left]
    split_ifs
    · simp
    · simp only [List.mem_append, ih, List.nil_append, List.cons_append, List.exists_mem_cons_iff,
        or_assoc, or_left_comm (a := b ∈ h s)]

theorem mem_right {g : α → List β} {h : K → List β} {k : K} {r : SepList K α} {b : β} :
    b ∈ right g h k r ↔ (∃ a ∈ right (fun a => [a]) (fun _ => []) k r, b ∈ g a) ∨
      ∃ s ∈ right (fun _ => []) (fun s => [s]) k r, b ∈ h s := by
  induction r with
  | one a => simp [right]
  | cons a s r ih =>
    simp only [right]
    split_ifs
    · rw [List.mem_append, mem_flat, List.nil_append, List.cons_append, List.exists_mem_cons_iff]
      exact or_left_comm
    · exact ih

theorem left_lt_right [LinearOrder β] {g : α → List β} {c : K → β} {k : K} {x : β}
    (hgt : ∀ s, k < s → x < c s) (hle : ∀ s, s ≤ k → c s < x) {r : SepList K α}
    (hr : (r.flat g fun s => [c s]).Pairwise (· < ·)) :
    (∀ y ∈ left g (fun s => [c s]) k r, y < x) ∧ ∀ y ∈ right g (fun s => [c s]) k r, x < y := by
  induction r with
  | one a => simp [left, right]
  | cons a s r ih =>
    simp only [flat] at hr
    obtain ⟨-, hr', hcross⟩ := List.pairwise_append.mp hr
    simp only [left, right]
    split_ifs with hk
    · refine ⟨by simp, ?_⟩
      intro y hy
      rcases List.mem_cons.mp hy with rfl | hy
      · exact hgt s hk
      · exact (hgt s hk).trans ((List.pairwise_cons.mp hr').1 y hy)
    · have hs := hle s (not_lt.mp hk)
      have hrest := ih (List.pairwise_cons.mp hr').2
      refine ⟨?_, hrest.2⟩
      intro y hy
      rcases List.mem_append.mp hy with hy | hy
      · exact (hcross y hy (c s) (by simp)).trans hs
      · rcases List.mem_cons.mp hy with rfl | hy
        · exact hs
        · exact hrest.1 y hy

end Focus

end SepList

end MyDB.Lib

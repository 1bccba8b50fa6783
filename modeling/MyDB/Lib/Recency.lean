import Mathlib

/-! Lists of the most recently used elements. A log has the newest use first. -/

namespace MyDB.Lib
variable {α : Type} [DecidableEq α]

def touch (x : α) (l : List α) : List α := x :: l.filter (· ≠ x)

/-- The elements of a log, the most recently used first. -/
def recency : List α → List α
  | [] => []
  | x :: log => touch x (recency log)

theorem mem_touch {x y : α} {l : List α} : y ∈ touch x l ↔ y = x ∨ y ∈ l := by
  by_cases h : y = x <;> simp [touch, h]

theorem nodup_touch {x : α} {l : List α} (h : l.Nodup) : (touch x l).Nodup :=
  List.nodup_cons.mpr ⟨by simp, h.filter _⟩

theorem touch_of_not_mem {x : α} {l : List α} (h : x ∉ l) : touch x l = x :: l := by
  rw [touch, List.filter_eq_self.mpr]
  intro y hy
  simpa using ne_of_mem_of_not_mem hy h

theorem length_touch_of_mem {x : α} {l : List α} (h : x ∈ l) : (touch x l).length ≤ l.length := by
  have hlt : (l.filter (· ≠ x)).length < l.length := List.length_filter_lt_length_iff_exists.mpr ⟨x, h, by simp⟩
  rw [touch, List.length_cons]
  exact hlt

theorem nodup_recency (log : List α) : (recency log).Nodup := by
  induction log with
  | nil => exact List.nodup_nil
  | cons x log ih => exact nodup_touch ih

theorem length_filter_ne {x : α} {l : List α} (h : l.Nodup) : l.length ≤ (l.filter (· ≠ x)).length + 1 := by
  have hcount : l.countP (· = x) ≤ 1 := by
    have hle := List.nodup_iff_count_le_one.mp h x
    simpa [List.count, List.countP_eq_length_filter, beq_eq_decide] using hle
  have hsplit := List.length_eq_countP_add_countP (· = x) (l := l)
  rw [← List.countP_eq_length_filter]
  simp only [decide_not, decide_eq_true_eq] at hsplit ⊢
  omega

theorem take_touch {l : List α} (h : l.Nodup) (x : α) (n : Nat) :
    (touch x (l.take n)).take n = (touch x l).take n := by
  cases n with
  | zero => rfl
  | succ n =>
    rcases le_total l.length (n + 1) with hle | hle
    · rw [List.take_of_length_le hle]
    · -- one element of the first `n + 1` may go, and the rest fill `n` places
      have hfilter := length_filter_ne (x := x) (h.sublist (List.take_sublist (n + 1) l))
      rw [List.length_take, min_eq_left hle] at hfilter
      have hsplit : l.filter (· ≠ x) = (l.take (n + 1)).filter (· ≠ x) ++ (l.drop (n + 1)).filter (· ≠ x) := by
        rw [← List.filter_append, List.take_append_drop]
      rw [touch, touch, List.take_succ_cons, List.take_succ_cons, hsplit,
        List.take_append_of_le_length (Nat.le_of_succ_le_succ hfilter)]

theorem take_recency_cons (x : α) (log : List α) (n : Nat) :
    (touch x ((recency log).take n)).take n = (recency (x :: log)).take n :=
  take_touch (nodup_recency log) x n

theorem pairwise_touch {log l : List α} (h : l.Pairwise fun a b => log.idxOf a < log.idxOf b) (x : α) :
    (touch x l).Pairwise fun a b => (x :: log).idxOf a < (x :: log).idxOf b := by
  have hne : ∀ a ∈ l.filter (· ≠ x), x ≠ a := fun a ha => (of_decide_eq_true (List.mem_filter.mp ha).2).symm
  refine List.pairwise_cons.mpr ⟨fun a ha => ?_, ?_⟩
  · rw [List.idxOf_cons_self, List.idxOf_cons_ne _ (hne a ha)]
    exact Nat.succ_pos _
  · refine (h.filter _).imp_of_mem fun {a b} ha hb hab => ?_
    rw [List.idxOf_cons_ne _ (hne a ha), List.idxOf_cons_ne _ (hne b hb)]
    exact Nat.succ_lt_succ hab

end MyDB.Lib

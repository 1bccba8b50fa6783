import Mathlib

/-! Lists increasing in a key, as finite maps. `upsert` replaces the element
with the key of `a`, or puts `a` in its place in the order. -/

namespace MyDB.Lib
variable {α K : Type} [LinearOrder K] (key : α → K)

def upsert (a : α) : List α → List α
  | [] => [a]
  | b :: l =>
    if key b < key a then b :: upsert a l
    else if key b = key a then a :: l
    else a :: b :: l

variable {key} {a : α}

theorem upsert_of_lt {l : List α} (h : ∀ b ∈ l, key a < key b) : upsert key a l = a :: l := by
  cases l with
  | nil => rfl
  | cons b l =>
    have hb := h b List.mem_cons_self
    rw [upsert, if_neg hb.not_gt, if_neg hb.ne']

theorem upsert_append_right {l : List α} (m : List α) (h : ∀ b ∈ l, key b < key a) :
    upsert key a (l ++ m) = l ++ upsert key a m := by
  induction l with
  | nil => rfl
  | cons b l ih =>
    rw [List.cons_append, upsert, if_pos (h b List.mem_cons_self),
      ih fun c hc => h c (List.mem_cons_of_mem _ hc), List.cons_append]

theorem upsert_append_left (l : List α) {m : List α} (h : ∀ b ∈ m, key a < key b) :
    upsert key a (l ++ m) = upsert key a l ++ m := by
  induction l with
  | nil => exact upsert_of_lt h
  | cons b l ih =>
    simp only [List.cons_append, upsert]
    split_ifs
    · rw [ih, List.cons_append]
    · rfl
    · rfl

theorem upsert_append {l r : List α} (m : List α) (hl : ∀ b ∈ l, key b < key a)
    (hr : ∀ b ∈ r, key a < key b) : upsert key a (l ++ (m ++ r)) = l ++ (upsert key a m ++ r) := by
  rw [upsert_append_right _ hl, upsert_append_left _ hr]

theorem mem_upsert {l : List α} {b : α} (h : b ∈ upsert key a l) : b = a ∨ b ∈ l := by
  induction l with
  | nil => exact Or.inl (List.mem_singleton.mp h)
  | cons c l ih =>
    simp only [upsert] at h
    split_ifs at h
    · rcases List.mem_cons.mp h with rfl | h
      · exact Or.inr List.mem_cons_self
      · exact (ih h).imp id (List.mem_cons_of_mem _)
    · exact (List.mem_cons.mp h).imp id (List.mem_cons_of_mem _)
    · exact List.mem_cons.mp h

theorem pairwise_upsert {l : List α} (h : (l.map key).Pairwise (· < ·)) :
    ((upsert key a l).map key).Pairwise (· < ·) := by
  induction l with
  | nil => simp [upsert]
  | cons b l ih =>
    obtain ⟨hb, hl⟩ := List.pairwise_cons.mp h
    have hb' : ∀ c ∈ l, key b < key c := fun c hc => hb _ (List.mem_map_of_mem hc)
    simp only [upsert]
    split_ifs with h1 h2
    · refine List.pairwise_cons.mpr ⟨?_, ih hl⟩
      intro x hx
      obtain ⟨c, hc, rfl⟩ := List.mem_map.mp hx
      rcases mem_upsert hc with rfl | hc
      · exact h1
      · exact hb' c hc
    · exact List.pairwise_cons.mpr ⟨h2 ▸ hb, hl⟩
    · have hab : key a < key b := lt_of_le_of_ne (not_lt.mp h1) (Ne.symm h2)
      refine List.pairwise_cons.mpr ⟨?_, h⟩
      intro x hx
      rcases List.mem_cons.mp hx with rfl | hx
      · exact hab
      · exact hab.trans (hb x hx)

theorem find_eq_none_of_lt {l : List α} {k : K} (h : ∀ b ∈ l, key b < k ∨ k < key b) :
    l.find? (fun b => key b = k) = none := by
  refine List.find?_eq_none.mpr fun b hb => ?_
  simp only [decide_eq_true_eq]
  exact (h b hb).elim ne_of_lt ne_of_gt

theorem find_upsert {l : List α} (h : (l.map key).Pairwise (· < ·)) (k : K) :
    (upsert key a l).find? (fun b => key b = k) =
      if key a = k then some a else l.find? fun b => key b = k := by
  induction l with
  | nil => by_cases hk : key a = k <;> simp [upsert, hk]
  | cons b l ih =>
    obtain ⟨hb, hl⟩ := List.pairwise_cons.mp h
    by_cases hk : key a = k
    · simp only [upsert, if_pos hk]
      split_ifs with h1 h2
      · rw [List.find?_cons_of_neg (by simpa [← hk] using h1.ne), ih hl, if_pos hk]
      · rw [List.find?_cons_of_pos (by simpa using hk)]
      · rw [List.find?_cons_of_pos (by simpa using hk)]
    · simp only [upsert, if_neg hk]
      split_ifs with h1 h2
      · rw [List.find?_cons, List.find?_cons, ih hl, if_neg hk]
      · rw [List.find?_cons_of_neg (by simpa using hk), List.find?_cons_of_neg (by simpa [h2] using hk)]
      · rw [List.find?_cons_of_neg (by simpa using hk)]

theorem upsert_of_findIdx {l : List α} {i : Nat} (hs : (l.map key).Pairwise (· < ·))
    (h : l.findIdx? (fun b => key b = key a) = some i) : upsert key a l = l.set i a := by
  induction l generalizing i with
  | nil => cases h
  | cons b l ih =>
    obtain ⟨hb, hl⟩ := List.pairwise_cons.mp hs
    rw [List.findIdx?_cons] at h
    split_ifs at h with hba
    · obtain rfl := Option.some.inj h
      have hk : key b = key a := by simpa using hba
      rw [upsert, if_neg hk.not_lt, if_pos hk, List.set_cons_zero]
    · obtain ⟨j, hj, rfl⟩ := Option.map_eq_some_iff.mp h
      obtain ⟨hlt, hja, -⟩ := List.findIdx?_eq_some_iff_getElem.mp hj
      have hba' : key b < key a := by
        have := hb _ (List.mem_map_of_mem (List.getElem_mem hlt))
        rwa [of_decide_eq_true hja] at this
      rw [upsert, if_pos hba', ih hl hj, List.set_cons_succ]

theorem upsert_of_absent {l : List α} (hs : (l.map key).Pairwise (· < ·))
    (h : ∀ b ∈ l, key b ≠ key a) :
    ∃ l₁ l₂, l = l₁ ++ l₂ ∧ upsert key a l = l₁ ++ a :: l₂ ∧
      (∀ b ∈ l₁, key b < key a) ∧ ∀ b ∈ l₂, key a < key b := by
  induction l with
  | nil => exact ⟨[], [], rfl, rfl, by simp, by simp⟩
  | cons b l ih =>
    obtain ⟨hb, hl⟩ := List.pairwise_cons.mp hs
    by_cases hba : key b < key a
    · obtain ⟨l₁, l₂, rfl, hup, h1, h2⟩ := ih hl fun c hc => h c (List.mem_cons_of_mem _ hc)
      refine ⟨b :: l₁, l₂, rfl, by rw [upsert, if_pos hba, hup, List.cons_append], ?_, h2⟩
      intro c hc
      rcases List.mem_cons.mp hc with rfl | hc
      · exact hba
      · exact h1 c hc
    · have hab : key a < key b := lt_of_le_of_ne (not_lt.mp hba) (h b List.mem_cons_self).symm
      refine ⟨[], b :: l, rfl, by rw [upsert, if_neg hba, if_neg hab.ne']; rfl, by simp, ?_⟩
      intro c hc
      rcases List.mem_cons.mp hc with rfl | hc
      · exact hab
      · exact hab.trans (hb _ (List.mem_map_of_mem hc))

def Between (l : List K) (x : K) : Prop := (∃ a ∈ l, a ≤ x) ∧ ∃ b ∈ l, x ≤ b

theorem between_of_mem {l : List K} {x : K} (h : x ∈ l) : Between l x :=
  ⟨⟨x, h, le_rfl⟩, ⟨x, h, le_rfl⟩⟩

theorem Between.mono {l m : List K} {x : K} (h : Between l x) (hlm : l ⊆ m) : Between m x :=
  ⟨h.1.imp fun _ ha => ⟨hlm ha.1, ha.2⟩, h.2.imp fun _ hb => ⟨hlm hb.1, hb.2⟩⟩

theorem pairwise_splice {l m m' r : List K} {k : K} (h : (l ++ (m ++ r)).Pairwise (· < ·))
    (hl : ∀ x ∈ l, x < k) (hr : ∀ x ∈ r, k < x) (hm : m'.Pairwise (· < ·))
    (hbet : ∀ x ∈ m', Between (k :: m) x) : (l ++ (m' ++ r)).Pairwise (· < ·) := by
  obtain ⟨hl', hmr, hcross⟩ := List.pairwise_append.mp h
  obtain ⟨-, hr', hcross'⟩ := List.pairwise_append.mp hmr
  have hlm : ∀ x ∈ l, ∀ y ∈ m', x < y := by
    intro x hx y hy
    obtain ⟨⟨a, ha, hay⟩, -⟩ := hbet y hy
    rcases List.mem_cons.mp ha with rfl | ha
    · exact (hl x hx).trans_le hay
    · exact (hcross x hx a (List.mem_append_left _ ha)).trans_le hay
  have hmr' : ∀ y ∈ m', ∀ z ∈ r, y < z := by
    intro y hy z hz
    obtain ⟨-, b, hb, hyb⟩ := hbet y hy
    rcases List.mem_cons.mp hb with rfl | hb
    · exact hyb.trans_lt (hr z hz)
    · exact hyb.trans_lt (hcross' b hb z hz)
  refine List.pairwise_append.mpr ⟨hl', List.pairwise_append.mpr ⟨hm, hr', hmr'⟩, ?_⟩
  intro x hx y hy
  rcases List.mem_append.mp hy with hy | hy
  · exact hlm x hx y hy
  · exact hcross x hx y (List.mem_append_right _ hy)

theorem between_splice {l m m' r : List K} {k : K} (hbet : ∀ x ∈ m', Between (k :: m) x) :
    ∀ x ∈ l ++ (m' ++ r), Between (k :: (l ++ (m ++ r))) x := by
  intro x hx
  simp only [List.mem_append] at hx
  rcases hx with hx | hx | hx
  · exact between_of_mem (by simp [hx])
  · refine (hbet x hx).mono (List.cons_subset_cons _ ?_)
    exact fun y hy => by simp [hy]
  · exact between_of_mem (by simp [hx])

end MyDB.Lib

import MyDB.Lib.Fallible

/-! Elements put into groups by a key. The loop keeps one entry for each key, in the
order in which the keys first came, and adds an element to the entry of its key. -/

namespace MyDB.Lib
variable {α K G : Type} [DecidableEq K] (key : α → K)

def firsts (l : List α) : List α :=
  l.foldl (fun reps a => if reps.any (key · = key a) then reps else reps ++ [a]) []

def members (l : List α) (a : α) : List α := l.filter (key · = key a)

def addTo (init : α → G) (step : G → α → G) (groups : List (K × G)) (a : α) : List (K × G) :=
  (if groups.any (·.1 = key a) then groups else groups ++ [(key a, init a)]).map fun g =>
    if g.1 = key a then (g.1, step g.2 a) else g

variable {key} {l : List α} {a b : α}

theorem firsts_concat (l : List α) (a : α) :
    firsts key (l ++ [a]) =
      if (firsts key l).any (key · = key a) then firsts key l else firsts key l ++ [a] := by
  rw [firsts, List.foldl_append]
  rfl

theorem members_concat (l : List α) (b : α) :
    members key (l ++ [b]) a = members key l a ++ if key b = key a then [b] else [] := by
  rw [members, List.filter_append, List.filter_singleton, ← members]
  simp only [Bool.cond_decide]

theorem firsts_sublist (l : List α) : (firsts key l).Sublist l := by
  induction l using List.reverseRecOn with
  | nil => exact List.Sublist.refl _
  | append_singleton l a ih =>
    rw [firsts_concat]
    split
    · exact ih.trans (List.sublist_append_left l [a])
    · exact ih.append (List.Sublist.refl _)

theorem mem_of_mem_firsts (h : a ∈ firsts key l) : a ∈ l := (firsts_sublist l).subset h

theorem exists_mem_firsts (key : α → K) (h : a ∈ l) : ∃ b ∈ firsts key l, key b = key a := by
  induction l using List.reverseRecOn with
  | nil => cases h
  | append_singleton l c ih =>
    rw [firsts_concat]
    rcases List.mem_append.mp h with h | h
    · obtain ⟨b, hb, hkey⟩ := ih h
      split
      · exact ⟨b, hb, hkey⟩
      · exact ⟨b, List.mem_append_left _ hb, hkey⟩
    · obtain rfl := List.mem_singleton.mp h
      split
      case isTrue hany => simpa using hany
      case isFalse => exact ⟨a, List.mem_append_right _ (List.mem_singleton_self a), rfl⟩

theorem nodup_firsts (l : List α) : ((firsts key l).map key).Nodup := by
  induction l using List.reverseRecOn with
  | nil => exact List.nodup_nil
  | append_singleton l a ih =>
    rw [firsts_concat]
    split
    case isTrue => exact ih
    case isFalse hany =>
      rw [List.map_append, List.map_singleton, List.nodup_append]
      refine ⟨ih, List.nodup_singleton _, ?_⟩
      intro k hk k' hk' heq
      obtain ⟨b, hb, rfl⟩ := List.mem_map.mp hk
      rw [List.mem_singleton.mp hk'] at heq
      exact hany (List.any_eq_true.mpr ⟨b, hb, decide_eq_true heq⟩)

theorem mem_members : b ∈ members key l a ↔ b ∈ l ∧ key b = key a := by
  rw [members, List.mem_filter, decide_eq_true_eq]

theorem members_congr {K' : Type} [DecidableEq K'] {key' : α → K'} (h : ∀ a ∈ l, ∀ b ∈ l, key a = key b ↔ key' a = key' b)
    (ha : a ∈ l) : members key l a = members key' l a := by
  apply List.filter_congr
  intro b hb
  rw [decide_eq_decide]
  exact h b hb a ha

theorem firsts_congr {K' : Type} [DecidableEq K'] {key' : α → K'}
    (h : ∀ a ∈ l, ∀ b ∈ l, key a = key b ↔ key' a = key' b) : firsts key l = firsts key' l := by
  induction l using List.reverseRecOn with
  | nil => rfl
  | append_singleton l a ih =>
    have hl := ih fun b hb c hc => h b (List.mem_append_left _ hb) c (List.mem_append_left _ hc)
    have hany : (firsts key l).any (key · = key a) = (firsts key' l).any (key' · = key' a) := by
      rw [← hl, Bool.eq_iff_iff, List.any_eq_true, List.any_eq_true]
      apply exists_congr
      intro b
      apply and_congr_right
      intro hb
      rw [decide_eq_true_eq, decide_eq_true_eq]
      exact h b (List.mem_append_left _ (mem_of_mem_firsts hb)) a (List.mem_append_right _ (List.mem_singleton_self a))
    rw [firsts_concat, firsts_concat, hany, hl]

theorem firsts_of_const (h : ∀ a ∈ l, ∀ b ∈ l, key a = key b) : firsts key l = l.take 1 := by
  induction l using List.reverseRecOn with
  | nil => rfl
  | append_singleton l a ih =>
    have hl := ih fun b hb c hc => h b (List.mem_append_left _ hb) c (List.mem_append_left _ hc)
    rw [firsts_concat, hl]
    cases l with
    | nil => rfl
    | cons b l =>
      have hkey : key b = key a := h b (List.mem_append_left _ List.mem_cons_self) a
        (List.mem_append_right _ (List.mem_singleton_self a))
      exact if_pos (List.any_eq_true.mpr ⟨b, List.mem_cons_self, decide_eq_true hkey⟩)

theorem members_of_const (h : ∀ a ∈ l, ∀ b ∈ l, key a = key b) (ha : a ∈ l) : members key l a = l :=
  List.filter_eq_self.mpr fun b hb => decide_eq_true (h b hb a ha)

theorem perm_map_firsts {β : Type} {f g : α → β} {l' : List α} (hperm : l.Perm l')
    (hfg : ∀ a ∈ l, ∀ b ∈ l', key a = key b → f a = g b) : ((firsts key l).map f).Perm ((firsts key l').map g) := by
  have hmem {l l' : List α} (hperm : l.Perm l') {k : K} (hk : k ∈ (firsts key l).map key) : k ∈ (firsts key l').map key := by
    obtain ⟨a, ha, rfl⟩ := List.mem_map.mp hk
    obtain ⟨b, hb, hkey⟩ := exists_mem_firsts key (hperm.subset (mem_of_mem_firsts ha))
    exact List.mem_map.mpr ⟨b, hb, hkey⟩
  have hkeys : ((firsts key l).map key).Perm ((firsts key l').map key) :=
    (List.perm_ext_iff_of_nodup (nodup_firsts l) (nodup_firsts l')).mpr fun k => ⟨hmem hperm, hmem hperm.symm⟩
  -- the first elements of `l'`, in the order in which `l` has their keys
  obtain ⟨reps, hreps, hperm'⟩ := List.perm_comp_forall₂ hkeys
    (List.forall₂_map_left_iff.mpr (List.forall₂_same.mpr fun b _ => rfl) : List.Forall₂ (fun k b => k = key b) _ _)
  have hmap : (firsts key l).map f = reps.map g := by
    rw [← List.forall₂_eq_eq_eq, List.forall₂_map_left_iff, List.forall₂_map_right_iff]
    apply forall₂_imp_mem (List.forall₂_map_left_iff.mp hreps)
    intro a ha b hb hkey
    exact hfg a (mem_of_mem_firsts ha) b (mem_of_mem_firsts (hperm'.subset hb)) hkey
  rw [hmap]
  exact hperm'.map g

theorem foldl_addTo (init : α → G) (step : G → α → G) (l : List α) :
    l.foldl (addTo key init step) [] =
      (firsts key l).map fun a => (key a, (members key l a).foldl step (init a)) := by
  induction l using List.reverseRecOn with
  | nil => rfl
  | append_singleton l b ih =>
    rw [List.foldl_append, ih, List.foldl_cons, List.foldl_nil, addTo, firsts_concat]
    have hany : ((firsts key l).map fun a => (key a, (members key l a).foldl step (init a))).any (·.1 = key b) =
        (firsts key l).any (key · = key b) := by
      rw [List.any_map]
      rfl
    have hold : ∀ a ∈ firsts key l, (if key a = key b then (key a, step ((members key l a).foldl step (init a)) b)
        else (key a, (members key l a).foldl step (init a))) =
          (key a, (members key (l ++ [b]) a).foldl step (init a)) := by
      intro a _
      rw [members_concat]
      by_cases hab : key a = key b
      · rw [if_pos hab, if_pos hab.symm, List.foldl_append]
        rfl
      · rw [if_neg hab, if_neg (Ne.symm hab), List.append_nil]
    rw [hany]
    split
    case isTrue =>
      rw [List.map_map]
      exact List.map_congr_left hold
    case isFalse hnew =>
      have hfirst : members key (l ++ [b]) b = [b] := by
        rw [members_concat, if_pos rfl, members, List.filter_eq_nil_iff.mpr, List.nil_append]
        intro a ha hab
        obtain ⟨c, hc, hkey⟩ := exists_mem_firsts key ha
        exact hnew (List.any_eq_true.mpr ⟨c, hc, decide_eq_true (hkey.trans (of_decide_eq_true hab))⟩)
      rw [List.map_append, List.map_append, List.map_map]
      congr 1
      · exact List.map_congr_left hold
      · show [if key b = key b then (key b, step (init b) b) else (key b, init b)] = [(key b, _)]
        rw [if_pos rfl, hfirst]
        rfl

end MyDB.Lib

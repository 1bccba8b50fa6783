import Mathlib

/-! Computations in `Except` and `EStateM`: what a run that returns says of its
parts. -/

namespace MyDB.Lib
variable {ε α β γ : Type}

theorem bind_eq_ok {x : Except ε α} {f : α → Except ε β} {b : β} :
    x >>= f = .ok b ↔ ∃ a, x = .ok a ∧ f a = .ok b := by
  cases x with
  | error e =>
    constructor
    · intro h
      cases h
    · rintro ⟨a, h, -⟩
      cases h
  | ok a =>
    constructor
    · intro h
      exact ⟨a, rfl, h⟩
    · rintro ⟨a, h, hf⟩
      cases h
      exact hf

theorem bind_eq_error {x : Except ε α} {f : α → Except ε β} {e : ε} :
    x >>= f = .error e ↔ x = .error e ∨ ∃ a, x = .ok a ∧ f a = .error e := by
  cases x with
  | error e' =>
    constructor
    · intro h
      cases h
      exact .inl rfl
    · rintro (h | ⟨a, h, -⟩)
      · cases h
        rfl
      · cases h
  | ok a =>
    constructor
    · intro h
      exact .inr ⟨a, rfl, h⟩
    · rintro (h | ⟨a, h, hf⟩)
      · cases h
      · cases h
        exact hf

theorem map_eq_ok {x : Except ε α} {f : α → β} {b : β} : x.map f = .ok b ↔ ∃ a, x = .ok a ∧ f a = b := by
  cases x with
  | error e =>
    constructor
    · intro h
      cases h
    · rintro ⟨a, h, -⟩
      cases h
  | ok a =>
    constructor
    · intro h
      cases h
      exact ⟨a, rfl, rfl⟩
    · rintro ⟨a, h, rfl⟩
      cases h
      rfl

theorem pure_eq_ok {a b : α} : (pure a : Except ε α) = .ok b ↔ a = b :=
  Except.ok.injEq a b ▸ Iff.rfl

theorem mapM_cons_eq_ok {f : α → Except ε β} {a : α} {l : List α} {l' : List β} :
    (a :: l).mapM f = .ok l' ↔ ∃ b t, f a = .ok b ∧ l.mapM f = .ok t ∧ l' = b :: t := by
  rw [List.mapM_cons, bind_eq_ok]
  constructor
  · rintro ⟨b, hb, h⟩
    obtain ⟨t, ht, h⟩ := bind_eq_ok.mp h
    exact ⟨b, t, hb, ht, (pure_eq_ok.mp h).symm⟩
  · rintro ⟨b, t, hb, ht, rfl⟩
    exact ⟨b, hb, bind_eq_ok.mpr ⟨t, ht, rfl⟩⟩

theorem mapM_eq_ok {f : α → Except ε β} {l : List α} {l' : List β} :
    l.mapM f = .ok l' ↔ List.Forall₂ (fun a b => f a = .ok b) l l' := by
  induction l generalizing l' with
  | nil => rw [List.mapM_nil, pure_eq_ok, List.forall₂_nil_left_iff, eq_comm]
  | cons a l ih =>
    rw [mapM_cons_eq_ok, List.forall₂_cons_left_iff]
    constructor
    · rintro ⟨b, t, hb, ht, rfl⟩
      exact ⟨b, t, hb, ih.mp ht, rfl⟩
    · rintro ⟨b, t, hb, ht, rfl⟩
      exact ⟨b, t, hb, ih.mpr ht, rfl⟩

theorem exists_of_forall₂ {R : α → β → Prop} {l : List α} {l' : List β} (h : List.Forall₂ R l l') {a : α}
    (ha : a ∈ l) : ∃ b ∈ l', R a b := by
  induction h with
  | nil => cases ha
  | cons hb _ ih =>
    rcases List.mem_cons.mp ha with rfl | ha
    · exact ⟨_, List.mem_cons_self, hb⟩
    · obtain ⟨b, hmem, hb⟩ := ih ha
      exact ⟨b, List.mem_cons_of_mem _ hmem, hb⟩

theorem getElem?_of_forall₂ {R : α → β → Prop} {l : List α} {l' : List β} (h : List.Forall₂ R l l') {i : Nat} {a : α}
    (hi : l[i]? = some a) : ∃ b, l'[i]? = some b ∧ R a b := by
  induction h generalizing i with
  | nil => cases hi
  | @cons a' b l l' hb _ ih =>
    cases i with
    | zero =>
      cases hi
      exact ⟨b, rfl, hb⟩
    | succ i => exact ih hi

theorem forall₂_imp_mem {R S : α → β → Prop} {l : List α} {l' : List β} (h : List.Forall₂ R l l')
    (himp : ∀ a ∈ l, ∀ b ∈ l', R a b → S a b) : List.Forall₂ S l l' := by
  induction h with
  | nil => exact .nil
  | cons hab _ ih =>
    refine .cons (himp _ List.mem_cons_self _ List.mem_cons_self hab) (ih ?_)
    intro a ha b hb
    exact himp a (List.mem_cons_of_mem _ ha) b (List.mem_cons_of_mem _ hb)

theorem pairwise_of_forall₂ {R : α → β → Prop} {P : α → α → Prop} {Q : β → β → Prop}
    (himp : ∀ a b c d, R a b → R c d → P a c → Q b d) {l : List α} {l' : List β} (h : List.Forall₂ R l l')
    (hl : l.Pairwise P) : l'.Pairwise Q := by
  induction h with
  | nil => exact .nil
  | cons hab hrest ih =>
    obtain ⟨hhead, htail⟩ := List.pairwise_cons.mp hl
    refine List.pairwise_cons.mpr ⟨fun d hd => ?_, ih htail⟩
    obtain ⟨c, hc, hcd⟩ := exists_of_forall₂ hrest.flip hd
    exact himp _ _ _ _ hab hcd (hhead c hc)

theorem ok_of_mapM {f : α → Except ε β} {l : List α} {l' : List β} (h : l.mapM f = .ok l') {a : α} (ha : a ∈ l) :
    ∃ b ∈ l', f a = .ok b := exists_of_forall₂ (mapM_eq_ok.mp h) ha

theorem mem_of_mapM {f : α → Except ε β} {l : List α} {l' : List β} (h : l.mapM f = .ok l') {b : β} (hb : b ∈ l') :
    ∃ a ∈ l, f a = .ok b := exists_of_forall₂ (mapM_eq_ok.mp h).flip hb

theorem filterMap_of_mapM {f : α → Except ε β} {l : List α} {l' : List β} (h : l.mapM f = .ok l') :
    l' = l.filterMap fun a => (f a).toOption := by
  induction mapM_eq_ok.mp h with
  | nil => rfl
  | cons hb hrest ih =>
    rw [List.filterMap_cons, hb, ← ih (mapM_eq_ok.mpr hrest)]
    rfl

theorem perm_mapM {f : α → Except ε β} {l₁ l₂ : List α} {r₁ r₂ : List β} (hperm : l₁.Perm l₂)
    (h₁ : l₁.mapM f = .ok r₁) (h₂ : l₂.mapM f = .ok r₂) : r₁.Perm r₂ := by
  rw [filterMap_of_mapM h₁, filterMap_of_mapM h₂]
  exact hperm.filterMap _

theorem forall₂_of_mapM {γ : Type} {f : α → Except ε β} {g : α → Except ε γ} {R : β → γ → Prop}
    (h : ∀ a b c, f a = .ok b → g a = .ok c → R b c) {l : List α} {bs : List β} {cs : List γ}
    (hf : l.mapM f = .ok bs) (hg : l.mapM g = .ok cs) : List.Forall₂ R bs cs := by
  induction l generalizing bs cs with
  | nil =>
    cases pure_eq_ok.mp hf
    cases pure_eq_ok.mp hg
    exact .nil
  | cons a l ih =>
    obtain ⟨b, bs', hb, hbs, rfl⟩ := mapM_cons_eq_ok.mp hf
    obtain ⟨c, cs', hc, hcs, rfl⟩ := mapM_cons_eq_ok.mp hg
    exact .cons (h a b c hb hc) (ih hbs hcs)

theorem mapM_of_ok {f : α → Except ε β} {g : α → β} {l : List α} (h : ∀ a ∈ l, f a = .ok (g a)) :
    l.mapM f = .ok (l.map g) := by
  rw [mapM_eq_ok, List.forall₂_map_right_iff, List.forall₂_same]
  exact h

theorem exists_mapM {f : α → Except ε β} {l : List α} (h : ∀ a ∈ l, ∃ b, f a = .ok b) : ∃ bs, l.mapM f = .ok bs := by
  induction l with
  | nil => exact ⟨[], rfl⟩
  | cons a l ih =>
    obtain ⟨⟨b, hb⟩, hrest⟩ := List.forall_mem_cons.mp h
    obtain ⟨bs, hbs⟩ := ih hrest
    exact ⟨b :: bs, mapM_cons_eq_ok.mpr ⟨b, bs, hb, hbs, rfl⟩⟩

theorem error_of_mapM {f : α → Except ε β} {l : List α} {e : ε} (h : l.mapM f = .error e) : ∃ a ∈ l, f a = .error e := by
  induction l with
  | nil => cases h
  | cons a l ih =>
    rw [List.mapM_cons, bind_eq_error] at h
    obtain ha | ⟨b, -, hrest⟩ := h
    · exact ⟨a, List.mem_cons_self, ha⟩
    · obtain htail | ⟨bs, -, hpure⟩ := bind_eq_error.mp hrest
      · obtain ⟨a', ha', he⟩ := ih htail
        exact ⟨a', List.mem_cons_of_mem a ha', he⟩
      · cases hpure

theorem exists_first_error {f : α → Except ε β} {l : List α} (h : ¬ ∀ a ∈ l, ∃ b, f a = .ok b) :
    ∃ k a e, l[k]? = some a ∧ f a = .error e ∧ ∀ b ∈ l.take k, ∃ c, f b = .ok c := by
  induction l with
  | nil => exact absurd (fun a ha => absurd ha List.not_mem_nil) h
  | cons a l ih =>
    cases hfa : f a with
    | error e => exact ⟨0, a, e, rfl, hfa, fun b hb => absurd hb List.not_mem_nil⟩
    | ok b =>
      obtain ⟨k, a', e, hk, he, hbefore⟩ := ih fun hrest => h (List.forall_mem_cons.mpr ⟨⟨b, hfa⟩, hrest⟩)
      exact ⟨k + 1, a', e, hk, he, List.forall_mem_cons.mpr ⟨⟨b, hfa⟩, hbefore⟩⟩

def errorOf : Except ε α → Option ε
  | .ok _ => none
  | .error e => some e

theorem errorOf_eq_some {x : Except ε α} {e : ε} : errorOf x = some e ↔ x = .error e := by
  cases x with
  | ok a => exact ⟨nofun, nofun⟩
  | error e' => rw [errorOf, Option.some.injEq, Except.error.injEq]

theorem mapM_append_eq_ok {f : α → Except ε β} {l₁ l₂ : List α} {r₁ r₂ : List β} (h₁ : l₁.mapM f = .ok r₁)
    (h₂ : l₂.mapM f = .ok r₂) : (l₁ ++ l₂).mapM f = .ok (r₁ ++ r₂) := by
  rw [mapM_eq_ok] at h₁ h₂ ⊢
  exact List.rel_append h₁ h₂

theorem mapM_pure_eq_ok {l l' : List α} : l.mapM (pure : α → Except ε α) = .ok l' ↔ l = l' := by
  rw [List.mapM_pure, List.map_id', pure_eq_ok]

theorem foldlM_append_eq_ok {body : List β → α → Except ε (List β)} {f : α → Except ε β}
    (hbody : ∀ acc a, body acc a = (f a).map fun b => acc ++ [b]) {l : List α} {acc r : List β} :
    l.foldlM body acc = .ok r ↔ ∃ bs, l.mapM f = .ok bs ∧ r = acc ++ bs := by
  induction l generalizing acc with
  | nil =>
    rw [List.foldlM_nil, pure_eq_ok]
    constructor
    · rintro rfl
      exact ⟨[], rfl, (List.append_nil _).symm⟩
    · rintro ⟨bs, hbs, rfl⟩
      cases pure_eq_ok.mp hbs
      exact (List.append_nil _).symm
  | cons a l ih =>
    rw [List.foldlM_cons, bind_eq_ok]
    constructor
    · rintro ⟨acc', hacc', h⟩
      rw [hbody] at hacc'
      obtain ⟨b, hb, rfl⟩ := map_eq_ok.mp hacc'
      obtain ⟨bs, hbs, rfl⟩ := ih.mp h
      exact ⟨b :: bs, mapM_cons_eq_ok.mpr ⟨b, bs, hb, hbs, rfl⟩, by rw [List.append_assoc, List.singleton_append]⟩
    · rintro ⟨_, h, rfl⟩
      obtain ⟨b, bs, hb, hbs, rfl⟩ := mapM_cons_eq_ok.mp h
      refine ⟨acc ++ [b], by rw [hbody, hb]; rfl, ih.mpr ⟨bs, hbs, ?_⟩⟩
      rw [List.append_assoc, List.singleton_append]

theorem run_bind_eq_ok {σ : Type} {x : EStateM ε σ α} {f : α → EStateM ε σ β} {s s' : σ} {b : β} :
    (x >>= f) s = .ok b s' ↔ ∃ a s₁, x s = .ok a s₁ ∧ f a s₁ = .ok b s' := by
  show EStateM.bind x f s = .ok b s' ↔ _
  rw [EStateM.bind]
  cases x s with
  | ok a s₁ =>
    constructor
    · intro h
      exact ⟨a, s₁, rfl, h⟩
    · rintro ⟨a, s₁, h, hf⟩
      cases h
      exact hf
  | error e s₁ =>
    constructor
    · intro h
      cases h
    · rintro ⟨a, s₁, h, -⟩
      cases h

end MyDB.Lib

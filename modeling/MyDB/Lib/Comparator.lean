import MyDB.Lib.Fallible

/-! Comparators that may throw, and the one that goes through a list of keys. Two elements
are incomparable where the comparator returns false both ways. -/

namespace MyDB.Lib
variable {ε α ι : Type}

def Incomparable (less : α → α → Except ε Bool) (a b : α) : Prop := less a b = .ok false ∧ less b a = .ok false

/-- What the algorithms of the standard library ask of a comparator. -/
structure StrictWeak (less : α → α → Except ε Bool) : Prop where
  irrefl : ∀ a, less a a ≠ .ok true
  trans : ∀ a b c, less a b = .ok true → less b c = .ok true → less a c = .ok true
  incomp_trans : ∀ a b c, Incomparable less a b → Incomparable less b c → Incomparable less a c

namespace StrictWeak
variable {less : α → α → Except ε Bool} (h : StrictWeak less)

include h

theorem on {β : Type} (f : β → α) : StrictWeak fun a b => less (f a) (f b) where
  irrefl a := h.irrefl (f a)
  trans a b c := h.trans (f a) (f b) (f c)
  incomp_trans a b c := h.incomp_trans (f a) (f b) (f c)

theorem swap : StrictWeak fun a b => less b a where
  irrefl := h.irrefl
  trans a b c hab hbc := h.trans c b a hbc hab
  incomp_trans a b c hab hbc := h.incomp_trans c b a hbc hab

theorem isStrictWeakOrder (hreturns : ∀ a b, ∃ r, less a b = .ok r) :
    IsStrictWeakOrder α fun a b => less a b = .ok true where
  irrefl := h.irrefl
  trans := h.trans
  incomp_trans a b c hab hbc := by
    have hfalse {x y : α} (hxy : less x y ≠ .ok true) : less x y = .ok false := by
      obtain ⟨r, hr⟩ := hreturns x y
      cases r with
      | false => exact hr
      | true => exact absurd hr hxy
    obtain ⟨hac, hca⟩ := h.incomp_trans a b c ⟨hfalse hab.1, hfalse hab.2⟩ ⟨hfalse hbc.1, hfalse hbc.2⟩
    simp [hac, hca]

end StrictWeak

structure KeyOrder (before ties : α → α → Prop) : Prop where
  asymm : ∀ a b, before a b → ¬ before b a
  trans : ∀ a b c, before a b → before b c → before a c
  ties_symm : ∀ a b, ties a b → ties b a
  ties_trans : ∀ a b c, ties a b → ties b c → ties a c
  not_before : ∀ a b, ties a b → ¬ before a b
  before_ties : ∀ a b c, before a b → ties b c → before a c
  ties_before : ∀ a b c, ties a b → before b c → before a c

structure Lexicographic (before ties : ι → α → α → Prop) (less : List ι → α → α → Except ε Bool) : Prop where
  nil : ∀ a b, less [] a b = .ok false
  cons_true : ∀ i is a b, less (i :: is) a b = .ok true ↔ before i a b ∨ ties i a b ∧ less is a b = .ok true
  cons_false : ∀ i is a b, less (i :: is) a b = .ok false ↔ before i b a ∨ ties i a b ∧ less is a b = .ok false

namespace Lexicographic
variable {before ties : ι → α → α → Prop} {less : List ι → α → α → Except ε Bool}
  (h : Lexicographic before ties less) (hkey : ∀ i, KeyOrder (before i) (ties i))

include h hkey

theorem irrefl (is : List ι) (a : α) : less is a a ≠ .ok true := by
  induction is with
  | nil =>
    rw [h.nil]
    simp
  | cons i is ih =>
    rw [ne_eq, h.cons_true]
    rintro (hbefore | ⟨-, hrest⟩)
    · exact (hkey i).asymm a a hbefore hbefore
    · exact ih hrest

theorem trans (is : List ι) (a b c : α) (hab : less is a b = .ok true) (hbc : less is b c = .ok true) :
    less is a c = .ok true := by
  induction is with
  | nil =>
    rw [h.nil] at hab
    cases hab
  | cons i is ih =>
    rw [h.cons_true] at hab hbc ⊢
    -- the first key on which either pair does not tie decides
    rcases hab with hab | ⟨hties, hab⟩
    · rcases hbc with hbc | ⟨hties', -⟩
      · exact Or.inl ((hkey i).trans a b c hab hbc)
      · exact Or.inl ((hkey i).before_ties a b c hab hties')
    · rcases hbc with hbc | ⟨hties', hbc⟩
      · exact Or.inl ((hkey i).ties_before a b c hties hbc)
      · exact Or.inr ⟨(hkey i).ties_trans a b c hties hties', ih hab hbc⟩

theorem incomparable_iff (is : List ι) (a b : α) : Incomparable (less is) a b ↔ ∀ i ∈ is, ties i a b := by
  induction is with
  | nil => simp [Incomparable, h.nil]
  | cons i is ih =>
    rw [List.forall_mem_cons, ← ih, Incomparable, h.cons_false, h.cons_false]
    constructor
    · rintro ⟨hba | ⟨hties, hab⟩, hab' | ⟨hties', hba'⟩⟩
      · exact absurd hab' ((hkey i).asymm b a hba)
      · exact absurd hba ((hkey i).not_before b a hties')
      · exact absurd hab' ((hkey i).not_before a b hties)
      · exact ⟨hties, hab, hba'⟩
    · rintro ⟨hties, hab, hba⟩
      exact ⟨Or.inr ⟨hties, hab⟩, Or.inr ⟨(hkey i).ties_symm a b hties, hba⟩⟩

theorem strictWeak (is : List ι) : StrictWeak (less is) where
  irrefl := h.irrefl hkey is
  trans := h.trans hkey is
  incomp_trans a b c hab hbc := by
    rw [h.incomparable_iff hkey] at hab hbc ⊢
    exact fun i hi => (hkey i).ties_trans a b c (hab i hi) (hbc i hi)

end Lexicographic
end MyDB.Lib

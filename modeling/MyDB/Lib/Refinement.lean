import Mathlib

/-! Refinement between stateful programs that may throw. The abstract program
`y` may also fail with a fault that `bad` admits; nothing is asked of the
concrete program then. -/

namespace MyDB.Lib
variable {ε σ τ α β γ δ : Type}

theorem bind_ok {x : EStateM ε σ α} {f : α → EStateM ε σ β} {s s' : σ} {a : α} (h : x s = .ok a s') :
    (x >>= f) s = f a s' := by
  change EStateM.bind x f s = _
  rw [EStateM.bind, h]

theorem bind_error {x : EStateM ε σ α} {f : α → EStateM ε σ β} {s s' : σ} {e : ε}
    (h : x s = .error e s') : (x >>= f) s = .error e s' := by
  change EStateM.bind x f s = _
  rw [EStateM.bind, h]

def Refines (bad : ε → Prop) (E P : σ → τ → Prop) (x : EStateM ε σ α) (y : EStateM ε τ β)
    (Q : α → β → σ → τ → Prop) : Prop :=
  ∀ s t, P s t →
    match y t with
    | .ok b t' => ∃ a s', x s = .ok a s' ∧ Q a b s' t'
    | .error e t' => bad e ∨ ∃ s', x s = .error e s' ∧ E s' t'

variable {bad : ε → Prop} {E P : σ → τ → Prop}

theorem Refines.pure {Q : α → β → σ → τ → Prop} {a : α} {b : β} (h : ∀ s t, P s t → Q a b s t) :
    Refines bad E P (pure a) (pure b) Q := fun s t hst => ⟨a, s, rfl, h s t hst⟩

theorem Refines.throw {Q : α → β → σ → τ → Prop} (e : ε) (h : ∀ s t, P s t → E s t) :
    Refines bad E P (throw e) (throw e) Q := fun s t hst => Or.inr ⟨s, rfl, h s t hst⟩

theorem Refines.bind {Q : α → β → σ → τ → Prop} {R : γ → δ → σ → τ → Prop}
    {x : EStateM ε σ α} {y : EStateM ε τ β} {f : α → EStateM ε σ γ} {g : β → EStateM ε τ δ}
    (hxy : Refines bad E P x y Q) (hfg : ∀ a b, Refines bad E (Q a b) (f a) (g b) R) :
    Refines bad E P (x >>= f) (y >>= g) R := by
  intro s t hst
  have h := hxy s t hst
  change match EStateM.bind y g t with
    | .ok b t' => ∃ a s', EStateM.bind x f s = .ok a s' ∧ R a b s' t'
    | .error e t' => bad e ∨ ∃ s', EStateM.bind x f s = .error e s' ∧ E s' t'
  unfold EStateM.bind
  cases hy : y t with
  | ok b t' =>
    rw [hy] at h
    obtain ⟨a, s', hx, hq⟩ := h
    simpa only [hx] using hfg a b s' t' hq
  | error e t' =>
    rw [hy] at h
    rcases h with hb | ⟨s', hx, he⟩
    · exact Or.inl hb
    · exact Or.inr ⟨s', by simp only [hx], he⟩

theorem Refines.bind_eq {Q : α → σ → τ → Prop} {R : γ → δ → σ → τ → Prop} {x : EStateM ε σ α}
    {y : EStateM ε τ α} {f : α → EStateM ε σ γ} {g : α → EStateM ε τ δ}
    (hxy : Refines bad E P x y fun a b s t => a = b ∧ Q a s t)
    (hfg : ∀ a, Refines bad E (Q a) (f a) (g a) R) : Refines bad E P (x >>= f) (y >>= g) R := by
  refine hxy.bind ?_
  rintro a b s t ⟨rfl, hq⟩
  exact hfg a s t hq

theorem Refines.ok {Q : α → β → σ → τ → Prop} {x : EStateM ε σ α} {y : EStateM ε τ β}
    (h : Refines bad E P x y Q) {s : σ} {t t' : τ} {b : β} (hst : P s t) (hy : y t = .ok b t') :
    ∃ a s', x s = .ok a s' ∧ Q a b s' t' := by
  have hxy := h s t hst
  rwa [hy] at hxy

theorem Refines.of_ok {Q : α → β → σ → τ → Prop} {x : EStateM ε σ α} {y : EStateM ε τ β}
    (h : Refines bad E P x y Q) {s s' : σ} {t : τ} {a : α} (hst : P s t) (hx : x s = .ok a s')
    (hb : ∀ e t', y t = .error e t' → ¬ bad e) : ∃ b t', y t = .ok b t' ∧ Q a b s' t' := by
  have hxy := h s t hst
  cases hy : y t with
  | ok b t' =>
    rw [hy] at hxy
    obtain ⟨a', s'', hx', hq⟩ := hxy
    rw [hx] at hx'
    cases hx'
    exact ⟨b, t', rfl, hq⟩
  | error e t' =>
    rw [hy] at hxy
    obtain ⟨s'', hx', -⟩ := hxy.resolve_left (hb e t' hy)
    rw [hx] at hx'
    cases hx'

theorem Refines.error {Q : α → β → σ → τ → Prop} {x : EStateM ε σ α} {y : EStateM ε τ β}
    (h : Refines bad E P x y Q) {s : σ} {t t' : τ} {e : ε} (hst : P s t) (hy : y t = .error e t')
    (hb : ¬ bad e) : ∃ s', x s = .error e s' ∧ E s' t' := by
  have hxy := h s t hst
  rw [hy] at hxy
  exact hxy.resolve_left hb

end MyDB.Lib

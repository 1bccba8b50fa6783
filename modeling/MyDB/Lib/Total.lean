import MyDB.Lib.Fallible
import MyDB.Lib.Refinement

/-! Programs that end and keep an invariant. The size of the state bounds the
fuel that a program needs: it does not grow, and `n` bounds it at the start. -/

namespace MyDB.Lib
variable {ε σ α β : Type}

/-- What a program may rely on and has to keep, and the faults it may end with. -/
structure Contract (ε σ : Type) where
  Inv : σ → Prop
  size : σ → Nat
  Allowed : ε → Prop

/-- What a run from `s` may end in. -/
def Contract.Ends (C : Contract ε σ) (s : σ) : EStateM.Result ε σ α → Prop
  | .ok _ s' => C.Inv s' ∧ C.size s' ≤ C.size s
  | .error e _ => C.Allowed e

theorem Contract.Ends.of_size_le {C : Contract ε σ} {s t : σ} {r : EStateM.Result ε σ α} (h : C.Ends s r)
    (hst : C.size s ≤ C.size t) : C.Ends t r := by
  cases r with
  | ok a s' => exact ⟨h.1, h.2.trans hst⟩
  | error e s' => exact h

def Keeps (C : Contract ε σ) (n : Nat) (x : EStateM ε σ α) : Prop :=
  ∀ s, C.Inv s → C.size s ≤ n → C.Ends s (x s)

namespace Keeps
variable {C : Contract ε σ} {n : Nat} {x : EStateM ε σ α}

theorem of_le {m : Nat} (h : Keeps C n x) (hm : m ≤ n) : Keeps C m x :=
  fun s hs hsize => h s hs (hsize.trans hm)

theorem pure (a : α) : Keeps C n (Pure.pure a : EStateM ε σ α) := fun _ hs _ => ⟨hs, le_rfl⟩

theorem throw {e : ε} (he : C.Allowed e) : Keeps C n (MonadExcept.throw e : EStateM ε σ α) :=
  fun _ _ _ => he

theorem bind {f : α → EStateM ε σ β} (hx : Keeps C n x) (hf : ∀ a, Keeps C n (f a)) :
    Keeps C n (x >>= f) := by
  intro s hs hsize
  have h := hx s hs hsize
  cases hrun : x s with
  | error e s' =>
    rw [hrun] at h
    rw [bind_error hrun]
    exact h
  | ok a s' =>
    rw [hrun] at h
    rw [bind_ok hrun]
    exact (hf a s' h.1 (h.2.trans hsize)).of_size_le h.2

theorem sized {f : Nat → EStateM ε σ α} (h : ∀ m, m ≤ n → Keeps C m (f m))
    (hx : ∀ s, C.Inv s → x s = f (C.size s) s) : Keeps C n x := by
  intro s hs hsize
  rw [hx s hs]
  exact h _ hsize s hs le_rfl

theorem ite {c : Prop} [Decidable c] {x y : EStateM ε σ α} (hx : Keeps C n x) (hy : Keeps C n y) :
    Keeps C n (if c then x else y) := by
  split_ifs
  · exact hx
  · exact hy

end Keeps

/-! ## Programs that keep an invariant however they end -/

def EndsIn (I : σ → Prop) : EStateM.Result ε σ α → Prop
  | .ok _ s => I s
  | .error _ s => I s

theorem EndsIn.imp {I J : σ → Prop} (himp : ∀ s, I s → J s) {r : EStateM.Result ε σ α} (h : EndsIn I r) : EndsIn J r := by
  cases r with
  | ok a s => exact himp s h
  | error e s => exact himp s h

def Maintains (I : σ → Prop) (x : EStateM ε σ α) : Prop := ∀ s, I s → EndsIn I (x s)

namespace Maintains
variable {I : σ → Prop} {x : EStateM ε σ α}

theorem pure (a : α) : Maintains I (Pure.pure a : EStateM ε σ α) := fun _ hs => hs

theorem bind {f : α → EStateM ε σ β} (hx : Maintains I x) (hf : ∀ a, Maintains I (f a)) : Maintains I (x >>= f) := by
  intro s hs
  have h := hx s hs
  cases hrun : x s with
  | ok a s' =>
    rw [hrun] at h
    rw [bind_ok hrun]
    exact hf a s' h
  | error e s' =>
    rw [hrun] at h
    rw [bind_error hrun]
    exact h

end Maintains

/-! ## Partial correctness -/

/-- A run that returns from a state with `P` ends with `Q`. -/
def Ensures (P : σ → Prop) (x : EStateM ε σ α) (Q : α → σ → Prop) : Prop :=
  ∀ s a s', P s → x s = .ok a s' → Q a s'

namespace Ensures
variable {P : σ → Prop} {Q : α → σ → Prop} {x : EStateM ε σ α}

theorem pure {a : α} (h : ∀ s, P s → Q a s) : Ensures P (Pure.pure a : EStateM ε σ α) Q := by
  rintro s _ _ hs ⟨⟩
  exact h s hs

theorem throw (e : ε) : Ensures P (MonadExcept.throw e : EStateM ε σ α) Q := by
  rintro s a s' hs ⟨⟩

theorem bind {f : α → EStateM ε σ β} {R : β → σ → Prop} (hx : Ensures P x Q) (hf : ∀ a, Ensures (Q a) (f a) R) :
    Ensures P (x >>= f) R := by
  intro s b s' hs hrun
  obtain ⟨a, s₁, hfirst, hrest⟩ := run_bind_eq_ok.mp hrun
  exact hf a s₁ b s' (hx s a s₁ hs hfirst) hrest

theorem tryCatch {handle : ε → EStateM ε σ α} {R : σ → Prop} (hx : Ensures P x Q)
    (herror : ∀ s e s', P s → x s = .error e s' → R s') (hhandle : ∀ e, Ensures R (handle e) Q) :
    Ensures P (MonadExcept.tryCatch x handle) Q := by
  intro s a s' hs hrun
  change EStateM.tryCatch x handle s = .ok a s' at hrun
  unfold EStateM.tryCatch at hrun
  cases hfirst : x s with
  | ok b s₁ =>
    rw [hfirst] at hrun
    cases hrun
    exact hx s a s' hs hfirst
  | error e s₁ =>
    rw [hfirst] at hrun
    exact hhandle e s₁ a s' (herror s e s₁ hs hfirst) hrun

end Ensures

end MyDB.Lib

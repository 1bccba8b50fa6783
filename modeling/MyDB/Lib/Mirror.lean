import MyDB.Lib.Cursor
import MyDB.Lib.Refinement

/-! Two levels that do the same on states that correspond: cursors of which one has the
states of the other under other names, and programs that end in the same way, with the
same error or with values that correspond. -/

namespace MyDB.Lib

/-! ## Cursors -/

section cursors
variable {ε S T α β : Type} {next : S → Except ε (Option α × S)} {next' : T → Except ε (Option α × T)}
  {rename : S → T}

def Renames (next : S → Except ε (Option α × S)) (next' : T → Except ε (Option α × T)) (rename : S → T) : Prop :=
  ∀ s, next' (rename s) = (next s).map (Prod.map id rename)

theorem whileNext_rename (h : Renames next next' rename) (body : β → α → Except ε β) (limit : ε) (fuel : Nat) (s : S)
    (b : β) :
    whileNext next' body limit fuel (rename s) b = (whileNext next body limit fuel s b).map (Prod.map id rename) := by
  induction fuel generalizing s b with
  | zero => rfl
  | succ fuel ih =>
    rw [whileNext, whileNext, h s]
    rcases next s with e | ⟨_ | a, s'⟩
    · rfl
    · rfl
    · change (body b a >>= whileNext next' body limit fuel (rename s')) =
        (body b a >>= whileNext next body limit fuel s').map _
      cases body b a with
      | error e => rfl
      | ok b' => exact ih s' b'

theorem filterNext_rename (h : Renames next next' rename) (p : α → Except ε Bool) (limit : ε) (fuel : Nat) (s : S) :
    filterNext next' p limit fuel (rename s) = (filterNext next p limit fuel s).map (Prod.map id rename) := by
  induction fuel generalizing s with
  | zero => rfl
  | succ fuel ih =>
    rw [filterNext, filterNext, h s]
    rcases next s with e | ⟨_ | a, s'⟩
    · rfl
    · rfl
    · change (p a >>= fun b => if b then pure (some a, rename s') else filterNext next' p limit fuel (rename s')) =
        (p a >>= fun b => if b then pure (some a, s') else filterNext next p limit fuel s').map _
      rcases p a with e | _ | _
      · rfl
      · exact ih s'
      · rfl

theorem mapNext_rename (h : Renames next next' rename) (f : α → Except ε β) (s : S) :
    mapNext next' f (rename s) = (mapNext next f s).map (Prod.map id rename) := by
  rw [mapNext, mapNext, h s]
  rcases next s with e | ⟨_ | a, s'⟩
  · rfl
  · rfl
  · change (f a >>= fun b => pure (some b, rename s')) = (f a >>= fun b => pure (some b, s')).map _
    cases f a with
    | error e => rfl
    | ok b => rfl

end cursors

/-! ## Programs -/

section programs
variable {ε σ τ α β γ δ : Type} {R : σ → τ → Prop} {g : α → β} {k : γ → δ}

/-- Two ends of a run that correspond. -/
inductive Corresponds (R : σ → τ → Prop) (g : α → β) : EStateM.Result ε σ α → EStateM.Result ε τ β → Prop
  | ok {a : α} {s : σ} {t : τ} (h : R s t) : Corresponds R g (.ok a s) (.ok (g a) t)
  | error {e : ε} {s : σ} {t : τ} (h : R s t) : Corresponds R g (.error e s) (.error e t)

def Mirrors (R : σ → τ → Prop) (g : α → β) (x : EStateM ε σ α) (y : EStateM ε τ β) : Prop :=
  ∀ s t, R s t → Corresponds R g (x s) (y t)

theorem Corresponds.imp {R' : σ → τ → Prop} (himp : ∀ s t, R s t → R' s t) {r : EStateM.Result ε σ α}
    {r' : EStateM.Result ε τ β} (h : Corresponds R g r r') : Corresponds R' g r r' := by
  cases h with
  | ok h => exact .ok (himp _ _ h)
  | error h => exact .error (himp _ _ h)

theorem Corresponds.ok_left {a : α} {s : σ} {r' : EStateM.Result ε τ β} (h : Corresponds R g (.ok a s) r') :
    ∃ t, r' = .ok (g a) t ∧ R s t := by
  cases h with
  | ok h => exact ⟨_, rfl, h⟩

theorem Corresponds.error_left {e : ε} {s : σ} {r' : EStateM.Result ε τ β} (h : Corresponds R g (.error e s) r') :
    ∃ t, r' = .error e t ∧ R s t := by
  cases h with
  | error h => exact ⟨_, rfl, h⟩

namespace Mirrors

theorem pure (g : α → β) (a : α) : Mirrors (ε := ε) R g (Pure.pure a) (Pure.pure (g a)) := fun _ _ h => .ok h

theorem throw (g : α → β) (e : ε) : Mirrors (ε := ε) R g (MonadExcept.throw e) (MonadExcept.throw e) := fun _ _ h => .error h

theorem bind {x : EStateM ε σ α} {y : EStateM ε τ β} {p : α → EStateM ε σ γ} {q : β → EStateM ε τ δ}
    (hxy : Mirrors R g x y) (h : ∀ a, Mirrors R k (p a) (q (g a))) : Mirrors R k (x >>= p) (y >>= q) := by
  intro s t hst
  have hend := hxy s t hst
  cases hx : x s with
  | ok a s' =>
    rw [hx] at hend
    obtain ⟨t', hy, hst'⟩ := hend.ok_left
    rw [bind_ok hx, bind_ok hy]
    exact h a s' t' hst'
  | error e s' =>
    rw [hx] at hend
    obtain ⟨t', hy, hst'⟩ := hend.error_left
    rw [bind_error hx, bind_error hy]
    exact .error hst'

theorem mapM {A : Type} {x : A → EStateM ε σ α} {y : A → EStateM ε τ α} {l : List A}
    (h : ∀ a ∈ l, Mirrors R id (x a) (y a)) : Mirrors R id (l.mapM x) (l.mapM y) := by
  induction l with
  | nil => exact Mirrors.pure id []
  | cons a l ih =>
    obtain ⟨ha, hl⟩ := List.forall_mem_cons.mp h
    rw [List.mapM_cons, List.mapM_cons]
    exact ha.bind fun b => (ih hl).bind fun bs => Mirrors.pure id (b :: bs)

end Mirrors

end programs

end MyDB.Lib

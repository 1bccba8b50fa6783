import MyDB.Lib.Cursor
import MyDB.Lib.Refinement

/-! How a computation can end: with a value that has a property, or with a failure that
is allowed. For a cursor the property is one of the elements that come, for every state
that its steps lead to. -/

namespace MyDB.Lib
variable {ε σ S α β : Type} {P : α → Prop} {Q : β → Prop} {E : ε → Prop}

def Ends (P : α → Prop) (E : ε → Prop) : Except ε α → Prop
  | .ok a => P a
  | .error e => E e

namespace Ends

theorem imp {P' : α → Prop} {x : Except ε α} (h : Ends P E x) (himp : ∀ a, P a → P' a) : Ends P' E x := by
  cases x with
  | ok a => exact himp a h
  | error e => exact h

theorem error {x : Except ε α} {e : ε} (h : Ends P E x) (hx : x = .error e) : E e := by
  rw [hx] at h
  exact h

theorem bind {x : Except ε α} {f : α → Except ε β} (hx : Ends P E x) (hf : ∀ a, P a → Ends Q E (f a)) :
    Ends Q E (x >>= f) := by
  cases x with
  | ok a => exact hf a hx
  | error e => exact hx

theorem of_error {x : Except ε α} (h : ∀ e, x = .error e → E e) : Ends (fun a => x = .ok a) E x := by
  cases x with
  | ok a => exact rfl
  | error e => exact h e rfl

theorem mapM {f : α → Except ε β} {l : List α} (h : ∀ a ∈ l, Ends Q E (f a)) :
    Ends (fun bs => ∀ b ∈ bs, Q b) E (l.mapM f) := by
  induction l with
  | nil => exact List.forall_mem_nil _
  | cons a l ih =>
    obtain ⟨ha, hl⟩ := List.forall_mem_cons.mp h
    rw [List.mapM_cons]
    exact ha.bind fun b hb => (ih hl).bind fun bs hbs => List.forall_mem_cons.mpr ⟨hb, hbs⟩

end Ends

/-! ## Cursors -/

/-- From the states in `J` come elements with `P`, and the states stay in `J`. -/
def Gives (next : S → Except ε (Option α × S)) (J : S → Prop) (P : α → Prop) (E : ε → Prop) : Prop :=
  ∀ s, J s → Ends (fun r => (∀ a, r.1 = some a → P a) ∧ J r.2) E (next s)

namespace Gives
variable {next : S → Except ε (Option α × S)} {J : S → Prop} {bound : S → Nat} {limit : ε}

theorem mapNext (h : Gives next J P E) {f : α → Except ε β} (hf : ∀ a, P a → Ends Q E (f a)) :
    Gives (Lib.mapNext next f) J Q E := by
  intro s hs
  refine (h s hs).bind ?_
  rintro ⟨_ | a, s'⟩ ⟨ha, hs'⟩
  · exact ⟨fun b hb => absurd hb (Option.some_ne_none b).symm, hs'⟩
  · refine (hf a (ha a rfl)).bind fun b hb => ⟨fun c hc => ?_, hs'⟩
    cases hc
    exact hb

theorem filterNext (h : Gives next J P E) (hb : Decreases next bound) {P' : α → Prop} {p : α → Except ε Bool}
    (hp : ∀ a, P a → Ends (fun b => b = true → P' a) E (p a)) :
    Gives (fun s => Lib.filterNext next p limit (bound s + 1) s) J P' E := by
  have hfuel : ∀ fuel s, J s → bound s < fuel →
      Ends (fun r => (∀ a, r.1 = some a → P' a) ∧ J r.2) E (Lib.filterNext next p limit fuel s) := by
    intro fuel
    induction fuel with
    | zero => exact fun s _ hlt => absurd hlt (Nat.not_lt_zero _)
    | succ fuel ih =>
      intro s hs hlt
      have hstep := h s hs
      cases hn : next s with
      | error e =>
        rw [hn] at hstep
        rw [filterNext_error hn]
        exact hstep
      | ok r =>
        rw [hn] at hstep
        rw [Lib.filterNext, hn]
        obtain ⟨_ | a, s'⟩ := r
        · exact ⟨fun a ha => absurd ha (Option.some_ne_none a).symm, hstep.2⟩
        · refine (hp a (hstep.1 a rfl)).bind fun b hb' => ?_
          cases b with
          | true =>
            refine ⟨fun c hc => ?_, hstep.2⟩
            cases hc
            exact hb' rfl
          | false => exact ih s' hstep.2 ((hb s a s' hn).trans_le (Nat.le_of_lt_succ hlt))
  exact fun s hs => hfuel _ s hs (Nat.lt_succ_self _)

theorem whileNext (h : Gives next J P E) (hb : Decreases next bound) {body : β → α → Except ε β}
    (hbody : ∀ b, Q b → ∀ a, P a → Ends Q E (body b a)) {fuel : Nat} {s : S} {b : β} (hs : J s) (hQ : Q b)
    (hfuel : bound s < fuel) : Ends (fun r => Q r.1) E (Lib.whileNext next body limit fuel s b) := by
  induction fuel generalizing s b with
  | zero => exact absurd hfuel (Nat.not_lt_zero _)
  | succ fuel ih =>
    have hstep := h s hs
    rw [Lib.whileNext]
    cases hn : next s with
    | error e =>
      rw [hn] at hstep
      exact hstep
    | ok r =>
      rw [hn] at hstep
      obtain ⟨_ | a, s'⟩ := r
      · exact hQ
      · refine (hbody b hQ a (hstep.1 a rfl)).bind fun b' hb' => ?_
        exact ih hstep.2 hb' ((hb s a s' hn).trans_le (Nat.le_of_lt_succ hfuel))

theorem indexNext {f : α → Except ε β} {l : List α} (hf : ∀ a ∈ l, Ends Q E (f a)) :
    Gives (Lib.indexNext f l) (fun _ => True) Q E := by
  intro i _
  rw [Lib.indexNext]
  cases hi : l[i]? with
  | none => exact ⟨fun b hb => absurd hb (Option.some_ne_none b).symm, trivial⟩
  | some a =>
    refine (hf a (List.mem_of_getElem? hi)).bind fun b hb => ⟨fun c hc => ?_, trivial⟩
    cases hc
    exact hb

end Gives

/-! ## Programs with a state -/

/-- From a state with `I` the program ends with a value that has `P` and a state with `I`,
or with an allowed failure. -/
def EndsFrom (I : σ → Prop) (P : α → Prop) (E : ε → Prop) (x : EStateM ε σ α) : Prop :=
  ∀ s, I s → match x s with
    | .ok a s' => P a ∧ I s'
    | .error e _ => E e

namespace EndsFrom
variable {I : σ → Prop} {x : EStateM ε σ α}

theorem error (h : EndsFrom I P E x) {s s' : σ} {e : ε} (hs : I s) (hx : x s = .error e s') : E e := by
  have hend := h s hs
  rw [hx] at hend
  exact hend

theorem ok (h : EndsFrom I P E x) {s s' : σ} {a : α} (hs : I s) (hx : x s = .ok a s') : P a ∧ I s' := by
  have hend := h s hs
  rw [hx] at hend
  exact hend

theorem pure {a : α} (h : P a) : EndsFrom I P E (Pure.pure a : EStateM ε σ α) := fun _ hs => ⟨h, hs⟩

theorem bind {f : α → EStateM ε σ β} (hx : EndsFrom I P E x) (hf : ∀ a, P a → EndsFrom I Q E (f a)) :
    EndsFrom I Q E (x >>= f) := by
  intro s hs
  have hend := hx s hs
  cases hrun : x s with
  | ok a s' =>
    rw [hrun] at hend
    rw [bind_ok hrun]
    exact hf a hend.1 s' hend.2
  | error e s' =>
    rw [hrun] at hend
    rw [bind_error hrun]
    exact hend

end EndsFrom

end MyDB.Lib

import MyDB.Lib.Fallible

/-! Iterators: a step of a cursor returns the next element or the end, or fails.
`Drains next s l s'` says that from the state `s` the elements `l` come, and then
the end in the state `s'`. The loops over a cursor have fuel, which a bound on the
elements that are left supplies. -/

namespace MyDB.Lib
variable {ε S T α β : Type}

inductive Drains (next : S → Except ε (Option α × S)) : S → List α → S → Prop
  | done {s s' : S} (h : next s = .ok (none, s')) : Drains next s [] s'
  | more {s s₁ s' : S} {a : α} {l : List α} (h : next s = .ok (some a, s₁)) (hl : Drains next s₁ l s') :
      Drains next s (a :: l) s'

/-- The elements that come from `s` on, when the end is reached. -/
def Yields (next : S → Except ε (Option α × S)) (s : S) (l : List α) : Prop :=
  ∃ s', Drains next s l s'

/-- `while (child.Next(&t))` with a body, for at most `fuel` rounds. -/
def whileNext (next : S → Except ε (Option α × S)) (body : β → α → Except ε β) (limit : ε) :
    Nat → S → β → Except ε (β × S)
  | 0, _, _ => throw limit
  | fuel + 1, s, b => do
    match ← next s with
    | (none, s) => return (b, s)
    | (some a, s) => whileNext next body limit fuel s (← body b a)

/-- The next element that satisfies `p`, among at most `fuel`. -/
def filterNext (next : S → Except ε (Option α × S)) (p : α → Except ε Bool) (limit : ε) :
    Nat → S → Except ε (Option α × S)
  | 0, _ => throw limit
  | fuel + 1, s => do
    match ← next s with
    | (none, s) => return (none, s)
    | (some a, s) => if ← p a then return (some a, s) else filterNext next p limit fuel s

def mapNext (next : S → Except ε (Option α × S)) (f : α → Except ε β) (s : S) :
    Except ε (Option β × S) := do
  match ← next s with
  | (none, s) => return (none, s)
  | (some a, s) => return (some (← f a), s)

def indexNext (f : α → Except ε β) (l : List α) (i : Nat) : Except ε (Option β × Nat) :=
  match l[i]? with
  | none => return (none, i)
  | some a => return (some (← f a), i + 1)

def filterOk (p : α → Except ε Bool) : List α → Except ε (List α)
  | [] => return []
  | a :: l => do
    let b ← p a
    let rest ← filterOk p l
    return if b then a :: rest else rest

variable {next : S → Except ε (Option α × S)} {s s' : S} {l : List α}

namespace Drains

theorem unique {l₁ l₂ : List α} {s₁ s₂ : S} (h₁ : Drains next s l₁ s₁) (h₂ : Drains next s l₂ s₂) :
    l₁ = l₂ ∧ s₁ = s₂ := by
  induction h₁ generalizing l₂ with
  | done h =>
    cases h₂ with
    | done h' =>
      rw [h] at h'
      cases h'
      exact ⟨rfl, rfl⟩
    | more h' =>
      rw [h] at h'
      cases h'
  | more h _ ih =>
    cases h₂ with
    | done h' =>
      rw [h] at h'
      cases h'
    | more h' hl =>
      rw [h] at h'
      cases h'
      obtain ⟨rfl, rfl⟩ := ih hl
      exact ⟨rfl, rfl⟩

theorem of_next_eq {t : S} (h : Drains next s l s') (hst : next s = next t) : Drains next t l s' := by
  cases h with
  | done h => exact .done (hst ▸ h)
  | more h hl => exact .more (hst ▸ h) hl

theorem next_ok (h : Drains next s l s') : ∃ r, next s = .ok r := by
  cases h with
  | done h => exact ⟨_, h⟩
  | more h => exact ⟨_, h⟩

end Drains

theorem exists_yields {I : S → Prop} (bound : S → Nat)
    (hstep : ∀ s, I s → (∃ s', next s = .ok (none, s')) ∨ ∃ a s', next s = .ok (some a, s') ∧ I s' ∧ bound s' < bound s)
    (hs : I s) : ∃ l, Yields next s l := by
  induction hb : bound s using Nat.strong_induction_on generalizing s with
  | _ b ih =>
    rcases hstep s hs with ⟨s', hend⟩ | ⟨a, s', hnext, hs', hlt⟩
    · exact ⟨[], s', .done hend⟩
    · obtain ⟨l, t, hl⟩ := ih (bound s') (hb ▸ hlt) hs' rfl
      exact ⟨a :: l, t, .more hnext hl⟩

section step
variable {γ : Type}

theorem yields_end_iff (h : next s = .ok (none, s')) : Yields next s l ↔ l = [] := by
  constructor
  · rintro ⟨t, hl⟩
    exact (hl.unique (.done h)).1
  · rintro rfl
    exact ⟨s', .done h⟩

theorem yields_more_iff {x : Except ε α} (h : next s = x.map fun a => (some a, s')) :
    Yields next s l ↔ ∃ a t, x = .ok a ∧ Yields next s' t ∧ l = a :: t := by
  constructor
  · rintro ⟨t, hl⟩
    cases hl with
    | done hn =>
      obtain ⟨a, -, ha⟩ := map_eq_ok.mp (h.symm.trans hn)
      cases ha
    | more hn hl =>
      obtain ⟨a, hx, ha⟩ := map_eq_ok.mp (h.symm.trans hn)
      cases ha
      exact ⟨_, _, hx, ⟨t, hl⟩, rfl⟩
  · rintro ⟨a, t, rfl, ⟨s₁, hl⟩, rfl⟩
    exact ⟨s₁, .more h hl⟩

theorem yields_bind_iff {x : Except ε γ} {g : γ → S} (h : next s = x >>= fun c => next (g c)) :
    Yields next s l ↔ ∃ c, x = .ok c ∧ Yields next (g c) l := by
  constructor
  · rintro ⟨t, hl⟩
    obtain ⟨r, hr⟩ := hl.next_ok
    obtain ⟨c, rfl, -⟩ := bind_eq_ok.mp (h.symm.trans hr)
    exact ⟨c, rfl, t, hl.of_next_eq h⟩
  · rintro ⟨c, rfl, t, hl⟩
    exact ⟨t, hl.of_next_eq h.symm⟩

end step

theorem drains_lift_iff {next₂ : T → Except ε (Option α × T)} (put : S → T)
    (hput : ∀ s, next₂ (put s) = (next s).map (Prod.map id put)) {t : T} :
    Drains next₂ (put s) l t ↔ ∃ s', t = put s' ∧ Drains next s l s' := by
  constructor
  · intro h
    generalize hs : put s = t₀ at h
    induction h generalizing s with
    | done h =>
      rw [← hs, hput] at h
      obtain ⟨⟨o, s'⟩, hs', ho⟩ := map_eq_ok.mp h
      cases ho
      exact ⟨s', rfl, .done hs'⟩
    | more h _ ih =>
      rw [← hs, hput] at h
      obtain ⟨⟨o, s₁⟩, hs₁, ho⟩ := map_eq_ok.mp h
      cases ho
      obtain ⟨s', rfl, hl⟩ := ih rfl
      exact ⟨s', rfl, .more hs₁ hl⟩
  · rintro ⟨s', rfl, h⟩
    induction h with
    | done h => exact .done (by rw [hput, h]; rfl)
    | more h _ ih => exact .more (by rw [hput, h]; rfl) ih

theorem drains_mapNext_iff {f : α → Except ε β} {l' : List β} :
    Drains (mapNext next f) s l' s' ↔ ∃ l, Drains next s l s' ∧ l.mapM f = .ok l' := by
  constructor
  · intro h
    induction h with
    | done h =>
      obtain ⟨⟨_ | a, s₁⟩, hs₁, h⟩ := bind_eq_ok.mp h
      · cases pure_eq_ok.mp h
        exact ⟨[], .done hs₁, rfl⟩
      · obtain ⟨b, -, h⟩ := bind_eq_ok.mp h
        cases pure_eq_ok.mp h
    | more h _ ih =>
      obtain ⟨⟨_ | a, s₁⟩, hs₁, h⟩ := bind_eq_ok.mp h
      · cases pure_eq_ok.mp h
      · obtain ⟨b, hb, h⟩ := bind_eq_ok.mp h
        cases pure_eq_ok.mp h
        obtain ⟨l, hl, hm⟩ := ih
        exact ⟨a :: l, .more hs₁ hl, mapM_cons_eq_ok.mpr ⟨_, _, hb, hm, rfl⟩⟩
  · rintro ⟨l, h, hm⟩
    induction h generalizing l' with
    | done h =>
      cases pure_eq_ok.mp hm
      exact .done (bind_eq_ok.mpr ⟨_, h, rfl⟩)
    | more h _ ih =>
      obtain ⟨b, t, hb, ht, rfl⟩ := mapM_cons_eq_ok.mp hm
      exact .more (bind_eq_ok.mpr ⟨_, h, bind_eq_ok.mpr ⟨b, hb, rfl⟩⟩) (ih ht)

theorem yields_lift_iff {next₂ : T → Except ε (Option α × T)} (put : S → T)
    (hput : ∀ s, next₂ (put s) = (next s).map (Prod.map id put)) :
    Yields next₂ (put s) l ↔ Yields next s l := by
  constructor
  · rintro ⟨t, h⟩
    obtain ⟨s', -, h⟩ := (drains_lift_iff put hput).mp h
    exact ⟨s', h⟩
  · rintro ⟨s', h⟩
    exact ⟨put s', (drains_lift_iff put hput).mpr ⟨s', rfl, h⟩⟩

theorem yields_indexNext_iff {f : α → Except ε β} {i : Nat} {l' : List β} :
    Yields (indexNext f l) i l' ↔ (l.drop i).mapM f = .ok l' := by
  generalize hrest : l.drop i = rest
  induction rest generalizing i l' with
  | nil =>
    have hnone : l[i]? = none := List.getElem?_eq_none (List.drop_eq_nil_iff.mp hrest)
    have hend : indexNext f l i = .ok (none, i) := by rw [indexNext, hnone]; rfl
    rw [yields_end_iff hend, List.mapM_nil, pure_eq_ok, eq_comm]
  | cons a rest ih =>
    have hsome : l[i]? = some a := by rw [← List.head?_drop, hrest, List.head?_cons]
    have hdrop : l.drop (i + 1) = rest := by rw [← List.tail_drop, hrest, List.tail_cons]
    have hstep : indexNext f l i = (f a).map fun b => (some b, i + 1) := by rw [indexNext, hsome]; rfl
    rw [yields_more_iff hstep, mapM_cons_eq_ok]
    simp only [ih hdrop]

/-! ## Calls -/

inductive Calls (next : S → Except ε (Option α × S)) (s : S) : List (Option α) → S → Prop
  | none : Calls next s [] s
  | call {outs : List (Option α)} {s₁ s₂ : S} {o : Option α} (h : Calls next s outs s₁) (hn : next s₁ = .ok (o, s₂)) :
      Calls next s (outs ++ [o]) s₂

theorem Calls.invariant {P : S → Prop} (hP : ∀ s o s', P s → next s = .ok (o, s') → P s') {outs : List (Option α)}
    (h : Calls next s outs s') (hs : P s) : P s' := by
  induction h with
  | none => exact hs
  | call _ hn ih => exact hP _ _ _ ih hn

theorem Calls.cons {s₁ : S} {o : Option α} {outs : List (Option α)} (hn : next s = .ok (o, s₁))
    (h : Calls next s₁ outs s') : Calls next s (o :: outs) s' := by
  induction h with
  | none => exact .call .none hn
  | call _ hn' ih => exact .call ih hn'

theorem Drains.calls (h : Drains next s l s') : ∃ outs s₁, Calls next s outs s₁ ∧ next s₁ = .ok (none, s') := by
  induction h with
  | done h => exact ⟨[], _, .none, h⟩
  | more h _ ih =>
    obtain ⟨outs, s₁, hcalls, hend⟩ := ih
    exact ⟨_, s₁, .cons h hcalls, hend⟩

theorem filterNext_calls {p : α → Except ε Bool} {limit : ε} {fuel : Nat} {o : Option α}
    (h : filterNext next p limit fuel s = .ok (o, s')) : ∃ outs s₁, Calls next s outs s₁ ∧ next s₁ = .ok (o, s') := by
  induction fuel generalizing s with
  | zero => cases h
  | succ fuel ih =>
    obtain ⟨⟨_ | a, s₁⟩, hs, h⟩ := bind_eq_ok.mp h
    · cases pure_eq_ok.mp h
      exact ⟨[], s, .none, hs⟩
    · obtain ⟨b, -, h⟩ := bind_eq_ok.mp h
      cases b with
      | true =>
        cases pure_eq_ok.mp h
        exact ⟨[], s, .none, hs⟩
      | false =>
        obtain ⟨outs, s₂, hcalls, hlast⟩ := ih h
        exact ⟨_, s₂, .cons hs hcalls, hlast⟩

theorem filterNext_error {p : α → Except ε Bool} {limit e : ε} (h : next s = .error e) (fuel : Nat) :
    filterNext next p limit (fuel + 1) s = .error e := by
  rw [filterNext, h]
  rfl

theorem mapNext_error {f : α → Except ε β} {e : ε} (h : next s = .error e) : mapNext next f s = .error e := by
  rw [mapNext, h]
  rfl

theorem mapNext_call {f : α → Except ε β} {o : Option β} (h : mapNext next f s = .ok (o, s')) :
    ∃ o', next s = .ok (o', s') ∧ (o = none ↔ o' = none) := by
  obtain ⟨⟨_ | a, s₁⟩, hs, h⟩ := bind_eq_ok.mp h
  · cases pure_eq_ok.mp h
    exact ⟨none, hs, iff_of_true rfl rfl⟩
  · obtain ⟨b, -, h⟩ := bind_eq_ok.mp h
    cases pure_eq_ok.mp h
    exact ⟨some a, hs, by simp⟩

/-! ## Fuel -/

def Decreases (next : S → Except ε (Option α × S)) (bound : S → Nat) : Prop :=
  ∀ s a s', next s = .ok (some a, s') → bound s' < bound s

variable {bound : S → Nat} {limit : ε}

theorem decreases_indexNext {f : α → Except ε β} : Decreases (indexNext f l) fun i => l.length - i := by
  intro i b j h
  rw [indexNext] at h
  cases hi : l[i]? with
  | none =>
    rw [hi] at h
    cases pure_eq_ok.mp h
  | some a =>
    rw [hi] at h
    obtain ⟨b, -, h⟩ := bind_eq_ok.mp h
    cases pure_eq_ok.mp h
    have hlt : i < l.length := (List.getElem?_eq_some_iff.mp hi).1
    exact Nat.sub_succ_lt_self _ _ hlt

theorem Drains.length_le (hb : Decreases next bound) (h : Drains next s l s') : l.length ≤ bound s := by
  induction h with
  | done => exact Nat.zero_le _
  | more h _ ih => exact ih.trans_lt (hb _ _ _ h)

section whileNext
variable {body : β → α → Except ε β} {b b' : β} {fuel : Nat}

theorem whileNext_eq_ok : whileNext next body limit fuel s b = .ok (b', s') →
    ∃ l, Drains next s l s' ∧ l.foldlM body b = .ok b' := by
  intro h
  induction fuel generalizing s b with
  | zero => cases h
  | succ fuel ih =>
    obtain ⟨⟨_ | a, s₁⟩, hs₁, h⟩ := bind_eq_ok.mp h
    · cases pure_eq_ok.mp h
      exact ⟨[], .done hs₁, rfl⟩
    · obtain ⟨b₁, hb₁, h⟩ := bind_eq_ok.mp h
      obtain ⟨l, hl, hf⟩ := ih h
      exact ⟨a :: l, .more hs₁ hl, by rw [List.foldlM_cons, bind_eq_ok]; exact ⟨b₁, hb₁, hf⟩⟩

theorem whileNext_of_drains (h : Drains next s l s') (hl : l.length < fuel) (hf : l.foldlM body b = .ok b') :
    whileNext next body limit fuel s b = .ok (b', s') := by
  induction h generalizing fuel b with
  | done h =>
    cases pure_eq_ok.mp hf
    obtain ⟨fuel, rfl⟩ := Nat.exists_eq_succ_of_ne_zero (Nat.ne_zero_of_lt hl)
    exact bind_eq_ok.mpr ⟨_, h, rfl⟩
  | more h _ ih =>
    rw [List.foldlM_cons] at hf
    obtain ⟨b₁, hb₁, hf⟩ := bind_eq_ok.mp hf
    obtain ⟨fuel, rfl⟩ := Nat.exists_eq_succ_of_ne_zero (Nat.ne_zero_of_lt hl)
    exact bind_eq_ok.mpr ⟨_, h, bind_eq_ok.mpr ⟨b₁, hb₁, ih (Nat.lt_of_succ_lt_succ hl) hf⟩⟩

end whileNext

section filterNext
variable {p : α → Except ε Bool}

theorem filterNext_fuel (hb : Decreases next bound) {m n : Nat} (hm : bound s < m) (hn : bound s < n) :
    filterNext next p limit m s = filterNext next p limit n s := by
  induction m generalizing s n with
  | zero => exact absurd hm (Nat.not_lt_zero _)
  | succ m ih =>
    obtain ⟨n, rfl⟩ := Nat.exists_eq_succ_of_ne_zero (Nat.ne_zero_of_lt hn)
    rw [filterNext, filterNext]
    cases hs : next s with
    | error e => rfl
    | ok r =>
      obtain ⟨_ | a, s₁⟩ := r
      · rfl
      · have hlt := hb _ _ _ hs
        have heq := ih (hlt.trans_le (Nat.le_of_lt_succ hm)) (hlt.trans_le (Nat.le_of_lt_succ hn))
        show (p a >>= fun c => if c then _ else _) = (p a >>= fun c => if c then _ else _)
        rw [heq]

theorem filterNext_none (hs : next s = .ok (none, s')) {fuel : Nat} :
    filterNext next p limit (fuel + 1) s = .ok (none, s') := by
  rw [filterNext, hs]
  rfl

theorem filterNext_take {a : α} (hs : next s = .ok (some a, s')) (hp : p a = .ok true) {fuel : Nat} :
    filterNext next p limit (fuel + 1) s = .ok (some a, s') := by
  rw [filterNext, hs]
  show (p a >>= fun c => if c then _ else _) = _
  rw [hp]
  rfl

theorem filterNext_skip (hb : Decreases next bound) {a : α} (hs : next s = .ok (some a, s'))
    (hp : p a = .ok false) :
    filterNext next p limit (bound s + 1) s = filterNext next p limit (bound s' + 1) s' := by
  rw [filterNext, hs]
  show (p a >>= fun c => if c then _ else _) = _
  rw [hp]
  exact filterNext_fuel hb (hb _ _ _ hs) (Nat.lt_succ_self _)

theorem filterOk_cons_eq_ok {a : α} {l l' : List α} : filterOk p (a :: l) = .ok l' ↔
    ∃ b rest, p a = .ok b ∧ filterOk p l = .ok rest ∧ (if b then a :: rest else rest) = l' := by
  rw [filterOk, bind_eq_ok]
  constructor
  · rintro ⟨b, hb, h⟩
    obtain ⟨rest, hrest, h⟩ := bind_eq_ok.mp h
    exact ⟨b, rest, hb, hrest, pure_eq_ok.mp h⟩
  · rintro ⟨b, rest, hb, hrest, rfl⟩
    exact ⟨b, hb, bind_eq_ok.mpr ⟨rest, hrest, rfl⟩⟩

theorem drains_filterNext_iff (hb : Decreases next bound) {l' : List α} :
    Drains (fun s => filterNext next p limit (bound s + 1) s) s l' s' ↔
      ∃ l, Drains next s l s' ∧ filterOk p l = .ok l' := by
  constructor
  · intro h
    induction hn : bound s using Nat.strong_induction_on generalizing s l' with
    | h n ih =>
      subst hn
      obtain ⟨r, hr⟩ := h.next_ok
      obtain ⟨⟨_ | a, s₁⟩, hs, hr⟩ := bind_eq_ok.mp hr
      · obtain ⟨rfl, rfl⟩ := h.unique (.done (filterNext_none hs))
        exact ⟨[], .done hs, rfl⟩
      · have hlt := hb _ _ _ hs
        obtain ⟨c, hp, hr⟩ := bind_eq_ok.mp hr
        cases c with
        | false =>
          obtain ⟨l, hl, hf⟩ := ih _ hlt (h.of_next_eq (filterNext_skip hb hs hp)) rfl
          exact ⟨a :: l, .more hs hl, filterOk_cons_eq_ok.mpr ⟨_, _, hp, hf, rfl⟩⟩
        | true =>
          cases h with
          | done h => cases (filterNext_take hs hp).symm.trans h
          | more h hl =>
            cases (filterNext_take hs hp).symm.trans h
            obtain ⟨l, hl, hf⟩ := ih _ hlt hl rfl
            exact ⟨a :: l, .more hs hl, filterOk_cons_eq_ok.mpr ⟨_, _, hp, hf, rfl⟩⟩
  · rintro ⟨l, h, hf⟩
    induction h generalizing l' with
    | done h =>
      cases pure_eq_ok.mp hf
      exact .done (filterNext_none h)
    | more h _ ih =>
      obtain ⟨b, rest, hp, hrest, rfl⟩ := filterOk_cons_eq_ok.mp hf
      cases b with
      | true => exact .more (filterNext_take h hp) (ih hrest)
      | false => exact (ih hrest).of_next_eq (filterNext_skip hb h hp).symm

theorem decreases_filterNext (hb : Decreases next bound) :
    Decreases (fun s => filterNext next p limit (bound s + 1) s) bound := by
  intro s a s' h
  induction hn : bound s using Nat.strong_induction_on generalizing s with
  | h n ih =>
    subst hn
    obtain ⟨⟨_ | c, s₁⟩, hs, h'⟩ := bind_eq_ok.mp h
    · cases pure_eq_ok.mp h'
    · obtain ⟨b, hp, h'⟩ := bind_eq_ok.mp h'
      cases b with
      | true =>
        cases pure_eq_ok.mp h'
        exact hb _ _ _ hs
      | false =>
        have hlt := hb _ _ _ hs
        exact (ih _ hlt _ ((filterNext_skip hb hs hp).symm.trans h) rfl).trans hlt

end filterNext

theorem decreases_mapNext (hb : Decreases next bound) {f : α → Except ε β} :
    Decreases (mapNext next f) bound := by
  intro s b s' h
  obtain ⟨⟨_ | a, s₁⟩, hs, h⟩ := bind_eq_ok.mp h
  · cases pure_eq_ok.mp h
  · obtain ⟨b, -, h⟩ := bind_eq_ok.mp h
    cases pure_eq_ok.mp h
    exact hb _ _ _ hs

end MyDB.Lib

import MyDB.Lib.ClaimLoop

/-! Workers whose task cannot go on from every point. Where `safe` fails, the worker that
holds the item stands still, and the workers never all come to their ends. -/

namespace MyDB.Lib.ClaimLoop
variable {A S O P ι : Type} {task : Task A S O P} {items : List A} {safe Sound : P → Prop}

def Task.restrict (task : Task A S O P) (safe : P → Prop) : Task A S O P where
  start := task.start
  step s o p s' o' p' := safe p ∧ task.step s o p s' o' p'

theorem Step.of_restrict {s s' : Shared S} {w w' : Worker O P} (h : Step (task.restrict safe) items s w s' w') :
    Step task items s w s' w' := by
  cases h with
  | finish h => exact .finish h
  | claim h => exact .claim h
  | work h => exact .work h.2

theorem Step.restrict {s s' : Shared S} {w w' : Worker O P} (h : Step task items s w s' w')
    (hsafe : ∀ p, w.pc = .busy p → safe p) : Step (task.restrict safe) items s w s' w' := by
  cases h with
  | finish h => exact .finish h
  | claim h => exact .claim h
  | work h => exact .work ⟨hsafe _ rfl, h⟩

/-- Every point that safe steps lead to from an item is sound. -/
structure Closed (task : Task A S O P) (items : List A) (safe Sound : P → Prop) : Prop where
  first : ∀ a ∈ items, Sound (task.start a)
  next : ∀ s o p s' o' p', Sound p → safe p → task.step s o p s' o' (some p') → Sound p'

theorem Closed.sound_step (h : Closed task items safe Sound) {s s' : Shared S} {w w' : Worker O P}
    (hs : Step (task.restrict safe) items s w s' w') (hw : ∀ p, w.pc = .busy p → Sound p) (p : P)
    (hp : w'.pc = .busy p) : Sound p := by
  cases hs with
  | finish => cases hp
  | claim ha =>
    cases hp
    exact h.first _ (List.mem_of_getElem? ha)
  | @work _ _ q q' _ hstep =>
    cases q' with
    | none => cases hp
    | some q' =>
      cases hp
      exact h.next _ _ _ _ _ _ (hw q rfl) hstep.1 hstep.2

theorem Task.Finishes.restrict (h : Closed task items safe Sound) (hsafe : ∀ p, Sound p → safe p) {st st' : S} {o o' : O}
    {p : P} (hf : task.Finishes st o p st' o') (hp : Sound p) : (task.restrict safe).Finishes st o p st' o' := by
  induction hf with
  | last hs => exact .last ⟨hsafe _ hp, hs⟩
  | more hs _ ih => exact .more ⟨hsafe _ hp, hs⟩ (ih (h.next _ _ _ _ _ _ hp (hsafe _ hp) hs))

variable [DecidableEq ι] {st : S} {o : O} {c : Threads ι (Shared S) (Worker O P)}

theorem run_of_restrict {c₀ : Threads ι (Shared S) (Worker O P)}
    (hrun : Threads.Run (Step (task.restrict safe) items) c₀ c) : Threads.Run (Step task items) c₀ c := by
  induction hrun with
  | refl => exact .refl
  | tail _ hs ih =>
    obtain ⟨i, hs⟩ := hs
    exact ih.tail (.run i hs.of_restrict)

theorem Closed.run (h : Closed task items safe Sound)
    (hrun : Threads.Run (Step (task.restrict safe) items) (start st o) c) (i : ι) (p : P)
    (hp : (c.locals i).pc = .busy p) : Sound p := by
  induction hrun generalizing i p with
  | refl => cases hp
  | @tail c _ _ hs ih =>
    obtain ⟨j, hs⟩ := hs
    dsimp only at hp
    by_cases hij : i = j
    · rw [hij, Function.update_self] at hp
      exact h.sound_step hs (ih j) p hp
    · rw [Function.update_of_ne hij] at hp
      exact ih i p hp

theorem Closed.run_restrict (h : Closed task items safe Sound) (hsafe : ∀ p, Sound p → safe p)
    (hrun : Threads.Run (Step task items) (start st o) c) :
    Threads.Run (Step (task.restrict safe) items) (start st o) c := by
  induction hrun with
  | refl => exact .refl
  | tail _ hs ih =>
    obtain ⟨i, hs⟩ := hs
    exact ih.tail (.run i (hs.restrict fun p hp => hsafe p (h.run ih i p hp)))

theorem reaches {k : Nat} {a : A} (hk : items[k]? = some a)
    (hbefore : ∀ b ∈ items.take k, ∀ st o, ∃ st' o', task.Finishes st o (task.start b) st' o') (st : S) (o : O) (i : ι) :
    ∃ c, Threads.Run (Step task items) (start st o) c ∧ (c.locals i).pc = .busy (task.start a) := by
  -- the worker has finished the first `j` items and is about to claim the next
  have hclaims (j : Nat) (hj : j ≤ k) : ∃ c o', Threads.Run (Step task items) (start st o) c ∧
      c.shared.next = j ∧ c.locals i = ⟨o', .claim⟩ := by
    induction j with
    | zero => exact ⟨start st o, o, .refl, rfl, rfl⟩
    | succ j ih =>
      obtain ⟨c, o', hrun, hnext, hi⟩ := ih (Nat.le_of_succ_le hj)
      obtain ⟨b, hb⟩ : ∃ b, items[j]? = some b := by
        have hlen := (List.getElem?_eq_some_iff.mp hk).1
        exact ⟨_, List.getElem?_eq_getElem (by omega)⟩
      have hmem : b ∈ items.take k := List.mem_of_getElem? ((List.getElem?_take_of_lt hj).trans hb)
      obtain ⟨st', o'', hf⟩ := hbefore b hmem c.shared.state o'
      have hclaim : Threads.Step (Step task items) c _ := .of_local hi (.claim (hnext ▸ hb))
      have hfinish : Threads.Run (Step task items) ⟨⟨c.shared.next + 1, c.shared.state⟩, _⟩ _ :=
        hf.run (Function.update_self i ⟨o', .busy (task.start b)⟩ c.locals)
      exact ⟨_, o'', (hrun.tail hclaim).trans hfinish, congrArg (· + 1) hnext, Function.update_self ..⟩
  obtain ⟨c, o', hrun, hnext, hi⟩ := hclaims k le_rfl
  refine ⟨_, hrun.tail (.of_local hi (.claim (hnext ▸ hk))), ?_⟩
  exact congrArg Worker.pc (Function.update_self i ⟨o', .busy (task.start a)⟩ c.locals)

/-- Some worker holds the item `a`, of index `k`, as soon as it is claimed; and a worker
stops only behind the last item. -/
structure Holds (task : Task A S O P) (items : List A) (k : Nat) (a : A) (c : Threads ι (Shared S) (Worker O P)) : Prop where
  held : k < c.shared.next → ∃ i, (c.locals i).pc = .busy (task.start a)
  passed : ∀ i, (c.locals i).pc = .done → items.length ≤ c.shared.next

theorem Holds.step {k : Nat} {a : A} (hk : items[k]? = some a) (hfails : ¬ safe (task.start a))
    (hc : Holds task items k a c) (i : ι) {s' : Shared S} {w' : Worker O P}
    (hs : Step (task.restrict safe) items c.shared (c.locals i) s' w') :
    Holds task items k a ⟨s', Function.update c.locals i w'⟩ := by
  have hnext : c.shared.next ≤ s'.next := hs.next_le
  have hheld (hlt : k < c.shared.next) (hi : (c.locals i).pc ≠ .busy (task.start a)) :
      ∃ j, (Function.update c.locals i w' j).pc = .busy (task.start a) := by
    obtain ⟨j, hj⟩ := hc.held hlt
    have hji : j ≠ i := fun h => hi (h ▸ hj)
    exact ⟨j, by rw [Function.update_of_ne hji, hj]⟩
  have hpassed (hw : w'.pc = .done → items.length ≤ s'.next) (j : ι)
      (hj : (Function.update c.locals i w' j).pc = .done) : items.length ≤ s'.next := by
    by_cases hji : j = i
    · rw [hji, Function.update_self] at hj
      exact hw hj
    · rw [Function.update_of_ne hji] at hj
      exact (hc.passed j hj).trans hnext
  have hlen : k < items.length := (List.getElem?_eq_some_iff.mp hk).1
  generalize hl : c.locals i = w at hs
  rw [hl] at hheld
  cases hs with
  | finish h => exact ⟨fun _ => hheld (hlen.trans_le h) nofun, hpassed fun _ => h.trans (Nat.le_succ _)⟩
  | @claim o a' ha =>
    refine ⟨fun hlt => ?_, hpassed nofun⟩
    obtain hlt | heq := Nat.lt_succ_iff_lt_or_eq.mp hlt
    · exact hheld hlt nofun
    · rw [← heq, hk] at ha
      cases ha
      exact ⟨i, by simp [Task.restrict]⟩
  | @work o o' p p' st' hstep =>
    refine ⟨fun hlt => hheld hlt ?_, hpassed fun h => ?_⟩
    · rintro ⟨⟩
      exact hfails hstep.1
    · cases p' <;> cases h

theorem stuck [Nonempty ι] {k : Nat} {a : A} (hk : items[k]? = some a) (hfails : ¬ safe (task.start a))
    (hrun : Threads.Run (Step (task.restrict safe) items) (start st o) c) : ∃ i, (c.locals i).pc ≠ .done := by
  have hholds : Holds task items k a c := by
    induction hrun with
    | refl => exact ⟨nofun, nofun⟩
    | tail _ hs ih =>
      obtain ⟨i, hs⟩ := hs
      exact ih.step hk hfails i hs
  by_contra! hdone
  obtain ⟨i⟩ := ‹Nonempty ι›
  have hlen : k < items.length := (List.getElem?_eq_some_iff.mp hk).1
  obtain ⟨j, hj⟩ := hholds.held (hlen.trans_le (hholds.passed i (hdone i)))
  cases (hdone j).symm.trans hj

end MyDB.Lib.ClaimLoop

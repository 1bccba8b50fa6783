import MyDB.Lib.Threads

/-! Workers that take the items of a list by counting up a shared counter, as
with `fetch_add`, until the counter has passed the end. What a worker does with an
item is a `Task`: steps on a state that all share, with an output of its own. -/

namespace MyDB.Lib.ClaimLoop
variable {A S O P R ι : Type}

/-- `step s o p s' o' p'` is one atomic step; with `p' = none` the item is finished. -/
structure Task (A S O P : Type) where
  start : A → P
  step : S → O → P → S → O → Option P → Prop

inductive Pc (P : Type) where
  | claim
  | busy (p : P)
  | done

def Pc.ofOption : Option P → Pc P
  | some p => .busy p
  | none => .claim

def Pc.current : Pc P → Option P
  | .busy p => some p
  | .claim | .done => none

structure Shared (S : Type) where
  next : Nat
  state : S

structure Worker (O P : Type) where
  out : O
  pc : Pc P

inductive Step (task : Task A S O P) (items : List A) :
    Shared S → Worker O P → Shared S → Worker O P → Prop
  | finish {s : Shared S} {o : O} (h : items.length ≤ s.next) :
      Step task items s ⟨o, .claim⟩ ⟨s.next + 1, s.state⟩ ⟨o, .done⟩
  | claim {s : Shared S} {o : O} {a : A} (h : items[s.next]? = some a) :
      Step task items s ⟨o, .claim⟩ ⟨s.next + 1, s.state⟩ ⟨o, .busy (task.start a)⟩
  | work {s : Shared S} {o o' : O} {p : P} {p' : Option P} {st : S} (h : task.step s.state o p st o' p') :
      Step task items s ⟨o, .busy p⟩ ⟨s.next, st⟩ ⟨o', .ofOption p'⟩

theorem Step.next_le {task : Task A S O P} {items : List A} {s s' : Shared S} {w w' : Worker O P}
    (h : Step task items s w s' w') : s.next ≤ s'.next := by
  cases h with
  | finish => exact Nat.le_succ _
  | claim => exact Nat.le_succ _
  | work => exact le_rfl

def start (st : S) (o : O) : Threads ι (Shared S) (Worker O P) := ⟨⟨0, st⟩, fun _ => ⟨o, .claim⟩⟩

theorem current_ofOption (p : Option P) : (Pc.ofOption p).current = p := by
  cases p <;> rfl

def busy (ws : ι → Worker O P) : ι → Option P := fun i => (ws i).pc.current

/-! ## Every item is accounted for once -/

def Worker.share (coll : O → Multiset R) (pend : P → Multiset R) (w : Worker O P) : Multiset R :=
  coll w.out + w.pc.current.elim 0 pend

def claimed (items : List A) (value : A → Multiset R) (next : Nat) : Multiset R :=
  ((items.take next).map value).sum

theorem claimed_succ {items : List A} {value : A → Multiset R} {next : Nat} {a : A}
    (h : items[next]? = some a) : claimed items value (next + 1) = claimed items value next + value a := by
  rw [claimed, claimed, List.take_add_one, h, Option.toList_some, List.map_append, List.sum_append,
    List.map_singleton, List.sum_singleton]

theorem sum_map_coe (items : List A) (f : A → List R) :
    (items.map fun a => (f a : Multiset R)).sum = (items.flatMap f : List R) := by
  induction items with
  | nil => rfl
  | cons a items ih => rw [List.map_cons, List.sum_cons, ih, List.flatMap_cons, Multiset.coe_add]

theorem claimed_of_length_le {items : List A} {value : A → Multiset R} {next : Nat}
    (h : items.length ≤ next) : claimed items value next = (items.map value).sum := by
  rw [claimed, List.take_of_length_le h]

theorem existsUnique_claim {items : List A} {log : List (ι × A)} (hnodup : items.Nodup)
    (hitems : log.map Prod.snd = items) {a : A} (ha : a ∈ items) : ∃! i, (i, a) ∈ log := by
  rw [← hitems] at ha hnodup
  obtain ⟨⟨i, b⟩, hmem, rfl⟩ := List.mem_map.mp ha
  refine ⟨i, hmem, fun j hj => ?_⟩
  exact congrArg Prod.fst (List.inj_on_of_nodup_map hnodup hj hmem rfl)

section Done
variable [Fintype ι] {items : List A} {value : A → Multiset R} {coll : O → Multiset R}
  {pend : P → Multiset R} {Inv : Nat → S → (ι → Option P) → Multiset R → Prop}

structure Accounted (items : List A) (value : A → Multiset R) (coll : O → Multiset R)
    (pend : P → Multiset R) (Inv : Nat → S → (ι → Option P) → Multiset R → Prop)
    (c : Threads ι (Shared S) (Worker O P)) (m : Multiset R) : Prop where
  inv : Inv c.shared.next c.shared.state (busy c.locals) m
  total : m + ∑ i, (c.locals i).share coll pend = claimed items value c.shared.next
  passed : ∀ i, (c.locals i).pc = .done → items.length ≤ c.shared.next

theorem Accounted.done [Nonempty ι] {c : Threads ι (Shared S) (Worker O P)} {m : Multiset R}
    (h : Accounted items value coll pend Inv c m) (hdone : ∀ i, (c.locals i).pc = .done) :
    m + ∑ i, coll (c.locals i).out = (items.map value).sum := by
  have hshare (i : ι) : (c.locals i).share coll pend = coll (c.locals i).out := by
    rw [Worker.share, hdone]
    exact add_zero _
  obtain ⟨i⟩ := ‹Nonempty ι›
  have htotal := h.total
  rwa [Finset.sum_congr rfl fun i _ => hshare i, claimed_of_length_le (h.passed i (hdone i))] at htotal

end Done

variable [DecidableEq ι]

theorem busy_update (ws : ι → Worker O P) (i : ι) (w : Worker O P) :
    busy (Function.update ws i w) = Function.update (busy ws) i w.pc.current :=
  Function.comp_update (fun w : Worker O P => w.pc.current) ws i w

structure Accounts (task : Task A S O P) (items : List A) (value : A → Multiset R) (coll : O → Multiset R)
    (pend : P → Multiset R) (Inv : Nat → S → (ι → Option P) → Multiset R → Prop) : Prop where
  start : ∀ next st pcs m i a, items[next]? = some a → Inv next st pcs m → pcs i = none →
    Inv (next + 1) st (Function.update pcs i (some (task.start a))) m ∧ pend (task.start a) = value a
  finish : ∀ next st pcs m, items.length ≤ next → Inv next st pcs m → Inv (next + 1) st pcs m
  step : ∀ next st pcs m i o p st' o' p', Inv next st pcs m → pcs i = some p → task.step st o p st' o' p' →
    ∃ m', Inv next st' (Function.update pcs i p') m' ∧
      m' + (coll o' + p'.elim 0 pend) = m + (coll o + pend p)

variable {task : Task A S O P} {items : List A} {value : A → Multiset R}
  {coll : O → Multiset R} {pend : P → Multiset R} {Inv : Nat → S → (ι → Option P) → Multiset R → Prop}

section Run
variable [Fintype ι]

theorem Accounted.work {Inv' : Nat → S → (ι → Option P) → Multiset R → Prop} {c : Threads ι (Shared S) (Worker O P)}
    {m m' : Multiset R} (hc : Accounted items value coll pend Inv c m) {i : ι} {o o' : O} {p : P} {p' : Option P} {st : S}
    (hi : c.locals i = ⟨o, .busy p⟩) (hinv : Inv' c.shared.next st (Function.update (busy c.locals) i p') m')
    (hshare : m' + (coll o' + p'.elim 0 pend) = m + (coll o + pend p)) :
    Accounted items value coll pend Inv' ⟨⟨c.shared.next, st⟩, Function.update c.locals i ⟨o', .ofOption p'⟩⟩ m' := by
  have hsum := Threads.sum_locals_update (Worker.share coll pend) c.locals i ⟨o', .ofOption p'⟩
  rw [hi] at hsum
  refine ⟨?_, ?_, fun j hj => ?_⟩
  · rw [busy_update, current_ofOption]
    exact hinv
  · have hw : m' + (Worker.mk o' (.ofOption p')).share coll pend =
        m + (Worker.mk o (.busy p)).share coll pend := by
      rw [Worker.share, current_ofOption]
      exact hshare
    refine (add_right_cancel (b := (Worker.mk o (.busy p)).share coll pend) ?_).trans hc.total
    rw [add_assoc, hsum, add_left_comm, hw, add_left_comm, add_assoc]
  · change (Function.update c.locals i _ j).pc = .done at hj
    by_cases hji : j = i
    · rw [hji, Function.update_self] at hj
      cases p' <;> cases hj
    · rw [Function.update_of_ne hji] at hj
      exact hc.passed j hj

theorem accounted_step (h : Accounts task items value coll pend Inv) (c : Threads ι (Shared S) (Worker O P))
    (i : ι) (s' : Shared S) (w' : Worker O P) (hc : ∃ m, Accounted items value coll pend Inv c m)
    (hs : Step task items c.shared (c.locals i) s' w') :
    ∃ m, Accounted items value coll pend Inv ⟨s', Function.update c.locals i w'⟩ m := by
  obtain ⟨m, hc⟩ := hc
  have hsum := Threads.sum_locals_update (Worker.share coll pend) c.locals i w'
  have hnext : c.shared.next ≤ s'.next := hs.next_le
  have hpassed (hw : w'.pc = .done → items.length ≤ s'.next) (j : ι)
      (hj : (Function.update c.locals i w' j).pc = .done) : items.length ≤ s'.next := by
    by_cases hji : j = i
    · rw [hji, Function.update_self] at hj
      exact hw hj
    · rw [Function.update_of_ne hji] at hj
      exact (hc.passed j hj).trans hnext
  generalize hl : c.locals i = w at hs hsum
  have hbusy : busy c.locals i = w.pc.current := by rw [busy, hl]
  cases hs with
  | @finish o hlen =>
    refine ⟨m, ?_, ?_, hpassed fun _ => hlen.trans (Nat.le_succ _)⟩
    · rw [busy_update]
      change Inv (c.shared.next + 1) c.shared.state (Function.update (busy c.locals) i none) m
      rw [← show busy c.locals i = none from hbusy, Function.update_eq_self]
      exact h.finish _ _ _ _ hlen hc.inv
    · have hsame : ∑ j, (Function.update c.locals i ⟨o, .done⟩ j).share coll pend =
          ∑ j, (c.locals j).share coll pend := add_right_cancel hsum
      rw [hsame, hc.total, claimed_of_length_le hlen, claimed_of_length_le (hlen.trans (Nat.le_succ _))]
  | @claim o a ha =>
    obtain ⟨hinv, hpend⟩ := h.start _ _ _ _ i a ha hc.inv hbusy
    refine ⟨m, ?_, ?_, hpassed fun e => by cases e⟩
    · rw [busy_update]
      exact hinv
    · have hshare : (Worker.mk o (.busy (task.start a))).share coll pend =
          (Worker.mk o (.claim : Pc P)).share coll pend + value a := by
        rw [← hpend]
        exact (congrArg (· + pend (task.start a)) (add_zero (coll o))).symm
      rw [hshare, add_comm _ (value a), ← add_assoc] at hsum
      rw [add_right_cancel hsum, ← add_assoc, hc.total]
      exact (claimed_succ ha).symm
  | @work o o' p p' st hstep =>
    obtain ⟨m', hinv, hshare⟩ := h.step _ _ _ _ i _ _ _ _ _ hc.inv hbusy hstep
    exact ⟨m', hc.work hl hinv hshare⟩

theorem accounted_run (h : Accounts task items value coll pend Inv) {st : S} {o : O}
    (hstart : Inv 0 st (fun _ => none) 0) (hcoll : coll o = 0) {c : Threads ι (Shared S) (Worker O P)}
    (hrun : Threads.Run (Step task items) (start st o) c) :
    ∃ m, Accounted items value coll pend Inv c m := by
  refine hrun.invariant (accounted_step h) ⟨0, hstart, ?_, fun i hi => by cases hi⟩
  have hzero (i : ι) : ((start st o : Threads ι (Shared S) (Worker O P)).locals i).share coll pend = 0 := by
    change coll o + 0 = 0
    rw [hcoll, add_zero]
  rw [Finset.sum_eq_zero fun i _ => hzero i]
  rfl

end Run

def merged {n : Nat} (c : Threads (Fin n) (Shared S) (Worker (List R) P)) : List R :=
  (List.finRange n).flatMap fun i => (c.locals i).out

theorem coe_merged {n : Nat} (c : Threads (Fin n) (Shared S) (Worker (List R) P)) :
    (merged c : Multiset R) = ∑ i, ((c.locals i).out : Multiset R) := by
  rw [merged, ← sum_map_coe, ← List.sum_ofFn, List.ofFn_eq_map]

/-! ## What has been claimed -/

def claimOf (items : List A) (s : Shared S) (w : Worker O P) : Option A :=
  match w.pc with
  | .claim => items[s.next]?
  | .busy _ | .done => none

/-- The runs from `c₀`, with the workers that claimed items in them and those items. -/
inductive Claims (task : Task A S O P) (items : List A) (c₀ : Threads ι (Shared S) (Worker O P)) :
    Threads ι (Shared S) (Worker O P) → List (ι × A) → Prop
  | none : Claims task items c₀ c₀ []
  | step {c : Threads ι (Shared S) (Worker O P)} {log : List (ι × A)} {s' : Shared S} {w' : Worker O P}
      (h : Claims task items c₀ c log) (i : ι) (hs : Step task items c.shared (c.locals i) s' w') :
      Claims task items c₀ ⟨s', Function.update c.locals i w'⟩
        (log ++ ((claimOf items c.shared (c.locals i)).map fun a => (i, a)).toList)

section Claims
variable {c₀ c : Threads ι (Shared S) (Worker O P)} {log : List (ι × A)}

theorem Claims.run (h : Claims task items c₀ c log) : Threads.Run (Step task items) c₀ c := by
  induction h with
  | none => exact .refl
  | step _ i hs ih => exact ih.tail (.run i hs)

theorem exists_claims (h : Threads.Run (Step task items) c₀ c) : ∃ log, Claims task items c₀ c log := by
  induction h with
  | refl => exact ⟨[], .none⟩
  | tail _ hs ih =>
    obtain ⟨log, hlog⟩ := ih
    obtain ⟨i, hs⟩ := hs
    exact ⟨_, hlog.step i hs⟩

theorem Step.take_next {s s' : Shared S} {w w' : Worker O P} (h : Step task items s w s' w') :
    items.take s'.next = items.take s.next ++ (claimOf items s w).toList := by
  cases h with
  | finish hlen =>
    rw [List.take_of_length_le hlen, List.take_of_length_le (hlen.trans (Nat.le_succ _)), claimOf,
      List.getElem?_eq_none hlen]
    exact (List.append_nil _).symm
  | claim ha => exact List.take_add_one
  | work hw => exact (List.append_nil _).symm

theorem Claims.items_eq {st : S} {o : O} (h : Claims task items (start st o) c log) :
    log.map Prod.snd = items.take c.shared.next := by
  induction h with
  | none => exact List.take_zero.symm
  | @step c log s' w' _ i hs ih =>
    have hsnd : ((claimOf items c.shared (c.locals i)).map fun a => (i, a)).toList.map Prod.snd =
        (claimOf items c.shared (c.locals i)).toList := by
      cases claimOf items c.shared (c.locals i) with
      | none => rfl
      | some a => rfl
    rw [List.map_append, ih, hsnd]
    exact hs.take_next.symm

end Claims

/-! ## The workers can always finish -/

inductive Task.Finishes (task : Task A S O P) : S → O → P → S → O → Prop
  | last {st st' : S} {o o' : O} {p : P} (h : task.step st o p st' o' none) : Finishes task st o p st' o'
  | more {st st₁ st' : S} {o o₁ o' : O} {p p₁ : P} (h : task.step st o p st₁ o₁ (some p₁))
      (hf : Finishes task st₁ o₁ p₁ st' o') : Finishes task st o p st' o'

theorem Task.Finishes.run {st st' : S} {o o' : O} {p : P} (h : task.Finishes st o p st' o') {next : Nat}
    {ws : ι → Worker O P} {i : ι} (hi : ws i = ⟨o, .busy p⟩) :
    Threads.Run (Step task items) ⟨⟨next, st⟩, ws⟩
      ⟨⟨next, st'⟩, Function.update ws i ⟨o', .claim⟩⟩ := by
  induction h generalizing ws with
  | @last st st' o o' p h =>
    have hstep : Step task items ⟨next, st⟩ ⟨o, .busy p⟩ ⟨next, st'⟩ ⟨o', .ofOption none⟩ := .work h
    exact .single (.of_local hi hstep)
  | @more st st₁ st' o o₁ o' p p₁ h _ ih =>
    have hstep : Step task items ⟨next, st⟩ ⟨o, .busy p⟩ ⟨next, st₁⟩ ⟨o₁, .ofOption (some p₁)⟩ := .work h
    have hrest := ih (Function.update_self i ⟨o₁, .busy p₁⟩ ws)
    rw [Function.update_idem] at hrest
    exact .head (.of_local hi hstep) hrest

theorem run_alone {c₀ : Threads ι (Shared S) (Worker O P)}
    (hfin : ∀ c, Threads.Run (Step task items) c₀ c → ∀ i o p, c.locals i = ⟨o, .busy p⟩ →
      ∃ st' o', task.Finishes c.shared.state o p st' o')
    (c : Threads ι (Shared S) (Worker O P)) (hc : Threads.Run (Step task items) c₀ c) (i : ι) :
    ∃ c', Threads.Run (Step task items) c c' ∧ (c'.locals i).pc = .done ∧
      ∀ j, j ≠ i → c'.locals j = c.locals j := by
  -- by the number of items that are left
  generalize hleft : items.length - c.shared.next = left
  induction left using Nat.strong_induction_on generalizing c with
  | _ left ih =>
    have hclaim (c : Threads ι (Shared S) (Worker O P)) (hc : Threads.Run (Step task items) c₀ c) (o : O)
        (hi : c.locals i = ⟨o, .claim⟩) (hleft : items.length - c.shared.next = left) :
        ∃ c', Threads.Run (Step task items) c c' ∧ (c'.locals i).pc = .done ∧
          ∀ j, j ≠ i → c'.locals j = c.locals j := by
      by_cases hlen : items.length ≤ c.shared.next
      · have hself := Function.update_self i (⟨o, .done⟩ : Worker O P) c.locals
        exact ⟨_, .single (.of_local hi (.finish hlen)), congrArg Worker.pc hself,
          fun j hj => Function.update_of_ne hj _ _⟩
      · have hlt : c.shared.next < items.length := Nat.lt_of_not_le hlen
        have hstep : Threads.Step (Step task items) c _ :=
          .of_local hi (.claim (List.getElem?_eq_getElem hlt))
        obtain ⟨st', o', hf⟩ := hfin _ (hc.tail hstep) i o _ (Function.update_self ..)
        have hrun : Threads.Run (Step task items) ⟨⟨c.shared.next + 1, c.shared.state⟩, _⟩ _ :=
          hf.run (Function.update_self i ⟨o, .busy (task.start items[c.shared.next])⟩ c.locals)
        rw [Function.update_idem] at hrun
        have hless : items.length - (c.shared.next + 1) < left := by
          rw [← hleft]
          exact Nat.sub_succ_lt_self _ _ hlt
        obtain ⟨c', hrun', hdone, hsame⟩ := ih _ hless _ ((hc.tail hstep).trans hrun) rfl
        refine ⟨c', (Relation.ReflTransGen.single hstep).trans (hrun.trans hrun'), hdone, fun j hj => ?_⟩
        rw [hsame j hj]
        exact Function.update_of_ne hj _ _
    cases hi : c.locals i with
    | mk o pc =>
      cases pc with
      | done => exact ⟨c, .refl, congrArg Worker.pc hi, fun _ _ => rfl⟩
      | claim => exact hclaim c hc o hi hleft
      | busy p =>
        obtain ⟨st', o', hf⟩ := hfin c hc i o p hi
        have hrun : Threads.Run (Step task items) c _ := hf.run hi
        obtain ⟨c', hrun', hdone, hsame⟩ := hclaim _ (hc.trans hrun) o' (Function.update_self ..) hleft
        refine ⟨c', hrun.trans hrun', hdone, fun j hj => ?_⟩
        rw [hsame j hj]
        exact Function.update_of_ne hj _ _

end MyDB.Lib.ClaimLoop

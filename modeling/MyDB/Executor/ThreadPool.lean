import MyDB.Lib.Threads

/-! `ThreadPool`: the workers, and threads that call `Submit`, `WaitAll` and the
destructor, under any scheduler. A section that holds `mutex_` is one step, and a
wait on a condition variable can end at any time. A task is run outside of the
sections and may call `Submit` itself. -/

namespace MyDB.Executor.ThreadPool
open MyDB.Lib Threads

variable {T : Type}

structure Shared (T : Type) where
  tasks : List T
  stop : Bool
  inFlight : Int
  /-- How many workers have returned, which `join` waits for. -/
  exited : Nat
  /-- The tasks of all calls of `Submit`, and those that have been run. -/
  submitted : Multiset T
  ran : Multiset T

/-- Where a thread is. The first five are workers. -/
inductive Pc (T : Type) where
  | idle
  | waiting
  | running (t : T)
  | finishing (t : T)
  | returned
  | caller
  | waitAll
  | blocked
  | joining
  | joined

def Shared.submit (s : Shared T) (t : T) : Shared T :=
  { s with inFlight := s.inFlight + 1, tasks := s.tasks ++ [t], submitted := t ::ₘ s.submitted }

/-- The steps, in a pool of `n` workers. -/
inductive PoolStep (n : Nat) : Shared T → Pc T → Shared T → Pc T → Prop
  | wait {s} (hstop : s.stop = false) (h : s.tasks = []) : PoolStep n s .idle s .waiting
  | wake {s} : PoolStep n s .waiting s .idle
  | exit {s} (hstop : s.stop = true) (h : s.tasks = []) :
      PoolStep n s .idle { s with exited := s.exited + 1 } .returned
  | take {s t rest} (h : s.tasks = t :: rest) : PoolStep n s .idle { s with tasks := rest } (.running t)
  | run {s t} : PoolStep n s (.running t) { s with ran := t ::ₘ s.ran } (.finishing t)
  | finish {s t} : PoolStep n s (.finishing t) { s with inFlight := s.inFlight - 1 } .idle
  | submitFromTask {s t} (u : T) : PoolStep n s (.running t) (s.submit u) (.running t)
  -- nobody calls a member while the pool is being destroyed, except its own tasks
  | submit {s} (u : T) (hstop : s.stop = false) : PoolStep n s .caller (s.submit u) .caller
  | callWaitAll {s} : PoolStep n s .caller s .waitAll
  | block {s} (h : s.inFlight ≠ 0) : PoolStep n s .waitAll s .blocked
  | unblock {s} : PoolStep n s .blocked s .waitAll
  | waitAllReturns {s} (h : s.inFlight = 0) : PoolStep n s .waitAll s .caller
  | destroy {s} : PoolStep n s .caller { s with stop := true } .joining
  | join {s} (h : s.exited = n) : PoolStep n s .joining s .joined

def start (n : Nat) (κ T : Type) : Threads (Fin n ⊕ κ) (Shared T) (Pc T) where
  shared := ⟨[], false, 0, 0, 0, 0⟩
  locals := Sum.elim (fun _ => .idle) fun _ => .caller

namespace Pc

def taken : Pc T → Nat
  | .running _ | .finishing _ => 1
  | _ => 0

def pending : Pc T → Multiset T
  | .running t => {t}
  | _ => 0

def alive : Pc T → Nat
  | .idle | .waiting | .running _ | .finishing _ => 1
  | _ => 0

theorem taken_le_alive (l : Pc T) : l.taken ≤ l.alive := by
  cases l with
  | running t => exact le_rfl
  | finishing t => exact le_rfl
  | _ => exact Nat.zero_le _

theorem pending_eq_zero {l : Pc T} (h : l.taken = 0) : l.pending = 0 := by
  cases l with
  | running t => exact absurd h Nat.one_ne_zero
  | _ => rfl

end Pc

/-! ## What a step keeps -/

namespace PoolStep
variable {n : Nat} {s s' : Shared T} {l l' : Pc T}

theorem inFlight_eq (h : PoolStep n s l s' l') :
    s'.inFlight + (s.tasks.length + l.taken) = s.inFlight + (s'.tasks.length + l'.taken) := by
  cases h with
  | take h =>
    show s.inFlight + ((s.tasks.length : Int) + 0) = _
    rw [h, List.length_cons]
    push_cast
    rfl
  | finish =>
    show s.inFlight - 1 + ((s.tasks.length : Int) + 1) = s.inFlight + ((s.tasks.length : Int) + 0)
    ring
  | submitFromTask u =>
    show s.inFlight + 1 + ((s.tasks.length : Int) + 1) = s.inFlight + (((s.tasks ++ [u]).length : Int) + 1)
    rw [List.length_append, List.length_singleton]
    push_cast
    ring
  | submit u =>
    show s.inFlight + 1 + ((s.tasks.length : Int) + 0) = s.inFlight + (((s.tasks ++ [u]).length : Int) + 0)
    rw [List.length_append, List.length_singleton]
    push_cast
    ring
  | _ => rfl

theorem submitted_eq (h : PoolStep n s l s' l') :
    s'.submitted + (↑s.tasks + s.ran + l.pending) = s.submitted + (↑s'.tasks + s'.ran + l'.pending) := by
  have hcons (u : T) : (u ::ₘ s.submitted) + (↑s.tasks + s.ran + l.pending) =
      s.submitted + (↑(s.tasks ++ [u]) + s.ran + l.pending) := by
    rw [← Multiset.coe_add, Multiset.coe_singleton, ← Multiset.singleton_add]
    ac_rfl
  cases h with
  | @take t rest h =>
    show s.submitted + (↑s.tasks + s.ran + 0) = s.submitted + (↑rest + s.ran + {t})
    rw [h, ← Multiset.cons_coe, ← Multiset.singleton_add]
    ac_rfl
  | @run t =>
    show s.submitted + (↑s.tasks + s.ran + {t}) = s.submitted + (↑s.tasks + (t ::ₘ s.ran) + 0)
    rw [← Multiset.singleton_add]
    ac_rfl
  | submitFromTask u => exact hcons u
  | submit u => exact hcons u
  | _ => rfl

theorem exited_eq (h : PoolStep n s l s' l') : s'.exited + l'.alive = s.exited + l.alive := by
  cases h <;> rfl

theorem exited_le (h : PoolStep n s l s' l') : s.exited ≤ s'.exited := by
  cases h with
  | exit => exact Nat.le_succ _
  | _ => exact le_rfl

theorem stop_of_exited (h : PoolStep n s l s' l') (hstop : s.exited ≠ 0 → s.stop = true) :
    s'.exited ≠ 0 → s'.stop = true := by
  cases h with
  | exit hs => exact fun _ => hs
  | destroy => exact fun _ => rfl
  | _ => exact hstop

theorem tasks_cases (h : PoolStep n s l s' l') :
    s'.tasks = [] ∨ s'.exited = s.exited ∧ (s'.tasks = s.tasks ∨ l.alive = 1 ∨ s.stop = false) := by
  cases h with
  | exit _ h => exact .inl h
  | take => exact .inr ⟨rfl, .inr (.inl rfl)⟩
  | submitFromTask => exact .inr ⟨rfl, .inr (.inl rfl)⟩
  | submit _ hstop => exact .inr ⟨rfl, .inr (.inr hstop)⟩
  | _ => exact .inr ⟨rfl, .inl rfl⟩

theorem inFlight_of_returns (h : PoolStep n s .waitAll s' .caller) : s'.inFlight = 0 := by
  cases h with
  | waitAllReturns h => exact h

theorem exited_of_joined (h : PoolStep n s l s' .joined) : s'.exited = n := by
  cases h with
  | join h => exact h

end PoolStep

structure Inv (n : Nat) {ι : Type} [Fintype ι] (c : Threads ι (Shared T) (Pc T)) : Prop where
  inFlight_eq : c.shared.inFlight = (c.shared.tasks.length + ∑ i, (c.locals i).taken : Nat)
  submitted_eq : c.shared.submitted = ↑c.shared.tasks + c.shared.ran + ∑ i, (c.locals i).pending
  exited_eq : c.shared.exited + ∑ i, (c.locals i).alive = n
  stop_of_exited : c.shared.exited ≠ 0 → c.shared.stop = true
  tasks_of_exited : c.shared.exited = n → c.shared.tasks = []
  exited_of_joined : ∀ i, c.locals i = .joined → c.shared.exited = n

variable {n : Nat} {ι : Type} [Fintype ι] {c : Threads ι (Shared T) (Pc T)}

theorem Inv.exited_lt (h : Inv n c) {i : ι} (hi : (c.locals i).alive = 1) : c.shared.exited < n := by
  have hle : (c.locals i).alive ≤ ∑ j, (c.locals j).alive :=
    Finset.single_le_sum (f := fun j => (c.locals j).alive) (fun _ _ => Nat.zero_le _) (Finset.mem_univ i)
  have heq := h.exited_eq
  omega

theorem Inv.ran_eq (h : Inv n c) (htasks : c.shared.tasks = []) (htaken : ∑ i, (c.locals i).taken = 0) :
    c.shared.ran = c.shared.submitted := by
  have hpending : ∑ i, (c.locals i).pending = 0 := by
    apply Finset.sum_eq_zero
    intro i hi
    exact Pc.pending_eq_zero (Finset.sum_eq_zero_iff.mp htaken i hi)
  rw [h.submitted_eq, htasks, hpending, Multiset.coe_nil, zero_add, add_zero]

theorem Inv.empty_of_inFlight (h : Inv n c) (hzero : c.shared.inFlight = 0) :
    c.shared.tasks = [] ∧ ∀ i, (c.locals i).taken = 0 := by
  have heq := h.inFlight_eq
  have hlength : c.shared.tasks.length = 0 := by omega
  have htaken : ∑ i, (c.locals i).taken = 0 := by omega
  exact ⟨List.length_eq_zero_iff.mp hlength, fun i => Finset.sum_eq_zero_iff.mp htaken i (Finset.mem_univ i)⟩

theorem Inv.ran_of_inFlight (h : Inv n c) (hzero : c.shared.inFlight = 0) :
    c.shared.ran = c.shared.submitted ∧ ∀ i, (c.locals i).taken = 0 := by
  obtain ⟨htasks, htaken⟩ := h.empty_of_inFlight hzero
  exact ⟨h.ran_eq htasks (Finset.sum_eq_zero fun i _ => htaken i), htaken⟩

theorem Inv.inFlight_zero (h : Inv n c) (htasks : c.shared.tasks = []) (htaken : ∀ i, (c.locals i).taken = 0) :
    c.shared.inFlight = 0 := by
  rw [h.inFlight_eq, htasks, Finset.sum_eq_zero fun i _ => htaken i]
  rfl

theorem Inv.exited_all (h : Inv n c) (halive : ∀ i, (c.locals i).alive = 0) : c.shared.exited = n := by
  have heq := h.exited_eq
  rwa [Finset.sum_eq_zero fun i _ => halive i] at heq

theorem Inv.ran_of_exited (h : Inv n c) (hall : c.shared.exited = n) : c.shared.ran = c.shared.submitted := by
  have heq := h.exited_eq
  have halive : ∑ i, (c.locals i).alive = 0 := by omega
  apply h.ran_eq (h.tasks_of_exited hall)
  apply Finset.sum_eq_zero
  intro i hi
  have hle := (c.locals i).taken_le_alive
  rw [Finset.sum_eq_zero_iff.mp halive i hi] at hle
  exact Nat.le_zero.mp hle

variable [DecidableEq ι]

theorem Inv.step (hn : 0 < n) (h : Inv n c) (i : ι) {s' : Shared T} {l' : Pc T}
    (hs : PoolStep n c.shared (c.locals i) s' l') : Inv n ⟨s', Function.update c.locals i l'⟩ := by
  have hexited : s'.exited + ∑ j, (Function.update c.locals i l' j).alive = n := by
    have hsum := sum_locals_update Pc.alive c.locals i l'
    have heq := h.exited_eq
    have hstep := hs.exited_eq
    omega
  constructor
  · have hsum := sum_locals_update Pc.taken c.locals i l'
    have heq := h.inFlight_eq
    have hstep := hs.inFlight_eq
    show s'.inFlight = (s'.tasks.length + ∑ j, (Function.update c.locals i l' j).taken : Nat)
    omega
  · have hsum := sum_locals_update Pc.pending c.locals i l'
    apply add_right_cancel (b := ↑c.shared.tasks + c.shared.ran + (c.locals i).pending)
    calc s'.submitted + (↑c.shared.tasks + c.shared.ran + (c.locals i).pending)
        = ↑c.shared.tasks + c.shared.ran + ↑s'.tasks + s'.ran + ((∑ j, (c.locals j).pending) + l'.pending) := by
          rw [hs.submitted_eq, h.submitted_eq]
          ac_rfl
      _ = ↑s'.tasks + s'.ran + (∑ j, (Function.update c.locals i l' j).pending) +
            (↑c.shared.tasks + c.shared.ran + (c.locals i).pending) := by
          rw [← hsum]
          ac_rfl
  · exact hexited
  · exact hs.stop_of_exited h.stop_of_exited
  · intro hall
    obtain hnil | ⟨heq, hcases⟩ := hs.tasks_cases
    · exact hnil
    have hsame : c.shared.exited = n := heq.symm.trans hall
    obtain htasks | halive | hstop := hcases
    · exact htasks.trans (h.tasks_of_exited hsame)
    · exact absurd hsame (h.exited_lt halive).ne
    · rw [h.stop_of_exited (hsame ▸ hn.ne')] at hstop
      cases hstop
  · intro j hj
    by_cases hji : j = i
    · change Function.update c.locals i l' j = .joined at hj
      rw [hji, Function.update_self] at hj
      subst hj
      exact hs.exited_of_joined
    · change Function.update c.locals i l' j = .joined at hj
      rw [Function.update_of_ne hji] at hj
      have hle := hs.exited_le
      rw [h.exited_of_joined j hj] at hle
      exact le_antisymm (Nat.le.intro hexited) hle

theorem inv_start (hn : 0 < n) (κ : Type) [Fintype κ] : Inv n (start n κ T) := by
  have hzero {M : Type} [AddCommMonoid M] (m : Pc T → M) (hidle : m .idle = 0) (hcaller : m .caller = 0) :
      ∑ i, m ((start n κ T).locals i) = 0 := by
    apply Finset.sum_eq_zero
    intro i _
    cases i with
    | inl i => exact hidle
    | inr k => exact hcaller
  constructor
  · show (0 : Int) = (0 + ∑ i, ((start n κ T).locals i).taken : Nat)
    rw [hzero Pc.taken rfl rfl]
    rfl
  · show (0 : Multiset T) = ↑([] : List T) + 0 + ∑ i, ((start n κ T).locals i).pending
    rw [hzero Pc.pending rfl rfl]
    rfl
  · show 0 + ∑ i, ((start n κ T).locals i).alive = n
    rw [Fintype.sum_sum_type]
    show 0 + ((∑ _ : Fin n, 1) + ∑ _ : κ, 0) = n
    simp
  · exact fun h => absurd rfl h
  · exact fun h => absurd h hn.ne
  · intro i hi
    cases i with
    | inl i => cases hi
    | inr k => cases hi

theorem inv_run (hn : 0 < n) {κ : Type} [Fintype κ] [DecidableEq κ] {c : Threads (Fin n ⊕ κ) (Shared T) (Pc T)}
    (hrun : Run (PoolStep n) (start n κ T) c) : Inv n c :=
  hrun.invariant (fun _ i _ _ h hs => h.step hn i hs) (inv_start hn κ)

/-- In every run of a pool, `in_flight_` counts the tasks that are queued or taken and
not finished; no task is run more often than it was submitted; `WaitAll` returns
only where all tasks submitted so far have finished; and where the destructor has
joined the workers, every task has been run exactly as often as it was submitted. -/
theorem threadPool_runs (hn : 0 < n) {κ : Type} [Fintype κ] [DecidableEq κ]
    {c : Threads (Fin n ⊕ κ) (Shared T) (Pc T)} (hrun : Run (PoolStep n) (start n κ T) c) :
    c.shared.inFlight = (c.shared.tasks.length + ∑ i, (c.locals i).taken : Nat) ∧
    c.shared.ran ≤ c.shared.submitted ∧
    (∀ i c', Step (PoolStep n) c c' → c.locals i = .waitAll → c'.locals i = .caller →
      c'.shared.ran = c'.shared.submitted ∧ ∀ j, (c'.locals j).taken = 0) ∧
    ((∃ i, c.locals i = .joined) → c.shared.ran = c.shared.submitted) := by
  have h := inv_run hn hrun
  refine ⟨h.inFlight_eq, ?_, ?_, ?_⟩
  · rw [h.submitted_eq, add_comm (↑c.shared.tasks : Multiset T), add_assoc]
    exact Multiset.le_add_right _ _
  · intro i c' hstep hi hi'
    obtain @⟨k, s', l', hk⟩ := hstep
    have hinv := h.step hn k hk
    change Function.update c.locals k l' i = .caller at hi'
    by_cases hik : i = k
    · rw [hik, Function.update_self] at hi'
      rw [← hik, hi, hi'] at hk
      exact hinv.ran_of_inFlight hk.inFlight_of_returns
    · rw [Function.update_of_ne hik, hi] at hi'
      cases hi'
  · rintro ⟨i, hi⟩
    exact h.ran_of_exited (h.exited_of_joined i hi)

theorem threadPool_runs_threeTasks :
    ∃ c : Threads (Fin 2 ⊕ Fin 1) (Shared Nat) (Pc Nat), Run (PoolStep 2) (start 2 (Fin 1) Nat) c ∧
      c.shared.submitted = {7, 7, 9} ∧ c.shared.ran = c.shared.submitted := by
  have hsubmit₁ : Run (PoolStep 2) (start 2 (Fin 1) Nat) _ :=
    .single (.of_local (i := Sum.inr 0) rfl (.submit 7 rfl))
  have hsubmit₂ := hsubmit₁.tail (.of_local (i := Sum.inr 0) rfl (.submit 9 rfl))
  have htaken := (hsubmit₂.tail (.of_local (i := Sum.inl 0) rfl (.take rfl))).tail
    (.of_local (i := Sum.inl 1) rfl (.take rfl))
  have hsubmit₃ := htaken.tail (.of_local (i := Sum.inr 0) rfl (.submit 7 rfl))
  have hdestroy := hsubmit₃.tail (.of_local (i := Sum.inr 0) rfl .destroy)
  -- the second worker finishes first and takes the last task
  have hsecond := (hdestroy.tail (.of_local (i := Sum.inl 1) rfl .run)).tail (.of_local (i := Sum.inl 1) rfl .finish)
  have hthird := ((hsecond.tail (.of_local (i := Sum.inl 1) rfl (.take rfl))).tail
    (.of_local (i := Sum.inl 1) rfl .run)).tail (.of_local (i := Sum.inl 1) rfl .finish)
  have hfirst := (hthird.tail (.of_local (i := Sum.inl 0) rfl .run)).tail (.of_local (i := Sum.inl 0) rfl .finish)
  have hexited := (hfirst.tail (.of_local (i := Sum.inl 0) rfl (.exit rfl rfl))).tail
    (.of_local (i := Sum.inl 1) rfl (.exit rfl rfl))
  have hjoin := hexited.tail (.of_local (i := Sum.inr 0) rfl (.join rfl))
  exact ⟨_, hjoin, by decide, (threadPool_runs Nat.two_pos hjoin).2.2.2 ⟨.inr 0, rfl⟩⟩

end MyDB.Executor.ThreadPool

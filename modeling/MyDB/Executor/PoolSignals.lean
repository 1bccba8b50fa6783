import MyDB.Executor.ThreadPool

/-! The condition variables of `ThreadPool`. Here a wait ends only after a notification that
was made while the thread waited, and `notify_one` is a step of its own, after the lock
has been given up. A task submits the tasks `spawns` while it runs. -/

namespace MyDB.Executor.ThreadPool
open MyDB.Lib Threads

variable {T κ : Type} {n : Nat}

/-- Where a worker is; `signalling` is `Submit`, called by the task, before `notify_one`. -/
inductive WorkerPc (T : Type) where
  | idle
  | waiting
  | notified
  | running (t : T) (rest : List T)
  | signalling (t : T) (rest : List T)
  | finishing (t : T)
  | returned

inductive Op (T : Type) where
  | submit (t : T)
  | waitAll

/-- Where a thread that uses the pool is, with the calls it has yet to make. -/
inductive ClientPc (T : Type) where
  | ready (ops : List (Op T))
  | signalling (ops : List (Op T))
  | checking (ops : List (Op T))
  | blocked (ops : List (Op T))
  | unblocked (ops : List (Op T))

/-- The thread that destroys the pool, when the others have made their calls. -/
inductive OwnerPc where
  | owning
  | stopping
  | joining
  | joined

structure PoolState (n : Nat) (κ T : Type) where
  tasks : List T
  stop : Bool
  inFlight : Int
  workers : Fin n → WorkerPc T
  clients : κ → ClientPc T
  owner : OwnerPc
  submitted : Multiset T
  ran : Multiset T

def PoolState.init (n : Nat) (programs : κ → List (Op T)) : PoolState n κ T where
  tasks := []
  stop := false
  inFlight := 0
  workers := fun _ => .idle
  clients := fun k => .ready (programs k)
  owner := .owning
  submitted := 0
  ran := 0

/-- `task_cv_.notify_one()` wakes some worker that waits, if there is one. -/
inductive NotifyOne (workers : Fin n → WorkerPc T) : (Fin n → WorkerPc T) → Prop
  | wake (j : Fin n) (h : workers j = .waiting) : NotifyOne workers (Function.update workers j .notified)
  | nobody (h : ∀ j, workers j ≠ .waiting) : NotifyOne workers workers

/-- `task_cv_.notify_all()`. -/
def WorkerPc.notify : WorkerPc T → WorkerPc T
  | .waiting => .notified
  | w => w

/-- `done_cv_.notify_all()`. -/
def ClientPc.notify : ClientPc T → ClientPc T
  | .blocked ops => .unblocked ops
  | c => c

def PoolState.push (s : PoolState n κ T) (t : T) : PoolState n κ T :=
  { s with inFlight := s.inFlight + 1, tasks := s.tasks ++ [t], submitted := t ::ₘ s.submitted }

def PoolState.setWorker (s : PoolState n κ T) (i : Fin n) (w : WorkerPc T) : PoolState n κ T :=
  { s with workers := Function.update s.workers i w }

def PoolState.setClient [DecidableEq κ] (s : PoolState n κ T) (k : κ) (c : ClientPc T) : PoolState n κ T :=
  { s with clients := Function.update s.clients k c }

@[simp]
theorem PoolState.setWorker_self (s : PoolState n κ T) (i : Fin n) (w : WorkerPc T) :
    (s.setWorker i w).workers i = w := Function.update_self ..

theorem PoolState.setWorker_of_ne (s : PoolState n κ T) {i j : Fin n} (h : j ≠ i) (w : WorkerPc T) :
    (s.setWorker i w).workers j = s.workers j := Function.update_of_ne h ..

@[simp]
theorem PoolState.setClient_self [DecidableEq κ] (s : PoolState n κ T) (k : κ) (c : ClientPc T) :
    (s.setClient k c).clients k = c := Function.update_self ..

theorem PoolState.setClient_of_ne [DecidableEq κ] (s : PoolState n κ T) {k j : κ} (h : j ≠ k) (c : ClientPc T) :
    (s.setClient k c).clients j = s.clients j := Function.update_of_ne h ..

def PoolState.finish (s : PoolState n κ T) : PoolState n κ T :=
  { s with
    inFlight := s.inFlight - 1
    clients := if s.inFlight - 1 = 0 then fun k => (s.clients k).notify else s.clients }

theorem PoolState.finish_clients (s : PoolState n κ T) (k : κ) :
    s.finish.clients k = if s.inFlight - 1 = 0 then (s.clients k).notify else s.clients k := by
  rw [finish]
  split_ifs <;> rfl

inductive SignalStep [DecidableEq κ] (spawns : T → List T) (s : PoolState n κ T) : PoolState n κ T → Prop
  | take (i : Fin n) {t : T} {rest : List T} (hi : s.workers i = .idle) (h : s.tasks = t :: rest) :
      SignalStep spawns s ({ s with tasks := rest }.setWorker i (.running t (spawns t)))
  | wait (i : Fin n) (hi : s.workers i = .idle) (hstop : s.stop = false) (h : s.tasks = []) :
      SignalStep spawns s (s.setWorker i .waiting)
  | exit (i : Fin n) (hi : s.workers i = .idle) (hstop : s.stop = true) (h : s.tasks = []) :
      SignalStep spawns s (s.setWorker i .returned)
  | wake (i : Fin n) (hi : s.workers i = .notified) : SignalStep spawns s (s.setWorker i .idle)
  | submitFromTask (i : Fin n) {t u : T} {rest : List T} (hi : s.workers i = .running t (u :: rest)) :
      SignalStep spawns s ((s.push u).setWorker i (.signalling t rest))
  | signalFromTask (i : Fin n) {t : T} {rest : List T} {workers : Fin n → WorkerPc T}
      (hi : s.workers i = .signalling t rest) (h : NotifyOne s.workers workers) :
      SignalStep spawns s ({ s with workers := workers }.setWorker i (.running t rest))
  | ran (i : Fin n) {t : T} (hi : s.workers i = .running t []) :
      SignalStep spawns s ({ s with ran := t ::ₘ s.ran }.setWorker i (.finishing t))
  | finish (i : Fin n) {t : T} (hi : s.workers i = .finishing t) :
      SignalStep spawns s (s.finish.setWorker i .idle)
  | submit (k : κ) {t : T} {ops : List (Op T)} (hk : s.clients k = .ready (.submit t :: ops)) :
      SignalStep spawns s ((s.push t).setClient k (.signalling ops))
  | signal (k : κ) {ops : List (Op T)} {workers : Fin n → WorkerPc T} (hk : s.clients k = .signalling ops)
      (h : NotifyOne s.workers workers) :
      SignalStep spawns s ({ s with workers := workers }.setClient k (.ready ops))
  | waitAll (k : κ) {ops : List (Op T)} (hk : s.clients k = .ready (.waitAll :: ops)) :
      SignalStep spawns s (s.setClient k (.checking ops))
  | waitAllReturns (k : κ) {ops : List (Op T)} (hk : s.clients k = .checking ops) (h : s.inFlight = 0) :
      SignalStep spawns s (s.setClient k (.ready ops))
  | block (k : κ) {ops : List (Op T)} (hk : s.clients k = .checking ops) (h : s.inFlight ≠ 0) :
      SignalStep spawns s (s.setClient k (.blocked ops))
  | unblock (k : κ) {ops : List (Op T)} (hk : s.clients k = .unblocked ops) :
      SignalStep spawns s (s.setClient k (.checking ops))
  -- the pool is destroyed when no other thread has a call under way or to come
  | destroy (ho : s.owner = .owning) (h : ∀ k, s.clients k = .ready []) :
      SignalStep spawns s { s with stop := true, owner := .stopping }
  | notifyAll (ho : s.owner = .stopping) :
      SignalStep spawns s { s with workers := fun i => (s.workers i).notify, owner := .joining }
  | join (ho : s.owner = .joining) (h : ∀ i, s.workers i = .returned) :
      SignalStep spawns s { s with owner := .joined }

/-- The pool has been destroyed and every task been run. -/
structure Complete (s : PoolState n κ T) : Prop where
  owner : s.owner = .joined
  workers : ∀ i, s.workers i = .returned
  clients : ∀ k, s.clients k = .ready []
  ran : s.ran = s.submitted

/-! ## The pool without its notifications

A thread that waits and one that has been notified are the same there. -/

def WorkerPc.view : WorkerPc T → Pc T
  | .idle => .idle
  | .waiting | .notified => .waiting
  | .running t _ | .signalling t _ => .running t
  | .finishing t => .finishing t
  | .returned => .returned

def ClientPc.view : ClientPc T → Pc T
  | .ready _ | .signalling _ => .caller
  | .checking _ => .waitAll
  | .blocked _ | .unblocked _ => .blocked

def OwnerPc.view : OwnerPc → Pc T
  | .owning => .caller
  | .stopping | .joining => .joining
  | .joined => .joined

def WorkerPc.exited : WorkerPc T → Nat
  | .returned => 1
  | _ => 0

namespace PoolState

def exited (s : PoolState n κ T) : Nat := ∑ i, (s.workers i).exited

def views (s : PoolState n κ T) : Fin n ⊕ (κ ⊕ Unit) → Pc T :=
  Sum.elim (fun i => (s.workers i).view) (Sum.elim (fun k => (s.clients k).view) fun _ => s.owner.view)

def view (s : PoolState n κ T) : Threads (Fin n ⊕ (κ ⊕ Unit)) (Shared T) (Pc T) where
  shared := ⟨s.tasks, s.stop, s.inFlight, s.exited, s.submitted, s.ran⟩
  locals := s.views

theorem exited_setWorker (s : PoolState n κ T) (i : Fin n) (w : WorkerPc T) :
    (s.setWorker i w).exited + (s.workers i).exited = s.exited + w.exited :=
  sum_locals_update WorkerPc.exited s.workers i w

theorem exited_of_returned {s : PoolState n κ T} (h : ∀ i, s.workers i = .returned) : s.exited = n := by
  simp [exited, h, WorkerPc.exited]

theorem exited_setWorker_eq (s : PoolState n κ T) {i : Fin n} {w : WorkerPc T}
    (h : w.exited = (s.workers i).exited) : (s.setWorker i w).exited = s.exited := by
  have hsum := s.exited_setWorker i w
  omega

variable [DecidableEq κ]

theorem views_setWorker (s : PoolState n κ T) (i : Fin n) (w : WorkerPc T) :
    (s.setWorker i w).views = Function.update s.views (Sum.inl i) w.view := by
  have hworkers : (fun j => ((s.setWorker i w).workers j).view) =
      Function.update (fun j => (s.workers j).view) i w.view := Function.comp_update WorkerPc.view ..
  rw [views, views, hworkers, Sum.update_elim_inl]
  rfl

theorem views_setClient (s : PoolState n κ T) (k : κ) (c : ClientPc T) :
    (s.setClient k c).views = Function.update s.views (Sum.inr (Sum.inl k)) c.view := by
  have hclients : (fun j => ((s.setClient k c).clients j).view) =
      Function.update (fun j => (s.clients j).view) k c.view := Function.comp_update ClientPc.view ..
  rw [views, views, hclients, Sum.update_elim_inr, Sum.update_elim_inl]
  rfl

theorem views_owner (s : PoolState n κ T) (o : OwnerPc) (stop : Bool) :
    ({ s with stop := stop, owner := o } : PoolState n κ T).views =
      Function.update s.views (Sum.inr (Sum.inr ())) o.view := by
  have howner : (fun _ : Unit => (o.view : Pc T)) = Function.update (fun _ => s.owner.view) () o.view := by
    funext u
    exact (Function.update_self (f := fun _ : Unit => (s.owner.view : Pc T)) u o.view).symm
  rw [views, views, Sum.update_elim_inr, Sum.update_elim_inr, ← howner]

end PoolState

theorem NotifyOne.view_eq {workers workers' : Fin n → WorkerPc T} (h : NotifyOne workers workers') (i : Fin n) :
    (workers' i).view = (workers i).view ∧ (workers' i).exited = (workers i).exited := by
  cases h with
  | wake j hj =>
    by_cases hij : i = j
    · subst hij
      rw [Function.update_self, hj]
      exact ⟨rfl, rfl⟩
    · rw [Function.update_of_ne hij]
      exact ⟨rfl, rfl⟩
  | nobody => exact ⟨rfl, rfl⟩

theorem WorkerPc.notify_view (w : WorkerPc T) : w.notify.view = w.view ∧ w.notify.exited = w.exited := by
  cases w <;> exact ⟨rfl, rfl⟩

theorem ClientPc.notify_view (c : ClientPc T) : c.notify.view = c.view := by
  cases c <;> rfl

namespace PoolState

theorem view_congr {s s' : PoolState n κ T} (htasks : s'.tasks = s.tasks) (hstop : s'.stop = s.stop)
    (hinFlight : s'.inFlight = s.inFlight) (hsubmitted : s'.submitted = s.submitted) (hran : s'.ran = s.ran)
    (hworkers : ∀ i, (s'.workers i).view = (s.workers i).view ∧ (s'.workers i).exited = (s.workers i).exited)
    (hclients : ∀ k, (s'.clients k).view = (s.clients k).view)
    (howner : (s'.owner.view : Pc T) = s.owner.view) : s'.view = s.view := by
  have hexited : s'.exited = s.exited := Finset.sum_congr rfl fun i _ => (hworkers i).2
  have hviews : s'.views = s.views := by
    simp [views, hworkers, hclients, howner]
  rw [view, view, htasks, hstop, hinFlight, hsubmitted, hran, hexited, hviews]

theorem shared_setWorker {s : PoolState n κ T} {i : Fin n} {w : WorkerPc T}
    (h : w.exited = (s.workers i).exited) : (s.setWorker i w).view.shared = s.view.shared := by
  have hexited := s.exited_setWorker_eq h
  rw [view, view, hexited]
  rfl

variable [DecidableEq κ]

theorem step_setWorker {s s₁ : PoolState n κ T} {i : Fin n} {w : WorkerPc T} {shared : Shared T}
    (hviews : s₁.views = s.views) (hshared : (s₁.setWorker i w).view.shared = shared)
    (h : PoolStep n s.view.shared (s.workers i).view shared w.view) :
    Step (PoolStep n) s.view (s₁.setWorker i w).view := by
  subst hshared
  have hstep : Step (PoolStep n) s.view
      ⟨(s₁.setWorker i w).view.shared, Function.update s.view.locals (Sum.inl i) w.view⟩ := .run (Sum.inl i) h
  have hlocals : Function.update s.view.locals (Sum.inl i) w.view = (s₁.setWorker i w).views := by
    rw [views_setWorker, hviews]
    rfl
  rwa [hlocals] at hstep

theorem step_setClient {s s₁ : PoolState n κ T} {k : κ} {c : ClientPc T} (hviews : s₁.views = s.views)
    (h : PoolStep n s.view.shared (s.clients k).view (s₁.setClient k c).view.shared c.view) :
    Step (PoolStep n) s.view (s₁.setClient k c).view := by
  have hstep : Step (PoolStep n) s.view
      ⟨(s₁.setClient k c).view.shared, Function.update s.view.locals (Sum.inr (Sum.inl k)) c.view⟩ :=
    .run (Sum.inr (Sum.inl k)) h
  have hlocals : Function.update s.view.locals (Sum.inr (Sum.inl k)) c.view = (s₁.setClient k c).views := by
    rw [views_setClient, hviews]
    rfl
  rwa [hlocals] at hstep

theorem step_owner {s : PoolState n κ T} {o : OwnerPc} {stop : Bool}
    (h : PoolStep n s.view.shared s.owner.view ({ s with stop := stop, owner := o } : PoolState n κ T).view.shared
      o.view) : Step (PoolStep n) s.view ({ s with stop := stop, owner := o } : PoolState n κ T).view := by
  have hstep : Step (PoolStep n) s.view ⟨({ s with stop := stop, owner := o } : PoolState n κ T).view.shared,
      Function.update s.view.locals (Sum.inr (Sum.inr ())) o.view⟩ := .run (Sum.inr (Sum.inr ())) h
  have hlocals : Function.update s.view.locals (Sum.inr (Sum.inr ())) o.view =
      ({ s with stop := stop, owner := o } : PoolState n κ T).views := (s.views_owner o stop).symm
  rwa [hlocals] at hstep

end PoolState

/-- What the calls of the clients and the destructor are ordered by. -/
structure Ordered (s : PoolState n κ T) : Prop where
  stop_iff : s.stop = true ↔ s.owner ≠ .owning
  clients : s.owner ≠ .owning → ∀ k, s.clients k = .ready []

theorem Ordered.stop_eq_false {s : PoolState n κ T} (h : Ordered s) {k : κ} {op : Op T} {ops : List (Op T)}
    (hk : s.clients k = .ready (op :: ops)) : s.stop = false := by
  by_contra hstop
  have hready := h.clients (h.stop_iff.mp (Bool.eq_true_of_not_eq_false hstop)) k
  rw [hk] at hready
  cases hready

variable {spawns : T → List T} {s s' : PoolState n κ T}

/-! ## Steps of one thread -/

namespace PoolState
variable {s₁ : PoolState n κ T} {i : Fin n} {k : κ}

theorem views_finish (s : PoolState n κ T) : s.finish.views = s.views := by
  have hclients : ∀ k, (s.finish.clients k).view = (s.clients k).view := by
    intro k
    rw [finish_clients]
    split_ifs
    · exact ClientPc.notify_view _
    · rfl
  rw [views, views, funext hclients]
  rfl

theorem view_signalFromTask {t : T} {rest : List T} {workers : Fin n → WorkerPc T} (hi : s.workers i = .signalling t rest)
    (h : NotifyOne s.workers workers) :
    ({ s with workers := workers }.setWorker i (.running t rest)).view = s.view := by
  refine view_congr rfl rfl rfl rfl rfl (fun j => ?_) (fun _ => rfl) rfl
  by_cases hji : j = i
  · subst hji
    rw [setWorker_self, hi]
    exact ⟨rfl, rfl⟩
  · rw [setWorker_of_ne _ hji]
    exact h.view_eq j

variable [DecidableEq κ]

theorem step_worker {w₀ w : WorkerPc T} (hi : s.workers i = w₀) (hworkers : s₁.workers = s.workers)
    (hviews : s₁.views = s.views) (hexited : w.exited = w₀.exited)
    (h : PoolStep n s.view.shared w₀.view s₁.view.shared w.view) : Step (PoolStep n) s.view (s₁.setWorker i w).view := by
  subst hi
  rw [← hworkers] at hexited
  exact step_setWorker hviews (shared_setWorker hexited) h

theorem step_client {c₀ c : ClientPc T} (hk : s.clients k = c₀) (hviews : s₁.views = s.views)
    (h : PoolStep n s.view.shared c₀.view (s₁.setClient k c).view.shared c.view) :
    Step (PoolStep n) s.view (s₁.setClient k c).view := by
  subst hk
  exact step_setClient hviews h

theorem step_exit (hi : s.workers i = .idle) (hstop : s.stop = true) (h : s.tasks = []) :
    Step (PoolStep n) s.view (s.setWorker i .returned).view := by
  have hexited : (s.setWorker i .returned).exited = s.exited + 1 := by
    have hsum := s.exited_setWorker i .returned
    rwa [hi] at hsum
  have hshared : (s.setWorker i .returned).view.shared = { s.view.shared with exited := s.exited + 1 } := by
    rw [view, hexited]
    rfl
  refine step_setWorker rfl hshared ?_
  rw [hi]
  exact .exit hstop h

theorem view_signal {ops : List (Op T)} {workers : Fin n → WorkerPc T} (hk : s.clients k = .signalling ops)
    (h : NotifyOne s.workers workers) : ({ s with workers := workers }.setClient k (.ready ops)).view = s.view := by
  refine view_congr rfl rfl rfl rfl rfl h.view_eq (fun j => ?_) rfl
  by_cases hjk : j = k
  · subst hjk
    rw [setClient_self, hk]
    rfl
  · rw [setClient_of_ne _ hjk]

theorem step_destroy (ho : s.owner = .owning) :
    Step (PoolStep n) s.view ({ s with stop := true, owner := .stopping } : PoolState n κ T).view := by
  refine step_owner ?_
  rw [ho]
  exact .destroy

theorem step_join (ho : s.owner = .joining) (h : ∀ i, s.workers i = .returned) :
    Step (PoolStep n) s.view ({ s with owner := .joined } : PoolState n κ T).view := by
  have hstep : PoolStep n s.view.shared s.owner.view
      ({ s with stop := s.stop, owner := .joined } : PoolState n κ T).view.shared OwnerPc.joined.view := by
    rw [ho]
    exact .join (exited_of_returned h)
  exact step_owner hstep

end PoolState

/-- A step is one of the pool without notifications, or only passes one on. -/
theorem SignalStep.view [DecidableEq κ] (h : SignalStep spawns s s') (ho : Ordered s) :
    s'.view = s.view ∨ Step (PoolStep n) s.view s'.view := by
  cases h with
  | take i hi h => exact .inr (PoolState.step_worker hi rfl rfl rfl (.take h))
  | wait i hi hstop h => exact .inr (PoolState.step_worker hi rfl rfl rfl (.wait hstop h))
  | exit i hi hstop h => exact .inr (PoolState.step_exit hi hstop h)
  | wake i hi => exact .inr (PoolState.step_worker hi rfl rfl rfl .wake)
  | submitFromTask i hi => exact .inr (PoolState.step_worker hi rfl rfl rfl (.submitFromTask _))
  | signalFromTask i hi h => exact .inl (PoolState.view_signalFromTask hi h)
  | ran i hi => exact .inr (PoolState.step_worker hi rfl rfl rfl .run)
  | finish i hi => exact .inr (PoolState.step_worker hi rfl s.views_finish rfl .finish)
  | submit k hk => exact .inr (PoolState.step_client hk rfl (.submit _ (ho.stop_eq_false hk)))
  | signal k hk h => exact .inl (PoolState.view_signal hk h)
  | waitAll k hk => exact .inr (PoolState.step_client hk rfl .callWaitAll)
  | waitAllReturns k hk h => exact .inr (PoolState.step_client hk rfl (.waitAllReturns h))
  | block k hk h => exact .inr (PoolState.step_client hk rfl (.block h))
  | unblock k hk => exact .inr (PoolState.step_client hk rfl .unblock)
  | destroy hu h => exact .inr (PoolState.step_destroy hu)
  | notifyAll hs =>
    refine .inl (PoolState.view_congr rfl rfl rfl rfl rfl (fun i => (s.workers i).notify_view) (fun _ => rfl) ?_)
    rw [hs]
    rfl
  | join hj h => exact .inr (PoolState.step_join hj h)

theorem view_init (programs : κ → List (Op T)) : (PoolState.init n programs).view = start n (κ ⊕ Unit) T := by
  have hexited : (PoolState.init n programs).exited = 0 := by simp [PoolState.exited, PoolState.init, WorkerPc.exited]
  have hviews : (PoolState.init n programs).views = (start n (κ ⊕ Unit) T).locals := by
    funext i
    rcases i with i | k | u <;> rfl
  rw [PoolState.view, hexited, hviews]
  rfl

/-! ## No notification is lost -/

def WorkerPc.Awake : WorkerPc T → Prop
  | .waiting | .returned => False
  | _ => True

structure Signalled (s : PoolState n κ T) : Prop where
  tasks : s.tasks ≠ [] → (∃ i, (s.workers i).Awake) ∨ ∃ k ops, s.clients k = .signalling ops
  blocked : ∀ k ops, s.clients k = .blocked ops → s.inFlight ≠ 0
  stopped : s.owner = .joining ∨ s.owner = .joined → ∀ i, s.workers i ≠ .waiting

theorem ordered_init (programs : κ → List (Op T)) : Ordered (PoolState.init n programs) :=
  ⟨iff_of_false Bool.false_ne_true (fun h => h rfl), fun h => absurd rfl h⟩

theorem signalled_init (programs : κ → List (Op T)) : Signalled (PoolState.init n programs) where
  tasks := fun h => absurd rfl h
  blocked := fun _ _ h => by cases h
  stopped := fun h => by simp [PoolState.init] at h

theorem Ordered.of_client (h : Ordered s) {k : κ} (hk : s.clients k ≠ .ready []) {s₁ : PoolState n κ T}
    (hstop : s₁.stop = s.stop) (howner : s₁.owner = s.owner) : Ordered s₁ := by
  refine ⟨?_, fun ho => ?_⟩
  · rw [hstop, howner]
    exact h.stop_iff
  · rw [howner] at ho
    exact absurd (h.clients ho k) hk

theorem SignalStep.ordered [DecidableEq κ] (h : SignalStep spawns s s') (ho : Ordered s) : Ordered s' := by
  cases h with
  | finish i hi =>
    refine ⟨ho.stop_iff, fun hu k => ?_⟩
    have hk := ho.clients hu k
    change s.finish.clients k = _
    rw [PoolState.finish_clients, hk]
    split_ifs <;> rfl
  | submit k hk => exact ho.of_client (k := k) (by rw [hk]; simp) rfl rfl
  | signal k hk h => exact ho.of_client (k := k) (by rw [hk]; simp) rfl rfl
  | waitAll k hk => exact ho.of_client (k := k) (by rw [hk]; simp) rfl rfl
  | waitAllReturns k hk h => exact ho.of_client (k := k) (by rw [hk]; simp) rfl rfl
  | block k hk h => exact ho.of_client (k := k) (by rw [hk]; simp) rfl rfl
  | unblock k hk => exact ho.of_client (k := k) (by rw [hk]; simp) rfl rfl
  | destroy hu h => exact ⟨iff_of_true rfl (by simp), fun _ => h⟩
  | notifyAll hs =>
    have hne : s.owner ≠ .owning := by rw [hs]; simp
    exact ⟨iff_of_true (ho.stop_iff.mpr hne) (by simp), fun _ => ho.clients hne⟩
  | join hj h =>
    have hne : s.owner ≠ .owning := by rw [hj]; simp
    exact ⟨iff_of_true (ho.stop_iff.mpr hne) (by simp), fun _ => ho.clients hne⟩
  | _ => exact ⟨ho.stop_iff, ho.clients⟩

/-! Each part of `Signalled` is kept. -/

theorem WorkerPc.Awake.notify {w : WorkerPc T} (h : w.Awake) : w.notify.Awake := by
  cases w with
  | waiting => exact absurd h id
  | _ => exact h

theorem Inv.exists_worker {s : PoolState n κ T} [Fintype κ] (h : Inv n s.view) (htasks : s.tasks ≠ []) :
    ∃ i, s.workers i ≠ .returned := by
  by_contra hall
  rw [not_exists] at hall
  exact htasks (h.tasks_of_exited (PoolState.exited_of_returned fun i => not_not.mp (hall i)))

theorem NotifyOne.awake {workers : Fin n → WorkerPc T} (h : NotifyOne s.workers workers) [Fintype κ]
    (hinv : Inv n s.view) (htasks : s.tasks ≠ []) : ∃ i, (workers i).Awake := by
  cases h with
  | wake j hj =>
    refine ⟨j, ?_⟩
    rw [Function.update_self]
    exact trivial
  | nobody hnobody =>
    obtain ⟨i, hi⟩ := hinv.exists_worker htasks
    refine ⟨i, ?_⟩
    have hwaiting := hnobody i
    generalize s.workers i = w at hi hwaiting
    cases w with
    | waiting => exact absurd rfl hwaiting
    | returned => exact absurd rfl hi
    | _ => exact trivial

theorem SignalStep.tasks [DecidableEq κ] [Fintype κ] (h : SignalStep spawns s s') (hinv : Inv n s.view) (hs : Signalled s)
    (htasks : s'.tasks ≠ []) : (∃ i, (s'.workers i).Awake) ∨ ∃ k ops, s'.clients k = .signalling ops := by
  -- a worker that has taken a step is awake, unless it found the queue empty
  have hworker {s₁ : PoolState n κ T} {i : Fin n} {w : WorkerPc T} (hw : w.Awake) :
      (∃ j, ((s₁.setWorker i w).workers j).Awake) ∨ ∃ k ops, (s₁.setWorker i w).clients k = .signalling ops := by
    refine .inl ⟨i, ?_⟩
    rw [PoolState.setWorker_self]
    exact hw
  have hclient {k : κ} {c : ClientPc T} (hk : ∀ ops, s.clients k ≠ .signalling ops) (htasks : s.tasks ≠ []) :
      (∃ j, ((s.setClient k c).workers j).Awake) ∨ ∃ j ops, (s.setClient k c).clients j = .signalling ops := by
    refine (hs.tasks htasks).imp_right ?_
    rintro ⟨j, ops, hj⟩
    refine ⟨j, ops, ?_⟩
    rwa [PoolState.setClient_of_ne]
    rintro rfl
    exact hk ops hj
  cases h with
  | wait i hi hstop h => exact absurd h htasks
  | exit i hi hstop h => exact absurd h htasks
  | submit k hk => exact .inr ⟨k, _, PoolState.setClient_self ..⟩
  | signal k hk h => exact .inl (h.awake hinv htasks)
  | waitAll k hk => exact hclient (fun ops => by rw [hk]; simp) htasks
  | waitAllReturns k hk h => exact hclient (fun ops => by rw [hk]; simp) htasks
  | block k hk h => exact hclient (fun ops => by rw [hk]; simp) htasks
  | unblock k hk => exact hclient (fun ops => by rw [hk]; simp) htasks
  | destroy hu h => exact hs.tasks htasks
  | notifyAll ho => exact (hs.tasks htasks).imp_left (Exists.imp fun i hi => hi.notify)
  | join hj h => exact hs.tasks htasks
  | _ => exact hworker trivial

theorem SignalStep.blocked [DecidableEq κ] [Fintype κ] (h : SignalStep spawns s s') (hinv : Inv n s.view)
    (hs : Signalled s) (k : κ) (ops : List (Op T)) (hk' : s'.clients k = .blocked ops) : s'.inFlight ≠ 0 := by
  have hnonneg : 0 ≤ s.inFlight := by
    have heq : s.inFlight = (s.tasks.length + ∑ i, (s.views i).taken : Nat) := hinv.inFlight_eq
    omega
  have hpush : s.inFlight + 1 ≠ 0 := by omega
  have hclient {j : κ} {c : ClientPc T} (hc : ∀ ops, c ≠ .blocked ops)
      (h : (s.setClient j c).clients k = .blocked ops) : s.inFlight ≠ 0 := by
    by_cases hkj : k = j
    · rw [hkj, PoolState.setClient_self] at h
      exact absurd h (hc ops)
    · rw [PoolState.setClient_of_ne _ hkj] at h
      exact hs.blocked k ops h
  cases h with
  | submitFromTask i hi => exact hpush
  | submit j hj => exact hpush
  | finish i hi =>
    change s.finish.clients k = _ at hk'
    change s.inFlight - 1 ≠ 0
    rw [PoolState.finish_clients] at hk'
    split_ifs at hk' with hzero
    · -- whoever was blocked has been notified
      generalize s.clients k = c at hk'
      cases c <;> cases hk'
    · exact hzero
  | signal j hj h => exact hclient (fun ops => by simp) hk'
  | waitAll j hj => exact hclient (fun ops => by simp) hk'
  | waitAllReturns j hj h => exact hclient (fun ops => by simp) hk'
  | block j hj h => exact h
  | unblock j hj => exact hclient (fun ops => by simp) hk'
  | _ => exact hs.blocked k ops hk'

theorem NotifyOne.not_waiting {workers workers' : Fin n → WorkerPc T} (h : NotifyOne workers workers')
    (hw : ∀ i, workers i ≠ .waiting) (i : Fin n) : workers' i ≠ .waiting := by
  cases h with
  | wake j hj => exact absurd hj (hw j)
  | nobody => exact hw i

theorem SignalStep.stopped [DecidableEq κ] (h : SignalStep spawns s s') (ho : Ordered s) (hs : Signalled s)
    (hstopped : s'.owner = .joining ∨ s'.owner = .joined) (i : Fin n) : s'.workers i ≠ .waiting := by
  have hworker {s₁ : PoolState n κ T} {j : Fin n} {w : WorkerPc T} (hw : w ≠ .waiting)
      (hs₁ : ∀ i, s₁.workers i ≠ .waiting) : (s₁.setWorker j w).workers i ≠ .waiting := by
    by_cases hij : i = j
    · rw [hij, PoolState.setWorker_self]
      exact hw
    · rw [PoolState.setWorker_of_ne _ hij]
      exact hs₁ i
  cases h with
  | take j hj h => exact hworker (by simp) (hs.stopped hstopped)
  | wait j hj hstop h =>
    have hstop' := ho.stop_iff.mpr (by rcases hstopped with h | h <;> (change s.owner = _ at h; rw [h]; simp))
    rw [hstop] at hstop'
    cases hstop'
  | exit j hj hstop h => exact hworker (by simp) (hs.stopped hstopped)
  | wake j hj => exact hworker (by simp) (hs.stopped hstopped)
  | submitFromTask j hj => exact hworker (by simp) (hs.stopped hstopped)
  | signalFromTask j hj h => exact hworker (by simp) (h.not_waiting (hs.stopped hstopped))
  | ran j hj => exact hworker (by simp) (hs.stopped hstopped)
  | finish j hj => exact hworker (by simp) (hs.stopped hstopped)
  | signal k hk h => exact h.not_waiting (hs.stopped hstopped) i
  | destroy hu h => rcases hstopped with h | h <;> cases h
  | notifyAll ho =>
    change (s.workers i).notify ≠ .waiting
    cases s.workers i <;> simp [WorkerPc.notify]
  | join hj h => exact hs.stopped (.inl hj) i
  | _ => exact hs.stopped hstopped i

variable [DecidableEq κ] [Fintype κ]

structure SignalInv (s : PoolState n κ T) : Prop where
  ordered : Ordered s
  inv : Inv n s.view
  signalled : Signalled s

theorem SignalInv.step (hn : 0 < n) (h : SignalInv s) (hs : SignalStep spawns s s') : SignalInv s' where
  ordered := hs.ordered h.ordered
  inv := by
    rcases hs.view h.ordered with heq | hstep
    · rw [heq]
      exact h.inv
    · generalize s'.view = c at hstep
      obtain ⟨i, hi⟩ := hstep
      exact h.inv.step hn i hi
  signalled := ⟨hs.tasks h.inv h.signalled, hs.blocked h.inv h.signalled, hs.stopped h.ordered h.signalled⟩

theorem signalInv_run (hn : 0 < n) (programs : κ → List (Op T))
    (hrun : Relation.ReflTransGen (SignalStep spawns) (PoolState.init n programs) s) : SignalInv s := by
  induction hrun with
  | refl =>
    refine ⟨ordered_init programs, ?_, signalled_init programs⟩
    rw [view_init]
    exact inv_start hn _
  | tail _ hs ih => exact ih.step hn hs

/-! ## A pool that can do nothing more is done -/

omit [DecidableEq κ] [Fintype κ] in
theorem exists_notifyOne (workers : Fin n → WorkerPc T) : ∃ workers', NotifyOne workers workers' := by
  by_cases h : ∃ j, workers j = .waiting
  · obtain ⟨j, hj⟩ := h
    exact ⟨_, .wake j hj⟩
  · exact ⟨workers, .nobody (not_exists.mp h)⟩

omit [Fintype κ] in
theorem step_of_awake (i : Fin n) (hi : (s.workers i).Awake) : ∃ s', SignalStep spawns s s' := by
  generalize hw : s.workers i = w at hi
  cases w with
  | idle =>
    cases htasks : s.tasks with
    | cons t rest => exact ⟨_, .take i hw htasks⟩
    | nil =>
      cases hstop : s.stop with
      | false => exact ⟨_, .wait i hw hstop htasks⟩
      | true => exact ⟨_, .exit i hw hstop htasks⟩
  | waiting => exact absurd hi id
  | notified => exact ⟨_, .wake i hw⟩
  | running t rest =>
    cases rest with
    | nil => exact ⟨_, .ran i hw⟩
    | cons u rest => exact ⟨_, .submitFromTask i hw⟩
  | signalling t rest =>
    obtain ⟨workers, hworkers⟩ := exists_notifyOne s.workers
    exact ⟨_, .signalFromTask i hw hworkers⟩
  | finishing t => exact ⟨_, .finish i hw⟩
  | returned => exact absurd hi id

omit [Fintype κ] in
theorem client_cases (k : κ) :
    (∃ s', SignalStep spawns s s') ∨ s.clients k = .ready [] ∨ ∃ ops, s.clients k = .blocked ops := by
  generalize hc : s.clients k = c
  cases c with
  | ready ops =>
    cases ops with
    | nil => exact .inr (.inl rfl)
    | cons op ops =>
      cases op with
      | submit t => exact .inl ⟨_, .submit k hc⟩
      | waitAll => exact .inl ⟨_, .waitAll k hc⟩
  | signalling ops =>
    obtain ⟨workers, hworkers⟩ := exists_notifyOne s.workers
    exact .inl ⟨_, .signal k hc hworkers⟩
  | checking ops =>
    by_cases hzero : s.inFlight = 0
    · exact .inl ⟨_, .waitAllReturns k hc hzero⟩
    · exact .inl ⟨_, .block k hc hzero⟩
  | blocked ops => exact .inr (.inr ⟨ops, rfl⟩)
  | unblocked ops => exact .inl ⟨_, .unblock k hc⟩

theorem SignalInv.complete_of_stuck (h : SignalInv s) (hstuck : ¬∃ s', SignalStep spawns s s') : Complete s := by
  have hasleep : ∀ i, ¬(s.workers i).Awake := fun i hi => hstuck (step_of_awake i hi)
  have htaken : ∀ i, (s.views i).taken = 0 := by
    rintro (i | k | u)
    · have hi := hasleep i
      change (s.workers i).view.taken = 0
      generalize s.workers i = w at hi
      cases w with
      | running t rest => exact absurd trivial hi
      | signalling t rest => exact absurd trivial hi
      | finishing t => exact absurd trivial hi
      | _ => rfl
    · change (s.clients k).view.taken = 0
      cases s.clients k <;> rfl
    · change (OwnerPc.view s.owner : Pc T).taken = 0
      cases s.owner <;> rfl
  have htasks : s.tasks = [] := by
    by_contra htasks
    rcases h.signalled.tasks htasks with ⟨i, hi⟩ | ⟨k, ops, hk⟩
    · exact hasleep i hi
    · obtain ⟨workers, hworkers⟩ := exists_notifyOne s.workers
      exact hstuck ⟨_, .signal k hk hworkers⟩
  have hinFlight : s.inFlight = 0 := h.inv.inFlight_zero htasks htaken
  have hclients : ∀ k, s.clients k = .ready [] := by
    intro k
    rcases client_cases k with hstep | hready | ⟨ops, hblocked⟩
    · exact absurd hstep hstuck
    · exact hready
    · exact absurd hinFlight (h.signalled.blocked k ops hblocked)
  have hreturned (hno : ∀ i, s.workers i ≠ .waiting) (i : Fin n) : s.workers i = .returned := by
    have hi := hasleep i
    have hwaiting := hno i
    generalize s.workers i = w at hi hwaiting
    cases w with
    | waiting => exact absurd rfl hwaiting
    | returned => rfl
    | _ => exact absurd trivial hi
  cases howner : s.owner with
  | owning => exact absurd ⟨_, .destroy howner hclients⟩ hstuck
  | stopping => exact absurd ⟨_, .notifyAll howner⟩ hstuck
  | joining => exact absurd ⟨_, .join howner (hreturned (h.signalled.stopped (.inl howner)))⟩ hstuck
  | joined =>
    have hall := hreturned (h.signalled.stopped (.inr howner))
    exact ⟨howner, hall, hclients, h.inv.ran_of_exited (PoolState.exited_of_returned hall)⟩

end MyDB.Executor.ThreadPool

import MyDB.Common.Fault
import MyDB.Executor.ThreadPool

/-! The block of an `Init` that works on a pool: the caller makes the pool, submits the
tasks, calls `WaitAll` and leaves the block, which destroys the pool. The tasks share a
memory and may throw. Nothing in the loop of a worker catches, so that an exception which
leaves a task leaves the function of its thread, and `std::terminate` ends the process. -/

namespace MyDB.Executor.ThreadPool
open MyDB.Lib Threads

variable {T S L R : Type}

structure Body (S L : Type) where
  step : S → L → S → L → Prop
  finished : L → Prop
  /-- What the next step of the task throws. -/
  raises : L → Option Fault
  not_raises : ∀ l, finished l → raises l = none
  not_step : ∀ s l s' l', finished l → ¬ step s l s' l'

def Body.Safe (body : Body S L) (s : S) (l : L) (s' : S) (l' : L) : Prop :=
  body.raises l = none ∧ body.step s l s' l'

structure Process (T S L : Type) where
  pool : Shared T
  /-- The variables that the tasks capture, and where each task is. -/
  memory : Threads T S L
  /-- How the process was ended. -/
  ended : Option Fault

inductive Thread (T : Type) where
  | worker (pc : Pc T)
  | submitting (todo : List T)
  | waitAll
  | blocked
  | leaving
  | joining
  | left

inductive BlockStep [DecidableEq T] (n : Nat) (body : Body S L) :
    Process T S L → Thread T → Process T S L → Thread T → Prop
  -- a worker between its tasks, or where its task returns
  | loop {s pool' pc pc'} (h : PoolStep n s.pool pc pool' pc') (hworker : pc.alive = 1)
      (hrun : ∀ t, pc = .running t → pc' = .finishing t ∧ body.finished (s.memory.locals t)) :
      BlockStep n body s (.worker pc) { s with pool := pool' } (.worker pc')
  | work {s t m' l'} (h : body.Safe s.memory.shared (s.memory.locals t) m' l') :
      BlockStep n body s (.worker (.running t))
        { s with memory := ⟨m', Function.update s.memory.locals t l'⟩ } (.worker (.running t))
  | throw {s t e} (h : body.raises (s.memory.locals t) = some e) :
      BlockStep n body s (.worker (.running t)) { s with ended := some e.inWorker } (.worker (.running t))
  | submit {s t todo} : BlockStep n body s (.submitting (t :: todo)) { s with pool := s.pool.submit t } (.submitting todo)
  | callWaitAll {s} : BlockStep n body s (.submitting []) s .waitAll
  | block {s} (h : s.pool.inFlight ≠ 0) : BlockStep n body s .waitAll s .blocked
  | unblock {s} : BlockStep n body s .blocked s .waitAll
  | waitAllReturns {s} (h : s.pool.inFlight = 0) : BlockStep n body s .waitAll s .leaving
  | destroy {s} : BlockStep n body s .leaving { s with pool := { s.pool with stop := true } } .joining
  | join {s} (h : s.pool.exited = n) : BlockStep n body s .joining s .left

def ProcessStep [DecidableEq T] (n : Nat) (body : Body S L) (s : Process T S L) (l : Thread T) (s' : Process T S L)
    (l' : Thread T) : Prop :=
  s.ended = none ∧ BlockStep n body s l s' l'

/-- The block with its pool of `n` workers just made. -/
def startBlock (n : Nat) (tasks : List T) (memory : Threads T S L) :
    Threads (Fin n ⊕ Unit) (Process T S L) (Thread T) where
  shared := ⟨⟨[], false, 0, 0, 0, 0⟩, memory, none⟩
  locals := Sum.elim (fun _ => .worker .idle) fun _ => .submitting tasks

/-! ## The pool behind the block -/

namespace Thread

def pc : Thread T → Pc T
  | .worker pc => pc
  | .submitting _ | .leaving => .caller
  | .waitAll => .waitAll
  | .blocked => .blocked
  | .joining => .joining
  | .left => .joined

def isWorker : Thread T → Bool
  | .worker _ => true
  | _ => false

def waited : Thread T → Bool
  | .leaving | .joining | .left => true
  | _ => false

def todo : Thread T → List T
  | .submitting todo => todo
  | _ => []

def closing : Thread T → Bool
  | .joining | .left => true
  | _ => false

end Thread

section
variable {ι : Type}

def view (c : Threads ι (Process T S L) (Thread T)) : Threads ι (Shared T) (Pc T) :=
  ⟨c.shared.pool, fun i => (c.locals i).pc⟩

theorem view_update [DecidableEq ι] (s : Process T S L) (ls : ι → Thread T) (i : ι) (l : Thread T) :
    view ⟨s, Function.update ls i l⟩ = ⟨s.pool, Function.update (fun j => (ls j).pc) i l.pc⟩ :=
  congrArg (Threads.mk s.pool) (Function.comp_update Thread.pc ls i l)

end

namespace BlockStep
variable [DecidableEq T] {n : Nat} {body : Body S L} {s s' : Process T S L} {l l' : Thread T}

theorem isWorker_eq (h : BlockStep n body s l s' l') : l'.isWorker = l.isWorker := by
  cases h <;> rfl

theorem pool_cases (h : BlockStep n body s l s' l') (hstop : ∀ todo, l = .submitting todo → s.pool.stop = false) :
    PoolStep n s.pool l.pc s'.pool l'.pc ∨ s'.pool = s.pool ∧ l'.pc = l.pc := by
  cases h with
  | loop h => exact Or.inl h
  | work => exact Or.inr ⟨rfl, rfl⟩
  | throw => exact Or.inr ⟨rfl, rfl⟩
  | @submit t todo => exact Or.inl (.submit t (hstop _ rfl))
  | callWaitAll => exact Or.inl .callWaitAll
  | block h => exact Or.inl (.block h)
  | unblock => exact Or.inl .unblock
  | waitAllReturns h => exact Or.inl (.waitAllReturns h)
  | destroy => exact Or.inl .destroy
  | join h => exact Or.inl (.join h)

theorem stop_eq (h : BlockStep n body s l s' l') (hworker : l.isWorker = true) : s'.pool.stop = s.pool.stop := by
  cases h with
  | loop h halive => cases h <;> first | rfl | cases halive
  | work => rfl
  | throw => rfl
  | _ => cases hworker

theorem closing_of_stop (h : BlockStep n body s l s' l') (hworker : l.isWorker = false)
    (hstop : s.pool.stop = true → l.closing = true) (hstop' : s'.pool.stop = true) : l'.closing = true := by
  cases h with
  | destroy => rfl
  | join => rfl
  | submit => exact absurd (hstop hstop') Bool.false_ne_true
  | callWaitAll => exact absurd (hstop hstop') Bool.false_ne_true
  | block => exact absurd (hstop hstop') Bool.false_ne_true
  | unblock => exact absurd (hstop hstop') Bool.false_ne_true
  | waitAllReturns => exact absurd (hstop hstop') Bool.false_ne_true
  | _ => cases hworker

theorem inFlight_of_worker (h : BlockStep n body s l s' l') (hworker : l.isWorker = true) (htasks : s.pool.tasks = [])
    (htaken : l.pc.taken = 0) : s'.pool.inFlight = s.pool.inFlight := by
  cases h with
  | loop h halive =>
    cases h with
    | take h =>
      cases htasks.symm.trans h
    | finish => cases htaken
    | submitFromTask => cases htaken
    | wait => rfl
    | wake => rfl
    | exit => rfl
    | run => rfl
    | _ => cases halive
  | work => rfl
  | throw => rfl
  | _ => cases hworker

theorem waited_inFlight (h : BlockStep n body s l s' l') (hworker : l.isWorker = false)
    (hzero : l.waited = true → s.pool.inFlight = 0) (hwaited : l'.waited = true) : s'.pool.inFlight = 0 := by
  cases h with
  | waitAllReturns h => exact h
  | destroy => exact hzero rfl
  | join => exact hzero rfl
  | loop => cases hworker
  | work => cases hworker
  | throw => cases hworker
  | _ => cases hwaited

theorem submitted_eq (h : BlockStep n body s l s' l') :
    s'.pool.submitted + (↑l'.todo : Multiset T) = s.pool.submitted + (↑l.todo : Multiset T) := by
  cases h with
  | @loop pool' pc pc' h halive hrun =>
    have hsame : pool'.submitted = s.pool.submitted := by
      cases h with
      | submitFromTask => cases (hrun _ rfl).1
      | submit => cases halive
      | _ => rfl
    rw [hsame]
    rfl
  | @submit t todo =>
    show (t ::ₘ s.pool.submitted) + (↑todo : Multiset T) = s.pool.submitted + (↑(t :: todo) : Multiset T)
    rw [← Multiset.cons_coe, Multiset.cons_add, Multiset.add_cons]
  | _ => rfl

theorem ran_finished (h : BlockStep n body s l s' l') (hran : ∀ t ∈ s.pool.ran, body.finished (s.memory.locals t)) :
    ∀ t ∈ s'.pool.ran, body.finished (s'.memory.locals t) := by
  cases h with
  | loop h halive hrun =>
    cases h with
    | run =>
      intro t ht
      obtain rfl | ht := Multiset.mem_cons.mp ht
      · exact (hrun t rfl).2
      · exact hran t ht
    | _ => exact hran
  | @work t' m' l' h =>
    intro t ht
    have hfinished := hran t ht
    by_cases htt : t = t'
    · subst htt
      exact absurd h.2 (body.not_step _ _ _ _ hfinished)
    · show body.finished (Function.update s.memory.locals t' l' t)
      rwa [Function.update_of_ne htt]
  | _ => exact hran

end BlockStep

def Seated {n : Nat} (c : Threads (Fin n ⊕ Unit) (Process T S L) (Thread T)) : Prop :=
  ∀ i, (c.locals i).isWorker = i.isLeft

theorem seated_start (n : Nat) (tasks : List T) (memory : Threads T S L) : Seated (startBlock n tasks memory) := by
  intro i
  cases i <;> rfl

structure BlockInv {n : Nat} (c : Threads (Fin n ⊕ Unit) (Process T S L) (Thread T)) : Prop where
  pool : Inv n (view c)
  seated : Seated c
  stop : c.shared.pool.stop = true → (c.locals (.inr ())).closing = true
  waited : (c.locals (.inr ())).waited = true → c.shared.pool.inFlight = 0

theorem blockInv_start {n : Nat} (hn : 0 < n) (tasks : List T) (memory : Threads T S L) :
    BlockInv (startBlock n tasks memory) := by
  refine ⟨?_, seated_start n tasks memory, fun h => ?_, fun h => ?_⟩
  · have hview : view (startBlock n tasks memory) = start n Unit T := by
      refine congrArg (Threads.mk _) (funext fun i => ?_)
      cases i <;> rfl
    rw [hview]
    exact inv_start hn Unit
  · cases h
  · cases h

variable [DecidableEq T] {n : Nat} {body : Body S L} {tasks : List T} {memory : Threads T S L}
  {c c' : Threads (Fin n ⊕ Unit) (Process T S L) (Thread T)}

theorem Seated.step (hc : Seated c) (i : Fin n ⊕ Unit) {s' : Process T S L} {l' : Thread T}
    (hs : BlockStep n body c.shared (c.locals i) s' l') : Seated ⟨s', Function.update c.locals i l'⟩ := by
  intro j
  dsimp only
  by_cases hji : j = i
  · rw [hji, Function.update_self, hs.isWorker_eq, hc i]
  · rw [Function.update_of_ne hji, hc j]

theorem seated_run (hrun : Run (ProcessStep n body) (startBlock n tasks memory) c) : Seated c :=
  hrun.invariant (fun _ i _ _ hc hs => hc.step i hs.2) (seated_start n tasks memory)

theorem memory_run (hrun : Run (ProcessStep n body) c c') : Run body.Safe c.shared.memory c'.shared.memory := by
  induction hrun with
  | refl => exact .refl
  | tail _ hs ih =>
    obtain ⟨i, -, hs⟩ := hs
    generalize Threads.locals _ i = l at hs
    cases hs with
    | work h => exact ih.tail (.run _ h)
    | _ => exact ih

theorem BlockInv.step (hn : 0 < n) (hc : BlockInv c) (i : Fin n ⊕ Unit) {s' : Process T S L} {l' : Thread T}
    (hs : BlockStep n body c.shared (c.locals i) s' l') : BlockInv ⟨s', Function.update c.locals i l'⟩ := by
  have hpool : Inv n (view ⟨s', Function.update c.locals i l'⟩) := by
    rw [view_update]
    -- the pool is not asked to stop while tasks are still submitted
    have hstop (todo : List T) (hl : c.locals i = .submitting todo) : c.shared.pool.stop = false := by
      have hi := hc.seated i
      rw [hl] at hi
      cases i with
      | inl j => cases hi
      | inr u =>
        have hclosing := hc.stop
        rw [hl] at hclosing
        exact Bool.eq_false_iff.mpr fun h => Bool.false_ne_true (hclosing h)
    obtain hstep | ⟨hsame, hpc⟩ := hs.pool_cases hstop
    · exact hc.pool.step hn i hstep
    · rw [hsame, hpc, Function.update_eq_self]
      exact hc.pool
  refine ⟨hpool, hc.seated.step i hs, ?_, ?_⟩ <;> dsimp only
  · cases i with
    | inl j =>
      rw [Function.update_of_ne Sum.inr_ne_inl, hs.stop_eq (hc.seated _)]
      exact hc.stop
    | inr u =>
      rw [Function.update_self]
      exact hs.closing_of_stop (hc.seated _) hc.stop
  · cases i with
    | inl j =>
      rw [Function.update_of_ne Sum.inr_ne_inl]
      intro hwaited
      have hzero := hc.waited hwaited
      -- with nothing in flight a worker has no task to end
      obtain ⟨htasks, htaken⟩ := hc.pool.empty_of_inFlight hzero
      exact (hs.inFlight_of_worker (hc.seated _) htasks (htaken (.inl j))).trans hzero
    | inr u =>
      rw [Function.update_self]
      exact hs.waited_inFlight (hc.seated _) hc.waited

theorem blockInv_run (hn : 0 < n) (hrun : Run (ProcessStep n body) (startBlock n tasks memory) c) : BlockInv c :=
  hrun.invariant (fun _ i _ _ hc hs => hc.step hn i hs.2) (blockInv_start hn tasks memory)

structure TasksInv (body : Body S L) (tasks : List T) (c : Threads (Fin n ⊕ Unit) (Process T S L) (Thread T)) : Prop where
  submitted : c.shared.pool.submitted + (↑(c.locals (.inr ())).todo : Multiset T) = ↑tasks
  ran : ∀ t ∈ c.shared.pool.ran, body.finished (c.shared.memory.locals t)

theorem tasksInv_run (hrun : Run (ProcessStep n body) (startBlock n tasks memory) c) : TasksInv body tasks c := by
  have hboth : Seated c ∧ TasksInv body tasks c := by
    induction hrun with
    | refl => exact ⟨seated_start n tasks memory, zero_add _, fun t ht => absurd ht (Multiset.notMem_zero t)⟩
    | @tail c c' _ hs ih =>
      obtain ⟨hseated, hc⟩ := ih
      obtain ⟨i, -, hs⟩ := hs
      refine ⟨hseated.step i hs, ?_, hs.ran_finished hc.ran⟩
      have hsub := hs.submitted_eq
      dsimp only
      cases i with
      | inl j =>
        have hnil {l : Thread T} (hl : l.isWorker = true) : l.todo = [] := by
          cases l with
          | worker pc => rfl
          | _ => cases hl
        rw [hnil (hs.isWorker_eq.trans (hseated (.inl j))), hnil (hseated (.inl j))] at hsub
        rw [Function.update_of_ne Sum.inr_ne_inl, add_right_cancel hsub]
        exact hc.submitted
      | inr u =>
        rw [Function.update_self, hsub]
        exact hc.submitted
  exact hboth.2

def Leaves (n : Nat) (body : Body S L) (tasks : List T) (memory memory' : Threads T S L) : Prop :=
  ∃ c, Run (ProcessStep n body) (startBlock n tasks memory) c ∧ c.locals (.inr ()) = .left ∧ c.shared.memory = memory'

theorem Leaves.finished {memory' : Threads T S L} (hn : 0 < n) (h : Leaves n body tasks memory memory') :
    Run body.Safe memory memory' ∧ ∀ t ∈ tasks, body.finished (memory'.locals t) := by
  obtain ⟨c, hrun, hleft, rfl⟩ := h
  refine ⟨memory_run hrun, fun t ht => ?_⟩
  have hinv := blockInv_run hn hrun
  obtain ⟨hsubmitted, hran⟩ := tasksInv_run hrun
  have hzero : c.shared.pool.inFlight = 0 := hinv.waited (by rw [hleft]; rfl)
  have hall : c.shared.pool.ran = ↑tasks := by
    rw [hleft] at hsubmitted
    exact (hinv.pool.ran_of_inFlight hzero).1.trans ((add_zero _).symm.trans hsubmitted)
  apply hran
  rw [hall]
  exact ht

/-! ## Exceptions -/

/-- The thread `i` is in the task `t`, which is about to throw `e`. -/
structure Raising (body : Body S L) (c : Threads (Fin n ⊕ Unit) (Process T S L) (Thread T)) (i : Fin n ⊕ Unit) (t : T)
    (e : Fault) : Prop where
  running : c.locals i = .worker (.running t)
  raises : body.raises (c.shared.memory.locals t) = some e

def Escapes (n : Nat) (body : Body S L) (tasks : List T) (memory : Threads T S L) (e : Fault) : Prop :=
  ∃ c i t, Run (ProcessStep n body) (startBlock n tasks memory) c ∧ c.shared.ended = none ∧ Raising body c i t e

/-- Whatever the schedule, an exception that a task throws does not end the process, and
`in_flight_` reaches zero and the caller gets that exception, from what follows the block
(`after`). -/
def Reports (n : Nat) (body : Body S L) (tasks : List T) (memory : Threads T S L)
    (after : Threads T S L → Except Fault R) : Prop :=
  ∀ c i t e, Run (ProcessStep n body) (startBlock n tasks memory) c → c.shared.ended = none → Raising body c i t e →
    e.IsException → (∀ c', Run (ProcessStep n body) c c' → c'.shared.ended = none) ∧
      ∃ c', Run (ProcessStep n body) c c' ∧ c'.shared.pool.inFlight = 0 ∧ c'.locals (.inr ()) = .left ∧
        after c'.shared.memory = .error e

section raising
variable {i : Fin n ⊕ Unit} {t : T} {e : Fault}

theorem Raising.step (hc : Raising body c i t e) (j : Fin n ⊕ Unit) {s' : Process T S L} {l' : Thread T}
    (hs : BlockStep n body c.shared (c.locals j) s' l') : Raising body ⟨s', Function.update c.locals j l'⟩ i t e := by
  constructor
  · dsimp only
    by_cases hij : i = j
    · subst hij
      rw [Function.update_self]
      rw [hc.running] at hs
      cases hs with
      -- a task that has returned throws nothing
      | loop h halive hfinished =>
        have hnone := body.not_raises _ (hfinished t rfl).2
        cases hnone.symm.trans hc.raises
      | work => rfl
      | throw => rfl
    · rw [Function.update_of_ne hij, hc.running]
  · have hraises := hc.raises
    generalize c.locals j = l at hs
    cases hs with
    | @work t' m' l' h =>
      by_cases htt : t = t'
      · subst htt
        cases h.1.symm.trans hraises
      · show body.raises (Function.update c.shared.memory.locals t' l' t) = some e
        rw [Function.update_of_ne htt, hraises]
    | _ => exact hraises

theorem Raising.run (hc : Raising body c i t e) (hrun : Run (ProcessStep n body) c c') : Raising body c' i t e := by
  induction hrun with
  | refl => exact hc
  | tail _ hs ih =>
    obtain ⟨j, -, hs⟩ := hs
    exact ih.step j hs

theorem Raising.pos (hc : Raising body c i t e) (hrun : Run (ProcessStep n body) (startBlock n tasks memory) c) :
    0 < n := by
  have hi := seated_run hrun i
  rw [hc.running] at hi
  cases i with
  | inl j => exact j.pos
  | inr u => cases hi

theorem Raising.inFlight_ne (hrun : Run (ProcessStep n body) (startBlock n tasks memory) c) (hc : Raising body c i t e)
    (hrun' : Run (ProcessStep n body) c c') :
    c'.shared.pool.inFlight ≠ 0 ∧ (c'.locals (.inr ())).waited = false := by
  have hn := hc.pos hrun
  have hinv : BlockInv c' := blockInv_run hn (hrun.trans hrun')
  have hne : c'.shared.pool.inFlight ≠ 0 := by
    intro hzero
    have htaken := (hinv.pool.empty_of_inFlight hzero).2 i
    rw [show (view c').locals i = (c'.locals i).pc from rfl, (hc.run hrun').running] at htaken
    cases htaken
  exact ⟨hne, Bool.eq_false_iff.mpr fun hwaited => hne (hinv.waited hwaited)⟩

end raising

theorem Escapes.pos {e : Fault} (h : Escapes n body tasks memory e) : 0 < n := by
  obtain ⟨c, i, t, hrun, -, hc⟩ := h
  exact hc.pos hrun

theorem Escapes.terminates {e : Fault} (h : Escapes n body tasks memory e) :
    ∃ c, Run (ProcessStep n body) (startBlock n tasks memory) c ∧ c.shared.ended = some e.inWorker ∧
      c.shared.pool.inFlight ≠ 0 ∧ (c.locals (.inr ())).waited = false := by
  obtain ⟨c, i, t, hrun, hlive, hc⟩ := h
  have hthrow : Step (ProcessStep n body) c _ := .of_local hc.running ⟨hlive, .throw hc.raises⟩
  exact ⟨_, hrun.tail hthrow, rfl, hc.inFlight_ne hrun (.single hthrow)⟩

theorem reports_iff {after : Threads T S L → Except Fault R} :
    Reports n body tasks memory after ↔ ∀ e, Escapes n body tasks memory e → ¬ e.IsException := by
  constructor
  · rintro h e ⟨c, i, t, hrun, hlive, hc⟩ he
    obtain ⟨-, c', hrun', hzero, -⟩ := h c i t e hrun hlive hc he
    exact (hc.inFlight_ne hrun hrun').1 hzero
  · intro h c i t e hrun hlive hc he
    exact absurd he (h e ⟨c, i, t, hrun, hlive, hc⟩)

/-! ## A schedule that leaves the block -/

section schedule
variable {m₀ m m' : Threads (Fin n) S L} {c : Threads (Fin n ⊕ Unit) (Process (Fin n) S L) (Thread (Fin n))}

structure Working (m : Threads (Fin n) S L) (c : Threads (Fin n ⊕ Unit) (Process (Fin n) S L) (Thread (Fin n))) :
    Prop where
  running : ∀ i, c.locals (.inl i) = .worker (.running i)
  caller : c.locals (.inr ()) = .submitting []
  memory : c.shared.memory = m
  live : c.shared.ended = none
  tasks : c.shared.pool.tasks = []

theorem working_of_submitting (body : Body S L) {todo : List (Fin n)} (hnodup : todo.Nodup)
    (hcaller : c.locals (.inr ()) = .submitting todo) (hlive : c.shared.ended = none) (htasks : c.shared.pool.tasks = [])
    (hidle : ∀ i ∈ todo, c.locals (.inl i) = .worker .idle)
    (hrunning : ∀ i, i ∉ todo → c.locals (.inl i) = .worker (.running i)) :
    ∃ c', Run (ProcessStep n body) c c' ∧ Working c.shared.memory c' := by
  induction todo generalizing c with
  | nil => exact ⟨c, .refl, fun i => hrunning i List.not_mem_nil, hcaller, rfl, hlive, htasks⟩
  | cons t todo ih =>
    obtain ⟨ht, hnodup⟩ := List.nodup_cons.mp hnodup
    obtain ⟨c₁, hsubmit, hlocals₁, hshared₁⟩ : ∃ c₁, Step (ProcessStep n body) c c₁ ∧
        c₁.locals = Function.update c.locals (.inr ()) (.submitting todo) ∧
        c₁.shared = { c.shared with pool := c.shared.pool.submit t } := ⟨_, .of_local hcaller ⟨hlive, .submit⟩, rfl, rfl⟩
    have hworker (j : Fin n) : c₁.locals (.inl j) = c.locals (.inl j) := by
      rw [hlocals₁, Function.update_of_ne Sum.inl_ne_inr]
    have hlive₁ : c₁.shared.ended = none := by rw [hshared₁, hlive]
    have htasks₁ : c₁.shared.pool.tasks = [t] := by
      rw [hshared₁]
      exact congrArg (· ++ [t]) htasks
    obtain ⟨c₂, htake, hlocals₂, hshared₂⟩ : ∃ c₂, Step (ProcessStep n body) c₁ c₂ ∧
        c₂.locals = Function.update c₁.locals (.inl t) (.worker (.running t)) ∧
        c₂.shared = { c₁.shared with pool := { c₁.shared.pool with tasks := [] } } :=
      ⟨_, .of_local ((hworker t).trans (hidle t List.mem_cons_self)) ⟨hlive₁, .loop (.take htasks₁) rfl nofun⟩, rfl, rfl⟩
    have hother (j : Fin n) (hj : j ≠ t) : c₂.locals (.inl j) = c.locals (.inl j) := by
      rw [hlocals₂, Function.update_of_ne (Sum.inl_injective.ne hj), hworker j]
    have hcaller₂ : c₂.locals (.inr ()) = .submitting todo := by simp [hlocals₂, hlocals₁]
    have hidle₂ (j : Fin n) (hj : j ∈ todo) : c₂.locals (.inl j) = .worker .idle := by
      rw [hother j (ne_of_mem_of_not_mem hj ht), hidle j (List.mem_cons_of_mem t hj)]
    have hrunning₂ (j : Fin n) (hj : j ∉ todo) : c₂.locals (.inl j) = .worker (.running j) := by
      by_cases hjt : j = t
      · rw [hjt, hlocals₂, Function.update_self]
      · rw [hother j hjt, hrunning j (by simp [hjt, hj])]
    obtain ⟨c', hrun, hc'⟩ := ih hnodup hcaller₂ (by rw [hshared₂, hlive₁]) (by rw [hshared₂]) hidle₂ hrunning₂
    rw [hshared₂, hshared₁] at hc'
    exact ⟨c', .head hsubmit (.head htake hrun), hc'⟩

theorem exists_working (body : Body S L) (m : Threads (Fin n) S L) :
    ∃ c, Run (ProcessStep n body) (startBlock n (List.finRange n) m) c ∧ Working m c :=
  working_of_submitting body (List.nodup_finRange n) rfl rfl rfl (fun _ _ => rfl)
    fun i hi => absurd (List.mem_finRange i) hi

theorem Working.work (h : Working m c) (hrun : Run body.Safe m m') :
    ∃ c', Run (ProcessStep n body) c c' ∧ Working m' c' := by
  induction hrun with
  | refl => exact ⟨c, .refl, h⟩
  | @tail m₁ m₂ _ hs ih =>
    obtain ⟨c₁, hrun₁, h₁⟩ := ih
    obtain @⟨t, s', l', hs⟩ := hs
    rw [← h₁.memory] at hs
    have hsame : Function.update c₁.locals (.inl t) (.worker (.running t)) = c₁.locals := by
      rw [← h₁.running t, Function.update_eq_self]
    have hwork : Step (ProcessStep n body) c₁ _ := .of_local (h₁.running t) ⟨h₁.live, .work hs⟩
    rw [hsame] at hwork
    refine ⟨_, hrun₁.tail hwork, h₁.running, h₁.caller, ?_, h₁.live, h₁.tasks⟩
    rw [h₁.memory]

structure Quiet (m : Threads (Fin n) S L) (stop : Bool)
    (c : Threads (Fin n ⊕ Unit) (Process (Fin n) S L) (Thread (Fin n))) : Prop where
  live : c.shared.ended = none
  memory : c.shared.memory = m
  tasks : c.shared.pool.tasks = []
  stop : c.shared.pool.stop = stop

theorem Quiet.task_returns {i : Fin n ⊕ Unit} {t : Fin n} {stop : Bool} (hfinished : body.finished (m.locals t))
    (hc : Quiet m stop c) (hi : c.locals i = .worker (.running t)) :
    ∃ c', Run (ProcessStep n body) c c' ∧ Quiet m stop c' ∧ c'.locals i = .worker .idle ∧
      ∀ j, j ≠ i → c'.locals j = c.locals j := by
  have hdone : ∀ t', Pc.running t = .running t' →
      (Pc.finishing t : Pc (Fin n)) = .finishing t' ∧ body.finished (c.shared.memory.locals t') := by
    rintro t' ⟨⟩
    exact ⟨rfl, hc.memory ▸ hfinished⟩
  obtain ⟨c₁, hrun₁, hlocals₁, hshared₁⟩ : ∃ c₁, Step (ProcessStep n body) c c₁ ∧
      c₁.locals = Function.update c.locals i (.worker (.finishing t)) ∧
      c₁.shared = { c.shared with pool := { c.shared.pool with ran := t ::ₘ c.shared.pool.ran } } :=
    ⟨_, .of_local hi ⟨hc.live, .loop .run rfl hdone⟩, rfl, rfl⟩
  have hi₁ : c₁.locals i = .worker (.finishing t) := by rw [hlocals₁, Function.update_self]
  have hlive₁ : c₁.shared.ended = none := by rw [hshared₁, hc.live]
  have hfinish : Step (ProcessStep n body) c₁ _ := .of_local hi₁ ⟨hlive₁, .loop .finish rfl nofun⟩
  refine ⟨_, .head hrun₁ (.single hfinish), ⟨?_, ?_, ?_, ?_⟩, Function.update_self .., fun j hj => ?_⟩
  · exact hlive₁
  · rw [hshared₁]
    exact hc.memory
  · rw [hshared₁]
    exact hc.tasks
  · rw [hshared₁]
    exact hc.stop
  · show Function.update c₁.locals i _ j = c.locals j
    rw [Function.update_of_ne hj, hlocals₁, Function.update_of_ne hj]

theorem Quiet.worker_returns {i : Fin n ⊕ Unit} (hc : Quiet m true c) (hi : c.locals i = .worker .idle) :
    ∃ c', Run (ProcessStep n body) c c' ∧ Quiet m true c' ∧ c'.locals i = .worker .returned ∧
      ∀ j, j ≠ i → c'.locals j = c.locals j := by
  have hexit : Step (ProcessStep n body) c _ := .of_local hi ⟨hc.live, .loop (.exit hc.stop hc.tasks) rfl nofun⟩
  exact ⟨_, .single hexit, ⟨hc.live, hc.memory, hc.tasks, hc.stop⟩, Function.update_self ..,
    fun j hj => Function.update_of_ne hj _ _⟩

theorem Quiet.each {stop : Bool} {A B : Thread (Fin n) → Prop}
    (hsolo : ∀ (c : Threads (Fin n ⊕ Unit) (Process (Fin n) S L) (Thread (Fin n))) (i : Fin n ⊕ Unit),
      Quiet m stop c → A (c.locals i) → ∃ c', Run (ProcessStep n body) c c' ∧ Quiet m stop c' ∧ B (c'.locals i) ∧
        ∀ j, j ≠ i → c'.locals j = c.locals j)
    (hc : Quiet m stop c) (hA : ∀ i : Fin n, A (c.locals (.inl i))) :
    ∃ c', Run (ProcessStep n body) c c' ∧ Quiet m stop c' ∧ (∀ i : Fin n, B (c'.locals (.inl i))) ∧
      c'.locals (.inr ()) = c.locals (.inr ()) := by
  have hworkers : ((List.finRange n).map (Sum.inl : Fin n → Fin n ⊕ Unit)).Nodup :=
    (List.nodup_finRange n).map Sum.inl_injective
  obtain ⟨c', hrun, hc', hB, hsame⟩ := Run.each hsolo hworkers hc (by simpa using hA)
  exact ⟨c', hrun, hc', by simpa using hB, hsame _ (by simp)⟩

theorem Working.leaves (hn : 0 < n) (hrun : Run (ProcessStep n body) (startBlock n (List.finRange n) m₀) c)
    (h : Working m c) (hfinished : ∀ i, body.finished (m.locals i)) : Leaves n body (List.finRange n) m₀ m := by
  have hstop : c.shared.pool.stop = false := by
    have hclosing := (blockInv_run hn hrun).stop
    rw [h.caller] at hclosing
    exact Bool.eq_false_iff.mpr fun hstop => Bool.false_ne_true (hclosing hstop)
  -- every worker returns from its task, so that `WaitAll` returns
  obtain ⟨c₁, hrun₁, hquiet₁, hidle₁, hcaller₁⟩ := Quiet.each (A := fun l => ∃ t, l = .worker (.running t))
    (B := fun l => l = .worker .idle) (fun c i hc ⟨t, hi⟩ => hc.task_returns (hfinished t) hi)
    ⟨h.live, h.memory, h.tasks, hstop⟩ fun i => ⟨i, h.running i⟩
  rw [h.caller] at hcaller₁
  have hzero : c₁.shared.pool.inFlight = 0 := by
    apply (blockInv_run hn (hrun.trans hrun₁)).pool.inFlight_zero hquiet₁.tasks
    intro i
    show (c₁.locals i).pc.taken = 0
    cases i with
    | inl i => rw [hidle₁ i]; rfl
    | inr u => rw [hcaller₁]; rfl
  have hwait : Run (ProcessStep n body) c₁ _ := .single (.of_local hcaller₁ ⟨hquiet₁.live, .callWaitAll⟩)
  have hreturn := hwait.tail (.of_local (Function.update_self ..) ⟨hquiet₁.live, .waitAllReturns hzero⟩)
  have hdestroy := hreturn.tail (.of_local (Function.update_self ..) ⟨hquiet₁.live, .destroy⟩)
  rw [Function.update_idem, Function.update_idem] at hdestroy
  have hclosing : Quiet m true ⟨{ c₁.shared with pool := { c₁.shared.pool with stop := true } },
      Function.update c₁.locals (.inr ()) .joining⟩ := ⟨hquiet₁.live, hquiet₁.memory, hquiet₁.tasks, rfl⟩
  -- every worker returns, so that the destructor joins them all
  obtain ⟨c₂, hrun₂, hquiet₂, hreturned₂, hcaller₂⟩ := Quiet.each (A := fun l => l = .worker .idle)
    (B := fun l => l = .worker .returned) (fun c i hc hi => hc.worker_returns hi) hclosing
    (fun i => by simpa using hidle₁ i)
  have hcaller₂ : c₂.locals (.inr ()) = .joining := by simpa using hcaller₂
  have hrun₂ := (hrun.trans hrun₁).trans (hdestroy.trans hrun₂)
  have hexited : c₂.shared.pool.exited = n := by
    apply (blockInv_run hn hrun₂).pool.exited_all
    intro i
    show (c₂.locals i).pc.alive = 0
    cases i with
    | inl i => rw [hreturned₂ i]; rfl
    | inr u => rw [hcaller₂]; rfl
  exact ⟨_, hrun₂.tail (.of_local hcaller₂ ⟨hquiet₂.live, .join hexited⟩), by simp, hquiet₂.memory⟩

theorem leaves_of_run (hn : 0 < n) (hrun : Run body.Safe m₀ m) (hfinished : ∀ i, body.finished (m.locals i)) :
    Leaves n body (List.finRange n) m₀ m := by
  obtain ⟨c, hstart, hworking⟩ := exists_working body m₀
  obtain ⟨c', hwork, hworking'⟩ := hworking.work hrun
  exact hworking'.leaves hn (hstart.trans hwork) hfinished

theorem escapes_of_run {t : Fin n} {e : Fault} (hrun : Run body.Safe m₀ m) (hraises : body.raises (m.locals t) = some e) :
    Escapes n body (List.finRange n) m₀ e := by
  obtain ⟨c, hstart, hworking⟩ := exists_working body m₀
  obtain ⟨c', hwork, hworking'⟩ := hworking.work hrun
  exact ⟨c', .inl t, t, hstart.trans hwork, hworking'.live, hworking'.running t, by rwa [hworking'.memory]⟩

end schedule
end MyDB.Executor.ThreadPool

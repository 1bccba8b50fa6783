import MyDB.Lib.Threads

/-! Objects that several threads call. A call begins, takes steps on the shared state and
returns; the history of a run is the list of its calls and returns. The object is
linearizable if each of its histories is one of the same object with every operation
done in one step between its call and its return. -/

namespace MyDB.Lib
variable {ι S A Op R Pc : Type} [DecidableEq ι]

inductive Event (ι Op R : Type) where
  | call (i : ι) (op : Op)
  | ret (i : ι) (r : R)

/-- How the calls of an object are carried out; `result s pc r` says that a call that is
at `pc` returns `r`. -/
structure Implementation (S Op R Pc : Type) where
  init : S
  enter : Op → Pc
  step : S → Pc → S → Pc → Prop
  result : S → Pc → R → Prop

namespace Implementation

def start (impl : Implementation S Op R Pc) (ι : Type) : Threads ι S (Option Pc) :=
  ⟨impl.init, fun _ => none⟩

inductive Inner (impl : Implementation S Op R Pc) : S → Option Pc → S → Option Pc → Prop
  | step {s s' : S} {pc pc' : Pc} (h : impl.step s pc s' pc') : Inner impl s (some pc) s' (some pc')

/-- The runs with their histories. -/
inductive Reaches (impl : Implementation S Op R Pc) :
    List (Event ι Op R) → Threads ι S (Option Pc) → Prop
  | start : Reaches impl [] (impl.start ι)
  | call {hist : List (Event ι Op R)} {c : Threads ι S (Option Pc)} (h : Reaches impl hist c) (i : ι) (op : Op)
      (hi : c.locals i = none) :
      Reaches impl (hist ++ [.call i op]) ⟨c.shared, Function.update c.locals i (some (impl.enter op))⟩
  | step {hist : List (Event ι Op R)} {c c' : Threads ι S (Option Pc)} (h : Reaches impl hist c)
      (hs : Threads.Step impl.Inner c c') : Reaches impl hist c'
  | ret {hist : List (Event ι Op R)} {c : Threads ι S (Option Pc)} (h : Reaches impl hist c) (i : ι)
      {pc : Pc} {r : R} (hi : c.locals i = some pc) (hr : impl.result c.shared pc r) :
      Reaches impl (hist ++ [.ret i r]) ⟨c.shared, Function.update c.locals i none⟩

theorem Reaches.run {impl : Implementation S Op R Pc} {hist : List (Event ι Op R)}
    {c c' : Threads ι S (Option Pc)} (h : impl.Reaches hist c) (hrun : Threads.Run impl.Inner c c') :
    impl.Reaches hist c' := by
  induction hrun with
  | refl => exact h
  | tail _ hs ih => exact ih.step hs

/-! ## Calls that run alone

Some steps may be `spurious`: they are taken for no reason and can be taken again. -/

inductive Finishes (impl : Implementation S Op R Pc) (spurious : S → Pc → S → Pc → Prop) : S → Pc → Prop
  | intro {s : S} {pc : Pc}
      (hlive : (∃ r, impl.result s pc r) ∨ ∃ s' pc', impl.step s pc s' pc' ∧ ¬ spurious s pc s' pc')
      (hnext : ∀ s' pc', impl.step s pc s' pc' → ¬ spurious s pc s' pc' → Finishes impl spurious s' pc') :
      Finishes impl spurious s pc

/-- A call that runs alone from `s` is never stuck, and goes on for ever only by spurious
steps that do not end. -/
structure ReturnsAlone (impl : Implementation S Op R Pc) (spurious : S → Pc → S → Pc → Prop) (s : S) (pc : Pc) :
    Prop where
  live : (∃ r, impl.result s pc r) ∨ ∃ s' pc', impl.step s pc s' pc' ∧ ¬ spurious s pc s' pc'
  ends : ∀ run : Nat → S × Pc, run 0 = (s, pc) →
    (∀ k, impl.step (run k).1 (run k).2 (run (k + 1)).1 (run (k + 1)).2) →
    ∀ k, ∃ l ≥ k, spurious (run l).1 (run l).2 (run (l + 1)).1 (run (l + 1)).2

theorem Finishes.spurious_later {impl : Implementation S Op R Pc} {spurious : S → Pc → S → Pc → Prop}
    {run : Nat → S × Pc} (hrun : ∀ k, impl.step (run k).1 (run k).2 (run (k + 1)).1 (run (k + 1)).2) {s : S} {pc : Pc}
    (h : Finishes impl spurious s pc) {k : Nat} (hk : run k = (s, pc)) :
    ∃ l ≥ k, spurious (run l).1 (run l).2 (run (l + 1)).1 (run (l + 1)).2 := by
  induction h generalizing k with
  | @intro s pc _ _ ih =>
    by_cases hspurious : spurious (run k).1 (run k).2 (run (k + 1)).1 (run (k + 1)).2
    · exact ⟨k, le_rfl, hspurious⟩
    · have hstep := hrun k
      rw [hk] at hstep hspurious
      obtain ⟨l, hl, hlater⟩ := ih _ _ hstep hspurious (k := k + 1) rfl
      exact ⟨l, Nat.le_of_succ_le hl, hlater⟩

theorem returnsAlone_of_finishes {impl : Implementation S Op R Pc} {spurious : S → Pc → S → Pc → Prop}
    {I : S → Pc → Prop} (hstep : ∀ s pc s' pc', I s pc → impl.step s pc s' pc' → I s' pc')
    (hfinishes : ∀ s pc, I s pc → Finishes impl spurious s pc) {s : S} {pc : Pc} (h : I s pc) :
    ReturnsAlone impl spurious s pc where
  live := by
    obtain ⟨hlive, -⟩ := hfinishes s pc h
    exact hlive
  ends run hzero hrun k := by
    have hI : ∀ k, I (run k).1 (run k).2 := by
      intro k
      induction k with
      | zero =>
        rw [hzero]
        exact h
      | succ k ih => exact hstep _ _ _ _ ih (hrun k)
    exact (hfinishes _ _ (hI k)).spurious_later hrun rfl

end Implementation

structure SequentialObject (A Op R : Type) where
  init : A
  apply : Op → A → R × A

namespace SequentialObject

/-- Where a call of the atomic object is: before or after its one step. -/
inductive AtomicPc (Op R : Type) where
  | pending (op : Op)
  | done (r : R)

inductive AtomicStep (obj : SequentialObject A Op R) : A → AtomicPc Op R → A → AtomicPc Op R → Prop
  | apply (op : Op) (a : A) : AtomicStep obj a (.pending op) (obj.apply op a).2 (.done (obj.apply op a).1)

def atomic (obj : SequentialObject A Op R) : Implementation A Op R (AtomicPc Op R) where
  init := obj.init
  enter := .pending
  step := obj.AtomicStep
  result := fun _ pc r => pc = .done r

theorem run_apply (obj : SequentialObject A Op R) {a : Threads ι A (Option (AtomicPc Op R))} {i : ι} {op : Op}
    (hi : a.locals i = some (.pending op)) :
    Threads.Run obj.atomic.Inner a
      ⟨(obj.apply op a.shared).2, Function.update a.locals i (some (.done (obj.apply op a.shared).1))⟩ :=
  .single (.of_local hi (.step (AtomicStep.apply op a.shared)))

end SequentialObject

def Linearizable (ι : Type) [DecidableEq ι] (impl : Implementation S Op R Pc) (obj : SequentialObject A Op R) : Prop :=
  ∀ (hist : List (Event ι Op R)) (c : Threads ι S (Option Pc)), impl.Reaches hist c →
    ∃ a, obj.atomic.Reaches hist a

/-! ## Simulation -/

structure Simulates (impl : Implementation S Op R Pc) (obj : SequentialObject A Op R)
    (Rel : Threads ι S (Option Pc) → Threads ι A (Option (SequentialObject.AtomicPc Op R)) → Prop) : Prop where
  start : Rel (impl.start ι) (obj.atomic.start ι)
  call : ∀ c a i op, Rel c a → c.locals i = none → a.locals i = none ∧
    Rel ⟨c.shared, Function.update c.locals i (some (impl.enter op))⟩
      ⟨a.shared, Function.update a.locals i (some (.pending op))⟩
  step : ∀ c a c', Rel c a → Threads.Step impl.Inner c c' →
    ∃ a', Threads.Run obj.atomic.Inner a a' ∧ Rel c' a'
  ret : ∀ c a i pc r, Rel c a → c.locals i = some pc → impl.result c.shared pc r →
    a.locals i = some (.done r) ∧
      Rel ⟨c.shared, Function.update c.locals i none⟩ ⟨a.shared, Function.update a.locals i none⟩

variable {impl : Implementation S Op R Pc} {obj : SequentialObject A Op R}
  {Rel : Threads ι S (Option Pc) → Threads ι A (Option (SequentialObject.AtomicPc Op R)) → Prop}

theorem Simulates.reaches (hsim : Simulates impl obj Rel) {hist : List (Event ι Op R)}
    {c : Threads ι S (Option Pc)} (h : impl.Reaches hist c) : ∃ a, obj.atomic.Reaches hist a ∧ Rel c a := by
  induction h with
  | start => exact ⟨_, .start, hsim.start⟩
  | call _ i op hi ih =>
    obtain ⟨a, ha, hrel⟩ := ih
    obtain ⟨hai, hrel'⟩ := hsim.call _ a i op hrel hi
    exact ⟨_, ha.call i op hai, hrel'⟩
  | step _ hs ih =>
    obtain ⟨a, ha, hrel⟩ := ih
    obtain ⟨a', hrun, hrel'⟩ := hsim.step _ a _ hrel hs
    exact ⟨a', ha.run hrun, hrel'⟩
  | ret _ i hi hr ih =>
    obtain ⟨a, ha, hrel⟩ := ih
    obtain ⟨hai, hrel'⟩ := hsim.ret _ a i _ _ hrel hi hr
    exact ⟨_, ha.ret i hai rfl, hrel'⟩

theorem Simulates.linearizable (hsim : Simulates impl obj Rel) : Linearizable ι impl obj := by
  intro hist c h
  obtain ⟨a, ha, -⟩ := hsim.reaches h
  exact ⟨a, ha⟩

end MyDB.Lib

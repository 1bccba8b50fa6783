import MyDB.Executor.PoolSignals

/-! A pool whose clients make finitely many calls comes to its end. -/

namespace MyDB.Executor.ThreadPool
open MyDB.Lib Threads

variable {T κ : Type} {n : Nat} [Fintype κ] {spawns : T → List T} {s s' : PoolState n κ T}

/-! ## Every step is paid for

`q` is what a queued task costs: the steps of the worker that runs it, those of the
workers it wakes by what it submits, and two steps for each of `m` clients that it
wakes when it finishes. -/

def WorkerPc.cost (q : T → Nat) (m : Nat) : WorkerPc T → Nat
  | .idle => 1
  | .waiting => 0
  | .notified => 2
  | .running _ rest => 3 + 2 * m + (rest.map fun u => 4 + q u).sum
  | .signalling _ rest => 6 + 2 * m + (rest.map fun u => 4 + q u).sum
  | .finishing _ => 2 + 2 * m
  | .returned => 0

def Op.cost (q : T → Nat) : Op T → Nat
  | .submit t => 4 + q t
  | .waitAll => 2

def ClientPc.cost (q : T → Nat) : ClientPc T → Nat
  | .ready ops | .blocked ops => (ops.map (Op.cost q)).sum
  | .signalling ops => (ops.map (Op.cost q)).sum + 3
  | .checking ops => (ops.map (Op.cost q)).sum + 1
  | .unblocked ops => (ops.map (Op.cost q)).sum + 2

def OwnerPc.cost (n : Nat) : OwnerPc → Nat
  | .owning => 2 * n + 3
  | .stopping => 2 * n + 2
  | .joining => 1
  | .joined => 0

def PoolState.cost (q : T → Nat) (s : PoolState n κ T) : Nat :=
  (∑ i, (s.workers i).cost q (Fintype.card κ)) + (∑ k, (s.clients k).cost q) + (s.tasks.map q).sum + s.owner.cost n

section Cost
variable {q : T → Nat} {m : Nat}

theorem NotifyOne.cost_le {workers workers' : Fin n → WorkerPc T} (h : NotifyOne workers workers') :
    ∑ i, (workers' i).cost q m ≤ (∑ i, (workers i).cost q m) + 2 := by
  cases h with
  | wake j hj =>
    have hsum := sum_locals_update (WorkerPc.cost q m) workers j .notified
    have hnotified : (WorkerPc.notified : WorkerPc T).cost q m = 2 := rfl
    omega
  | nobody => exact Nat.le_add_right ..

theorem WorkerPc.notify_cost (w : WorkerPc T) : w.notify.cost q m ≤ w.cost q m + 2 := by
  cases w with
  | waiting => exact le_rfl
  | _ => exact Nat.le_add_right ..

theorem ClientPc.notify_cost (c : ClientPc T) : c.notify.cost q ≤ c.cost q + 2 := by
  cases c with
  | blocked ops => exact le_rfl
  | _ => exact Nat.le_add_right ..

theorem sum_le_sum_add {ι : Type} [Fintype ι] {f g : ι → Nat} (h : ∀ i, f i ≤ g i + 2) :
    ∑ i, f i ≤ (∑ i, g i) + 2 * Fintype.card ι := by
  calc ∑ i, f i ≤ ∑ i, (g i + 2) := Finset.sum_le_sum fun i _ => h i
    _ = (∑ i, g i) + 2 * Fintype.card ι := by
      rw [Finset.sum_add_distrib, Finset.sum_const, Finset.card_univ, smul_eq_mul, Nat.mul_comm]

end Cost

variable {q : T → Nat}

theorem PoolState.cost_setWorker (s : PoolState n κ T) (i : Fin n) (w : WorkerPc T) :
    (s.setWorker i w).cost q + (s.workers i).cost q (Fintype.card κ) = s.cost q + w.cost q (Fintype.card κ) := by
  have hsum := sum_locals_update (WorkerPc.cost q (Fintype.card κ)) s.workers i w
  simp only [PoolState.cost, PoolState.setWorker]
  omega

theorem PoolState.cost_push (s : PoolState n κ T) (t : T) : (s.push t).cost q = s.cost q + q t := by
  simp only [PoolState.cost, PoolState.push, List.map_append, List.sum_append, List.map_singleton, List.sum_singleton]
  omega

theorem PoolState.cost_notifyOne (s : PoolState n κ T) {workers : Fin n → WorkerPc T}
    (h : NotifyOne s.workers workers) : ({ s with workers := workers } : PoolState n κ T).cost q ≤ s.cost q + 2 := by
  have hle := h.cost_le (q := q) (m := Fintype.card κ)
  simp only [PoolState.cost]
  omega

theorem PoolState.cost_finish (s : PoolState n κ T) : s.finish.cost q ≤ s.cost q + 2 * Fintype.card κ := by
  have hle : ∑ k, (s.finish.clients k).cost q ≤ (∑ k, (s.clients k).cost q) + 2 * Fintype.card κ := by
    refine sum_le_sum_add fun k => ?_
    rw [PoolState.finish_clients]
    split_ifs
    · exact ClientPc.notify_cost _
    · exact Nat.le_add_right ..
  change (∑ i, (s.workers i).cost q (Fintype.card κ)) + (∑ k, (s.finish.clients k).cost q) + (s.tasks.map q).sum +
    s.owner.cost n ≤ _
  rw [PoolState.cost]
  omega

theorem PoolState.cost_take (s : PoolState n κ T) {t : T} {rest : List T} (h : s.tasks = t :: rest) :
    ({ s with tasks := rest } : PoolState n κ T).cost q + q t = s.cost q := by
  simp only [PoolState.cost, h, List.map_cons, List.sum_cons]
  omega

theorem NotifyOne.eq_of_ne_waiting {workers workers' : Fin n → WorkerPc T} (h : NotifyOne workers workers') {i : Fin n}
    (hi : workers i ≠ .waiting) : workers' i = workers i := by
  cases h with
  | wake j hj =>
    have hij : i ≠ j := by
      rintro rfl
      exact hi hj
    exact Function.update_of_ne hij ..
  | nobody => rfl

theorem PoolState.cost_worker_lt {s₁ : PoolState n κ T} {i : Fin n} {w₀ w : WorkerPc T} (hi : s₁.workers i = w₀)
    (h : s₁.cost q + w.cost q (Fintype.card κ) < s.cost q + w₀.cost q (Fintype.card κ)) :
    (s₁.setWorker i w).cost q < s.cost q := by
  have hcost := s₁.cost_setWorker (q := q) i w
  rw [hi] at hcost
  omega

theorem PoolState.cost_worker_self_lt {i : Fin n} {w₀ w : WorkerPc T} (hi : s.workers i = w₀)
    (h : w.cost q (Fintype.card κ) < w₀.cost q (Fintype.card κ)) : (s.setWorker i w).cost q < s.cost q :=
  cost_worker_lt hi (Nat.add_lt_add_left h _)

theorem PoolState.cost_submitFromTask_lt {i : Fin n} {t u : T} {rest : List T} (hi : s.workers i = .running t (u :: rest)) :
    ((s.push u).setWorker i (.signalling t rest)).cost q < s.cost q := by
  refine cost_worker_lt hi ?_
  rw [s.cost_push]
  simp only [WorkerPc.cost, List.map_cons, List.sum_cons]
  omega

theorem PoolState.cost_signalFromTask_lt {i : Fin n} {t : T} {rest : List T} {workers : Fin n → WorkerPc T}
    (hi : s.workers i = .signalling t rest) (h : NotifyOne s.workers workers) :
    ({ s with workers := workers }.setWorker i (.running t rest)).cost q < s.cost q := by
  have hsame : workers i = .signalling t rest := by
    rw [h.eq_of_ne_waiting, hi]
    rw [hi]
    exact fun he => by cases he
  have hle := s.cost_notifyOne (q := q) h
  refine cost_worker_lt hsame ?_
  simp only [WorkerPc.cost]
  omega

theorem PoolState.cost_finish_lt {i : Fin n} {t : T} (hi : s.workers i = .finishing t) :
    (s.finish.setWorker i .idle).cost q < s.cost q := by
  have hle := s.cost_finish (q := q)
  refine cost_worker_lt hi ?_
  simp only [WorkerPc.cost]
  omega

theorem PoolState.cost_notifyAll_lt (ho : s.owner = .stopping) :
    ({ s with workers := fun i => (s.workers i).notify, owner := .joining } : PoolState n κ T).cost q < s.cost q := by
  have hle := sum_le_sum_add fun i => (s.workers i).notify_cost (q := q) (m := Fintype.card κ)
  rw [Fintype.card_fin] at hle
  simp only [PoolState.cost, ho, OwnerPc.cost]
  omega

variable [DecidableEq κ]

theorem PoolState.cost_setClient (s : PoolState n κ T) (k : κ) (c : ClientPc T) :
    (s.setClient k c).cost q + (s.clients k).cost q = s.cost q + c.cost q := by
  have hsum := sum_locals_update (ClientPc.cost q) s.clients k c
  simp only [PoolState.cost, PoolState.setClient]
  omega

theorem PoolState.cost_client_lt {s₁ : PoolState n κ T} {k : κ} {c₀ c : ClientPc T} (hk : s₁.clients k = c₀)
    (h : s₁.cost q + c.cost q < s.cost q + c₀.cost q) : (s₁.setClient k c).cost q < s.cost q := by
  have hcost := s₁.cost_setClient (q := q) k c
  rw [hk] at hcost
  omega

theorem PoolState.cost_client_self_lt {k : κ} {c₀ c : ClientPc T} (hk : s.clients k = c₀) (h : c.cost q < c₀.cost q) :
    (s.setClient k c).cost q < s.cost q := cost_client_lt hk (Nat.add_lt_add_left h _)

theorem PoolState.cost_submit_lt {k : κ} {t : T} {ops : List (Op T)} (hk : s.clients k = .ready (.submit t :: ops)) :
    ((s.push t).setClient k (.signalling ops)).cost q < s.cost q := by
  refine cost_client_lt hk ?_
  rw [s.cost_push]
  simp only [ClientPc.cost, Op.cost, List.map_cons, List.sum_cons]
  omega

theorem PoolState.cost_signal_lt {k : κ} {ops : List (Op T)} {workers : Fin n → WorkerPc T}
    (hk : s.clients k = .signalling ops) (h : NotifyOne s.workers workers) :
    ({ s with workers := workers }.setClient k (.ready ops)).cost q < s.cost q := by
  have hle := s.cost_notifyOne (q := q) h
  refine cost_client_lt hk ?_
  simp only [ClientPc.cost]
  omega

theorem SignalStep.cost_lt (hq : ∀ t, q t = 3 + 2 * Fintype.card κ + ((spawns t).map fun u => 4 + q u).sum)
    (h : SignalStep spawns s s') : s'.cost q < s.cost q := by
  cases h with
  | @take i t rest hi h =>
    have htask := hq t
    have htake := s.cost_take (q := q) h
    refine PoolState.cost_worker_lt hi ?_
    simp only [WorkerPc.cost]
    omega
  | wait i hi hstop h => exact PoolState.cost_worker_self_lt hi Nat.zero_lt_one
  | exit i hi hstop h => exact PoolState.cost_worker_self_lt hi Nat.zero_lt_one
  | wake i hi => exact PoolState.cost_worker_self_lt hi Nat.one_lt_two
  | submitFromTask i hi => exact PoolState.cost_submitFromTask_lt hi
  | signalFromTask i hi h => exact PoolState.cost_signalFromTask_lt hi h
  | @ran i t hi =>
    have hi' : ({ s with ran := t ::ₘ s.ran } : PoolState n κ T).workers i = .running t [] := hi
    refine PoolState.cost_worker_lt hi' (Nat.add_lt_add_left ?_ _)
    simp only [WorkerPc.cost, List.map_nil, List.sum_nil]
    omega
  | finish i hi => exact PoolState.cost_finish_lt hi
  | submit k hk => exact PoolState.cost_submit_lt hk
  | signal k hk h => exact PoolState.cost_signal_lt hk h
  | waitAll k hk =>
    refine PoolState.cost_client_self_lt hk ?_
    simp only [ClientPc.cost, Op.cost, List.map_cons, List.sum_cons]
    omega
  | waitAllReturns k hk h => exact PoolState.cost_client_self_lt hk (Nat.lt_succ_self _)
  | block k hk h => exact PoolState.cost_client_self_lt hk (Nat.lt_succ_self _)
  | unblock k hk => exact PoolState.cost_client_self_lt hk (Nat.lt_succ_self _)
  | destroy hu h =>
    simp only [PoolState.cost, hu, OwnerPc.cost]
    omega
  | notifyAll ho => exact PoolState.cost_notifyAll_lt ho
  | join hj h =>
    simp only [PoolState.cost, hj, OwnerPc.cost]
    omega

theorem exists_cost (hspawns : WellFounded fun u t => u ∈ spawns t) (m : Nat) :
    ∃ q : T → Nat, ∀ t, q t = 3 + 2 * m + ((spawns t).map fun u => 4 + q u).sum := by
  refine ⟨hspawns.fix fun t ih => 3 + 2 * m + ((spawns t).attach.map fun u => 4 + ih u.1 u.2).sum, fun t => ?_⟩
  rw [hspawns.fix_eq]
  simp only [List.map_attach_eq_pmap, List.pmap_eq_map]

/-! ## Which tasks are submitted -/

def submits (ops : List (Op T)) : Multiset T :=
  ops.filterMap fun op => match op with
    | .submit t => some t
    | .waitAll => none

def ClientPc.todo : ClientPc T → Multiset T
  | .ready ops | .signalling ops | .checking ops | .blocked ops | .unblocked ops => submits ops

def WorkerPc.todo : WorkerPc T → Multiset T
  | .running _ rest | .signalling _ rest => rest
  | _ => 0

def WorkerPc.spawned (spawns : T → List T) : WorkerPc T → Multiset T
  | .running t _ | .signalling t _ => spawns t
  | _ => 0

def Accounted (spawns : T → List T) (total : Multiset T) (s : PoolState n κ T) : Prop :=
  s.submitted + ((∑ k, (s.clients k).todo) + ∑ i, (s.workers i).todo) =
    total + (s.ran.bind (fun t => ↑(spawns t)) + ∑ i, (s.workers i).spawned spawns)

theorem balance_update {M : Type} [AddCancelCommMonoid M] {a a' c d d' u u' r r' e e' v v' total : M}
    (h : a + (c + d) = total + (r + e)) (htodo : d' + u = d + u') (hspawned : e' + v = e + v')
    (hw : a' + u' + (r + v) = a + u + (r' + v')) : a' + (c + d') = total + (r' + e') := by
  apply add_right_cancel (b := u + r + v)
  calc a' + (c + d') + (u + r + v) = a' + c + r + v + (d' + u) := by ac_rfl
    _ = (a' + u' + (r + v)) + c + d := by
      rw [htodo]
      ac_rfl
    _ = (a + (c + d)) + u + r' + v' := by
      rw [hw]
      ac_rfl
    _ = total + r + u + r' + (e + v') := by
      rw [h]
      ac_rfl
    _ = total + (r' + e') + (u + r + v) := by
      rw [← hspawned]
      ac_rfl

section Accounted
variable {total : Multiset T}

omit [DecidableEq κ] in
theorem Accounted.setWorker {s₁ : PoolState n κ T} {i : Fin n} {w : WorkerPc T} (h : Accounted spawns total s)
    (hworkers : ∀ j, (s₁.workers j).todo = (s.workers j).todo ∧
      (s₁.workers j).spawned spawns = (s.workers j).spawned spawns)
    (hclients : ∀ k, (s₁.clients k).todo = (s.clients k).todo)
    (hw : s₁.submitted + w.todo + (s.ran.bind (fun t => ↑(spawns t)) + (s.workers i).spawned spawns) =
      s.submitted + (s.workers i).todo + (s₁.ran.bind (fun t => ↑(spawns t)) + w.spawned spawns)) :
    Accounted spawns total (s₁.setWorker i w) := by
  have htodo := sum_locals_update WorkerPc.todo s₁.workers i w
  have hspawned := sum_locals_update (WorkerPc.spawned spawns) s₁.workers i w
  simp only [hworkers] at htodo hspawned
  change s₁.submitted + ((∑ k, (s₁.clients k).todo) + ∑ j, (Function.update s₁.workers i w j).todo) =
    total + (s₁.ran.bind (fun t => ↑(spawns t)) + ∑ j, (Function.update s₁.workers i w j).spawned spawns)
  simp only [hclients]
  exact balance_update h htodo hspawned hw

theorem Accounted.setClient {s₁ : PoolState n κ T} {k : κ} {c : ClientPc T} (h : Accounted spawns total s)
    (hworkers : ∀ j, (s₁.workers j).todo = (s.workers j).todo ∧
      (s₁.workers j).spawned spawns = (s.workers j).spawned spawns)
    (hclients : s₁.clients = s.clients) (hran : s₁.ran = s.ran)
    (hc : s₁.submitted + c.todo = s.submitted + (s.clients k).todo) :
    Accounted spawns total (s₁.setClient k c) := by
  have htodo := sum_locals_update ClientPc.todo s₁.clients k c
  rw [hclients] at htodo
  change s₁.submitted + ((∑ j, (Function.update s₁.clients k c j).todo) + ∑ j, (s₁.workers j).todo) =
    total + (s₁.ran.bind (fun t => ↑(spawns t)) + ∑ j, (s₁.workers j).spawned spawns)
  simp only [hclients, hworkers, hran]
  rw [Accounted, add_comm (∑ k, (s.clients k).todo)] at h
  rw [add_comm (∑ j, (Function.update s.clients k c j).todo)]
  refine balance_update h htodo (rfl : _ + (0 : Multiset T) = _) ?_
  rw [hc]

theorem NotifyOne.todo_eq {workers workers' : Fin n → WorkerPc T} (h : NotifyOne workers workers') (i : Fin n) :
    (workers' i).todo = (workers i).todo ∧ (workers' i).spawned spawns = (workers i).spawned spawns := by
  cases h with
  | wake j hj =>
    by_cases hij : i = j
    · subst hij
      rw [Function.update_self, hj]
      exact ⟨rfl, rfl⟩
    · rw [Function.update_of_ne hij]
      exact ⟨rfl, rfl⟩
  | nobody => exact ⟨rfl, rfl⟩

theorem SignalStep.accounted (h : SignalStep spawns s s') (ha : Accounted spawns total s) :
    Accounted spawns total s' := by
  have hsame (j : Fin n) : (s.workers j).todo = (s.workers j).todo ∧
      (s.workers j).spawned spawns = (s.workers j).spawned spawns := ⟨rfl, rfl⟩
  cases h with
  | @take i t rest hi h =>
    refine ha.setWorker hsame (fun _ => rfl) ?_
    rw [hi]
    change s.submitted + ↑(spawns t) + (_ + 0) = s.submitted + 0 + (_ + ↑(spawns t))
    ac_rfl
  | wait i hi hstop h => exact ha.setWorker hsame (fun _ => rfl) (by rw [hi]; rfl)
  | exit i hi hstop h => exact ha.setWorker hsame (fun _ => rfl) (by rw [hi]; rfl)
  | wake i hi => exact ha.setWorker hsame (fun _ => rfl) (by rw [hi]; rfl)
  | @submitFromTask i t u rest hi =>
    refine ha.setWorker hsame (fun _ => rfl) ?_
    rw [hi]
    change (u ::ₘ s.submitted) + ↑rest + _ = s.submitted + ↑(u :: rest) + _
    rw [← Multiset.cons_coe, Multiset.cons_add, Multiset.add_cons]
    rfl
  | signalFromTask i hi h => exact ha.setWorker h.todo_eq (fun _ => rfl) (by rw [hi]; rfl)
  | @ran i t hi =>
    refine ha.setWorker hsame (fun _ => rfl) ?_
    rw [hi, Multiset.cons_bind]
    change s.submitted + 0 + (_ + ↑(spawns t)) = s.submitted + 0 + (↑(spawns t) + _ + 0)
    ac_rfl
  | finish i hi =>
    refine ha.setWorker hsame (fun k => ?_) (by rw [hi]; rfl)
    rw [PoolState.finish_clients]
    split_ifs
    · cases s.clients k <;> rfl
    · rfl
  | @submit k t ops hk =>
    refine ha.setClient hsame rfl rfl ?_
    rw [hk]
    change (t ::ₘ s.submitted) + submits ops = s.submitted + (t ::ₘ submits ops)
    rw [Multiset.cons_add, Multiset.add_cons]
  | signal k hk h => exact ha.setClient h.todo_eq rfl rfl (by rw [hk]; rfl)
  | waitAll k hk => exact ha.setClient hsame rfl rfl (by rw [hk]; rfl)
  | waitAllReturns k hk h => exact ha.setClient hsame rfl rfl (by rw [hk]; rfl)
  | block k hk h => exact ha.setClient hsame rfl rfl (by rw [hk]; rfl)
  | unblock k hk => exact ha.setClient hsame rfl rfl (by rw [hk]; rfl)
  | destroy hu h => exact ha
  | notifyAll ho =>
    have htodo (i : Fin n) : (s.workers i).notify.todo = (s.workers i).todo := by cases s.workers i <;> rfl
    have hspawned (i : Fin n) : (s.workers i).notify.spawned spawns = (s.workers i).spawned spawns := by
      cases s.workers i <;> rfl
    simpa only [Accounted, htodo, hspawned] using ha
  | join hj h => exact ha

end Accounted

omit [DecidableEq κ] in
theorem accounted_init (programs : κ → List (Op T)) :
    Accounted spawns (∑ k, submits (programs k)) (PoolState.init n programs) := by
  simp [Accounted, PoolState.init, WorkerPc.todo, WorkerPc.spawned, ClientPc.todo]

theorem accounted_run (programs : κ → List (Op T))
    (hrun : Relation.ReflTransGen (SignalStep spawns) (PoolState.init n programs) s) :
    Accounted spawns (∑ k, submits (programs k)) s := by
  induction hrun with
  | refl => exact accounted_init programs
  | tail _ hs ih => exact hs.accounted ih

theorem exists_stuck (hspawns : WellFounded fun u t => u ∈ spawns t) (s : PoolState n κ T) :
    ∃ s', Relation.ReflTransGen (SignalStep spawns) s s' ∧ ¬∃ s'', SignalStep spawns s' s'' := by
  obtain ⟨q, hq⟩ := exists_cost hspawns (Fintype.card κ)
  induction hcost : s.cost q using Nat.strong_induction_on generalizing s with
  | _ c ih =>
    by_cases hstep : ∃ s', SignalStep spawns s s'
    · obtain ⟨s₁, hs₁⟩ := hstep
      obtain ⟨s', hrun, hstuck⟩ := ih _ (hcost ▸ hs₁.cost_lt hq) s₁ rfl
      exact ⟨s', .head hs₁ hrun, hstuck⟩
    · exact ⟨s, .refl, hstep⟩

/-- However the threads are scheduled, and though a wait ends by a notification only, a
pool with at least one worker does not run for ever, and where it can do nothing more it
has been destroyed, all calls have returned, and the tasks that have been run are, each
once, those that the clients submitted and those that the tasks submitted. -/
theorem threadPool_completes (hn : 0 < n) (hspawns : WellFounded fun u t => u ∈ spawns t)
    (programs : κ → List (Op T)) :
    (¬∃ f : Nat → PoolState n κ T, f 0 = .init n programs ∧ ∀ m, SignalStep spawns (f m) (f (m + 1))) ∧
    ∀ s, Relation.ReflTransGen (SignalStep spawns) (.init n programs) s → (¬∃ s', SignalStep spawns s s') →
      Complete s ∧ s.ran = (∑ k, submits (programs k)) + s.ran.bind fun t => ↑(spawns t) := by
  constructor
  · rintro ⟨f, -, hstep⟩
    obtain ⟨q, hq⟩ := exists_cost hspawns (Fintype.card κ)
    have hcost : ∀ m, (f m).cost q + m ≤ (f 0).cost q := by
      intro m
      induction m with
      | zero => exact le_rfl
      | succ m ih =>
        have hlt := (hstep m).cost_lt hq
        omega
    have hlast := hcost ((f 0).cost q + 1)
    omega
  · intro s hrun hstuck
    have hcomplete := (signalInv_run hn programs hrun).complete_of_stuck hstuck
    have haccounted := accounted_run programs hrun
    refine ⟨hcomplete, ?_⟩
    simpa [Accounted, hcomplete.clients, hcomplete.workers, hcomplete.ran, ClientPc.todo, WorkerPc.todo,
      WorkerPc.spawned, submits] using haccounted

theorem threadPool_completes_range :
    ∃ s : PoolState 1 (Fin 1) Nat,
      Relation.ReflTransGen (SignalStep List.range) (.init 1 fun _ => [.submit 2, .waitAll]) s ∧ Complete s ∧
      s.ran = {2} + s.ran.bind fun t => ↑(List.range t) := by
  have hspawns : WellFounded fun u t : Nat => u ∈ List.range t := by
    simp only [List.mem_range]
    exact Nat.lt_wfRel.wf
  obtain ⟨s, hrun, hstuck⟩ := exists_stuck hspawns (.init 1 fun _ : Fin 1 => [.submit 2, .waitAll])
  obtain ⟨hcomplete, hran⟩ := (threadPool_completes Nat.one_pos hspawns _).2 s hrun hstuck
  refine ⟨s, hrun, hcomplete, hran.trans ?_⟩
  rw [Fin.sum_univ_one]
  rfl

end MyDB.Executor.ThreadPool

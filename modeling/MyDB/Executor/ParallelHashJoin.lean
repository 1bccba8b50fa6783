import MyDB.Lib.ClaimLoop
import MyDB.Lib.Fallible
import MyDB.Concurrency.LockFreeHashTable
import MyDB.Executor.Operator

/-! The workers of `ParallelHashJoin::Init`. In the build phase each takes the next
left tuple and inserts it into the lock-free table; once all have stopped, in the
probe phase each takes the next right tuple and looks up its key. The table is
only read then, so a lookup is one step. -/

namespace MyDB.Executor.ParallelHashJoin
open MyDB.Lib MyDB.Lib.ClaimLoop MyDB.Concurrency MyDB.Concurrency.LockFreeHashTable
variable {V W T : Type} {bucketCount : Nat} [NeZero bucketCount]

/-- Where a worker of the build phase stands with a tuple. -/
inductive BuildPc (V : Type) where
  | eval (t : V)
  | insert (pc : InsertPc V)
  | fault (e : Fault)

inductive BuildStep (key : V → Except Fault Int) : LockFreeHashTable V bucketCount → Unit → BuildPc V →
    LockFreeHashTable V bucketCount → Unit → Option (BuildPc V) → Prop
  | eval (table : LockFreeHashTable V bucketCount) {t : V} {k : Int} (h : key t = .ok k) :
      BuildStep key table () (.eval t) table () (some (.insert (.new k t)))
  | fault (table : LockFreeHashTable V bucketCount) {t : V} {e : Fault} (h : key t = .error e) :
      BuildStep key table () (.eval t) table () (some (.fault e.inWorker))
  | insert {table table' : LockFreeHashTable V bucketCount} {pc : InsertPc V} {pc' : Option (InsertPc V)}
      (h : InsertStep table pc table' pc') :
      BuildStep key table () (.insert pc) table' () (pc'.map .insert)

def buildTask (key : V → Except Fault Int) : Task V (LockFreeHashTable V bucketCount) Unit (BuildPc V) :=
  ⟨.eval, BuildStep key⟩

/-- Where a worker of the probe phase stands with a tuple. -/
inductive ProbePc (W : Type) where
  | probe (t : W)
  | fault (e : Fault)

inductive ProbeStep (table : LockFreeHashTable V bucketCount) (key : W → Except Fault Int)
    (concat : V → W → Except Fault T) : Unit → List T → ProbePc W → Unit → List T → Option (ProbePc W) → Prop
  | probe (out : List T) {t : W} {k : Int} {found : List V} {ts : List T} (hkey : key t = .ok k)
      (hfound : table.lookup k = some found) (hts : found.mapM (concat · t) = .ok ts) :
      ProbeStep table key concat () out (.probe t) () (out ++ ts) none
  | keyFault (out : List T) {t : W} {e : Fault} (h : key t = .error e) :
      ProbeStep table key concat () out (.probe t) () out (some (.fault e.inWorker))
  | concatFault (out : List T) {t : W} {k : Int} {found : List V} {e : Fault} (hkey : key t = .ok k)
      (hfound : table.lookup k = some found) (h : found.mapM (concat · t) = .error e) :
      ProbeStep table key concat () out (.probe t) () out (some (.fault e.inWorker))

def probeTask (table : LockFreeHashTable V bucketCount) (key : W → Except Fault Int)
    (concat : V → W → Except Fault T) : Task W Unit (List T) (ProbePc W) :=
  ⟨.probe, ProbeStep table key concat⟩

/-! ## The build phase -/

def BuildPc.insertPc : BuildPc V → Option (InsertPc V)
  | .insert pc => some pc
  | .eval _ | .fault _ => none

def BuildPc.entry (key : V → Int) : BuildPc V → Multiset (Int × V)
  | .eval t => {(key t, t)}
  | .insert pc => {pc.entry}
  | .fault _ => 0

def BuildPc.Sound (key : V → Except Fault Int) (keyOf : V → Int) : BuildPc V → Prop
  | .eval t => key t = .ok (keyOf t)
  | .insert _ => True
  | .fault _ => False

section Build
variable {ι : Type} {key : V → Except Fault Int} {keyOf : V → Int}

def inserts (pcs : ι → Option (BuildPc V)) : ι → Option (InsertPc V) :=
  fun i => (pcs i).bind BuildPc.insertPc

structure BuildInv (key : V → Except Fault Int) (keyOf : V → Int) (table : LockFreeHashTable V bucketCount)
    (pcs : ι → Option (BuildPc V)) (m : Multiset (Int × V)) : Prop where
  table : ∃ chains, TableInv table chains (inserts pcs) ∧ contents chains = m
  sound : ∀ i p, pcs i = some p → p.Sound key keyOf

theorem buildInv_empty (key : V → Except Fault Int) (keyOf : V → Int) :
    BuildInv key keyOf (empty : LockFreeHashTable V bucketCount) (fun _ : ι => none) 0 :=
  ⟨⟨fun _ => [], tableInv_empty, Finset.sum_eq_zero fun _ _ => rfl⟩, fun _ _ h => by cases h⟩

variable [DecidableEq ι]

theorem inserts_update (pcs : ι → Option (BuildPc V)) (i : ι) (p : Option (BuildPc V)) :
    inserts (Function.update pcs i p) = Function.update (inserts pcs) i (p.bind BuildPc.insertPc) :=
  Function.comp_update (fun p : Option (BuildPc V) => p.bind BuildPc.insertPc) pcs i p

theorem sound_update {pcs : ι → Option (BuildPc V)}
    (h : ∀ i p, pcs i = some p → p.Sound key keyOf) {i : ι} {p' : Option (BuildPc V)}
    (hp : ∀ p, p' = some p → p.Sound key keyOf) (j : ι) (p : BuildPc V)
    (hj : Function.update pcs i p' j = some p) : p.Sound key keyOf := by
  by_cases hji : j = i
  · rw [hji, Function.update_self] at hj
    exact hp p hj
  · rw [Function.update_of_ne hji] at hj
    exact h j p hj

theorem buildAccounts {left : List V} (hkey : ∀ t ∈ left, key t = .ok (keyOf t)) :
    Accounts (buildTask key : Task V (LockFreeHashTable V bucketCount) Unit (BuildPc V)) left
      (fun t => {(keyOf t, t)}) (fun _ => 0) (BuildPc.entry keyOf)
      (fun _ => (BuildInv key keyOf : _ → (ι → Option (BuildPc V)) → _ → Prop)) where
  finish := fun _ _ _ _ _ h => h
  start := by
    rintro _ table pcs m i t ht ⟨⟨chains, hinv, hm⟩, hsound⟩ hi
    refine ⟨⟨⟨chains, ?_, hm⟩, sound_update hsound fun p hp => ?_⟩, rfl⟩
    · have hnone : inserts pcs i = none := by
        rw [inserts, hi]
        rfl
      rw [inserts_update]
      change TableInv table chains (Function.update (inserts pcs) i none)
      rw [← hnone, Function.update_eq_self]
      exact hinv
    · cases hp
      exact hkey t (List.mem_of_getElem? ht)
  step := by
    rintro _ table pcs m i _ p table' _ p' ⟨⟨chains, hinv, hm⟩, hsound⟩ hi hs
    cases hs with
    | @eval t k hk =>
      refine ⟨m, ⟨⟨chains, ?_, hm⟩, sound_update hsound fun p hp => ?_⟩, ?_⟩
      · rw [inserts_update]
        exact hinv.begin k t
      · cases hp
        exact trivial
      · have hsame : k = keyOf t := Except.ok.inj (hk.symm.trans (hsound i _ hi))
        rw [hsame]
        rfl
    | @fault t e he =>
      have hok := (hsound i _ hi).symm.trans he
      cases hok
    | @insert _ pc pc' hs =>
      have hpc : inserts pcs i = some pc := by
        rw [inserts, hi]
        rfl
      obtain ⟨chains', hinv', hcontents⟩ := hinv.step hpc hs
      refine ⟨contents chains', ⟨⟨chains', ?_, rfl⟩, sound_update hsound fun p hp => ?_⟩, ?_⟩
      · rw [inserts_update]
        cases pc' <;> exact hinv'
      · obtain ⟨pc₁, -, rfl⟩ := Option.map_eq_some_iff.mp hp
        exact trivial
      · rw [← hm]
        change contents chains' + (0 + _) = contents chains + (0 + {pc.entry})
        rw [zero_add, zero_add]
        cases pc' <;> exact hcontents

theorem lookup_after_build [Fintype ι] [Nonempty ι] {left : List V}
    (hkey : ∀ t ∈ left, key t = .ok (keyOf t))
    {c : Threads ι (Shared (LockFreeHashTable V bucketCount)) (Worker Unit (BuildPc V))}
    (hrun : Threads.Run (Step (buildTask key) left) (start empty ()) c)
    (hdone : ∀ i, (c.locals i).pc = .done) (k : Int) :
    ∃ found, c.shared.state.lookup k = some found ∧ found.Perm (left.filter fun t => keyOf t = k) := by
  obtain ⟨m, hacc⟩ := accounted_run (buildAccounts hkey) (buildInv_empty key keyOf) rfl hrun
  obtain ⟨chains, hinv, hm⟩ := hacc.inv.table
  have htotal := hacc.done hdone
  obtain ⟨found, hfound, hvalues⟩ := hinv.lookup k
  refine ⟨found, hfound, Multiset.coe_eq_coe.mp ?_⟩
  have hcontents : contents chains = (left.map fun t => (keyOf t, t) : List (Int × V)) := by
    rw [Finset.sum_const_zero, add_zero] at htotal
    rw [hm, htotal]
    exact (sum_map_coe left fun t => [(keyOf t, t)]).trans (by rw [← List.map_eq_flatMap])
  rw [hvalues, hcontents, Multiset.filter_coe, Multiset.map_coe, List.filter_map, List.map_map]
  simp [Function.comp_def]

theorem insert_finishes (key : V → Except Fault Int) (table : LockFreeHashTable V bucketCount) (pc : InsertPc V) :
    ∃ table', (buildTask key).Finishes table () (.insert pc) table' () := by
  have hstore (table : LockFreeHashTable V bucketCount) (k : Int) (v : V) (node : Nat) :
      ∃ table', (buildTask key).Finishes table ()
        (.insert (.store k v node (table.buckets (hash bucketCount k)))) table' () := by
    let head := table.buckets (hash bucketCount k)
    have hlink := InsertStep.exchange (t := table.setNext node head) k v node head rfl
    exact ⟨_, .more (.insert (.store k v node head)) (.last (BuildStep.insert hlink))⟩
  have hload (table : LockFreeHashTable V bucketCount) (k : Int) (v : V) (node : Nat) :
      ∃ table', (buildTask key).Finishes table () (.insert (.load k v node)) table' () :=
    (hstore table k v node).imp fun _ h => .more (.insert (.load k v node)) h
  have hexchange (table : LockFreeHashTable V bucketCount) (k : Int) (v : V) (node : Nat) (head : Option Nat) :
      ∃ table', (buildTask key).Finishes table () (.insert (.exchange k v node head)) table' () :=
    (hstore table k v node).imp fun _ h => .more (.insert (.exchangeFail k v node head)) h
  cases pc with
  | new k v => exact (hload _ k v _).imp fun _ h => .more (.insert (.new k v)) h
  | load k v node => exact hload table k v node
  | store k v node head => exact (hexchange _ k v node head).imp fun _ h => .more (.insert (.store k v node head)) h
  | exchange k v node head => exact hexchange table k v node head

theorem build_completes [Fintype ι] {left : List V} (hkey : ∀ t ∈ left, key t = .ok (keyOf t))
    {c : Threads ι (Shared (LockFreeHashTable V bucketCount)) (Worker Unit (BuildPc V))}
    (hrun : Threads.Run (Step (buildTask key) left) (start empty ()) c) :
    ∃ c', Threads.Run (Step (buildTask key) left) c c' ∧ ∀ i, (c'.locals i).pc = .done := by
  refine Threads.Run.all_done (fun w => w.pc = .done) (run_alone ?_) hrun
  intro c hc i _ p hi
  obtain ⟨m, hacc⟩ := accounted_run (buildAccounts hkey) (buildInv_empty key keyOf) rfl hc
  have hsound : p.Sound key keyOf := hacc.inv.sound i p (by rw [busy, hi]; rfl)
  cases p with
  | eval t =>
    obtain ⟨table', h⟩ := insert_finishes key c.shared.state (.new (keyOf t) t)
    exact ⟨table', (), .more (.eval _ hsound) h⟩
  | insert pc =>
    obtain ⟨table', h⟩ := insert_finishes key c.shared.state pc
    exact ⟨table', (), h⟩
  | fault e => exact hsound.elim

end Build

/-! ## The probe phase -/

def joinWith (left : List V) (keyL : V → Int) (keyR : W → Int) (cat : V → W → T) (r : W) : List T :=
  (left.filter fun l => keyL l = keyR r).map (cat · r)

structure ProbeReady (table : LockFreeHashTable V bucketCount) (left : List V) (right : List W)
    (keyL : V → Int) (key : W → Except Fault Int) (keyR : W → Int) (concat : V → W → Except Fault T)
    (cat : V → W → T) : Prop where
  lookup : ∀ k, ∃ found, table.lookup k = some found ∧ found.Perm (left.filter fun l => keyL l = k)
  key_ok : ∀ r ∈ right, key r = .ok (keyR r)
  concat_ok : ∀ l ∈ left, ∀ r ∈ right, concat l r = .ok (cat l r)

section Probe
variable {ι : Type} {table : LockFreeHashTable V bucketCount} {left : List V} {right : List W}
  {keyL : V → Int} {key : W → Except Fault Int} {keyR : W → Int} {concat : V → W → Except Fault T}
  {cat : V → W → T}

theorem ProbeReady.found (h : ProbeReady table left right keyL key keyR concat cat) {r : W} (hr : r ∈ right) :
    ∃ found ts, table.lookup (keyR r) = some found ∧ found.mapM (concat · r) = .ok ts ∧
      ts.Perm (joinWith left keyL keyR cat r) := by
  obtain ⟨found, hfound, hperm⟩ := h.lookup (keyR r)
  refine ⟨found, found.map (cat · r), hfound, mapM_of_ok fun l hl => ?_, hperm.map _⟩
  exact h.concat_ok l (List.mem_of_mem_filter (hperm.subset hl)) r hr

def ProbePc.share (left : List V) (keyL : V → Int) (keyR : W → Int) (cat : V → W → T) :
    ProbePc W → Multiset T
  | .probe r => joinWith left keyL keyR cat r
  | .fault _ => 0

def ProbePc.Sound (right : List W) : ProbePc W → Prop
  | .probe r => r ∈ right
  | .fault _ => False

def ProbeInv (right : List W) (_ : Unit) (pcs : ι → Option (ProbePc W)) (m : Multiset T) : Prop :=
  m = 0 ∧ ∀ i p, pcs i = some p → p.Sound right

variable [DecidableEq ι]

theorem probeAccounts (h : ProbeReady table left right keyL key keyR concat cat) :
    Accounts (probeTask table key concat) right (fun r => (joinWith left keyL keyR cat r : Multiset T))
      (fun out => (out : Multiset T)) (ProbePc.share left keyL keyR cat)
      (fun _ => (ProbeInv right : _ → (ι → Option (ProbePc W)) → Multiset T → Prop)) where
  finish := fun _ _ _ _ _ h => h
  start := by
    rintro _ _ pcs m i r hr ⟨hm, hsound⟩ -
    refine ⟨⟨hm, fun j p hj => ?_⟩, rfl⟩
    by_cases hji : j = i
    · rw [hji, Function.update_self] at hj
      cases hj
      exact List.mem_of_getElem? hr
    · rw [Function.update_of_ne hji] at hj
      exact hsound j p hj
  step := by
    rintro _ _ pcs m i out p _ out' p' ⟨hm, hsound⟩ hi hs
    have hp := hsound i p hi
    cases hs with
    | @probe _ r k found ts hkey hfound hts =>
      obtain ⟨found', ts', hfound', hts', hperm⟩ := h.found hp
      obtain rfl : k = keyR r := Except.ok.inj (hkey.symm.trans (h.key_ok r hp))
      obtain rfl : found = found' := Option.some.inj (hfound.symm.trans hfound')
      obtain rfl : ts = ts' := Except.ok.inj (hts.symm.trans hts')
      refine ⟨m, ⟨hm, fun j p hj => ?_⟩, ?_⟩
      · by_cases hji : j = i
        · rw [hji, Function.update_self] at hj
          cases hj
        · rw [Function.update_of_ne hji] at hj
          exact hsound j p hj
      · have hts : (ts : Multiset T) = joinWith left keyL keyR cat r := Multiset.coe_eq_coe.mpr hperm
        change m + (((out ++ ts : List T) : Multiset T) + 0) = m + ((out : Multiset T) + joinWith left keyL keyR cat r)
        rw [add_zero, ← Multiset.coe_add, hts]
    | @keyFault _ r e he =>
      have hok := (h.key_ok r hp).symm.trans he
      cases hok
    | @concatFault _ r k found e hkey hfound he =>
      obtain ⟨found', ts', hfound', hts', -⟩ := h.found hp
      obtain rfl : k = keyR r := Except.ok.inj (hkey.symm.trans (h.key_ok r hp))
      obtain rfl : found = found' := Option.some.inj (hfound.symm.trans hfound')
      have hok := hts'.symm.trans he
      cases hok

theorem probe_run [Fintype ι] (h : ProbeReady table left right keyL key keyR concat cat)
    {c : Threads ι (Shared Unit) (Worker (List T) (ProbePc W))}
    (hrun : Threads.Run (Step (probeTask table key concat) right) (start () []) c) :
    ∃ m, Accounted right (fun r => (joinWith left keyL keyR cat r : Multiset T))
      (fun out : List T => (out : Multiset T)) (ProbePc.share left keyL keyR cat) (fun _ => ProbeInv right) c m :=
  accounted_run (probeAccounts h) ⟨rfl, fun _ _ e => by cases e⟩ rfl hrun

theorem probe_completes [Fintype ι] (h : ProbeReady table left right keyL key keyR concat cat)
    {c : Threads ι (Shared Unit) (Worker (List T) (ProbePc W))}
    (hrun : Threads.Run (Step (probeTask table key concat) right) (start () []) c) :
    ∃ c', Threads.Run (Step (probeTask table key concat) right) c c' ∧ ∀ i, (c'.locals i).pc = .done := by
  refine Threads.Run.all_done (fun w => w.pc = .done) (run_alone ?_) hrun
  intro c hc i out p hi
  obtain ⟨m, hacc⟩ := probe_run h hc
  have hsound : p.Sound right := hacc.inv.2 i p (by rw [busy, hi]; rfl)
  cases p with
  | probe r =>
    obtain ⟨found, ts, hfound, hts, -⟩ := h.found hsound
    exact ⟨(), out ++ ts, .last (.probe out (h.key_ok r hsound) hfound hts)⟩
  | fault e => exact hsound.elim

end Probe

/-! ## The outcome of both phases -/

/-- `out` is what `n` workers can leave in `output_buffer_`. -/
def Outcome (n bucketCount : Nat) [NeZero bucketCount] (left : List V) (keyL : V → Except Fault Int)
    (right : List W) (keyR : W → Except Fault Int) (concat : V → W → Except Fault T) (out : List T) : Prop :=
  ∃ (built : Threads (Fin n) (Shared (LockFreeHashTable V bucketCount)) (Worker Unit (BuildPc V)))
    (probed : Threads (Fin n) (Shared Unit) (Worker (List T) (ProbePc W))),
    Threads.Run (Step (buildTask keyL) left) (start empty ()) built ∧ (∀ i, (built.locals i).pc = .done) ∧
    Threads.Run (Step (probeTask built.shared.state keyR concat) right) (start () []) probed ∧
    (∀ i, (probed.locals i).pc = .done) ∧ out = merged probed

section Outcome
variable {n : Nat} [NeZero n] {left : List V} {keyL : V → Except Fault Int} {kl : V → Int} {right : List W}
  {keyR : W → Except Fault Int} {kr : W → Int} {concat : V → W → Except Fault T} {cat : V → W → T}

theorem probeReady {built : Threads (Fin n) (Shared (LockFreeHashTable V bucketCount)) (Worker Unit (BuildPc V))}
    (hl : ∀ l ∈ left, keyL l = .ok (kl l)) (hr : ∀ r ∈ right, keyR r = .ok (kr r))
    (hcat : ∀ l ∈ left, ∀ r ∈ right, concat l r = .ok (cat l r))
    (hrun : Threads.Run (Step (buildTask keyL) left) (start empty ()) built)
    (hdone : ∀ i, (built.locals i).pc = .done) :
    ProbeReady built.shared.state left right kl keyR kr concat cat :=
  ⟨lookup_after_build hl hrun hdone, hr, hcat⟩

theorem Outcome.perm (hl : ∀ l ∈ left, keyL l = .ok (kl l)) (hr : ∀ r ∈ right, keyR r = .ok (kr r))
    (hcat : ∀ l ∈ left, ∀ r ∈ right, concat l r = .ok (cat l r)) {out : List T}
    (h : Outcome n bucketCount left keyL right keyR concat out) :
    out.Perm (right.flatMap (joinWith left kl kr cat)) := by
  obtain ⟨built, probed, hbuilt, hbdone, hprobed, hpdone, rfl⟩ := h
  obtain ⟨m, hacc⟩ := probe_run (probeReady hl hr hcat hbuilt hbdone) hprobed
  have htotal := hacc.done hpdone
  rw [hacc.inv.1, zero_add, sum_map_coe, ← coe_merged] at htotal
  exact Multiset.coe_eq_coe.mp htotal

theorem Outcome.exists (hl : ∀ l ∈ left, keyL l = .ok (kl l)) (hr : ∀ r ∈ right, keyR r = .ok (kr r))
    (hcat : ∀ l ∈ left, ∀ r ∈ right, concat l r = .ok (cat l r)) :
    ∃ out, Outcome n bucketCount left keyL right keyR concat out := by
  let c₀ : Threads (Fin n) (Shared (LockFreeHashTable V bucketCount)) (Worker Unit (BuildPc V)) := start empty ()
  obtain ⟨built, hbuilt, hbdone⟩ := build_completes (c := c₀) hl .refl
  obtain ⟨probed, hprobed, hpdone⟩ := probe_completes (ι := Fin n) (probeReady hl hr hcat hbuilt hbdone) .refl
  exact ⟨_, built, probed, hbuilt, hbdone, hprobed, hpdone, rfl⟩

end Outcome

/-! ## The operator -/

/-- `EvalExpr(key, t, schema).AsInt()`. -/
def intKey (key : Parser.Expr) (schema : Schema) (t : Tuple) : Except Fault Int :=
  return (← evalExpr key t schema).asInt

theorem intKey_of_int {key : Parser.Expr} {schema : Schema} {t : Tuple} {k : Int}
    (h : evalExpr key t schema = .ok (.int k)) : intKey key schema t = .ok k := by
  rw [intKey, h]
  rfl

/-- For all tuples of the children whose keys are integers, any number of threads and
of buckets: no schedule of the build or of the probe workers is a dead end, and
whatever the schedule, draining `Next` gives the concatenation of each left and
right tuple with equal keys, once. -/
theorem parallelHashJoin_rows {n bucketCount : Nat} [NeZero n] [NeZero bucketCount]
    (leftKey rightKey : Parser.Expr) (ls rs : Schema) (left right : List Tuple) (kl kr : Tuple → Int)
    (hl : ∀ l ∈ left, l.length = ls.tupleSize ∧ evalExpr leftKey l ls = .ok (.int (kl l)))
    (hr : ∀ r ∈ right, r.length = rs.tupleSize ∧ evalExpr rightKey r rs = .ok (.int (kr r))) :
    (∀ built : Threads (Fin n) (Shared (LockFreeHashTable Tuple bucketCount)) (Worker Unit (BuildPc Tuple)),
      Threads.Run (Step (buildTask (intKey leftKey ls)) left) (start empty ()) built →
      (∃ built', Threads.Run (Step (buildTask (intKey leftKey ls)) left) built built' ∧
        ∀ i, (built'.locals i).pc = .done) ∧
      ((∀ i, (built.locals i).pc = .done) →
        ∀ probed : Threads (Fin n) (Shared Unit) (Worker (List Tuple) (ProbePc Tuple)),
        Threads.Run (Step (probeTask built.shared.state (intKey rightKey rs) (concat · · ls rs)) right)
          (start () []) probed →
        ∃ probed', Threads.Run (Step (probeTask built.shared.state (intKey rightKey rs) (concat · · ls rs)) right)
          probed probed' ∧ ∀ i, (probed'.locals i).pc = .done)) ∧
    ∀ out, Outcome n bucketCount left (intKey leftKey ls) right (intKey rightKey rs) (concat · · ls rs) out →
      ∃ rows, Yields Buffer.next ⟨out, 0⟩ rows ∧
        rows.Perm (right.flatMap fun r => (left.filter fun l => kl l = kr r).map fun l => l ++ r) := by
  have hkl : ∀ l ∈ left, intKey leftKey ls l = .ok (kl l) := fun l h => intKey_of_int (hl l h).2
  have hkr : ∀ r ∈ right, intKey rightKey rs r = .ok (kr r) := fun r h => intKey_of_int (hr r h).2
  have hcat : ∀ l ∈ left, ∀ r ∈ right, concat l r ls rs = .ok (l ++ r) :=
    fun l h r h' => concat_of_length (hl l h).1 (hr r h').1
  refine ⟨fun built hbuilt => ⟨build_completes hkl hbuilt, fun hdone probed hprobed => ?_⟩, fun out hout => ?_⟩
  · exact probe_completes (probeReady hkl hkr hcat hbuilt hdone) hprobed
  · exact ⟨out, Buffer.yields_drop out 0, hout.perm hkl hkr hcat⟩

theorem parallelHashJoin_rows_duplicate :
    let schema : Schema := ⟨[⟨lit "k", .int⟩]⟩
    let key : Parser.Expr := .columnRef [] (lit "k")
    let t : Tuple := [1, 0, 0, 0]
    ∃ out, Outcome 2 1 [t, t] (intKey key schema) [t] (intKey key schema) (concat · · schema schema) out ∧
      ∃ rows, Yields Buffer.next ⟨out, 0⟩ rows ∧ rows.Perm [t ++ t, t ++ t] := by
  intro schema key t
  have ht : t.length = schema.tupleSize ∧ evalExpr key t schema = .ok (.int 1) := by decide +kernel
  have hleft : ∀ l ∈ [t, t], l.length = schema.tupleSize ∧ evalExpr key l schema = .ok (.int 1) := by
    intro l hl
    obtain rfl : l = t := by simpa using hl
    exact ht
  have hright : ∀ r ∈ [t], r.length = schema.tupleSize ∧ evalExpr key r schema = .ok (.int 1) := by
    intro r hr
    exact List.mem_singleton.mp hr ▸ ht
  have hkl : ∀ l ∈ [t, t], intKey key schema l = .ok 1 := fun l h => intKey_of_int (hleft l h).2
  have hkr : ∀ r ∈ [t], intKey key schema r = .ok 1 := fun r h => intKey_of_int (hright r h).2
  have hcat : ∀ l ∈ [t, t], ∀ r ∈ [t], concat l r schema schema = .ok (l ++ r) :=
    fun l h r h' => concat_of_length (hleft l h).1 (hright r h').1
  obtain ⟨out, hout⟩ : ∃ out, Outcome 2 1 [t, t] (intKey key schema) [t] (intKey key schema)
      (concat · · schema schema) out := Outcome.exists hkl hkr hcat
  exact ⟨out, hout, (parallelHashJoin_rows key key schema schema [t, t] [t] (fun _ => 1) (fun _ => 1)
    hleft hright).2 out hout⟩

end MyDB.Executor.ParallelHashJoin

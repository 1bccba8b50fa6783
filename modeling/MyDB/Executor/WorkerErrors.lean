import MyDB.Executor.JoinedRows
import MyDB.Executor.ParallelHashJoin
import MyDB.Executor.ParallelSort
import MyDB.Executor.TaskErrors
import MyDB.Lib.PartialTasks

/-! Errors in the tasks of `ParallelHashJoin::Init` and `ParallelSort::Init`. The tasks
evaluate expressions, which throw where a column is not found or found twice. -/

namespace MyDB.Executor.ParallelHashJoin
open MyDB.Lib MyDB.Lib.ClaimLoop MyDB.Concurrency MyDB.Concurrency.LockFreeHashTable ThreadPool
variable {A S O P V W T : Type} {n bucketCount : Nat}

/-! ## Tasks that claim items -/

/-- The loop of a task that claims items, where a point of an item may throw. -/
def claimBody (task : Task A S O P) (items : List A) (raises : P → Option Fault) :
    Body (ClaimLoop.Shared S) (Worker O P) where
  step := ClaimLoop.Step task items
  finished w := w.pc = .done
  raises w := w.pc.current.bind raises
  not_raises w h := by
    rw [h]
    rfl
  not_step s w s' w' h hs := by
    cases hs <;> cases h

section claims
variable {task : Task A S O P} {items : List A} {raises : P → Option Fault} {Sound : P → Prop} {e : Fault}

theorem claimBody_safe :
    (claimBody task items raises).Safe = ClaimLoop.Step (task.restrict fun p => raises p = none) items := by
  funext s w s' w'
  apply propext
  constructor
  · rintro ⟨hraises, hs⟩
    refine Step.restrict hs fun p hp => ?_
    change w.pc.current.bind raises = none at hraises
    rwa [hp] at hraises
  · intro h
    refine ⟨?_, Step.of_restrict h⟩
    cases h with
    | finish => rfl
    | claim => rfl
    | work h => exact h.1

theorem raises_of_escapes (hclosed : Closed task items (fun p => raises p = none) Sound) {st : S} {o : O}
    (h : Escapes n (claimBody task items raises) (List.finRange n) (ClaimLoop.start st o) e) :
    ∃ p, Sound p ∧ raises p = some e := by
  obtain ⟨c, i, t, hrun, -, hc⟩ := h
  have hmemory := memory_run hrun
  rw [claimBody_safe] at hmemory
  have hraises : (c.shared.memory.locals t).pc.current.bind raises = some e := hc.raises
  -- between two items there is nothing that throws
  cases hpc : (c.shared.memory.locals t).pc with
  | busy p =>
    rw [hpc] at hraises
    exact ⟨p, hclosed.run hmemory t p hpc, hraises⟩
  | claim =>
    rw [hpc] at hraises
    cases hraises
  | done =>
    rw [hpc] at hraises
    cases hraises

theorem escapes_of_item (hn : 0 < n) {k : Nat} {a : A} (hk : items[k]? = some a)
    (hraises : raises (task.start a) = some e)
    (hbefore : ∀ b ∈ items.take k, ∀ st o, ∃ st' o',
      (task.restrict fun p => raises p = none).Finishes st o (task.start b) st' o') (st : S) (o : O) :
    Escapes n (claimBody task items raises) (List.finRange n) (ClaimLoop.start st o) e := by
  -- one worker takes all items up to this one
  obtain ⟨m, hrun, hpc⟩ := reaches hk hbefore st o (⟨0, hn⟩ : Fin n)
  rw [← claimBody_safe] at hrun
  refine escapes_of_run hrun (t := ⟨0, hn⟩) ?_
  change (m.locals ⟨0, hn⟩).pc.current.bind raises = some e
  rw [hpc]
  exact hraises

theorem run_of_leaves [NeZero n] {m m' : Threads (Fin n) (ClaimLoop.Shared S) (Worker O P)}
    (h : Leaves n (claimBody task items raises) (List.finRange n) m m') :
    Threads.Run (ClaimLoop.Step task items) m m' ∧ ∀ i, (m'.locals i).pc = .done := by
  obtain ⟨hrun, hdone⟩ := h.finished (Nat.pos_of_neZero n)
  rw [claimBody_safe] at hrun
  exact ⟨run_of_restrict hrun, fun i => hdone i (List.mem_finRange i)⟩

theorem raises_of_leaves [NeZero n] {a : A} (ha : a ∈ items) {st : S} {o : O}
    {m : Threads (Fin n) (ClaimLoop.Shared S) (Worker O P)}
    (h : Leaves n (claimBody task items raises) (List.finRange n) (ClaimLoop.start st o) m) :
    raises (task.start a) = none := by
  obtain ⟨hrun, hdone⟩ := h.finished (Nat.pos_of_neZero n)
  rw [claimBody_safe] at hrun
  obtain ⟨k, hk⟩ := List.getElem?_of_mem ha
  by_contra hraises
  obtain ⟨i, hi⟩ := stuck hk hraises hrun
  exact hi (hdone i (List.mem_finRange i))

end claims

/-! ## The build phase -/

abbrev BuildState (n bucketCount : Nat) (V : Type) :=
  Threads (Fin n) (ClaimLoop.Shared (LockFreeHashTable V bucketCount)) (Worker Unit (BuildPc V))

section build
variable [NeZero bucketCount] {key : V → Except Fault Int} {left : List V} {e : Fault}

def buildRaises (key : V → Except Fault Int) : BuildPc V → Option Fault
  | .eval t => errorOf (key t)
  | .insert _ | .fault _ => none

def buildBody (key : V → Except Fault Int) (left : List V) :
    Body (ClaimLoop.Shared (LockFreeHashTable V bucketCount)) (Worker Unit (BuildPc V)) :=
  claimBody (buildTask key) left (buildRaises key)

def BuildPc.From (left : List V) : BuildPc V → Prop
  | .eval t => t ∈ left
  | .insert _ => True
  | .fault _ => False

theorem build_closed (key : V → Except Fault Int) (left : List V) :
    Closed (buildTask key : Task V (LockFreeHashTable V bucketCount) Unit (BuildPc V)) left
      (fun p => buildRaises key p = none) (BuildPc.From left) where
  first t ht := ht
  next s o p s' o' p' hp hsafe hs := by
    generalize hq : some p' = q at hs
    cases hs with
    | eval h =>
      cases hq
      trivial
    | fault he => cases hsafe.symm.trans (errorOf_eq_some.mpr he)
    | insert h =>
      obtain ⟨pc', -, rfl⟩ := Option.map_eq_some_iff.mp hq.symm
      trivial

theorem buildRaises_of_ok (hkey : ∀ t ∈ left, ∃ k, key t = .ok k) (p : BuildPc V) (hp : p.From left) :
    buildRaises key p = none := by
  cases p with
  | eval t =>
    obtain ⟨k, hk⟩ := hkey t hp
    rw [buildRaises, hk]
    rfl
  | insert pc => rfl
  | fault e => rfl

theorem build_raises
    (h : Escapes n (buildBody key left) (List.finRange n)
      (ClaimLoop.start (empty : LockFreeHashTable V bucketCount) ()) e) :
    ∃ t ∈ left, key t = .error e := by
  obtain ⟨p, hp, he⟩ := raises_of_escapes (build_closed key left) h
  cases p with
  | eval t => exact ⟨t, hp, errorOf_eq_some.mp he⟩
  | insert pc => cases he
  | fault e => cases he

theorem build_escapes (table : LockFreeHashTable V bucketCount) (hn : 0 < n) (h : ¬ ∀ t ∈ left, ∃ k, key t = .ok k) :
    ∃ t ∈ left, ∃ e, key t = .error e ∧
      Escapes n (buildBody key left) (List.finRange n) (ClaimLoop.start table ()) e := by
  obtain ⟨i, t, e, hi, he, hbefore⟩ := exists_first_error h
  refine ⟨t, List.mem_of_getElem? hi, e, he, ?_⟩
  -- the tuples before it are linked into the table, each by its own `Insert`
  unfold buildBody
  refine escapes_of_item hn hi ?_ ?_ _ _
  · exact errorOf_eq_some.mpr he
  · intro b hb table _
    obtain ⟨k, hk⟩ := hbefore b hb
    obtain ⟨table', hinsert⟩ := insert_finishes key table (.new k b)
    exact ⟨table', (), Task.Finishes.restrict (build_closed key (left.take i)) (buildRaises_of_ok hbefore)
      (.more (.eval table hk) hinsert) hb⟩

theorem build_leaves [NeZero n] {keyOf : V → Int} (hkey : ∀ t ∈ left, key t = .ok (keyOf t)) :
    ∃ built, Leaves n (buildBody key left) (List.finRange n)
        (ClaimLoop.start (empty : LockFreeHashTable V bucketCount) ()) built := by
  let c₀ : BuildState n bucketCount V := ClaimLoop.start empty ()
  obtain ⟨built, hbuilt, hdone⟩ := build_completes (c := c₀) hkey .refl
  refine ⟨built, leaves_of_run (Nat.pos_of_neZero n) ?_ hdone⟩
  rw [buildBody, claimBody_safe]
  exact (build_closed key left).run_restrict (buildRaises_of_ok fun t ht => ⟨_, hkey t ht⟩) hbuilt

end build

/-! ## The probe phase -/

section probe
variable [NeZero bucketCount] {table : LockFreeHashTable V bucketCount} {key : W → Except Fault Int}
  {concat : V → W → Except Fault T} {left : List V} {right : List W} {e : Fault}

def probeRaises (table : LockFreeHashTable V bucketCount) (key : W → Except Fault Int) (concat : V → W → Except Fault T) :
    ProbePc W → Option Fault
  | .probe t =>
    match key t with
    | .error e => some e
    | .ok k => (table.lookup k).bind fun found => errorOf (found.mapM (concat · t))
  | .fault _ => none

def probeBody (table : LockFreeHashTable V bucketCount) (key : W → Except Fault Int) (concat : V → W → Except Fault T)
    (right : List W) : Body (ClaimLoop.Shared Unit) (Worker (List T) (ProbePc W)) :=
  claimBody (probeTask table key concat) right (probeRaises table key concat)

theorem probe_closed (table : LockFreeHashTable V bucketCount) (key : W → Except Fault Int)
    (concat : V → W → Except Fault T) (right : List W) :
    Closed (probeTask table key concat) right (fun p => probeRaises table key concat p = none) (ProbePc.Sound right) where
  first t ht := ht
  next s o p s' o' p' hp hsafe hs := by
    cases hs with
    | keyFault out he =>
      rw [probeRaises, he] at hsafe
      cases hsafe
    | concatFault out hkey hfound he =>
      rw [probeRaises, hkey] at hsafe
      change (table.lookup _).bind _ = none at hsafe
      rw [hfound] at hsafe
      cases hsafe.symm.trans (errorOf_eq_some.mpr he)

theorem probe_raises (h : Escapes n (probeBody table key concat right) (List.finRange n) (ClaimLoop.start () []) e) :
    ∃ t ∈ right, key t = .error e ∨ ∃ l, concat l t = .error e := by
  obtain ⟨p, hp, he⟩ := raises_of_escapes (probe_closed table key concat right) h
  cases p with
  | fault e => cases he
  | probe t =>
    refine ⟨t, hp, ?_⟩
    rw [probeRaises] at he
    cases hkey : key t with
    | error e' =>
      rw [hkey] at he
      cases he
      exact Or.inl rfl
    | ok k =>
      rw [hkey] at he
      obtain ⟨found, -, herror⟩ := Option.bind_eq_some_iff.mp he
      obtain ⟨l, -, hl⟩ := error_of_mapM (errorOf_eq_some.mp herror)
      exact Or.inr ⟨l, hl⟩

theorem probe_escapes (hn : 0 < n) (h : ¬ ∀ t ∈ right, ∃ k, key t = .ok k)
    (hlookup : ∀ k, ∃ found, table.lookup k = some found ∧ found ⊆ left)
    (hconcat : ∀ l ∈ left, ∀ r ∈ right, ∃ t, concat l r = .ok t) :
    ∃ t ∈ right, ∃ e, key t = .error e ∧
      Escapes n (probeBody table key concat right) (List.finRange n) (ClaimLoop.start () []) e := by
  obtain ⟨i, t, e, hi, he, hbefore⟩ := exists_first_error h
  refine ⟨t, List.mem_of_getElem? hi, e, he, ?_⟩
  unfold probeBody
  refine escapes_of_item hn hi ?_ ?_ _ _
  · show probeRaises table key concat (.probe t) = some e
    rw [probeRaises, he]
  · intro b hb _ out
    obtain ⟨k, hk⟩ := hbefore b hb
    obtain ⟨found, hfound, hsub⟩ := hlookup k
    obtain ⟨ts, hts⟩ := exists_mapM fun l hl => hconcat l (hsub hl) b (List.mem_of_mem_take hb)
    refine ⟨(), out ++ ts, .last ⟨?_, .probe out hk hfound hts⟩⟩
    show probeRaises table key concat (.probe b) = none
    rw [probeRaises, hk]
    show (table.lookup k).bind _ = none
    rw [hfound]
    show errorOf (found.mapM (concat · b)) = none
    rw [hts]
    rfl

end probe

/-! ## The join -/

section join
variable [NeZero bucketCount] {R : Type} {keyL : V → Except Fault Int} {keyR : W → Except Fault Int}
  {concat : V → W → Except Fault T} {left : List V} {right : List W}

/-- Both blocks of `Init` report what their tasks throw. What follows the first one is
`rest`; behind the second one the outputs of the workers are put together. -/
structure JoinReports (n : Nat) (keyL : V → Except Fault Int) (keyR : W → Except Fault Int)
    (concat : V → W → Except Fault T) (left : List V) (right : List W)
    (rest : BuildState n bucketCount V → Except Fault R) : Prop where
  build : Reports n (buildBody keyL left) (List.finRange n) (ClaimLoop.start empty ()) rest
  probe : ∀ built : BuildState n bucketCount V,
    Leaves n (buildBody keyL left) (List.finRange n) (ClaimLoop.start empty ()) built →
    Reports n (probeBody built.shared.state keyR concat right) (List.finRange n) (ClaimLoop.start () [])
      fun probed => (.ok (merged probed) : Except Fault (List T))

variable {rest : BuildState n bucketCount V → Except Fault R}

theorem JoinReports.left_ok (h : JoinReports n keyL keyR concat left right rest) (hn : 0 < n)
    (hl : ∀ t ∈ left, ∀ e, keyL t = .error e → e.IsException) : ∀ t ∈ left, ∃ k, keyL t = .ok k := by
  by_contra hfail
  obtain ⟨t, ht, e, he, hescapes⟩ := build_escapes (empty : LockFreeHashTable V bucketCount) hn hfail
  exact reports_iff.mp h.build e hescapes (hl t ht e he)

theorem JoinReports.right_ok [NeZero n] (h : JoinReports n keyL keyR concat left right rest)
    (hl : ∀ t ∈ left, ∃ k, keyL t = .ok k) (hr : ∀ t ∈ right, ∀ e, keyR t = .error e → e.IsException)
    (hconcat : ∀ l ∈ left, ∀ r ∈ right, ∃ t, concat l r = .ok t) : ∀ t ∈ right, ∃ k, keyR t = .ok k := by
  by_contra hfail
  -- a table as the first block leaves it, whatever the order of its chains
  choose! keyOf hkeyOf using hl
  obtain ⟨built, hbuilt⟩ : ∃ built, Leaves n (buildBody keyL left) (List.finRange n)
      (ClaimLoop.start (empty : LockFreeHashTable V bucketCount) ()) built := build_leaves hkeyOf
  obtain ⟨hrun, hdone⟩ := run_of_leaves hbuilt
  have hlookup (k : Int) : ∃ found, built.shared.state.lookup k = some found ∧ found ⊆ left := by
    obtain ⟨found, hfound, hperm⟩ := lookup_after_build hkeyOf hrun hdone k
    exact ⟨found, hfound, fun t ht => List.mem_of_mem_filter (hperm.subset ht)⟩
  obtain ⟨t, ht, e, he, hescapes⟩ := probe_escapes (Nat.pos_of_neZero n) hfail hlookup hconcat
  exact reports_iff.mp (h.probe built hbuilt) e hescapes (hr t ht e he)

theorem joinReports_iff (hl : ∀ t ∈ left, ∀ e, keyL t = .error e → e.IsException)
    (hr : ∀ t ∈ right, ∀ e, keyR t = .error e → e.IsException)
    (hconcat : ∀ l ∈ left, ∀ r ∈ right, ∃ t, concat l r = .ok t)
    (hfault : ∀ l r e, concat l r = .error e → ¬ e.IsException) :
    JoinReports n keyL keyR concat left right rest ↔
      n = 0 ∨ (∀ t ∈ left, ∃ k, keyL t = .ok k) ∧ ∀ t ∈ right, ∃ k, keyR t = .ok k := by
  constructor
  · intro h
    rcases Nat.eq_zero_or_pos n with hzero | hn
    · exact Or.inl hzero
    · have : NeZero n := .of_pos hn
      have hleft := h.left_ok hn hl
      exact Or.inr ⟨hleft, h.right_ok hleft hr hconcat⟩
  · rintro (rfl | ⟨hleft, hright⟩)
    · exact ⟨reports_iff.mpr fun e he => absurd he.pos (lt_irrefl 0),
        fun built _ => reports_iff.mpr fun e he => absurd he.pos (lt_irrefl 0)⟩
    · refine ⟨reports_iff.mpr fun e he => ?_, fun built _ => reports_iff.mpr fun e he => ?_⟩
      · obtain ⟨t, ht, herror⟩ := build_raises he
        obtain ⟨k, hk⟩ := hleft t ht
        cases hk.symm.trans herror
      · obtain ⟨t, ht, herror | ⟨l, herror⟩⟩ := probe_raises he
        · obtain ⟨k, hk⟩ := hright t ht
          cases hk.symm.trans herror
        · exact hfault l t e herror

theorem outcome_of_leaves [NeZero n] {built : BuildState n bucketCount V}
    {probed : Threads (Fin n) (ClaimLoop.Shared Unit) (Worker (List T) (ProbePc W))}
    (hbuilt : Leaves n (buildBody keyL left) (List.finRange n) (ClaimLoop.start empty ()) built)
    (hprobed : Leaves n (probeBody built.shared.state keyR concat right) (List.finRange n) (ClaimLoop.start () [])
      probed) :
    Outcome n bucketCount left keyL right keyR concat (merged probed) := by
  obtain ⟨hbuild, hbdone⟩ := run_of_leaves hbuilt
  obtain ⟨hprobe, hpdone⟩ := run_of_leaves hprobed
  exact ⟨built, probed, hbuild, hbdone, hprobe, hpdone, rfl⟩

end join

/-! ## The keys -/

section keys
variable {key : Parser.Expr} {schema : Schema} {t : Tuple} {ts : List Tuple} {e : Fault}

theorem intKey_reads : (∀ t ∈ ts, ∃ k, intKey key schema t = .ok k) ↔ Reads key schema ts := by
  refine forall₂_congr fun t _ => ?_
  constructor
  · rintro ⟨k, hk⟩
    obtain ⟨v, hv, -⟩ := bind_eq_ok.mp hk
    exact ⟨v, hv⟩
  · rintro ⟨v, hv⟩
    exact ⟨v.asInt, bind_eq_ok.mpr ⟨v, hv, rfl⟩⟩

theorem isException_of_intKey (ht : t.length = schema.tupleSize) (h : intKey key schema t = .error e) :
    e.IsException := by
  rcases bind_eq_error.mp h with heval | ⟨v, -, hpure⟩
  · obtain ⟨msg, rfl⟩ := evalExpr_error_of_length ht heval
    trivial
  · cases hpure

theorem not_isException_of_concat {l r : Tuple} {ls rs : Schema} (h : concat l r ls rs = .error e) : ¬ e.IsException := by
  rw [concat] at h
  split at h
  · cases h
  · cases h
    exact id

end keys

end MyDB.Executor.ParallelHashJoin

/-! ## The sort -/

namespace MyDB.Executor.MergeState
open MyDB.Lib MyDB.Parser ThreadPool
variable {std : Std} {less : Tuple → Tuple → Except Fault Bool} {all : List Tuple} {nThreads n : Nat} {e : Fault}

def sortSlice (std : Std) (less : Tuple → Tuple → Except Fault Bool) (all : List Tuple) (chunk i : Nat) :
    Except Fault (List Tuple) :=
  let start := i * chunk
  let stop := min (start + chunk) all.length
  if stop < start then throw .outOfBounds
  else std.sort less (slice all start (stop - start))

theorem sortPartition_eq_sortSlice (std : Std) (less : Tuple → Tuple → Except Fault Bool) (all : List Tuple)
    (chunk i : Nat) : sortPartition std less all chunk i = (sortSlice std less all chunk i).mapError Fault.inWorker := by
  unfold sortPartition sortSlice
  dsimp only
  split <;> rfl

/-- A task, or the element of `partitions_` that it has sorted. -/
inductive SortPc where
  | sort (i : Nat)
  | sorted (partition : List Tuple)

def SortPc.partition : SortPc → List Tuple
  | .sort _ => []
  | .sorted partition => partition

inductive SortStep (std : Std) (less : Tuple → Tuple → Except Fault Bool) (all : List Tuple) (chunk : Nat) :
    Unit → SortPc → Unit → SortPc → Prop
  | sort {i : Nat} {partition : List Tuple} (h : sortSlice std less all chunk i = .ok partition) :
      SortStep std less all chunk () (.sort i) () (.sorted partition)

def sortRaises (std : Std) (less : Tuple → Tuple → Except Fault Bool) (all : List Tuple) (chunk : Nat) :
    SortPc → Option Fault
  | .sort i => errorOf (sortSlice std less all chunk i)
  | .sorted _ => none

def sortBody (std : Std) (less : Tuple → Tuple → Except Fault Bool) (all : List Tuple) (chunk : Nat) :
    Body Unit SortPc where
  step := SortStep std less all chunk
  finished pc := ∃ partition, pc = .sorted partition
  raises := sortRaises std less all chunk
  not_raises pc h := by
    obtain ⟨partition, rfl⟩ := h
    rfl
  not_step s pc s' pc' h hs := by
    obtain ⟨partition, rfl⟩ := h
    cases hs

def startSort (n : Nat) : Threads (Fin n) Unit SortPc := ⟨(), fun i => .sort i⟩

def partitionsOf (m : Threads (Fin n) Unit SortPc) : List (List Tuple) :=
  (List.finRange n).map fun i => (m.locals i).partition

/-- `Init` from the end of the block on. -/
def buildHeap (std : Std) (less : Tuple → Tuple → Except Fault Bool) (partitions : List (List Tuple)) :
    Except Fault MergeState := do
  let entries := partitions.zipIdx.filterMap fun (p, i) => p.head?.map (HeapEntry.mk · i 0)
  return ⟨partitions, ← std.makeHeap (heapLess less) entries, true⟩

/-- The block of `Init` reports what its tasks throw. -/
def SortReports (std : Std) (less : Tuple → Tuple → Except Fault Bool) (nThreads : Nat) (all : List Tuple) : Prop :=
  Reports (workers nThreads all.length) (sortBody std less all (chunk nThreads all.length))
    (List.finRange (workers nThreads all.length)) (startSort (workers nThreads all.length))
    fun m => buildHeap std less (partitionsOf m)

theorem sort_run {chunk : Nat} {m : Threads (Fin n) Unit SortPc}
    (hrun : Threads.Run (sortBody std less all chunk).Safe (startSort n) m) (i : Fin n) :
    m.locals i = .sort i ∨ ∃ p, m.locals i = .sorted p ∧ sortSlice std less all chunk i = .ok p := by
  induction hrun generalizing i with
  | refl => exact Or.inl rfl
  | tail _ hs ih =>
    obtain ⟨j, -, hs⟩ := hs
    by_cases hij : i = j
    -- a task that has sorted its slice takes no further step
    · subst hij
      generalize hpc : Threads.locals _ i = pc at hs
      cases hs with
      | sort h =>
        rcases ih i with hi | ⟨p, hi, -⟩
        · cases hi.symm.trans hpc
          exact Or.inr ⟨_, Function.update_self .., h⟩
        · cases hi.symm.trans hpc
    · dsimp only
      rw [Function.update_of_ne hij]
      exact ih i

theorem sortReports_iff : SortReports std less nThreads all ↔
    ∀ i < workers nThreads all.length, ∀ e, sortSlice std less all (chunk nThreads all.length) i = .error e →
      ¬ e.IsException := by
  unfold SortReports
  rw [reports_iff]
  constructor
  · intro h i hi e he
    -- no other task has to run before
    exact h e (escapes_of_run (t := ⟨i, hi⟩) .refl (errorOf_eq_some.mpr he))
  · rintro h e ⟨c, j, i, hrun, -, hc⟩
    have hraises := hc.raises
    rcases sort_run (memory_run hrun) i with hi | ⟨p, hi, -⟩
    · rw [hi] at hraises
      exact h i i.isLt e (errorOf_eq_some.mp hraises)
    · rw [hi] at hraises
      cases hraises

theorem init_of_leaves (hn : 0 < workers nThreads all.length)
    {m : Threads (Fin (workers nThreads all.length)) Unit SortPc}
    (h : Leaves (workers nThreads all.length) (sortBody std less all (chunk nThreads all.length))
      (List.finRange (workers nThreads all.length)) (startSort (workers nThreads all.length)) m) :
    MergeState.init std less nThreads all = buildHeap std less (partitionsOf m) := by
  obtain ⟨hrun, hdone⟩ := h.finished hn
  have hsorted (i : Fin (workers nThreads all.length)) :
      sortPartition std less all (chunk nThreads all.length) i = .ok (m.locals i).partition := by
    obtain ⟨q, hq⟩ := hdone i (List.mem_finRange i)
    rcases sort_run hrun i with hi | ⟨p, hi, hp⟩
    · cases hi.symm.trans hq
    · rw [sortPartition_eq_sortSlice, hp, hi]
      rfl
  have hparts : (List.range (workers nThreads all.length)).mapM
      (sortPartition std less all (chunk nThreads all.length)) = .ok (partitionsOf m) := by
    rw [← List.map_coe_finRange_eq_range, mapM_eq_ok, List.forall₂_map_left_iff, partitionsOf,
      List.forall₂_map_right_iff, List.forall₂_same]
    exact fun i _ => hsorted i
  have hall : all ≠ [] := by
    rintro rfl
    exact absurd hn (by simp [workers])
  -- `init` sorts the slices one after the other
  rw [MergeState.init, if_neg hall]
  dsimp only
  rw [if_neg (show min nThreads all.length ≠ 0 from hn.ne')]
  change (List.range (workers nThreads all.length)).mapM (sortPartition std less all (chunk nThreads all.length)) >>= _ = _
  rw [hparts]
  rfl

/-! ## The comparator -/

section comparator
variable {schema : Schema} {items : List OrderByItem} {eval : Expr → Tuple → Except Fault Value} {a b : Tuple}

theorem mem_of_mem_slice {t : Tuple} {k l : Nat} (ht : t ∈ slice all k l) : t ∈ all :=
  List.mem_of_mem_drop (List.mem_of_mem_take ht)

/-- Where every `ORDER BY` expression can be evaluated on every tuple, the workers throw
nothing. -/
theorem sortReports_of_reads (hstd : Operator.Lawful std) (h : ∀ item ∈ items, Reads item.expr schema all) :
    SortReports std (tupleLess schema items) nThreads all := by
  rw [sortReports_iff]
  intro i _ e he
  unfold sortSlice at he
  dsimp only at he
  split at he
  · cases he
    exact id
  · obtain ⟨sorted, hsorted⟩ := sort_of_reads hstd.sort fun item hitem t ht => h item hitem t (mem_of_mem_slice ht)
    cases hsorted.symm.trans he

def sliceTuples (nThreads : Nat) (all : List Tuple) (i : Nat) : List Tuple :=
  slice all (sliceOf nThreads all.length i).1 ((sliceOf nThreads all.length i).2 - (sliceOf nThreads all.length i).1)

theorem sortSlice_eq (std : Std) (less : Tuple → Tuple → Except Fault Bool) (all : List Tuple) (i : Nat) :
    sortSlice std less all (chunk nThreads all.length) i =
      if (sliceOf nThreads all.length i).2 < (sliceOf nThreads all.length i).1 then .error .outOfBounds
      else std.sort less (sliceTuples nThreads all i) := rfl

theorem sliceTuples_eq_nil {i : Nat} (h : (sliceOf nThreads all.length i).2 < (sliceOf nThreads all.length i).1) :
    sliceTuples nThreads all i = [] := by
  rw [sliceTuples, Nat.sub_eq_zero_of_le h.le]
  exact List.take_zero

theorem sortReports_forall_iff (hall : ∀ t ∈ all, t.length = schema.tupleSize) :
    (∀ std, Operator.Lawful std → ComparesApart std.sort → SortReports std (tupleLess schema items) nThreads all) ↔
      ∀ i < workers nThreads all.length, (sliceTuples nThreads all i).Pairwise (Compares (tupleLess schema items)) := by
  simp only [sortReports_iff, sortSlice_eq]
  constructor
  · intro h i hi
    let std : Std := { Operator.insertionStd with sort := pairwiseSort }
    have hrun := h std ⟨sortSpec_pairwiseSort, Operator.lawful_insertionStd.heap⟩ comparesApart_pairwiseSort i hi
    split at hrun
    case isTrue hlt =>
      rw [sliceTuples_eq_nil hlt]
      exact .nil
    case isFalse =>
      cases hpairs : comparePairs (tupleLess schema items) (sliceTuples nThreads all i) with
      | ok u => exact pairwise_of_comparePairs hpairs
      | error e =>
        obtain ⟨j, k, a, b, -, ha, hb, he⟩ := comparePairs_error hpairs
        have hexception := isException_of_tupleLess (hall a (mem_of_mem_slice (List.mem_of_getElem? ha)))
          (hall b (mem_of_mem_slice (List.mem_of_getElem? hb))) he
        exact absurd hexception (hrun e (bind_eq_error.mpr (.inl hpairs)))
  · intro h std hstd hapart i hi e he
    split at he
    · cases he
      exact id
    · exact absurd he (hapart.not_error (h i hi) e)

end comparator

end MyDB.Executor.MergeState

namespace MyDB.Executor
open MyDB.Lib MyDB.Parser MyDB.Concurrency ThreadPool ParallelHashJoin MergeState

/-- For all tuples of the children and all schedules: `ParallelHashJoin::Init` and
`ParallelSort::Init` report the exceptions of the expressions that they evaluate on a pool
exactly if there are none, as an exception in a worker ends the process. The keys of a
join throw none if they can be evaluated on every tuple, or if there is no worker. Which
tuples of a slice `std::sort` compares is its own choice: with every choice nothing is
thrown exactly if any two of them can be compared. -/
theorem errors_reported_iff {R : Type} {n bucketCount : Nat} [NeZero bucketCount] (leftKey rightKey : Expr) (ls rs : Schema)
    (left right : List Tuple) (hl : ∀ l ∈ left, l.length = ls.tupleSize) (hr : ∀ r ∈ right, r.length = rs.tupleSize)
    (rest : BuildState n bucketCount Tuple → Except Fault R) (schema : Schema) (orderBy : List OrderByItem)
    (nThreads : Nat) (all : List Tuple) (hall : ∀ t ∈ all, t.length = schema.tupleSize) :
    (JoinReports n (intKey leftKey ls) (intKey rightKey rs) (concat · · ls rs) left right rest ↔
      n = 0 ∨ Reads leftKey ls left ∧ Reads rightKey rs right) ∧
    ((∀ std, Operator.Lawful std → ComparesApart std.sort → SortReports std (tupleLess schema orderBy) nThreads all) ↔
      ∀ i < workers nThreads all.length, (sliceTuples nThreads all i).Pairwise (Compares (tupleLess schema orderBy))) ∧
    ((∀ item ∈ orderBy, Reads item.expr schema all) →
      ∀ std, Operator.Lawful std → SortReports std (tupleLess schema orderBy) nThreads all) := by
  refine ⟨?_, sortReports_forall_iff hall, fun h std hstd => sortReports_of_reads hstd h⟩
  rw [joinReports_iff (fun t ht e he => isException_of_intKey (hl t ht) he)
    (fun t ht e he => isException_of_intKey (hr t ht) he)
    (fun l hl' r hr' => ⟨l ++ r, concat_of_length (hl l hl') (hr r hr')⟩)
    (fun l r e he => not_isException_of_concat he), intKey_reads, intKey_reads]

theorem errors_reported_found :
    let schema : Schema := ⟨[⟨lit "a", .int⟩]⟩
    let key : Expr := .columnRef [] (lit "a")
    let left : List Tuple := [[1, 0, 0, 0], [2, 0, 0, 0], [1, 0, 0, 0]]
    let all : List Tuple := [[3, 0, 0, 0], [1, 0, 0, 0], [1, 0, 0, 0], [2, 0, 0, 0]]
    JoinReports 2 (intKey key schema) (intKey key schema) (concat · · schema schema) left left
        (fun _ : BuildState 2 1 Tuple => (.ok () : Except Fault Unit)) ∧
      SortReports Operator.insertionStd (tupleLess schema [⟨key, true⟩]) 2 all ∧
      SortReports Operator.insertionStd (tupleLess schema [⟨key, true⟩, ⟨.columnRef [] (lit "z"), true⟩]) 2 all := by
  intro schema key left all
  have hleft : ∀ l ∈ left, l.length = schema.tupleSize := by decide
  have hall : ∀ t ∈ all, t.length = schema.tupleSize := by decide
  have hreads : Reads key schema (left ++ all) := by
    intro t ht
    have hidx : schema.getColumnIdx (columnKey [] (lit "a")) = .ok 0 := by decide +kernel
    obtain ⟨v, hv, -⟩ := evalExpr_column (List.forall_mem_append.mpr ⟨hleft, hall⟩ t ht) hidx rfl
    exact ⟨v, hv⟩
  have hreport := errors_reported_iff key key schema schema left left hleft hleft
    (fun _ : BuildState 2 1 Tuple => (.ok () : Except Fault Unit)) schema
  refine ⟨?_, ?_, ?_⟩
  · have hread : Reads key schema left := fun t ht => hreads t (List.mem_append_left _ ht)
    exact (hreport [] 2 all hall).1.mpr (.inr ⟨hread, hread⟩)
  · refine (hreport _ 2 all hall).2.2 (fun item hitem t ht => ?_) _ Operator.lawful_insertionStd
    rw [List.mem_singleton.mp hitem]
    exact hreads t (List.mem_append_right _ ht)
  · refine (hreport _ 2 all hall).2.1.mpr ?_ _ Operator.lawful_insertionStd comparesApart_insertionSort
    decide +kernel

/-- One thread, with a column that is not found: the exception that `Sort` throws to its
caller ends the process, with a task in flight. -/
theorem errors_reported_not_found :
    let schema : Schema := ⟨[⟨lit "a", .int⟩]⟩
    let key : Expr := .columnRef [] (lit "z")
    let orderBy : List OrderByItem := [⟨key, true⟩]
    let t : Tuple := [1, 0, 0, 0]
    let e : Fault := .runtimeError (lit "Column not found: z")
    evalExpr key t schema = .error e ∧
    (∃ c, Threads.Run (ProcessStep 1 (buildBody (intKey key schema) [t]))
        (startBlock 1 (List.finRange 1) (ClaimLoop.start (LockFreeHashTable.empty : LockFreeHashTable Tuple 1) ())) c ∧
      c.shared.ended = some .terminate ∧ c.shared.pool.inFlight ≠ 0 ∧ (c.locals (.inr ())).waited = false) ∧
    (¬ JoinReports 1 (intKey key schema) (intKey key schema) (concat · · schema schema) [t] [t]
        (fun _ : BuildState 1 1 Tuple => (.ok () : Except Fault Unit))) ∧
    Operator.insertionStd.sort (tupleLess schema orderBy) [t, t] = .error e ∧
    (∃ c, Threads.Run (ProcessStep 1 (sortBody Operator.insertionStd (tupleLess schema orderBy) [t, t] (chunk 1 2)))
        (startBlock 1 (List.finRange 1) (startSort 1)) c ∧
      c.shared.ended = some .terminate ∧ c.shared.pool.inFlight ≠ 0 ∧ (c.locals (.inr ())).waited = false) ∧
    ¬ SortReports Operator.insertionStd (tupleLess schema orderBy) 1 [t, t] := by
  intro schema key orderBy t e
  have heval : evalExpr key t schema = .error e := by decide +kernel
  have hkey : intKey key schema t = .error e := by
    rw [intKey, heval]
    rfl
  have hbuild : Escapes 1 (buildBody (intKey key schema) [t]) (List.finRange 1)
      (ClaimLoop.start (LockFreeHashTable.empty : LockFreeHashTable Tuple 1) ()) e := by
    have hfail : ¬ ∀ l ∈ [t], ∃ k, intKey key schema l = .ok k := by
      intro h
      obtain ⟨k, hk⟩ := h t List.mem_cons_self
      cases hkey.symm.trans hk
    obtain ⟨l, hl, f, hf, hescapes⟩ :=
      build_escapes (LockFreeHashTable.empty : LockFreeHashTable Tuple 1) Nat.one_pos hfail
    rw [List.mem_singleton.mp hl] at hf
    cases hkey.symm.trans hf
    exact hescapes
  have hslice : sortSlice Operator.insertionStd (tupleLess schema orderBy) [t, t] (chunk 1 2) 0 = .error e := by
    decide +kernel
  have hsort : Escapes 1 (sortBody Operator.insertionStd (tupleLess schema orderBy) [t, t] (chunk 1 2)) (List.finRange 1)
      (startSort 1) e :=
    escapes_of_run (t := 0) .refl (errorOf_eq_some.mpr hslice)
  exact ⟨heval, hbuild.terminates, fun h => reports_iff.mp h.build e hbuild trivial, hslice, hsort.terminates,
    fun h => sortReports_iff.mp h 0 Nat.one_pos e hslice trivial⟩

end MyDB.Executor

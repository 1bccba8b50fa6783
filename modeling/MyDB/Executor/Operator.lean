import MyDB.Catalog.Catalog
import MyDB.Executor.Eval
import MyDB.Lib.Cursor
import MyDB.Lib.StdAlgorithm

/-! The physical operators. A tree of `Operator`s has the members that the
constructors set; those that `Init`, `Next` and `Close` change are in its
`State`. A loop over a child is given the fuel `bound`, which is more than it
uses. The scans of tables, the algorithms of the standard library and the order
in which workers leave their results come from an `Env`. -/

namespace MyDB.Executor
open MyDB.Parser MyDB.Lib

structure AggExpr where
  func : AggFunc
  /-- Null for `COUNT(*)`. -/
  arg : Option Expr
  outputName : Str
  deriving DecidableEq, Repr

inductive Operator where
  | seqScan (tableInfo : TableInfo) (outputSchema : Schema)
  | filter (child : Operator) (predicate : Expr)
  | projection (child : Operator) (exprs : List Expr) (outputSchema : Schema)
  | hashJoin (left right : Operator) (leftKey rightKey : Expr)
  | sort (child : Operator) (orderBy : List OrderByItem)
  | hashAggregate (child : Operator) (groupBy : List Expr) (aggExprs : List AggExpr) (outputSchema : Schema)
  | parallelSeqScan (tableInfo : TableInfo) (outputSchema : Schema) (nThreads : Nat)
  | parallelHashJoin (left right : Operator) (leftKey rightKey : Expr) (nThreads bucketCount : Nat)
  | parallelSort (child : Operator) (orderBy : List OrderByItem) (nThreads : Nat)

/-! ## The state of an operator -/

/-- `buffer_` and `cursor_`. -/
structure Buffer where
  buffer : List Tuple
  cursor : Nat

structure JoinState where
  /-- The tuples of each bucket are in the order they were added in. -/
  hashTable : List (Str × Tuple)
  rightBuffer : List Tuple
  rightCursor : Nat
  matchCursor : Nat
  currentKey : Str

/-- The entries of `counts`, `sums`, `mins` and `maxs` for one aggregate. -/
structure Accumulator where
  count : Int
  sum : Int
  min : Int
  max : Int

structure Group where
  keyVals : List Value
  accs : List Accumulator

/-- `groups_`, in the order of `group_order_`. -/
structure AggState where
  groups : List (Str × Group)
  cursor : Nat

structure HeapEntry where
  tuple : Tuple
  partition : Nat
  index : Nat

structure MergeState where
  partitions : List (List Tuple)
  heap : List HeapEntry
  heapReady : Bool

/-- `std::sort` on tuples and the heap algorithms on heap entries. -/
structure Std where
  sort : (Tuple → Tuple → Except Fault Bool) → List Tuple → Except Fault (List Tuple)
  makeHeap : (HeapEntry → HeapEntry → Except Fault Bool) → List HeapEntry → Except Fault (List HeapEntry)
  popHeap : (HeapEntry → HeapEntry → Except Fault Bool) → List HeapEntry → Except Fault (List HeapEntry)
  pushHeap : (HeapEntry → HeapEntry → Except Fault Bool) → List HeapEntry → Except Fault (List HeapEntry)

/-- What the operators take from outside, over the state `σ` of the storage and of
whatever schedules the workers. -/
structure Env (σ : Type) where
  /-- The tuples of a table in the order of `Scan`. -/
  scan : TableInfo → EStateM Fault σ (List Tuple)
  /-- The buffer that the workers of `ParallelSeqScan` leave. -/
  parallelScan : TableInfo → Nat → EStateM Fault σ (List Tuple)
  /-- The pairs that the workers of `ParallelHashJoin` find, in the order of
  `output_buffer_`. -/
  parallelJoin : Nat → Nat → List (Int × Tuple) → List (Int × Tuple) → EStateM Fault σ (List (Tuple × Tuple))
  std : Std

namespace Operator

def concatSchemas (l r : Schema) : Schema := ⟨l.columns ++ r.columns⟩

def outputSchema : Operator → Schema
  | .seqScan _ schema => schema
  | .filter child _ => child.outputSchema
  | .projection _ _ schema => schema
  | .hashJoin left right _ _ => concatSchemas left.outputSchema right.outputSchema
  | .sort child _ => child.outputSchema
  | .hashAggregate _ _ _ schema => schema
  | .parallelSeqScan _ schema _ => schema
  | .parallelHashJoin left right _ _ _ _ => concatSchemas left.outputSchema right.outputSchema
  | .parallelSort child _ _ => child.outputSchema

def State : Operator → Type
  | .seqScan .. => Buffer
  | .filter child _ => child.State
  | .projection child _ _ => child.State
  | .hashJoin left right _ _ => left.State × right.State × JoinState
  | .sort child _ => child.State × Buffer
  | .hashAggregate child _ _ _ => child.State × AggState
  | .parallelSeqScan .. => Buffer
  | .parallelHashJoin left right _ _ _ _ => left.State × right.State × Buffer
  | .parallelSort child _ _ => child.State × MergeState

/-- The state of an operator that was just built. -/
def fresh : (op : Operator) → op.State
  | .seqScan .. => ⟨[], 0⟩
  | .filter child _ => child.fresh
  | .projection child _ _ => child.fresh
  | .hashJoin left right _ _ => (left.fresh, right.fresh, ⟨[], [], 0, 0, []⟩)
  | .sort child _ => (child.fresh, ⟨[], 0⟩)
  | .hashAggregate child _ _ _ => (child.fresh, ⟨[], 0⟩)
  | .parallelSeqScan .. => ⟨[], 0⟩
  | .parallelHashJoin left right _ _ _ _ => (left.fresh, right.fresh, ⟨[], 0⟩)
  | .parallelSort child _ _ => (child.fresh, ⟨[], [], false⟩)

end Operator

/-! ## One operator's part -/

namespace Buffer

def next (b : Buffer) : Except Fault (Option Tuple × Buffer) :=
  match b.buffer[b.cursor]? with
  | some t => return (some t, { b with cursor := b.cursor + 1 })
  | none => return (none, b)

def bound (b : Buffer) : Nat := b.buffer.length - b.cursor

theorem next_eq (l : List Tuple) (cursor : Nat) :
    Buffer.next ⟨l, cursor⟩ = (indexNext pure l cursor).map (Prod.map id (Buffer.mk l)) := by
  rw [next, indexNext]
  cases l[cursor]? with
  | none => rfl
  | some t => rfl

theorem yields_iff {b : Buffer} {l : List Tuple} : Yields Buffer.next b l ↔ l = b.buffer.drop b.cursor := by
  refine (yields_lift_iff (Buffer.mk b.buffer) (next_eq b.buffer)).trans ?_
  rw [yields_indexNext_iff, mapM_pure_eq_ok, eq_comm]

theorem yields_drop (l : List Tuple) (cursor : Nat) : Yields Buffer.next ⟨l, cursor⟩ (l.drop cursor) :=
  yields_iff.mpr rfl

/-- `Close`: the cursor stays. -/
def close (b : Buffer) : Buffer := { b with buffer := [] }

end Buffer

/-- `Concat`; a tuple shorter than its schema is read past its end. -/
def concat (l r : Tuple) (ls rs : Schema) : Except Fault Tuple :=
  if ls.tupleSize ≤ l.length ∧ rs.tupleSize ≤ r.length then
    return l.take ls.tupleSize ++ r.take rs.tupleSize
  else throw .outOfBounds

theorem tupleSize_concatSchemas (l r : Schema) :
    (Operator.concatSchemas l r).tupleSize = l.tupleSize + r.tupleSize := by
  rw [Operator.concatSchemas, Schema.tupleSize, List.map_append, List.sum_append]
  rfl

theorem length_concat {l r t : Tuple} {ls rs : Schema} (h : concat l r ls rs = .ok t) :
    t.length = ls.tupleSize + rs.tupleSize := by
  rw [concat] at h
  split at h
  · next hlen =>
    cases pure_eq_ok.mp h
    rw [List.length_append, List.length_take, List.length_take, Nat.min_eq_left hlen.1, Nat.min_eq_left hlen.2]
  · cases h

theorem concat_of_length {l r : Tuple} {ls rs : Schema} (hl : l.length = ls.tupleSize)
    (hr : r.length = rs.tupleSize) : concat l r ls rs = .ok (l ++ r) := by
  rw [concat, if_pos ⟨hl.ge, hr.ge⟩, List.take_of_length_le hl.le, List.take_of_length_le hr.le]
  rfl

namespace JoinState

def bucket (s : JoinState) (key : Str) : List Tuple :=
  (s.hashTable.filter (·.1 = key)).map Prod.snd

def current (s : JoinState) : List Tuple :=
  if s.currentKey = [] then [] else (s.bucket s.currentKey).drop s.matchCursor

def bound (s : JoinState) : Nat :=
  s.current.length + (s.rightBuffer.length - s.rightCursor) * s.hashTable.length

/-- The body of the loop of `Init` over the left tuples. -/
def build (leftKey : Expr) (ls : Schema) (hashTable : List (Str × Tuple)) (t : Tuple) :
    Except Fault (List (Str × Tuple)) :=
  return hashTable ++ [((← evalExpr leftKey t ls).toString, t)]

/-- The loop of `HashJoin::Next`, for at most `fuel` right tuples. -/
def next (rightKey : Expr) (ls rs : Schema) : Nat → JoinState → Except Fault (Option Tuple × JoinState)
  | 0, _ => throw .diverges
  | fuel + 1, s => do
    match s.current with
    | l :: _ =>
      if s.rightCursor = 0 then throw .outOfBounds
      else
        match s.rightBuffer[s.rightCursor - 1]? with
        | none => throw .outOfBounds
        | some r => return (some (← concat l r ls rs), { s with matchCursor := s.matchCursor + 1 })
    | [] =>
      let s := if s.currentKey = [] then s else { s with currentKey := [], matchCursor := 0 }
      match s.rightBuffer[s.rightCursor]? with
      | none => return (none, s)
      | some r =>
        let key ← evalExpr rightKey r rs
        next rightKey ls rs fuel
          { s with rightCursor := s.rightCursor + 1, currentKey := key.toString, matchCursor := 0 }

def close (s : JoinState) : JoinState := { s with hashTable := [], rightBuffer := [] }

end JoinState

/-- The comparator of `Sort` and `ParallelSort`. -/
def tupleLess (schema : Schema) : List OrderByItem → Tuple → Tuple → Except Fault Bool
  | [], _, _ => return false
  | item :: items, a, b => do
    let va ← evalExpr item.expr a schema
    let vb ← evalExpr item.expr b schema
    match va.typeId with
    | .int =>
      if va.asInt ≠ vb.asInt then
        return if item.ascending then va.asInt < vb.asInt else vb.asInt < va.asInt
      else tupleLess schema items a b
    | .varchar =>
      if va.asVarchar ≠ vb.asVarchar then
        return if item.ascending then va.asVarchar < vb.asVarchar else vb.asVarchar < va.asVarchar
      else tupleLess schema items a b

namespace Accumulator

/-- What `Init` assigns to a new group. -/
def init : Accumulator := ⟨0, 0, 2147483647, -2147483648⟩

def update (a : Accumulator) (ae : AggExpr) (t : Tuple) (schema : Schema) : Except Fault Accumulator :=
  let a := { a with count := a.count + 1 }
  match ae.func, ae.arg with
  | .count, _ => return a
  | _, none => throw .nullPointer
  | _, some arg => do
    let v := (← evalExpr arg t schema).asInt
    return { a with sum := a.sum + v, min := if v < a.min then v else a.min, max := if v > a.max then v else a.max }

/-- `static_cast<int32_t>`. -/
def narrow (v : Int) : Int := Int.bmod v (2 ^ 32)

def value (a : Accumulator) : AggFunc → Value
  | .count => .int (narrow a.count)
  | .sum => .int (narrow a.sum)
  | .avg => .int (narrow (a.sum.tdiv (if a.count > 0 then a.count else 1)))
  | .min => .int a.min
  | .max => .int a.max

end Accumulator

namespace AggState

def makeKey (groupBy : List Expr) (schema : Schema) (t : Tuple) : Except Fault Str :=
  groupBy.foldlM (fun key e => return key ++ (← evalExpr e t schema).toString ++ lit "|") []

def updateAccs (schema : Schema) (t : Tuple) : List AggExpr → List Accumulator → Except Fault (List Accumulator)
  | ae :: aes, a :: accs => return (← a.update ae t schema) :: (← updateAccs schema t aes accs)
  | _, _ => return []

/-- The body of the loop of `Init`. -/
def add (groupBy : List Expr) (aggExprs : List AggExpr) (schema : Schema)
    (groups : List (Str × Group)) (t : Tuple) : Except Fault (List (Str × Group)) := do
  let key ← makeKey groupBy schema t
  let groups ←
    if groups.any (·.1 = key) then pure groups
    else
      let keyVals ← groupBy.mapM (evalExpr · t schema)
      pure (groups ++ [(key, ⟨keyVals, aggExprs.map fun _ => .init⟩)])
  groups.mapM fun (k, g) =>
    if k = key then return (k, { g with accs := ← updateAccs schema t aggExprs g.accs }) else return (k, g)

def next (aggExprs : List AggExpr) (outputSchema : Schema) (s : AggState) :
    Except Fault (Option Tuple × AggState) :=
  match s.groups[s.cursor]? with
  | none => return (none, s)
  | some (_, g) => do
    let vals := g.keyVals ++ List.zipWith (fun ae a => a.value ae.func) aggExprs g.accs
    return (some (← Tuple.ofValues vals outputSchema), { s with cursor := s.cursor + 1 })

end AggState

namespace MergeState

/-- A worker of `ParallelSort::Init`: an exception in it ends the process. -/
def sortPartition (std : Std) (less : Tuple → Tuple → Except Fault Bool) (all : List Tuple)
    (chunk i : Nat) : Except Fault (List Tuple) :=
  let start := i * chunk
  let stop := min (start + chunk) all.length
  if stop < start then throw .outOfBounds
  else
    (std.sort less (slice all start (stop - start))).mapError Fault.inWorker

/-- The inverted comparison of the heap. -/
def heapLess (less : Tuple → Tuple → Except Fault Bool) (a b : HeapEntry) : Except Fault Bool :=
  less b.tuple a.tuple

/-- `ParallelSort::Init` from the tuples of the child on. -/
def init (std : Std) (less : Tuple → Tuple → Except Fault Bool) (nThreads : Nat) (all : List Tuple) : Except Fault MergeState :=
  if all = [] then return ⟨[], [], false⟩
  else do
    let n := min nThreads all.length
    if n = 0 then throw .divisionByZero
    else
      let chunk := (all.length + n - 1) / n
      let partitions ← (List.range n).mapM (sortPartition std less all chunk)
      let entries := partitions.zipIdx.filterMap fun (p, i) => p.head?.map (HeapEntry.mk · i 0)
      return ⟨partitions, ← std.makeHeap (heapLess less) entries, true⟩

def bound (s : MergeState) : Nat :=
  (s.heap.map fun e => (s.partitions.getD e.partition []).length - e.index - 1 + 1).sum

def next (std : Std) (less : Tuple → Tuple → Except Fault Bool) (s : MergeState) :
    Except Fault (Option Tuple × MergeState) :=
  if s.heapReady = false ∨ s.heap = [] then return (none, s)
  else do
    let heap ← std.popHeap (heapLess less) s.heap
    match heap.getLast? with
    | none => throw .outOfBounds
    | some top =>
      let heap := heap.dropLast
      match (s.partitions.getD top.partition [])[top.index + 1]? with
      | none => return (some top.tuple, { s with heap })
      | some t =>
        let heap ← std.pushHeap (heapLess less) (heap ++ [⟨t, top.partition, top.index + 1⟩])
        return (some top.tuple, { s with heap })

/-- `Close`: `heap_ready_` stays. -/
def close (s : MergeState) : MergeState := { s with partitions := [], heap := [] }

end MergeState

/-! ## The operators -/

/-- The keys that the workers of `ParallelHashJoin` evaluate, and with which they
then call `Hash`. -/
def workerKeys (nThreads bucketCount : Nat) (key : Expr) (schema : Schema) (ts : List Tuple) :
    Except Fault (List (Int × Tuple)) :=
  if nThreads = 0 ∨ ts = [] then return []
  else if bucketCount = 0 then throw .divisionByZero
  else (ts.mapM fun t => return ((← evalExpr key t schema).asInt, t)).mapError Fault.inWorker

namespace Operator
variable (std : Std)

/-- How often `Next` can still return true. -/
def bound : (op : Operator) → op.State → Nat
  | .seqScan .., s => Buffer.bound s
  | .filter child _, s => child.bound s
  | .projection child _ _, s => child.bound s
  | .hashJoin .., (_, _, s) => s.bound
  | .sort .., (_, s) => s.bound
  | .hashAggregate .., (_, s) => s.groups.length - s.cursor
  | .parallelSeqScan .., s => Buffer.bound s
  | .parallelHashJoin .., (_, _, s) => s.bound
  | .parallelSort .., (_, s) => s.bound

def next : (op : Operator) → op.State → Except Fault (Option Tuple × op.State)
  | .seqScan .., s => Buffer.next s
  | .filter child predicate, s =>
    filterNext child.next (evalPred predicate · child.outputSchema) .diverges (child.bound s + 1) s
  | .projection child exprs schema, s =>
    mapNext child.next (fun t => do Tuple.ofValues (← exprs.mapM (evalExpr · t child.outputSchema)) schema) s
  | .hashJoin left right _ rightKey, (sl, sr, s) => do
    let (t, s) ← JoinState.next rightKey left.outputSchema right.outputSchema
      (s.rightBuffer.length - s.rightCursor + 1) s
    return (t, sl, sr, s)
  | .sort .., (sc, s) => do
    let (t, s) ← s.next
    return (t, sc, s)
  | .hashAggregate _ _ aggExprs schema, (sc, s) => do
    let (t, s) ← s.next aggExprs schema
    return (t, sc, s)
  | .parallelSeqScan .., s => Buffer.next s
  | .parallelHashJoin .., (sl, sr, s) => do
    let (t, s) ← s.next
    return (t, sl, sr, s)
  | .parallelSort child orderBy _, (sc, s) => do
    let (t, s) ← s.next std (tupleLess child.outputSchema orderBy)
    return (t, sc, s)

def close : (op : Operator) → op.State → op.State
  | .seqScan .., s => Buffer.close s
  | .filter child _, s => child.close s
  | .projection child _ _, s => child.close s
  | .hashJoin .., (sl, sr, s) => (sl, sr, s.close)
  | .sort .., (sc, s) => (sc, s.close)
  | .hashAggregate .., (sc, s) => (sc, { s with groups := [] })
  | .parallelSeqScan .., s => Buffer.close s
  | .parallelHashJoin .., (sl, sr, s) => (sl, sr, s.close)
  | .parallelSort .., (sc, s) => (sc, s.close)

/-- `while (child->Next(&t))` with a body, and then `child->Close()`. -/
def consume {β : Type} (op : Operator) (body : β → Tuple → Except Fault β) (b : β) (s : op.State) :
    Except Fault (β × op.State) := do
  let (b, s) ← whileNext (op.next std) body .diverges (op.bound s + 1) s b
  return (b, op.close s)

def collect (ts : List Tuple) (t : Tuple) : Except Fault (List Tuple) := return ts ++ [t]

variable {σ : Type} (env : Env σ)

def init : (op : Operator) → op.State → EStateM Fault σ op.State
  | .seqScan info _, _ => return ⟨← env.scan info, 0⟩
  | .filter child _, s => child.init s
  | .projection child _ _, s => child.init s
  | .hashJoin left right leftKey _, (sl, sr, s) => do
    let sl ← left.init sl
    let (hashTable, sl) ← ofExcept (left.consume env.std (JoinState.build leftKey left.outputSchema) [] sl)
    let sr ← right.init sr
    let (rightBuffer, sr) ← ofExcept (right.consume env.std collect [] sr)
    -- `current_key_` stays
    return (sl, sr, ⟨hashTable, rightBuffer, 0, 0, s.currentKey⟩)
  | .sort child orderBy, (sc, _) => do
    let sc ← child.init sc
    let (ts, sc) ← ofExcept (child.consume env.std collect [] sc)
    return (sc, ⟨← ofExcept (env.std.sort (tupleLess child.outputSchema orderBy) ts), 0⟩)
  | .hashAggregate child groupBy aggExprs _, (sc, _) => do
    let sc ← child.init sc
    let (groups, sc) ← ofExcept (child.consume env.std (AggState.add groupBy aggExprs child.outputSchema) [] sc)
    return (sc, ⟨groups, 0⟩)
  | .parallelSeqScan info _ nThreads, _ => return ⟨← env.parallelScan info nThreads, 0⟩
  | .parallelHashJoin left right leftKey rightKey nThreads bucketCount, (sl, sr, _) => do
    let sl ← left.init sl
    let (ls, sl) ← ofExcept (left.consume env.std collect [] sl)
    let lefts ← ofExcept (workerKeys nThreads bucketCount leftKey left.outputSchema ls)
    let sr ← right.init sr
    let (rs, sr) ← ofExcept (right.consume env.std collect [] sr)
    let rights ← ofExcept (workerKeys nThreads bucketCount rightKey right.outputSchema rs)
    let pairs ← env.parallelJoin nThreads bucketCount lefts rights
    let out ← ofExcept (pairs.mapM fun (l, r) => concat l r left.outputSchema right.outputSchema)
    return (sl, sr, ⟨out, 0⟩)
  | .parallelSort child orderBy nThreads, (sc, _) => do
    let sc ← child.init sc
    let (all, sc) ← ofExcept (child.consume env.std collect [] sc)
    return (sc, ← ofExcept (MergeState.init env.std (tupleLess child.outputSchema orderBy) nThreads all))

end Operator

end MyDB.Executor

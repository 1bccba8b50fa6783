import MyDB.Common.TupleLayout
import MyDB.Executor.JoinedRows
import MyDB.Executor.Schedules

/-! The columns of joined tuples. `Concat` copies the bytes of its two parts into one
buffer, while the joined schema computes its offsets anew. Below 4 GiB the two agree, and
so they do along a left-deep chain of joins. -/

namespace MyDB.Executor
open MyDB.Parser MyDB.Lib Operator

/-- `memcpy` of the first `n` bytes at `src`. -/
def copyBytes (data : Tuple) (dst : Nat) (src : Tuple) (n : Nat) : Except Fault Tuple :=
  if n ≤ src.length then memcpy data dst (src.take n) else throw .outOfBounds

/-- `Concat` in 32-bit sizes, with its buffer. -/
def concatBuffer (l r : Tuple) (ls rs : Schema) : Except Fault Tuple := do
  let total := (ls.getTupleSize + rs.getTupleSize) % 2 ^ 32
  let buf ← copyBytes (List.replicate total 0) 0 l ls.getTupleSize
  copyBytes buf ls.getTupleSize r rs.getTupleSize

section pair
variable {l r : Tuple} {ls rs : Schema}

theorem copyBytes_ok {data src : Tuple} {dst n : Nat} (hn : n ≤ src.length) (hdst : dst + n ≤ data.length) :
    copyBytes data dst src n = .ok (splice data dst (src.take n)) := by
  have hlen : (src.take n).length = n := List.length_take_of_le hn
  rw [copyBytes, if_pos hn, memcpy, hlen, if_pos hdst]
  rfl

theorem splice_replicate {a b : List UInt8} {n : Nat} (hn : n = a.length + b.length) :
    splice (splice (List.replicate n 0) 0 a) a.length b = a ++ b := by
  have hrest : n - a.length - b.length = 0 := by omega
  simp [splice, hrest]

theorem concatBuffer_eq (hsize : ls.tupleSize + rs.tupleSize < 2 ^ 32) (l r : Tuple) :
    concatBuffer l r ls rs = concat l r ls rs := by
  have hls : ls.getTupleSize = ls.tupleSize := Schema.getTupleSize_of_lt ((Nat.le_add_right _ _).trans_lt hsize)
  have hrs : rs.getTupleSize = rs.tupleSize := Schema.getTupleSize_of_lt ((Nat.le_add_left _ _).trans_lt hsize)
  unfold concatBuffer concat
  rw [hls, hrs, Nat.mod_eq_of_lt hsize]
  by_cases hl : ls.tupleSize ≤ l.length
  · have hzeros : 0 + ls.tupleSize ≤ (List.replicate (ls.tupleSize + rs.tupleSize) (0 : UInt8)).length := by simp
    have hllen : (l.take ls.tupleSize).length = ls.tupleSize := List.length_take_of_le hl
    dsimp only
    rw [copyBytes_ok hl hzeros]
    show copyBytes (splice (List.replicate (ls.tupleSize + rs.tupleSize) 0) 0 (l.take ls.tupleSize))
      ls.tupleSize r rs.tupleSize = _
    by_cases hr : rs.tupleSize ≤ r.length
    · have hrlen : (r.take rs.tupleSize).length = rs.tupleSize := List.length_take_of_le hr
      rw [copyBytes_ok hr (by rw [length_splice (by rwa [hllen])]; simp), if_pos ⟨hl, hr⟩]
      have hfull := splice_replicate (congrArg₂ (· + ·) hllen hrlen).symm
      rw [hllen] at hfull
      exact congrArg Except.ok hfull
    · rw [copyBytes, if_neg hr, if_neg fun h => hr h.2]
  · rw [if_neg fun h => hl h.1]
    dsimp only
    rw [copyBytes, if_neg hl]
    rfl

theorem valueAt_append (hsize : ls.tupleSize + rs.tupleSize < 2 ^ 32) (hl : l.length = ls.tupleSize) (i : Nat) :
    Tuple.valueAt (l ++ r) (concatSchemas ls rs) i =
      if i < ls.columns.length then l.valueAt ls i else r.valueAt rs (i - ls.columns.length) := by
  have hsum : (concatSchemas ls rs).tupleSize = ls.tupleSize + rs.tupleSize := tupleSize_concatSchemas ls rs
  rw [Tuple.valueAt_eq (by rwa [hsum]), Tuple.valueAt_eq ((Nat.le_add_right _ _).trans_lt hsize),
    Tuple.valueAt_eq ((Nat.le_add_left _ _).trans_lt hsize)]
  by_cases hi : i < ls.columns.length
  · rw [if_pos hi, getValue_append_left hl hi]
  · have hback : i = ls.columns.length + (i - ls.columns.length) := (Nat.add_sub_of_le (Nat.le_of_not_lt hi)).symm
    rw [if_neg hi, ← getValue_append_right hl (r := r), ← hback]

end pair

/-! ## Chains of joins -/

structure JoinWith where
  right : Operator
  leftKey : Expr
  rightKey : Expr
  /-- `n_threads_` and `bucket_count` of a `ParallelHashJoin`. -/
  parallel : Option (Nat × Nat)

def JoinWith.over (j : JoinWith) (left : Operator) : Operator :=
  match j.parallel with
  | none => .hashJoin left j.right j.leftKey j.rightKey
  | some (nThreads, bucketCount) => .parallelHashJoin left j.right j.leftKey j.rightKey nThreads bucketCount

/-- The left-deep chain of joins over `left`, the innermost first. -/
def chain : Operator → List JoinWith → Operator
  | left, [] => left
  | left, j :: joins => chain (j.over left) joins

/-- What the chain makes of a tuple of each of its children. -/
def chainTuple : Operator → Tuple → List (JoinWith × Tuple) → Except Fault Tuple
  | _, l, [] => return l
  | left, l, (j, r) :: joins => do
    chainTuple (j.over left) (← concatBuffer l r left.outputSchema j.right.outputSchema) joins

/-- What `GetValue` returns for the columns, one after the other. -/
def columnReads (schema : Schema) (t : Tuple) : List (Except Fault Value) :=
  (List.range schema.columns.length).map (t.valueAt schema)

section chain
variable {left : Operator} {l r : Tuple} {ls rs : Schema} {joins : List (JoinWith × Tuple)}

theorem outputSchema_over (j : JoinWith) (left : Operator) :
    (j.over left).outputSchema = concatSchemas left.outputSchema j.right.outputSchema := by
  unfold JoinWith.over
  cases j.parallel with
  | none => rfl
  | some p => rfl

theorem columnReads_append (hsize : ls.tupleSize + rs.tupleSize < 2 ^ 32) (hl : l.length = ls.tupleSize) :
    columnReads (concatSchemas ls rs) (l ++ r) = columnReads ls l ++ columnReads rs r := by
  have hcount : (concatSchemas ls rs).columns.length = ls.columns.length + rs.columns.length := List.length_append
  unfold columnReads
  rw [hcount, List.range_add, List.map_append, List.map_map]
  congr 1
  · apply List.map_congr_left
    intro i hi
    rw [valueAt_append hsize hl, if_pos (List.mem_range.mp hi)]
  · apply List.map_congr_left
    intro i hi
    show Tuple.valueAt (l ++ r) (concatSchemas ls rs) (ls.columns.length + i) = _
    rw [valueAt_append hsize hl, if_neg (Nat.not_lt.mpr (Nat.le_add_right _ _)), Nat.add_sub_cancel_left]

theorem le_tupleSize_chain (left : Operator) (joins : List JoinWith) :
    left.outputSchema.tupleSize ≤ (chain left joins).outputSchema.tupleSize := by
  induction joins generalizing left with
  | nil => exact le_refl _
  | cons j joins ih =>
    refine le_trans ?_ (ih (j.over left))
    rw [outputSchema_over, tupleSize_concatSchemas]
    exact Nat.le_add_right _ _

theorem columnReads_chainTuple (hsize : (chain left (joins.map Prod.fst)).outputSchema.tupleSize < 2 ^ 32)
    (hl : l.length = left.outputSchema.tupleSize)
    (hjoins : ∀ j ∈ joins, j.2.length = j.1.right.outputSchema.tupleSize) :
    ∃ t, chainTuple left l joins = .ok t ∧
      t.length = (chain left (joins.map Prod.fst)).outputSchema.tupleSize ∧
      columnReads (chain left (joins.map Prod.fst)).outputSchema t =
        columnReads left.outputSchema l ++ joins.flatMap fun j => columnReads j.1.right.outputSchema j.2 := by
  -- the first join is the left input of the chain that is left
  induction joins generalizing left l with
  | nil => exact ⟨l, rfl, hl, (List.append_nil _).symm⟩
  | cons jr joins ih =>
    obtain ⟨j, r⟩ := jr
    have hr : r.length = j.right.outputSchema.tupleSize := hjoins _ List.mem_cons_self
    have hover := outputSchema_over j left
    have hsum := tupleSize_concatSchemas left.outputSchema j.right.outputSchema
    have hpair : left.outputSchema.tupleSize + j.right.outputSchema.tupleSize < 2 ^ 32 := by
      rw [← hsum, ← hover]
      exact (le_tupleSize_chain (j.over left) _).trans_lt hsize
    have hlr : (l ++ r).length = (j.over left).outputSchema.tupleSize := by
      rw [hover, hsum, List.length_append, hl, hr]
    obtain ⟨t, ht, hlen, hreads⟩ := ih hsize hlr fun j' hj' => hjoins j' (List.mem_cons_of_mem _ hj')
    refine ⟨t, ?_, hlen, ?_⟩
    · rw [chainTuple, concatBuffer_eq hpair, concat_of_length hl hr]
      exact ht
    · rw [hover, columnReads_append hpair hl, List.append_assoc] at hreads
      exact hreads

/-- Below 4 GiB, column `i` of `Concat(l, r)` is column `i` of `l` or, past the columns of
`l`, the column of `r` that many further; and a left-deep chain of joins has the columns
of its parts, one after the other. -/
theorem valueAt_concatBuffer :
    (∀ (ls rs : Schema) (l r : Tuple), ls.tupleSize + rs.tupleSize < 2 ^ 32 → l.length = ls.tupleSize →
      r.length = rs.tupleSize → ∃ t, concatBuffer l r ls rs = .ok t ∧ ∀ i,
        t.valueAt (concatSchemas ls rs) i =
          if i < ls.columns.length then l.valueAt ls i else r.valueAt rs (i - ls.columns.length)) ∧
    ∀ (left : Operator) (l : Tuple) (joins : List (JoinWith × Tuple)),
      (chain left (joins.map Prod.fst)).outputSchema.tupleSize < 2 ^ 32 → l.length = left.outputSchema.tupleSize →
      (∀ j ∈ joins, j.2.length = j.1.right.outputSchema.tupleSize) →
      ∃ t, chainTuple left l joins = .ok t ∧
        columnReads (chain left (joins.map Prod.fst)).outputSchema t =
          columnReads left.outputSchema l ++ joins.flatMap fun j => columnReads j.1.right.outputSchema j.2 := by
  constructor
  · intro ls rs l r hsize hl hr
    refine ⟨l ++ r, ?_, fun i => valueAt_append hsize hl i⟩
    rw [concatBuffer_eq hsize, concat_of_length hl hr]
  · intro left l joins hsize hl hjoins
    obtain ⟨t, ht, -, hreads⟩ := columnReads_chainTuple hsize hl hjoins
    exact ⟨t, ht, hreads⟩

theorem valueAt_concatBuffer_chain :
    let scan (schema : Schema) : Operator := .seqScan ⟨[], schema, ⟨schema, 0, 0⟩⟩ schema
    let a := scan ⟨[⟨lit "a.x", .int⟩]⟩
    let b := scan ⟨[⟨lit "b.y", ⟨.varchar, 0⟩⟩, ⟨lit "b.z", ⟨.varchar, 2⟩⟩]⟩
    let joins : List (JoinWith × Tuple) :=
      [(⟨b, .columnRef [] (lit "x"), .columnRef [] (lit "z"), none⟩, [104, 105]),
        (⟨a, .columnRef [] (lit "z"), .columnRef [] (lit "x"), some (4, 16)⟩, [2, 0, 0, 0])]
    ∃ t, chainTuple a [1, 0, 0, 0] joins = .ok t ∧
      columnReads (chain a (joins.map Prod.fst)).outputSchema t =
        [.ok (.int 1), .ok (.varchar [] 0), .ok (.varchar (lit "hi") 2), .ok (.int 2)] := by
  intro scan a b joins
  obtain ⟨t, ht, hreads⟩ := valueAt_concatBuffer.2 a [1, 0, 0, 0] joins (by decide) rfl (by decide)
  exact ⟨t, ht, hreads.trans (by decide +kernel)⟩

end chain

/-! ## Rows -/

section rows
variable {σ : Type} {env : Env σ} {left : Operator} {t : Tuple}

def RowOf (env : Env σ) (op : Operator) (t : Tuple) : Prop := ∃ s rows s', op.Evaluates env s rows s' ∧ t ∈ rows

def PairsTuples (env : Env σ) : Prop :=
  ∀ n bucketCount lefts rights s pairs s', env.parallelJoin n bucketCount lefts rights s = .ok pairs s' →
    ∀ p ∈ pairs, (∃ k, (k, p.1) ∈ lefts) ∧ ∃ k, (k, p.2) ∈ rights

theorem mem_of_workerKeys {n bucketCount : Nat} {key : Expr} {schema : Schema} {ts : List Tuple}
    {keys : List (Int × Tuple)} {k : Int} (h : workerKeys n bucketCount key schema ts = .ok keys) (ht : (k, t) ∈ keys) :
    t ∈ ts := by
  have hok := workerKeys_eq_ok h
  split at hok
  · subst hok
    cases ht
  · obtain ⟨t', ht', hkey⟩ := mem_of_mapM hok ht
    obtain ⟨v, -, hpure⟩ := bind_eq_ok.mp hkey
    cases pure_eq_ok.mp hpure
    exact ht'

theorem mem_of_matching {table : List (Str × Tuple)} {key : Str} (h : t ∈ JoinState.matching table key) :
    ∃ k, (k, t) ∈ table := by
  unfold JoinState.matching at h
  split at h
  · cases h
  · obtain ⟨e, he, rfl⟩ := List.mem_map.mp h
    exact ⟨e.1, List.mem_of_mem_filter he⟩

theorem rowOf_over (hstd : Lawful env.std) (hpairs : PairsTuples env) {j : JoinWith} (h : RowOf env (j.over left) t) :
    ∃ l r, RowOf env left l ∧ RowOf env j.right r ∧
      concat l r left.outputSchema j.right.outputSchema = .ok t := by
  obtain ⟨s, rows, s', hrows, ht⟩ := h
  unfold JoinWith.over at hrows
  split at hrows
  · obtain ⟨ls, s₁, rs, table, parts, hls, hrs, htable, hparts, rfl⟩ := (evaluates_hashJoin_iff hstd).mp hrows
    obtain ⟨part, hpart, htp⟩ := List.mem_flatten.mp ht
    obtain ⟨r, hr, hprobe⟩ := mem_of_mapM hparts hpart
    obtain ⟨key, -, hmatch⟩ := bind_eq_ok.mp hprobe
    obtain ⟨l, hl, hcat⟩ := mem_of_mapM hmatch htp
    obtain ⟨k, hk⟩ := mem_of_matching hl
    obtain ⟨l', hl', hkeyed⟩ := mem_of_mapM htable hk
    obtain ⟨v, -, hpure⟩ := bind_eq_ok.mp hkeyed
    cases pure_eq_ok.mp hpure
    exact ⟨l, r, ⟨s, ls, s₁, hls, hl'⟩, ⟨s₁, rs, s', hrs, hr⟩, hcat⟩
  · obtain ⟨ls, s₁, rs, s₂, lefts, rights, pairs, hls, hrs, hlefts, hrights, hpair, hcat⟩ :=
      (evaluates_parallelHashJoin_iff hstd).mp hrows
    obtain ⟨p, hp, hpt⟩ := mem_of_mapM hcat ht
    obtain ⟨⟨k, hk⟩, k', hk'⟩ := hpairs _ _ _ _ _ _ _ hpair p hp
    exact ⟨p.1, p.2, ⟨s, ls, s₁, hls, mem_of_workerKeys hlefts hk⟩, ⟨s₁, rs, s₂, hrs, mem_of_workerKeys hrights hk'⟩, hpt⟩

theorem rowOf_chain (hstd : Lawful env.std) (hpairs : PairsTuples env) {joins : List JoinWith}
    (hsize : (chain left joins).outputSchema.tupleSize < 2 ^ 32) (h : RowOf env (chain left joins) t) :
    ∃ l rs, RowOf env left l ∧ List.Forall₂ (fun j r => RowOf env j.right r) joins rs ∧
      chainTuple left l (joins.zip rs) = .ok t := by
  induction joins generalizing left with
  | nil => exact ⟨t, [], h, .nil, rfl⟩
  | cons j joins ih =>
    obtain ⟨l', rs, hl', hrs, ht⟩ := ih hsize h
    obtain ⟨l, r, hl, hr, hcat⟩ := rowOf_over hstd hpairs hl'
    have hpair : left.outputSchema.tupleSize + j.right.outputSchema.tupleSize < 2 ^ 32 := by
      rw [← tupleSize_concatSchemas, ← outputSchema_over]
      exact (le_tupleSize_chain (j.over left) joins).trans_lt hsize
    refine ⟨l, r :: rs, hl, .cons hr hrs, ?_⟩
    rw [List.zip_cons_cons, chainTuple, concatBuffer_eq hpair, hcat]
    exact ht

theorem columnReads_rowOf_chain (hstd : Lawful env.std) (hpairs : PairsTuples env) {joins : List JoinWith}
    (hsize : (chain left joins).outputSchema.tupleSize < 2 ^ 32)
    (hleft : ∀ l, RowOf env left l → l.length = left.outputSchema.tupleSize)
    (hright : ∀ j ∈ joins, ∀ r, RowOf env j.right r → r.length = j.right.outputSchema.tupleSize)
    (h : RowOf env (chain left joins) t) :
    ∃ l rs, RowOf env left l ∧ List.Forall₂ (fun j r => RowOf env j.right r) joins rs ∧
      columnReads (chain left joins).outputSchema t = columnReads left.outputSchema l ++
        (joins.zip rs).flatMap fun j => columnReads j.1.right.outputSchema j.2 := by
  obtain ⟨l, rs, hl, hrs, ht⟩ := rowOf_chain hstd hpairs hsize h
  have hfst : (joins.zip rs).map Prod.fst = joins := List.map_fst_zip hrs.length_eq.le
  obtain ⟨t', ht', -, hreads⟩ := columnReads_chainTuple (by rwa [hfst]) (hleft l hl) fun p hp =>
    hright p.1 (List.of_mem_zip hp).1 p.2 (List.forall₂_iff_zip.mp hrs |>.2 hp)
  cases ht.symm.trans ht'
  rw [hfst] at hreads
  exact ⟨l, rs, hl, hrs, hreads⟩

end rows
end MyDB.Executor

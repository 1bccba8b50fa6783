import MyDB.Executor.Grouping

/-! What a tree of operators returns over tables that do not change. Serial operators
return the same rows in the same order each time; workers may leave theirs in another
order, and then the rows are the same up to it, unless an aggregation shows which row of
a group came first. -/

namespace MyDB.Lib

theorem filterOk_eq_filter {ε α : Type} {p : α → Except ε Bool} {l l' : List α} (h : filterOk p l = .ok l') :
    l' = l.filter fun a => (p a).toOption.getD false := by
  induction l generalizing l' with
  | nil => exact (pure_eq_ok.mp h).symm
  | cons a l ih =>
    obtain ⟨b, rest, hb, hrest, rfl⟩ := filterOk_cons_eq_ok.mp h
    rw [List.filter_cons, hb, ih hrest]
    rfl

end MyDB.Lib

namespace MyDB.Executor
open MyDB.Parser MyDB.Lib

section accumulators
variable {ae : AggExpr} {schema : Schema} {ts ts' : List Tuple}

instance : RightCommutative (Accumulator.push ae schema) where
  right_comm a t u := by
    rw [Accumulator.push, Accumulator.push, Accumulator.push, Accumulator.push]
    split
    · rfl
    · simp only [Accumulator.mk.injEq, true_and]
      refine ⟨by omega, ?_, ?_⟩
      · split_ifs <;> omega
      · split_ifs <;> omega

theorem accOf_perm (h : ts.Perm ts') : accOf ae schema ts = accOf ae schema ts' :=
  h.foldl_eq Accumulator.init

end accumulators

namespace JoinState

theorem matching_perm {table table' : List (Str × Tuple)} (h : table.Perm table') (key : Str) :
    (matching table key).Perm (matching table' key) := by
  rw [matching, matching]
  split
  · exact List.Perm.refl _
  · exact (h.filter _).map _

theorem probeRow_perm {table table' : List (Str × Tuple)} (h : table.Perm table') {rightKey : Expr} {ls rs : Schema}
    {r : Tuple} {part part' : List Tuple} (hpart : probeRow table rightKey ls rs r = .ok part)
    (hpart' : probeRow table' rightKey ls rs r = .ok part') : part.Perm part' := by
  obtain ⟨key, hkey, hpart⟩ := bind_eq_ok.mp hpart
  obtain ⟨key', hkey', hpart'⟩ := bind_eq_ok.mp hpart'
  cases hkey.symm.trans hkey'
  exact perm_mapM (matching_perm h _) hpart hpart'

theorem parts_perm {table table' : List (Str × Tuple)} (h : table.Perm table') {rightKey : Expr} {ls rs : Schema}
    {ts ts' : List Tuple} (hts : ts.Perm ts') {parts parts' : List (List Tuple)}
    (hparts : ts.mapM (probeRow table rightKey ls rs) = .ok parts)
    (hparts' : ts'.mapM (probeRow table' rightKey ls rs) = .ok parts') : parts.flatten.Perm parts'.flatten := by
  -- the parts of the one table, in the order of the other's tuples
  obtain ⟨moved, hmoved, hperm⟩ := List.perm_comp_forall₂ hts.symm (mapM_eq_ok.mp hparts)
  have hcongr : List.Forall₂ List.Perm moved parts' :=
    forall₂_of_mapM (fun _ _ _ hpart hpart' => probeRow_perm h hpart hpart') (mapM_eq_ok.mpr hmoved) hparts'
  exact hperm.symm.flatten.trans (List.Perm.flatten_congr hcongr)

end JoinState

theorem workerKeys_eq_ok {n bucketCount : Nat} {key : Expr} {schema : Schema} {ts : List Tuple}
    {keys : List (Int × Tuple)} (h : workerKeys n bucketCount key schema ts = .ok keys) :
    if n = 0 then keys = [] else ts.mapM (fun t => return ((← evalExpr key t schema).asInt, t)) = .ok keys := by
  rw [workerKeys] at h
  split at h
  case isTrue hnone =>
    cases pure_eq_ok.mp h
    split
    · rfl
    · next hn =>
      rw [hnone.resolve_left hn]
      rfl
  case isFalse hsome =>
    rw [if_neg (not_or.mp hsome).1]
    split at h
    · cases h
    · cases hkeys : ts.mapM fun t => (do return ((← evalExpr key t schema).asInt, t) : Except Fault (Int × Tuple)) with
      | error e =>
        rw [hkeys] at h
        cases h
      | ok keys' =>
        rw [hkeys] at h
        cases h
        rfl

theorem workerKeys_perm {n bucketCount : Nat} {key : Expr} {schema : Schema} {ts ts' : List Tuple} (h : ts.Perm ts')
    {keys keys' : List (Int × Tuple)} (hkeys : workerKeys n bucketCount key schema ts = .ok keys)
    (hkeys' : workerKeys n bucketCount key schema ts' = .ok keys') : keys.Perm keys' := by
  have hok := workerKeys_eq_ok hkeys
  have hok' := workerKeys_eq_ok hkeys'
  split at hok
  · next hn =>
    rw [if_pos hn] at hok'
    rw [hok, hok']
  · next hn =>
    rw [if_neg hn] at hok'
    exact perm_mapM h hok hok'

theorem groupRows_perm {groupBy : List Expr} {aggExprs : List AggExpr} {schema outputSchema : Schema}
    {rows rows' out out' : List Tuple} (h : rows.Perm rows')
    (hkeys : ∀ t ∈ rows, ∀ u ∈ rows, keyOf groupBy schema t = keyOf groupBy schema u →
      groupVals groupBy schema t = groupVals groupBy schema u)
    (hout : (firsts (keyOf groupBy schema) rows).mapM (fun t => Tuple.ofValues (groupRow groupBy aggExprs schema
      (members (keyOf groupBy schema) rows t) t) outputSchema) = .ok out)
    (hout' : (firsts (keyOf groupBy schema) rows').mapM (fun t => Tuple.ofValues (groupRow groupBy aggExprs schema
      (members (keyOf groupBy schema) rows' t) t) outputSchema) = .ok out') : out.Perm out' := by
  have hrow : ∀ t ∈ rows, ∀ u ∈ rows', keyOf groupBy schema t = keyOf groupBy schema u →
      Tuple.ofValues (groupRow groupBy aggExprs schema (members (keyOf groupBy schema) rows t) t) outputSchema =
        Tuple.ofValues (groupRow groupBy aggExprs schema (members (keyOf groupBy schema) rows' u) u) outputSchema := by
    intro t ht u hu hkey
    have hmembers : (members (keyOf groupBy schema) rows t).Perm (members (keyOf groupBy schema) rows' u) := by
      rw [members, members, hkey]
      exact h.filter _
    rw [groupRow, groupRow, hkeys t ht u (h.symm.subset hu) hkey]
    simp only [accOf_perm hmembers]
  have hperm := perm_map_firsts h hrow
  refine perm_mapM (f := id) hperm ?_ ?_
  · rw [List.mapM_map]
    exact hout
  · rw [List.mapM_map]
    exact hout'

namespace Operator
variable {σ : Type}

/-- While `I` holds the tables do not change: two scans of a table return the same rows,
and workers do so up to the order. -/
structure Stable (env : Env σ) (I : σ → Prop) : Prop where
  scan : ∀ info s l s', I s → env.scan info s = .ok l s' →
    I s' ∧ ∀ s₂ l₂ s₂', I s₂ → env.scan info s₂ = .ok l₂ s₂' → l = l₂
  parallelScan : ∀ info n s l s', I s → env.parallelScan info n s = .ok l s' →
    I s' ∧ ∀ s₂ l₂ s₂', I s₂ → env.parallelScan info n s₂ = .ok l₂ s₂' → l.Perm l₂
  parallelJoin : ∀ n bucketCount lefts rights s l s', I s → env.parallelJoin n bucketCount lefts rights s = .ok l s' →
    I s' ∧ ∀ lefts₂ rights₂ s₂ l₂ s₂', I s₂ → lefts.Perm lefts₂ → rights.Perm rights₂ →
      env.parallelJoin n bucketCount lefts₂ rights₂ s₂ = .ok l₂ s₂' → l.Perm l₂

/-- No operator of the tree has workers. -/
def Serial : Operator → Prop
  | .seqScan .. => True
  | .filter child _ | .projection child _ _ | .sort child _ | .hashAggregate child _ _ _ => child.Serial
  | .hashJoin left right _ _ => left.Serial ∧ right.Serial
  | .parallelSeqScan .. | .parallelHashJoin .. | .parallelSort .. => False

/-- Keys of `HashAggregate` that are equal stand for equal values. -/
def SeparatesGroups (env : Env σ) (I : σ → Prop) (child : Operator) (groupBy : List Expr) : Prop :=
  ∀ s rows s', I s → child.Evaluates env s rows s' → ∀ t ∈ rows, ∀ u ∈ rows,
    keyOf groupBy child.outputSchema t = keyOf groupBy child.outputSchema u →
      groupVals groupBy child.outputSchema t = groupVals groupBy child.outputSchema u

/-- No aggregation above workers has two groups with one key. -/
def Robust (env : Env σ) (I : σ → Prop) : Operator → Prop
  | .seqScan .. | .parallelSeqScan .. => True
  | .filter child _ | .projection child _ _ | .sort child _ | .parallelSort child _ _ => child.Robust env I
  | .hashJoin left right _ _ | .parallelHashJoin left right _ _ _ _ => left.Robust env I ∧ right.Robust env I
  | .hashAggregate child groupBy _ _ =>
    child.Robust env I ∧ (child.Serial ∨ SeparatesGroups env I child groupBy)

variable {env : Env σ} {I : σ → Prop} {op child left right : Operator} {s s' s₁ s₁' s₂ s₂' : σ}
  {rows rows₁ rows₂ : List Tuple} (hstd : Lawful env.std) (hstable : Stable env I)

include hstd hstable

theorem Evaluates.keeps (hs : I s) (h : op.Evaluates env s rows s') : I s' := by
  induction op generalizing s s' rows with
  | seqScan info schema => exact (hstable.scan _ _ _ _ hs (evaluates_seqScan_iff.mp h)).1
  | parallelSeqScan info schema n => exact (hstable.parallelScan _ _ _ _ _ hs (evaluates_parallelSeqScan_iff.mp h)).1
  | filter child p ih =>
    obtain ⟨l, hl, -⟩ := (evaluates_filter_iff hstd).mp h
    exact ih hs hl
  | projection child exprs schema ih =>
    obtain ⟨l, hl, -⟩ := evaluates_projection_iff.mp h
    exact ih hs hl
  | hashJoin left right leftKey rightKey ihl ihr =>
    obtain ⟨ls, s₁, rs, table, parts, hls, hrs, -⟩ := (evaluates_hashJoin_iff hstd).mp h
    exact ihr (ihl hs hls) hrs
  | sort child orderBy ih =>
    obtain ⟨l, hl, -⟩ := (evaluates_sort_iff hstd).mp h
    exact ih hs hl
  | hashAggregate child groupBy aggExprs schema ih =>
    obtain ⟨l, groups, hl, -⟩ := (evaluates_hashAggregate_iff hstd).mp h
    exact ih hs hl
  | parallelHashJoin left right leftKey rightKey n bucketCount ihl ihr =>
    obtain ⟨ls, s₁, rs, s₂, lefts, rights, pairs, hls, hrs, -, -, hpairs, -⟩ := (evaluates_parallelHashJoin_iff hstd).mp h
    exact (hstable.parallelJoin _ _ _ _ _ _ _ (ihr (ihl hs hls) hrs) hpairs).1
  | parallelSort child orderBy n ih =>
    obtain ⟨l, ms, hl, -⟩ := (evaluates_parallelSort_iff hstd).mp h
    exact ih hs hl

theorem Evaluates.eq_of_serial (hop : op.Serial) (hs₁ : I s₁) (hs₂ : I s₂) (h₁ : op.Evaluates env s₁ rows₁ s₁')
    (h₂ : op.Evaluates env s₂ rows₂ s₂') : rows₁ = rows₂ := by
  induction op generalizing s₁ s₁' s₂ s₂' rows₁ rows₂ with
  | seqScan info schema =>
    exact (hstable.scan _ _ _ _ hs₁ (evaluates_seqScan_iff.mp h₁)).2 _ _ _ hs₂ (evaluates_seqScan_iff.mp h₂)
  | filter child p ih =>
    obtain ⟨l₁, hl₁, hrows₁⟩ := (evaluates_filter_iff hstd).mp h₁
    obtain ⟨l₂, hl₂, hrows₂⟩ := (evaluates_filter_iff hstd).mp h₂
    rw [ih hop hs₁ hs₂ hl₁ hl₂] at hrows₁
    exact Except.ok.inj (hrows₁.symm.trans hrows₂)
  | projection child exprs schema ih =>
    obtain ⟨l₁, hl₁, hrows₁⟩ := evaluates_projection_iff.mp h₁
    obtain ⟨l₂, hl₂, hrows₂⟩ := evaluates_projection_iff.mp h₂
    rw [ih hop hs₁ hs₂ hl₁ hl₂] at hrows₁
    exact Except.ok.inj (hrows₁.symm.trans hrows₂)
  | hashJoin left right leftKey rightKey ihl ihr =>
    obtain ⟨ls₁, t₁, rs₁, table₁, parts₁, hls₁, hrs₁, htable₁, hparts₁, rfl⟩ := (evaluates_hashJoin_iff hstd).mp h₁
    obtain ⟨ls₂, t₂, rs₂, table₂, parts₂, hls₂, hrs₂, htable₂, hparts₂, rfl⟩ := (evaluates_hashJoin_iff hstd).mp h₂
    rw [ihl hop.1 hs₁ hs₂ hls₁ hls₂] at htable₁
    rw [ihr hop.2 (hls₁.keeps hstd hstable hs₁) (hls₂.keeps hstd hstable hs₂) hrs₁ hrs₂] at hparts₁
    cases htable₁.symm.trans htable₂
    cases hparts₁.symm.trans hparts₂
    rfl
  | sort child orderBy ih =>
    obtain ⟨l₁, hl₁, hrows₁⟩ := (evaluates_sort_iff hstd).mp h₁
    obtain ⟨l₂, hl₂, hrows₂⟩ := (evaluates_sort_iff hstd).mp h₂
    rw [ih hop hs₁ hs₂ hl₁ hl₂] at hrows₁
    exact Except.ok.inj (hrows₁.symm.trans hrows₂)
  | hashAggregate child groupBy aggExprs schema ih =>
    obtain ⟨l₁, groups₁, hl₁, hgroups₁, hrows₁⟩ := (evaluates_hashAggregate_iff hstd).mp h₁
    obtain ⟨l₂, groups₂, hl₂, hgroups₂, hrows₂⟩ := (evaluates_hashAggregate_iff hstd).mp h₂
    rw [ih hop hs₁ hs₂ hl₁ hl₂] at hgroups₁
    cases hgroups₁.symm.trans hgroups₂
    exact Except.ok.inj (hrows₁.symm.trans hrows₂)
  | parallelSeqScan => exact hop.elim
  | parallelHashJoin => exact hop.elim
  | parallelSort => exact hop.elim

theorem Evaluates.perm_of_robust (hop : op.Robust env I) (hs₁ : I s₁) (hs₂ : I s₂) (h₁ : op.Evaluates env s₁ rows₁ s₁')
    (h₂ : op.Evaluates env s₂ rows₂ s₂') : rows₁.Perm rows₂ := by
  induction op generalizing s₁ s₁' s₂ s₂' rows₁ rows₂ with
  | seqScan info schema =>
    rw [(hstable.scan _ _ _ _ hs₁ (evaluates_seqScan_iff.mp h₁)).2 _ _ _ hs₂ (evaluates_seqScan_iff.mp h₂)]
  | parallelSeqScan info schema n =>
    exact (hstable.parallelScan _ _ _ _ _ hs₁ (evaluates_parallelSeqScan_iff.mp h₁)).2 _ _ _ hs₂
      (evaluates_parallelSeqScan_iff.mp h₂)
  | filter child p ih =>
    obtain ⟨l₁, hl₁, hrows₁⟩ := (evaluates_filter_iff hstd).mp h₁
    obtain ⟨l₂, hl₂, hrows₂⟩ := (evaluates_filter_iff hstd).mp h₂
    rw [filterOk_eq_filter hrows₁, filterOk_eq_filter hrows₂]
    exact (ih hop hs₁ hs₂ hl₁ hl₂).filter _
  | projection child exprs schema ih =>
    obtain ⟨l₁, hl₁, hrows₁⟩ := evaluates_projection_iff.mp h₁
    obtain ⟨l₂, hl₂, hrows₂⟩ := evaluates_projection_iff.mp h₂
    exact perm_mapM (ih hop hs₁ hs₂ hl₁ hl₂) hrows₁ hrows₂
  | hashJoin left right leftKey rightKey ihl ihr =>
    obtain ⟨ls₁, t₁, rs₁, table₁, parts₁, hls₁, hrs₁, htable₁, hparts₁, rfl⟩ := (evaluates_hashJoin_iff hstd).mp h₁
    obtain ⟨ls₂, t₂, rs₂, table₂, parts₂, hls₂, hrs₂, htable₂, hparts₂, rfl⟩ := (evaluates_hashJoin_iff hstd).mp h₂
    have htables := perm_mapM (ihl hop.1 hs₁ hs₂ hls₁ hls₂) htable₁ htable₂
    have hrights := ihr hop.2 (hls₁.keeps hstd hstable hs₁) (hls₂.keeps hstd hstable hs₂) hrs₁ hrs₂
    exact JoinState.parts_perm htables hrights hparts₁ hparts₂
  | sort child orderBy ih =>
    obtain ⟨l₁, hl₁, hrows₁⟩ := (evaluates_sort_iff hstd).mp h₁
    obtain ⟨l₂, hl₂, hrows₂⟩ := (evaluates_sort_iff hstd).mp h₂
    exact (hstd.sort.perm _ _ _ hrows₁).trans ((ih hop hs₁ hs₂ hl₁ hl₂).trans (hstd.sort.perm _ _ _ hrows₂).symm)
  | hashAggregate child groupBy aggExprs schema ih =>
    obtain ⟨hchild, hserial | hkeys⟩ := hop
    · have hop : (hashAggregate child groupBy aggExprs schema).Serial := hserial
      rw [h₁.eq_of_serial hstd hstable hop hs₁ hs₂ h₂]
    · obtain ⟨l₁, hl₁, -, hrows₁⟩ := (evaluates_hashAggregate_rows hstd).mp h₁
      obtain ⟨l₂, hl₂, -, hrows₂⟩ := (evaluates_hashAggregate_rows hstd).mp h₂
      exact groupRows_perm (ih hchild hs₁ hs₂ hl₁ hl₂) (hkeys _ _ _ hs₁ hl₁) hrows₁ hrows₂
  | parallelHashJoin left right leftKey rightKey n bucketCount ihl ihr =>
    obtain ⟨ls₁, t₁, rs₁, u₁, lefts₁, rights₁, pairs₁, hls₁, hrs₁, hlefts₁, hrights₁, hpairs₁, hrows₁⟩ :=
      (evaluates_parallelHashJoin_iff hstd).mp h₁
    obtain ⟨ls₂, t₂, rs₂, u₂, lefts₂, rights₂, pairs₂, hls₂, hrs₂, hlefts₂, hrights₂, hpairs₂, hrows₂⟩ :=
      (evaluates_parallelHashJoin_iff hstd).mp h₂
    have ht₁ := hls₁.keeps hstd hstable hs₁
    have ht₂ := hls₂.keeps hstd hstable hs₂
    have hlefts := workerKeys_perm (ihl hop.1 hs₁ hs₂ hls₁ hls₂) hlefts₁ hlefts₂
    have hrights := workerKeys_perm (ihr hop.2 ht₁ ht₂ hrs₁ hrs₂) hrights₁ hrights₂
    have hpairs := (hstable.parallelJoin _ _ _ _ _ _ _ (hrs₁.keeps hstd hstable ht₁) hpairs₁).2 _ _ _ _ _
      (hrs₂.keeps hstd hstable ht₂) hlefts hrights hpairs₂
    exact perm_mapM hpairs hrows₁ hrows₂
  | parallelSort child orderBy n ih =>
    obtain ⟨l₁, ms₁, hl₁, hms₁, hrows₁⟩ := (evaluates_parallelSort_iff hstd).mp h₁
    obtain ⟨l₂, ms₂, hl₂, hms₂, hrows₂⟩ := (evaluates_parallelSort_iff hstd).mp h₂
    exact (MergeState.init_yields_perm hstd.heap hstd.sort hms₁ hrows₁).trans
      ((ih hop hs₁ hs₂ hl₁ hl₂).trans (MergeState.init_yields_perm hstd.heap hstd.sort hms₂ hrows₂).symm)

end Operator
end MyDB.Executor

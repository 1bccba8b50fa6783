import MyDB.Executor.Aggregation
import MyDB.Executor.SortOrder
import MyDB.Planner.Explain

/-! The rows of a plan: scan, joins and filter, and what the planner puts above
them. -/

namespace MyDB
open Lib

/-- A name as the lexer reads one: not empty, and without a dot. -/
def Column.Plain (c : Column) : Prop := c.name ≠ [] ∧ dotChar ∉ c.name

def Schema.Named (schema : Schema) : Prop := ∀ c ∈ schema.columns, c.name ≠ [] ∧ afterDot c.name ≠ some []

def Catalog.Plain (catalog : Catalog) : Prop := ∀ info ∈ catalog.tables, ∀ c ∈ info.schema.columns, c.Plain

theorem afterDot_append {a n : Str} (h : dotChar ∉ n) : afterDot (a ++ lit "." ++ n) = some n := by
  have hdot : lit "." = [dotChar] := by decide
  have hall : ∀ b ∈ n.reverse, (fun b => decide (b ≠ dotChar)) b = true := by
    intro b hb
    rw [decide_eq_true_eq]
    rintro rfl
    exact h (List.mem_reverse.mp hb)
  rw [afterDot, hdot, if_pos (by simp), List.reverse_append, List.takeWhile_append_of_pos hall, List.reverse_append]
  rw [List.reverse_append]
  show some ((([dotChar] ++ a.reverse).takeWhile (· ≠ dotChar)).reverse ++ n.reverse.reverse) = some n
  rw [List.reverse_reverse]
  rfl

theorem afterDot_plain {n : Str} (h : dotChar ∉ n) : afterDot n = none := if_neg h

namespace Planner
open MyDB.Parser MyDB.Executor

theorem makeOutputSchema_types (schema : Schema) (aliasName : Str) :
    (makeOutputSchema schema aliasName).columns.map (·.type) = schema.columns.map (·.type) := by
  rw [makeOutputSchema]
  split
  · rfl
  · rw [List.map_map]
    rfl

theorem tupleSize_eq_of_types {a b : Schema} (h : a.columns.map (·.type) = b.columns.map (·.type)) :
    a.tupleSize = b.tupleSize := by
  have hsizes := congrArg (List.map ColumnType.fixedSize) h
  rw [List.map_map, List.map_map] at hsizes
  exact congrArg List.sum hsizes

theorem named_makeOutputSchema {schema : Schema} (h : ∀ c ∈ schema.columns, c.Plain) (aliasName : Str) :
    (makeOutputSchema schema aliasName).Named := by
  rw [makeOutputSchema]
  split
  · intro c hc
    rw [afterDot_plain (h c hc).2]
    exact ⟨(h c hc).1, nofun⟩
  · intro c hc
    obtain ⟨c', hc', rfl⟩ := List.mem_map.mp hc
    obtain ⟨hne, hdot⟩ := h c' hc'
    refine ⟨List.append_ne_nil_of_right_ne_nil _ hne, ?_⟩
    show afterDot (aliasName ++ lit "." ++ c'.name) ≠ some []
    rw [afterDot_append hdot]
    exact fun heq => hne (Option.some.inj heq)

/-- Scan and joins, below the filter. -/
def planBase (catalog : Catalog) (stmt : SelectStmt) : Except Fault Operator := do
  planJoins catalog stmt.joins (← scanTable catalog stmt.fromTable stmt.fromAlias)

section structure_
variable {catalog : Catalog} {stmt : SelectStmt} {op base : Operator}

theorem planInput_eq_ok {input : Operator} :
    planInput catalog stmt = .ok input ↔
      ∃ base, planBase catalog stmt = .ok base ∧ input = planFilter stmt.whereClause base := by
  rw [planInput, bind_eq_ok]
  constructor
  · rintro ⟨scan, hscan, h⟩
    obtain ⟨base, hbase, h⟩ := bind_eq_ok.mp h
    exact ⟨base, bind_eq_ok.mpr ⟨scan, hscan, hbase⟩, (pure_eq_ok.mp h).symm⟩
  · rintro ⟨base, hbase, rfl⟩
    obtain ⟨scan, hscan, hbase⟩ := bind_eq_ok.mp hbase
    exact ⟨scan, hscan, bind_eq_ok.mpr ⟨base, hbase, rfl⟩⟩

theorem planJoins_induction {motive : Operator → Prop} {joins : List JoinClause}
    (hjoin : ∀ left right leftKey rightKey, motive left → motive right → motive (.hashJoin left right leftKey rightKey))
    (hscan : ∀ info ∈ catalog.tables, ∀ aliasName, motive (.seqScan info (makeOutputSchema info.schema aliasName)))
    (hbase : motive base) (h : planJoins catalog joins base = .ok op) : motive op := by
  induction joins generalizing base with
  | nil =>
    cases pure_eq_ok.mp h
    exact hbase
  | cons join joins ih =>
    rw [planJoins] at h
    obtain ⟨right, hright, h⟩ := bind_eq_ok.mp h
    obtain ⟨info, hinfo, rfl⟩ := scanTable_eq_ok.mp hright
    split at h
    · exact ih (hjoin _ _ _ _ hbase (hscan info (getTable_mem hinfo).1 _)) h
    · cases h

theorem planBase_induction {motive : Operator → Prop}
    (hjoin : ∀ left right leftKey rightKey, motive left → motive right → motive (.hashJoin left right leftKey rightKey))
    (hscan : ∀ info ∈ catalog.tables, ∀ aliasName, motive (.seqScan info (makeOutputSchema info.schema aliasName)))
    (h : planBase catalog stmt = .ok op) : motive op := by
  obtain ⟨scan, hs, h⟩ := bind_eq_ok.mp h
  obtain ⟨info, hinfo, rfl⟩ := scanTable_eq_ok.mp hs
  exact planJoins_induction hjoin hscan (hscan info (getTable_mem hinfo).1 _) h

theorem outputSchema_planFilter (whereClause : Option Expr) (op : Operator) :
    (planFilter whereClause op).outputSchema = op.outputSchema := by
  cases whereClause with
  | none => rfl
  | some p => rfl

theorem outputSchema_planSort (orderBy : List OrderByItem) (op : Operator) :
    (planSort orderBy op).outputSchema = op.outputSchema := by
  rw [planSort]
  split
  · rfl
  · rfl

theorem planBase_named (hplain : catalog.Plain) (h : planBase catalog stmt = .ok op) : op.outputSchema.Named := by
  refine planBase_induction (motive := fun op => op.outputSchema.Named) ?_ ?_ h
  · intro left right _ _ hl hr c hc
    exact (List.mem_append.mp hc).elim (hl c) (hr c)
  · intro info hinfo aliasName
    exact named_makeOutputSchema (hplain info hinfo) aliasName

/-- The statements that get a `HashAggregate`. -/
def Aggregating (stmt : SelectStmt) : Prop :=
  isStar stmt.selectList = false ∧ (hasAggregate stmt.selectList = true ∨ stmt.groupBy ≠ [])

theorem aggregating_of_hasAggregate (h : hasAggregate stmt.selectList = true) : Aggregating stmt := by
  refine ⟨?_, Or.inl h⟩
  unfold isStar
  split
  · next item hitem =>
    rw [hitem, hasAggregate, List.any_cons, List.any_nil, Bool.or_false] at h
    apply decide_eq_false
    intro hstar
    rw [hstar] at h
    cases h
  · rfl

theorem plan_eq_ok : plan catalog stmt = .ok op ↔ ∃ input, planInput catalog stmt = .ok input ∧
    if isStar stmt.selectList then op = planSort stmt.orderBy input
    else if hasAggregate stmt.selectList ∨ stmt.groupBy ≠ [] then
      ∃ schema, buildAggSchema stmt.groupBy (stmt.selectList.filterMap aggExpr) input.outputSchema = .ok schema ∧
        op = planSort stmt.orderBy (.hashAggregate input stmt.groupBy (stmt.selectList.filterMap aggExpr) schema)
    else ∃ schema, buildProjectionSchema stmt.selectList input.outputSchema = .ok schema ∧
      op = .projection (planSort stmt.orderBy input) (stmt.selectList.map (·.expr)) schema := by
  rw [plan, bind_eq_ok]
  refine exists_congr fun input => and_congr_right fun _ => ?_
  split_ifs
  · rw [pure_eq_ok, eq_comm]
  · rw [bind_eq_ok]
    refine exists_congr fun schema => and_congr_right fun _ => ?_
    rw [pure_eq_ok, eq_comm]
  · dsimp only
    rw [outputSchema_planSort, bind_eq_ok]
    refine exists_congr fun schema => and_congr_right fun _ => ?_
    rw [pure_eq_ok, eq_comm]

theorem plan_aggregate_eq_ok (hagg : Aggregating stmt) :
    plan catalog stmt = .ok op ↔ ∃ input schema, planInput catalog stmt = .ok input ∧
      buildAggSchema stmt.groupBy (stmt.selectList.filterMap aggExpr) input.outputSchema = .ok schema ∧
      op = planSort stmt.orderBy (.hashAggregate input stmt.groupBy (stmt.selectList.filterMap aggExpr) schema) := by
  simp only [plan_eq_ok, hagg.1, Bool.false_eq_true, if_false, if_pos hagg.2, exists_and_left]

end structure_

/-! ## Rows -/

/-- `WHERE` on a row, if it can be evaluated. -/
def satisfies (whereClause : Option Expr) (schema : Schema) (t : Tuple) : Bool :=
  match whereClause with
  | none => true
  | some p =>
    match evalPred p t schema with
    | .ok b => b
    | .error _ => false

def Evaluable (whereClause : Option Expr) (schema : Schema) (t : Tuple) : Prop :=
  ∀ p, whereClause = some p → ∃ b, evalPred p t schema = .ok b

variable {σ : Type} {env : Env σ} {s s' : σ} {rows : List Tuple}

/-- The scans of the tables return tuples as long as the table's. -/
def Scans (env : Env σ) (catalog : Catalog) : Prop :=
  ∀ info ∈ catalog.tables, ∀ s rows s', env.scan info s = .ok rows s' → ∀ t ∈ rows, t.length = info.schema.tupleSize

def Sized (env : Env σ) (op : Operator) : Prop :=
  ∀ s rows s', op.Evaluates env s rows s' → ∀ t ∈ rows, t.length = op.outputSchema.tupleSize

theorem sized_hashJoin (hstd : Operator.Lawful env.std) (left right : Operator) (leftKey rightKey : Expr) :
    Sized env (.hashJoin left right leftKey rightKey) := by
  intro s rows s' h t ht
  obtain ⟨ls, s₁, rs, table, parts, -, -, -, hparts, rfl⟩ := (Operator.evaluates_hashJoin_iff hstd).mp h
  obtain ⟨part, hpart, ht⟩ := List.mem_flatten.mp ht
  obtain ⟨r, -, hr⟩ := mem_of_mapM hparts hpart
  obtain ⟨key, -, hr⟩ := bind_eq_ok.mp hr
  obtain ⟨l, -, hl⟩ := mem_of_mapM hr ht
  exact (length_concat hl).trans (tupleSize_concatSchemas _ _).symm

theorem sized_planBase (hstd : Operator.Lawful env.std) {catalog : Catalog} (hscans : Scans env catalog)
    {stmt : SelectStmt} {op : Operator} (h : planBase catalog stmt = .ok op) : Sized env op := by
  refine planBase_induction (motive := Sized env) ?_ ?_ h
  · intro left right leftKey rightKey _ _
    exact sized_hashJoin hstd left right leftKey rightKey
  · intro info hinfo aliasName s rows s' hrows t ht
    rw [hscans info hinfo s rows s' (Operator.evaluates_seqScan_iff.mp hrows) t ht]
    exact (tupleSize_eq_of_types (makeOutputSchema_types info.schema aliasName)).symm

theorem filterOk_eq_ok {p : Expr} {schema : Schema} {all : List Tuple} :
    filterOk (evalPred p · schema) all = .ok rows ↔
      (∀ t ∈ all, Evaluable (some p) schema t) ∧ rows = all.filter (satisfies (some p) schema) := by
  induction all generalizing rows with
  | nil =>
    rw [filterOk, pure_eq_ok, eq_comm]
    exact ⟨fun h => ⟨fun t ht => absurd ht List.not_mem_nil, h⟩, fun h => h.2⟩
  | cons t all ih =>
    rw [filterOk_cons_eq_ok, List.forall_mem_cons]
    have hsat {b : Bool} (hb : evalPred p t schema = .ok b) : satisfies (some p) schema t = b := by
      rw [satisfies, hb]
    constructor
    · rintro ⟨b, rest, hb, hrest, rfl⟩
      obtain ⟨hall, rfl⟩ := ih.mp hrest
      refine ⟨⟨fun q hq => ⟨b, Option.some.inj hq ▸ hb⟩, hall⟩, ?_⟩
      rw [List.filter_cons, hsat hb]
    · rintro ⟨⟨ht, hall⟩, rfl⟩
      obtain ⟨b, hb⟩ := ht p rfl
      refine ⟨b, _, hb, ih.mpr ⟨hall, rfl⟩, ?_⟩
      rw [List.filter_cons, hsat hb]

theorem evaluates_planFilter_iff (hstd : Operator.Lawful env.std) {whereClause : Option Expr} {base : Operator} :
    (planFilter whereClause base).Evaluates env s rows s' ↔ ∃ all, base.Evaluates env s all s' ∧
      (∀ t ∈ all, Evaluable whereClause base.outputSchema t) ∧
      rows = all.filter (satisfies whereClause base.outputSchema) := by
  cases whereClause with
  | none =>
    have hall (all : List Tuple) : all.filter (satisfies none base.outputSchema) = all :=
      List.filter_eq_self.mpr fun _ _ => rfl
    constructor
    · intro h
      refine ⟨rows, h, ?_, (hall rows).symm⟩
      intro t _ p hp
      cases hp
    · rintro ⟨all, h, -, rfl⟩
      rw [hall]
      exact h
  | some p =>
    rw [planFilter, Operator.evaluates_filter_iff hstd]
    exact exists_congr fun all => and_congr_right fun _ => filterOk_eq_ok

theorem evaluates_planInput_std {std : Std} (hstd : Operator.Lawful env.std) (hstd' : Operator.Lawful std)
    {catalog : Catalog} {stmt : SelectStmt} {input : Operator} (h : planInput catalog stmt = .ok input) :
    input.Evaluates { env with std } s rows s' ↔ input.Evaluates env s rows s' := by
  obtain ⟨base, hbase, rfl⟩ := planInput_eq_ok.mp h
  have hrows : ∀ s rows s', base.Evaluates { env with std } s rows s' ↔ base.Evaluates env s rows s' := by
    refine planBase_induction (motive := fun op =>
      ∀ s rows s', op.Evaluates { env with std } s rows s' ↔ op.Evaluates env s rows s') ?_ ?_ hbase
    · intro left right leftKey rightKey hleft hright s rows s'
      rw [Operator.evaluates_hashJoin_iff hstd', Operator.evaluates_hashJoin_iff hstd]
      simp only [hleft, hright]
    · intro info _ aliasName s rows s'
      rw [Operator.evaluates_seqScan_iff, Operator.evaluates_seqScan_iff]
  rw [evaluates_planFilter_iff hstd', evaluates_planFilter_iff hstd]
  simp only [hrows]

theorem evaluates_planSort {orderBy : List OrderByItem} {op : Operator} {out : List Tuple}
    (hstd : Operator.Lawful env.std) (h : (planSort orderBy op).Evaluates env s out s') :
    ∃ out', op.Evaluates env s out' s' ∧ out.Perm out' := by
  rw [planSort] at h
  split at h
  · exact ⟨out, h, List.Perm.refl _⟩
  · obtain ⟨out', hop, hsort⟩ := (Operator.evaluates_sort_iff hstd).mp h
    exact ⟨out', hop, hstd.sort.perm _ _ _ hsort⟩

theorem evaluates_planSort_singleton (hstd : Operator.Lawful env.std) (hapart : ComparesApart env.std.sort)
    {op : Operator} {t : Tuple} (h : op.Evaluates env s [t] s') (orderBy : List OrderByItem) :
    (planSort orderBy op).Evaluates env s [t] s' := by
  rw [planSort]
  split
  · exact h
  · exact (Operator.evaluates_sort_iff hstd).mpr ⟨[t], h, hapart.sort_singleton hstd.sort _ t⟩

theorem groupColumns_of_named {schema : Schema} (hnamed : schema.Named) {groupBy : List Expr} {cols : List Column}
    (h : groupBy.mapM (groupColumn schema) = .ok cols) : ∃ inCols, GroupColumns schema groupBy inCols := by
  have hempty {i : Nat} : schema.getColumnIdx [] ≠ .ok i := by
    have hnone : schema.columns.findIdx? (·.name = []) = none := by
      rw [List.findIdx?_eq_none_iff]
      intro c hc
      exact decide_eq_false (hnamed c hc).1
    have hunq : schema.unqualified [] = [] := by
      rw [List.eq_nil_iff_forall_not_mem]
      intro j hj
      obtain ⟨hlt, hj⟩ := List.mem_findIdxs_iff_exists_getElem_pos.mp hj
      exact (hnamed _ (List.getElem_mem hlt)).2 (of_decide_eq_true hj)
    intro h
    rcases Schema.getColumnIdx_eq_ok.mp h with hfull | ⟨-, ⟨-, hone⟩ | ⟨unqual, hdot, -⟩⟩
    · cases hnone.symm.trans hfull
    · cases hunq.symm.trans hone
    · cases hdot
  have hcolumn : ∀ e ∈ groupBy, ∃ c, ∃ tableAlias colName i, e = .columnRef tableAlias colName ∧
      schema.getColumnIdx (columnKey tableAlias colName) = .ok i ∧ schema.columns[i]? = some c := by
    intro e he
    obtain ⟨c, -, hc⟩ := ok_of_mapM h he
    obtain ⟨i, hi, hc⟩ := bind_eq_ok.mp hc
    cases e with
    | columnRef tableAlias colName =>
      have hlt := Schema.getColumnIdx_lt hi
      exact ⟨_, tableAlias, colName, i, rfl, hi, List.getElem?_eq_getElem hlt⟩
    | _ => exact absurd hi hempty
  induction groupBy generalizing cols with
  | nil => exact ⟨[], .nil⟩
  | cons e es ih =>
    obtain ⟨⟨c, hc⟩, hrest⟩ := List.forall_mem_cons.mp hcolumn
    obtain ⟨_, cols', -, hcols', -⟩ := mapM_cons_eq_ok.mp h
    obtain ⟨inCols, hin⟩ := ih hcols' hrest
    exact ⟨c :: inCols, .cons hc hin⟩

end Planner
end MyDB

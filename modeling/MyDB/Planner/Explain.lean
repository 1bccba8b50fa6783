import MyDB.Planner.Planner
import MyDB.Lib.Fallible

/-! `EXPLAIN` against the plan: the lines of `Explain` are those of the tree that
`Plan` builds for some statements only. -/

namespace MyDB.Executor.Operator
open MyDB.Planner

/-- What a line names for the operator; the planner uses no parallel operators. -/
def label : Operator → Option NodeLabel
  | .seqScan info _ => some (.seqScan info.name)
  | .filter .. => some .filter
  | .projection .. => some .projection
  | .hashJoin .. => some .hashJoin
  | .sort .. => some .sort
  | .hashAggregate .. => some .hashAggregate
  | .parallelSeqScan .. | .parallelHashJoin .. | .parallelSort .. => none

/-- The tree with one line for each operator, children one level below their parent. -/
def lines (depth : Nat) : Operator → List (Nat × Option NodeLabel)
  | .seqScan info schema => [(depth, (seqScan info schema).label)]
  | .filter child p => (depth, (filter child p).label) :: child.lines (depth + 1)
  | .projection child es schema => (depth, (projection child es schema).label) :: child.lines (depth + 1)
  | .hashJoin left right lk rk =>
    (depth, (hashJoin left right lk rk).label) :: (left.lines (depth + 1) ++ right.lines (depth + 1))
  | .sort child ob => (depth, (sort child ob).label) :: child.lines (depth + 1)
  | .hashAggregate child g a schema =>
    (depth, (hashAggregate child g a schema).label) :: child.lines (depth + 1)
  | .parallelSeqScan info schema n => [(depth, (parallelSeqScan info schema n).label)]
  | .parallelHashJoin left right lk rk n b =>
    (depth, (parallelHashJoin left right lk rk n b).label) :: (left.lines (depth + 1) ++ right.lines (depth + 1))
  | .parallelSort child ob n => (depth, (parallelSort child ob n).label) :: child.lines (depth + 1)

theorem lines_head (op : Operator) (depth : Nat) : (op.lines depth).head? = some (depth, op.label) := by
  cases op <;> rfl

end MyDB.Executor.Operator

namespace MyDB.Planner
open MyDB.Parser MyDB.Executor MyDB.Lib

def asTree (l : List (Nat × NodeLabel)) : List (Nat × Option NodeLabel) := l.map fun x => (x.1, some x.2)

theorem getTable_mem {catalog : Catalog} {table : Str} {info : TableInfo} (h : catalog.getTable table = .ok info) :
    info ∈ catalog.tables ∧ info.name = table := by
  rw [Catalog.getTable] at h
  cases hfind : catalog.find table with
  | none =>
    rw [hfind] at h
    cases h
  | some found =>
    rw [hfind] at h
    cases pure_eq_ok.mp h
    exact ⟨List.mem_of_find?_eq_some hfind, by simpa using List.find?_some hfind⟩

theorem scanTable_eq_ok {catalog : Catalog} {table aliasName : Str} {op : Operator} :
    scanTable catalog table aliasName = .ok op ↔ ∃ info, catalog.getTable table = .ok info ∧
      op = .seqScan info (makeOutputSchema info.schema (if aliasName = [] then table else aliasName)) := by
  rw [scanTable, bind_eq_ok]
  constructor
  · rintro ⟨info, hinfo, h⟩
    exact ⟨info, hinfo, (pure_eq_ok.mp h).symm⟩
  · rintro ⟨info, hinfo, rfl⟩
    exact ⟨info, hinfo, rfl⟩

theorem scanTable_ok {catalog : Catalog} {table aliasName : Str} {op : Operator}
    (h : scanTable catalog table aliasName = .ok op) :
    ∃ info schema, op = .seqScan info schema ∧ info.name = table := by
  obtain ⟨info, hinfo, rfl⟩ := scanTable_eq_ok.mp h
  exact ⟨info, _, rfl, (getTable_mem hinfo).2⟩

theorem planJoins_cons_ok {catalog : Catalog} {join : JoinClause} {joins : List JoinClause}
    {base op : Operator} (h : planJoins catalog (join :: joins) base = .ok op) :
    ∃ left right lk rk, op = .hashJoin left right lk rk ∧
      (joins = [] → left = base ∧ ∃ info schema, right = .seqScan info schema ∧ info.name = join.tableName) ∧
      (joins ≠ [] → left.label = some .hashJoin) := by
  induction joins generalizing join base with
  | nil =>
    rw [planJoins] at h
    obtain ⟨right, hright, h⟩ := bind_eq_ok.mp h
    obtain ⟨info, schema, rfl, hname⟩ := scanTable_ok hright
    split at h
    · cases h
      exact ⟨_, _, _, _, rfl, fun _ => ⟨rfl, info, schema, rfl, hname⟩, fun e => absurd rfl e⟩
    · cases h
  | cons next joins ih =>
    rw [planJoins] at h
    obtain ⟨right, -, h⟩ := bind_eq_ok.mp h
    split at h
    · obtain ⟨left, last, lk, rk, rfl, hone, hmore⟩ := ih h
      refine ⟨left, last, lk, rk, rfl, fun e => absurd e (List.cons_ne_nil _ _), fun _ => ?_⟩
      by_cases hj : joins = []
      · rw [(hone hj).1]
        rfl
      · exact hmore hj
    · cases h

theorem explainInput_iff {catalog : Catalog} {stmt : SelectStmt} {base op : Operator} (depth : Nat)
    (hbase : scanTable catalog stmt.fromTable stmt.fromAlias = .ok base)
    (h : planJoins catalog stmt.joins base = .ok op) :
    asTree (explainInput stmt depth) = op.lines depth ↔ stmt.joins.length ≤ 1 := by
  obtain ⟨info, schema, rfl, hname⟩ := scanTable_ok hbase
  unfold explainInput
  cases hj : stmt.joins with
  | nil =>
    rw [hj] at h
    cases h
    simp [asTree, Operator.lines, Operator.label, hname]
  | cons join joins =>
    rw [hj] at h
    obtain ⟨left, right, lk, rk, rfl, hone, hmore⟩ := planJoins_cons_ok h
    rw [if_neg (List.cons_ne_nil _ _)]
    by_cases hjoins : joins = []
    · obtain ⟨rfl, info', schema', rfl, hname'⟩ := hone hjoins
      simp [asTree, Operator.lines, Operator.label, hname, hname', hjoins]
    · -- the second line is a scan here and a join there
      have hhead : (left.lines (depth + 1)).head? = some (depth + 1, some .hashJoin) := by
        rw [Operator.lines_head, hmore hjoins]
      have hlen : ¬ (join :: joins).length ≤ 1 := by
        simpa using hjoins
      refine ⟨fun heq => ?_, fun hle => absurd hle hlen⟩
      obtain ⟨x, rest, hx⟩ : ∃ x rest, left.lines (depth + 1) = x :: rest :=
        List.exists_cons_of_ne_nil fun e => by rw [e] at hhead; cases hhead
      rw [hx] at hhead
      cases hhead
      simp [asTree, Operator.lines, hx] at heq

theorem lines_planSort (orderBy : List OrderByItem) (op : Operator) (depth : Nat) :
    (planSort orderBy op).lines depth =
      if orderBy ≠ [] then (depth, some .sort) :: op.lines (depth + 1) else op.lines depth := by
  unfold planSort
  by_cases h : orderBy = []
  · rw [if_pos h, if_neg (not_not.mpr h)]
  · rw [if_neg h, if_pos h]
    rfl

theorem asTree_explainNode_iff {c : Prop} [Decidable c] {label : NodeLabel}
    {rest : Nat → List (Nat × NodeLabel)} {t : Nat → List (Nat × Option NodeLabel)} {P : Prop}
    (h : ∀ depth, asTree (rest depth) = t depth ↔ P) (depth : Nat) :
    asTree (explainNode c label rest depth) =
      (if c then (depth, some label) :: t (depth + 1) else t depth) ↔ P := by
  unfold explainNode
  by_cases hc : c
  · rw [if_pos hc, if_pos hc, ← h (depth + 1)]
    exact List.cons_inj_right _
  · rw [if_neg hc, if_neg hc]
    exact h depth

theorem planInput_ok {catalog : Catalog} {stmt : SelectStmt} {op : Operator}
    (h : planInput catalog stmt = .ok op) :
    ∃ base joined, scanTable catalog stmt.fromTable stmt.fromAlias = .ok base ∧
      planJoins catalog stmt.joins base = .ok joined ∧ op = planFilter stmt.whereClause joined := by
  obtain ⟨base, hbase, h⟩ := bind_eq_ok.mp h
  obtain ⟨joined, hjoined, h⟩ := bind_eq_ok.mp h
  exact ⟨base, joined, hbase, hjoined, (pure_eq_ok.mp h).symm⟩

theorem planInput_label {catalog : Catalog} {stmt : SelectStmt} {op : Operator}
    (h : planInput catalog stmt = .ok op) : op.label ≠ some .hashAggregate := by
  obtain ⟨base, joined, hbase, hjoined, rfl⟩ := planInput_ok h
  cases stmt.whereClause with
  | some predicate => exact fun e => by cases e
  | none =>
    change joined.label ≠ _
    cases hj : stmt.joins with
    | nil =>
      rw [hj] at hjoined
      cases hjoined
      obtain ⟨info, schema, rfl, -⟩ := scanTable_ok hbase
      exact fun e => by cases e
    | cons join joins =>
      rw [hj] at hjoined
      obtain ⟨left, right, lk, rk, rfl, -⟩ := planJoins_cons_ok hjoined
      exact fun e => by cases e

theorem explainFilter_iff {catalog : Catalog} {stmt : SelectStmt} {op : Operator}
    (h : planInput catalog stmt = .ok op) (depth : Nat) :
    asTree (explainNode (stmt.whereClause.isSome) .filter (explainInput stmt) depth) = op.lines depth ↔
      stmt.joins.length ≤ 1 := by
  obtain ⟨base, joined, hbase, hjoined, rfl⟩ := planInput_ok h
  have hlines : (planFilter stmt.whereClause joined).lines depth =
      if stmt.whereClause.isSome then (depth, some .filter) :: joined.lines (depth + 1)
      else joined.lines depth := by
    cases stmt.whereClause <;> rfl
  rw [hlines]
  exact asTree_explainNode_iff (fun d => explainInput_iff d hbase hjoined) depth

theorem hasAggregate_of_isStar {list : List SelectItem} (h : isStar list = true) :
    hasAggregate list = false := by
  match list, h with
  | [item], h =>
    have hstar : item.expr = .star := by simpa [isStar] using h
    simp [hasAggregate, hstar, isAggregate]

/-- `Explain` prints the tree that `Plan` builds exactly if there is at most one
join, no `GROUP BY` beside `*`, and no `ORDER BY` over a projection. -/
theorem explainLines_eq_plan_iff (catalog : Catalog) (stmt : SelectStmt) (op : Operator)
    (h : plan catalog stmt = .ok op) :
    asTree (explainLines stmt) = op.lines 0 ↔
      stmt.joins.length ≤ 1 ∧
      (if isStar stmt.selectList then stmt.groupBy = []
        else hasAggregate stmt.selectList ∨ stmt.groupBy ≠ [] ∨ stmt.orderBy = []) := by
  obtain ⟨input, hinput, h⟩ := bind_eq_ok.mp h
  have hrest := explainFilter_iff hinput
  simp only [explainLines]
  by_cases hstar : isStar stmt.selectList = true
  · rw [if_pos hstar] at h
    cases h
    rw [if_pos hstar, lines_planSort]
    refine asTree_explainNode_iff (t := fun depth => input.lines depth) (fun depth => ?_) 0
    by_cases hgroup : stmt.groupBy = []
    · have hagg : ¬ (hasAggregate stmt.selectList = true ∨ stmt.groupBy ≠ []) := by
        simp [hasAggregate_of_isStar hstar, hgroup]
      rw [explainNode, if_neg hagg, explainNode, if_neg fun e => e.2 hstar, hrest]
      exact (and_iff_left hgroup).symm
    · -- an aggregate is printed that the plan does not have
      have hagg : hasAggregate stmt.selectList = true ∨ stmt.groupBy ≠ [] := Or.inr hgroup
      rw [explainNode, if_pos hagg]
      refine iff_of_false (fun heq => ?_) fun e => hgroup e.2
      have hhead := congrArg List.head? heq
      rw [Operator.lines_head] at hhead
      exact planInput_label hinput (congrArg Prod.snd (Option.some.inj hhead)).symm
  · rw [if_neg hstar] at h
    rw [if_neg hstar]
    by_cases hagg : hasAggregate stmt.selectList = true ∨ stmt.groupBy ≠ []
    · rw [if_pos hagg] at h
      obtain ⟨schema, -, h⟩ := bind_eq_ok.mp h
      cases h
      rw [lines_planSort]
      refine asTree_explainNode_iff (t := fun depth => Operator.lines depth (.hashAggregate input _ _ schema))
        (fun depth => ?_) 0
      have hcond : hasAggregate stmt.selectList = true ∨ stmt.groupBy ≠ [] ∨ stmt.orderBy = [] := by
        tauto
      rw [explainNode, if_pos hagg, explainNode, if_neg fun e => e.1 hagg, and_iff_left hcond,
        ← hrest (depth + 1)]
      exact List.cons_inj_right _
    · rw [if_neg hagg] at h
      obtain ⟨schema, -, h⟩ := bind_eq_ok.mp h
      cases h
      have hproj : ∀ depth, explainNode (hasAggregate stmt.selectList = true ∨ stmt.groupBy ≠ [])
          .hashAggregate (explainNode (¬ (hasAggregate stmt.selectList = true ∨ stmt.groupBy ≠ []) ∧
            ¬ isStar stmt.selectList = true) .projection
              (explainNode (stmt.whereClause.isSome) .filter (explainInput stmt))) depth =
          (depth, .projection) :: explainNode (stmt.whereClause.isSome) .filter (explainInput stmt) (depth + 1) := by
        intro depth
        rw [explainNode, if_neg hagg, explainNode, if_pos ⟨hagg, hstar⟩]
      by_cases hsort : stmt.orderBy = []
      · rw [explainNode, if_neg (not_not.mpr hsort), hproj, and_iff_left (Or.inr (Or.inr hsort)), ← hrest 1]
        simp only [Operator.lines, Operator.label, planSort, if_pos hsort]
        exact List.cons_inj_right _
      · -- the sort is printed above the projection and stands below it
        refine iff_of_false (fun heq => ?_) fun e => ?_
        · rw [explainNode, if_pos hsort] at heq
          have hhead := congrArg List.head? heq
          rw [Operator.lines_head] at hhead
          cases hhead
        · tauto

/-- `CREATE TABLE users (name VARCHAR(16), age INT)`. -/
def usersTable : TableInfo :=
  let schema : Schema := ⟨[⟨lit "name", .varchar, 16⟩, ⟨lit "age", .int⟩]⟩
  ⟨lit "users", schema, schema, 0, 0⟩

/-- `SELECT name FROM users ORDER BY age`. -/
def namesByAge : SelectStmt :=
  { selectList := [⟨.columnRef [] (lit "name"), []⟩], fromTable := lit "users", fromAlias := [], joins := [],
    whereClause := none, groupBy := [], orderBy := [⟨.columnRef [] (lit "age"), true⟩] }

theorem explainLines_eq_plan_star :
    ∃ op, plan ⟨[usersTable]⟩ { namesByAge with selectList := [⟨.star, []⟩] } = .ok op ∧
      asTree (explainLines { namesByAge with selectList := [⟨.star, []⟩] }) = op.lines 0 := by
  refine ⟨_, rfl, (explainLines_eq_plan_iff ⟨[usersTable]⟩ _ _ rfl).mpr ?_⟩
  decide

/-- The plan of `namesByAge` is a projection over the sort. -/
theorem explain_sort_above_projection :
    ∃ op, plan ⟨[usersTable]⟩ namesByAge = .ok op ∧
      explain namesByAge = lit "Sort\n  Projection\n    SeqScan [users]\n" ∧
      op.lines 0 = [(0, some .projection), (1, some .sort), (2, some (.seqScan (lit "users")))] ∧
      asTree (explainLines namesByAge) ≠ op.lines 0 := by
  refine ⟨_, rfl, ?_, rfl, ?_⟩
  · decide
  · decide

end MyDB.Planner

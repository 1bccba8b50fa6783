import MyDB.Executor.Operator
import MyDB.Lib.Mirror
import MyDB.Planner.PlanRows

/-! An operator sees a table only through its scan. A plan over a catalog does, with
other entries for the same tables and other scans of them, what it did before. -/

namespace MyDB.Executor.Operator
open MyDB.Parser MyDB.Lib MyDB.Planner

/-! ## Other entries for the tables -/

section tables
variable (f : TableInfo → TableInfo)

def mapTables : Operator → Operator
  | .seqScan info schema => .seqScan (f info) schema
  | .filter child predicate => .filter child.mapTables predicate
  | .projection child exprs schema => .projection child.mapTables exprs schema
  | .hashJoin left right leftKey rightKey => .hashJoin left.mapTables right.mapTables leftKey rightKey
  | .sort child orderBy => .sort child.mapTables orderBy
  | .hashAggregate child groupBy aggExprs schema => .hashAggregate child.mapTables groupBy aggExprs schema
  | .parallelSeqScan info schema nThreads => .parallelSeqScan (f info) schema nThreads
  | .parallelHashJoin left right leftKey rightKey nThreads bucketCount =>
    .parallelHashJoin left.mapTables right.mapTables leftKey rightKey nThreads bucketCount
  | .parallelSort child orderBy nThreads => .parallelSort child.mapTables orderBy nThreads

def mapState : (op : Operator) → op.State → (op.mapTables f).State
  | .seqScan .., s => s
  | .filter child _, s => child.mapState s
  | .projection child _ _, s => child.mapState s
  | .hashJoin left right _ _, (sl, sr, s) => (left.mapState sl, right.mapState sr, s)
  | .sort child _, (sc, s) => (child.mapState sc, s)
  | .hashAggregate child _ _ _, (sc, s) => (child.mapState sc, s)
  | .parallelSeqScan .., s => s
  | .parallelHashJoin left right _ _ _ _, (sl, sr, s) => (left.mapState sl, right.mapState sr, s)
  | .parallelSort child _ _, (sc, s) => (child.mapState sc, s)

theorem outputSchema_mapTables (op : Operator) : (op.mapTables f).outputSchema = op.outputSchema := by
  induction op with
  | seqScan info schema => rfl
  | filter child predicate ih => exact ih
  | projection child exprs schema ih => rfl
  | hashJoin left right leftKey rightKey hl hr => exact congrArg₂ concatSchemas hl hr
  | sort child orderBy ih => exact ih
  | hashAggregate child groupBy aggExprs schema ih => rfl
  | parallelSeqScan info schema nThreads => rfl
  | parallelHashJoin left right leftKey rightKey nThreads bucketCount hl hr => exact congrArg₂ concatSchemas hl hr
  | parallelSort child orderBy nThreads ih => exact ih

theorem fresh_mapTables (op : Operator) : (op.mapTables f).fresh = op.mapState f op.fresh := by
  induction op with
  | seqScan info schema => rfl
  | filter child predicate ih => exact ih
  | projection child exprs schema ih => exact ih
  | hashJoin left right leftKey rightKey hl hr => exact congrArg₂ (fun sl sr => (sl, sr, _)) hl hr
  | sort child orderBy ih => exact congrArg (fun sc => (sc, _)) ih
  | hashAggregate child groupBy aggExprs schema ih => exact congrArg (fun sc => (sc, _)) ih
  | parallelSeqScan info schema nThreads => rfl
  | parallelHashJoin left right leftKey rightKey nThreads bucketCount hl hr =>
    exact congrArg₂ (fun sl sr => (sl, sr, _)) hl hr
  | parallelSort child orderBy nThreads ih => exact congrArg (fun sc => (sc, _)) ih

theorem bound_mapState (op : Operator) (s : op.State) : (op.mapTables f).bound (op.mapState f s) = op.bound s := by
  induction op with
  | filter child predicate ih => exact ih s
  | projection child exprs schema ih => exact ih s
  | seqScan | hashJoin | sort | hashAggregate | parallelSeqScan | parallelHashJoin | parallelSort => rfl

theorem close_mapState (op : Operator) (s : op.State) :
    (op.mapTables f).close (op.mapState f s) = op.mapState f (op.close s) := by
  induction op with
  | filter child predicate ih => exact ih s
  | projection child exprs schema ih => exact ih s
  | seqScan | hashJoin | sort | hashAggregate | parallelSeqScan | parallelHashJoin | parallelSort => rfl

variable (std : Std)

theorem step_rename {A C D : Type} (x : Except Fault (Option Tuple × A)) (put : A → C) (r : C → D) :
    (x >>= fun p => pure (p.1, r (put p.2))) = (x >>= fun p => pure (p.1, put p.2)).map (Prod.map id r) := by
  cases x with
  | error e => rfl
  | ok p => rfl

theorem next_renames (op : Operator) : Renames (op.next std) ((op.mapTables f).next std) (op.mapState f) := by
  induction op with
  | seqScan info schema => exact fun s => (id_map (f := Except Fault) (Buffer.next s)).symm
  | filter child predicate ih =>
    intro (s : child.State)
    have h : filterNext ((child.mapTables f).next std) (evalPred predicate · (child.mapTables f).outputSchema) .diverges
          ((child.mapTables f).bound (child.mapState f s) + 1) (child.mapState f s) =
        (filterNext (child.next std) (evalPred predicate · child.outputSchema) .diverges (child.bound s + 1) s).map
          (Prod.map id (child.mapState f)) := by
      rw [bound_mapState, outputSchema_mapTables]
      exact filterNext_rename ih _ _ _ s
    exact h
  | projection child exprs schema ih =>
    intro (s : child.State)
    have h : mapNext ((child.mapTables f).next std)
          (fun t => do Tuple.ofValues (← exprs.mapM (evalExpr · t (child.mapTables f).outputSchema)) schema)
          (child.mapState f s) =
        (mapNext (child.next std) (fun t => do Tuple.ofValues (← exprs.mapM (evalExpr · t child.outputSchema)) schema)
          s).map (Prod.map id (child.mapState f)) := by
      rw [outputSchema_mapTables]
      exact mapNext_rename ih _ s
    exact h
  | hashJoin left right leftKey rightKey hl hr =>
    rintro ⟨sl, sr, s⟩
    change (JoinState.next rightKey (left.mapTables f).outputSchema (right.mapTables f).outputSchema
      (s.rightBuffer.length - s.rightCursor + 1) s >>= fun p => pure (p.1, left.mapState f sl, right.mapState f sr, p.2)) = _
    rw [outputSchema_mapTables, outputSchema_mapTables]
    exact step_rename _ (fun s => (sl, sr, s)) (mapState f (.hashJoin left right leftKey rightKey))
  | sort child orderBy ih =>
    rintro ⟨sc, s⟩
    exact step_rename s.next (fun s => (sc, s)) (mapState f (.sort child orderBy))
  | hashAggregate child groupBy aggExprs schema ih =>
    rintro ⟨sc, s⟩
    exact step_rename (s.next aggExprs schema) (fun s => (sc, s)) (mapState f (.hashAggregate child groupBy aggExprs schema))
  | parallelSeqScan info schema nThreads => exact fun s => (id_map (f := Except Fault) (Buffer.next s)).symm
  | parallelHashJoin left right leftKey rightKey nThreads bucketCount hl hr =>
    rintro ⟨sl, sr, s⟩
    exact step_rename s.next (fun s => (sl, sr, s))
      (mapState f (.parallelHashJoin left right leftKey rightKey nThreads bucketCount))
  | parallelSort child orderBy nThreads ih =>
    rintro ⟨sc, s⟩
    change (s.next std (tupleLess (child.mapTables f).outputSchema orderBy) >>= fun p =>
      pure (p.1, child.mapState f sc, p.2)) = _
    rw [outputSchema_mapTables]
    exact step_rename _ (fun s => (sc, s)) (mapState f (.parallelSort child orderBy nThreads))

theorem consume_mapState {β : Type} (op : Operator) (body : β → Tuple → Except Fault β) (b : β) (s : op.State) :
    (op.mapTables f).consume std body b (op.mapState f s) =
      (op.consume std body b s).map (Prod.map id (op.mapState f)) := by
  rw [consume, consume, bound_mapState, whileNext_rename (next_renames f std op)]
  cases whileNext (op.next std) body .diverges (op.bound s + 1) s b with
  | error e => rfl
  | ok p => exact congrArg (fun s => Except.ok (p.1, s)) (close_mapState f op p.2)

end tables

/-! ## Other scans -/

section scans
variable {σ τ α β : Type} {R : σ → τ → Prop} {f : TableInfo → TableInfo} {env : Env σ} {env' : Env τ}

theorem mirrors_ofExcept (x : Except Fault α) (g : α → β) : Mirrors R g (ofExcept x) (ofExcept (x.map g)) := by
  cases x with
  | error e => exact Mirrors.throw g e
  | ok a => exact Mirrors.pure g a

theorem mirrors_same (x : Except Fault α) : Mirrors R id (ofExcept x) (ofExcept x) := by
  cases x with
  | error e => exact Mirrors.throw id e
  | ok a => exact Mirrors.pure id a

def InitMirrors (R : σ → τ → Prop) (f : TableInfo → TableInfo) (env : Env σ) (env' : Env τ) (op : Operator) : Prop :=
  ∀ st : op.State, Mirrors R (op.mapState f) (op.init env st) ((op.mapTables f).init env' (op.mapState f st))

theorem initMirrors_sort (hstd : env'.std = env.std) {child : Operator} (h : InitMirrors R f env env' child)
    (orderBy : List OrderByItem) : InitMirrors R f env env' (.sort child orderBy) := by
  rintro ⟨sc, b⟩
  refine (h sc).bind fun sc => ?_
  rw [hstd, consume_mapState]
  refine (mirrors_ofExcept _ _).bind fun r => ?_
  rw [outputSchema_mapTables]
  refine (mirrors_same _).bind fun ts => ?_
  exact Mirrors.pure (mapState f (.sort child orderBy)) (r.2, ⟨ts, 0⟩)

theorem initMirrors_hashAggregate (hstd : env'.std = env.std) {child : Operator} (h : InitMirrors R f env env' child)
    (groupBy : List Expr) (aggExprs : List AggExpr) (schema : Schema) :
    InitMirrors R f env env' (.hashAggregate child groupBy aggExprs schema) := by
  rintro ⟨sc, b⟩
  refine (h sc).bind fun sc => ?_
  rw [hstd, consume_mapState, outputSchema_mapTables]
  refine (mirrors_ofExcept _ _).bind fun r => ?_
  exact Mirrors.pure (mapState f (.hashAggregate child groupBy aggExprs schema)) (r.2, ⟨r.1, 0⟩)

theorem initMirrors_hashJoin (hstd : env'.std = env.std) {left right : Operator} (hleft : InitMirrors R f env env' left)
    (hright : InitMirrors R f env env' right) (leftKey rightKey : Expr) :
    InitMirrors R f env env' (.hashJoin left right leftKey rightKey) := by
  rintro ⟨sl, sr, s⟩
  refine (hleft sl).bind fun sl => ?_
  rw [hstd, consume_mapState, outputSchema_mapTables]
  refine (mirrors_ofExcept _ _).bind fun r => ?_
  refine (hright sr).bind fun sr => ?_
  rw [consume_mapState]
  refine (mirrors_ofExcept _ _).bind fun r' => ?_
  exact Mirrors.pure (mapState f (.hashJoin left right leftKey rightKey)) (r.2, r'.2, ⟨r.1, r'.1, 0, 0, s.currentKey⟩)

end scans

/-! ## Plans -/

section plans
variable {σ τ : Type} {R : σ → τ → Prop} {f : TableInfo → TableInfo} {env : Env σ} {env' : Env τ} {catalog : Catalog}
  {stmt : SelectStmt}

structure SameTables (f : TableInfo → TableInfo) : Prop where
  name_eq : ∀ info, (f info).name = info.name
  schema_eq : ∀ info, (f info).schema = info.schema

theorem getTable_map (hf : SameTables f) (catalog : Catalog) (name : Str) :
    Catalog.getTable ⟨catalog.tables.map f⟩ name = (catalog.getTable name).map f := by
  have hfind : Catalog.find ⟨catalog.tables.map f⟩ name = (catalog.find name).map f := by
    rw [Catalog.find, List.find?_map, Catalog.find]
    congr 2
    funext info
    exact congrArg (fun n => decide (n = name)) (hf.name_eq info)
  rw [Catalog.getTable, Catalog.getTable, hfind]
  cases catalog.find name with
  | none => rfl
  | some info => rfl

theorem scanTable_map (hf : SameTables f) (table aliasName : Str) :
    scanTable ⟨catalog.tables.map f⟩ table aliasName = (scanTable catalog table aliasName).map (mapTables f) := by
  rw [scanTable, scanTable, getTable_map hf]
  cases catalog.getTable table with
  | error e => rfl
  | ok info =>
    change Except.ok (Operator.seqScan (f info) (makeOutputSchema (f info).schema _)) = _
    rw [hf.schema_eq]
    rfl

theorem planJoins_map (hf : SameTables f) (joins : List JoinClause) (op : Operator) :
    planJoins ⟨catalog.tables.map f⟩ joins (op.mapTables f) = (planJoins catalog joins op).map (mapTables f) := by
  induction joins generalizing op with
  | nil => rfl
  | cons join joins ih =>
    rw [planJoins, planJoins, scanTable_map hf]
    cases scanTable catalog join.tableName join.aliasName with
    | error e => rfl
    | ok right =>
      dsimp only [Except.map, bind, Except.bind]
      split
      · next leftKey rightKey _ => exact ih (.hashJoin op right leftKey rightKey)
      · rfl

theorem planFilter_map (whereClause : Option Expr) (op : Operator) :
    planFilter whereClause (op.mapTables f) = (planFilter whereClause op).mapTables f := by
  cases whereClause with
  | none => rfl
  | some p => rfl

theorem planSort_map (orderBy : List OrderByItem) (op : Operator) :
    planSort orderBy (op.mapTables f) = (planSort orderBy op).mapTables f := by
  unfold planSort
  split_ifs
  · rfl
  · rfl

theorem planInput_map (hf : SameTables f) (stmt : SelectStmt) :
    planInput ⟨catalog.tables.map f⟩ stmt = (planInput catalog stmt).map (mapTables f) := by
  rw [planInput, planInput, scanTable_map hf]
  cases scanTable catalog stmt.fromTable stmt.fromAlias with
  | error e => rfl
  | ok scan =>
    change (planJoins ⟨catalog.tables.map f⟩ stmt.joins (scan.mapTables f) >>= _) = _
    rw [planJoins_map hf]
    change _ = (planJoins catalog stmt.joins scan >>= fun base => pure (planFilter stmt.whereClause base)).map _
    cases planJoins catalog stmt.joins scan with
    | error e => rfl
    | ok base => exact congrArg Except.ok (planFilter_map stmt.whereClause base)

theorem plan_map (hf : SameTables f) (catalog : Catalog) (stmt : SelectStmt) :
    plan ⟨catalog.tables.map f⟩ stmt = (plan catalog stmt).map (mapTables f) := by
  rw [plan, plan, planInput_map hf]
  cases planInput catalog stmt with
  | error e => rfl
  | ok input =>
    dsimp only [Except.map, bind, Except.bind]
    split_ifs
    · exact congrArg Except.ok (planSort_map stmt.orderBy input)
    · rw [outputSchema_mapTables]
      cases buildAggSchema stmt.groupBy (stmt.selectList.filterMap aggExpr) input.outputSchema with
      | error e => rfl
      | ok schema => exact congrArg Except.ok (planSort_map stmt.orderBy (.hashAggregate input _ _ schema))
    · rw [planSort_map, outputSchema_mapTables]
      cases buildProjectionSchema stmt.selectList (planSort stmt.orderBy input).outputSchema with
      | error e => rfl
      | ok schema => rfl

theorem plan_mirrors (hstd : env'.std = env.std)
    (hscan : ∀ info ∈ catalog.tables, Mirrors R id (env.scan info) (env'.scan (f info))) {op : Operator}
    (hplan : plan catalog stmt = .ok op) : InitMirrors R f env env' op := by
  obtain ⟨input, hinput, hop⟩ := plan_eq_ok.mp hplan
  obtain ⟨base, hbase, rfl⟩ := planInput_eq_ok.mp hinput
  have hbase' : InitMirrors R f env env' base := by
    refine planBase_induction (motive := InitMirrors R f env env') ?_ ?_ hbase
    · intro left right leftKey rightKey hleft hright
      exact initMirrors_hashJoin hstd hleft hright leftKey rightKey
    · intro info hinfo aliasName st
      refine (hscan info hinfo).bind fun ts => ?_
      exact Mirrors.pure (mapState f (.seqScan info (makeOutputSchema info.schema aliasName))) ⟨ts, 0⟩
  have hfilter : InitMirrors R f env env' (planFilter stmt.whereClause base) := by
    cases stmt.whereClause with
    | none => exact hbase'
    | some p => exact hbase'
  have hsort {op : Operator} (h : InitMirrors R f env env' op) : InitMirrors R f env env' (planSort stmt.orderBy op) := by
    unfold planSort
    split_ifs
    · exact h
    · exact initMirrors_sort hstd h stmt.orderBy
  split_ifs at hop
  · subst hop
    exact hsort hfilter
  · obtain ⟨schema, -, rfl⟩ := hop
    exact hsort (initMirrors_hashAggregate hstd hfilter _ _ schema)
  · obtain ⟨schema, -, rfl⟩ := hop
    have hsorted := hsort hfilter
    exact hsorted

end plans

end MyDB.Executor.Operator

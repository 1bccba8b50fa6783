import MyDB.Database.UncheckedItems
import MyDB.Executor.Outcomes

/-! The run of a plan whose items were not checked. On the rows that scans, joins and
filters leave, a plan ends by exceptions only, if each string literal of its `Projection`
has the 255 bytes that it takes, where the planner gives it the width of an `INT`, and if
each aggregate but `COUNT` has an argument. Otherwise the first row is where it goes wrong,
if nothing throws before. -/

namespace MyDB

namespace Executor.Operator
open MyDB.Parser MyDB.Lib MyDB.Planner
variable {σ : Type} {env : Env σ} {I : σ → Prop} {contents : TableInfo → List Tuple} {child op : Operator}

/-- The rows of a tree of scans, joins and filters, from the rows of its tables. -/
def rowsOf (contents : TableInfo → List Tuple) : Operator → List Tuple
  | .seqScan info _ => contents info
  | .filter child predicate => (child.rowsOf contents).filter (satisfies (some predicate) child.outputSchema)
  | .hashJoin left right leftKey rightKey =>
    partnerRows left.outputSchema right.outputSchema leftKey rightKey (left.rowsOf contents) (right.rowsOf contents)
  | .sort child _ => child.rowsOf contents
  | _ => []

def Guarded (contents : TableInfo → List Tuple) : Operator → Prop
  | .projection child exprs schema => child.rowsOf contents ≠ [] → ∀ (i : Nat) s,
      exprs[i]? = some (.stringLiteral s) → schema.columnOffset i + 255 ≤ schema.tupleSize
  | .hashAggregate child _ aggExprs _ => child.rowsOf contents ≠ [] → ∀ ae ∈ aggExprs, HasArgument ae
  | .sort child _ => child.Guarded contents
  | _ => True

/-- The scans return the tuples of the tables, whatever was read before. -/
structure Shows (env : Env σ) (I : σ → Prop) (catalog : Catalog) (contents : TableInfo → List Tuple) : Prop where
  scan : ∀ info ∈ catalog.tables, ∀ s, I s → ∃ s', env.scan info s = .ok (contents info) s' ∧ I s'
  sized : ∀ info ∈ catalog.tables, ∀ t ∈ contents info, t.length = info.schema.tupleSize

theorem mem_partnerRows {ls rs : Schema} {leftKey rightKey : Expr} {lefts rights : List Tuple} {t : Tuple} :
    t ∈ partnerRows ls rs leftKey rightKey lefts rights ↔
      ∃ l r, l ∈ lefts ∧ r ∈ rights ∧ Partners ls rs leftKey rightKey l r ∧ t = l ++ r := by
  simp only [partnerRows, List.mem_flatMap, List.mem_map, List.mem_filter, decide_eq_true_eq]
  constructor
  · rintro ⟨r, hr, l, ⟨hl, hlr⟩, rfl⟩
    exact ⟨l, r, hl, hr, hlr, rfl⟩
  · rintro ⟨l, r, hl, hr, hlr, rfl⟩
    exact ⟨r, hr, l, ⟨hl, hlr⟩, rfl⟩

/-- The tree returns rows of `rowsOf`, which are as long as its schema says. -/
structure Sound (env : Env σ) (I : σ → Prop) (contents : TableInfo → List Tuple) (op : Operator) : Prop where
  emits : op.Emits env I (· ∈ op.rowsOf contents)
  sized : ∀ t ∈ op.rowsOf contents, t.length = op.outputSchema.tupleSize
  rows : ∀ s out s', I s → op.Evaluates env s out s' → (∀ t, t ∈ out ↔ t ∈ op.rowsOf contents) ∧ I s'

theorem Emits.imp {D D' : Tuple → Prop} (h : op.Emits env I D) (himp : ∀ t, D t → D' t) : op.Emits env I D' := by
  obtain ⟨J, hinit, hnext⟩ := h
  refine ⟨J, hinit, fun st hst => (hnext st hst).imp fun r hr => ⟨fun t ht => himp t (hr.1 t ht), hr.2⟩⟩

section plan
variable {catalog : Catalog} {stmt : SelectStmt}

theorem sound_hashJoin (hstd : Lawful env.std) {left right : Operator} (hleft : Sound env I contents left)
    (hright : Sound env I contents right) (leftKey rightKey : Expr) :
    Sound env I contents (.hashJoin left right leftKey rightKey) where
  emits := (emits_hashJoin hstd hleft.emits hright.emits hleft.sized hright.sized).imp fun _ ht => mem_partnerRows.mpr ht
  sized t ht := by
    obtain ⟨l, r, hl, hr, -, rfl⟩ := mem_partnerRows.mp ht
    rw [List.length_append, hleft.sized l hl, hright.sized r hr]
    exact (tupleSize_concatSchemas _ _).symm
  rows s out s' hs h := by
    obtain ⟨lefts, s₁, rights, -, -, hlefts, hrights, -⟩ := (evaluates_hashJoin_iff hstd).mp h
    obtain ⟨hl, hs₁⟩ := hleft.rows s lefts s₁ hs hlefts
    obtain ⟨hr, hs'⟩ := hright.rows s₁ rights s' hs₁ hrights
    obtain ⟨-, -, rfl, -⟩ := (evaluates_hashJoin_partners hstd hlefts hrights (fun l hmem => hleft.sized l ((hl l).mp hmem))
      fun r hmem => hright.sized r ((hr r).mp hmem)).mp h
    refine ⟨fun t => ?_, hs'⟩
    rw [rowsOf, mem_partnerRows, mem_partnerRows]
    simp only [hl, hr]

theorem sound_seqScan (hshows : Shows env I catalog contents) {info : TableInfo} (hinfo : info ∈ catalog.tables)
    (aliasName : Str) : Sound env I contents (.seqScan info (makeOutputSchema info.schema aliasName)) where
  emits := by
    refine emits_seqScan (fun s hs => ?_) _
    obtain ⟨s', hrun, hs'⟩ := hshows.scan info hinfo s hs
    rw [hrun]
    exact ⟨fun t ht => ht, hs'⟩
  sized t ht := by
    rw [hshows.sized info hinfo t ht]
    exact (tupleSize_eq_of_types (makeOutputSchema_types info.schema aliasName)).symm
  rows s out s' hs h := by
    obtain ⟨s₁, hrun, hs₁⟩ := hshows.scan info hinfo s hs
    cases hrun.symm.trans (evaluates_seqScan_iff.mp h)
    exact ⟨fun t => Iff.rfl, hs₁⟩

theorem sound_planFilter (hstd : Lawful env.std) (h : Sound env I contents child) (whereClause : Option Expr) :
    Sound env I contents (planFilter whereClause child) := by
  cases whereClause with
  | none => exact h
  | some p =>
    refine ⟨(emits_filter hstd h.emits h.sized p).imp ?_, fun t ht => h.sized t (List.mem_of_mem_filter ht), ?_⟩
    · rintro t ⟨ht, hp⟩
      refine List.mem_filter.mpr ⟨ht, ?_⟩
      rw [satisfies, hp]
    · intro s out s' hs hout
      obtain ⟨all, hall, -, rfl⟩ := (evaluates_planFilter_iff hstd).mp hout
      obtain ⟨hmem, hs'⟩ := h.rows s all s' hs hall
      refine ⟨fun t => ?_, hs'⟩
      rw [planFilter, rowsOf, List.mem_filter, List.mem_filter, hmem]

theorem sound_planInput (hstd : Lawful env.std) (hshows : Shows env I catalog contents) {input : Operator}
    (h : planInput catalog stmt = .ok input) : Sound env I contents input := by
  obtain ⟨base, hbase, rfl⟩ := planInput_eq_ok.mp h
  refine sound_planFilter hstd ?_ _
  refine planBase_induction (motive := Sound env I contents) ?_ ?_ hbase
  · intro left right leftKey rightKey hleft hright
    exact sound_hashJoin hstd hleft hright leftKey rightKey
  · intro info hinfo aliasName
    exact sound_seqScan hshows hinfo aliasName

/-! ## Projections and aggregates of a plan -/

theorem groupColumns_planInput (hplain : catalog.Plain) {input : Operator} (hinput : planInput catalog stmt = .ok input)
    {aggExprs : List AggExpr} {schema : Schema}
    (hbuild : buildAggSchema stmt.groupBy aggExprs input.outputSchema = .ok schema) :
    ∃ cols, GroupColumns input.outputSchema stmt.groupBy cols := by
  obtain ⟨base, hbase, rfl⟩ := planInput_eq_ok.mp hinput
  obtain ⟨cols, hcols, -⟩ := bind_eq_ok.mp hbuild
  rw [outputSchema_planFilter] at hcols ⊢
  exact groupColumns_of_named (planBase_named hplain hbase) hcols

/-- Nothing throws before the rows come to the items of a plan: its input can be evaluated,
and the arguments and items on its rows. -/
def Clear (env : Env σ) (s : σ) : Operator → Prop
  | .projection child exprs _ => ∃ rows s', child.Evaluates env s rows s' ∧ ∀ e ∈ exprs, Reads e child.outputSchema rows
  | .hashAggregate child _ aggExprs _ => ∃ rows s', child.Evaluates env s rows s' ∧
      ∀ ae ∈ aggExprs, ∀ e, ae.arg = some e → Reads e child.outputSchema rows
  | .sort child _ => child.Clear env s
  | _ => True

theorem Sound.first (h : Sound env I contents child) {s s' : σ} (hs : I s) {rows : List Tuple}
    (hrows : child.Evaluates env s rows s') (hne : child.rowsOf contents ≠ []) :
    ∃ t st st', t ∈ rows ∧ t.length = child.outputSchema.tupleSize ∧ child.init env child.fresh s = .ok st s' ∧
      child.next env.std st = .ok (some t, st') := by
  have hmem := (h.rows s rows s' hs hrows).1
  obtain ⟨st, hinit, st', hdrains⟩ := hrows
  cases hdrains with
  | done _ =>
    obtain ⟨t, ht⟩ := List.exists_mem_of_ne_nil _ hne
    exact absurd ((hmem t).mpr ht) List.not_mem_nil
  | more hnext _ => exact ⟨_, st, _, List.mem_cons_self, h.sized _ ((hmem _).mp List.mem_cons_self), hinit, hnext⟩

theorem updateAccs_nullPointer {schema : Schema} {t : Tuple} {aggExprs : List AggExpr} {accs : List Accumulator}
    (hread : ∀ ae ∈ aggExprs, ∀ e, ae.arg = some e → ∃ v, evalExpr e t schema = .ok v)
    (hlen : accs.length = aggExprs.length) (h : ¬ ∀ ae ∈ aggExprs, HasArgument ae) :
    AggState.updateAccs schema t aggExprs accs = .error .nullPointer := by
  induction aggExprs generalizing accs with
  | nil => exact absurd (List.forall_mem_nil _) h
  | cons ae aggExprs ih =>
    cases accs with
    | nil => cases hlen
    | cons a accs =>
      obtain ⟨hfirst, hrest⟩ := List.forall_mem_cons.mp hread
      by_cases harg : HasArgument ae
      · have hreads : ReadsArg ae schema t := by
          intro hfunc
          obtain ⟨e, he⟩ := Option.ne_none_iff_exists'.mp (harg hfunc)
          obtain ⟨v, hv⟩ := hfirst e he
          exact ⟨e, v, he, hv⟩
        rw [List.forall_mem_cons, not_and] at h
        rw [AggState.updateAccs, update_eq_ok.mpr ⟨hreads, rfl⟩]
        change AggState.updateAccs schema t aggExprs accs >>= _ = _
        rw [ih hrest (Nat.succ.inj hlen) (h harg)]
        rfl
      · obtain ⟨hfunc, hnone⟩ := Classical.not_imp.mp harg
        rw [AggState.updateAccs, update_nullPointer.mpr ⟨hfunc, not_not.mp hnone⟩]
        rfl

theorem add_nullPointer {schema : Schema} {t : Tuple} {groupBy : List Expr} {aggExprs : List AggExpr} {cols : List Column}
    (hgroup : GroupColumns schema groupBy cols) (ht : t.length = schema.tupleSize)
    (hread : ∀ ae ∈ aggExprs, ∀ e, ae.arg = some e → ∃ v, evalExpr e t schema = .ok v)
    (h : ¬ ∀ ae ∈ aggExprs, HasArgument ae) : AggState.add groupBy aggExprs schema [] t = .error .nullPointer := by
  have hnew : (newGroup groupBy aggExprs schema t).accs.length = aggExprs.length := List.length_map _
  rw [add_of_group (hgroup.reads ht).1, openGroups, List.any_nil, if_neg Bool.false_ne_true, List.nil_append,
    List.mapM_cons, updateEntry, if_pos rfl, updateAccs_nullPointer hread hnew h]
  rfl

theorem crashes_hashAggregate (h : Sound env I contents child) {groupBy : List Expr} {aggExprs : List AggExpr}
    {schema : Schema} {cols : List Column} (hgroup : GroupColumns child.outputSchema groupBy cols) {s : σ} (hs : I s)
    (hclear : (Operator.hashAggregate child groupBy aggExprs schema).Clear env s)
    (hguard : ¬ (Operator.hashAggregate child groupBy aggExprs schema).Guarded contents) :
    ∃ s', (Operator.hashAggregate child groupBy aggExprs schema).init env
      (Operator.hashAggregate child groupBy aggExprs schema).fresh s = .error .nullPointer s' := by
  obtain ⟨rows, s', hrows, hreads⟩ := hclear
  obtain ⟨hne, hstar⟩ := Classical.not_imp.mp hguard
  obtain ⟨t, st, st', hmem, ht, hinit, hnext⟩ := h.first hs hrows hne
  have hadd := add_nullPointer hgroup ht (fun ae hae e he => hreads ae hae e he t hmem) hstar
  have hconsume : child.consume env.std (AggState.add groupBy aggExprs child.outputSchema) [] st =
      .error .nullPointer := by
    rw [consume, whileNext, hnext]
    change (AggState.add groupBy aggExprs child.outputSchema [] t >>= _) >>= _ = _
    rw [hadd]
    rfl
  rw [fresh, init_hashAggregate, bind_ok hinit, hconsume]
  exact ⟨s', rfl⟩

/-- The run of a `HashAggregate`: if there is a row, and the arguments can be evaluated, its
`Init` evaluates a null pointer exactly if `*` is the argument of something else than `COUNT`. -/
theorem init_aggregate_iff (hstd : Lawful env.std) (hshows : Shows env I catalog contents) (hplain : catalog.Plain)
    {input : Operator} (hinput : planInput catalog stmt = .ok input) {schema : Schema}
    (hbuild : buildAggSchema stmt.groupBy (stmt.selectList.filterMap aggExpr) input.outputSchema = .ok schema) {s : σ}
    (hs : I s) (hne : input.rowsOf contents ≠ []) {op : Operator}
    (hop : op = .hashAggregate input stmt.groupBy (stmt.selectList.filterMap aggExpr) schema) (hclear : op.Clear env s) :
    (∀ s', op.init env op.fresh s ≠ .error .nullPointer s') ↔
      ∀ item ∈ stmt.selectList, ∀ func, item.expr = .aggregateStar func → func = .count := by
  have hsound := sound_planInput hstd hshows hinput
  obtain ⟨cols, hgroup⟩ := groupColumns_planInput hplain hinput hbuild
  subst hop
  constructor
  · intro h item hitem func hexpr
    by_contra hfunc
    have hguard : ¬ Guarded contents (.hashAggregate input stmt.groupBy (stmt.selectList.filterMap aggExpr) schema) := by
      intro hall
      exact hall hne _ (List.mem_filterMap.mpr ⟨item, hitem, aggExpr_aggregateStar hexpr⟩) hfunc rfl
    obtain ⟨s', hinit⟩ := crashes_hashAggregate hsound hgroup hs hclear hguard
    exact h s' hinit
  · intro h s' hinit
    obtain ⟨J, hends, -⟩ := emits_hashAggregate hstd hsound.emits hsound.sized hgroup hbuild fun _ _ => arg_ne_none h
    exact hends.error hs hinit

end plan

end Executor.Operator

end MyDB

import MyDB.Database.Select

/-! What `SELECT`s with aggregates answer: sums that are narrowed to 32 bits, the
missing row of an empty input, and minima of texts. -/

namespace MyDB.Database
open MyDB.Parser MyDB.Executor MyDB.Lib MyDB.Planner

variable {σ : Type} {env : Env σ} {catalog : Catalog} {stmt : SelectStmt} {input : Operator} {s s' s₁ : σ}
  {rows : List Tuple} {cells : List (List Str)}

def aggregates (stmt : SelectStmt) : List AggExpr := stmt.selectList.filterMap aggExpr

def groupCells (stmt : SelectStmt) (schema : Schema) (ts : List Tuple) (t : Tuple) : List Str :=
  (readBack stmt.groupBy (aggregates stmt) schema ts t).map Value.toString

def allCells (stmt : SelectStmt) (schema : Schema) (rows : List Tuple) : List (List Str) :=
  (firsts (keyOf stmt.groupBy schema) rows).map fun t =>
    groupCells stmt schema (members (keyOf stmt.groupBy schema) rows t) t

theorem planInput_sound (hstd : Operator.Lawful env.std) (hplain : catalog.Plain) (hscans : Scans env catalog)
    (hinput : planInput catalog stmt = .ok input) (hrows : input.Evaluates env s rows s₁) :
    input.outputSchema.Named ∧ ∀ t ∈ rows, t.length = input.outputSchema.tupleSize := by
  obtain ⟨base, hbase, rfl⟩ := planInput_eq_ok.mp hinput
  obtain ⟨all, hall, -, rfl⟩ := (evaluates_planFilter_iff hstd).mp hrows
  rw [outputSchema_planFilter]
  refine ⟨planBase_named hplain hbase, ?_⟩
  intro t ht
  exact sized_planBase hstd hscans hbase s all s₁ hall t (List.mem_of_mem_filter ht)

theorem plan_aggregate_input (hstd : Operator.Lawful env.std) (hplain : catalog.Plain) (hscans : Scans env catalog)
    (hagg : Aggregating stmt) (hinput : planInput catalog stmt = .ok input)
    (hrows : input.Evaluates env s rows s₁) {op : Operator} (hplan : plan catalog stmt = .ok op) :
    ∃ schema cols, buildAggSchema stmt.groupBy (aggregates stmt) input.outputSchema = .ok schema ∧
      op = planSort stmt.orderBy (.hashAggregate input stmt.groupBy (aggregates stmt) schema) ∧
      GroupColumns input.outputSchema stmt.groupBy cols ∧ ∀ t ∈ rows, t.length = input.outputSchema.tupleSize := by
  obtain ⟨input', schema, hinput', hbuild, rfl⟩ := (plan_aggregate_eq_ok hagg).mp hplan
  cases hinput.symm.trans hinput'
  obtain ⟨hnamed, hsized⟩ := planInput_sound hstd hplain hscans hinput hrows
  obtain ⟨cols, hcols, -⟩ := bind_eq_ok.mp hbuild
  obtain ⟨inCols, hgroup⟩ := groupColumns_of_named hnamed hcols
  exact ⟨schema, inCols, hbuild, rfl, hgroup, hsized⟩

def groupTuples (stmt : SelectStmt) (schema : Schema) (rows : List Tuple) : List Tuple :=
  (firsts (keyOf stmt.groupBy schema) rows).map fun t => Tuple.encode (readBack stmt.groupBy (aggregates stmt) schema
    (members (keyOf stmt.groupBy schema) rows t) t)

theorem mapM_rowCells {schema : Schema} {cols : List Column}
    (hbuild : buildAggSchema stmt.groupBy (aggregates stmt) input.outputSchema = .ok schema)
    (hgroup : GroupColumns input.outputSchema stmt.groupBy cols)
    (hsized : ∀ t ∈ rows, t.length = input.outputSchema.tupleSize) :
    (groupTuples stmt input.outputSchema rows).mapM (rowCells schema) = .ok (allCells stmt input.outputSchema rows) := by
  rw [groupTuples, List.mapM_map]
  exact mapM_of_ok fun t ht => rowCells_eq (rowValues_readBack hgroup (hsized t (mem_of_mem_firsts ht)) hbuild _)

theorem Returns.aggregate (hstd : Operator.Lawful env.std) (hplain : catalog.Plain) (hscans : Scans env catalog)
    (hagg : Aggregating stmt) (hinput : planInput catalog stmt = .ok input)
    (hrows : input.Evaluates env s rows s₁) (h : Returns env catalog stmt s cells s') :
    cells.Perm (allCells stmt input.outputSchema rows) ∧
      ∀ t ∈ rows, (groupVals stmt.groupBy input.outputSchema t).length = stmt.groupBy.length := by
  obtain ⟨op, out, hplan, hrun, hcells⟩ := h
  obtain ⟨schema, cols, hbuild, rfl, hgroup, hsized⟩ :=
    plan_aggregate_input hstd hplain hscans hagg hinput hrows hplan
  obtain ⟨out', hrun', hperm⟩ := evaluates_planSort hstd hrun
  obtain ⟨-, -, rfl⟩ := (evaluates_hashAggregate_readBack hstd hrows hsized hgroup hbuild).mp hrun'
  rw [outputSchema_planSort] at hcells
  refine ⟨perm_mapM hperm hcells (mapM_rowCells hbuild hgroup hsized), ?_⟩
  intro t ht
  rw [(hgroup.reads (hsized t ht)).2.length_eq, ← hgroup.length_eq]

theorem returns_aggregate_of_sort (hstd : Operator.Lawful env.std) (hplain : catalog.Plain) (hscans : Scans env catalog)
    (hagg : Aggregating stmt) (hinput : planInput catalog stmt = .ok input)
    (hrows : input.Evaluates env s rows s₁) {op : Operator} (hplan : plan catalog stmt = .ok op)
    (hsort : ∀ child : Operator, child.Evaluates env s (groupTuples stmt input.outputSchema rows) s₁ →
      (planSort stmt.orderBy child).Evaluates env s (groupTuples stmt input.outputSchema rows) s₁)
    (hargs : ∀ t ∈ rows, ∀ ae ∈ aggregates stmt, ReadsArg ae input.outputSchema t) :
    Returns env catalog stmt s (allCells stmt input.outputSchema rows) s₁ := by
  obtain ⟨schema, cols, hbuild, rfl, hgroup, hsized⟩ :=
    plan_aggregate_input hstd hplain hscans hagg hinput hrows hplan
  have hrun := (evaluates_hashAggregate_readBack hstd hrows hsized hgroup hbuild).mpr ⟨rfl, hargs, rfl⟩
  refine ⟨_, _, hplan, hsort _ hrun, ?_⟩
  rw [outputSchema_planSort]
  exact mapM_rowCells hbuild hgroup hsized

theorem returns_aggregate (hstd : Operator.Lawful env.std) (hplain : catalog.Plain) (hscans : Scans env catalog)
    (hagg : Aggregating stmt) (hinput : planInput catalog stmt = .ok input)
    (hrows : input.Evaluates env s rows s₁) {op : Operator} (hplan : plan catalog stmt = .ok op)
    (horder : stmt.orderBy = []) (hargs : ∀ t ∈ rows, ∀ ae ∈ aggregates stmt, ReadsArg ae input.outputSchema t) :
    Returns env catalog stmt s (allCells stmt input.outputSchema rows) s₁ := by
  refine returns_aggregate_of_sort hstd hplain hscans hagg hinput hrows hplan (fun child hchild => ?_) hargs
  rw [planSort, if_pos horder]
  exact hchild

theorem aggregating_of_mem {ae : AggExpr} (h : ae ∈ aggregates stmt) : Aggregating stmt := by
  obtain ⟨item, hitem, hae⟩ := List.mem_filterMap.mp h
  refine aggregating_of_hasAggregate (List.any_eq_true.mpr ⟨item, hitem, ?_⟩)
  rw [aggExpr] at hae
  cases hexpr : item.expr with
  | aggregate func left => rfl
  | aggregateStar func => rfl
  | _ =>
    rw [hexpr] at hae
    cases hae

theorem groupCells_getElem {schema : Schema} (ts : List Tuple) {t : Tuple} {k : Nat} {ae : AggExpr}
    (hgroup : (groupVals stmt.groupBy schema t).length = stmt.groupBy.length) (hk : (aggregates stmt)[k]? = some ae) :
    (groupCells stmt schema ts t)[stmt.groupBy.length + k]? =
      some (intToString (Accumulator.narrow ((accOf ae schema ts).value ae.func).asInt)) := by
  rw [groupCells, readBack, List.map_append, List.getElem?_append_right (by rw [List.length_map, hgroup]; omega),
    List.length_map, hgroup, Nat.add_sub_cancel_left, List.map_map, List.getElem?_map, hk]
  rfl

/-! ## Sums -/

/-- The exact sum of an aggregate's argument over the group of a row. -/
def groupSum (ae : AggExpr) (groupBy : List Expr) (schema : Schema) (rows : List Tuple) (t : Tuple) : Int :=
  ((members (keyOf groupBy schema) rows t).map (argVal ae schema)).sum

theorem value_sum {ae : AggExpr} (hsum : ae.func = .sum) (schema : Schema) (ts : List Tuple) :
    Accumulator.narrow ((accOf ae schema ts).value ae.func).asInt =
      Accumulator.narrow (ts.map (argVal ae schema)).sum := by
  have hfunc : ae.func ≠ .count := by
    rw [hsum]
    decide
  rw [accOf_eq hfunc, hsum]
  exact narrow_of_int32 (int32_narrow _)

theorem sum_cells_iff {K : Type} [DecidableEq K] {key : Tuple → K} (hstd : Operator.Lawful env.std)
    (hplain : catalog.Plain) (hscans : Scans env catalog) (hinput : planInput catalog stmt = .ok input)
    (hrows : input.Evaluates env s rows s₁) (hret : Returns env catalog stmt s cells s') {k : Nat} {ae : AggExpr}
    (hk : (aggregates stmt)[k]? = some ae) (hsum : ae.func = .sum)
    (hkey : ∀ t ∈ rows, ∀ u ∈ rows, keyOf stmt.groupBy input.outputSchema t = keyOf stmt.groupBy input.outputSchema u ↔
      key t = key u) :
    (∃ cells', cells.Perm cells' ∧ List.Forall₂ (fun t row => row[stmt.groupBy.length + k]? =
        some (intToString ((members key rows t).map (argVal ae input.outputSchema)).sum)) (firsts key rows) cells') ↔
    ∀ t ∈ rows, Int32 ((members key rows t).map (argVal ae input.outputSchema)).sum := by
  obtain ⟨hperm, hlen⟩ := hret.aggregate hstd hplain hscans (aggregating_of_mem (List.mem_of_getElem? hk)) hinput hrows
  have hcell {t : Tuple} (ht : t ∈ rows) : (groupCells stmt input.outputSchema
      (members (keyOf stmt.groupBy input.outputSchema) rows t) t)[stmt.groupBy.length + k]? =
        some (intToString (Accumulator.narrow ((members key rows t).map (argVal ae input.outputSchema)).sum)) := by
    rw [groupCells_getElem _ (hlen t ht) hk, value_sum hsum, members_congr hkey ht]
  rw [← firsts_congr hkey]
  constructor
  · rintro ⟨cells', hcells', hexact⟩ t ht
    -- the cells hold narrowed sums only
    obtain ⟨u, hu, hkeys⟩ := exists_mem_firsts (keyOf stmt.groupBy input.outputSchema) ht
    obtain ⟨row, hmem, hrow⟩ := exists_of_forall₂ hexact hu
    obtain ⟨w, hw, rfl⟩ := List.mem_map.mp (hperm.subset (hcells'.symm.subset hmem))
    rw [hcell (mem_of_mem_firsts hw)] at hrow
    have heq := intToString_injective (Option.some.inj hrow)
    have hmembers : members key rows t = members key rows u := by
      rw [members, members, (hkey t ht u (mem_of_mem_firsts hu)).mp hkeys.symm]
    rw [hmembers, ← heq]
    exact int32_narrow _
  · intro hfits
    refine ⟨_, hperm, ?_⟩
    rw [allCells, List.forall₂_map_right_iff, List.forall₂_same]
    intro t ht
    rw [hcell (mem_of_mem_firsts ht), narrow_of_int32 (hfits t (mem_of_mem_firsts ht))]

theorem sum_exact_iff (hstd : Operator.Lawful env.std) (hplain : catalog.Plain) (hscans : Scans env catalog)
    (hinput : planInput catalog stmt = .ok input) (hrows : input.Evaluates env s rows s₁)
    (hret : Returns env catalog stmt s cells s') {k : Nat} {ae : AggExpr} (hk : (aggregates stmt)[k]? = some ae)
    (hsum : ae.func = .sum) :
    (∃ cells', cells.Perm cells' ∧ List.Forall₂ (fun t row => row[stmt.groupBy.length + k]? =
        some (intToString (groupSum ae stmt.groupBy input.outputSchema rows t)))
      (firsts (keyOf stmt.groupBy input.outputSchema) rows) cells') ↔
    ∀ t ∈ rows, Int32 (groupSum ae stmt.groupBy input.outputSchema rows t) :=
  sum_cells_iff hstd hplain hscans hinput hrows hret hk hsum fun _ _ _ _ => Iff.rfl

/-- With one `VARCHAR` among the columns of `GROUP BY` at most, the groups are those of
equal values. -/
theorem sum_by_value_iff (hstd : Operator.Lawful env.std) (hplain : catalog.Plain) (hscans : Scans env catalog)
    (hinput : planInput catalog stmt = .ok input) (hrows : input.Evaluates env s rows s₁)
    (hret : Returns env catalog stmt s cells s') {k : Nat} {ae : AggExpr} (hk : (aggregates stmt)[k]? = some ae)
    (hsum : ae.func = .sum) {cols : List Column} (hgroup : GroupColumns input.outputSchema stmt.groupBy cols)
    (hone : (cols.map (·.type.typeId)).count .varchar ≤ 1) :
    (∃ cells', cells.Perm cells' ∧ List.Forall₂ (fun t row => row[stmt.groupBy.length + k]? =
        some (intToString ((members (groupVals stmt.groupBy input.outputSchema) rows t).map
          (argVal ae input.outputSchema)).sum)) (firsts (groupVals stmt.groupBy input.outputSchema) rows) cells') ↔
    ∀ t ∈ rows, Int32 ((members (groupVals stmt.groupBy input.outputSchema) rows t).map
      (argVal ae input.outputSchema)).sum := by
  obtain ⟨-, hsized⟩ := planInput_sound hstd hplain hscans hinput hrows
  exact sum_cells_iff hstd hplain hscans hinput hrows hret hk hsum fun t ht u hu =>
    keyOf_eq_iff hgroup hone (hsized t ht) (hsized u hu)

def oneColumn (type : ColumnType) : Catalog :=
  ⟨[⟨lit "t", ⟨[⟨lit "x", type⟩]⟩, ⟨⟨[⟨lit "x", type⟩]⟩, 0, 0⟩⟩]⟩

def aggregateQuery (func : AggFunc) : SelectStmt :=
  ⟨[⟨.aggregate func (.columnRef [] (lit "x")), []⟩], lit "t", [], [], none, [], []⟩

def scanColumn (type : ColumnType) : Operator :=
  .seqScan ⟨lit "t", ⟨[⟨lit "x", type⟩]⟩, ⟨⟨[⟨lit "x", type⟩]⟩, 0, 0⟩⟩ ⟨[⟨lit "t.x", type⟩]⟩

theorem plain_oneColumn (type : ColumnType) : (oneColumn type).Plain := by
  intro info hinfo c hc
  rw [List.mem_singleton.mp hinfo] at hc
  rw [List.mem_singleton.mp hc]
  show lit "x" ≠ [] ∧ dotChar ∉ lit "x"
  decide

theorem scans_oneColumn {type : ColumnType} (h : ∀ t ∈ rows, t.length = type.fixedSize) :
    Scans (Operator.sameRows rows) (oneColumn type) := by
  intro info hinfo s rows' s' hscan t ht
  cases hscan
  rw [List.mem_singleton.mp hinfo]
  exact h t ht

theorem evaluates_scanColumn (type : ColumnType) (rows : List Tuple) :
    (scanColumn type).Evaluates (Operator.sameRows rows) () rows () := Operator.evaluates_seqScan_iff.mpr rfl

theorem readsArg_column {type : ColumnType} (func : AggFunc) (name : Str) {t : Tuple} (ht : t.length = type.fixedSize) :
    ReadsArg ⟨func, some (.columnRef [] (lit "x")), name⟩ (scanColumn type).outputSchema t := by
  intro _
  have hidx : (scanColumn type).outputSchema.getColumnIdx (columnKey [] (lit "x")) = .ok 0 := rfl
  obtain ⟨v, hv, -⟩ := evalExpr_column (c := ⟨lit "t.x", type⟩) ht hidx rfl
  exact ⟨_, v, rfl, hv⟩

theorem returns_aggregateQuery (type : ColumnType) (rows : List Tuple) (func : AggFunc) (h : ∀ t ∈ rows, t.length = type.fixedSize) :
    Returns (Operator.sameRows rows) (oneColumn type) (aggregateQuery func) ()
      (allCells (aggregateQuery func) (scanColumn type).outputSchema rows) () := by
  apply returns_aggregate Operator.lawful_insertionStd (plain_oneColumn type) (scans_oneColumn h)
    (aggregating_of_hasAggregate rfl) rfl (evaluates_scanColumn type rows) rfl rfl
  intro t ht ae hae
  rw [List.mem_singleton.mp hae]
  exact readsArg_column func _ (h t ht)

/-- `SELECT x, SUM(x) FROM t GROUP BY x`. -/
def sumByQuery : SelectStmt :=
  ⟨[⟨.columnRef [] (lit "x"), []⟩, ⟨.aggregate .sum (.columnRef [] (lit "x")), []⟩], lit "t", [], [], none,
    [.columnRef [] (lit "x")], []⟩

theorem sum_exact_groups :
    let rows := [[1, 0, 0, 0], [2, 0, 0, 0], [1, 0, 0, 0]]
    let sum := groupSum ⟨.sum, some (.columnRef [] (lit "x")), lit "SUM"⟩ sumByQuery.groupBy (scanColumn .int).outputSchema rows
    Returns (Operator.sameRows rows) (oneColumn .int) sumByQuery () [[lit "1", lit "2"], [lit "2", lit "2"]] () ∧
      (∀ t ∈ rows, Int32 (sum t)) ∧
      ∃ cells', [[lit "1", lit "2"], [lit "2", lit "2"]].Perm cells' ∧ List.Forall₂
        (fun t row => row[1]? = some (intToString (sum t)))
        (firsts (keyOf sumByQuery.groupBy (scanColumn .int).outputSchema) rows) cells' := by
  intro rows sum
  have hsized : ∀ t ∈ rows, t.length = ColumnType.int.fixedSize := by decide
  have hret : Returns (Operator.sameRows rows) (oneColumn .int) sumByQuery ()
      (allCells sumByQuery (scanColumn .int).outputSchema rows) () := by
    apply returns_aggregate Operator.lawful_insertionStd (plain_oneColumn .int) (scans_oneColumn hsized)
      (aggregating_of_hasAggregate rfl) rfl (evaluates_scanColumn .int rows) rfl rfl
    intro t ht ae hae
    rw [List.mem_singleton.mp hae]
    exact readsArg_column .sum _ (hsized t ht)
  have hcells : allCells sumByQuery (scanColumn .int).outputSchema rows =
      [[lit "1", lit "2"], [lit "2", lit "2"]] := by decide +kernel
  rw [hcells] at hret
  have hfits : ∀ t ∈ rows, Int32 (sum t) := by decide +kernel
  exact ⟨hret, hfits, (sum_exact_iff (k := 0) Operator.lawful_insertionStd (plain_oneColumn .int) (scans_oneColumn hsized)
    rfl (evaluates_scanColumn .int rows) hret rfl rfl).mpr hfits⟩

/-- Twice the largest `INT` comes out as -2. -/
theorem sum_narrowed :
    let rows := [[255, 255, 255, 127], [255, 255, 255, 127]]
    Returns (Operator.sameRows rows) (oneColumn .int) (aggregateQuery .sum) () [[lit "-2"]] () ∧
      rows.mapM (evalExpr (.columnRef [] (lit "x")) · (scanColumn .int).outputSchema) =
        .ok [.int 2147483647, .int 2147483647] ∧
      ∀ t ∈ rows, groupSum ⟨.sum, some (.columnRef [] (lit "x")), lit "SUM"⟩ [] (scanColumn .int).outputSchema rows t =
        4294967294 := by
  intro rows
  have hret := returns_aggregateQuery .int rows .sum (by decide)
  have hcells : allCells (aggregateQuery .sum) (scanColumn .int).outputSchema rows = [[lit "-2"]] := by decide +kernel
  rw [hcells] at hret
  exact ⟨hret, by decide +kernel, by decide +kernel⟩

/-! ## Aggregates of the whole input -/

theorem Returns.evaluates_input (hstd : Operator.Lawful env.std) (hagg : Aggregating stmt)
    (h : Returns env catalog stmt s cells s') :
    ∃ input rows, planInput catalog stmt = .ok input ∧ input.Evaluates env s rows s' := by
  obtain ⟨op, out, hplan, hrun, -⟩ := h
  obtain ⟨input, schema, hinput, -, rfl⟩ := (plan_aggregate_eq_ok hagg).mp hplan
  obtain ⟨out', hrun', -⟩ := evaluates_planSort hstd hrun
  obtain ⟨rows, hrows, -⟩ := (Operator.evaluates_hashAggregate_rows hstd).mp hrun'
  exact ⟨input, rows, hinput, hrows⟩

theorem keyOf_nil (schema : Schema) (t : Tuple) : keyOf [] schema t = [] := rfl

theorem keyOf_const (hgroup : stmt.groupBy = []) (schema : Schema) :
    ∀ t ∈ rows, ∀ u ∈ rows, keyOf stmt.groupBy schema t = keyOf stmt.groupBy schema u := by
  intro t _ u _
  rw [hgroup, keyOf_nil, keyOf_nil]

theorem allCells_nil (hgroup : stmt.groupBy = []) (schema : Schema) (rows : List Tuple) :
    allCells stmt schema rows = (rows.take 1).map fun t => groupCells stmt schema rows t := by
  rw [allCells, firsts_of_const (keyOf_const hgroup schema)]
  apply List.map_congr_left
  intro t ht
  rw [members_of_const (keyOf_const hgroup schema) (List.mem_of_mem_take ht)]

theorem groupTuples_nil (hgroup : stmt.groupBy = []) (schema : Schema) (hrows : rows ≠ []) :
    ∃ t, groupTuples stmt schema rows = [t] := by
  obtain ⟨t, rest, rfl⟩ := List.exists_cons_of_ne_nil hrows
  rw [groupTuples, firsts_of_const (keyOf_const hgroup schema)]
  exact ⟨_, rfl⟩

theorem aggExpr_isSome {item : SelectItem} (h : isAggregate item.expr = true) : ∃ ae, aggExpr item = some ae := by
  rw [aggExpr]
  cases hexpr : item.expr with
  | aggregate func left => exact ⟨_, rfl⟩
  | aggregateStar func => exact ⟨_, rfl⟩
  | _ =>
    rw [hexpr] at h
    cases h

theorem aggregates_getElem (hall : ∀ item ∈ stmt.selectList, isAggregate item.expr = true) {k : Nat}
    {item : SelectItem} (hk : stmt.selectList[k]? = some item) : (aggregates stmt)[k]? = aggExpr item := by
  rw [aggregates]
  generalize stmt.selectList = list at hall hk
  induction list generalizing k with
  | nil => cases hk
  | cons first list ih =>
    obtain ⟨hfirst, hlist⟩ := List.forall_mem_cons.mp hall
    obtain ⟨ae, hae⟩ := aggExpr_isSome hfirst
    rw [List.filterMap_cons_some hae]
    cases k with
    | zero =>
      obtain rfl : first = item := Option.some.inj hk
      rw [hae]
      rfl
    | succ k => exact ih hlist hk

theorem narrow_natCast {n : Nat} : Accumulator.narrow n = n ↔ n < 2 ^ 31 := by
  rw [Accumulator.narrow, Int.bmod_def]
  omega

def CountsTo (stmt : SelectStmt) (n : Nat) (row : List Str) : Prop :=
  ∀ (k : Nat) (item : SelectItem), stmt.selectList[k]? = some item → item.expr = .aggregateStar .count →
    row[k]? = some (intToString n)

theorem countsTo_groupCells (hall : ∀ item ∈ stmt.selectList, isAggregate item.expr = true) (hgroup : stmt.groupBy = [])
    (schema : Schema) (ts : List Tuple) (t : Tuple) :
    CountsTo stmt ts.length (groupCells stmt schema ts t) ↔
      ((∃ item ∈ stmt.selectList, item.expr = .aggregateStar .count) → ts.length < 2 ^ 31) := by
  have hcell {k : Nat} {item : SelectItem} (hk : stmt.selectList[k]? = some item)
      (hexpr : item.expr = .aggregateStar .count) :
      (groupCells stmt schema ts t)[k]? = some (intToString (Accumulator.narrow ts.length)) := by
    have hae := aggregates_getElem hall hk
    rw [aggExpr, hexpr] at hae
    have hlen : (groupVals stmt.groupBy schema t).length = stmt.groupBy.length := by
      rw [hgroup]
      rfl
    have h := groupCells_getElem ts hlen hae
    rw [hgroup, List.length_nil, Nat.zero_add] at h
    rw [h]
    show some (intToString (Accumulator.narrow (Accumulator.narrow (accOf _ schema ts).count))) = _
    rw [narrow_of_int32 (int32_narrow _), accOf_count]
  constructor
  · rintro h ⟨item, hitem, hexpr⟩
    obtain ⟨k, hk⟩ := List.mem_iff_getElem?.mp hitem
    have heq := (hcell hk hexpr).symm.trans (h k item hk hexpr)
    exact narrow_natCast.mp (intToString_injective (Option.some.inj heq))
  · intro h k item hk hexpr
    rw [hcell hk hexpr, narrow_natCast.mpr (h ⟨item, List.mem_of_getElem? hk, hexpr⟩)]

theorem Returns.reads_args (hstd : Operator.Lawful env.std) (hplain : catalog.Plain) (hscans : Scans env catalog)
    (hagg : Aggregating stmt) (hinput : planInput catalog stmt = .ok input)
    (hrows : input.Evaluates env s rows s₁) (h : Returns env catalog stmt s cells s') :
    ∀ t ∈ rows, ∀ ae ∈ aggregates stmt, ReadsArg ae input.outputSchema t := by
  obtain ⟨op, out, hplan, hrun, -⟩ := h
  obtain ⟨schema, cols, hbuild, rfl, hgroup, hsized⟩ :=
    plan_aggregate_input hstd hplain hscans hagg hinput hrows hplan
  obtain ⟨out', hrun', -⟩ := evaluates_planSort hstd hrun
  exact ((evaluates_hashAggregate_readBack hstd hrows hsized hgroup hbuild).mp hrun').2.1

/-- `ORDER BY` has no part in the condition: it has at most one row to sort. -/
theorem aggregate_one_row_iff (hstd : Operator.Lawful env.std) (hapart : ComparesApart env.std.sort)
    (hplain : catalog.Plain) (hscans : Scans env catalog)
    (hlist : stmt.selectList ≠ []) (hall : ∀ item ∈ stmt.selectList, isAggregate item.expr = true)
    (hgroup : stmt.groupBy = []) {base : Operator} (hbase : planBase catalog stmt = .ok base) {all : List Tuple}
    (hrows : base.Evaluates env s all s₁) :
    let found := all.filter (satisfies stmt.whereClause base.outputSchema)
    (∃ row s', Returns env catalog stmt s [row] s' ∧ CountsTo stmt found.length row) ↔
      (∀ t ∈ all, Evaluable stmt.whereClause base.outputSchema t) ∧ found ≠ [] ∧
      (∀ t ∈ found, ∀ ae ∈ aggregates stmt, ReadsArg ae base.outputSchema t) ∧
      ((∃ item ∈ stmt.selectList, item.expr = .aggregateStar .count) → found.length < 2 ^ 31) := by
  intro found
  have hagg : Aggregating stmt := by
    obtain ⟨item, hitem⟩ := List.exists_mem_of_ne_nil _ hlist
    exact aggregating_of_hasAggregate (List.any_eq_true.mpr ⟨item, hitem, hall item hitem⟩)
  have hinput : planInput catalog stmt = .ok (planFilter stmt.whereClause base) :=
    planInput_eq_ok.mpr ⟨base, hbase, rfl⟩
  have hschema := outputSchema_planFilter stmt.whereClause base
  constructor
  · rintro ⟨row, s', hret, hcounts⟩
    obtain ⟨input, rows, hinput', hrows'⟩ := hret.evaluates_input hstd hagg
    cases hinput.symm.trans hinput'
    obtain ⟨all', hall', heval, rfl⟩ := (evaluates_planFilter_iff hstd).mp hrows'
    obtain ⟨rfl, rfl⟩ := hall'.unique hrows
    have hargs := hret.reads_args hstd hplain hscans hagg hinput hrows'
    obtain ⟨hperm, -⟩ := hret.aggregate hstd hplain hscans hagg hinput hrows'
    rw [allCells_nil hgroup, hschema] at hperm
    rw [hschema] at hargs
    change [row].Perm ((found.take 1).map (groupCells stmt base.outputSchema found)) at hperm
    cases hfound : found with
    | nil =>
      rw [hfound] at hperm
      cases hperm.eq_nil
    | cons t rest =>
      rw [hfound] at hperm hcounts
      cases List.perm_singleton.mp hperm.symm
      refine ⟨heval, List.cons_ne_nil _ _, hfound ▸ hargs, ?_⟩
      exact (countsTo_groupCells hall hgroup base.outputSchema (t :: rest) t).mp hcounts
  · rintro ⟨heval, hne, hargs, hfew⟩
    have hbuild : buildAggSchema stmt.groupBy (aggregates stmt) (planFilter stmt.whereClause base).outputSchema =
        .ok ⟨(aggregates stmt).map fun ae => ⟨ae.outputName, .int⟩⟩ := by
      rw [hgroup]
      rfl
    have hplan := (plan_aggregate_eq_ok hagg).mpr ⟨_, _, hinput, hbuild, rfl⟩
    have hfound := (evaluates_planFilter_iff hstd).mpr ⟨all, hrows, heval, rfl⟩
    have hsort (child : Operator) (hchild : child.Evaluates env s
        (groupTuples stmt (planFilter stmt.whereClause base).outputSchema found) s₁) :
        (planSort stmt.orderBy child).Evaluates env s
          (groupTuples stmt (planFilter stmt.whereClause base).outputSchema found) s₁ := by
      obtain ⟨t, ht⟩ := groupTuples_nil hgroup (planFilter stmt.whereClause base).outputSchema hne
      rw [ht] at hchild ⊢
      exact evaluates_planSort_singleton hstd hapart hchild _
    have hret := returns_aggregate_of_sort hstd hplain hscans hagg hinput hfound hplan hsort (by rwa [hschema])
    obtain ⟨t, rest, ht⟩ := List.exists_cons_of_ne_nil hne
    rw [allCells_nil hgroup, hschema] at hret
    change Returns env catalog stmt s ((found.take 1).map (groupCells stmt base.outputSchema found)) s₁ at hret
    rw [ht] at hret hfew ⊢
    exact ⟨_, s₁, hret, (countsTo_groupCells hall hgroup base.outputSchema (t :: rest) t).mpr hfew⟩

/-- `SELECT COUNT(*), SUM(x) FROM t WHERE x > 5 ORDER BY COUNT`. -/
def countSumQuery : SelectStmt :=
  ⟨[⟨.aggregateStar .count, []⟩, ⟨.aggregate .sum (.columnRef [] (lit "x")), []⟩], lit "t", [], [],
    some (.binaryOp .gt (.columnRef [] (lit "x")) (.intLiteral 5)), [], [⟨.columnRef [] (lit "COUNT"), false⟩]⟩

theorem aggregate_one_row_two : ∃ row s', Returns (Operator.sameRows [[3, 0, 0, 0], [7, 0, 0, 0], [9, 0, 0, 0]])
    (oneColumn .int) countSumQuery () [row] s' ∧ CountsTo countSumQuery 2 row := by
  let rows : List Tuple := [[3, 0, 0, 0], [7, 0, 0, 0], [9, 0, 0, 0]]
  have hsized : ∀ t ∈ rows, t.length = 4 := by decide
  have heval : ∀ t ∈ rows, Evaluable countSumQuery.whereClause (scanColumn .int).outputSchema t := by
    intro t ht p hp
    cases hp
    revert t
    decide +kernel
  have hargs : ∀ t ∈ rows.filter (satisfies countSumQuery.whereClause (scanColumn .int).outputSchema),
      ∀ ae ∈ aggregates countSumQuery, ReadsArg ae (scanColumn .int).outputSchema t := by
    intro t ht ae hae
    rcases List.mem_pair.mp hae with rfl | rfl
    · exact fun hne => absurd rfl hne
    · exact readsArg_column .sum _ (hsized t (List.mem_of_mem_filter ht))
  have hall : ∀ item ∈ countSumQuery.selectList, isAggregate item.expr = true := by decide
  have hiff := aggregate_one_row_iff Operator.lawful_insertionStd comparesApart_insertionSort (plain_oneColumn .int)
    (scans_oneColumn hsized) (List.cons_ne_nil _ _) hall rfl rfl (evaluates_scanColumn .int rows)
  exact hiff.mpr ⟨heval, by decide +kernel, hargs, by decide +kernel⟩

/-- `SELECT COUNT(*) FROM t WHERE x > 5`. -/
def countQuery : SelectStmt :=
  ⟨[⟨.aggregateStar .count, []⟩], lit "t", [], [], some (.binaryOp .gt (.columnRef [] (lit "x")) (.intLiteral 5)), [], []⟩

theorem returns_countQuery (rows : List Tuple) (h : ∀ t ∈ rows, t.length = 4)
    (heval : ∀ t ∈ rows, Evaluable countQuery.whereClause (scanColumn .int).outputSchema t) :
    Returns (Operator.sameRows rows) (oneColumn .int) countQuery ()
      (allCells countQuery (scanColumn .int).outputSchema
        (rows.filter (satisfies countQuery.whereClause (scanColumn .int).outputSchema))) () := by
  have hfound : (planFilter countQuery.whereClause (scanColumn .int)).Evaluates (Operator.sameRows rows) ()
      (rows.filter (satisfies countQuery.whereClause (scanColumn .int).outputSchema)) () :=
    (evaluates_planFilter_iff Operator.lawful_insertionStd).mpr ⟨rows, evaluates_scanColumn .int rows, heval, rfl⟩
  apply returns_aggregate Operator.lawful_insertionStd (plain_oneColumn .int) (scans_oneColumn h)
    (aggregating_of_hasAggregate rfl) rfl hfound rfl rfl
  intro t _ ae hae hne
  rw [List.mem_singleton.mp hae] at hne
  exact absurd rfl hne

/-- The count of an empty table has no row, nor has one that no row satisfies. -/
theorem count_empty : Returns (Operator.sameRows []) (oneColumn .int) countQuery () [] () ∧
    Returns (Operator.sameRows [[3, 0, 0, 0]]) (oneColumn .int) countQuery () [] () := by
  have hempty := returns_countQuery [] (by decide) fun t ht => absurd ht List.not_mem_nil
  have heval : ∀ t ∈ [[3, 0, 0, 0]], Evaluable countQuery.whereClause (scanColumn .int).outputSchema t := by
    intro t ht p hp
    rw [List.mem_singleton.mp ht]
    cases hp
    exact ⟨false, by decide +kernel⟩
  have hthree := returns_countQuery [[3, 0, 0, 0]] (by decide) heval
  have hnone : [[3, 0, 0, 0]].filter (satisfies countQuery.whereClause (scanColumn .int).outputSchema) = [] := by
    decide +kernel
  rw [hnone] at hthree
  exact ⟨hempty, hthree⟩

end MyDB.Database

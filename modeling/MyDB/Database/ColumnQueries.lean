import MyDB.Database.AggregateQueries
import MyDB.Executor.SortOrder

/-! `SELECT`s of columns, in the order of `ORDER BY`, and that order beside the one of
`MIN` and `MAX`. -/

namespace MyDB.Planner
open MyDB.Parser MyDB.Executor MyDB.Lib

variable {catalog : Catalog} {stmt : SelectStmt} {input : Operator} {schema out : Schema} {cols : List Column}
  {list : List SelectItem}

theorem projectionColumn_columnRef {item : SelectItem} {tableAlias colName : Str} {i : Nat} {c : Column}
    (hexpr : item.expr = .columnRef tableAlias colName)
    (hi : schema.getColumnIdx (columnKey tableAlias colName) = .ok i) (hc : schema.columns[i]? = some c) :
    projectionColumn schema item = .ok ⟨if item.aliasName = [] then colName else item.aliasName, c.type⟩ := by
  rw [projectionColumn, hexpr]
  show (schema.getColumnIdx (columnKey tableAlias colName) >>= fun i => getColumn schema i >>= _) = _
  rw [hi]
  show (getColumn schema i >>= _) = _
  rw [getColumn_eq_ok hc]
  rfl

theorem buildProjectionSchema_columns (h : GroupColumns schema (list.map (·.expr)) cols) :
    ∃ out, buildProjectionSchema list schema = .ok out ∧ out.columns.map (·.type) = cols.map (·.type) := by
  have hcols : ∃ outCols, list.mapM (projectionColumn schema) = .ok outCols ∧
      outCols.map (·.type) = cols.map (·.type) := by
    have hitems := List.forall₂_map_left_iff.mp h
    clear h
    induction hitems with
    | nil => exact ⟨[], rfl, rfl⟩
    | cons hitem _ ih =>
      obtain ⟨tableAlias, colName, i, hexpr, hi, hc⟩ := hitem
      obtain ⟨outCols, hout, htypes⟩ := ih
      refine ⟨_, mapM_cons_eq_ok.mpr ⟨_, outCols, projectionColumn_columnRef hexpr hi hc, hout, rfl⟩, ?_⟩
      rw [List.map_cons, List.map_cons, htypes]
  obtain ⟨outCols, hout, htypes⟩ := hcols
  exact ⟨⟨outCols⟩, bind_eq_ok.mpr ⟨outCols, hout, rfl⟩, htypes⟩

theorem columnRef_of_mem (h : GroupColumns schema (list.map (·.expr)) cols) {item : SelectItem} (hitem : item ∈ list) :
    ∃ tableAlias colName, item.expr = .columnRef tableAlias colName := by
  obtain ⟨c, -, tableAlias, colName, i, hexpr, -⟩ := exists_of_forall₂ h (List.mem_map_of_mem hitem)
  exact ⟨tableAlias, colName, hexpr⟩

theorem plan_columns (hinput : planInput catalog stmt = .ok input) (hgroup : stmt.groupBy = [])
    (hcols : GroupColumns input.outputSchema (stmt.selectList.map (·.expr)) cols) :
    ∃ out, plan catalog stmt = .ok (.projection (planSort stmt.orderBy input) (stmt.selectList.map (·.expr)) out) ∧
      out.columns.map (·.type) = cols.map (·.type) := by
  have hstar : isStar stmt.selectList = false := by
    unfold isStar
    split
    · next item hlist =>
      obtain ⟨tableAlias, colName, hexpr⟩ := columnRef_of_mem hcols (hlist ▸ List.mem_singleton_self item)
      rw [hexpr]
      rfl
    · rfl
  have hagg : hasAggregate stmt.selectList = false := by
    rw [hasAggregate, List.any_eq_false]
    intro item hitem
    obtain ⟨tableAlias, colName, hexpr⟩ := columnRef_of_mem hcols hitem
    rw [hexpr]
    exact Bool.false_ne_true
  obtain ⟨out, hbuild, htypes⟩ := buildProjectionSchema_columns hcols
  refine ⟨out, plan_eq_ok.mpr ⟨input, hinput, ?_⟩, htypes⟩
  rw [if_neg (by rw [hstar]; exact Bool.false_ne_true), if_neg (by rw [hagg, hgroup]; decide)]
  exact ⟨out, hbuild, rfl⟩

theorem sortable_columns {orderBy : List OrderByItem} {rows : List Tuple}
    (h : GroupColumns schema (orderBy.map (·.expr)) cols) (hsized : ∀ t ∈ rows, t.length = schema.tupleSize) :
    Sortable schema orderBy rows := by
  intro item hitem
  obtain ⟨c, -, tableAlias, colName, i, hexpr, hi, hc⟩ := exists_of_forall₂ h (List.mem_map_of_mem hitem)
  refine ⟨c.type.typeId, ?_⟩
  intro t ht
  obtain ⟨v, hv, htype, -⟩ := evalExpr_column (hsized t ht) hi hc
  rw [hexpr]
  exact ⟨v, hv, htype.typeId_eq⟩

variable {σ : Type} {env : Env σ} {s s' : σ} {rows : List Tuple}

theorem evaluates_planSort_rows (hstd : Operator.Lawful env.std) {orderBy : List OrderByItem}
    (hrows : input.Evaluates env s rows s') (hsort : Sortable input.outputSchema orderBy rows) :
    ∃ sorted, (planSort orderBy input).Evaluates env s sorted s' ∧ sorted.Perm rows ∧
      sorted.Pairwise fun a b => ¬ rowLess input.outputSchema orderBy b a := by
  rw [planSort]
  split
  · next hnil =>
    subst hnil
    exact ⟨rows, hrows, List.Perm.refl _, List.pairwise_of_forall fun _ _ => id⟩
  · obtain ⟨sorted, hsorted, hperm, hpair⟩ := sort_rows hstd hsort
    exact ⟨sorted, (Operator.evaluates_sort_iff hstd).mpr ⟨rows, hrows, hsorted⟩, hperm, hpair⟩

theorem evaluates_projection_columns {child : Operator} {exprs : List Expr} (h : GroupColumns schema exprs cols)
    (htypes : out.columns.map (·.type) = cols.map (·.type)) (hrows : child.Evaluates env s rows s')
    (hschema : child.outputSchema = schema) (hsized : ∀ t ∈ rows, t.length = schema.tupleSize) :
    (Operator.projection child exprs out).Evaluates env s (rows.map fun t => Tuple.encode (groupVals exprs schema t)) s' := by
  subst hschema
  refine Operator.evaluates_projection_iff.mpr ⟨rows, hrows, mapM_of_ok fun t ht => ?_⟩
  obtain ⟨hvals, hread⟩ := h.reads (hsized t ht)
  exact bind_eq_ok.mpr ⟨_, hvals, Tuple.ofValues_ok (Schema.Typed.fits (hread.typed htypes))⟩

end MyDB.Planner

namespace MyDB.Database
open MyDB.Parser MyDB.Executor MyDB.Lib MyDB.Planner

variable {σ : Type} {env : Env σ} {catalog : Catalog} {stmt : SelectStmt} {input : Operator} {s s' : σ}
  {rows : List Tuple} {cols : List Column}

def columnCells (list : List SelectItem) (schema : Schema) (t : Tuple) : List Str :=
  (groupVals (list.map (·.expr)) schema t).map Value.toString

theorem returns_columns (hstd : Operator.Lawful env.std) (hinput : planInput catalog stmt = .ok input)
    (hrows : input.Evaluates env s rows s') (hsized : ∀ t ∈ rows, t.length = input.outputSchema.tupleSize)
    (hgroup : stmt.groupBy = []) (hcols : GroupColumns input.outputSchema (stmt.selectList.map (·.expr)) cols)
    (hsort : Sortable input.outputSchema stmt.orderBy rows) :
    ∃ sorted : List Tuple, Returns env catalog stmt s (sorted.map (columnCells stmt.selectList input.outputSchema)) s' ∧
      sorted.Perm rows ∧ sorted.Pairwise fun a b => ¬ rowLess input.outputSchema stmt.orderBy b a := by
  obtain ⟨out, hplan, htypes⟩ := plan_columns hinput hgroup hcols
  obtain ⟨sorted, hsorted, hperm, hpair⟩ := evaluates_planSort_rows hstd hrows hsort
  have hread {t : Tuple} (ht : t ∈ sorted) := hcols.reads (hsized t (hperm.mem_iff.mp ht))
  have hproj := evaluates_projection_columns hcols htypes hsorted (outputSchema_planSort _ _)
    fun t ht => hsized t (hperm.mem_iff.mp ht)
  refine ⟨sorted, ⟨_, _, hplan, hproj, ?_⟩, hperm, hpair⟩
  rw [List.mapM_map]
  refine mapM_of_ok fun t ht => rowCells_eq ?_
  show rowValues out _ = _
  rw [rowValues_encode ((hread ht).2.typed htypes), (hread ht).2.stored]

/-! ## `MIN`, `MAX` and `ORDER BY` -/

def selectAggregate (stmt : SelectStmt) (func : AggFunc) (e : Expr) : SelectStmt :=
  { stmt with selectList := [⟨.aggregate func e, []⟩], groupBy := [], orderBy := [] }

def selectOrdered (stmt : SelectStmt) (e : Expr) (ascending : Bool) : SelectStmt :=
  { stmt with selectList := [⟨e, []⟩], groupBy := [], orderBy := [⟨e, ascending⟩] }

section extremes
variable {tableAlias colName : Str} {i : Nat} {c : Column}

def cellOf (e : Expr) (schema : Schema) (t : Tuple) : Str := (valOf e schema t).toString

theorem columnCells_singleton {e : Expr} {schema : Schema} {t : Tuple} {v : Value} (h : evalExpr e t schema = .ok v) :
    columnCells [⟨e, []⟩] schema t = [cellOf e schema t] := by
  have hvals : [e].mapM (evalExpr · t schema) = .ok [v] := mapM_cons_eq_ok.mpr ⟨v, [], h, rfl, rfl⟩
  rw [cellOf, valOf_eq h, columnCells]
  show (groupVals [e] schema t).map Value.toString = _
  rw [groupVals_eq hvals]
  rfl

theorem returns_selectOrdered (hstd : Operator.Lawful env.std) (hinput : planInput catalog stmt = .ok input)
    (hrows : input.Evaluates env s rows s') (hsized : ∀ t ∈ rows, t.length = input.outputSchema.tupleSize)
    (hne : rows ≠ []) (hi : input.outputSchema.getColumnIdx (columnKey tableAlias colName) = .ok i)
    (hc : input.outputSchema.columns[i]? = some c) (ascending : Bool) :
    let e := Expr.columnRef tableAlias colName
    ∃ t ∈ rows, (∃ rest, Returns env catalog (selectOrdered stmt e ascending) s
        ([cellOf e input.outputSchema t] :: rest) s') ∧
      ∀ u ∈ rows, ¬ itemLess input.outputSchema ⟨e, ascending⟩ u t := by
  intro e
  have hcols : GroupColumns input.outputSchema [e] [c] := .cons ⟨tableAlias, colName, i, rfl, hi, hc⟩ .nil
  have hinput' : planInput catalog (selectOrdered stmt e ascending) = .ok input := hinput
  obtain ⟨sorted, hret, hperm, hpair⟩ :=
    returns_columns hstd hinput' hrows hsized rfl hcols (sortable_columns hcols hsized)
  cases sorted with
  | nil => exact absurd hperm.symm.eq_nil hne
  | cons t rest =>
    have ht := hperm.mem_iff.mp List.mem_cons_self
    obtain ⟨v, hv, -⟩ := evalExpr_column (hsized t ht) hi hc
    refine ⟨t, ht, ⟨rest.map (columnCells [⟨e, []⟩] input.outputSchema), ?_⟩, ?_⟩
    · rw [← columnCells_singleton hv]
      exact hret
    · intro u hu hless
      rcases List.mem_cons.mp (hperm.mem_iff.mpr hu) with rfl | hmem
      · exact (weakLess_item _ _).asymm _ _ hless hless
      · exact (List.pairwise_cons.mp hpair).1 u hmem (Or.inl hless)

theorem returns_selectAggregate (hstd : Operator.Lawful env.std) (hplain : catalog.Plain) (hscans : Scans env catalog)
    (hinput : planInput catalog stmt = .ok input) (hrows : input.Evaluates env s rows s') (hne : rows ≠ [])
    (hi : input.outputSchema.getColumnIdx (columnKey tableAlias colName) = .ok i)
    (hc : input.outputSchema.columns[i]? = some c) (func : AggFunc) (hfunc : func ≠ .count) :
    let ae : AggExpr := ⟨func, some (.columnRef tableAlias colName), func.name⟩
    ∃ x, Returns env catalog (selectAggregate stmt func (.columnRef tableAlias colName)) s [[intToString x]] s' ∧
      Answers ae input.outputSchema rows x := by
  intro ae
  obtain ⟨-, hsized⟩ := planInput_sound hstd hplain hscans hinput hrows
  have hread {t : Tuple} (ht : t ∈ rows) : ReadsArg ae input.outputSchema t ∧ Int32 (argVal ae input.outputSchema t) := by
    obtain ⟨v, hv, htype, -⟩ := evalExpr_column (hsized t ht) hi hc
    refine ⟨fun _ => ⟨_, v, rfl, hv⟩, ?_⟩
    rw [argVal_eq rfl hv]
    cases v with
    | int x => exact htype.2
    | varchar x n =>
      show -2 ^ 31 ≤ (0 : Int) ∧ (0 : Int) < 2 ^ 31
      decide
  have hargs : ae.func ≠ .count → ∀ t ∈ rows, Int32 (argVal ae input.outputSchema t) := fun _ t ht => (hread ht).2
  obtain ⟨x, hx, hx32, hanswer⟩ := value_answers hne (fun h => absurd h hfunc) hargs
  refine ⟨x, ?_, hanswer⟩
  have hinput' : planInput catalog (selectAggregate stmt func (.columnRef tableAlias colName)) = .ok input := hinput
  have hagg : Aggregating (selectAggregate stmt func (.columnRef tableAlias colName)) := aggregating_of_hasAggregate rfl
  have hret := returns_aggregate hstd hplain hscans hagg hinput' hrows
    ((plan_aggregate_eq_ok hagg).mpr ⟨input, _, hinput', rfl, rfl⟩) rfl ?_
  · rw [allCells_nil rfl] at hret
    cases rows with
    | nil => exact absurd rfl hne
    | cons t rest =>
      have hcells : groupCells (selectAggregate stmt func (.columnRef tableAlias colName)) input.outputSchema (t :: rest) t =
          [intToString x] := by
        show [intToString (Accumulator.narrow ((accOf ae input.outputSchema (t :: rest)).value func).asInt)] = _
        rw [show (accOf ae input.outputSchema (t :: rest)).value func = .int x from hx]
        exact congrArg (fun y => [intToString y]) (narrow_of_int32 hx32)
      rw [← hcells]
      exact hret
  · intro t ht ae' hae
    rw [List.mem_singleton.mp hae]
    exact (hread ht).1

theorem argVal_column {schema : Schema} (e : Expr) (func : AggFunc) (name : Str) (t : Tuple) :
    argVal ⟨func, some e, name⟩ schema t = (valOf e schema t).asInt := by
  rw [argVal, valOf]
  dsimp only
  cases evalExpr e t schema with
  | ok v => rfl
  | error _ => rfl

theorem extremes_int {e : Expr} {schema : Schema} {least greatest : Int} {first last : Tuple}
    (hint : ∀ t ∈ rows, ∃ x, valOf e schema t = .int x)
    (hleast : Answers ⟨.min, some e, AggFunc.min.name⟩ schema rows least)
    (hgreatest : Answers ⟨.max, some e, AggFunc.max.name⟩ schema rows greatest)
    (hfirst : first ∈ rows) (hlast : last ∈ rows)
    (hbefore : ∀ t ∈ rows, ¬ valueLess (valOf e schema t) (valOf e schema first))
    (hafter : ∀ t ∈ rows, ¬ valueLess (valOf e schema last) (valOf e schema t)) :
    intToString least = cellOf e schema first ∧ intToString greatest = cellOf e schema last := by
  obtain ⟨hmin, hle⟩ := hleast
  obtain ⟨hmax, hge⟩ := hgreatest
  obtain ⟨t, ht, hteq⟩ := List.mem_map.mp hmin
  obtain ⟨u, hu, hueq⟩ := List.mem_map.mp hmax
  have hle' := hle _ (List.mem_map_of_mem hfirst)
  have hge' := hge _ (List.mem_map_of_mem hlast)
  have hbefore' := hbefore t ht
  have hafter' := hafter u hu
  rw [argVal_column] at hteq hueq hle' hge'
  obtain ⟨x, hx⟩ := hint first hfirst
  obtain ⟨y, hy⟩ := hint last hlast
  obtain ⟨x', hx'⟩ := hint t ht
  obtain ⟨y', hy'⟩ := hint u hu
  rw [hx, hx', valueLess_int] at hbefore'
  rw [hy, hy', valueLess_int] at hafter'
  rw [hx'] at hteq
  rw [hy'] at hueq
  rw [hx] at hle'
  rw [hy] at hge'
  rw [cellOf, cellOf, hx, hy]
  change x' = least at hteq
  change y' = greatest at hueq
  change least ≤ x at hle'
  change y ≤ greatest at hge'
  exact ⟨congrArg intToString (by omega), congrArg intToString (by omega)⟩

theorem extremes_varchar {e : Expr} {schema : Schema} {least greatest : Int} {first last : Tuple}
    (hvarchar : ∀ t ∈ rows, ∃ r n, valOf e schema t = .varchar r n)
    (hleast : Answers ⟨.min, some e, AggFunc.min.name⟩ schema rows least)
    (hgreatest : Answers ⟨.max, some e, AggFunc.max.name⟩ schema rows greatest)
    (hfirst : first ∈ rows) (hlast : last ∈ rows)
    (hbefore : ∀ t ∈ rows, ¬ valueLess (valOf e schema t) (valOf e schema first))
    (hafter : ∀ t ∈ rows, ¬ valueLess (valOf e schema last) (valOf e schema t)) :
    (intToString least = cellOf e schema first ∧ intToString greatest = cellOf e schema last) ↔
      ∀ t ∈ rows, cellOf e schema t = lit "0" := by
  have hzero {func : AggFunc} {name : Str} {x : Int} (hx : x ∈ rows.map (argVal ⟨func, some e, name⟩ schema)) :
      intToString x = lit "0" := by
    obtain ⟨t, ht, rfl⟩ := List.mem_map.mp hx
    obtain ⟨r, n, hr⟩ := hvarchar t ht
    rw [argVal_column, hr]
    show intToString 0 = lit "0"
    decide +kernel
  rw [hzero hleast.1, hzero hgreatest.1]
  constructor
  · rintro ⟨hf, hl⟩ t ht
    have hbefore' := hbefore t ht
    have hafter' := hafter t ht
    obtain ⟨r, n, hr⟩ := hvarchar t ht
    obtain ⟨r₁, n₁, hr₁⟩ := hvarchar first hfirst
    obtain ⟨r₂, n₂, hr₂⟩ := hvarchar last hlast
    rw [hr, hr₁, valueLess_varchar] at hbefore'
    rw [hr, hr₂, valueLess_varchar] at hafter'
    rw [cellOf, hr₁] at hf
    rw [cellOf, hr₂] at hl
    obtain rfl : lit "0" = r₁ := hf
    obtain rfl : lit "0" = r₂ := hl
    rw [cellOf, hr]
    exact Std.le_antisymm (Std.not_lt.mp hafter') (Std.not_lt.mp hbefore')
  · intro h
    exact ⟨(h first hfirst).symm, (h last hlast).symm⟩

theorem min_max_eq_order_iff (hstd : Operator.Lawful env.std) (hplain : catalog.Plain) (hscans : Scans env catalog)
    (hinput : planInput catalog stmt = .ok input) (hrows : input.Evaluates env s rows s') (hne : rows ≠ [])
    (hi : input.outputSchema.getColumnIdx (columnKey tableAlias colName) = .ok i)
    (hc : input.outputSchema.columns[i]? = some c) :
    let e := Expr.columnRef tableAlias colName
    ∃ least greatest first last,
      Returns env catalog (selectAggregate stmt .min e) s [[least]] s' ∧
      Returns env catalog (selectAggregate stmt .max e) s [[greatest]] s' ∧
      (∃ rest, Returns env catalog (selectOrdered stmt e true) s ([first] :: rest) s') ∧
      (∃ rest, Returns env catalog (selectOrdered stmt e false) s ([last] :: rest) s') ∧
      ((least = first ∧ greatest = last) ↔
        c.type.typeId = .int ∨ ∀ t ∈ rows, cellOf e input.outputSchema t = lit "0") := by
  intro e
  obtain ⟨-, hsized⟩ := planInput_sound hstd hplain hscans hinput hrows
  obtain ⟨least, hleast, hmin⟩ := returns_selectAggregate hstd hplain hscans hinput hrows hne hi hc .min (by decide)
  obtain ⟨greatest, hgreatest, hmax⟩ :=
    returns_selectAggregate hstd hplain hscans hinput hrows hne hi hc .max (by decide)
  obtain ⟨first, hfirst, hasc, hbefore⟩ := returns_selectOrdered hstd hinput hrows hsized hne hi hc true
  obtain ⟨last, hlast, hdesc, hafter⟩ := returns_selectOrdered hstd hinput hrows hsized hne hi hc false
  refine ⟨_, _, _, _, hleast, hgreatest, hasc, hdesc, ?_⟩
  have hvals : ∀ t ∈ rows, (valOf e input.outputSchema t).HasType c.type := by
    intro t ht
    obtain ⟨v, hv, htype, -⟩ := evalExpr_column (hsized t ht) hi hc
    rw [valOf_eq hv]
    exact htype
  cases htype : c.type.typeId with
  | int =>
    have hint : ∀ t ∈ rows, ∃ x, valOf e input.outputSchema t = .int x := by
      intro t ht
      have hv := hvals t ht
      cases hval : valOf e input.outputSchema t with
      | int x => exact ⟨x, rfl⟩
      | varchar r n =>
        rw [hval] at hv
        cases hv.1.symm.trans htype
    exact iff_of_true (extremes_int hint hmin hmax hfirst hlast hbefore hafter) (Or.inl rfl)
  | varchar =>
    have hvarchar : ∀ t ∈ rows, ∃ r n, valOf e input.outputSchema t = .varchar r n := by
      intro t ht
      have hv := hvals t ht
      cases hval : valOf e input.outputSchema t with
      | int x =>
        rw [hval] at hv
        cases hv.1.symm.trans htype
      | varchar r n => exact ⟨r, n, rfl⟩
    rw [extremes_varchar hvarchar hmin hmax hfirst hlast hbefore hafter]
    exact ⟨Or.inr, fun h => h.resolve_left nofun⟩

theorem min_max_eq_order_ints :
    let rows := [[3, 0, 0, 0], [1, 0, 0, 0], [2, 0, 0, 0]]
    let e := Expr.columnRef [] (lit "x")
    ∃ least greatest,
      Returns (Operator.sameRows rows) (oneColumn .int) (selectAggregate (aggregateQuery .min) .min e) () [[least]] () ∧
      Returns (Operator.sameRows rows) (oneColumn .int) (selectAggregate (aggregateQuery .min) .max e) () [[greatest]] () ∧
      (∃ rest, Returns (Operator.sameRows rows) (oneColumn .int) (selectOrdered (aggregateQuery .min) e true) ()
        ([least] :: rest) ()) ∧
      ∃ rest, Returns (Operator.sameRows rows) (oneColumn .int) (selectOrdered (aggregateQuery .min) e false) ()
        ([greatest] :: rest) () := by
  intro rows e
  have hinput : planInput (oneColumn .int) (aggregateQuery .min) = .ok (scanColumn .int) := rfl
  have hi : (scanColumn .int).outputSchema.getColumnIdx (columnKey [] (lit "x")) = .ok 0 := rfl
  obtain ⟨least, greatest, first, last, hmin, hmax, hasc, hdesc, hiff⟩ :=
    min_max_eq_order_iff Operator.lawful_insertionStd (plain_oneColumn .int) (scans_oneColumn (by decide)) hinput
      (evaluates_scanColumn .int rows) (List.cons_ne_nil _ _) hi rfl
  obtain ⟨rfl, rfl⟩ := hiff.mpr (Or.inl rfl)
  exact ⟨least, greatest, hmin, hmax, hasc, hdesc⟩

/-- The `VARCHAR` that comes first is `a`, and `MIN` is 0. -/
theorem min_varchar :
    let env := Operator.sameRows [[97]]
    let e := Expr.columnRef [] (lit "x")
    Returns env (oneColumn ⟨.varchar, 1⟩) (selectAggregate (aggregateQuery .min) .min e) () [[lit "0"]] () ∧
      Returns env (oneColumn ⟨.varchar, 1⟩) (selectOrdered (aggregateQuery .min) e true) () [[lit "a"]] () := by
  intro env e
  have hsized : ∀ t ∈ ([[97]] : List Tuple), t.length = (scanColumn ⟨.varchar, 1⟩).outputSchema.tupleSize := by decide
  have hcols : GroupColumns (scanColumn ⟨.varchar, 1⟩).outputSchema [e] [⟨lit "t.x", ⟨.varchar, 1⟩⟩] :=
    .cons ⟨[], lit "x", 0, rfl, rfl, rfl⟩ .nil
  constructor
  · have hret := returns_aggregateQuery ⟨.varchar, 1⟩ [[97]] .min (by decide)
    have hcells : allCells (aggregateQuery .min) (scanColumn ⟨.varchar, 1⟩).outputSchema [[97]] = [[lit "0"]] := by
      decide +kernel
    rw [hcells] at hret
    exact hret
  · have hinput : planInput (oneColumn ⟨.varchar, 1⟩) (selectOrdered (aggregateQuery .min) e true) =
        .ok (scanColumn ⟨.varchar, 1⟩) := rfl
    obtain ⟨sorted, hret, hperm, -⟩ := returns_columns Operator.lawful_insertionStd hinput
      (evaluates_scanColumn ⟨.varchar, 1⟩ [[97]]) hsized rfl hcols (sortable_columns hcols hsized)
    rw [List.perm_singleton.mp hperm] at hret
    have hcells : columnCells [⟨e, []⟩] (scanColumn ⟨.varchar, 1⟩).outputSchema [97] = [lit "a"] := by decide +kernel
    rw [← hcells]
    exact hret

end extremes

end MyDB.Database

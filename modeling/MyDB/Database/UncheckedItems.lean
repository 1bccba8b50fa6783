import MyDB.Database.ColumnQueries

/-! Select items that the planner accepts without a look at them: `*` as the argument
of any aggregate, for which `HashAggregate` then has no expression, and string
literals, to which a `Projection` gives the width of an `INT`. -/

namespace MyDB

namespace Executor
open MyDB.Parser MyDB.Lib
variable {e : Expr} {t : Tuple} {schema : Schema} {f : Fault}

theorem update_nullPointer {ae : AggExpr} {a : Accumulator} :
    a.update ae t schema = .error .nullPointer ↔ ae.func ≠ .count ∧ ae.arg = none := by
  obtain ⟨func, arg, name⟩ := ae
  cases arg with
  | none => cases func <;> simp [Accumulator.update, throw, throwThe, MonadExceptOf.throw, pure, Except.pure]
  | some e =>
    have hok (g : Value → Accumulator) : (do return g (← evalExpr e t schema)) ≠ Except.error Fault.nullPointer := by
      intro h
      rcases bind_eq_error.mp h with h | ⟨v, -, h⟩
      · rcases evalExpr_error h with hf | ⟨msg, hf⟩
        · cases hf
        · cases hf
      · cases h
    have hupdate : a.update ⟨func, some e, name⟩ t schema ≠ .error .nullPointer := by
      cases func with
      | count => exact nofun
      | _ => exact hok _
    simp [hupdate]

namespace Operator

/-- The aggregates that the `Init`s of the tree evaluate. -/
def aggregated : Operator → List AggExpr
  | .seqScan .. | .parallelSeqScan .. => []
  | .filter child _ | .projection child _ _ | .sort child _ | .parallelSort child _ _ => child.aggregated
  | .hashJoin left right _ _ | .parallelHashJoin left right _ _ _ _ => left.aggregated ++ right.aggregated
  | .hashAggregate child _ aggExprs _ => child.aggregated ++ aggExprs

end Operator
end Executor

namespace Planner
open MyDB.Parser MyDB.Executor MyDB.Lib
variable {catalog : Catalog} {stmt : SelectStmt} {op input : Operator}

theorem aggregated_planInput (h : planInput catalog stmt = .ok input) : input.aggregated = [] := by
  obtain ⟨base, hbase, rfl⟩ := planInput_eq_ok.mp h
  have hnil : base.aggregated = [] := by
    refine planBase_induction (motive := fun op => op.aggregated = []) ?_ (fun _ _ _ => rfl) hbase
    intro left right _ _ hl hr
    exact List.append_eq_nil_iff.mpr ⟨hl, hr⟩
  cases stmt.whereClause with
  | none => exact hnil
  | some p => exact hnil

theorem aggregated_planSort (orderBy : List OrderByItem) (op : Operator) :
    (planSort orderBy op).aggregated = op.aggregated := by
  unfold planSort
  split
  · rfl
  · rfl

theorem aggExpr_aggregate {item : SelectItem} {func : AggFunc} {left : Expr} (h : item.expr = .aggregate func left) :
    aggExpr item = some ⟨func, some left, if item.aliasName = [] then func.name else item.aliasName⟩ := by
  unfold aggExpr
  rw [h]

theorem aggExpr_aggregateStar {item : SelectItem} {func : AggFunc} (h : item.expr = .aggregateStar func) :
    aggExpr item = some ⟨func, none, if item.aliasName = [] then func.name else item.aliasName⟩ := by
  unfold aggExpr
  rw [h]

theorem aggExpr_eq_none {item : SelectItem} (h : isAggregate item.expr = false) : aggExpr item = none := by
  unfold aggExpr
  cases hexpr : item.expr with
  | aggregate func left =>
    rw [hexpr] at h
    cases h
  | aggregateStar func =>
    rw [hexpr] at h
    cases h
  | _ => rfl

theorem aggregated_plan (h : plan catalog stmt = .ok op) : op.aggregated = stmt.selectList.filterMap aggExpr := by
  obtain ⟨input, hinput, hop⟩ := plan_eq_ok.mp h
  have hnil := aggregated_planInput hinput
  split_ifs at hop with hstar hagg
  · obtain ⟨item, hlist, hitem⟩ : ∃ item, stmt.selectList = [item] ∧ item.expr = .star := by
      unfold isStar at hstar
      split at hstar
      · next item hlist => exact ⟨item, hlist, of_decide_eq_true hstar⟩
      · cases hstar
    rw [hop, aggregated_planSort, hnil, hlist]
    unfold List.filterMap aggExpr
    rw [hitem]
    rfl
  · obtain ⟨schema, -, rfl⟩ := hop
    rw [aggregated_planSort, Operator.aggregated, hnil, List.nil_append]
  · obtain ⟨schema, -, rfl⟩ := hop
    rw [Operator.aggregated, aggregated_planSort, hnil, eq_comm, List.filterMap_eq_nil_iff]
    intro item hitem
    apply aggExpr_eq_none
    rw [not_or, Bool.not_eq_true, hasAggregate, List.any_eq_false] at hagg
    exact Bool.eq_false_iff.mpr (hagg.1 item hitem)

theorem arg_ne_none {list : List SelectItem}
    (h : ∀ item ∈ list, ∀ func, item.expr = .aggregateStar func → func = .count) :
    ∀ ae ∈ list.filterMap aggExpr, ae.func ≠ .count → ae.arg ≠ none := by
  intro ae hae hfunc
  obtain ⟨item, hitem, hagg⟩ := List.mem_filterMap.mp hae
  cases hexpr : item.expr with
  | aggregate func left =>
    rw [aggExpr_aggregate hexpr] at hagg
    cases hagg
    exact nofun
  | aggregateStar func =>
    rw [aggExpr_aggregateStar hexpr] at hagg
    cases hagg
    exact absurd (h item hitem func hexpr) hfunc
  | _ =>
    rw [aggExpr_eq_none (by rw [hexpr]; rfl)] at hagg
    cases hagg

/-! ## The schema of a projection -/

section project
variable {schema : Schema} {item : SelectItem} {c : Column} {t : Tuple} {v : Value}

theorem projectionColumn_eq_ok (h : projectionColumn schema item = .ok c) :
    (∃ tableAlias colName i c', item.expr = .columnRef tableAlias colName ∧
      schema.getColumnIdx (columnKey tableAlias colName) = .ok i ∧ schema.columns[i]? = some c' ∧ c.type = c'.type) ∨
    (∀ tableAlias colName, item.expr ≠ .columnRef tableAlias colName) ∧ c.type = .int := by
  cases hexpr : item.expr with
  | columnRef tableAlias colName =>
    have hidx := h
    rw [projectionColumn, hexpr] at hidx
    obtain ⟨i, hi, -⟩ := bind_eq_ok.mp hidx
    have hc' := List.getElem?_eq_getElem (Schema.getColumnIdx_lt hi)
    rw [projectionColumn_columnRef hexpr hi hc'] at h
    cases h
    exact Or.inl ⟨tableAlias, colName, i, _, rfl, hi, hc', rfl⟩
  | _ =>
    rw [projectionColumn, hexpr] at h
    cases h
    refine Or.inr ⟨fun tableAlias colName href => ?_, rfl⟩
    cases href

theorem hasType_projectionColumn (hc : projectionColumn schema item = .ok c) (hv : evalExpr item.expr t schema = .ok v)
    (ht : t.length = schema.tupleSize) (hint : ∀ k, item.expr = .intLiteral k → Int32 k)
    (hstring : ∀ s, item.expr ≠ .stringLiteral s) : v.HasType c.type ∧ v.stored = v := by
  rcases projectionColumn_eq_ok hc with ⟨tableAlias, colName, i, c', hexpr, hi, hc', htype⟩ | ⟨href, htype⟩
  · obtain ⟨v', hv', hhas, hstored⟩ := evalExpr_column ht hi hc'
    rw [hexpr, hv'] at hv
    cases hv
    rw [htype]
    exact ⟨hhas, hstored⟩
  · cases hexpr : item.expr with
    | intLiteral k =>
      rw [hexpr] at hv
      cases hv
      rw [htype]
      exact ⟨⟨rfl, hint k hexpr⟩, rfl⟩
    | stringLiteral s => exact absurd hexpr (hstring s)
    | columnRef tableAlias colName => exact absurd hexpr (href tableAlias colName)
    | _ =>
      rw [hexpr] at hv
      cases hv

theorem getValue_ne_varchar {i : Nat} (hc : schema.columns[i]? = some c) (htype : c.type = .int) (s : Str) (n : Nat) :
    t.getValue schema i ≠ .ok (.varchar s n) := by
  unfold Tuple.getValue
  rw [hc]
  dsimp only
  rw [htype]
  unfold Value.deserialize ColumnType.int
  dsimp only
  split
  · exact nofun
  · exact nofun

end project

theorem planInput_ne_projection (h : planInput catalog stmt = .ok input) (child : Operator) (exprs : List Expr)
    (schema : Schema) : input ≠ .projection child exprs schema := by
  obtain ⟨base, hbase, rfl⟩ := planInput_eq_ok.mp h
  cases stmt.whereClause with
  | none =>
    refine planBase_induction (motive := fun op => op ≠ .projection child exprs schema) ?_ ?_ hbase
    · intro left right leftKey rightKey _ _
      exact nofun
    · intro info _ aliasName
      exact nofun
  | some p => exact nofun

theorem planSort_ne_projection {child : Operator} {exprs : List Expr} {schema : Schema} (orderBy : List OrderByItem)
    (h : op ≠ .projection child exprs schema) : planSort orderBy op ≠ .projection child exprs schema := by
  unfold planSort
  split
  · exact h
  · exact nofun

theorem plan_projection {child : Operator} {exprs : List Expr} {schema : Schema}
    (h : plan catalog stmt = .ok (.projection child exprs schema)) : exprs = stmt.selectList.map (·.expr) ∧
      stmt.selectList.mapM (projectionColumn child.outputSchema) = .ok schema.columns := by
  obtain ⟨input, hinput, hop⟩ := plan_eq_ok.mp h
  split_ifs at hop
  · exact absurd hop.symm (planSort_ne_projection _ (planInput_ne_projection hinput child exprs schema))
  · obtain ⟨_, -, hop⟩ := hop
    exact absurd hop.symm (planSort_ne_projection _ nofun)
  · obtain ⟨_, hbuild, hop⟩ := hop
    cases hop
    obtain ⟨cols, hcols, hschema⟩ := bind_eq_ok.mp hbuild
    cases hschema
    rw [outputSchema_planSort]
    exact ⟨rfl, hcols⟩

/-- A `Projection` that the planner builds writes within the tuple, and what it writes
can be read back from it. -/
def Projects (exprs : List Expr) (child schema : Schema) (t : Tuple) : Prop :=
  ∃ out, Operator.projected exprs child schema t = .ok out ∧ out.length = schema.tupleSize ∧
    ∀ (i : Nat) e, exprs[i]? = some e → ∃ v, evalExpr e t child = .ok v ∧ out.getValue schema i = .ok v

/-- For every projection that the planner builds and every row for which all items can
be evaluated; an integer literal is an `int32_t`. -/
theorem projects_iff {child : Operator} {exprs : List Expr} {schema : Schema} {t : Tuple}
    (hplan : plan catalog stmt = .ok (.projection child exprs schema)) (ht : t.length = child.outputSchema.tupleSize)
    (hint : ∀ k, .intLiteral k ∈ exprs → Int32 k) (heval : ∀ e ∈ exprs, ∃ v, evalExpr e t child.outputSchema = .ok v) :
    Projects exprs child.outputSchema schema t ↔ ∀ s, .stringLiteral s ∉ exprs := by
  obtain ⟨rfl, hcols⟩ := plan_projection hplan
  constructor
  · rintro ⟨out, -, -, hread⟩ s hs
    obtain ⟨i, hi⟩ := List.mem_iff_getElem?.mp hs
    obtain ⟨v, hv, hout⟩ := hread i _ hi
    cases hv
    -- the column of the string is an `INT`
    rw [List.getElem?_map, Option.map_eq_some_iff] at hi
    obtain ⟨item, hitem, hexpr⟩ := hi
    obtain ⟨c, hc, hcol⟩ := getElem?_of_forall₂ (mapM_eq_ok.mp hcols) hitem
    rcases projectionColumn_eq_ok hcol with ⟨_, _, _, _, href, -⟩ | ⟨-, htype⟩
    · cases hexpr.symm.trans href
    · exact getValue_ne_varchar hc htype s 255 hout
  · intro hstring
    let vals := (stmt.selectList.map (·.expr)).map fun e => valOf e child.outputSchema t
    have hval : ∀ e ∈ stmt.selectList.map (·.expr), evalExpr e t child.outputSchema = .ok (valOf e child.outputSchema t) := by
      intro e he
      obtain ⟨v, hv⟩ := heval e he
      rw [valOf_eq hv, hv]
    have hcells : List.Forall₂ (fun v c => Value.HasType c.type v ∧ v.stored = v) vals schema.columns := by
      simp only [vals, List.map_map, List.forall₂_map_left_iff]
      refine forall₂_imp_mem (mapM_eq_ok.mp hcols) fun item hitem c _ hc => ?_
      have hmem : item.expr ∈ stmt.selectList.map (·.expr) := List.mem_map_of_mem hitem
      exact hasType_projectionColumn hc (hval _ hmem) ht (fun k hk => hint k (hk ▸ hmem)) fun s hs => hstring s (hs ▸ hmem)
    have htyped : schema.Typed vals := hcells.imp fun _ _ h => h.1
    refine ⟨Tuple.encode vals, ?_, Tuple.length_encode_fits htyped.fits, fun i e he => ?_⟩
    · exact bind_eq_ok.mpr ⟨vals, mapM_of_ok hval, Tuple.ofValues_ok htyped.fits⟩
    · have hv : vals[i]? = some (valOf e child.outputSchema t) := by
        simp only [vals, List.getElem?_map] at he ⊢
        rw [he]
        rfl
      obtain ⟨c, -, -, hstored⟩ := getElem?_of_forall₂ hcells hv
      refine ⟨_, hval e (List.mem_of_getElem? he), ?_⟩
      rw [Tuple.getValue_encode htyped hv, hstored]

end Planner

namespace Database
open MyDB.Storage MyDB.Parser MyDB.Executor MyDB.Lib MyDB.Planner

/-- For every `SELECT` that the planner accepts, no aggregate of the plan is evaluated
on a null pointer exactly if `*` is the argument of `COUNT` only. -/
theorem aggregates_have_arguments_iff {catalog : Catalog} {stmt : SelectStmt} {op : Operator}
    (hplan : plan catalog stmt = .ok op) :
    (∀ ae ∈ op.aggregated, (ae.func ≠ .count → ae.arg ≠ none) ∧
      ∀ (a : Accumulator) t schema, a.update ae t schema ≠ .error .nullPointer) ↔
    ∀ item ∈ stmt.selectList, ∀ func, item.expr = .aggregateStar func → func = .count := by
  rw [aggregated_plan hplan]
  constructor
  · intro h item hitem func hexpr
    by_contra hfunc
    exact (h _ (List.mem_filterMap.mpr ⟨item, hitem, aggExpr_aggregateStar hexpr⟩)).1 hfunc rfl
  · intro h ae hae
    have harg := arg_ne_none h ae hae
    refine ⟨harg, fun a t schema hnull => ?_⟩
    obtain ⟨hfunc, hnone⟩ := update_nullPointer.mp hnull
    exact harg hfunc hnone

theorem aggregates_have_arguments_count : ∃ op, plan (oneColumn .int) countQuery = .ok op ∧
    ∀ ae ∈ op.aggregated, (ae.func ≠ .count → ae.arg ≠ none) ∧
      ∀ (a : Accumulator) t schema, a.update ae t schema ≠ .error .nullPointer := by
  have hplan : plan (oneColumn .int) countQuery = .ok _ := rfl
  refine ⟨_, hplan, (aggregates_have_arguments_iff hplan).mpr ?_⟩
  intro item hitem func hexpr
  cases List.mem_singleton.mp hitem
  cases hexpr
  rfl

/-- `SUM(*)`, `AVG(*)`, `MIN(*)` and `MAX(*)` are parsed and planned, and dereference a
null pointer on the first row. -/
theorem star_argument_null :
    answers [lit "CREATE TABLE t (x INT)", lit "INSERT INTO t VALUES (1)", lit "SELECT SUM(*) FROM t"] =
      .error .nullPointer ∧
    answers [lit "CREATE TABLE t (x INT)", lit "INSERT INTO t VALUES (1)", lit "SELECT AVG(*) FROM t"] =
      .error .nullPointer ∧
    answers [lit "CREATE TABLE t (x INT)", lit "INSERT INTO t VALUES (1)", lit "SELECT MIN(*) FROM t"] =
      .error .nullPointer ∧
    answers [lit "CREATE TABLE t (x INT)", lit "INSERT INTO t VALUES (1)", lit "SELECT MAX(*) FROM t"] =
      .error .nullPointer := by
  refine ⟨?_, ?_, ?_, ?_⟩ <;> decide +kernel

/-- `SELECT x, 5 FROM t`. -/
def literalQuery : SelectStmt := ⟨[⟨.columnRef [] (lit "x"), []⟩, ⟨.intLiteral 5, []⟩], lit "t", [], [], none, [], []⟩

theorem projects_literal : ∃ child exprs schema, plan (oneColumn .int) literalQuery = .ok (.projection child exprs schema) ∧
    Projects exprs child.outputSchema schema (toLE 4 7) := by
  have hplan : plan (oneColumn .int) literalQuery =
      .ok (.projection _ [.columnRef [] (lit "x"), .intLiteral 5] _) := rfl
  refine ⟨_, _, _, hplan, (projects_iff hplan rfl (fun k hk => ?_) (fun e he => ?_)).mpr ?_⟩
  · cases (List.mem_pair.mp hk).resolve_left nofun
    exact ⟨by decide, by decide⟩
  · rcases List.mem_pair.mp he with rfl | rfl
    · exact ⟨_, rfl⟩
    · exact ⟨_, rfl⟩
  · intro s hs
    exact (List.mem_pair.mp hs).elim nofun nofun

/-- A string literal takes 255 bytes, where the tuple of the projection has 4. -/
theorem string_item_overflows :
    answers [lit "CREATE TABLE t (x INT)", lit "INSERT INTO t VALUES (1)", lit "SELECT 'a' FROM t"] =
      .error .outOfBounds := by decide +kernel

end Database
end MyDB

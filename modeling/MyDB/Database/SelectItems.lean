import MyDB.Database.ColumnQueries

/-! The columns of a `SELECT` with aggregates or `GROUP BY`. The planner lists the
expressions of `GROUP BY` and then the aggregates, whatever the select list says. -/

namespace MyDB.Database
open MyDB.Parser MyDB.Executor MyDB.Lib MyDB.Planner

variable {σ : Type} {env : Env σ} {catalog : Catalog} {stmt : SelectStmt} {input op : Operator} {s s' s₁ : σ}
  {rows : List Tuple} {cells : List (List Str)} {schema : Schema}

/-! ## The values of the items -/

theorem Returns.groups (hstd : Operator.Lawful env.std) (hplain : catalog.Plain) (hscans : Scans env catalog)
    (hagg : Aggregating stmt) (hinput : planInput catalog stmt = .ok input) (hrows : input.Evaluates env s rows s₁)
    (h : Returns env catalog stmt s cells s') :
    Returns env catalog { stmt with orderBy := [] } s (allCells stmt input.outputSchema rows) s' := by
  obtain ⟨op, out, hplan, hrun, hcells⟩ := h
  obtain ⟨schema, cols, hbuild, rfl, hgroup, hsized⟩ :=
    plan_aggregate_input hstd hplain hscans hagg hinput hrows hplan
  obtain ⟨out', hrun', -⟩ := evaluates_planSort hstd hrun
  obtain ⟨rfl, hargs, -⟩ := (evaluates_hashAggregate_readBack hstd hrows hsized hgroup hbuild).mp hrun'
  have hagg' : Aggregating { stmt with orderBy := [] } := hagg
  have hinput' : planInput catalog { stmt with orderBy := [] } = .ok input := hinput
  exact returns_aggregate hstd hplain hscans hagg' hinput' hrows
    ((plan_aggregate_eq_ok hagg').mpr ⟨input, schema, hinput, hbuild, rfl⟩) rfl hargs

section inOrder
variable {cols : List Column} {groupItems aggItems : List SelectItem} {ae : AggExpr} {ts : List Tuple}

end inOrder

end MyDB.Database

import MyDB.Database.AggregateQueries
import MyDB.Executor.SortOrder
import MyDB.Planner.Resolution

/-! `ORDER BY` above `GROUP BY`. The schema of the groups keeps the names of the
columns without their tables, so that a qualified name in `ORDER BY` finds the
first grouped column with its unqualified name. -/

namespace MyDB.Database
open MyDB.Parser MyDB.Executor MyDB.Lib MyDB.Planner

def colVal (schema : Schema) (i : Nat) (t : Tuple) : Value :=
  match t.getValue schema i with
  | .ok v => v
  | .error _ => .int 0

/-- The grouped column that is written like the expression. -/
def groupedAs (groupBy : List Expr) (e : Expr) : Option Nat := groupBy.idxOf? e

/-- The first grouped column that has the name of the expression, without its table. -/
def firstNamed (groupBy : List Expr) (e : Expr) : Option Nat :=
  if e ∈ groupBy then groupBy.findIdx? fun e' => (columnFields e').2 = (columnFields e).2 else none

/-- The value of an expression of `ORDER BY` on the row of a group, with the
grouped column that `find` has for it. -/
def groupVal (find : Expr → Option Nat) (schema : Schema) (e : Expr) (t : Tuple) : Value :=
  match find e with
  | some i => colVal schema i t
  | none => valOf e schema t

/-- The expressions are columns with the names of their tables. -/
def Qualified (groupBy : List Expr) : Prop :=
  ∀ e ∈ groupBy, ∃ tableAlias colName, e = .columnRef tableAlias colName ∧ tableAlias ≠ []

theorem valOf_columnRef {schema : Schema} {tableAlias colName : Str} {i : Nat}
    (h : schema.getColumnIdx (columnKey tableAlias colName) = .ok i) (t : Tuple) :
    valOf (.columnRef tableAlias colName) schema t = colVal schema i t := by
  unfold valOf
  rw [evalExpr_columnRef h]
  rfl

section schema
variable {stmt : SelectStmt} {inputSchema schema : Schema} {e : Expr} {tableAlias colName : Str} {i : Nat}

theorem not_dot_name (func : AggFunc) : dotChar ∉ func.name := by
  cases func <;> decide

theorem not_dot_outputName (hplain : stmt.Plain) {ae : AggExpr} (h : ae ∈ aggregates stmt) :
    dotChar ∉ ae.outputName := by
  obtain ⟨item, hitem, hae⟩ := List.mem_filterMap.mp h
  have hname (func : AggFunc) : dotChar ∉ (if item.aliasName = [] then func.name else item.aliasName) := by
    split_ifs with hempty
    · exact not_dot_name func
    · exact ((hplain.items item hitem).2.resolve_left hempty).2
  unfold aggExpr at hae
  cases hexpr : item.expr with
  | aggregate func left =>
    rw [hexpr] at hae
    cases hae
    exact hname func
  | aggregateStar func =>
    rw [hexpr] at hae
    cases hae
    exact hname func
  | _ =>
    rw [hexpr] at hae
    cases hae

theorem groupColumn_name {c : Column} (h : groupColumn inputSchema e = .ok c) : c.name = (columnFields e).2 := by
  obtain ⟨j, -, h⟩ := bind_eq_ok.mp h
  obtain ⟨c', -, h⟩ := bind_eq_ok.mp h
  cases pure_eq_ok.mp h
  rfl

theorem buildAggSchema_names {groupBy : List Expr} {aggs : List AggExpr}
    (h : buildAggSchema groupBy aggs inputSchema = .ok schema) :
    schema.columns.map (·.name) = groupBy.map (fun e => (columnFields e).2) ++ aggs.map (·.outputName) := by
  obtain ⟨cols, hcols, hout⟩ := bind_eq_ok.mp h
  cases pure_eq_ok.mp hout
  have hnames : cols.map (·.name) = groupBy.map fun e => (columnFields e).2 := by
    have hall : List.Forall₂ (fun e c => Column.name c = (columnFields e).2) groupBy cols :=
      List.Forall₂.imp (fun _ _ hc => groupColumn_name hc) (mapM_eq_ok.mp hcols)
    clear h hcols hout
    induction hall with
    | nil => rfl
    | cons hname _ ih => rw [List.map_cons, List.map_cons, hname, ih]
  rw [List.map_append, hnames, List.map_map]
  rfl

theorem findIdx?_map_name (cols : List Column) (name : Str) :
    cols.findIdx? (·.name = name) = (cols.map (·.name)).findIdx? (· = name) := by
  rw [List.findIdx?_map]
  rfl

theorem getColumnIdx_group (hplain : stmt.Plain)
    (hbuild : buildAggSchema stmt.groupBy (aggregates stmt) inputSchema = .ok schema)
    (hmem : .columnRef tableAlias colName ∈ stmt.groupBy) (hqual : tableAlias ≠ []) :
    ∃ i, firstNamed stmt.groupBy (.columnRef tableAlias colName) = some i ∧
      schema.getColumnIdx (columnKey tableAlias colName) = .ok i := by
  have hsome : (stmt.groupBy.findIdx? fun e' => (columnFields e').2 = colName).isSome := by
    rw [List.findIdx?_isSome, List.any_eq_true]
    exact ⟨_, hmem, decide_eq_true rfl⟩
  obtain ⟨i, hfirst⟩ := Option.isSome_iff_exists.mp hsome
  refine ⟨i, (if_pos hmem).trans hfirst, ?_⟩
  have hnames := buildAggSchema_names hbuild
  have hkey : columnKey tableAlias colName = tableAlias ++ lit "." ++ colName := if_neg hqual
  have hdot : dotChar ∈ columnKey tableAlias colName := by
    rw [hkey]
    simp [show lit "." = [dotChar] from by decide]
  have hnodots : ∀ name ∈ schema.columns.map (·.name), dotChar ∉ name := by
    intro name hname
    rw [hnames] at hname
    rcases List.mem_append.mp hname with hgroup | hagg
    · obtain ⟨e, he, rfl⟩ := List.mem_map.mp hgroup
      have hp := hplain.groupBy e he
      cases e with
      | columnRef a c => exact hp.2.2
      | _ => exact List.not_mem_nil
    · obtain ⟨ae, hae, rfl⟩ := List.mem_map.mp hagg
      exact not_dot_outputName hplain hae
  refine Schema.getColumnIdx_eq_ok.mpr (Or.inr ⟨?_, Or.inr ⟨colName, ?_, ?_⟩⟩)
  · refine Schema.findIdx?_eq_none.mpr ?_
    intro c hc hname
    exact hnodots _ (List.mem_map_of_mem hc) (hname ▸ hdot)
  · rw [hkey]
    exact afterDot_append (hplain.groupBy _ hmem).2.2
  · rw [findIdx?_map_name, hnames, List.findIdx?_append, List.findIdx?_map]
    have hfirst' : List.findIdx? ((fun x => decide (x = colName)) ∘ fun e => (columnFields e).2) stmt.groupBy = some i :=
      hfirst
    rw [hfirst']
    rfl

theorem valOf_eq_groupVal (hplain : stmt.Plain) (hqual : Qualified stmt.groupBy)
    (hbuild : buildAggSchema stmt.groupBy (aggregates stmt) inputSchema = .ok schema) :
    (fun e t => valOf e schema t) = groupVal (firstNamed stmt.groupBy) schema := by
  funext e t
  unfold groupVal
  by_cases hmem : e ∈ stmt.groupBy
  · obtain ⟨tableAlias, colName, rfl, hne⟩ := hqual e hmem
    obtain ⟨i, hfirst, hidx⟩ := getColumnIdx_group hplain hbuild hmem hne
    rw [hfirst]
    exact valOf_columnRef hidx t
  · have hfirst : firstNamed stmt.groupBy e = none := if_neg hmem
    rw [hfirst]

end schema

variable {σ : Type} {env : Env σ} {catalog : Catalog} {stmt : SelectStmt} {op input : Operator} {s s₁ : σ}
  {groups : List Tuple}

theorem sortable_groups {schema : Schema} (hplain : stmt.Plain) (hqual : Qualified stmt.groupBy)
    (hbuild : buildAggSchema stmt.groupBy (aggregates stmt) input.outputSchema = .ok schema)
    (hsized : ∀ t ∈ groups, t.length = schema.tupleSize)
    (hrest : Sortable schema (stmt.orderBy.filter fun item => item.expr ∉ stmt.groupBy) groups) :
    Sortable schema stmt.orderBy groups := by
  intro item hitem
  by_cases hmem : item.expr ∈ stmt.groupBy
  · obtain ⟨tableAlias, colName, he, hne⟩ := hqual _ hmem
    rw [he] at hmem ⊢
    obtain ⟨i, -, hidx⟩ := getColumnIdx_group hplain hbuild hmem hne
    obtain ⟨c, hc⟩ : ∃ c, schema.columns[i]? = some c := ⟨_, List.getElem?_eq_getElem (Schema.getColumnIdx_lt hidx)⟩
    refine ⟨c.type.typeId, fun t ht => ?_⟩
    obtain ⟨v, hv, htype, -⟩ := evalExpr_column (hsized t ht) hidx hc
    exact ⟨v, hv, htype.typeId_eq⟩
  · exact hrest item (List.mem_filter.mpr ⟨hitem, decide_eq_true hmem⟩)

theorem evaluates_groups_std (hstd : Operator.Lawful env.std) {std : Std} (hstd' : Operator.Lawful std)
    (hinput : planInput catalog stmt = .ok input) {schema : Schema}
    (hgroups : (Operator.hashAggregate input stmt.groupBy (aggregates stmt) schema).Evaluates env s groups s₁)
    {out : List Tuple} {s' : σ} :
    (Operator.hashAggregate input stmt.groupBy (aggregates stmt) schema).Evaluates { env with std } s out s' ↔
      out = groups ∧ s' = s₁ := by
  have hsame : (Operator.hashAggregate input stmt.groupBy (aggregates stmt) schema).Evaluates { env with std } s out s' ↔
      (Operator.hashAggregate input stmt.groupBy (aggregates stmt) schema).Evaluates env s out s' := by
    rw [Operator.evaluates_hashAggregate_rows hstd', Operator.evaluates_hashAggregate_rows hstd]
    simp only [evaluates_planInput_std hstd hstd' hinput]
  rw [hsame]
  constructor
  · intro h
    exact h.unique hgroups
  · rintro ⟨rfl, rfl⟩
    exact hgroups

theorem groups_sorted_iff (hstd : Operator.Lawful env.std) (hcat : catalog.Plain) (hscans : Scans env catalog)
    (hplain : stmt.Plain) (hagg : Aggregating stmt) (hqual : Qualified stmt.groupBy)
    (hinput : planInput catalog stmt = .ok input) (hplan : plan catalog stmt = .ok op)
    (hgroups : (Operator.hashAggregate input stmt.groupBy (aggregates stmt) op.outputSchema).Evaluates env s groups s₁)
    (hrest : Sortable op.outputSchema (stmt.orderBy.filter fun item => item.expr ∉ stmt.groupBy) groups) :
    (∀ std, Operator.Lawful std → ∀ out s', op.Evaluates { env with std } s out s' →
      out.Pairwise fun t u => ¬ rowLessBy (groupVal (groupedAs stmt.groupBy) op.outputSchema) stmt.orderBy u t) ↔
    ∀ g ∈ groups, ∀ g' ∈ groups, rowLessBy (groupVal (groupedAs stmt.groupBy) op.outputSchema) stmt.orderBy g g' →
      rowLessBy (groupVal (firstNamed stmt.groupBy) op.outputSchema) stmt.orderBy g g' := by
  obtain ⟨rows, hrows, -, -⟩ := (Operator.evaluates_hashAggregate_rows hstd).mp hgroups
  obtain ⟨schema, cols, hbuild, hop, hcols, hsized⟩ :=
    plan_aggregate_input hstd hcat hscans hagg hinput hrows hplan
  have hschema : op.outputSchema = schema := by
    rw [hop, outputSchema_planSort]
    rfl
  rw [hschema] at hgroups hrest ⊢
  have hlengths : ∀ g ∈ groups, g.length = schema.tupleSize := by
    obtain ⟨-, -, rfl⟩ := (evaluates_hashAggregate_readBack hstd hrows hsized hcols hbuild).mp hgroups
    intro g hg
    obtain ⟨t, ht, rfl⟩ := List.mem_map.mp hg
    exact Tuple.length_encode_fits (typed_readBack hcols (hsized t (mem_of_mem_firsts ht)) hbuild _).fits
  have hsortable := sortable_groups hplain hqual hbuild hlengths hrest
  rw [← valOf_eq_groupVal hplain hqual hbuild, rowLessBy_valOf]
  have hdecides : Decides (tupleLess schema stmt.orderBy) (rowLess schema stmt.orderBy) groups :=
    fun a ha b hb => tupleLess_eq hsortable ha hb
  rw [← sorts_iff (weakLess_row schema stmt.orderBy) hdecides (weakLess_rowBy _ stmt.orderBy)]
  by_cases horder : stmt.orderBy = []
  · have hnone (t u : Tuple) : ¬ rowLessBy (groupVal (groupedAs stmt.groupBy) schema) stmt.orderBy u t := by
      rw [horder]
      exact not_false
    constructor
    · exact fun _ _ _ l' _ => List.pairwise_of_forall hnone
    · exact fun _ _ _ out _ _ => List.pairwise_of_forall hnone
  have hsort : planSort stmt.orderBy (.hashAggregate input stmt.groupBy (aggregates stmt) schema) =
      .sort (.hashAggregate input stmt.groupBy (aggregates stmt) schema) stmt.orderBy := if_neg horder
  rw [hop, hsort]
  constructor
  · intro hall sort hspec l' hl'
    have hstd' : Operator.Lawful { env.std with sort } := ⟨hspec, hstd.heap⟩
    refine hall { env.std with sort } hstd' l' s₁ ?_
    exact (Operator.evaluates_sort_iff hstd').mpr ⟨groups, (evaluates_groups_std hstd hstd' hinput hgroups).mpr ⟨rfl, rfl⟩, hl'⟩
  · intro hall std hstd' out s' h
    obtain ⟨l, hl, hout⟩ := (Operator.evaluates_sort_iff hstd').mp h
    obtain ⟨rfl, rfl⟩ := (evaluates_groups_std hstd hstd' hinput hgroups).mp hl
    exact hall std.sort hstd'.sort out hout

theorem star_sorted (hstd : Operator.Lawful env.std) (hinput : planInput catalog stmt = .ok input)
    (hstar : isStar stmt.selectList = true) (hplan : plan catalog stmt = .ok op) {rows : List Tuple}
    (hrows : input.Evaluates env s rows s₁) (hsortable : Sortable input.outputSchema stmt.orderBy rows) {std : Std}
    (hstd' : Operator.Lawful std) {out : List Tuple} {s' : σ} (hout : op.Evaluates { env with std } s out s') :
    out.Pairwise fun t u => ¬ rowLess input.outputSchema stmt.orderBy u t := by
  obtain ⟨input', hinput', hop⟩ := plan_eq_ok.mp hplan
  cases hinput.symm.trans hinput'
  rw [if_pos hstar] at hop
  have hrows' := (evaluates_planInput_std hstd hstd' hinput).mpr hrows
  by_cases horder : stmt.orderBy = []
  · apply List.pairwise_of_forall
    intro t u
    rw [horder]
    exact not_false
  · rw [hop, planSort, if_neg horder] at hout
    obtain ⟨l, hl, hsort⟩ := (Operator.evaluates_sort_iff hstd').mp hout
    obtain ⟨rfl, -⟩ := hl.unique hrows'
    obtain ⟨sorted, hsorted, -, hpair⟩ := sort_rows hstd' hsortable
    cases hsort.symm.trans hsorted
    exact hpair

/-- For every query with `GROUP BY` over qualified columns, whatever sort the
library has: the rows of the groups come in the order of `ORDER BY`, each item that
is a grouped column taken as that column, exactly if for the groups at hand this
order is part of the one by the first grouped columns of those unqualified names.
The rows of `SELECT *`, which are not grouped, always do. -/
theorem sorted_by_groups_iff (hstd : Operator.Lawful env.std) (hcat : catalog.Plain) (hscans : Scans env catalog)
    {sql : Str} (hparse : parseSql sql = .ok (.select stmt)) (hgroup : stmt.groupBy ≠ [])
    (hqual : Qualified stmt.groupBy) (hinput : planInput catalog stmt = .ok input)
    (hplan : plan catalog stmt = .ok op) :
    (isStar stmt.selectList = false → ∀ groups s₁,
      (Operator.hashAggregate input stmt.groupBy (aggregates stmt) op.outputSchema).Evaluates env s groups s₁ →
      Sortable op.outputSchema (stmt.orderBy.filter fun item => item.expr ∉ stmt.groupBy) groups →
      ((∀ std, Operator.Lawful std → ∀ out s', op.Evaluates { env with std } s out s' →
        out.Pairwise fun t u => ¬ rowLessBy (groupVal (groupedAs stmt.groupBy) op.outputSchema) stmt.orderBy u t) ↔
      ∀ g ∈ groups, ∀ g' ∈ groups, rowLessBy (groupVal (groupedAs stmt.groupBy) op.outputSchema) stmt.orderBy g g' →
        rowLessBy (groupVal (firstNamed stmt.groupBy) op.outputSchema) stmt.orderBy g g')) ∧
    (isStar stmt.selectList = true → ∀ rows s₁, input.Evaluates env s rows s₁ →
      Sortable input.outputSchema stmt.orderBy rows →
      ∀ std, Operator.Lawful std → ∀ out s', op.Evaluates { env with std } s out s' →
        out.Pairwise fun t u => ¬ rowLess input.outputSchema stmt.orderBy u t) := by
  constructor
  · intro hstar groups s₁ hgroups hrest
    exact groups_sorted_iff hstd hcat hscans (parseSql_plain hparse) ⟨hstar, Or.inr hgroup⟩ hqual hinput hplan hgroups hrest
  · intro hstar rows s₁ hrows hsortable std hstd' out s' hout
    exact star_sorted hstd hinput hstar hplan hrows hsortable hstd' hout

def linkSchema : Schema := ⟨[⟨lit "id", .int⟩, ⟨lit "k", .int⟩]⟩

def linkTables : Catalog := ⟨[⟨lit "a", linkSchema, ⟨linkSchema, 0, 0⟩⟩, ⟨lit "b", linkSchema, ⟨linkSchema, 0, 0⟩⟩]⟩

def linkRows : List Tuple :=
  [[1, 0, 0, 0, 2, 0, 0, 0], [2, 0, 0, 0, 3, 0, 0, 0], [3, 0, 0, 0, 9, 0, 0, 0], [1, 0, 0, 0, 2, 0, 0, 0]]

/-- The rows of `a` and `b` where `a.k = b.id`, and their groups with the counts. -/
def linkedRows : List Tuple :=
  [[1, 0, 0, 0, 2, 0, 0, 0, 2, 0, 0, 0, 3, 0, 0, 0], [1, 0, 0, 0, 2, 0, 0, 0, 2, 0, 0, 0, 3, 0, 0, 0],
    [2, 0, 0, 0, 3, 0, 0, 0, 3, 0, 0, 0, 9, 0, 0, 0]]

def linkedGroups : List Tuple := [[1, 0, 0, 0, 2, 0, 0, 0, 2, 0, 0, 0], [2, 0, 0, 0, 3, 0, 0, 0, 1, 0, 0, 0]]

def linkQuery : SelectStmt :=
  ⟨[⟨.aggregateStar .count, []⟩], lit "a", [],
    [⟨lit "b", [], .binaryOp .eq (.columnRef (lit "a") (lit "k")) (.columnRef (lit "b") (lit "id"))⟩], none,
    [.columnRef (lit "a") (lit "id"), .columnRef (lit "b") (lit "id")], [⟨.columnRef (lit "b") (lit "id"), false⟩]⟩

def scanLinks (name : Str) : Operator :=
  .seqScan ⟨name, linkSchema, ⟨linkSchema, 0, 0⟩⟩ ⟨[⟨name ++ lit ".id", .int⟩, ⟨name ++ lit ".k", .int⟩]⟩

def joinLinks : Operator :=
  .hashJoin (scanLinks (lit "a")) (scanLinks (lit "b")) (.columnRef (lit "a") (lit "k")) (.columnRef (lit "b") (lit "id"))

def linkedSchema : Schema := ⟨[⟨lit "id", .int⟩, ⟨lit "id", .int⟩, ⟨lit "COUNT", .int⟩]⟩

theorem evaluates_linkedGroups :
    (Operator.hashAggregate joinLinks linkQuery.groupBy (aggregates linkQuery) linkedSchema).Evaluates
      (Operator.sameRows linkRows) () linkedGroups () := by
  have hscan (name : Str) : (scanLinks name).Evaluates (Operator.sameRows linkRows) () linkRows () :=
    Operator.evaluates_seqScan_iff.mpr rfl
  have hjoin : joinLinks.Evaluates (Operator.sameRows linkRows) () linkedRows () :=
    (Operator.evaluates_hashJoin_iff Operator.lawful_insertionStd).mpr
      ⟨linkRows, (), linkRows, _, _, hscan _, hscan _, rfl, rfl, by decide +kernel⟩
  apply (Operator.evaluates_hashAggregate_rows Operator.lawful_insertionStd).mpr
  have hvals : ∀ t ∈ linkedRows, linkQuery.groupBy.mapM (evalExpr · t joinLinks.outputSchema) =
      .ok (groupVals linkQuery.groupBy joinLinks.outputSchema t) := by decide +kernel
  refine ⟨linkedRows, hjoin, fun t ht => ⟨hvals t ht, ?_⟩, by decide +kernel⟩
  intro ae hae hne
  rw [List.mem_singleton.mp hae] at hne
  exact absurd rfl hne

/-- `ORDER BY b.id` reads `a.id`, and both have the groups in the same order. -/
theorem sorted_by_groups_links : ∃ op, plan linkTables linkQuery = .ok op ∧
    ∀ std, Operator.Lawful std → ∀ out s',
      op.Evaluates { Operator.sameRows linkRows with std } () out s' →
      out.Pairwise fun t u => ¬ rowLessBy (groupVal (groupedAs linkQuery.groupBy) op.outputSchema) linkQuery.orderBy u t := by
  have hparse : parseSql (lit "SELECT COUNT(*) FROM a JOIN b ON a.k = b.id GROUP BY a.id, b.id ORDER BY b.id DESC") =
      .ok (.select linkQuery) := by decide +kernel
  have hplan : plan linkTables linkQuery = .ok (planSort linkQuery.orderBy
      (.hashAggregate joinLinks linkQuery.groupBy (aggregates linkQuery) linkedSchema)) := rfl
  have hplain : linkTables.Plain := by
    show ∀ info ∈ linkTables.tables, ∀ c ∈ info.schema.columns, c.name ≠ [] ∧ dotChar ∉ c.name
    decide
  have hscans : Scans (Operator.sameRows linkRows) linkTables := by
    intro info hinfo s rows' s' hscan
    cases hscan
    revert info
    decide +kernel
  have hqual : Qualified linkQuery.groupBy := by
    intro e he
    rcases List.mem_cons.mp he with rfl | he
    · exact ⟨lit "a", lit "id", rfl, by decide⟩
    · exact ⟨lit "b", lit "id", List.mem_singleton.mp he, by decide⟩
  have hrest : linkQuery.orderBy.filter (fun item => item.expr ∉ linkQuery.groupBy) = [] := by decide +kernel
  refine ⟨_, hplan, ((sorted_by_groups_iff Operator.lawful_insertionStd hplain hscans hparse (by decide) hqual rfl
    hplan).1 rfl _ _ evaluates_linkedGroups ?_).mpr ?_⟩
  · rw [hrest]
    exact fun item hitem => absurd hitem List.not_mem_nil
  · decide +kernel

/-- `b.id` is read as the first `id`, which is `a.id`. -/
theorem order_by_second_id :
    (answers [lit "CREATE TABLE a (id INT, k INT)", lit "CREATE TABLE b (id INT, k INT)",
      lit "INSERT INTO a VALUES (1, 1)", lit "INSERT INTO a VALUES (2, 2)", lit "INSERT INTO b VALUES (2, 1)",
      lit "INSERT INTO b VALUES (1, 2)",
      lit "SELECT COUNT(*) FROM a JOIN b ON a.k = b.k GROUP BY a.id, b.id ORDER BY b.id"]).map
        (fun results => (results.getLast?).map (·.rows)) =
      .ok (some [[lit "1", lit "2", lit "1"], [lit "2", lit "1", lit "1"]]) := by
  decide +kernel

end MyDB.Database

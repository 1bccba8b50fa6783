import MyDB.Database.Select
import MyDB.Executor.JoinedRows

/-! `ON a = b` and `ON b = a`. The planner takes the left operand for the tables joined
so far and the right one for the new table, whichever tables the two columns are of. -/

namespace MyDB.Executor.Operator
open MyDB.Parser MyDB.Lib
variable {σ : Type} {env : Env σ} {s : σ} {op op' : Operator}

structure SameAt (env : Env σ) (s : σ) (op op' : Operator) : Prop where
  schema : op.outputSchema = op'.outputSchema
  rows : ∀ rows s', op.Evaluates env s rows s' ↔ op'.Evaluates env s rows s'

theorem SameAt.projection (h : SameAt env s op op') (exprs : List Expr) (schema : Schema) :
    SameAt env s (.projection op exprs schema) (.projection op' exprs schema) where
  schema := rfl
  rows rows s' := by simp only [evaluates_projection_iff, h.schema, h.rows]

variable (hstd : Lawful env.std)
include hstd

theorem SameAt.hashJoin (h : SameAt env s op op') (right : Operator) (leftKey rightKey : Expr) :
    SameAt env s (.hashJoin op right leftKey rightKey) (.hashJoin op' right leftKey rightKey) where
  schema := by simp only [outputSchema, h.schema]
  rows rows s' := by simp only [evaluates_hashJoin_iff hstd, h.schema, h.rows]

theorem SameAt.planFilter (h : SameAt env s op op') (whereClause : Option Expr) :
    SameAt env s (Planner.planFilter whereClause op) (Planner.planFilter whereClause op') := by
  cases whereClause with
  | none => exact h
  | some p =>
    refine ⟨h.schema, fun rows s' => ?_⟩
    simp only [Planner.planFilter, evaluates_filter_iff hstd, h.schema, h.rows]

theorem SameAt.planSort (h : SameAt env s op op') (orderBy : List OrderByItem) :
    SameAt env s (Planner.planSort orderBy op) (Planner.planSort orderBy op') := by
  unfold Planner.planSort
  split
  · exact h
  · refine ⟨h.schema, fun rows s' => ?_⟩
    simp only [evaluates_sort_iff hstd, h.schema, h.rows]

theorem SameAt.hashAggregate (h : SameAt env s op op') (groupBy : List Expr) (aggExprs : List AggExpr) (schema : Schema) :
    SameAt env s (.hashAggregate op groupBy aggExprs schema) (.hashAggregate op' groupBy aggExprs schema) where
  schema := rfl
  rows rows s' := by simp only [evaluates_hashAggregate_iff hstd, h.schema, h.rows]

end MyDB.Executor.Operator

namespace MyDB.Planner
open MyDB.Parser MyDB.Executor MyDB.Lib
variable {σ : Type} {env : Env σ} {s : σ} {catalog : Catalog} {op op' : Operator}

theorem planJoins_append (js ks : List JoinClause) (op : Operator) :
    planJoins catalog (js ++ ks) op = planJoins catalog js op >>= planJoins catalog ks := by
  induction js generalizing op with
  | nil => rfl
  | cons j js ih =>
    simp only [List.cons_append, planJoins, bind_assoc]
    congr 1
    funext right
    split
    · exact ih _
    · rfl

theorem planJoins_sameAt (hstd : Operator.Lawful env.std) (h : Operator.SameAt env s op op') {joins : List JoinClause}
    {plan : Operator} (hplan : planJoins catalog joins op = .ok plan) :
    ∃ plan', planJoins catalog joins op' = .ok plan' ∧ Operator.SameAt env s plan plan' := by
  induction joins generalizing op op' with
  | nil =>
    cases pure_eq_ok.mp hplan
    exact ⟨op', rfl, h⟩
  | cons join joins ih =>
    unfold planJoins at hplan ⊢
    obtain ⟨right, hright, hplan⟩ := bind_eq_ok.mp hplan
    split at hplan
    · next leftKey rightKey hcond =>
      obtain ⟨plan', hplan', hsame⟩ := ih (h.hashJoin hstd right leftKey rightKey) hplan
      exact ⟨plan', bind_eq_ok.mpr ⟨right, hright, hplan'⟩, hsame⟩
    · cases hplan

theorem plan_sameAt (hstd : Operator.Lawful env.std) {stmt : SelectStmt} {joins : List JoinClause}
    (hbase : ∀ base, planBase catalog stmt = .ok base →
      ∃ base', planBase catalog { stmt with joins } = .ok base' ∧ Operator.SameAt env s base base')
    (hplan : plan catalog stmt = .ok op) :
    ∃ op', plan catalog { stmt with joins } = .ok op' ∧ Operator.SameAt env s op op' := by
  obtain ⟨input, hinput, hop⟩ := plan_eq_ok.mp hplan
  obtain ⟨base, hb, rfl⟩ := planInput_eq_ok.mp hinput
  obtain ⟨base', hb', hsame⟩ := hbase base hb
  have hinput' : planInput catalog { stmt with joins } = .ok (planFilter stmt.whereClause base') :=
    planInput_eq_ok.mpr ⟨base', hb', rfl⟩
  have hfilter := hsame.planFilter hstd stmt.whereClause
  rw [hfilter.schema] at hop
  split_ifs at hop with hstar hagg
  · refine ⟨_, plan_eq_ok.mpr ⟨_, hinput', ?_⟩, hop ▸ hfilter.planSort hstd stmt.orderBy⟩
    rw [if_pos hstar]
  · obtain ⟨schema, hschema, rfl⟩ := hop
    refine ⟨_, plan_eq_ok.mpr ⟨_, hinput', ?_⟩, (hfilter.hashAggregate hstd stmt.groupBy _ schema).planSort hstd stmt.orderBy⟩
    rw [if_neg hstar, if_pos hagg]
    exact ⟨schema, hschema, rfl⟩
  · obtain ⟨schema, hschema, rfl⟩ := hop
    refine ⟨_, plan_eq_ok.mpr ⟨_, hinput', ?_⟩, (hfilter.planSort hstd stmt.orderBy).projection _ schema⟩
    rw [if_neg hstar, if_neg hagg]
    exact ⟨schema, hschema, rfl⟩

end MyDB.Planner

namespace MyDB.Database
open MyDB.Parser MyDB.Executor MyDB.Lib MyDB.Planner Operator
variable {σ : Type} {env : Env σ} {s s₁ s₂ : σ} {catalog : Catalog} {left right base : Operator}
  {pre : List JoinClause} {fromTable fromAlias table aliasName : Str} {lefts rights : List Tuple}

/-- The statement with the joins `pre`, then `JOIN table aliasName ON leftKey = rightKey`, and then more. -/
def joining (stmt : SelectStmt) (pre : List JoinClause) (table aliasName : Str) (leftKey rightKey : Expr)
    (post : List JoinClause) : SelectStmt :=
  { stmt with joins := pre ++ ⟨table, aliasName, .binaryOp .eq leftKey rightKey⟩ :: post }

theorem planBase_joining {stmt : SelectStmt} {leftKey rightKey : Expr} {post : List JoinClause}
    (hbase : scanTable catalog stmt.fromTable stmt.fromAlias = .ok base) (hleft : planJoins catalog pre base = .ok left)
    (hright : scanTable catalog table aliasName = .ok right) :
    planBase catalog (joining stmt pre table aliasName leftKey rightKey post) =
      planJoins catalog post (.hashJoin left right leftKey rightKey) := by
  unfold planBase joining
  dsimp only
  rw [hbase]
  change planJoins catalog (pre ++ _) base = _
  rw [planJoins_append, hleft]
  change planJoins catalog (_ :: post) left = _
  rw [planJoins, hright]
  rfl

section cells
variable {tableAlias colName : Str} {schema : Schema} {t u : Tuple} {vs ws : List Value}

theorem keyText_eq_cell {i : Nat} (hi : schema.getColumnIdx (columnKey tableAlias colName) = .ok i)
    (ht : t.length = schema.tupleSize) (hvs : rowValues schema t = .ok vs) :
    (vs.map Value.toString)[i]? = some (keyText (.columnRef tableAlias colName) schema t) := by
  have hlt := Schema.getColumnIdx_lt hi
  obtain ⟨v, hv, -⟩ := evalExpr_column ht hi (List.getElem?_eq_getElem hlt)
  unfold keyText
  rw [valOf_eq hv, List.getElem?_map, rowValues_getElem hvs hlt (by rwa [evalExpr_columnRef hi] at hv)]
  rfl

theorem keyText_congr {ts : List Tuple} (h : Reads (.columnRef tableAlias colName) schema ts) (ht : t ∈ ts)
    (htlen : t.length = schema.tupleSize) (hulen : u.length = schema.tupleSize) (hvs : rowValues schema t = .ok vs)
    (hws : rowValues schema u = .ok ws) (hcells : vs.map Value.toString = ws.map Value.toString) :
    keyText (.columnRef tableAlias colName) schema t = keyText (.columnRef tableAlias colName) schema u := by
  obtain ⟨v, hv⟩ := h t ht
  obtain ⟨i, hi, -⟩ := bind_eq_ok.mp hv
  have htext := keyText_eq_cell hi htlen hvs
  rw [hcells, keyText_eq_cell hi hulen hws] at htext
  exact (Option.some.inj htext).symm

end cells

section swap
variable {ls rs : Schema} {leftKey rightKey : Expr} {tl cl tr cr : Str} {cells cells' : List (List Str)}
  (hl : ∀ l ∈ lefts, l.length = ls.tupleSize) (hr : ∀ r ∈ rights, r.length = rs.tupleSize)
include hl hr

theorem length_partnerRows : ∀ t ∈ partnerRows ls rs leftKey rightKey lefts rights, t.length = (concatSchemas ls rs).tupleSize := by
  intro t ht
  obtain ⟨r, hr', ht⟩ := List.mem_flatMap.mp ht
  obtain ⟨l, hl', rfl⟩ := List.mem_map.mp ht
  rw [List.length_append, hl l (List.mem_of_mem_filter hl'), hr r hr', tupleSize_concatSchemas]

theorem partnerRows_cells (leftKey rightKey : Expr) :
    ∃ cells, (partnerRows ls rs leftKey rightKey lefts rights).mapM (rowCells (concatSchemas ls rs)) = .ok cells := by
  apply exists_mapM
  intro t ht
  obtain ⟨vs, hvs⟩ := rowValues_ok (length_partnerRows hl hr t ht)
  exact ⟨_, rowCells_eq hvs⟩

theorem partners_of_cells
    (hcells : (partnerRows ls rs leftKey rightKey lefts rights).mapM (rowCells (concatSchemas ls rs)) = .ok cells)
    (hcells' : (partnerRows ls rs (.columnRef tl cl) (.columnRef tr cr) lefts rights).mapM (rowCells (concatSchemas ls rs)) =
      .ok cells')
    (hreadl : Reads (.columnRef tl cl) ls lefts) (hreadr : Reads (.columnRef tr cr) rs rights) (hsub : cells ⊆ cells')
    {l r : Tuple} (hl' : l ∈ lefts) (hr' : r ∈ rights) (h : Partners ls rs leftKey rightKey l r) :
    Partners ls rs (.columnRef tl cl) (.columnRef tr cr) l r := by
  have hmem : l ++ r ∈ partnerRows ls rs leftKey rightKey lefts rights := by
    refine List.mem_flatMap.mpr ⟨r, hr', List.mem_map.mpr ⟨l, List.mem_filter.mpr ⟨hl', decide_eq_true h⟩, rfl⟩⟩
  obtain ⟨cell, hcell, hread⟩ := ok_of_mapM hcells hmem
  obtain ⟨t, ht, hread'⟩ := mem_of_mapM hcells' (hsub hcell)
  obtain ⟨r₂, hr₂, ht⟩ := List.mem_flatMap.mp ht
  obtain ⟨l₂, hfound, rfl⟩ := List.mem_map.mp ht
  obtain ⟨hl₂, hpartners⟩ := List.mem_filter.mp hfound
  obtain ⟨vl, hvl⟩ := rowValues_ok (hl l hl')
  obtain ⟨vr, hvr⟩ := rowValues_ok (hr r hr')
  obtain ⟨vl₂, hvl₂⟩ := rowValues_ok (hl l₂ hl₂)
  obtain ⟨vr₂, hvr₂⟩ := rowValues_ok (hr r₂ hr₂)
  rw [rowCells_eq (rowValues_append (hl l hl') hvl hvr)] at hread
  rw [rowCells_eq (rowValues_append (hl l₂ hl₂) hvl₂ hvr₂)] at hread'
  have hsame := Except.ok.inj (hread.trans hread'.symm)
  rw [List.map_append, List.map_append] at hsame
  obtain ⟨hleft, hright⟩ := List.append_inj hsame
    (by rw [List.length_map, List.length_map, length_rowValues hvl, length_rowValues hvl₂])
  have hpartners := of_decide_eq_true hpartners
  unfold Partners
  rw [keyText_congr hreadl hl' (hl l hl') (hl l₂ hl₂) hvl hvl₂ hleft,
    keyText_congr hreadr hr' (hr r hr') (hr r₂ hr₂) hvr hvr₂ hright]
  exact hpartners

end swap

def allColumns (fromTable fromAlias : Str) : SelectStmt := ⟨[⟨.star, []⟩], fromTable, fromAlias, [], none, [], []⟩

theorem plan_allColumns (hbase : scanTable catalog fromTable fromAlias = .ok base)
    (hleft : planJoins catalog pre base = .ok left) (hright : scanTable catalog table aliasName = .ok right)
    (leftKey rightKey : Expr) :
    plan catalog (joining (allColumns fromTable fromAlias) pre table aliasName leftKey rightKey []) =
      .ok (.hashJoin left right leftKey rightKey) := by
  have hjoin : planBase catalog (joining (allColumns fromTable fromAlias) pre table aliasName leftKey rightKey []) =
      .ok (.hashJoin left right leftKey rightKey) := planBase_joining hbase hleft hright
  exact plan_eq_ok.mpr ⟨_, planInput_eq_ok.mpr ⟨_, hjoin, rfl⟩, rfl⟩

theorem sameAt_swap (hstd : Lawful env.std) (hls : left.Evaluates env s lefts s₁) (hrs : right.Evaluates env s₁ rights s₂)
    (hl : ∀ l ∈ lefts, l.length = left.outputSchema.tupleSize) (hr : ∀ r ∈ rights, r.length = right.outputSchema.tupleSize)
    {a b : Expr} (hal : Reads a left.outputSchema lefts) (hbr : Reads b right.outputSchema rights)
    (hbl : Reads b left.outputSchema lefts) (har : Reads a right.outputSchema rights)
    (hsame : ∀ l ∈ lefts, ∀ r ∈ rights, Partners left.outputSchema right.outputSchema a b l r ↔
      Partners left.outputSchema right.outputSchema b a l r) :
    SameAt env s (.hashJoin left right a b) (.hashJoin left right b a) := by
  refine ⟨rfl, fun rows s' => ?_⟩
  have hrows : partnerRows left.outputSchema right.outputSchema a b lefts rights =
      partnerRows left.outputSchema right.outputSchema b a lefts rights := by
    apply List.flatMap_congr
    intro r hr'
    refine congrArg (List.map (· ++ r)) (List.filter_congr fun l hl' => ?_)
    exact decide_eq_decide.mpr (hsame l hl' r hr')
  simp only [evaluates_hashJoin_partners hstd hls hrs hl hr, hal, hbr, hbl, har, hrows]

/-- For every chain of joins and all table contents, with a column `a` of the tables
joined so far and a column `b` of the new one: whatever the rest of the query is, it
returns with `ON b = a` the rows that it returns with `ON a = b`, exactly if `b` can be
evaluated on every row so far, `a` on every row of the new table, and the two read that
way match where they match the right way. -/
theorem swapped_join_iff (hstd : Lawful env.std) (hscans : Scans env catalog)
    (hbase : scanTable catalog fromTable fromAlias = .ok base) (hleft : planJoins catalog pre base = .ok left)
    (hright : scanTable catalog table aliasName = .ok right) (hls : left.Evaluates env s lefts s₁)
    (hrs : right.Evaluates env s₁ rights s₂) {ta ca tb cb : Str} {i k : Nat}
    (ha : left.outputSchema.getColumnIdx (columnKey ta ca) = .ok i)
    (hb : right.outputSchema.getColumnIdx (columnKey tb cb) = .ok k) :
    (∀ stmt post cells s', stmt.fromTable = fromTable → stmt.fromAlias = fromAlias →
      Returns env catalog (joining stmt pre table aliasName (.columnRef ta ca) (.columnRef tb cb) post) s cells s' →
      ∃ cells' s'', Returns env catalog (joining stmt pre table aliasName (.columnRef tb cb) (.columnRef ta ca) post)
        s cells' s'' ∧ cells'.Perm cells) ↔
    Reads (.columnRef tb cb) left.outputSchema lefts ∧ Reads (.columnRef ta ca) right.outputSchema rights ∧
      ∀ l ∈ lefts, ∀ r ∈ rights,
        (Partners left.outputSchema right.outputSchema (.columnRef ta ca) (.columnRef tb cb) l r ↔
          Partners left.outputSchema right.outputSchema (.columnRef tb cb) (.columnRef ta ca) l r) := by
  have hl : ∀ l ∈ lefts, l.length = left.outputSchema.tupleSize := by
    have hplan : planBase catalog { allColumns fromTable fromAlias with joins := pre } = .ok left :=
      bind_eq_ok.mpr ⟨base, hbase, hleft⟩
    exact sized_planBase hstd hscans hplan s lefts s₁ hls
  have hr : ∀ r ∈ rights, r.length = right.outputSchema.tupleSize := by
    have hplan : planBase catalog (allColumns table aliasName) = .ok right := bind_eq_ok.mpr ⟨right, hright, rfl⟩
    exact sized_planBase hstd hscans hplan s₁ rights s₂ hrs
  have hal : Reads (.columnRef ta ca) left.outputSchema lefts := by
    intro t ht
    obtain ⟨v, hv, -⟩ := evalExpr_column (hl t ht) ha (List.getElem?_eq_getElem (Schema.getColumnIdx_lt ha))
    exact ⟨v, hv⟩
  have hbr : Reads (.columnRef tb cb) right.outputSchema rights := by
    intro t ht
    obtain ⟨v, hv, -⟩ := evalExpr_column (hr t ht) hb (List.getElem?_eq_getElem (Schema.getColumnIdx_lt hb))
    exact ⟨v, hv⟩
  constructor
  · intro h
    -- `SELECT *` shows the pairs
    obtain ⟨cells, hcells⟩ := partnerRows_cells hl hr (.columnRef ta ca) (.columnRef tb cb)
    have hjoin := (evaluates_hashJoin_partners hstd hls hrs hl hr).mpr ⟨hal, hbr, rfl, rfl⟩
    obtain ⟨cells', s'', ⟨op, out, hplan, hrun, hcells'⟩, hperm⟩ := h (allColumns fromTable fromAlias) [] cells s₂ rfl rfl
      ⟨_, _, plan_allColumns hbase hleft hright _ _, hjoin, hcells⟩
    cases hplan.symm.trans (plan_allColumns hbase hleft hright _ _)
    obtain ⟨hbl, har, rfl, -⟩ := (evaluates_hashJoin_partners hstd hls hrs hl hr).mp hrun
    refine ⟨hbl, har, fun l hl' r hr' => ⟨fun hp => ?_, fun hp => ?_⟩⟩
    · exact partners_of_cells hl hr hcells hcells' hbl har hperm.symm.subset hl' hr' hp
    · exact partners_of_cells hl hr hcells' hcells hal hbr hperm.subset hl' hr' hp
  · rintro ⟨hbl, har, hsame⟩ stmt post cells s' rfl rfl ⟨op, out, hplan, hrun, hcells⟩
    have hswap := sameAt_swap hstd hls hrs hl hr hal hbr hbl har hsame
    have hbases : ∀ q, planBase catalog (joining stmt pre table aliasName (.columnRef ta ca) (.columnRef tb cb) post) = .ok q →
        ∃ q', planBase catalog (joining stmt pre table aliasName (.columnRef tb cb) (.columnRef ta ca) post) = .ok q' ∧
          SameAt env s q q' := by
      intro q hq
      rw [planBase_joining hbase hleft hright] at hq
      rw [planBase_joining hbase hleft hright]
      exact planJoins_sameAt hstd hswap hq
    obtain ⟨op', hplan', hop⟩ := plan_sameAt hstd hbases hplan
    refine ⟨cells, s', ⟨op', out, hplan', (hop.rows out s').mp hrun, ?_⟩, List.Perm.refl _⟩
    rw [← hop.schema]
    exact hcells

def twoColumns : Catalog :=
  ⟨[⟨lit "t", ⟨[⟨lit "x", .int⟩, ⟨lit "y", .int⟩]⟩, ⟨⟨[⟨lit "x", .int⟩, ⟨lit "y", .int⟩]⟩, 0, 0⟩⟩]⟩

/-- Rows of `t`, of which two are the same and one has their numbers the other way round. -/
def mirrored : List Tuple := [[1, 0, 0, 0, 2, 0, 0, 0], [2, 0, 0, 0, 1, 0, 0, 0], [1, 0, 0, 0, 2, 0, 0, 0]]

theorem swapped_join_mirrored : Scans (sameRows mirrored) twoColumns ∧
    ∀ stmt post cells s', stmt.fromTable = lit "t" → stmt.fromAlias = [] →
      Returns (sameRows mirrored) twoColumns
        (joining stmt [] (lit "t") (lit "u") (.columnRef [] (lit "x")) (.columnRef [] (lit "y")) post) () cells s' →
      ∃ cells' s'', Returns (sameRows mirrored) twoColumns
        (joining stmt [] (lit "t") (lit "u") (.columnRef [] (lit "y")) (.columnRef [] (lit "x")) post) () cells' s'' ∧
          cells'.Perm cells := by
  have hsized : ∀ t ∈ mirrored, t.length = 8 := by decide
  have hscans : Scans (sameRows mirrored) twoColumns := by
    intro info hinfo s rows s' hscan t ht
    cases hscan
    rw [List.mem_singleton.mp hinfo]
    exact hsized t ht
  have hscan : scanTable twoColumns (lit "t") [] = .ok (.seqScan _ ⟨[⟨lit "t.x", .int⟩, ⟨lit "t.y", .int⟩]⟩) := rfl
  have hscan' : scanTable twoColumns (lit "t") (lit "u") = .ok (.seqScan _ ⟨[⟨lit "u.x", .int⟩, ⟨lit "u.y", .int⟩]⟩) := rfl
  have hy : (⟨[⟨lit "t.x", .int⟩, ⟨lit "t.y", .int⟩]⟩ : Schema).getColumnIdx (columnKey [] (lit "y")) = .ok 1 := rfl
  have hx : (⟨[⟨lit "u.x", .int⟩, ⟨lit "u.y", .int⟩]⟩ : Schema).getColumnIdx (columnKey [] (lit "x")) = .ok 0 := rfl
  refine ⟨hscans, (swapped_join_iff lawful_insertionStd hscans hscan rfl hscan' (evaluates_seqScan_iff.mpr rfl)
    (evaluates_seqScan_iff.mpr rfl) (i := 0) (k := 1) rfl rfl).mpr ⟨fun t ht => ?_, fun t ht => ?_, ?_⟩⟩
  · obtain ⟨v, hv, -⟩ := evalExpr_column (hsized t ht) hy rfl
    exact ⟨v, hv⟩
  · obtain ⟨v, hv, -⟩ := evalExpr_column (hsized t ht) hx rfl
    exact ⟨v, hv⟩
  · decide +kernel

def twoTables (query : Str) : Except Fault (List (List (List Str))) :=
  (answers [lit "CREATE TABLE a (x INT)", lit "CREATE TABLE b (y INT)", lit "INSERT INTO a VALUES (1)",
    lit "INSERT INTO b VALUES (1)", query]).map fun results => results.getLast?.toList.map (·.rows)

/-- With the operands the other way round, the column is not found. -/
theorem swapped_join_fails :
    twoTables (lit "SELECT * FROM a JOIN b ON a.x = b.y") = .ok [[[lit "1", lit "1"]]] ∧
    twoTables (lit "SELECT * FROM a JOIN b ON b.y = a.x") = .error (.runtimeError (lit "Column not found: b.y")) := by
  constructor
  · decide +kernel
  · decide +kernel

end MyDB.Database

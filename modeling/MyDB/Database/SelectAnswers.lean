import MyDB.Database.Algebra
import MyDB.Database.TableRows

/-! The operator tree of a `SELECT` returns the answer of the algebra: each operator
that the planner puts on top of another returns the rows of the algebra's operation on
the rows below it, for any number of joins and any contents of the tables. The tables that
a run of statements has filled are such contents. -/

namespace MyDB.Algebra
open MyDB.Parser MyDB.Lib MyDB.Executor MyDB.Planner

variable {σ : Type} {env : Env σ} {I : σ → Prop} {catalog : Catalog} {relations : Str → Option Rel} {s : σ}

/-- Scans return the rows of the tables, in states that they keep to. -/
def Serves (env : Env σ) (I : σ → Prop) (catalog : Catalog) (relations : Str → Option Rel) : Prop :=
  ∀ name r, relations name = some r → ∃ info, catalog.getTable name = .ok info ∧ info.schema.columns = r.header ∧
    ∀ s, I s → ∃ tuples rows s', env.scan info s = .ok tuples s' ∧ I s' ∧
      List.Forall₂ (Carries info.schema) tuples rows ∧ r.rows = rows

structure Yields (env : Env σ) (I : σ → Prop) (op : Operator) (r : Rel) : Prop where
  header_eq : op.outputSchema.columns = r.header
  rows : ∀ s, I s → ∃ tuples rows s', op.Evaluates env s tuples s' ∧ I s' ∧
    List.Forall₂ (Carries op.outputSchema) tuples rows ∧ r.rows = rows

theorem forall₂_lengths {schema : Schema} {tuples : List Tuple} {rows : List (List Value)}
    (h : List.Forall₂ (Carries schema) tuples rows) : ∀ t ∈ tuples, t.length = schema.tupleSize := by
  intro t ht
  obtain ⟨row, -, hrow⟩ := exists_of_forall₂ h ht
  exact hrow.length_eq

theorem columns_makeOutputSchema (schema : Schema) (label : Str) :
    (makeOutputSchema schema label).columns = schema.columns.map (qualify label) := by
  unfold makeOutputSchema qualify
  split_ifs
  · exact (List.map_id' _).symm
  · rfl

theorem yields_scanTable (hserves : Serves env I catalog relations) {name : Str} (h : (relations name).isSome)
    (aliasName : Str) : ∃ op, scanTable catalog name aliasName = .ok op ∧ Yields env I op (table relations name aliasName) := by
  obtain ⟨r, hr⟩ := Option.isSome_iff_exists.mp h
  obtain ⟨info, hinfo, hheader, hscan⟩ := hserves name r hr
  have htable : table relations name aliasName = r.rename (qualify (if aliasName = [] then name else aliasName))
      fun v c h => by unfold InColumn; rwa [type_qualify] := by
    unfold table
    rw [hr]
    rfl
  refine ⟨_, scanTable_eq_ok.mpr ⟨info, hinfo, rfl⟩, ?_, fun s hs => ?_⟩
  · rw [htable]
    show (makeOutputSchema _ _).columns = r.header.map _
    rw [columns_makeOutputSchema, hheader]
  · obtain ⟨tuples, rows, s', hrun, hs', hcarry, hrows⟩ := hscan s hs
    refine ⟨tuples, rows, s', Operator.evaluates_seqScan_iff.mpr hrun, hs', ?_, ?_⟩
    · exact hcarry.imp fun t row hrow => hrow.congr (makeOutputSchema_types _ _)
    · rw [htable]
      exact hrows

theorem yields_hashJoin (hstd : Operator.Lawful env.std) {left right : Operator} {r t : Rel} (hleft : Yields env I left r)
    (hright : Yields env I right t) {leftKey rightKey : Expr} (hl : operandType r.header leftKey = some .int)
    (hr : operandType t.header rightKey = some .int) :
    Yields env I (.hashJoin left right leftKey rightKey)
      (r.join (joinCondition (.binaryOp .eq leftKey rightKey) r.header t.header) t) := by
  constructor
  · exact congrArg₂ (· ++ ·) hleft.header_eq hright.header_eq
  · intro s hs
    obtain ⟨lefts, as, s₁, hlefts, hs₁, hcarry, has⟩ := hleft.rows s hs
    obtain ⟨rights, bs, s₂, hrights, hs₂, hcarry', hbs⟩ := hright.rows s₁ hs₁
    rw [← hleft.header_eq] at hl ⊢
    rw [← hright.header_eq] at hr ⊢
    have hreads : Reads leftKey left.outputSchema lefts := by
      intro l hmem
      obtain ⟨a, -, ha⟩ := exists_of_forall₂ hcarry hmem
      obtain ⟨v, hv, -⟩ := ha.operand hl
      exact ⟨v, hv⟩
    have hreads' : Reads rightKey right.outputSchema rights := by
      intro l hmem
      obtain ⟨a, -, ha⟩ := exists_of_forall₂ hcarry' hmem
      obtain ⟨v, hv, -⟩ := ha.operand hr
      exact ⟨v, hv⟩
    have hrows : (Operator.hashJoin left right leftKey rightKey).Evaluates env s
        (partnerRows left.outputSchema right.outputSchema leftKey rightKey lefts rights) s₂ := by
      rw [evaluates_hashJoin_partners hstd hlefts hrights (forall₂_lengths hcarry) (forall₂_lengths hcarry')]
      exact ⟨hreads, hreads', rfl, rfl⟩
    refine ⟨_, _, s₂, hrows, hs₂, ?_, Relation.join_rows_coe _ has hbs⟩
    refine List.rel_flatMap hcarry' fun u b (hb : Carries right.outputSchema u b) => ?_
    refine List.rel_map (R := Carries left.outputSchema) (fun l a ha => ha.append hb) ?_
    refine List.rel_filter (fun l a ha => ?_) hcarry
    show decide (Partners left.outputSchema right.outputSchema leftKey rightKey l u) = true ↔ _
    rw [decide_eq_true_eq]
    exact ha.partners hb hl hr

theorem yields_planJoins (hstd : Operator.Lawful env.std) (hserves : Serves env I catalog relations)
    {joins : List JoinClause} {base : Operator} {r : Rel} (hbase : Yields env I base r) (h : JoinsInt relations joins r) :
    ∃ op, planJoins catalog joins base = .ok op ∧ Yields env I op (joins.foldl (joinTable relations) r) := by
  induction joins generalizing base r with
  | nil => exact ⟨base, rfl, hbase⟩
  | cons j joins ih =>
    obtain ⟨htable, ⟨l, k, hcondition, hl, hk⟩, hrest⟩ := h
    obtain ⟨right, hright, hyields⟩ := yields_scanTable hserves htable j.aliasName
    have hjoin := yields_hashJoin hstd hbase hyields hl hk
    rw [← hcondition] at hjoin
    obtain ⟨op, hop, hyields'⟩ := ih hjoin hrest
    refine ⟨op, bind_eq_ok.mpr ⟨right, hright, ?_⟩, hyields'⟩
    rw [hcondition]
    exact hop

theorem yields_planFilter (hstd : Operator.Lawful env.std) {base : Operator} {r : Rel} (hbase : Yields env I base r)
    {whereClause : Option Expr} (h : ∀ p, whereClause = some p → Comparisons r.header p) :
    Yields env I (planFilter whereClause base) (r.select fun row => whereClause.all (holds r.header row)) := by
  have hsatisfies {t : Tuple} {row : List Value} (hrow : Carries base.outputSchema t row) :
      Evaluable whereClause base.outputSchema t ∧
        satisfies whereClause base.outputSchema t = whereClause.all (holds r.header row) := by
    cases whereClause with
    | none => exact ⟨nofun, rfl⟩
    | some p =>
      have hp := h p rfl
      rw [← hbase.header_eq] at hp ⊢
      constructor
      · intro q hq
        cases hq
        exact ⟨_, hrow.holds hp⟩
      · show satisfies (some p) base.outputSchema t = holds base.outputSchema.columns row p
        rw [satisfies, hrow.holds hp]
  constructor
  · rw [outputSchema_planFilter]
    exact hbase.header_eq
  · intro s hs
    obtain ⟨tuples, rows, s', hrun, hs', hcarry, hrows⟩ := hbase.rows s hs
    have hall : ∀ t ∈ tuples, Evaluable whereClause base.outputSchema t := by
      intro t ht
      obtain ⟨row, -, hrow⟩ := exists_of_forall₂ hcarry ht
      exact (hsatisfies hrow).1
    refine ⟨_, rows.filter fun row => whereClause.all (holds r.header row), s',
      (evaluates_planFilter_iff hstd).mpr ⟨tuples, hrun, hall, rfl⟩, hs', ?_, ?_⟩
    · rw [outputSchema_planFilter]
      refine List.rel_filter (fun t row hrow => ?_) hcarry
      show satisfies whereClause base.outputSchema t = true ↔ _
      rw [(hsatisfies hrow).2]
    · show Multiset.filter _ r.rows = _
      rw [hrows, Multiset.filter_coe]
      simp only [Bool.decide_eq_true]

theorem yields_planInput (hstd : Operator.Lawful env.std) (hserves : Serves env I catalog relations) {stmt : SelectStmt}
    (h : Answerable relations stmt) :
    ∃ input, planInput catalog stmt = .ok input ∧ Yields env I input (filtered relations stmt) := by
  obtain ⟨scan, hscan, hyields⟩ := yields_scanTable hserves h.fromTable stmt.fromAlias
  obtain ⟨base, hbase, hyields⟩ := yields_planJoins hstd hserves hyields h.joins
  exact ⟨_, planInput_eq_ok.mpr ⟨base, bind_eq_ok.mpr ⟨scan, hscan, hbase⟩, rfl⟩, yields_planFilter hstd hyields h.whereClause⟩

/-! ## The select list and the order -/

section columns
variable {schema : Schema} {t : Tuple} {row : List Value} {exprs : List Expr}

theorem groupColumns_of_column (h : ∀ e ∈ exprs, (column schema.columns e).isSome) :
    GroupColumns schema exprs (pick (exprs.filterMap (column schema.columns)) schema.columns) := by
  induction exprs with
  | nil => exact .nil
  | cons e exprs ih =>
    obtain ⟨he, hrest⟩ := List.forall_mem_cons.mp h
    obtain ⟨i, hi⟩ := Option.isSome_iff_exists.mp he
    obtain ⟨tableAlias, colName, hexpr, hidx⟩ := column_eq_some hi
    have hc := List.getElem?_eq_getElem (Schema.getColumnIdx_lt hidx)
    rw [List.filterMap_cons_some hi, pick, List.filterMap_cons_some hc]
    exact .cons ⟨tableAlias, colName, i, hexpr, hidx, hc⟩ (ih hrest)

theorem Carries.groupVals (h : Carries schema t row) (hexprs : ∀ e ∈ exprs, (Algebra.column schema.columns e).isSome) :
    groupVals exprs schema t = pick (exprs.filterMap (Algebra.column schema.columns)) row := by
  apply groupVals_eq
  induction exprs with
  | nil => rfl
  | cons e exprs ih =>
    obtain ⟨he, hrest⟩ := List.forall_mem_cons.mp hexprs
    obtain ⟨i, hi⟩ := Option.isSome_iff_exists.mp he
    obtain ⟨v, c, hv, hrow, -⟩ := h.column hi
    refine mapM_cons_eq_ok.mpr ⟨v, _, hv, ih hrest, ?_⟩
    rw [List.filterMap_cons_some hi, pick, List.filterMap_cons_some hrow, pick]

end columns

theorem evaluates_plan (hstd : Operator.Lawful env.std) (hserves : Serves env I catalog relations) {stmt : SelectStmt}
    (h : Answerable relations stmt) (hs : I s) :
    ∃ op tuples s', ∃ sorted : List (List Value), plan catalog stmt = .ok op ∧ op.Evaluates env s tuples s' ∧ I s' ∧
      List.Forall₂ (Carries op.outputSchema) tuples
        (sorted.map (shown (joined relations stmt).header stmt.selectList)) ∧
      (filtered relations stmt).rows = sorted ∧
      sorted.Pairwise fun a b => ¬ precedes (joined relations stmt).header stmt.orderBy b a := by
  obtain ⟨input, hinput, hyields⟩ := yields_planInput hstd hserves h
  obtain ⟨tuples, rows, s', hrun, hs', hcarry, hrows⟩ := hyields.rows s hs
  have hheader : input.outputSchema.columns = (joined relations stmt).header := hyields.header_eq
  have hlist := h.selectList
  have horder := h.orderBy
  rw [← hheader] at hlist horder ⊢
  have horder' : ∀ e ∈ stmt.orderBy.map (·.expr), (column input.outputSchema.columns e).isSome :=
    List.forall_mem_map.mpr horder
  have hsort := sortable_columns (groupColumns_of_column horder') (forall₂_lengths hcarry)
  obtain ⟨sorted, hsorted, hperm, hpair⟩ := evaluates_planSort_rows hstd hrun hsort
  obtain ⟨sortedRows, hcarry', hperm'⟩ := List.perm_comp_forall₂ hperm hcarry
  have hrows' : (filtered relations stmt).rows = sortedRows := hrows.trans (Multiset.coe_eq_coe.mpr hperm'.symm)
  have hpair' : sortedRows.Pairwise fun a b => ¬ precedes input.outputSchema.columns stmt.orderBy b a := by
    refine pairwise_of_forall₂ (fun t a u b ha hb hless => ?_) hcarry' hpair
    rwa [← hb.precedes ha horder]
  by_cases hstar : isStar stmt.selectList
  · refine ⟨planSort stmt.orderBy input, sorted, s', sortedRows, ?_, hsorted, hs', ?_, hrows', hpair'⟩
    · refine plan_eq_ok.mpr ⟨input, hinput, ?_⟩
      rw [if_pos hstar]
    · have hshown : sortedRows.map (shown input.outputSchema.columns stmt.selectList) = sortedRows := by
        unfold shown
        simp only [hstar, if_true, List.map_id']
      rw [hshown, outputSchema_planSort]
      exact hcarry'
  · have hitems : ∀ e ∈ stmt.selectList.map (·.expr), (column input.outputSchema.columns e).isSome :=
      List.forall_mem_map.mpr (hlist.resolve_left hstar)
    have hcols := groupColumns_of_column hitems
    obtain ⟨out, hplan, htypes⟩ := plan_columns hinput h.groupBy hcols
    have hproj := evaluates_projection_columns hcols htypes hsorted (outputSchema_planSort _ _) (forall₂_lengths hcarry')
    refine ⟨_, _, s', sortedRows, hplan, hproj, hs', ?_, hrows', hpair'⟩
    rw [List.forall₂_map_left_iff, List.forall₂_map_right_iff]
    refine hcarry'.imp fun t row hrow => ?_
    have hshown : shown input.outputSchema.columns stmt.selectList row =
        pick ((stmt.selectList.map (·.expr)).filterMap (column input.outputSchema.columns)) row := by
      rw [shown, if_neg hstar, positions, List.filterMap_map]
      rfl
    rw [hshown, ← hrow.groupVals hitems]
    exact carries_encode (hcols.reads hrow.length_eq).2 htypes

/-- For all contents of the tables, the plan of the statement returns the answer of the
algebra, and the rows come out in an order of the rows that `WHERE` leaves that is
sorted by the keys of `ORDER BY`. -/
theorem plan_answers (hstd : Operator.Lawful env.std) (hserves : Serves env I catalog relations) {stmt : SelectStmt}
    (h : Answerable relations stmt) (hs : I s) :
    ∃ op tuples s', ∃ rows : List (List Value), plan catalog stmt = .ok op ∧ op.Evaluates env s tuples s' ∧
      tuples.mapM (rowValues op.outputSchema) = .ok rows ∧
      (answer relations stmt).rows = rows ∧
      ∃ sorted : List (List Value), rows = sorted.map (shown (joined relations stmt).header stmt.selectList) ∧
        (filtered relations stmt).rows = sorted ∧
        sorted.Pairwise fun a b => ¬ precedes (joined relations stmt).header stmt.orderBy b a := by
  obtain ⟨op, tuples, s', sorted, hplan, hrun, -, hcarry, hrows, hpair⟩ := evaluates_plan hstd hserves h hs
  refine ⟨op, tuples, s', _, hplan, hrun, ?_, ?_, sorted, rfl, hrows, hpair⟩
  · rw [mapM_eq_ok]
    exact hcarry.imp fun t row hrow => hrow.values
  · rw [answer_rows, hrows, Multiset.map_coe]

/-- `SELECT n FROM t JOIN u ON t.x = u.y WHERE NOT n = 'b' ORDER BY y`. -/
def joinQuery : SelectStmt :=
  ⟨[⟨.columnRef [] (lit "n"), []⟩], lit "t", [],
    [⟨lit "u", [], .binaryOp .eq (.columnRef (lit "t") (lit "x")) (.columnRef (lit "u") (lit "y"))⟩],
    some (.not (.binaryOp .eq (.columnRef [] (lit "n")) (.stringLiteral (lit "b")))), [], [⟨.columnRef [] (lit "y"), true⟩]⟩

def schemaT : Schema := ⟨[⟨lit "x", .int⟩, ⟨lit "n", ⟨.varchar, 3⟩⟩]⟩

def schemaU : Schema := ⟨[⟨lit "y", .int⟩]⟩

def rowsT : List (List Value) :=
  [[.int 1, .varchar (lit "a") 3], [.int 2, .varchar (lit "b") 3], [.int 2, .varchar (lit "c") 3]]

def rowsU : List (List Value) := [[.int 2], [.int 1], [.int 2]]

def relationsTU (name : Str) : Option Rel :=
  if name = lit "t" then some ⟨schemaT.columns, rowsT, by decide⟩
  else if name = lit "u" then some ⟨schemaU.columns, rowsU, by decide⟩ else none

def catalogTU : Catalog := ⟨[⟨lit "t", schemaT, ⟨schemaT, 0, 0⟩⟩, ⟨lit "u", schemaU, ⟨schemaU, 1, 1⟩⟩]⟩

def scansTU : Env Unit :=
  { Operator.sameRows [] with
    scan := fun info => pure (if info.name = lit "t" then rowsT.map Tuple.encode else rowsU.map Tuple.encode) }

theorem plan_answers_joinQuery : (answer relationsTU joinQuery).rows =
      ({[.varchar (lit "c") 3], [.varchar (lit "a") 3], [.varchar (lit "c") 3]} : Multiset (List Value)) ∧
    ∃ op tuples s', ∃ rows : List (List Value), plan catalogTU joinQuery = .ok op ∧ op.Evaluates scansTU () tuples s' ∧
      tuples.mapM (rowValues op.outputSchema) = .ok rows ∧ (answer relationsTU joinQuery).rows = rows := by
  have hcarry {schema : Schema} {rows : List (List Value)}
      (hrows : ∀ row ∈ rows, List.Forall₂ InColumn row schema.columns) :
      List.Forall₂ (Carries schema) (rows.map Tuple.encode) rows :=
    List.forall₂_map_left_iff.mpr (List.forall₂_same.mpr fun row hrow => carries_encode (hrows row hrow) rfl)
  have hserves : Serves scansTU (fun _ => True) catalogTU relationsTU := by
    intro name r hr
    unfold relationsTU at hr
    split_ifs at hr with ht hu
    · cases hr
      subst ht
      exact ⟨_, rfl, rfl, fun s _ => ⟨_, rowsT, s, rfl, trivial, hcarry (by decide), rfl⟩⟩
    · cases hr
      subst hu
      exact ⟨_, rfl, rfl, fun s _ => ⟨_, rowsU, s, rfl, trivial, hcarry (by decide), rfl⟩⟩
  have h : Answerable relationsTU joinQuery := by
    refine ⟨rfl, ⟨rfl, ⟨_, _, rfl, by decide, by decide⟩, trivial⟩, ?_, rfl, Or.inr (by decide), by decide⟩
    rintro p hp
    cases hp
    exact ⟨.varchar, by decide, rfl⟩
  obtain ⟨op, tuples, s', rows, hplan, hrun, hread, hrows, -⟩ := plan_answers Operator.lawful_insertionStd hserves h trivial
  exact ⟨by decide +kernel, op, tuples, s', rows, hplan, hrun, hread, hrows⟩

end MyDB.Algebra

namespace MyDB.Database
open MyDB.Storage MyDB.Storage.HeapFile MyDB.Parser MyDB.Executor MyDB.Lib MyDB.Planner MyDB.Algebra
variable {n : Nat} {outside : Env (BufferPool HeapPage n)} {disk : DiskManager HeapPage}
  {db : Database (BufferPool HeapPage n)} {tables : List Table} {stmts : List Statement}

/-! ## The tables of a database -/

def Table.relation (t : Table) : Option Rel :=
  if h : ∀ row ∈ t.rows.map (List.map Value.stored), List.Forall₂ InColumn row t.schema.columns then
    some ⟨t.schema.columns, t.rows.map (List.map Value.stored), h⟩
  else none

def relationsOf (tables : List Table) (name : Str) : Option Rel := (tables.find? (·.name = name)).bind Table.relation

theorem inColumn_stored {schema : Schema} {vals : List Value} (h : schema.Typed vals) :
    List.Forall₂ InColumn (vals.map Value.stored) schema.columns := by
  rw [List.forall₂_map_left_iff]
  refine List.Forall₂.imp (fun v c hv => ?_) h
  refine ⟨?_, Value.stored_stored v⟩
  cases v with
  | int x => exact hv
  | varchar x m => exact hv

theorem relation_isSome {t : Table} (h : ∀ vals ∈ t.rows, t.schema.Typed vals) : t.relation.isSome := by
  have hrows : ∀ row ∈ t.rows.map (List.map Value.stored), List.Forall₂ InColumn row t.schema.columns :=
    List.forall_mem_map.mpr fun vals hvals => inColumn_stored (h vals hvals)
  rw [Table.relation, dif_pos hrows]
  rfl

theorem serves_tables (hn : n ≠ 0) {m : PageMap HeapPage} {pages : Str → List PageId} {catalog : Catalog}
    (hfree : m.free = n) (hkeeps : KeepsTables m pages catalog tables) :
    Serves (env BufferPool.store outside) (Holds · m) catalog (relationsOf tables) := by
  intro name r hr
  obtain ⟨t, hfind, hr⟩ := Option.bind_eq_some_iff.mp hr
  obtain ⟨info, hget, htable⟩ := hkeeps.getTable_of_mem (List.mem_of_find?_eq_some hfind)
  have hname : t.name = name := by simpa using List.find?_some hfind
  unfold Table.relation at hr
  split_ifs at hr
  cases hr
  refine ⟨info, hname ▸ hget, congrArg Schema.columns htable.schema_eq, fun s hs => ?_⟩
  obtain ⟨s', hscan, hs'⟩ := scan_table hn hfree htable hs
  refine ⟨_, t.rows.map (List.map Value.stored), s', hscan, hs', ?_, rfl⟩
  rw [List.forall₂_map_left_iff, List.forall₂_map_right_iff, List.forall₂_same, htable.schema_eq]
  intro vals hvals
  have htyped := htable.typed vals hvals
  exact ⟨Tuple.length_encode_fits htyped.fits, rowValues_encode htyped⟩

theorem execute_returns_answer (hn : 1 ≤ n) (hstd : Operator.Lawful outside.std) (h : Reaches outside disk db stmts)
    {sql : Str} {stmt : SelectStmt} (hparse : parseSql sql = .ok (.select stmt)) :
    ∃ tables, Logged stmts tables ∧ (∀ t ∈ tables, t.relation.isSome) ∧ (Answerable (relationsOf tables) stmt →
      ∃ columns db', ∃ rows : List (List Value),
        execute BufferPool.store outside sql db = .ok ⟨columns, rows.map (·.map Value.toString), []⟩ db' ∧
        (answer (relationsOf tables) stmt).rows = rows) := by
  have hn' : n ≠ 0 := Nat.ne_of_gt hn
  obtain ⟨tables, ⟨m, pages, hs, hpins, hfree, hkeeps⟩, hlogged⟩ := h.stores hn'
  refine ⟨tables, hlogged, fun t ht => ?_, fun hanswer => ?_⟩
  · obtain ⟨info, -, htable⟩ := hkeeps.getTable_of_mem ht
    exact relation_isSome htable.typed
  have hserves : Serves (env BufferPool.store outside) (Holds · m) db.catalog (relationsOf tables) :=
    serves_tables hn' hfree hkeeps
  have hstd' : Operator.Lawful (env BufferPool.store outside).std := hstd
  obtain ⟨op, tuples, s', sorted, hplan, hrun, -, hcarry, hrows, -⟩ := evaluates_plan hstd' hserves hanswer hs
  have hcells : tuples.mapM (rowCells op.outputSchema) = .ok
      ((sorted.map (shown (joined (relationsOf tables) stmt).header stmt.selectList)).map (·.map Value.toString)) := by
    rw [mapM_eq_ok, List.forall₂_map_right_iff]
    exact hcarry.imp fun t row hrow => rowCells_eq hrow.values
  have hexec := (execSelect_eq_ok hstd).mpr ⟨op, tuples, s', _, hplan, hrun, hcells, rfl, rfl⟩
  refine ⟨_, _, _, (execute_eq hparse).trans hexec, ?_⟩
  rw [answer_rows, hrows, Multiset.map_coe]

end MyDB.Database

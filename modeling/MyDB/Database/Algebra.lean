import MyDB.Database.ColumnQueries
import MyDB.Executor.JoinedRows
import MyDB.Lib.Relation
import MyDB.Planner.Resolution

/-! What a `SELECT` without aggregates asks for, in relational algebra: the pairs of
rows of its tables that satisfy the join conditions, of those the ones that satisfy
`WHERE`, and of those the columns of the select list. Nothing here depends on how
tuples are stored or operators run. -/

namespace MyDB.Algebra
open MyDB.Parser MyDB.Lib MyDB.Executor

def InColumn (v : Value) (c : Column) : Prop := v.HasType c.type ∧ v.stored = v

instance (v : Value) (c : Column) : Decidable (InColumn v c) :=
  match v with
  | .int _ => inferInstanceAs (Decidable ((_ ∧ _ ∧ _) ∧ _))
  | .varchar _ _ => inferInstanceAs (Decidable ((_ ∧ _) ∧ _))

abbrev Rel := Relation InColumn

/-! ## Conditions -/

def between {K : Type} [DecidableEq K] [LT K] [LE K] [DecidableLT K] [DecidableLE K] (op : BinaryOp) (x y : K) : Bool :=
  match op with
  | .eq => x = y
  | .lt => x < y
  | .gt => x > y
  | .leq => x ≤ y
  | .geq => x ≥ y
  | .neq => x ≠ y
  | .and | .or => false

def compares (op : BinaryOp) : Option Value → Option Value → Bool
  | some (.int x), some (.int y) => between op x y
  | some (.varchar x _), some (.varchar y _) => between op x y
  | _, _ => false

def column (header : List Column) : Expr → Option Nat
  | .columnRef tableAlias colName =>
    match Schema.matching ⟨header⟩ (columnKey tableAlias colName) with
    | [i] => some i
    | _ => none
  | _ => none

def operand (header : List Column) (row : List Value) : Expr → Option Value
  | .intLiteral v => some (.int v)
  | .stringLiteral s => some (.varchar s 255)
  | e => (column header e).bind (row[·]?)

def operandType (header : List Column) : Expr → Option TypeId
  | .intLiteral _ => some .int
  | .stringLiteral _ => some .varchar
  | e => (column header e).bind fun i => header[i]?.map (·.type.typeId)

def holds (header : List Column) (row : List Value) : Expr → Bool
  | .not e => !holds header row e
  | .binaryOp .and l r => holds header row l && holds header row r
  | .binaryOp .or l r => holds header row l || holds header row r
  | .binaryOp op l r => compares op (operand header row l) (operand header row r)
  | _ => false

/-- Comparisons of columns and literals of one type, joined by `AND`, `OR` and `NOT`. -/
def Comparisons (header : List Column) : Expr → Prop
  | .not e => Comparisons header e
  | .binaryOp .and l r => Comparisons header l ∧ Comparisons header r
  | .binaryOp .or l r => Comparisons header l ∧ Comparisons header r
  | .binaryOp _ l r => ∃ type, operandType header l = some type ∧ operandType header r = some type
  | _ => False

def before (header : List Column) (item : OrderByItem) (a b : List Value) : Bool :=
  compares (if item.ascending then .lt else .gt) (operand header a item.expr) (operand header b item.expr)

/-- The order of `ORDER BY`: the first item that tells two rows apart decides. -/
def precedes (header : List Column) : List OrderByItem → List Value → List Value → Bool
  | [], _, _ => false
  | item :: items, a, b => before header item a b || !before header item b a && precedes header items a b

/-! ## Queries -/

def qualify (label : Str) (c : Column) : Column :=
  if label = [] then c else { c with name := label ++ lit "." ++ c.name }

theorem type_qualify (label : Str) (c : Column) : (qualify label c).type = c.type := by
  unfold qualify
  split_ifs
  · rfl
  · rfl

section queries
variable (relations : Str → Option Rel)

def table (name aliasName : Str) : Rel :=
  ((relations name).getD default).rename (qualify (if aliasName = [] then name else aliasName)) fun v c h => by
    unfold InColumn
    rwa [type_qualify]

/-- The left side of a condition is for the rows before the join, the right side for
those of the table that is joined. -/
def joinCondition (condition : Expr) (left right : List Column) (a b : List Value) : Bool :=
  match condition with
  | .binaryOp .eq l r => compares .eq (operand left a l) (operand right b r)
  | _ => false

def joinTable (r : Rel) (j : JoinClause) : Rel :=
  r.join (joinCondition j.condition r.header (table relations j.tableName j.aliasName).header)
    (table relations j.tableName j.aliasName)

def joined (stmt : SelectStmt) : Rel := stmt.joins.foldl (joinTable relations) (table relations stmt.fromTable stmt.fromAlias)

def filtered (stmt : SelectStmt) : Rel :=
  (joined relations stmt).select fun row => stmt.whereClause.all (holds (joined relations stmt).header row)

def positions (header : List Column) (list : List SelectItem) : List Nat := list.filterMap fun item => column header item.expr

def answer (stmt : SelectStmt) : Rel :=
  if Planner.isStar stmt.selectList then filtered relations stmt
  else (filtered relations stmt).project (positions (joined relations stmt).header stmt.selectList)

/-- The joins of a relation: their tables are there, and their keys are `INT`s. -/
def JoinsInt : List JoinClause → Rel → Prop
  | [], _ => True
  | j :: js, r => (relations j.tableName).isSome ∧
      (∃ l k, j.condition = .binaryOp .eq l k ∧ operandType r.header l = some .int ∧
        operandType (table relations j.tableName j.aliasName).header k = some .int) ∧
      JoinsInt js (joinTable relations r j)

structure Answerable (stmt : SelectStmt) : Prop where
  fromTable : (relations stmt.fromTable).isSome
  joins : JoinsInt relations stmt.joins (table relations stmt.fromTable stmt.fromAlias)
  whereClause : ∀ p, stmt.whereClause = some p → Comparisons (joined relations stmt).header p
  groupBy : stmt.groupBy = []
  selectList : Planner.isStar stmt.selectList ∨
    ∀ item ∈ stmt.selectList, (column (joined relations stmt).header item.expr).isSome
  orderBy : ∀ item ∈ stmt.orderBy, (column (joined relations stmt).header item.expr).isSome

end queries

def shown (header : List Column) (list : List SelectItem) (row : List Value) : List Value :=
  if Planner.isStar list then row else pick (positions header list) row

theorem answer_rows (relations : Str → Option Rel) (stmt : SelectStmt) : (answer relations stmt).rows =
    (filtered relations stmt).rows.map (shown (joined relations stmt).header stmt.selectList) := by
  unfold answer shown
  split_ifs
  · exact (Multiset.map_id' _).symm
  · rfl

/-! ## Conditions on tuples -/

structure Carries (schema : Schema) (t : Tuple) (row : List Value) : Prop where
  length_eq : t.length = schema.tupleSize
  values : rowValues schema t = .ok row

section tuples
variable {schema : Schema} {t u : Tuple} {row row' : List Value} {e : Expr} {type : TypeId} {i : Nat}

theorem column_eq_some (h : column schema.columns e = some i) : ∃ tableAlias colName, e = .columnRef tableAlias colName ∧
    schema.getColumnIdx (columnKey tableAlias colName) = .ok i := by
  cases e with
  | columnRef tableAlias colName =>
    unfold column at h
    dsimp only at h
    split at h
    · next j hone =>
      cases h
      exact ⟨tableAlias, colName, rfl, Schema.getColumnIdx_of_matching hone⟩
    · cases h
  | _ => cases h

theorem Carries.column (h : Carries schema t row) (hi : column schema.columns e = some i) :
    ∃ v c, evalExpr e t schema = .ok v ∧ row[i]? = some v ∧ schema.columns[i]? = some c ∧ InColumn v c := by
  obtain ⟨tableAlias, colName, rfl, hidx⟩ := column_eq_some hi
  have hlt := Schema.getColumnIdx_lt hidx
  have hc := List.getElem?_eq_getElem hlt
  obtain ⟨v, hv, hin⟩ := Tuple.getValue_ok h.length_eq hc
  refine ⟨v, _, ?_, rowValues_getElem h.values hlt hv, hc, hin⟩
  rw [evalExpr_columnRef hidx, hv]

theorem Carries.operand (h : Carries schema t row) (htype : operandType schema.columns e = some type) :
    ∃ v, evalExpr e t schema = .ok v ∧ operand schema.columns row e = some v ∧ v.typeId = type := by
  have hcolumn {e : Expr}
      (htype : ((Algebra.column schema.columns e).bind fun i => schema.columns[i]?.map (·.type.typeId)) = some type) :
      ∃ v, evalExpr e t schema = .ok v ∧ (Algebra.column schema.columns e).bind (row[·]?) = some v ∧ v.typeId = type := by
    obtain ⟨i, hi, htype⟩ := Option.bind_eq_some_iff.mp htype
    obtain ⟨v, c, hv, hrow, hc, hin⟩ := h.column hi
    rw [hc] at htype
    refine ⟨v, hv, ?_, hin.1.typeId_eq.trans (Option.some.inj htype)⟩
    rw [hi]
    exact hrow
  cases e with
  | intLiteral x =>
    cases htype
    exact ⟨.int x, rfl, rfl, rfl⟩
  | stringLiteral x =>
    cases htype
    exact ⟨.varchar x 255, rfl, rfl, rfl⟩
  | columnRef tableAlias colName => exact hcolumn htype
  | _ => cases htype

theorem compareOp_eq {K : Type} [DecidableEq K] [LT K] [LE K] [DecidableLT K] [DecidableLE K] [Std.IsLinearOrder K]
    [Std.LawfulOrderLT K] {op : BinaryOp} (hand : op ≠ .and) (hor : op ≠ .or) (x y : K) :
    compareOp op x y = some (between op x y) := by
  unfold compareOp between
  cases op with
  | leq => exact congrArg some (decide_eq_decide.mpr Std.not_lt)
  | geq => exact congrArg some (decide_eq_decide.mpr Std.not_lt)
  | and => exact absurd rfl hand
  | or => exact absurd rfl hor
  | _ => rfl

theorem compareValues_eq {op : BinaryOp} {v w : Value} (hand : op ≠ .and) (hor : op ≠ .or) (htype : v.typeId = w.typeId) :
    compareValues op v w = .ok (compares op (some v) (some w)) := by
  cases v with
  | int x =>
    cases w with
    | int y =>
      unfold compareValues
      dsimp only
      rw [if_pos ⟨rfl, rfl⟩, compareOp_eq hand hor]
      rfl
    | varchar y m => cases htype
  | varchar x n =>
    cases w with
    | int y => cases htype
    | varchar y m =>
      unfold compareValues
      dsimp only
      rw [if_neg (fun h => nomatch h.1), compareOp_eq hand hor]
      rfl

theorem Carries.holds (h : Carries schema t row) (he : Comparisons schema.columns e) :
    evalPred e t schema = .ok (holds schema.columns row e) := by
  induction e with
  | not e ih =>
    rw [evalPred, ih he]
    rfl
  | binaryOp op l r ihl ihr =>
    have hcompare (hand : op ≠ .and) (hor : op ≠ .or)
        (htypes : ∃ type, operandType schema.columns l = some type ∧ operandType schema.columns r = some type) :
        (do compareValues op (← evalExpr l t schema) (← evalExpr r t schema)) =
          Except.ok (compares op (Algebra.operand schema.columns row l) (Algebra.operand schema.columns row r)) := by
      obtain ⟨type, hl, hr⟩ := htypes
      obtain ⟨v, hv, hvrow, hvtype⟩ := h.operand hl
      obtain ⟨w, hw, hwrow, hwtype⟩ := h.operand hr
      rw [hv, hw, hvrow, hwrow]
      exact compareValues_eq hand hor (hvtype.trans hwtype.symm)
    cases op with
    | and =>
      rw [evalPred, ihl he.1, ihr he.2, Algebra.holds]
      cases Algebra.holds schema.columns row l <;> rfl
    | or =>
      rw [evalPred, ihl he.1, ihr he.2, Algebra.holds]
      cases Algebra.holds schema.columns row l <;> rfl
    | _ => exact hcompare nofun nofun he
  | _ => cases he

theorem valueLess_iff {v w : Value} (htype : v.typeId = w.typeId) (ascending : Bool) :
    (if ascending then valueLess v w else valueLess w v) ↔
      compares (if ascending then .lt else .gt) (some v) (some w) = true := by
  cases v with
  | int x =>
    cases w with
    | int y => cases ascending <;> simp [valueLess_int, compares, between]
    | varchar y m => cases htype
  | varchar x n =>
    cases w with
    | int y => cases htype
    | varchar y m => cases ascending <;> simp [valueLess_varchar, compares, between]

theorem Carries.before (h : Carries schema t row) (h' : Carries schema u row') {item : OrderByItem}
    (hi : Algebra.column schema.columns item.expr = some i) :
    itemLess schema item t u ↔ before schema.columns item row row' = true := by
  obtain ⟨v, c, hv, hrow, hc, hin⟩ := h.column hi
  obtain ⟨w, c', hw, hrow', hc', hin'⟩ := h'.column hi
  cases hc.symm.trans hc'
  obtain ⟨tableAlias, colName, hexpr, -⟩ := column_eq_some hi
  have hoperand {row : List Value} : Algebra.operand schema.columns row item.expr = row[i]? := by
    rw [hexpr] at hi ⊢
    show (Algebra.column schema.columns _).bind _ = _
    rw [hi]
    rfl
  unfold itemLess Algebra.before
  rw [valOf_eq hv, valOf_eq hw, hoperand, hoperand, hrow, hrow']
  exact valueLess_iff (hin.1.typeId_eq.trans hin'.1.typeId_eq.symm) item.ascending

theorem Carries.precedes (h : Carries schema t row) (h' : Carries schema u row') {items : List OrderByItem}
    (hitems : ∀ item ∈ items, (Algebra.column schema.columns item.expr).isSome) :
    rowLess schema items t u ↔ precedes schema.columns items row row' = true := by
  induction items with
  | nil => exact ⟨False.elim, nofun⟩
  | cons item items ih =>
    obtain ⟨hitem, hitems⟩ := List.forall_mem_cons.mp hitems
    obtain ⟨i, hi⟩ := Option.isSome_iff_exists.mp hitem
    rw [rowLess, h.before h' hi, h'.before h hi, ih hitems]
    simp [Algebra.precedes]

theorem Carries.partners {ls rs : Schema} {leftKey rightKey : Expr} (h : Carries ls t row) (h' : Carries rs u row')
    (hl : operandType ls.columns leftKey = some .int) (hr : operandType rs.columns rightKey = some .int) :
    Partners ls rs leftKey rightKey t u ↔
      joinCondition (.binaryOp .eq leftKey rightKey) ls.columns rs.columns row row' = true := by
  obtain ⟨v, hv, hrow, htype⟩ := h.operand hl
  obtain ⟨w, hw, hrow', htype'⟩ := h'.operand hr
  unfold Partners joinCondition keyText
  dsimp only
  rw [valOf_eq hv, valOf_eq hw, hrow, hrow']
  cases v with
  | varchar x n => cases htype
  | int x =>
    cases w with
    | varchar y n => cases htype'
    | int y =>
      show intToString x = intToString y ∧ intToString y ≠ [] ↔ decide (x = y) = true
      rw [decide_eq_true_eq]
      exact ⟨fun h => intToString_injective h.1, fun h => ⟨congrArg intToString h, intToString_ne_nil y⟩⟩

theorem Carries.append {ls rs : Schema} (h : Carries ls t row) (h' : Carries rs u row') :
    Carries (Operator.concatSchemas ls rs) (t ++ u) (row ++ row') where
  length_eq := by rw [List.length_append, h.length_eq, h'.length_eq, tupleSize_concatSchemas]
  values := rowValues_append h.length_eq h.values h'.values

theorem Carries.congr {schema' : Schema} (h : Carries schema t row)
    (htypes : schema'.columns.map (·.type) = schema.columns.map (·.type)) : Carries schema' t row where
  length_eq := h.length_eq.trans (Planner.tupleSize_eq_of_types htypes).symm
  values := by
    have hlength : schema'.columns.length = schema.columns.length := by simpa using congrArg List.length htypes
    rw [rowValues, hlength, funext (Tuple.getValue_congr htypes t)]
    exact h.values

theorem carries_encode {cols : List Column} (h : List.Forall₂ InColumn row cols)
    (htypes : schema.columns.map (·.type) = cols.map (·.type)) : Carries schema (Tuple.encode row) row := by
  have hread : ReadFrom cols row := h
  have htyped : schema.Typed row := hread.typed htypes
  refine ⟨Tuple.length_encode_fits htyped.fits, ?_⟩
  rw [rowValues_encode htyped, hread.stored]

end tuples
end MyDB.Algebra

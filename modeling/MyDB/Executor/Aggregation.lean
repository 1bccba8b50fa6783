import MyDB.Executor.GroupKeys
import MyDB.Planner.Planner

/-! The aggregates of a group: the accumulators after its tuples, and the row that
`Next` makes of them. -/

namespace MyDB.Executor
open MyDB.Parser MyDB.Lib

/-! ## Running minima and maxima -/

section extremes
variable {α : Type} [LinearOrder α] {l : List α} {b x : α}

theorem foldl_min_le_init (l : List α) (b : α) : l.foldl min b ≤ b := by
  induction l generalizing b with
  | nil => exact le_rfl
  | cons y l ih => exact (ih (min b y)).trans (min_le_left b y)

theorem foldl_min_le (hx : x ∈ l) (b : α) : l.foldl min b ≤ x := by
  induction l generalizing b with
  | nil => cases hx
  | cons y l ih =>
    rw [List.foldl_cons]
    rcases List.mem_cons.mp hx with rfl | hx
    · exact (foldl_min_le_init l _).trans (min_le_right b x)
    · exact ih hx _

theorem foldl_min_eq_or_mem (l : List α) (b : α) : l.foldl min b = b ∨ l.foldl min b ∈ l := by
  induction l generalizing b with
  | nil => exact Or.inl rfl
  | cons y l ih =>
    rw [List.foldl_cons]
    rcases ih (min b y) with h | h
    · rw [h]
      rcases min_choice b y with hb | hy
      · exact Or.inl hb
      · rw [hy]
        exact Or.inr List.mem_cons_self
    · exact Or.inr (List.mem_cons_of_mem _ h)

theorem foldl_min_mem (hne : l ≠ []) (hb : ∀ x ∈ l, x ≤ b) : l.foldl min b ∈ l := by
  rcases foldl_min_eq_or_mem l b with h | h
  · obtain ⟨x, hx⟩ := List.exists_mem_of_ne_nil l hne
    have hle := foldl_min_le hx b
    rw [h] at hle ⊢
    rwa [le_antisymm hle (hb x hx)]
  · exact h

theorem foldl_le_max (hx : x ∈ l) (b : α) : x ≤ l.foldl max b := foldl_min_le (α := αᵒᵈ) hx b

theorem foldl_max_mem (hne : l ≠ []) (hb : ∀ x ∈ l, b ≤ x) : l.foldl max b ∈ l := foldl_min_mem (α := αᵒᵈ) hne hb

end extremes

/-! ## The accumulators -/

section accumulators
variable {ae : AggExpr} {schema : Schema} {ts : List Tuple}

theorem foldl_push_count (a : Accumulator) : (ts.foldl (Accumulator.push ae schema) a).count = a.count + ts.length := by
  induction ts generalizing a with
  | nil => exact (Int.add_zero _).symm
  | cons t ts ih =>
    have hpush : (a.push ae schema t).count = a.count + 1 := by
      rw [Accumulator.push]
      split
      · rfl
      · rfl
    rw [List.foldl_cons, ih, hpush, List.length_cons]
    push_cast
    ring

theorem accOf_count : (accOf ae schema ts).count = ts.length := by
  rw [accOf, foldl_push_count]
  exact Int.zero_add _

theorem foldl_push (hfunc : ae.func ≠ .count) (a : Accumulator) :
    ts.foldl (Accumulator.push ae schema) a =
      ⟨a.count + ts.length, a.sum + (ts.map (argVal ae schema)).sum, (ts.map (argVal ae schema)).foldl min a.min,
        (ts.map (argVal ae schema)).foldl max a.max⟩ := by
  induction ts generalizing a with
  | nil => simp
  | cons t ts ih =>
    have hpush : a.push ae schema t = ⟨a.count + 1, a.sum + argVal ae schema t, min a.min (argVal ae schema t),
        max a.max (argVal ae schema t)⟩ := by
      rw [Accumulator.push, if_neg hfunc, min_comm, min_def_lt, max_def_lt]
    rw [List.foldl_cons, ih, hpush, List.map_cons, List.sum_cons, List.foldl_cons, List.foldl_cons, List.length_cons]
    push_cast
    rw [add_assoc, add_assoc, add_comm (1 : Int)]

theorem accOf_eq (hfunc : ae.func ≠ .count) :
    accOf ae schema ts = ⟨ts.length, (ts.map (argVal ae schema)).sum,
      (ts.map (argVal ae schema)).foldl min 2147483647, (ts.map (argVal ae schema)).foldl max (-2147483648)⟩ := by
  rw [accOf, foldl_push hfunc, Accumulator.init, zero_add, zero_add]

def Int32 (v : Int) : Prop := -2 ^ 31 ≤ v ∧ v < 2 ^ 31

instance (v : Int) : Decidable (Int32 v) := inferInstanceAs (Decidable (_ ∧ _))

theorem narrow_of_int32 {v : Int} (h : Int32 v) : Accumulator.narrow v = v := by
  obtain ⟨hlo, hhi⟩ := h
  rw [Accumulator.narrow, Int.bmod_def]
  omega

theorem int32_narrow (v : Int) : Int32 (Accumulator.narrow v) :=
  ⟨Int.le_bmod (by decide), Int.bmod_lt (by decide)⟩

theorem sum_bounds {l : List Int} (h : ∀ v ∈ l, Int32 v) : -2 ^ 31 * l.length ≤ l.sum ∧ l.sum ≤ (2 ^ 31 - 1) * l.length := by
  induction l with
  | nil => exact ⟨le_rfl, le_rfl⟩
  | cons v l ih =>
    obtain ⟨⟨hlo, hhi⟩, hl⟩ := List.forall_mem_cons.mp h
    obtain ⟨ihlo, ihhi⟩ := ih hl
    rw [List.sum_cons, List.length_cons]
    push_cast
    constructor
    · linarith
    · linarith

theorem int32_tdiv {sum n : Int} (hn : 0 < n) (hlo : -2 ^ 31 * n ≤ sum) (hhi : sum ≤ (2 ^ 31 - 1) * n) :
    Int32 (sum.tdiv n) := by
  rcases le_total 0 sum with hsum | hsum
  · rw [Int.tdiv_eq_ediv_of_nonneg hsum]
    have hnonneg := Int.ediv_nonneg hsum hn.le
    have hle := Int.ediv_le_of_le_mul hn hhi
    exact ⟨by omega, by omega⟩
  · have hneg : sum.tdiv n = -(-sum / n) := by
      rw [← Int.tdiv_eq_ediv_of_nonneg (Int.neg_nonneg_of_nonpos hsum), Int.neg_tdiv, neg_neg]
    have hnonneg : 0 ≤ -sum / n := Int.ediv_nonneg (Int.neg_nonneg_of_nonpos hsum) hn.le
    have hle : -sum / n ≤ 2 ^ 31 := Int.ediv_le_of_le_mul hn (by linarith)
    rw [hneg]
    exact ⟨by omega, by omega⟩

/-- What an aggregate is to return for the tuples of a group. -/
def Answers (ae : AggExpr) (schema : Schema) (ts : List Tuple) (x : Int) : Prop :=
  let args := ts.map (argVal ae schema)
  match ae.func with
  | .count => x = ts.length
  | .sum => Int32 args.sum → x = args.sum
  | .avg => x = args.sum.tdiv ts.length ∧ Int32 (args.sum.tdiv ts.length)
  | .min => x ∈ args ∧ ∀ y ∈ args, x ≤ y
  | .max => x ∈ args ∧ ∀ y ∈ args, y ≤ x

theorem value_answers (hne : ts ≠ []) (hlen : ae.func = .count → ts.length < 2 ^ 31)
    (hargs : ae.func ≠ .count → ∀ t ∈ ts, Int32 (argVal ae schema t)) :
    ∃ x, (accOf ae schema ts).value ae.func = .int x ∧ Int32 x ∧ Answers ae schema ts x := by
  have hmem (hfunc : ae.func ≠ .count) : ∀ v ∈ ts.map (argVal ae schema), Int32 v := by
    intro v hv
    obtain ⟨t, ht, rfl⟩ := List.mem_map.mp hv
    exact hargs hfunc t ht
  have hne' : ts.map (argVal ae schema) ≠ [] := by rwa [ne_eq, List.map_eq_nil_iff]
  have hpos : 0 < (ts.length : Int) := by exact_mod_cast List.length_pos_iff.mpr hne
  cases hfunc : ae.func with
  | count =>
    have hcount : Int32 (ts.length : Int) := ⟨by omega, by exact_mod_cast hlen hfunc⟩
    refine ⟨ts.length, ?_, hcount, ?_⟩
    · rw [Accumulator.value, accOf_count, narrow_of_int32 hcount]
    · rw [Answers, hfunc]
  | sum =>
    have hnc : ae.func ≠ .count := by rw [hfunc]; decide
    refine ⟨_, rfl, int32_narrow _, ?_⟩
    rw [Answers, hfunc, accOf_eq hnc]
    exact narrow_of_int32
  | avg =>
    have hnc : ae.func ≠ .count := by rw [hfunc]; decide
    obtain ⟨hlo, hhi⟩ := sum_bounds (hmem hnc)
    rw [List.length_map] at hlo hhi
    have havg := int32_tdiv hpos hlo hhi
    refine ⟨_, rfl, int32_narrow _, ?_⟩
    rw [Answers, hfunc, accOf_eq hnc]
    dsimp only
    rw [if_pos hpos, narrow_of_int32 havg]
    exact ⟨rfl, havg⟩
  | min =>
    have hnc : ae.func ≠ .count := by rw [hfunc]; decide
    have hmin := foldl_min_mem hne' fun v hv => Int.le_sub_one_of_lt (hmem hnc v hv).2
    refine ⟨_, rfl, ?_, ?_⟩
    · rw [accOf_eq hnc]
      exact hmem hnc _ hmin
    · rw [Answers, hfunc, accOf_eq hnc]
      exact ⟨hmin, fun y hy => foldl_min_le hy _⟩
  | max =>
    have hnc : ae.func ≠ .count := by rw [hfunc]; decide
    have hmax := foldl_max_mem hne' fun v hv => (hmem hnc v hv).1
    refine ⟨_, rfl, ?_, ?_⟩
    · rw [accOf_eq hnc]
      exact hmem hnc _ hmax
    · rw [Answers, hfunc, accOf_eq hnc]
      exact ⟨hmax, fun y hy => foldl_le_max hy _⟩

end accumulators

/-! ## The rows -/

def rowValues (schema : Schema) (t : Tuple) : Except Fault (List Value) :=
  (List.range schema.columns.length).mapM (t.getValue schema)

theorem rowValues_encode {schema : Schema} {vals : List Value} (h : schema.Typed vals) :
    rowValues schema (Tuple.encode vals) = .ok (vals.map Value.stored) := by
  rw [rowValues, mapM_eq_ok, List.forall₂_map_right_iff, List.forall₂_iff_get]
  refine ⟨List.length_range.trans h.length_eq.symm, ?_⟩
  intro i hi hi'
  have hget : (List.range schema.columns.length).get ⟨i, hi⟩ = i := List.getElem_range hi
  rw [hget]
  exact Tuple.getValue_encode h (List.getElem?_eq_getElem hi')

/-- An aggregate of an `INT` column or of an `INT` literal, or `COUNT(*)`. -/
def IntAggregate (schema : Schema) (ae : AggExpr) : Prop :=
  match ae.arg with
  | none => ae.func = .count
  | some (.intLiteral v) => Int32 v
  | some (.columnRef tableAlias colName) =>
    ∃ i c, schema.getColumnIdx (columnKey tableAlias colName) = .ok i ∧ schema.columns[i]? = some c ∧ c.type.typeId = .int
  | some _ => False

/-- The expressions of `GROUP BY` name the columns `cols`. -/
def GroupColumns (schema : Schema) (groupBy : List Expr) (cols : List Column) : Prop :=
  List.Forall₂ (fun e c => ∃ tableAlias colName i, e = .columnRef tableAlias colName ∧
    schema.getColumnIdx (columnKey tableAlias colName) = .ok i ∧ schema.columns[i]? = some c) groupBy cols

def ReadFrom (cols : List Column) (vs : List Value) : Prop :=
  List.Forall₂ (fun v c => Value.HasType c.type v ∧ v.stored = v) vs cols

section ReadFrom
variable {cols : List Column} {vs ws : List Value}

theorem ReadFrom.types (h : ReadFrom cols vs) : vs.map Value.typeId = cols.map (·.type.typeId) := by
  induction h with
  | nil => rfl
  | cons hv _ ih => rw [List.map_cons, List.map_cons, ih, hv.1.typeId_eq]

theorem ReadFrom.stored (h : ReadFrom cols vs) : vs.map Value.stored = vs := by
  induction h with
  | nil => rfl
  | cons hv _ ih => rw [List.map_cons, ih, hv.2]

theorem ReadFrom.typed {outCols : List Column} (h : ReadFrom cols vs)
    (htypes : outCols.map (·.type) = cols.map (·.type)) : List.Forall₂ (fun v c => Value.HasType c.type v) vs outCols := by
  have hcols : Schema.Typed ⟨cols⟩ vs := List.Forall₂.imp (fun _ _ hv => hv.1) h
  exact Schema.Typed.congr (b := ⟨outCols⟩) hcols htypes

theorem HasType_eq_of_same {v w : Value} {type : ColumnType} (hv : v.HasType type) (hw : w.HasType type)
    (h : v.Same w) : v = w := by
  cases v with
  | int i =>
    cases w with
    | int j => exact congrArg Value.int h.2.1
    | varchar => cases h.1
  | varchar s n =>
    cases w with
    | int => cases h.1
    | varchar s' n' =>
      obtain rfl : s = s' := h.2.2
      rw [hv.2, hw.2]

theorem ReadFrom.eq_of_same (hv : ReadFrom cols vs) (hw : ReadFrom cols ws) (h : List.Forall₂ Value.Same vs ws) :
    vs = ws := by
  induction h generalizing cols with
  | nil => rfl
  | cons hsame _ ih =>
    cases hv with
    | cons hv hvs =>
      cases hw with
      | cons hw hws => rw [HasType_eq_of_same hv.1 hw.1 hsame, ih hvs hws]

end ReadFrom

section rows
variable {groupBy : List Expr} {aggExprs : List AggExpr} {ae : AggExpr} {schema outputSchema : Schema}
  {cols : List Column} {t : Tuple}

theorem IntAggregate.reads (h : IntAggregate schema ae) (ht : t.length = schema.tupleSize) :
    ReadsArg ae schema t ∧ (ae.func ≠ .count → Int32 (argVal ae schema t)) := by
  obtain ⟨func, arg, name⟩ := ae
  cases arg with
  | none => exact ⟨fun hne => absurd h hne, fun hne => absurd h hne⟩
  | some e =>
    cases e with
    | intLiteral v => exact ⟨fun _ => ⟨_, _, rfl, rfl⟩, fun _ => h⟩
    | columnRef tableAlias colName =>
      obtain ⟨i, c, hi, hc, hint⟩ := h
      obtain ⟨v, hv, htype, -⟩ := evalExpr_column ht hi hc
      refine ⟨fun _ => ⟨_, v, rfl, hv⟩, fun _ => ?_⟩
      rw [argVal_eq rfl hv]
      cases v with
      | int x => exact htype.2
      | varchar x n => cases htype.1.symm.trans hint
    | _ => cases h

theorem GroupColumns.reads (h : GroupColumns schema groupBy cols) (ht : t.length = schema.tupleSize) :
    groupBy.mapM (evalExpr · t schema) = .ok (groupVals groupBy schema t) ∧
      ReadFrom cols (groupVals groupBy schema t) := by
  have hvals : ∃ vs, groupBy.mapM (evalExpr · t schema) = .ok vs ∧ ReadFrom cols vs := by
    induction h with
    | nil => exact ⟨[], rfl, .nil⟩
    | cons hcol _ ih =>
      obtain ⟨tableAlias, colName, i, rfl, hi, hc⟩ := hcol
      obtain ⟨v, hv, htype⟩ := evalExpr_column ht hi hc
      obtain ⟨vs, hvs, hrest⟩ := ih
      exact ⟨v :: vs, mapM_cons_eq_ok.mpr ⟨v, vs, hv, hvs, rfl⟩, .cons htype hrest⟩
  obtain ⟨vs, hvs, htyped⟩ := hvals
  rw [groupVals_eq hvs]
  exact ⟨hvs, htyped⟩

theorem getColumn_eq_ok {i : Nat} {c : Column} (hc : schema.columns[i]? = some c) :
    Planner.getColumn schema i = .ok c := by
  rw [Planner.getColumn, hc]
  rfl

theorem groupColumn_columnRef {tableAlias colName : Str} {i : Nat} {c : Column}
    (hi : schema.getColumnIdx (columnKey tableAlias colName) = .ok i) (hc : schema.columns[i]? = some c) :
    Planner.groupColumn schema (.columnRef tableAlias colName) = .ok ⟨colName, c.type⟩ := by
  show (schema.getColumnIdx (columnKey tableAlias colName) >>= fun i => Planner.getColumn schema i >>= _) = _
  rw [hi]
  show (Planner.getColumn schema i >>= _) = _
  rw [getColumn_eq_ok hc]
  rfl

theorem GroupColumns.build (h : GroupColumns schema groupBy cols)
    (hbuild : Planner.buildAggSchema groupBy aggExprs schema = .ok outputSchema) :
    ∃ outCols, outputSchema.columns = outCols ++ aggExprs.map (fun ae => ⟨ae.outputName, .int⟩) ∧
      outCols.map (·.type) = cols.map (·.type) := by
  obtain ⟨outCols, hcols, hout⟩ := bind_eq_ok.mp hbuild
  cases pure_eq_ok.mp hout
  refine ⟨outCols, rfl, ?_⟩
  clear hbuild hout
  induction h generalizing outCols with
  | nil =>
    cases pure_eq_ok.mp hcols
    rfl
  | cons hcol _ ih =>
    obtain ⟨tableAlias, colName, i, rfl, hi, hc⟩ := hcol
    obtain ⟨c', rest, hc', hrest, rfl⟩ := mapM_cons_eq_ok.mp hcols
    cases (groupColumn_columnRef hi hc).symm.trans hc'
    rw [List.map_cons, List.map_cons, ih _ hrest]

/-- The values of a row as they are read back: those of the aggregates in 32 bits. -/
def readBack (groupBy : List Expr) (aggExprs : List AggExpr) (schema : Schema) (ts : List Tuple) (t : Tuple) :
    List Value :=
  groupVals groupBy schema t ++
    aggExprs.map fun ae => .int (Accumulator.narrow ((accOf ae schema ts).value ae.func).asInt)

theorem value_int (a : Accumulator) (func : AggFunc) : a.value func = .int (a.value func).asInt := by
  cases func with
  | _ => rfl

theorem serialize_groupRow (ts : List Tuple) :
    (readBack groupBy aggExprs schema ts t).map Value.serialize =
      (groupRow groupBy aggExprs schema ts t).map Value.serialize := by
  rw [groupRow, readBack, List.map_append, List.map_append, List.map_map, List.map_map]
  congr 1
  apply List.map_congr_left
  intro ae _
  show Value.serialize _ = ((accOf ae schema ts).value ae.func).serialize
  rw [value_int]
  exact Value.serialize_bmod _

theorem typed_readBack (h : GroupColumns schema groupBy cols) (ht : t.length = schema.tupleSize)
    (hbuild : Planner.buildAggSchema groupBy aggExprs schema = .ok outputSchema) (ts : List Tuple) :
    outputSchema.Typed (readBack groupBy aggExprs schema ts t) := by
  obtain ⟨outCols, houtput, htypes⟩ := h.build hbuild
  rw [Schema.Typed, houtput]
  refine List.rel_append ((h.reads ht).2.typed htypes) ?_
  rw [List.forall₂_map_left_iff, List.forall₂_map_right_iff, List.forall₂_same]
  exact fun ae _ => ⟨rfl, int32_narrow _⟩

theorem ofValues_groupRow (h : GroupColumns schema groupBy cols) (ht : t.length = schema.tupleSize)
    (hbuild : Planner.buildAggSchema groupBy aggExprs schema = .ok outputSchema) (ts : List Tuple) :
    Tuple.ofValues (groupRow groupBy aggExprs schema ts t) outputSchema =
      .ok (Tuple.encode (readBack groupBy aggExprs schema ts t)) := by
  rw [Tuple.encode_congr (serialize_groupRow ts)]
  exact Tuple.ofValues_ok ((typed_readBack h ht hbuild ts).fits.congr (serialize_groupRow ts))

theorem rowValues_readBack (h : GroupColumns schema groupBy cols) (ht : t.length = schema.tupleSize)
    (hbuild : Planner.buildAggSchema groupBy aggExprs schema = .ok outputSchema) (ts : List Tuple) :
    rowValues outputSchema (Tuple.encode (readBack groupBy aggExprs schema ts t)) =
      .ok (readBack groupBy aggExprs schema ts t) := by
  rw [rowValues_encode (typed_readBack h ht hbuild ts), readBack, List.map_append, (h.reads ht).2.stored, List.map_map]
  rfl

theorem keyOf_eq_iff {u : Tuple} (h : GroupColumns schema groupBy cols) (hone : (cols.map (·.type.typeId)).count .varchar ≤ 1)
    (ht : t.length = schema.tupleSize) (hu : u.length = schema.tupleSize) :
    keyOf groupBy schema t = keyOf groupBy schema u ↔ groupVals groupBy schema t = groupVals groupBy schema u := by
  constructor
  · intro hkey
    have hvals := (h.reads ht).2
    have hvals' := (h.reads hu).2
    exact hvals.eq_of_same hvals' (same_of_groupKey_eq (hvals.types.trans hvals'.types.symm) (hvals.types ▸ hone) hkey)
  · intro hvals
    rw [keyOf, keyOf, hvals]

theorem readBack_answers {ts : List Tuple} (hne : ts ≠ []) (hlen : ts.length < 2 ^ 31)
    (hts : ∀ t ∈ ts, t.length = schema.tupleSize) (haggs : ∀ ae ∈ aggExprs, IntAggregate schema ae) (t : Tuple) :
    ∃ results : List Int,
      readBack groupBy aggExprs schema ts t = groupVals groupBy schema t ++ results.map Value.int ∧
      List.Forall₂ (fun ae x => Answers ae schema ts x) aggExprs results := by
  refine ⟨aggExprs.map fun ae => Accumulator.narrow ((accOf ae schema ts).value ae.func).asInt, ?_, ?_⟩
  · rw [readBack, List.map_map]
    rfl
  · rw [List.forall₂_map_right_iff, List.forall₂_same]
    intro ae hae
    obtain ⟨x, hx, hx32, hanswer⟩ := value_answers hne (fun _ => hlen) fun hfunc t ht => ((haggs ae hae).reads (hts t ht)).2 hfunc
    rw [hx]
    show Answers ae schema ts (Accumulator.narrow x)
    rwa [narrow_of_int32 hx32]

variable {σ : Type} {env : Env σ} {child : Operator} {s s' : σ} {rows : List Tuple}

theorem evaluates_hashAggregate_readBack (hstd : Operator.Lawful env.std) (hchild : child.Evaluates env s rows s')
    (hrows : ∀ t ∈ rows, t.length = child.outputSchema.tupleSize)
    (hgroup : GroupColumns child.outputSchema groupBy cols)
    (hbuild : Planner.buildAggSchema groupBy aggExprs child.outputSchema = .ok outputSchema) {out : List Tuple}
    {s₁ : σ} :
    (Operator.hashAggregate child groupBy aggExprs outputSchema).Evaluates env s out s₁ ↔
      s₁ = s' ∧ (∀ t ∈ rows, ∀ ae ∈ aggExprs, ReadsArg ae child.outputSchema t) ∧
      out = (firsts (keyOf groupBy child.outputSchema) rows).map fun t =>
        Tuple.encode (readBack groupBy aggExprs child.outputSchema (members (keyOf groupBy child.outputSchema) rows t) t) := by
  have hmap : (firsts (keyOf groupBy child.outputSchema) rows).mapM (fun t =>
      Tuple.ofValues (groupRow groupBy aggExprs child.outputSchema
        (members (keyOf groupBy child.outputSchema) rows t) t) outputSchema) = .ok _ :=
    mapM_of_ok fun t ht => ofValues_groupRow hgroup (hrows t (mem_of_mem_firsts ht)) hbuild _
  rw [Operator.evaluates_hashAggregate_rows hstd]
  constructor
  · rintro ⟨rows', hchild', hread, hout⟩
    obtain ⟨rfl, rfl⟩ := hchild'.unique hchild
    exact ⟨rfl, fun t ht => (hread t ht).args, (Except.ok.inj (hmap.symm.trans hout)).symm⟩
  · rintro ⟨rfl, hargs, rfl⟩
    exact ⟨rows, hchild, fun t ht => ⟨(hgroup.reads (hrows t ht)).1, hargs t ht⟩, hmap⟩

theorem hashAggregate_rows (hstd : Operator.Lawful env.std) (hchild : child.Evaluates env s rows s')
    (hrows : ∀ t ∈ rows, t.length = child.outputSchema.tupleSize) (hlen : rows.length < 2 ^ 31)
    (hgroup : GroupColumns child.outputSchema groupBy cols) (hone : (cols.map (·.type.typeId)).count .varchar ≤ 1)
    (haggs : ∀ ae ∈ aggExprs, IntAggregate child.outputSchema ae)
    (hbuild : Planner.buildAggSchema groupBy aggExprs child.outputSchema = .ok outputSchema) :
    ∃ out, (Operator.hashAggregate child groupBy aggExprs outputSchema).Evaluates env s out s' ∧
      List.Forall₂ (fun t row => ∃ results : List Int,
          rowValues outputSchema row = .ok (groupVals groupBy child.outputSchema t ++ results.map Value.int) ∧
          List.Forall₂ (fun ae x => Answers ae child.outputSchema
            (members (groupVals groupBy child.outputSchema) rows t) x) aggExprs results)
        (firsts (groupVals groupBy child.outputSchema) rows) out := by
  have hkeys : ∀ t ∈ rows, ∀ u ∈ rows, keyOf groupBy child.outputSchema t = keyOf groupBy child.outputSchema u ↔
      groupVals groupBy child.outputSchema t = groupVals groupBy child.outputSchema u :=
    fun t ht u hu => keyOf_eq_iff hgroup hone (hrows t ht) (hrows u hu)
  refine ⟨_, (evaluates_hashAggregate_readBack hstd hchild hrows hgroup hbuild).mpr ⟨rfl, ?_, rfl⟩, ?_⟩
  · exact fun t ht ae hae => ((haggs ae hae).reads (hrows t ht)).1
  rw [List.forall₂_map_right_iff, ← firsts_congr hkeys, List.forall₂_same]
  intro t ht
  have htmem := mem_of_mem_firsts ht
  have hne : members (keyOf groupBy child.outputSchema) rows t ≠ [] :=
    List.ne_nil_of_mem (mem_members.mpr ⟨htmem, rfl⟩)
  have hshort : (members (keyOf groupBy child.outputSchema) rows t).length < 2 ^ 31 :=
    (List.length_filter_le ..).trans_lt hlen
  obtain ⟨results, hback, hanswers⟩ := readBack_answers hne hshort (fun u hu => hrows u (mem_members.mp hu).1) haggs t
  rw [← members_congr hkeys htmem]
  refine ⟨results, ?_, hanswers⟩
  rw [rowValues_readBack hgroup (hrows t htmem) hbuild, hback]

end rows

def salesSchema : Schema := ⟨[⟨lit "d", ⟨.varchar, 1⟩⟩, ⟨lit "x", .int⟩]⟩

def salesScan : Operator := .seqScan ⟨lit "t", salesSchema, ⟨salesSchema, 0, 0⟩⟩ salesSchema

theorem hashAggregate_rows_sales :
    let rows := [[97, 1, 0, 0, 0], [98, 2, 0, 0, 0], [97, 4, 0, 0, 0]]
    let groupBy := [Expr.columnRef [] (lit "d")]
    let aggExprs := [AggExpr.mk .count none (lit "COUNT"), ⟨.sum, some (.columnRef [] (lit "x")), lit "SUM"⟩]
    let outputSchema : Schema := ⟨[⟨lit "d", ⟨.varchar, 1⟩⟩, ⟨lit "COUNT", .int⟩, ⟨lit "SUM", .int⟩]⟩
    ∃ out, (Operator.hashAggregate salesScan groupBy aggExprs outputSchema).Evaluates (Operator.sameRows rows) () out () ∧
      List.Forall₂ (fun t row => ∃ results : List Int,
          rowValues outputSchema row = .ok (groupVals groupBy salesSchema t ++ results.map Value.int) ∧
          List.Forall₂ (fun ae x => Answers ae salesSchema (members (groupVals groupBy salesSchema) rows t) x)
            aggExprs results)
        (firsts (groupVals groupBy salesSchema) rows) out := by
  intro rows groupBy aggExprs outputSchema
  have hchild : salesScan.Evaluates (Operator.sameRows rows) () rows () := Operator.evaluates_seqScan_iff.mpr rfl
  have hgroup : GroupColumns salesSchema groupBy [⟨lit "d", ⟨.varchar, 1⟩⟩] :=
    .cons ⟨[], lit "d", 0, rfl, by decide +kernel, rfl⟩ .nil
  have haggs : ∀ ae ∈ aggExprs, IntAggregate salesSchema ae := by
    intro ae hae
    rcases List.mem_cons.mp hae with rfl | hae
    · rfl
    · rw [List.mem_singleton.mp hae]
      exact ⟨1, ⟨lit "x", .int⟩, by decide +kernel, rfl, rfl⟩
  exact hashAggregate_rows Operator.lawful_insertionStd hchild (by decide) (by decide) hgroup (by decide) haggs
    (by decide +kernel)

end MyDB.Executor

import MyDB.Common.TupleLayout
import MyDB.Executor.Columns
import MyDB.Executor.SortOrder
import MyDB.Lib.Comparator

/-! The comparator of `Sort` and `ParallelSort` as the algorithms of the standard library
see it, on any tuples: where an `ORDER BY` expression cannot be evaluated it throws, and
on the pairs for which it returns it is a strict weak order. -/

namespace MyDB.Executor
open MyDB.Parser MyDB.Lib

/-- `EvalExpr` at the 32-bit offsets of the schema. -/
def evalExprAt (e : Expr) (t : Tuple) (schema : Schema) : Except Fault Value :=
  match e with
  | .intLiteral v => return .int v
  | .stringLiteral s => return .varchar s 255
  | .columnRef tableAlias colName => do
    t.valueAt schema (← schema.getColumnIdx (columnKey tableAlias colName))
  | _ => throw (.runtimeError (lit "EvalExpr: unsupported expression type"))

/-- The comparator at the 32-bit offsets of the schema. -/
def tupleLessAt (schema : Schema) : List OrderByItem → Tuple → Tuple → Except Fault Bool :=
  tupleLessBy fun e t => evalExprAt e t schema

section schema
variable {schema : Schema}

theorem evalExprAt_eq (hsize : schema.tupleSize < 2 ^ 32) (e : Expr) (t : Tuple) :
    evalExprAt e t schema = evalExpr e t schema := by
  cases e
  case columnRef tableAlias colName => simp only [evalExprAt, evalExpr, Tuple.valueAt_eq hsize]
  all_goals rfl

theorem tupleLessAt_eq (hsize : schema.tupleSize < 2 ^ 32) (items : List OrderByItem) :
    tupleLessAt schema items = tupleLess schema items := by
  have heval : (fun e t => evalExprAt e t schema) = fun e t => evalExpr e t schema := by
    funext e t
    exact evalExprAt_eq hsize e t
  rw [tupleLessAt, heval, tupleLess_eq_by]

end schema

/-! ## Keys -/

def SameKind : Value → Value → Prop
  | .int _, .int _ => True
  | .varchar _ n, .varchar _ m => n = m
  | _, _ => False

def Uniform (eval : Expr → Tuple → Except Fault Value) : Prop :=
  ∀ e a b v w, eval e a = .ok v → eval e b = .ok w → SameKind v w

def Before (eval : Expr → Tuple → Except Fault Value) (item : OrderByItem) (a b : Tuple) : Prop :=
  ∃ v w, eval item.expr a = .ok v ∧ eval item.expr b = .ok w ∧ directed item.ascending v w

def Ties (eval : Expr → Tuple → Except Fault Value) (item : OrderByItem) (a b : Tuple) : Prop :=
  ∃ v, eval item.expr a = .ok v ∧ eval item.expr b = .ok v

section keys
variable {eval : Expr → Tuple → Except Fault Value} {v w : Value}

theorem SameKind.typeId_eq (h : SameKind v w) : v.typeId = w.typeId := by
  cases v <;> cases w <;> first | rfl | cases h

theorem SameKind.eq (h : SameKind v w) (hvw : ¬ valueLess v w) (hwv : ¬ valueLess w v) : v = w := by
  cases v with
  | int i =>
    cases w with
    | int j =>
      rw [valueLess_int] at hvw hwv
      rw [Int.le_antisymm (Int.not_lt.mp hwv) (Int.not_lt.mp hvw)]
    | varchar r m => cases h
  | varchar s n =>
    cases w with
    | int j => cases h
    | varchar r m =>
      rw [valueLess_varchar] at hvw hwv
      cases h
      rw [Std.le_antisymm (Std.not_lt.mp hwv) (Std.not_lt.mp hvw)]

theorem irrefl_directed (ascending : Bool) (v : Value) : ¬ directed ascending v v :=
  fun h => (weakLess_directed ascending).asymm v v h h

theorem SameKind.eq_of_directed {ascending : Bool} (h : SameKind v w) (hvw : ¬ directed ascending v w)
    (hwv : ¬ directed ascending w v) : v = w := by
  cases ascending with
  | true => exact h.eq hvw hwv
  | false => exact h.eq hwv hvw

theorem keyOrder (eval : Expr → Tuple → Except Fault Value) (item : OrderByItem) :
    KeyOrder (Before eval item) (Ties eval item) := by
  have hweak := weakLess_directed item.ascending
  constructor
  case asymm =>
    rintro a b ⟨v, w, hv, hw, hlt⟩ ⟨w', v', hw', hv', hgt⟩
    cases hv.symm.trans hv'
    cases hw.symm.trans hw'
    exact hweak.asymm v w hlt hgt
  case trans =>
    rintro a b c ⟨v, w, hv, hw, hlt⟩ ⟨w', u, hw', hu, hlt'⟩
    cases hw.symm.trans hw'
    exact ⟨v, u, hv, hu, hweak.isStrictWeakOrder.trans v w u hlt hlt'⟩
  case ties_symm =>
    rintro a b ⟨v, ha, hb⟩
    exact ⟨v, hb, ha⟩
  case ties_trans =>
    rintro a b c ⟨v, ha, hb⟩ ⟨w, hb', hc⟩
    cases hb.symm.trans hb'
    exact ⟨v, ha, hc⟩
  case not_before =>
    rintro a b ⟨u, ha, hb⟩ ⟨v, w, hv, hw, hlt⟩
    cases ha.symm.trans hv
    cases hb.symm.trans hw
    exact hweak.asymm u u hlt hlt
  case before_ties =>
    rintro a b c ⟨v, w, hv, hw, hlt⟩ ⟨u, hb, hc⟩
    cases hw.symm.trans hb
    exact ⟨v, w, hv, hc, hlt⟩
  case ties_before =>
    rintro a b c ⟨u, ha, hb⟩ ⟨v, w, hv, hw, hlt⟩
    cases hb.symm.trans hv
    exact ⟨u, w, ha, hw, hlt⟩

theorem tupleLessBy_eq_ok {item : OrderByItem} {items : List OrderByItem} {a b : Tuple} {r : Bool}
    (h : tupleLessBy eval (item :: items) a b = .ok r) : ∃ v w, eval item.expr a = .ok v ∧ eval item.expr b = .ok w := by
  rw [tupleLessBy] at h
  obtain ⟨v, hv, hrest⟩ := bind_eq_ok.mp h
  obtain ⟨w, hw, -⟩ := bind_eq_ok.mp hrest
  exact ⟨v, w, hv, hw⟩

theorem tupleLessBy_cons_eq_ok (huniform : Uniform eval) {item : OrderByItem} {items : List OrderByItem} {a b : Tuple}
    {r : Bool} : tupleLessBy eval (item :: items) a b = .ok r ↔
      r = true ∧ Before eval item a b ∨ r = false ∧ Before eval item b a ∨
        Ties eval item a b ∧ tupleLessBy eval items a b = .ok r := by
  constructor
  · intro h
    obtain ⟨v, w, hv, hw⟩ := tupleLessBy_eq_ok h
    have hkind := huniform _ _ _ _ _ hv hw
    rw [tupleLessBy_cons hv hw hkind.typeId_eq] at h
    split at h
    · next hlt =>
      cases h
      exact Or.inl ⟨rfl, v, w, hv, hw, hlt⟩
    · next hlt =>
      split at h
      · next hgt =>
        cases h
        exact Or.inr (Or.inl ⟨rfl, w, v, hw, hv, hgt⟩)
      · next hgt =>
        cases hkind.eq_of_directed hlt hgt
        exact Or.inr (Or.inr ⟨⟨v, hv, hw⟩, h⟩)
  · rintro (⟨rfl, v, w, hv, hw, hlt⟩ | ⟨rfl, w, v, hw, hv, hgt⟩ | ⟨⟨v, hv, hw⟩, h⟩)
    · rw [tupleLessBy_cons hv hw (huniform _ _ _ _ _ hv hw).typeId_eq, if_pos hlt]
    · rw [tupleLessBy_cons hv hw (huniform _ _ _ _ _ hv hw).typeId_eq,
        if_neg ((weakLess_directed _).asymm w v hgt), if_pos hgt]
    · rw [tupleLessBy_cons hv hw rfl, if_neg (irrefl_directed _ v), if_neg (irrefl_directed _ v), h]

theorem lexicographic (huniform : Uniform eval) : Lexicographic (Before eval) (Ties eval) (tupleLessBy eval) where
  nil _ _ := rfl
  cons_true item items a b := by simp [tupleLessBy_cons_eq_ok huniform]
  cons_false item items a b := by simp [tupleLessBy_cons_eq_ok huniform]

end keys

/-! ## Tuples of a schema -/

/-- A literal, or a column that the schema finds. -/
def Resolves (schema : Schema) : Expr → Prop
  | .intLiteral _ | .stringLiteral _ => True
  | .columnRef tableAlias colName => ∃ i, schema.getColumnIdx (columnKey tableAlias colName) = .ok i
  | _ => False

section tuples
variable {schema : Schema} {items : List OrderByItem} {a b : Tuple}

theorem sameKind_deserialize {src src' : List UInt8} {type : ColumnType} {v w : Value}
    (hv : Value.deserialize src type = .ok v) (hw : Value.deserialize src' type = .ok w) : SameKind v w := by
  unfold Value.deserialize at hv hw
  split at hv
  · next htype =>
    rw [htype] at hw
    dsimp only at hw
    split at hv
    · cases pure_eq_ok.mp hv
      split at hw
      · cases pure_eq_ok.mp hw
        trivial
      · cases hw
    · cases hv
  · next htype =>
    rw [htype] at hw
    dsimp only at hv hw
    split at hv
    · cases hv
    · cases pure_eq_ok.mp hv
      split at hw
      · cases hw
      · cases pure_eq_ok.mp hw
        rfl

theorem uniform_evalExprAt (schema : Schema) : Uniform fun e t => evalExprAt e t schema := by
  intro e a b v w hv hw
  cases e
  case intLiteral i =>
    cases pure_eq_ok.mp hv
    cases pure_eq_ok.mp hw
    trivial
  case stringLiteral s =>
    cases pure_eq_ok.mp hv
    cases pure_eq_ok.mp hw
    rfl
  case columnRef tableAlias colName =>
    obtain ⟨i, hi, hva⟩ := bind_eq_ok.mp hv
    obtain ⟨i', hi', hwb⟩ := bind_eq_ok.mp hw
    cases hi.symm.trans hi'
    obtain ⟨off, hoff, hva⟩ := bind_eq_ok.mp hva
    obtain ⟨off', hoff', hwb⟩ := bind_eq_ok.mp hwb
    split at hva
    · next c hc =>
      rw [hc] at hwb
      exact sameKind_deserialize hva hwb
    · cases hva
  all_goals cases hv

theorem evalExpr_of_resolves {e : Expr} {t : Tuple} (h : Resolves schema e) (ht : t.length = schema.tupleSize) :
    ∃ v, evalExpr e t schema = .ok v := by
  cases e
  case intLiteral i => exact ⟨_, rfl⟩
  case stringLiteral s => exact ⟨_, rfl⟩
  case columnRef tableAlias colName =>
    obtain ⟨i, hi⟩ := h
    obtain ⟨v, hv, -⟩ := Tuple.getValue_ok ht (List.getElem?_eq_getElem (Schema.getColumnIdx_lt hi))
    exact ⟨v, bind_eq_ok.mpr ⟨i, hi, hv⟩⟩
  all_goals cases h

theorem tupleLessAt_returns (hsize : schema.tupleSize < 2 ^ 32) (hitems : ∀ item ∈ items, Resolves schema item.expr)
    (ha : a.length = schema.tupleSize) (hb : b.length = schema.tupleSize) : ∃ r, tupleLessAt schema items a b = .ok r := by
  induction items with
  | nil => exact ⟨false, rfl⟩
  | cons item items ih =>
    obtain ⟨hitem, hrest⟩ := List.forall_mem_cons.mp hitems
    obtain ⟨v, hv⟩ := evalExpr_of_resolves hitem ha
    obtain ⟨w, hw⟩ := evalExpr_of_resolves hitem hb
    rw [← evalExprAt_eq hsize] at hv hw
    obtain ⟨r, hr⟩ := ih hrest
    have hround : tupleLessAt schema (item :: items) a b =
        if directed item.ascending v w then .ok true else if directed item.ascending w v then .ok false
        else tupleLessAt schema items a b :=
      tupleLessBy_cons hv hw (uniform_evalExprAt schema _ _ _ _ _ hv hw).typeId_eq
    rw [hround, hr]
    split
    · exact ⟨true, rfl⟩
    · split
      · exact ⟨false, rfl⟩
      · exact ⟨r, rfl⟩

/-- The comparator of `Sort` and `ParallelSort`, and its reverse on the heap, are strict weak
orders on all tuples, whatever the directions and the types of the items; two tuples are
incomparable exactly if every item has the same value on both. On the tuples of a schema
below 4 GiB the comparator returns, provided that the items resolve. -/
theorem strictWeak_tupleLess (schema : Schema) (items : List OrderByItem) :
    StrictWeak (tupleLessAt schema items) ∧ StrictWeak (MergeState.heapLess (tupleLessAt schema items)) ∧
      (∀ a b, Incomparable (tupleLessAt schema items) a b ↔ ∀ item ∈ items, ∃ v,
        evalExprAt item.expr a schema = .ok v ∧ evalExprAt item.expr b schema = .ok v) ∧
      (schema.tupleSize < 2 ^ 32 → tupleLessAt schema items = tupleLess schema items ∧
        ((∀ item ∈ items, Resolves schema item.expr) →
          (∀ a b : Tuple, a.length = schema.tupleSize → b.length = schema.tupleSize →
            ∃ r, tupleLess schema items a b = .ok r) ∧
          IsStrictWeakOrder { t : Tuple // t.length = schema.tupleSize } fun a b => tupleLess schema items a b = .ok true)) := by
  have hlex := lexicographic (uniform_evalExprAt schema)
  have hkey := keyOrder fun e t => evalExprAt e t schema
  have hweak : StrictWeak (tupleLessAt schema items) := hlex.strictWeak hkey items
  refine ⟨hweak, hweak.swap.on HeapEntry.tuple, hlex.incomparable_iff hkey items, fun hsize => ?_⟩
  have hsame := tupleLessAt_eq hsize items
  rw [hsame] at hweak
  refine ⟨hsame, fun hitems => ?_⟩
  have hreturns (a b : Tuple) (ha : a.length = schema.tupleSize) (hb : b.length = schema.tupleSize) :
      ∃ r, tupleLess schema items a b = .ok r := hsame ▸ tupleLessAt_returns hsize hitems ha hb
  exact ⟨hreturns, (hweak.on Subtype.val).isStrictWeakOrder fun a b => hreturns a b a.2 b.2⟩

theorem strictWeak_tupleLess_mixed :
    let schema : Schema := ⟨[⟨lit "a", .int⟩, ⟨lit "b", ⟨.varchar, 3⟩⟩]⟩
    let items : List OrderByItem := [⟨.columnRef [] (lit "b"), false⟩, ⟨.columnRef [] (lit "a"), true⟩]
    Incomparable (tupleLessAt schema items) [1, 0, 0, 0, 120, 0, 1] [1, 0, 0, 0, 120, 0, 2] ∧
      (∃ r, tupleLess schema items [1, 0, 0, 0, 120, 0, 1] [2, 0, 0, 0, 120, 0, 0] = .ok r) ∧
      tupleLess schema items [1, 0, 0, 0, 120, 0, 1] [2, 0, 0, 0, 120, 0, 0] = .ok true ∧
      tupleLess schema items [1, 0, 0, 0, 120, 0, 1] [1, 0, 0, 0, 121, 0, 0] = .ok false := by
  intro schema items
  obtain ⟨-, -, hincomp, hsized⟩ := strictWeak_tupleLess schema items
  refine ⟨(hincomp _ _).mpr ?_, ((hsized (by decide)).2 ?_).1 _ _ rfl rfl, by decide +kernel, by decide +kernel⟩
  · rw [List.forall_mem_cons, List.forall_mem_singleton]
    exact ⟨⟨.varchar [120] 3, by decide +kernel, by decide +kernel⟩, .int 1, by decide +kernel, by decide +kernel⟩
  · rw [List.forall_mem_cons, List.forall_mem_singleton]
    exact ⟨⟨1, by decide +kernel⟩, 0, by decide +kernel⟩

end tuples
end MyDB.Executor

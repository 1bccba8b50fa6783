import MyDB.Executor.Columns
import MyDB.Executor.Evaluation

/-! The order of `ORDER BY`: the comparator of `Sort` decides a strict weak order on
rows whose keys can be evaluated. -/

namespace MyDB.Executor
open MyDB.Parser MyDB.Lib

def valOf (e : Expr) (schema : Schema) (t : Tuple) : Value :=
  match evalExpr e t schema with
  | .ok v => v
  | .error _ => .int 0

/-- The expression can be evaluated on all tuples. -/
def Reads (e : Expr) (schema : Schema) (ts : List Tuple) : Prop := ∀ t ∈ ts, ∃ v, evalExpr e t schema = .ok v

def valueLess (v w : Value) : Prop := v.asInt < w.asInt ∨ ¬ w.asInt < v.asInt ∧ v.asVarchar < w.asVarchar

def itemLess (schema : Schema) (item : OrderByItem) (a b : Tuple) : Prop :=
  if item.ascending then valueLess (valOf item.expr schema a) (valOf item.expr schema b)
  else valueLess (valOf item.expr schema b) (valOf item.expr schema a)

/-- A row comes before another by the first item that tells them apart. -/
def rowLess (schema : Schema) : List OrderByItem → Tuple → Tuple → Prop
  | [], _, _ => False
  | item :: items, a, b => itemLess schema item a b ∨ ¬ itemLess schema item b a ∧ rowLess schema items a b

instance (v w : Value) : Decidable (valueLess v w) := inferInstanceAs (Decidable (_ ∨ _ ∧ _))

instance (schema : Schema) (item : OrderByItem) (a b : Tuple) : Decidable (itemLess schema item a b) :=
  inferInstanceAs (Decidable (if item.ascending then valueLess (valOf item.expr schema a) (valOf item.expr schema b)
    else valueLess (valOf item.expr schema b) (valOf item.expr schema a)))

instance decidableRowLess (schema : Schema) : (items : List OrderByItem) → DecidableRel (rowLess schema items)
  | [], _, _ => inferInstanceAs (Decidable False)
  | item :: items, a, b =>
    have := decidableRowLess schema items a b
    inferInstanceAs (Decidable (itemLess schema item a b ∨ ¬ itemLess schema item b a ∧ rowLess schema items a b))

def directed (ascending : Bool) (v w : Value) : Prop := if ascending then valueLess v w else valueLess w v

instance (ascending : Bool) (v w : Value) : Decidable (directed ascending v w) :=
  inferInstanceAs (Decidable (if ascending then valueLess v w else valueLess w v))

def tupleLessBy (eval : Expr → Tuple → Except Fault Value) : List OrderByItem → Tuple → Tuple → Except Fault Bool
  | [], _, _ => return false
  | item :: items, a, b => do
    let va ← eval item.expr a
    let vb ← eval item.expr b
    match va.typeId with
    | .int =>
      if va.asInt ≠ vb.asInt then
        return if item.ascending then va.asInt < vb.asInt else vb.asInt < va.asInt
      else tupleLessBy eval items a b
    | .varchar =>
      if va.asVarchar ≠ vb.asVarchar then
        return if item.ascending then va.asVarchar < vb.asVarchar else vb.asVarchar < va.asVarchar
      else tupleLessBy eval items a b

variable {schema : Schema} {item : OrderByItem} {items : List OrderByItem} {e : Expr} {a b t : Tuple} {v w : Value}
  {eval : Expr → Tuple → Except Fault Value}

theorem valOf_eq (h : evalExpr e t schema = .ok v) : valOf e schema t = v := by
  rw [valOf, h]

theorem valueLess_int {i j : Int} : valueLess (.int i) (.int j) ↔ i < j := by
  constructor
  · rintro (h | ⟨-, h⟩)
    · exact h
    · exact absurd h (List.not_lt_nil _)
  · exact Or.inl

theorem valueLess_varchar {s r : Str} {n m : Nat} : valueLess (.varchar s n) (.varchar r m) ↔ s < r := by
  constructor
  · rintro (h | ⟨-, h⟩)
    · exact absurd h (Int.lt_irrefl 0)
    · exact h
  · exact fun h => Or.inr ⟨Int.lt_irrefl 0, h⟩

theorem weakLess_value : WeakLess valueLess := (WeakLess.of_key Value.asInt).lex (WeakLess.of_key Value.asVarchar)

def itemLessBy (val : Expr → Tuple → Value) (item : OrderByItem) (a b : Tuple) : Prop :=
  if item.ascending then valueLess (val item.expr a) (val item.expr b) else valueLess (val item.expr b) (val item.expr a)

def rowLessBy (val : Expr → Tuple → Value) : List OrderByItem → Tuple → Tuple → Prop
  | [], _, _ => False
  | item :: items, a, b => itemLessBy val item a b ∨ ¬ itemLessBy val item b a ∧ rowLessBy val items a b

instance (val : Expr → Tuple → Value) (item : OrderByItem) (a b : Tuple) : Decidable (itemLessBy val item a b) :=
  inferInstanceAs (Decidable (directed item.ascending (val item.expr a) (val item.expr b)))

instance decidableRowLessBy (val : Expr → Tuple → Value) : (items : List OrderByItem) → DecidableRel (rowLessBy val items)
  | [], _, _ => inferInstanceAs (Decidable False)
  | item :: items, a, b =>
    have := decidableRowLessBy val items a b
    inferInstanceAs (Decidable (itemLessBy val item a b ∨ ¬ itemLessBy val item b a ∧ rowLessBy val items a b))

theorem rowLessBy_valOf (schema : Schema) (items : List OrderByItem) :
    rowLessBy (fun e t => valOf e schema t) items = rowLess schema items := by
  induction items with
  | nil => rfl
  | cons item items ih =>
    funext a b
    rw [rowLessBy, ih]
    rfl

theorem weakLess_directed (ascending : Bool) : WeakLess (directed ascending) := by
  unfold directed
  cases ascending with
  | true => exact weakLess_value
  | false => exact weakLess_value.swap

theorem weakLess_itemBy (val : Expr → Tuple → Value) (item : OrderByItem) : WeakLess (itemLessBy val item) :=
  (weakLess_directed item.ascending).on (val item.expr)

theorem weakLess_rowBy (val : Expr → Tuple → Value) (items : List OrderByItem) : WeakLess (rowLessBy val items) := by
  induction items with
  | nil => exact WeakLess.false
  | cons item items ih => exact (weakLess_itemBy val item).lex ih

theorem weakLess_item (schema : Schema) (item : OrderByItem) : WeakLess (itemLess schema item) :=
  weakLess_itemBy (fun e t => valOf e schema t) item

theorem weakLess_row (schema : Schema) (items : List OrderByItem) : WeakLess (rowLess schema items) := by
  rw [← rowLessBy_valOf]
  exact weakLess_rowBy _ items

/-- The key of an item can be evaluated on the rows, with one type. -/
def Sortable (schema : Schema) (items : List OrderByItem) (rows : List Tuple) : Prop :=
  ∀ item ∈ items, ∃ type, ∀ t ∈ rows, ∃ v, evalExpr item.expr t schema = .ok v ∧ v.typeId = type

section
variable {K : Type} [LE K] [LT K] [Std.IsLinearOrder K] [Std.LawfulOrderLT K] [DecidableLT K] [DecidableEq K]

theorem compare_eq (x y : K) (ascending : Bool) (rest : Except Fault Bool) :
    (if x ≠ y then .ok (if ascending then decide (x < y) else decide (y < x)) else rest) =
      if (if ascending then x < y else y < x) then .ok true
      else if (if ascending then y < x else x < y) then .ok false else rest := by
  by_cases heq : x = y
  · subst heq
    simp [Std.lt_irrefl]
  · rw [if_pos heq]
    by_cases hlt : x < y
    · have hgt : ¬ y < x := fun h => Std.lt_irrefl (Std.lt_trans hlt h)
      cases ascending <;> simp [hlt, hgt]
    · have hgt : y < x := by
        by_contra hgt
        exact heq (Std.le_antisymm (Std.not_lt.mp hgt) (Std.not_lt.mp hlt))
      cases ascending <;> simp [hlt, hgt]

end

theorem tupleLess_eq_by (schema : Schema) (items : List OrderByItem) :
    tupleLess schema items = tupleLessBy (fun e t => evalExpr e t schema) items := by
  induction items with
  | nil => rfl
  | cons item items ih =>
    funext a b
    rw [tupleLessBy, ← ih]
    rfl

theorem tupleLessBy_error {e : Fault} (h : tupleLessBy eval items a b = .error e) :
    ∃ item ∈ items, eval item.expr a = .error e ∨ eval item.expr b = .error e := by
  induction items with
  | nil => cases h
  | cons item items ih =>
    have hrest (h : tupleLessBy eval items a b = .error e) :
        ∃ item' ∈ item :: items, eval item'.expr a = .error e ∨ eval item'.expr b = .error e := by
      obtain ⟨item', hmem, herror⟩ := ih h
      exact ⟨item', List.mem_cons_of_mem _ hmem, herror⟩
    rw [tupleLessBy, bind_eq_error] at h
    rcases h with ha | ⟨v, -, h⟩
    · exact ⟨item, List.mem_cons_self, Or.inl ha⟩
    · rw [bind_eq_error] at h
      rcases h with hb | ⟨w, -, h⟩
      · exact ⟨item, List.mem_cons_self, Or.inr hb⟩
      · split at h
        · split at h
          · cases h
          · exact hrest h
        · split at h
          · cases h
          · exact hrest h

theorem isException_of_tupleLess (ha : a.length = schema.tupleSize) (hb : b.length = schema.tupleSize)
    {e : Fault} (h : tupleLess schema items a b = .error e) : e.IsException := by
  rw [tupleLess_eq_by] at h
  obtain ⟨item, -, hfail | hfail⟩ := tupleLessBy_error h
  · obtain ⟨msg, rfl⟩ := evalExpr_error_of_length ha hfail
    trivial
  · obtain ⟨msg, rfl⟩ := evalExpr_error_of_length hb hfail
    trivial

theorem sort_of_reads {sort : (Tuple → Tuple → Except Fault Bool) → List Tuple → Except Fault (List Tuple)}
    (hsort : SortSpec sort) {rows : List Tuple} (h : ∀ item ∈ items, Reads item.expr schema rows) :
    ∃ sorted, sort (tupleLess schema items) rows = .ok sorted := by
  cases hrun : sort (tupleLess schema items) rows with
  | ok sorted => exact ⟨sorted, rfl⟩
  | error e =>
    obtain ⟨a, ha, b, hb, hless⟩ := hsort.failsBy _ _ e hrun
    rw [tupleLess_eq_by] at hless
    obtain ⟨item, hitem, hfail | hfail⟩ := tupleLessBy_error hless
    · obtain ⟨v, hv⟩ := h item hitem a ha
      cases hv.symm.trans hfail
    · obtain ⟨v, hv⟩ := h item hitem b hb
      cases hv.symm.trans hfail

theorem tupleLessBy_cons (ha : eval item.expr a = .ok v) (hb : eval item.expr b = .ok w) (htype : v.typeId = w.typeId) :
    tupleLessBy eval (item :: items) a b =
      if directed item.ascending v w then .ok true else if directed item.ascending w v then .ok false
      else tupleLessBy eval items a b := by
  simp only [tupleLessBy, ha, hb, directed]
  cases v with
  | int i =>
    cases w with
    | int j =>
      simp only [valueLess_int]
      exact compare_eq i j item.ascending _
    | varchar r m => cases htype
  | varchar s n =>
    cases w with
    | int j => cases htype
    | varchar r m =>
      simp only [valueLess_varchar]
      exact compare_eq s r item.ascending _

theorem tupleLess_cons (ha : evalExpr item.expr a schema = .ok v) (hb : evalExpr item.expr b schema = .ok w)
    (htype : v.typeId = w.typeId) :
    tupleLess schema (item :: items) a b =
      if itemLess schema item a b then .ok true else if itemLess schema item b a then .ok false
      else tupleLess schema items a b := by
  have hab : itemLess schema item a b ↔ directed item.ascending v w := by
    rw [itemLess, valOf_eq ha, valOf_eq hb, directed]
  have hba : itemLess schema item b a ↔ directed item.ascending w v := by
    rw [itemLess, valOf_eq ha, valOf_eq hb, directed]
  simp only [tupleLess_eq_by, hab, hba]
  exact tupleLessBy_cons ha hb htype

theorem tupleLess_eq {rows : List Tuple} (h : Sortable schema items rows) (ha : a ∈ rows) (hb : b ∈ rows) :
    tupleLess schema items a b = .ok (decide (rowLess schema items a b)) := by
  induction items with
  | nil => rfl
  | cons item items ih =>
    obtain ⟨⟨type, hitem⟩, hitems⟩ := List.forall_mem_cons.mp h
    obtain ⟨v, hv, htv⟩ := hitem a ha
    obtain ⟨w, hw, htw⟩ := hitem b hb
    rw [tupleLess_cons hv hw (htv.trans htw.symm), ih hitems]
    by_cases hab : itemLess schema item a b
    · rw [if_pos hab, decide_eq_true]
      exact Or.inl hab
    · rw [if_neg hab]
      by_cases hba : itemLess schema item b a
      · rw [if_pos hba, decide_eq_false]
        rintro (h | ⟨h, -⟩)
        · exact hab h
        · exact h hba
      · rw [if_neg hba]
        congr 2
        apply propext
        exact ⟨fun h => Or.inr ⟨hba, h⟩, fun h => h.elim (fun h => absurd h hab) And.right⟩

theorem sort_rows {std : Std} (hstd : Operator.Lawful std) {rows : List Tuple} (h : Sortable schema items rows) :
    ∃ sorted, std.sort (tupleLess schema items) rows = .ok sorted ∧ sorted.Perm rows ∧
      sorted.Pairwise fun a b => ¬ rowLess schema items b a :=
  hstd.sort.sorted_of (weakLess_row schema items) fun _ ha _ hb => tupleLess_eq h ha hb

end MyDB.Executor

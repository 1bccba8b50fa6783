import MyDB.Executor.Aggregation
import MyDB.Executor.JoinKeys
import MyDB.Executor.SortOrder

/-! The rows of a join: the values of a concatenated tuple are those of its two parts,
and the pairs are those whose keys have the same text, which is not empty. -/

namespace MyDB
open Lib

theorem Value.deserialize_append {type : ColumnType} {src : List UInt8} (h : type.fixedSize ≤ src.length)
    (rest : List UInt8) : deserialize (src ++ rest) type = deserialize src type := by
  unfold deserialize
  unfold ColumnType.fixedSize at h
  cases htype : type.typeId with
  | int =>
    rw [htype] at h
    have hlen : 4 ≤ (src ++ rest).length := h.trans (by simp)
    dsimp only at h ⊢
    rw [if_pos h, if_pos hlen, List.take_append_of_le_length h]
  | varchar =>
    rw [htype] at h
    dsimp only at h ⊢
    have hcut : ((src.take type.maxLen).takeWhile (· ≠ 0)).length ≤ type.maxLen :=
      (List.takeWhile_sublist _).length_le.trans (List.length_take_le ..)
    rw [List.take_append_of_le_length h, if_neg, if_neg]
    · rintro ⟨heq, hlt⟩
      omega
    · rintro ⟨heq, hlt⟩
      rw [List.length_append] at heq
      omega

namespace Executor
open MyDB.Parser Operator

section values
variable {l r : Tuple} {ls rs : Schema} {i : Nat}

theorem getValue_append_left (hl : l.length = ls.tupleSize) (hi : i < ls.columns.length) :
    Tuple.getValue (l ++ r) (concatSchemas ls rs) i = l.getValue ls i := by
  have hcol : (concatSchemas ls rs).columns[i]? = ls.columns[i]? := List.getElem?_append_left hi
  have hoff : (concatSchemas ls rs).columnOffset i = ls.columnOffset i := by
    simp [Schema.columnOffset, concatSchemas, List.take_append_of_le_length hi.le]
  have hc : ls.columns[i]? = some ls.columns[i] := List.getElem?_eq_getElem hi
  have hle := Tuple.columnOffset_add_le hc
  unfold Tuple.getValue
  rw [hcol, hoff, hc]
  dsimp only
  rw [List.drop_append_of_le_length (by omega)]
  apply Value.deserialize_append
  rw [List.length_drop]
  omega

theorem getValue_append_right (hl : l.length = ls.tupleSize) :
    Tuple.getValue (l ++ r) (concatSchemas ls rs) (ls.columns.length + i) = r.getValue rs i := by
  have hcol : (concatSchemas ls rs).columns[ls.columns.length + i]? = rs.columns[i]? := by
    simp [concatSchemas, List.getElem?_append_right]
  have hoff : (concatSchemas ls rs).columnOffset (ls.columns.length + i) = l.length + rs.columnOffset i := by
    rw [Schema.columnOffset, concatSchemas, List.take_append, List.take_of_length_le (Nat.le_add_right _ _),
      Nat.add_sub_cancel_left, List.map_append, List.sum_append, hl]
    rfl
  unfold Tuple.getValue
  rw [hcol, hoff, List.drop_append, List.drop_eq_nil_of_le (Nat.le_add_right _ _), Nat.add_sub_cancel_left,
    List.nil_append]

theorem rowValues_getElem {t : Tuple} {schema : Schema} {vs : List Value} {v : Value} (h : rowValues schema t = .ok vs)
    (hi : i < schema.columns.length) (hv : t.getValue schema i = .ok v) : vs[i]? = some v := by
  obtain ⟨w, hw, hget⟩ := getElem?_of_forall₂ (mapM_eq_ok.mp h) (List.getElem?_range hi)
  cases hget.symm.trans hv
  exact hw

theorem length_rowValues {t : Tuple} {schema : Schema} {vs : List Value} (h : rowValues schema t = .ok vs) :
    vs.length = schema.columns.length := by
  rw [← (mapM_eq_ok.mp h).length_eq, List.length_range]

theorem rowValues_ok {t : Tuple} {schema : Schema} (ht : t.length = schema.tupleSize) :
    ∃ vs, rowValues schema t = .ok vs := by
  apply exists_mapM
  intro i hi
  have hlt : i < schema.columns.length := List.mem_range.mp hi
  obtain ⟨v, hv, -⟩ := Tuple.getValue_ok ht (List.getElem?_eq_getElem hlt)
  exact ⟨v, hv⟩

theorem rowValues_append {vs ws : List Value} (hl : l.length = ls.tupleSize) (hvs : rowValues ls l = .ok vs)
    (hws : rowValues rs r = .ok ws) : rowValues (concatSchemas ls rs) (l ++ r) = .ok (vs ++ ws) := by
  have hcount : (concatSchemas ls rs).columns.length = ls.columns.length + rs.columns.length := List.length_append
  unfold rowValues
  rw [hcount, List.range_add]
  apply mapM_append_eq_ok
  · rw [mapM_eq_ok]
    refine forall₂_imp_mem (mapM_eq_ok.mp hvs) fun i hi v _ hv => ?_
    rw [getValue_append_left hl (List.mem_range.mp hi), hv]
  · rw [mapM_eq_ok, List.forall₂_map_left_iff]
    refine (mapM_eq_ok.mp hws).imp fun i v hv => ?_
    rw [getValue_append_right hl, hv]

end values

/-! ## Keys as texts -/

def keyText (e : Expr) (schema : Schema) (t : Tuple) : Str := (valOf e schema t).toString

theorem evalExpr_valOf {e : Expr} {schema : Schema} {t : Tuple} {ts : List Tuple} (h : Reads e schema ts) (ht : t ∈ ts) :
    evalExpr e t schema = .ok (valOf e schema t) := by
  obtain ⟨v, hv⟩ := h t ht
  rw [valOf_eq hv, hv]

/-- The two keys of a join have the same text. -/
def Partners (ls rs : Schema) (leftKey rightKey : Expr) (l r : Tuple) : Prop :=
  keyText leftKey ls l = keyText rightKey rs r ∧ keyText rightKey rs r ≠ []

instance (ls rs : Schema) (leftKey rightKey : Expr) (l r : Tuple) : Decidable (Partners ls rs leftKey rightKey l r) :=
  inferInstanceAs (Decidable (_ ∧ _))

section join
variable {σ : Type} {env : Env σ} {s s₁ s₂ s' : σ} {left right : Operator} {leftKey rightKey : Expr}
  {lefts rights rows : List Tuple}

def partnerRows (ls rs : Schema) (leftKey rightKey : Expr) (lefts rights : List Tuple) : List Tuple :=
  rights.flatMap fun r => (lefts.filter fun l => Partners ls rs leftKey rightKey l r).map (· ++ r)

theorem matching_partners (ls rs : Schema) (leftKey rightKey : Expr) (lefts : List Tuple) (r : Tuple) :
    JoinState.matching (lefts.map fun t => (keyText leftKey ls t, t)) (keyText rightKey rs r) =
      lefts.filter fun l => Partners ls rs leftKey rightKey l r := by
  unfold JoinState.matching Partners
  by_cases hnil : keyText rightKey rs r = []
  · simp [hnil]
  · simp [hnil, List.filter_map, Function.comp_def]

theorem evaluates_hashJoin_partners (hstd : Lawful env.std) (hls : left.Evaluates env s lefts s₁)
    (hrs : right.Evaluates env s₁ rights s₂) (hl : ∀ l ∈ lefts, l.length = left.outputSchema.tupleSize)
    (hr : ∀ r ∈ rights, r.length = right.outputSchema.tupleSize) :
    (Operator.hashJoin left right leftKey rightKey).Evaluates env s rows s' ↔
      Reads leftKey left.outputSchema lefts ∧ Reads rightKey right.outputSchema rights ∧
        rows = partnerRows left.outputSchema right.outputSchema leftKey rightKey lefts rights ∧ s' = s₂ := by
  have hjoin (hlk : Reads leftKey left.outputSchema lefts) (hrk : Reads rightKey right.outputSchema rights) :
      (Operator.hashJoin left right leftKey rightKey).Evaluates env s
        (partnerRows left.outputSchema right.outputSchema leftKey rightKey lefts rights) s₂ := by
    rw [evaluates_hashJoin_iff hstd]
    refine ⟨lefts, s₁, rights, lefts.map fun t => (keyText leftKey left.outputSchema t, t), _, hls, hrs, ?_, ?_,
      List.flatMap_def⟩
    · apply mapM_of_ok
      intro t ht
      unfold keyed
      rw [evalExpr_valOf hlk ht]
      rfl
    · apply mapM_of_ok
      intro r hr'
      unfold JoinState.probeRow
      rw [evalExpr_valOf hrk hr']
      change (JoinState.matching _ (keyText rightKey right.outputSchema r)).mapM _ = _
      rw [matching_partners]
      apply mapM_of_ok
      intro l hl'
      exact concat_of_length (hl l (List.mem_of_mem_filter hl')) (hr r hr')
  constructor
  · intro h
    obtain ⟨ls', s₁', rs', table, parts, hls', hrs', htable, hparts, -⟩ := (evaluates_hashJoin_iff hstd).mp h
    obtain ⟨rfl, rfl⟩ := hls.unique hls'
    obtain ⟨rfl, rfl⟩ := hrs.unique hrs'
    have hlk : Reads leftKey left.outputSchema lefts := by
      intro t ht
      obtain ⟨_, -, hkey⟩ := ok_of_mapM htable ht
      obtain ⟨v, hv, -⟩ := bind_eq_ok.mp hkey
      exact ⟨v, hv⟩
    have hrk : Reads rightKey right.outputSchema rights := by
      intro t ht
      obtain ⟨_, -, hkey⟩ := ok_of_mapM hparts ht
      obtain ⟨v, hv, -⟩ := bind_eq_ok.mp hkey
      exact ⟨v, hv⟩
    exact ⟨hlk, hrk, (h.unique (hjoin hlk hrk)).1, rfl⟩
  · rintro ⟨hlk, hrk, rfl, rfl⟩
    exact hjoin hlk hrk

end join

end Executor
end MyDB

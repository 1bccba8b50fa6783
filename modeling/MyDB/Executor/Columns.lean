import MyDB.Common.TupleCodec
import MyDB.Executor.Eval

/-! Column references: the column that a name finds, and its value in a tuple. -/

namespace MyDB
open Lib

namespace Schema
variable {schema : Schema} {name : Str} {i : Nat} {c : Column}

theorem getColumnIdx_eq_ok : schema.getColumnIdx name = .ok i ↔
    schema.columns.findIdx? (·.name = name) = some i ∨
    schema.columns.findIdx? (·.name = name) = none ∧
      (afterDot name = none ∧ schema.unqualified name = [i] ∨
      ∃ unqual, afterDot name = some unqual ∧ schema.columns.findIdx? (·.name = unqual) = some i) := by
  unfold getColumnIdx
  cases schema.columns.findIdx? (·.name = name) with
  | some j => simp [pure, Except.pure]
  | none =>
    cases afterDot name with
    | none =>
      dsimp only
      split
      · next h => simp [h, throw, throwThe, MonadExceptOf.throw]
      · next h => simp [h, pure, Except.pure]
      · next hnil hone =>
        constructor
        · exact nofun
        · simpa using hone i
    | some unqual =>
      dsimp only
      cases hfind : schema.columns.findIdx? (·.name = unqual) with
      | some j => simp [hfind, pure, Except.pure]
      | none => simp [hfind, throw, throwThe, MonadExceptOf.throw]

theorem getColumnIdx_lt (h : schema.getColumnIdx name = .ok i) : i < schema.columns.length := by
  have hidx {p : Column → Bool} (hp : schema.columns.findIdx? p = some i) : i < schema.columns.length :=
    (List.findIdx?_eq_some_iff_getElem.mp hp).1
  rcases getColumnIdx_eq_ok.mp h with hfull | ⟨-, ⟨-, hone⟩ | ⟨unqual, -, hbare⟩⟩
  · exact hidx hfull
  · have hmem : i ∈ schema.unqualified name := by simp [hone]
    exact (List.mem_findIdxs_iff_exists_getElem_pos.mp hmem).1
  · exact hidx hbare

theorem getColumnIdx_of_nodup (hnames : (schema.columns.map (·.name)).Nodup) (hc : schema.columns[i]? = some c) :
    schema.getColumnIdx c.name = .ok i := by
  have hfind : schema.columns.findIdx? (·.name = c.name) = some i := by
    obtain ⟨hlt, rfl⟩ := List.getElem?_eq_some_iff.mp hc
    refine List.findIdx?_eq_some_iff_getElem.mpr ⟨hlt, decide_eq_true rfl, ?_⟩
    intro j hj heq
    have hne := List.nodup_iff_getElem?_ne_getElem?.mp hnames j i hj (by rwa [List.length_map])
    rw [List.getElem?_map, List.getElem?_map, List.getElem?_eq_getElem (hj.trans hlt), List.getElem?_eq_getElem hlt] at hne
    exact hne (congrArg some (of_decide_eq_true heq))
  rw [getColumnIdx, hfind]
  rfl

theorem getColumnIdx_error {f : Fault} (h : schema.getColumnIdx name = .error f) :
    ∃ msg, f = .runtimeError msg := by
  unfold getColumnIdx at h
  split at h
  · cases h
  · split at h
    · split at h
      · exact ⟨_, (Except.error.inj h).symm⟩
      · cases h
      · exact ⟨_, (Except.error.inj h).symm⟩
    · split at h
      · cases h
      · exact ⟨_, (Except.error.inj h).symm⟩

end Schema

theorem Tuple.getValue_error {t : Tuple} {schema : Schema} {i : Nat} {f : Fault} (h : t.getValue schema i = .error f) :
    f = .outOfBounds := by
  unfold Tuple.getValue at h
  split at h
  · unfold Value.deserialize at h
    split at h
    · split at h
      · cases h
      · exact (Except.error.inj h).symm
    · dsimp only at h
      split at h
      · exact (Except.error.inj h).symm
      · cases h
  · exact (Except.error.inj h).symm

namespace Executor
open MyDB.Parser
variable {schema : Schema} {i : Nat} {c : Column} {t : Tuple} {tableAlias colName : Str}

theorem evalExpr_columnRef (h : schema.getColumnIdx (columnKey tableAlias colName) = .ok i) :
    evalExpr (.columnRef tableAlias colName) t schema = t.getValue schema i := by
  rw [evalExpr, h]
  rfl

theorem evalExpr_column (ht : t.length = schema.tupleSize)
    (h : schema.getColumnIdx (columnKey tableAlias colName) = .ok i) (hc : schema.columns[i]? = some c) :
    ∃ v, evalExpr (.columnRef tableAlias colName) t schema = .ok v ∧ v.HasType c.type ∧ v.stored = v := by
  rw [evalExpr_columnRef h]
  exact Tuple.getValue_ok ht hc

theorem evalExpr_error {e : Expr} {f : Fault} (h : evalExpr e t schema = .error f) : f = .outOfBounds ∨ ∃ msg, f = .runtimeError msg := by
  unfold evalExpr at h
  split at h
  · cases h
  · cases h
  · rcases bind_eq_error.mp h with hname | ⟨i, -, hvalue⟩
    · exact Or.inr (Schema.getColumnIdx_error hname)
    · exact Or.inl (Tuple.getValue_error hvalue)
  · exact Or.inr ⟨_, (Except.error.inj h).symm⟩

theorem evalExpr_error_of_length {e : Expr} {f : Fault} (ht : t.length = schema.tupleSize)
    (h : evalExpr e t schema = .error f) : ∃ msg, f = .runtimeError msg := by
  unfold evalExpr at h
  split at h
  · cases h
  · cases h
  · rcases bind_eq_error.mp h with hname | ⟨i, hi, hvalue⟩
    · exact Schema.getColumnIdx_error hname
    · obtain ⟨v, hv, -⟩ := Tuple.getValue_ok ht (List.getElem?_eq_getElem (Schema.getColumnIdx_lt hi))
      cases hv.symm.trans hvalue
  · exact ⟨_, (Except.error.inj h).symm⟩

def columnRefs (schema : Schema) : List Expr := schema.columns.map fun c => .columnRef [] c.name

theorem mapM_columnRefs {vals : List Value} (hnames : (schema.columns.map (·.name)).Nodup) (h : schema.Typed vals) :
    (columnRefs schema).mapM (evalExpr · (Tuple.encode vals) schema) = .ok (vals.map Value.stored) := by
  rw [mapM_eq_ok, columnRefs, List.forall₂_map_left_iff, List.forall₂_map_right_iff, List.forall₂_iff_get]
  refine ⟨h.length_eq.symm, ?_⟩
  intro j hj hj'
  have hcol : schema.columns[j]? = some (schema.columns.get ⟨j, hj⟩) := List.getElem?_eq_getElem hj
  rw [evalExpr_columnRef (i := j) (Schema.getColumnIdx_of_nodup hnames hcol)]
  exact Tuple.getValue_encode h (List.getElem?_eq_getElem hj')

end Executor
end MyDB

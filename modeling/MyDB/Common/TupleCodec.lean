import MyDB.Common.Types
import MyDB.Lib.Fallible

/-! Values that are written to a tuple and read back. A `VARCHAR` comes back cut to
the length of its column and at its first NUL. -/

namespace MyDB
open Lib

theorem takeWhile_append_zeros (s : Str) (k : Nat) :
    (s ++ List.replicate k 0).takeWhile (· ≠ 0) = s.takeWhile (· ≠ 0) := by
  have hzeros : (List.replicate k (0 : UInt8)).takeWhile (· ≠ 0) = [] := by
    cases k with
    | zero => rfl
    | succ k => rfl
  rw [List.takeWhile_append, hzeros, List.append_nil]
  split
  case isTrue h => exact ((List.takeWhile_sublist _).eq_of_length h).symm
  case isFalse => rfl

namespace Value

def stored : Value → Value
  | .int v => .int v
  | .varchar s maxLen => .varchar ((s.take maxLen).takeWhile (· ≠ 0)) maxLen

/-- A value of a column: an `int32_t`, or a string with the column's length. -/
def HasType (type : ColumnType) : Value → Prop
  | .int v => type.typeId = .int ∧ -2 ^ 31 ≤ v ∧ v < 2 ^ 31
  | .varchar _ maxLen => type.typeId = .varchar ∧ maxLen = type.maxLen

variable {v : Value} {type : ColumnType}

theorem HasType.typeId_eq (h : v.HasType type) : v.typeId = type.typeId := by
  cases v with
  | int i => exact h.1.symm
  | varchar s n => exact h.1.symm

theorem length_serialize (h : v.HasType type) : v.serialize.length = type.fixedSize := by
  cases v with
  | int i =>
    rw [serialize, length_toLE, ColumnType.fixedSize, h.1]
  | varchar s n =>
    rw [serialize, List.length_append, List.length_take, List.length_replicate, ColumnType.fixedSize, h.1, h.2]
    show min type.maxLen s.length + (type.maxLen - s.length) = type.maxLen
    omega

theorem stored_stored (v : Value) : v.stored.stored = v.stored := by
  cases v with
  | int i => rfl
  | varchar s n =>
    have hle : ((s.take n).takeWhile (· ≠ 0)).length ≤ n :=
      (List.takeWhile_sublist _).length_le.trans (List.length_take_le ..)
    rw [stored, stored, List.take_of_length_le hle, List.takeWhile_idem]

theorem serialize_bmod (i : Int) : (Value.int (Int.bmod i (2 ^ 32))).serialize = (Value.int i).serialize := by
  rw [serialize, serialize]
  have hmod : Int.bmod i (2 ^ 32) % 2 ^ 32 = i % 2 ^ 32 := by
    rw [Int.bmod_def]
    omega
  rw [hmod]

theorem deserialize_serialize (h : v.HasType type) (rest : List UInt8) :
    deserialize (v.serialize ++ rest) type = .ok v.stored := by
  have hlen := length_serialize h
  cases v with
  | int i =>
    obtain ⟨htype, hlo, hhi⟩ := h
    have hfour : (serialize (.int i)).length = 4 := length_toLE ..
    rw [deserialize, htype]
    dsimp only
    rw [if_pos (by rw [List.length_append, hfour]; omega), List.take_left' hfour, serialize, ofLE_toLE]
    have hbmod : Int.bmod (((i % 2 ^ 32).toNat % 256 ^ 4 : Nat) : Int) (2 ^ 32) = i := by
      rw [Int.bmod_def]
      omega
    rw [hbmod]
    rfl
  | varchar s n =>
    obtain ⟨htype, rfl⟩ := h
    rw [ColumnType.fixedSize, htype] at hlen
    have hread : ((serialize (.varchar s type.maxLen) ++ rest).take type.maxLen).takeWhile (· ≠ 0) =
        (s.take type.maxLen).takeWhile (· ≠ 0) := by
      rw [List.take_left' hlen, serialize, takeWhile_append_zeros]
    rw [deserialize, htype]
    dsimp only
    rw [hread, if_neg]
    · rfl
    · rintro ⟨heq, hlt⟩
      rw [heq, List.length_append, hlen] at hlt
      exact absurd hlt (Nat.not_lt.mpr (Nat.le_add_right ..))

theorem deserialize_ok {src : List UInt8} (h : type.fixedSize ≤ src.length) :
    ∃ v, deserialize src type = .ok v ∧ v.HasType type ∧ v.stored = v := by
  rw [deserialize]
  cases htype : type.typeId with
  | int =>
    rw [ColumnType.fixedSize, htype] at h
    refine ⟨_, if_pos h, ⟨htype, ?_, ?_⟩, rfl⟩
    · exact Int.le_bmod (by decide)
    · exact Int.bmod_lt (by decide)
  | varchar =>
    rw [ColumnType.fixedSize, htype] at h
    dsimp only
    have hle : ((src.take type.maxLen).takeWhile (· ≠ 0)).length ≤ type.maxLen :=
      (List.takeWhile_sublist _).length_le.trans (List.length_take_le ..)
    refine ⟨_, if_neg ?_, ⟨htype, rfl⟩, ?_⟩
    · rintro ⟨heq, hlt⟩
      rw [heq] at hlt
      exact absurd h (Nat.not_le.mpr hlt)
    · rw [stored, List.take_of_length_le hle, List.takeWhile_idem]

end Value

def Schema.Typed (schema : Schema) (vals : List Value) : Prop :=
  List.Forall₂ (fun v c => v.HasType c.type) vals schema.columns

def Schema.Fits (schema : Schema) (vals : List Value) : Prop :=
  List.Forall₂ (fun v c => v.serialize.length = c.type.fixedSize) vals schema.columns

theorem Schema.Typed.fits {schema : Schema} {vals : List Value} (h : schema.Typed vals) : schema.Fits vals :=
  List.Forall₂.imp (fun _ _ hv => Value.length_serialize hv) h

theorem Schema.Typed.congr {a b : Schema} {vals : List Value} (h : a.Typed vals)
    (htypes : b.columns.map (·.type) = a.columns.map (·.type)) : b.Typed vals := by
  have hcols : List.Forall₂ (fun v type => Value.HasType type v) vals (b.columns.map (·.type)) := by
    rw [htypes]
    exact List.forall₂_map_right_iff.mpr h
  exact List.forall₂_map_right_iff.mp hcols

theorem Schema.Fits.congr {schema : Schema} {vals ws : List Value} (hf : schema.Fits vals)
    (h : vals.map Value.serialize = ws.map Value.serialize) : schema.Fits ws := by
  have hbytes : List.Forall₂ (fun b c => List.length b = c.type.fixedSize) (vals.map Value.serialize) schema.columns :=
    List.forall₂_map_left_iff.mpr hf
  rw [h] at hbytes
  exact List.forall₂_map_left_iff.mp hbytes

namespace Tuple
variable {schema : Schema} {vals : List Value} {v : Value} {i : Nat}

def encode (vals : List Value) : Tuple := vals.flatMap Value.serialize

theorem encode_congr {ws : List Value} (h : vals.map Value.serialize = ws.map Value.serialize) :
    encode vals = encode ws := by
  rw [encode, encode, List.flatMap_def, List.flatMap_def, h]

theorem encode_cons (v : Value) (vals : List Value) : encode (v :: vals) = v.serialize ++ encode vals :=
  List.flatMap_cons

theorem encode_append (l r : List Value) : encode (l ++ r) = encode l ++ encode r := List.flatMap_append

theorem length_encode {cols : List Column}
    (h : List.Forall₂ (fun v c => v.serialize.length = c.type.fixedSize) vals cols) :
    (encode vals).length = (cols.map (·.type.fixedSize)).sum := by
  induction h with
  | nil => rfl
  | cons hv _ ih => rw [encode_cons, List.length_append, hv, List.map_cons, List.sum_cons, ih]

theorem write_eq (pre : List Column) {cols : List Column} (done : List UInt8) (hschema : schema.columns = pre ++ cols)
    (hdone : done.length = (pre.map (·.type.fixedSize)).sum)
    (h : List.Forall₂ (fun v c => v.serialize.length = c.type.fixedSize) vals cols) :
    write schema pre.length vals (done ++ List.replicate (cols.map (·.type.fixedSize)).sum 0) =
      .ok (done ++ encode vals) := by
  induction h generalizing pre done with
  | nil => rfl
  | @cons v c vals cols hser _ ih =>
    have hoff : schema.columnOffset pre.length = done.length := by
      rw [Schema.columnOffset, hschema, List.take_left', hdone]
      rfl
    rw [write, hoff, if_pos]
    · have hsplice : splice (done ++ List.replicate (((c :: cols).map (·.type.fixedSize)).sum) 0) done.length
          v.serialize = (done ++ v.serialize) ++ List.replicate (cols.map (·.type.fixedSize)).sum 0 := by
        rw [splice, List.take_left' rfl, hser, List.drop_append, List.drop_eq_nil_of_le (Nat.le_add_right ..),
          Nat.add_sub_cancel_left, List.drop_replicate, List.map_cons, List.sum_cons, Nat.add_sub_cancel_left,
          List.nil_append]
      rw [hsplice]
      have hrest := ih (pre ++ [c]) (done ++ v.serialize) (by rw [hschema, List.append_assoc]; rfl)
        (by rw [List.length_append, hdone, hser, List.map_append, List.sum_append]; rfl)
      rw [List.length_append, List.length_singleton] at hrest
      rw [hrest, encode_cons, List.append_assoc]
    · constructor
      · rw [hschema, List.length_append, List.length_cons]
        omega
      · rw [List.length_append, List.length_replicate, hser, List.map_cons, List.sum_cons]
        omega

theorem ofValues_ok (h : schema.Fits vals) : ofValues vals schema = .ok (encode vals) :=
  write_eq [] [] rfl rfl h

theorem length_encode_fits (h : schema.Fits vals) : (encode vals).length = schema.tupleSize := length_encode h

theorem getValue_encode (h : schema.Typed vals) (hi : vals[i]? = some v) :
    (encode vals).getValue schema i = .ok v.stored := by
  have hoff : schema.columnOffset i = (encode (vals.take i)).length :=
    (length_encode (List.forall₂_take i h.fits)).symm
  have hdrop : vals.drop i = v :: vals.drop (i + 1) := by
    obtain ⟨hlt, rfl⟩ := List.getElem?_eq_some_iff.mp hi
    exact List.drop_eq_getElem_cons hlt
  have htyped := List.forall₂_drop i h
  rw [hdrop] at htyped
  obtain ⟨c, cols, hv, -, hcols⟩ := List.forall₂_cons_left_iff.mp htyped
  have hc : schema.columns[i]? = some c := by rw [← List.head?_drop, hcols, List.head?_cons]
  have hbytes : (encode vals).drop (schema.columnOffset i) = v.serialize ++ encode (vals.drop (i + 1)) := by
    rw [hoff, ← encode_cons, ← hdrop]
    nth_rewrite 2 [← List.take_append_drop i vals]
    rw [encode_append, List.drop_left' rfl]
  rw [getValue, hc]
  dsimp only
  rw [hbytes, Value.deserialize_serialize hv]

theorem getValue_congr {a b : Schema} (h : a.columns.map (·.type) = b.columns.map (·.type)) (t : Tuple) (i : Nat) :
    t.getValue a i = t.getValue b i := by
  have hoffset (schema : Schema) : schema.columnOffset i = (((schema.columns.map (·.type)).take i).map (·.fixedSize)).sum := by
    rw [← List.map_take, List.map_map]
    rfl
  have htype : a.columns[i]?.map (·.type) = b.columns[i]?.map (·.type) := by
    rw [← List.getElem?_map, ← List.getElem?_map, h]
  unfold getValue
  rw [hoffset a, hoffset b, h]
  cases ha : a.columns[i]? with
  | none =>
    rw [ha] at htype
    rw [Option.map_eq_none_iff.mp htype.symm]
  | some c =>
    rw [ha] at htype
    obtain ⟨c', hc', hct⟩ := Option.map_eq_some_iff.mp htype.symm
    rw [hc']
    dsimp only
    rw [hct]

theorem columnOffset_add_le {c : Column} (hc : schema.columns[i]? = some c) :
    schema.columnOffset i + c.type.fixedSize ≤ schema.tupleSize := by
  obtain ⟨hlt, rfl⟩ := List.getElem?_eq_some_iff.mp hc
  have hsplit : schema.tupleSize = schema.columnOffset i +
      ((schema.columns.drop i).map (·.type.fixedSize)).sum := by
    rw [Schema.columnOffset, ← List.sum_append, ← List.map_append, List.take_append_drop]
    rfl
  rw [hsplit, List.drop_eq_getElem_cons hlt, List.map_cons, List.sum_cons, ← Nat.add_assoc]
  exact Nat.le_add_right ..

theorem getValue_ok {t : Tuple} {c : Column} (ht : t.length = schema.tupleSize) (hc : schema.columns[i]? = some c) :
    ∃ v, t.getValue schema i = .ok v ∧ v.HasType c.type ∧ v.stored = v := by
  rw [getValue, hc]
  apply Value.deserialize_ok
  have hle := columnOffset_add_le hc
  rw [List.length_drop, ht]
  exact Nat.le_sub_of_add_le' hle

end Tuple
end MyDB

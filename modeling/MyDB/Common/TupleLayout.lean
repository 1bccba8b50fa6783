import MyDB.Common.TupleCodec

/-! The layout of a tuple in 32-bit offsets, with the writes of `SerializeTo` one by one.
For schemas below 4 GiB it is the layout of `Tuple.ofValues` and `Tuple.getValue`, and
no column of a tuple reads the bytes of another. -/

namespace MyDB
open Lib

/-! ## Offsets -/

namespace Schema
variable {schema : Schema} {cols : List Column} {off i : Nat}

/-- The loop of the constructor from `off` on, which fills `offsets_` and `tuple_size_`. -/
def layout : Nat → List Column → List Nat × Nat
  | off, [] => ([], off)
  | off, c :: cols =>
    let rest := layout ((off + c.type.fixedSize) % 2 ^ 32) cols
    (off :: rest.1, rest.2)

def getColumnOffset (schema : Schema) (i : Nat) : Except Fault Nat :=
  match (layout 0 schema.columns).1[i]? with
  | some off => return off
  | none => throw .outOfBounds

theorem layout_size (h : off < 2 ^ 32) :
    (layout off cols).2 = (off + (cols.map (·.type.fixedSize)).sum) % 2 ^ 32 := by
  induction cols generalizing off with
  | nil => exact (Nat.mod_eq_of_lt h).symm
  | cons c cols ih =>
    have hnext := ih (Nat.mod_lt (off + c.type.fixedSize) (Nat.two_pow_pos 32))
    rw [Nat.mod_add_mod, Nat.add_assoc] at hnext
    exact hnext

theorem layout_offset (h : off < 2 ^ 32) : (layout off cols).1[i]? =
    if i < cols.length then some ((off + ((cols.take i).map (·.type.fixedSize)).sum) % 2 ^ 32) else none := by
  induction cols generalizing off i with
  | nil => rfl
  | cons c cols ih =>
    cases i with
    | zero =>
      show some off = some (off % 2 ^ 32)
      rw [Nat.mod_eq_of_lt h]
    | succ i =>
      have hnext := ih (i := i) (Nat.mod_lt (off + c.type.fixedSize) (Nat.two_pow_pos 32))
      rw [Nat.mod_add_mod, Nat.add_assoc] at hnext
      simpa [layout] using hnext

theorem layout_getTupleSize (schema : Schema) : (layout 0 schema.columns).2 = schema.getTupleSize := by
  rw [layout_size (Nat.two_pow_pos 32), Nat.zero_add]
  rfl

theorem columnOffset_le (schema : Schema) (i : Nat) : schema.columnOffset i ≤ schema.tupleSize := by
  unfold columnOffset tupleSize
  exact (((List.take_sublist i schema.columns).map _).sum_le_sum fun _ _ => Nat.zero_le _)

theorem getColumnOffset_eq (hsize : schema.tupleSize < 2 ^ 32) (i : Nat) : schema.getColumnOffset i =
    if i < schema.columns.length then .ok (schema.columnOffset i) else .error .outOfBounds := by
  have hmod : schema.columnOffset i % 2 ^ 32 = schema.columnOffset i :=
    Nat.mod_eq_of_lt ((columnOffset_le schema i).trans_lt hsize)
  unfold getColumnOffset
  rw [layout_offset (Nat.two_pow_pos 32), Nat.zero_add]
  by_cases hi : i < schema.columns.length
  · rw [if_pos hi, if_pos hi]
    exact congrArg Except.ok hmod
  · rw [if_neg hi, if_neg hi]
    rfl

end Schema

/-! ## Writes -/

/-- `memcpy` to the position `dst` of a buffer. -/
def memcpy (data : Tuple) (dst : Nat) (src : List UInt8) : Except Fault Tuple :=
  if dst + src.length ≤ data.length then return splice data dst src else throw .outOfBounds

def Value.serializeTo (data : Tuple) (dst : Nat) : Value → Except Fault Tuple
  | .int v => memcpy data dst (toLE 4 (v % 2 ^ 32).toNat)
  | .varchar s maxLen => do
    -- the `memset`
    let data ← memcpy data dst (List.replicate maxLen 0)
    memcpy data dst (s.take maxLen)

theorem Value.serializeTo_eq (v : Value) (data : Tuple) (dst : Nat) :
    v.serializeTo data dst = memcpy data dst v.serialize := by
  cases v with
  | int i => rfl
  | varchar s maxLen =>
    have htyped : HasType ⟨.varchar, maxLen⟩ (.varchar s maxLen) := ⟨rfl, rfl⟩
    have hlen : (serialize (.varchar s maxLen)).length = maxLen := length_serialize htyped
    have hzeros : (List.replicate maxLen (0 : UInt8)).length = maxLen := List.length_replicate
    have htake : (s.take maxLen).length ≤ maxLen := List.length_take_le ..
    show (do memcpy (← memcpy data dst (List.replicate maxLen 0)) dst (s.take maxLen)) = _
    by_cases hdst : dst + maxLen ≤ data.length
    · have hin : dst + (List.replicate maxLen (0 : UInt8)).length ≤ data.length := by rwa [hzeros]
      have hbytes : s.take maxLen ++ (List.replicate maxLen 0).drop (s.take maxLen).length =
          serialize (.varchar s maxLen) := by
        have hrest : maxLen - min maxLen s.length = maxLen - s.length := by omega
        rw [serialize, List.drop_replicate, List.length_take, hrest]
      unfold memcpy
      rw [hlen, if_pos hdst, if_pos hin]
      show (if _ then _ else _) = _
      rw [length_splice hin, if_pos (by omega), splice_splice_of_le hin (by rwa [hzeros]), hbytes]
    · unfold memcpy
      rw [hlen, hzeros, if_neg hdst, if_neg hdst]
      rfl

theorem Value.deserialize_take {type : ColumnType} {src : List UInt8} (h : type.fixedSize ≤ src.length) :
    deserialize (src.take type.fixedSize) type = deserialize src type := by
  unfold deserialize
  unfold ColumnType.fixedSize at h ⊢
  cases htype : type.typeId with
  | int =>
    rw [htype] at h
    have hlen : (src.take 4).length = 4 := List.length_take_of_le h
    simp only [hlen, List.take_take, Nat.min_self, h, le_refl, if_true]
  | varchar =>
    rw [htype] at h
    have hlen : (src.take type.maxLen).length = type.maxLen := List.length_take_of_le h
    have hin (n : Nat) (hn : type.maxLen ≤ n) (k : Nat) : ¬ (k = n ∧ k < type.maxLen) := by omega
    simp only [List.take_take, Nat.min_self]
    rw [if_neg (hin _ hlen.ge _), if_neg (hin _ h _)]

namespace Tuple
variable {schema : Schema} {vals : List Value} {t : Tuple} {i j : Nat}

/-- The loop of the constructor, from column `i` on. -/
def fill (schema : Schema) : Nat → List Value → Tuple → Except Fault Tuple
  | _, [], data => return data
  | i, v :: vs, data => do
    let off ← schema.getColumnOffset i
    fill schema (i + 1) vs (← v.serializeTo data off)

/-- The constructor from values, at the offsets of the schema. -/
def construct (values : List Value) (schema : Schema) : Except Fault Tuple :=
  fill schema 0 values (List.replicate (Schema.layout 0 schema.columns).2 0)

/-- `GetValue`, at the offset of the schema. -/
def valueAt (t : Tuple) (schema : Schema) (i : Nat) : Except Fault Value := do
  let off ← schema.getColumnOffset i
  match schema.columns[i]? with
  | some c => Value.deserialize (t.drop off) c.type
  | none => throw .outOfBounds

theorem fill_eq_write (hsize : schema.tupleSize < 2 ^ 32) (i : Nat) (data : Tuple) :
    fill schema i vals data = write schema i vals data := by
  induction vals generalizing i data with
  | nil => rfl
  | cons v vals ih =>
    rw [fill, write, Schema.getColumnOffset_eq hsize]
    by_cases hi : i < schema.columns.length
    · rw [if_pos hi]
      show (do fill schema (i + 1) vals (← v.serializeTo data (schema.columnOffset i))) = _
      rw [v.serializeTo_eq, memcpy]
      by_cases hdst : schema.columnOffset i + v.serialize.length ≤ data.length
      · rw [if_pos hdst, if_pos ⟨hi, hdst⟩]
        exact ih _ _
      · rw [if_neg hdst, if_neg fun h => hdst h.2]
        rfl
    · rw [if_neg hi, if_neg fun h => hi h.1]
      rfl

theorem construct_eq (hsize : schema.tupleSize < 2 ^ 32) (vals : List Value) :
    construct vals schema = ofValues vals schema := by
  unfold construct ofValues
  rw [fill_eq_write hsize, Schema.layout_getTupleSize, Schema.getTupleSize_of_lt hsize]

theorem valueAt_eq (hsize : schema.tupleSize < 2 ^ 32) (t : Tuple) (i : Nat) :
    t.valueAt schema i = t.getValue schema i := by
  unfold valueAt getValue
  rw [Schema.getColumnOffset_eq hsize]
  by_cases hi : i < schema.columns.length
  · rw [if_pos hi]
    rfl
  · rw [if_neg hi, List.getElem?_eq_none (Nat.le_of_not_lt hi)]
    rfl

/-! ## What a column reads -/

theorem getValue_eq_slice {c : Column} (ht : t.length = schema.tupleSize) (hc : schema.columns[i]? = some c) :
    t.getValue schema i = Value.deserialize (slice t (schema.columnOffset i) c.type.fixedSize) c.type := by
  have hle := columnOffset_add_le hc
  unfold getValue slice
  rw [hc, Value.deserialize_take]
  rw [List.length_drop, ht]
  exact Nat.le_sub_of_add_le' hle

theorem columnOffset_add_le_of_lt {c : Column} (hc : schema.columns[i]? = some c) (hij : i < j) :
    schema.columnOffset i + c.type.fixedSize ≤ schema.columnOffset j := by
  have hc' : (⟨schema.columns.take j⟩ : Schema).columns[i]? = some c := by
    rw [← hc]
    exact List.getElem?_take_of_lt hij
  have hle := columnOffset_add_le hc'
  unfold Schema.columnOffset at hle ⊢
  rw [List.take_take, Nat.min_eq_left hij.le] at hle
  exact hle

theorem getValue_splice {c c' : Column} {bytes : List UInt8} (ht : t.length = schema.tupleSize)
    (hc : schema.columns[i]? = some c) (hc' : schema.columns[j]? = some c') (hij : i ≠ j)
    (hbytes : bytes.length = c'.type.fixedSize) :
    getValue (splice t (schema.columnOffset j) bytes) schema i = t.getValue schema i := by
  have hin : schema.columnOffset j + bytes.length ≤ t.length := by
    rw [hbytes, ht]
    exact columnOffset_add_le hc'
  have hdisjoint : schema.columnOffset i + c.type.fixedSize ≤ schema.columnOffset j ∨
      schema.columnOffset j + bytes.length ≤ schema.columnOffset i := by
    rw [hbytes]
    exact (Nat.lt_or_gt_of_ne hij).imp (columnOffset_add_le_of_lt hc) (columnOffset_add_le_of_lt hc')
  rw [getValue_eq_slice ht hc, getValue_eq_slice ((length_splice hin).trans ht) hc, slice_splice_of_disjoint hin hdisjoint]

/-- For every schema below 4 GiB, a tuple of values of its types is written within its
buffer, an `INT` is read back as it was, a `VARCHAR` cut to the length of its column and
at its first NUL, and a column reads its own bytes only. -/
theorem valueAt_construct (hsize : schema.tupleSize < 2 ^ 32) (h : schema.Typed vals) :
    ∃ t, construct vals schema = .ok t ∧ t.length = (Schema.layout 0 schema.columns).2 ∧
      (∀ i v, vals[i]? = some (.int v) → t.valueAt schema i = .ok (.int v)) ∧
      (∀ i s maxLen, vals[i]? = some (.varchar s maxLen) →
        t.valueAt schema i = .ok (.varchar ((s.take maxLen).takeWhile (· ≠ 0)) maxLen) ∧
        (s.length ≤ maxLen → 0 ∉ s → t.valueAt schema i = .ok (.varchar s maxLen))) ∧
      ∀ i j c off bytes, i < vals.length → i ≠ j → schema.columns[j]? = some c → schema.getColumnOffset j = .ok off →
        bytes.length = c.type.fixedSize → valueAt (splice t off bytes) schema i = t.valueAt schema i := by
  have hread {i : Nat} {v : Value} (hi : vals[i]? = some v) : (encode vals).valueAt schema i = .ok v.stored := by
    rw [valueAt_eq hsize, getValue_encode h hi]
  have hlen := length_encode_fits h.fits
  refine ⟨encode vals, ?_, ?_, fun i v hi => hread hi, fun i s maxLen hi => ⟨hread hi, fun hs hnul => ?_⟩, ?_⟩
  · rw [construct_eq hsize, ofValues_ok h.fits]
  · rw [hlen, Schema.layout_getTupleSize, Schema.getTupleSize_of_lt hsize]
  · have hself : (s.take maxLen).takeWhile (· ≠ 0) = s := by
      rw [List.take_of_length_le hs, List.takeWhile_eq_self_iff]
      simpa using fun c hc => ne_of_mem_of_not_mem hc hnul
    rw [hread hi, Value.stored, hself]
  · intro i j c off bytes hi hij hc hoff hbytes
    rw [Schema.getColumnOffset_eq hsize, if_pos (List.getElem?_eq_some_iff.mp hc).1] at hoff
    cases hoff
    have hcol : i < schema.columns.length := (List.Forall₂.length_eq h) ▸ hi
    rw [valueAt_eq hsize, valueAt_eq hsize]
    exact getValue_splice hlen (List.getElem?_eq_getElem hcol) hc hij hbytes

theorem valueAt_construct_mixed :
    let schema : Schema := ⟨[⟨lit "a", ⟨.varchar, 2⟩⟩, ⟨lit "b", .int⟩, ⟨lit "c", ⟨.varchar, 0⟩⟩, ⟨lit "d", ⟨.varchar, 3⟩⟩]⟩
    let vals : List Value := [.varchar (lit "xyz") 2, .int (-1), .varchar (lit "x") 0, .varchar [65, 0, 66] 3]
    ∃ t, construct vals schema = .ok t ∧ t.valueAt schema 0 = .ok (.varchar (lit "xy") 2) ∧
      t.valueAt schema 1 = .ok (.int (-1)) ∧ t.valueAt schema 2 = .ok (.varchar [] 0) ∧
      t.valueAt schema 3 = .ok (.varchar [65] 3) := by
  intro schema vals
  have htyped : schema.Typed vals :=
    .cons ⟨rfl, rfl⟩ (.cons ⟨rfl, by decide, by decide⟩ (.cons ⟨rfl, rfl⟩ (.cons ⟨rfl, rfl⟩ .nil)))
  obtain ⟨t, ht, -, hint, hvarchar, -⟩ := valueAt_construct (by decide) htyped
  exact ⟨t, ht, (hvarchar 0 _ _ rfl).1, hint 1 _ rfl, (hvarchar 2 _ _ rfl).1, (hvarchar 3 _ _ rfl).1⟩

end Tuple
end MyDB

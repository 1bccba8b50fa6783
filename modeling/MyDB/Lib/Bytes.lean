import Mathlib

/-! Buffers as lists: reading a slice, writing over one, and numbers in
little-endian bytes. -/

namespace MyDB.Lib
variable {α : Type}

def slice (d : List α) (off len : Nat) : List α := (d.drop off).take len

/-- `d` with `b` written at `off`. -/
def splice (d : List α) (off : Nat) (b : List α) : List α := d.take off ++ b ++ d.drop (off + b.length)

variable {d b : List α} {off off' len : Nat}

theorem length_splice (h : off + b.length ≤ d.length) : (splice d off b).length = d.length := by
  rw [splice, List.length_append, List.length_append, List.length_take, List.length_drop]
  omega

theorem getElem?_splice (h : off + b.length ≤ d.length) (i : Nat) :
    (splice d off b)[i]? = if off ≤ i ∧ i < off + b.length then b[i - off]? else d[i]? := by
  have htake : (d.take off).length = off := List.length_take_of_le (by omega)
  rw [splice, List.append_assoc]
  by_cases h1 : i < off
  · rw [List.getElem?_append_left (by omega), if_neg (by omega), List.getElem?_take_of_lt h1]
  · rw [List.getElem?_append_right (by omega), htake]
    by_cases h2 : i < off + b.length
    · rw [List.getElem?_append_left (by omega), if_pos (by omega)]
    · rw [List.getElem?_append_right (by omega), if_neg (by omega), List.getElem?_drop]
      congr 1
      omega

theorem getElem?_slice (d : List α) (off len i : Nat) :
    (slice d off len)[i]? = if i < len then d[off + i]? else none := by
  rw [slice, List.getElem?_take, List.getElem?_drop]

theorem slice_splice_self (h : off + b.length ≤ d.length) : slice (splice d off b) off b.length = b := by
  apply List.ext_getElem?
  intro i
  rw [getElem?_slice, getElem?_splice h]
  by_cases hi : i < b.length
  · rw [if_pos hi, if_pos (by omega), Nat.add_sub_cancel_left]
  · rw [if_neg hi, List.getElem?_eq_none (Nat.le_of_not_lt hi)]

theorem slice_splice_of_disjoint (h : off + b.length ≤ d.length)
    (hd : off' + len ≤ off ∨ off + b.length ≤ off') : slice (splice d off b) off' len = slice d off' len := by
  apply List.ext_getElem?
  intro i
  rw [getElem?_slice, getElem?_slice, getElem?_splice h]
  by_cases hi : i < len
  · rw [if_pos hi, if_pos hi, if_neg (by omega)]
  · rw [if_neg hi, if_neg hi]

theorem splice_splice_of_le {z : List α} (hz : off + z.length ≤ d.length)
    (hb : b.length ≤ z.length) : splice (splice d off z) off b = splice d off (b ++ z.drop b.length) := by
  have hlen : (b ++ z.drop b.length).length = z.length := by simp [hb]
  apply List.ext_getElem?
  intro i
  rw [getElem?_splice (by rw [length_splice hz]; omega), getElem?_splice hz, getElem?_splice (by rw [hlen]; exact hz), hlen]
  by_cases hin : off ≤ i ∧ i < off + b.length
  · rw [if_pos hin, if_pos (by omega), List.getElem?_append_left (by omega)]
  · rw [if_neg hin]
    by_cases hin' : off ≤ i ∧ i < off + z.length
    · rw [if_pos hin', if_pos hin', List.getElem?_append_right (by omega), List.getElem?_drop]
      congr 1
      omega
    · rw [if_neg hin', if_neg hin']

/-! ## Little-endian numbers -/

def toLE : Nat → Nat → List UInt8
  | 0, _ => []
  | w + 1, n => UInt8.ofNat n :: toLE w (n / 256)

def ofLE : List UInt8 → Nat
  | [] => 0
  | b :: bs => b.toNat + 256 * ofLE bs

theorem length_toLE (w n : Nat) : (toLE w n).length = w := by
  induction w generalizing n with
  | zero => rfl
  | succ w ih => rw [toLE, List.length_cons, ih]

theorem ofLE_toLE (w n : Nat) : ofLE (toLE w n) = n % 256 ^ w := by
  induction w generalizing n with
  | zero =>
    rw [pow_zero, Nat.mod_one]
    rfl
  | succ w ih =>
    have hbyte : (UInt8.ofNat n).toNat = n % 256 := UInt8.toNat_ofNat'
    rw [toLE, ofLE, ih, hbyte, pow_succ, Nat.mul_comm (256 ^ w), Nat.mod_mul]

end MyDB.Lib

import MyDB.Common.TupleCodec

/-! `std::to_string` of an `INT`: the text determines the number and has no bytes but
digits and the sign. -/

namespace MyDB
open Lib

theorem digitsValue_concat (s : Str) (b : UInt8) : digitsValue (s ++ [b]) = 10 * digitsValue s + (b.toNat - 48) := by
  rw [digitsValue, List.foldl_append]
  rfl

theorem toNat_digit (n : Nat) : (UInt8.ofNat (48 + n % 10)).toNat = 48 + n % 10 := by
  have hlt : n % 10 < 10 := Nat.mod_lt _ (by decide)
  rw [UInt8.toNat_ofNat']
  omega

theorem digitsValue_decimalDigits {fuel n : Nat} (h : n < fuel) : digitsValue (decimalDigits fuel n) = n := by
  induction fuel generalizing n with
  | zero => exact absurd h (Nat.not_lt_zero n)
  | succ fuel ih =>
    rw [decimalDigits, digitsValue_concat, toNat_digit]
    split
    case isTrue hlt =>
      show 10 * 0 + (48 + n % 10 - 48) = n
      omega
    case isFalse hge =>
      rw [ih (by omega)]
      omega

theorem digit_of_mem {fuel n : Nat} {b : UInt8} (h : b ∈ decimalDigits fuel n) : 48 ≤ b.toNat ∧ b.toNat < 58 := by
  induction fuel generalizing n with
  | zero => cases h
  | succ fuel ih =>
    rw [decimalDigits, List.mem_append, List.mem_singleton] at h
    cases h with
    | inl h =>
      split at h
      · cases h
      · exact ih h
    | inr h =>
      rw [h, toNat_digit]
      omega

theorem decimalDigits_ne_nil (fuel n : Nat) : decimalDigits (fuel + 1) n ≠ [] := by
  rw [decimalDigits]
  exact List.append_ne_nil_of_right_ne_nil _ (List.cons_ne_nil _ _)

theorem intToString_ne_nil (v : Int) : intToString v ≠ [] :=
  List.append_ne_nil_of_right_ne_nil _ (decimalDigits_ne_nil _ _)

theorem mem_intToString {v : Int} {b : UInt8} (h : b ∈ intToString v) : b = 45 ∨ 48 ≤ b.toNat ∧ b.toNat < 58 := by
  rw [intToString, List.mem_append] at h
  cases h with
  | inl h =>
    split at h
    · exact .inl (List.mem_singleton.mp h)
    · cases h
  | inr h => exact .inr (digit_of_mem h)

theorem intToString_injective {v w : Int} (h : intToString v = intToString w) : v = w := by
  have hsign : lit "-" = [45] := by decide
  -- a text of digits does not begin with the sign
  have hne (n m : Nat) (l : Str) : decimalDigits (n + 1) m ≠ 45 :: l := by
    intro heq
    have hmem : (45 : UInt8) ∈ decimalDigits (n + 1) m := by rw [heq]; exact List.mem_cons_self
    exact absurd (digit_of_mem hmem).1 (by decide)
  have habs {a b : Nat} (hd : decimalDigits (a + 1) a = decimalDigits (b + 1) b) : a = b := by
    rw [← digitsValue_decimalDigits (Nat.lt_succ_self a), hd, digitsValue_decimalDigits (Nat.lt_succ_self b)]
  rw [intToString, intToString, hsign] at h
  by_cases hv : v < 0
  · by_cases hw : w < 0
    · rw [if_pos hv, if_pos hw] at h
      have heq := habs (List.cons.inj h).2
      omega
    · rw [if_pos hv, if_neg hw] at h
      exact absurd h.symm (hne _ _ _)
  · by_cases hw : w < 0
    · rw [if_neg hv, if_pos hw] at h
      exact absurd h (hne _ _ _)
    · rw [if_neg hv, if_neg hw] at h
      have heq := habs h
      omega

def Value.Same (v w : Value) : Prop := v.typeId = w.typeId ∧ v.asInt = w.asInt ∧ v.asVarchar = w.asVarchar

instance (v w : Value) : Decidable (v.Same w) := inferInstanceAs (Decidable (_ ∧ _ ∧ _))

theorem Value.toString_eq_iff {v w : Value} (htype : v.typeId = w.typeId) : v.toString = w.toString ↔ v.Same w := by
  cases v with
  | int i =>
    cases w with
    | varchar => cases htype
    | int j =>
      constructor
      · intro h
        exact ⟨rfl, intToString_injective h, rfl⟩
      · intro h
        exact congrArg intToString h.2.1
  | varchar s n =>
    cases w with
    | int => cases htype
    | varchar t m =>
      constructor
      · intro h
        exact ⟨rfl, rfl, h⟩
      · intro h
        exact h.2.2

end MyDB

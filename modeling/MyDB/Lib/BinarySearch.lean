import Mathlib

/-! Binary searches over an index range, as loops over signed bounds. The first
argument of each loop bounds its number of rounds. -/

namespace MyDB.Lib

/-- The last index of `[lo, hi]` at which `p` holds, or `result` if there is none. -/
def bisectLast (p : Nat → Bool) : Nat → Int → Int → Nat → Nat
  | 0, _, _, result => result
  | fuel + 1, lo, hi, result =>
    if lo ≤ hi then
      let mid := (lo + hi) / 2
      if p mid.toNat then bisectLast p fuel (mid + 1) hi mid.toNat
      else bisectLast p fuel lo (mid - 1) result
    else result

/-- An index of `[lo, hi]` at which `cmp` answers `eq`. -/
def bisectFind (cmp : Nat → Ordering) : Nat → Int → Int → Option Nat
  | 0, _, _ => none
  | fuel + 1, lo, hi =>
    if lo ≤ hi then
      let mid := (lo + hi) / 2
      match cmp mid.toNat with
      | .eq => some mid.toNat
      | .lt => bisectFind cmp fuel (mid + 1) hi
      | .gt => bisectFind cmp fuel lo (mid - 1)
    else none

theorem bisectLast_eq (p : Nat → Bool) {b : Nat} {lo hi : Int} (fuel : Nat) (result : Nat)
    (hfuel : hi + 1 - lo ≤ fuel) (hlo : 0 ≤ lo) (hres : (result : Int) < lo)
    (hb : (result : Int) ≤ b ∧ (b : Int) ≤ hi) (hgap : (b : Int) < lo → b = result)
    (htrue : ∀ i : Nat, lo ≤ i → i ≤ b → p i = true)
    (hfalse : ∀ i : Nat, b < i → (i : Int) ≤ hi → p i = false) :
    bisectLast p fuel lo hi result = b := by
  induction fuel generalizing lo hi result with
  | zero =>
    simp only [bisectLast]
    exact (hgap (by omega)).symm
  | succ fuel ih =>
    simp only [bisectLast]
    split_ifs with hle hp
    · have hm : (((lo + hi) / 2).toNat : Int) = (lo + hi) / 2 := Int.toNat_of_nonneg (by omega)
      have hmb : ((lo + hi) / 2).toNat ≤ b := by
        by_contra hlt
        rw [hfalse _ (by omega) (by omega)] at hp
        cases hp
      exact ih _ (by omega) (by omega) (by omega) ⟨by omega, hb.2⟩ (fun h => by omega)
        (fun i h1 h2 => htrue i (by omega) h2) hfalse
    · have hm : (((lo + hi) / 2).toNat : Int) = (lo + hi) / 2 := Int.toNat_of_nonneg (by omega)
      have hmb : b < ((lo + hi) / 2).toNat := by
        by_contra hlt
        exact hp (htrue _ (by omega) (by omega))
      exact ih _ (by omega) hlo hres ⟨hb.1, by omega⟩ hgap htrue
        (fun i h1 h2 => hfalse i h1 (by omega))
    · exact (hgap (by omega)).symm

theorem bisectFind_some (cmp : Nat → Ordering) (fuel : Nat) {lo hi : Int} {i : Nat}
    (h : bisectFind cmp fuel lo hi = some i) (hlo : 0 ≤ lo) :
    cmp i = .eq ∧ lo ≤ i ∧ (i : Int) ≤ hi := by
  induction fuel generalizing lo hi with
  | zero => cases h
  | succ fuel ih =>
    simp only [bisectFind] at h
    split_ifs at h with hle
    have hm : (((lo + hi) / 2).toNat : Int) = (lo + hi) / 2 := Int.toNat_of_nonneg (by omega)
    split at h
    · next he =>
      obtain rfl := Option.some.inj h
      exact ⟨he, by omega, by omega⟩
    · obtain ⟨h1, h2, h3⟩ := ih h (by omega)
      exact ⟨h1, by omega, h3⟩
    · obtain ⟨h1, h2, h3⟩ := ih h hlo
      exact ⟨h1, h2, by omega⟩

theorem bisectFind_none (cmp : Nat → Ordering) (fuel : Nat) {lo hi : Int}
    (h : bisectFind cmp fuel lo hi = none) (hfuel : hi + 1 - lo ≤ fuel) (hlo : 0 ≤ lo)
    (hlt : ∀ i j : Nat, i ≤ j → (j : Int) ≤ hi → cmp j = .lt → cmp i = .lt)
    (hgt : ∀ i j : Nat, i ≤ j → (j : Int) ≤ hi → cmp i = .gt → cmp j = .gt)
    (i : Nat) (h1 : lo ≤ i) (h2 : (i : Int) ≤ hi) : cmp i ≠ .eq := by
  induction fuel generalizing lo hi with
  | zero => omega
  | succ fuel ih =>
    simp only [bisectFind] at h
    split_ifs at h with hle
    · have hm : (((lo + hi) / 2).toNat : Int) = (lo + hi) / 2 := Int.toNat_of_nonneg (by omega)
      split at h
      · cases h
      · next he =>
        by_cases hi' : i ≤ ((lo + hi) / 2).toNat
        · rw [hlt i _ hi' (by omega) he]
          decide
        · exact ih h (by omega) (by omega) hlt hgt (by omega) h2
      · next he =>
        by_cases hi' : ((lo + hi) / 2).toNat ≤ i
        · rw [hgt _ i hi' h2 he]
          decide
        · exact ih h (by omega) hlo (fun a b hab hb => hlt a b hab (by omega))
            (fun a b hab hb => hgt a b hab (by omega)) h1 (by omega)
    · omega

end MyDB.Lib

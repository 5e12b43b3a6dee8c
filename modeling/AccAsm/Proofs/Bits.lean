import AccAsm.Bits
import Mathlib.Data.Int.ModEq

/-! # Numbers in fields

`Represents width v r`: of the numbers that `width` bits hold, `r` is the one congruent to `v`. Fitting a
64-bit value into a field gives this number if the magnitude of the value is below `2 ^ width`, and fails
otherwise (`fit64?_eq`). The least value is no exception: its magnitude does not fit into 64 bits and
comes out negative (`toInt_magnitude64`), which counts as too large. -/

namespace AccAsm
namespace Bits
variable {width : Nat}

/-- Of the numbers that `width` bits hold, `r` is the one congruent to `v`. -/
def Represents (width : Nat) (v : Int) (r : UInt16) : Prop :=
  ∀ k : Nat, k < 2 ^ width ∧ (k : Int) ≡ v [ZMOD (2 ^ width : Nat)] ↔ k = r.toNat

theorem toNat_toUInt16 {n w : Nat} (hw : w ≤ 16) (h : n < 2 ^ w) : n.toUInt16.toNat = n := by
  have hpow : 2 ^ w ≤ 2 ^ 16 := Nat.pow_le_pow_right (by decide) hw
  rw [Nat.toUInt16_eq, UInt16.toNat_ofNat', Nat.mod_eq_of_lt (by omega)]

/-! ### Residues -/

theorem natCast_residue (v : Int) (width : Nat) :
    ((v % (2 ^ width : Nat)).toNat : Int) = v % (2 ^ width : Nat) :=
  Int.toNat_of_nonneg (Int.emod_nonneg v (Int.natCast_ne_zero.mpr (Nat.two_pow_pos width).ne'))

theorem residue_lt (v : Int) (width : Nat) : (v % (2 ^ width : Nat)).toNat < 2 ^ width := by
  have hlt := Int.emod_lt_of_pos v (Int.natCast_pos.mpr (Nat.two_pow_pos width))
  rw [← natCast_residue] at hlt
  exact Int.ofNat_lt.mp hlt

theorem represents_residue (v : Int) (h₁₆ : width ≤ 16) :
    Represents width v (v % (2 ^ width : Nat)).toNat.toUInt16 := by
  intro k
  rw [toNat_toUInt16 h₁₆ (residue_lt v width)]
  constructor
  · rintro ⟨hlt, hmod⟩
    have hk : (k : Int) % (2 ^ width : Nat) = k := by rw [← Int.natCast_emod, Nat.mod_eq_of_lt hlt]
    rw [← hmod, hk, Int.toNat_natCast]
  · rintro rfl
    refine ⟨residue_lt v width, ?_⟩
    rw [natCast_residue]
    exact Int.mod_modEq v _

/-! ### 64-bit values -/

theorem limit64_eq (h₁₆ : width ≤ 16) :
    (limit64 width).toInt = (2 ^ width : Nat) ∧ (limit64 width - 1).toUInt64.toNat = 2 ^ width - 1 := by
  have hall : ∀ w ≤ 16, (limit64 w).toInt = (2 ^ w : Nat) ∧ (limit64 w - 1).toUInt64.toNat = 2 ^ w - 1 := by
    decide +kernel
  exact hall width h₁₆

/-- Only the least value has no magnitude of its own. -/
theorem toInt_magnitude64 (value : Int64) :
    (magnitude64 value).toInt = if value.toInt = -2 ^ 63 then -2 ^ 63 else (value.toInt.natAbs : Int) := by
  have hlow := value.le_toInt
  have hhigh := value.toInt_lt
  have hsign : value < 0 ↔ value.toInt < 0 := Int64.lt_iff_toInt_lt
  unfold magnitude64
  by_cases hneg : value < 0
  · rw [if_pos hneg, Int64.toInt_neg, Int.bmod_def]
    rw [hsign] at hneg
    split <;> omega
  · rw [if_neg hneg]
    rw [hsign] at hneg
    split <;> omega

theorem exceeds_iff (value : Int64) (h₁₆ : width ≤ 16) :
    magnitude64 value < 0 ∨ limit64 width ≤ magnitude64 value ↔ 2 ^ width ≤ value.toInt.natAbs := by
  have hpow : 2 ^ width ≤ 2 ^ 16 := Nat.pow_le_pow_right (by decide) h₁₆
  have hzero : (0 : Int64).toInt = 0 := by decide
  rw [Int64.lt_iff_toInt_lt, Int64.le_iff_toInt_le, (limit64_eq h₁₆).1, toInt_magnitude64, hzero]
  split <;> omega

/-- The low bits of a value do not depend on its sign bit. -/
theorem toInt_emod (value : Int64) (h₁₆ : width ≤ 16) :
    value.toInt % (2 ^ width : Nat) = (value.toUInt64.toNat % 2 ^ width : Nat) := by
  have hdvd : ((2 ^ width : Nat) : Int) ∣ (2 ^ 64 : Nat) :=
    Int.natCast_dvd_natCast.mpr (Nat.pow_dvd_pow 2 (by omega))
  have hbmod : value.toInt = (value.toUInt64.toNat : Int).bmod (2 ^ 64) := BitVec.toInt_eq_toNat_bmod _
  rw [hbmod, ← Int.emod_emod_of_dvd _ hdvd, Int.bmod_emod, Int.emod_emod_of_dvd _ hdvd, Int.natCast_emod]

theorem masked_eq (value : Int64) (h₁₆ : width ≤ 16) :
    (value &&& (limit64 width - 1)).toUInt64.toUInt16 = (value.toInt % (2 ^ width : Nat)).toNat.toUInt16 := by
  have hmask : (value &&& (limit64 width - 1)).toUInt64.toNat = value.toUInt64.toNat % 2 ^ width := by
    rw [Int64.toUInt64_and, UInt64.toNat_and, (limit64_eq h₁₆).2, Nat.and_two_pow_sub_one_eq_mod]
  refine UInt16.toNat_inj.mp ?_
  rw [toInt_emod value h₁₆, Int.toNat_natCast, UInt64.toNat_toUInt16, hmask, Nat.toUInt16_eq,
    UInt16.toNat_ofNat']

/-- Exactly the magnitudes below `2 ^ width` fit, and a value that fits is stored as its residue. -/
theorem fit64?_eq (value : Int64) (width : Nat) :
    fit64? value width =
      if 1 ≤ width ∧ width ≤ 16 ∧ value.toInt.natAbs < 2 ^ width then
        some (value.toInt % (2 ^ width : Nat)).toNat.toUInt16
      else none := by
  unfold fit64?
  by_cases hw : width = 0 ∨ 16 < width
  · rw [if_pos hw, if_neg (by omega)]
  · have h₁₆ : width ≤ 16 := by omega
    rw [if_neg hw, masked_eq value h₁₆]
    by_cases hfits : value.toInt.natAbs < 2 ^ width
    · rw [if_neg ((exceeds_iff value h₁₆).not.mpr (Nat.not_le.mpr hfits)), if_pos ⟨by omega, h₁₆, hfits⟩]
    · rw [if_pos ((exceeds_iff value h₁₆).mpr (Nat.not_lt.mp hfits)), if_neg fun h => hfits h.2.2]

theorem fit?_eq {v : Int} (hlow : -2 ^ 63 ≤ v) (hhigh : v < 2 ^ 63) (width : Nat) :
    fit? v width =
      if 1 ≤ width ∧ width ≤ 16 ∧ v.natAbs < 2 ^ width then some (v % (2 ^ width : Nat)).toNat.toUInt16
      else none := by
  rw [fit?, fit64?_eq, Int64.toInt_ofInt_of_le hlow hhigh]

end Bits
end AccAsm

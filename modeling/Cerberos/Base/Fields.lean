/-
# Cerberos.Base.Fields — bit-fields packed into one word.

A packed record is the concatenation of its fields, the first one lowest. Cutting a field out of such a
word goes PAST the fields below it (`extract_append_high`) and stops inside the one it wants
(`extract_append_low`), so the two facts, used as rewrite rules, read every field of every packed
record. `shift_mask_extract` is the same cut written with a shift and a mask.
-/
import Mathlib

namespace Cerberos.Base

variable {v w : ℕ}

/-- A cut above the lower part lies in the upper part. -/
theorem extract_append_high (x : BitVec v) (y : BitVec w) {k : ℕ} (n : ℕ) (h : w ≤ k) :
    (x ++ y).extractLsb' k n = x.extractLsb' (k - w) n := by
  apply BitVec.eq_of_getLsbD_eq
  intro i hi
  rw [BitVec.getLsbD_extractLsb', BitVec.getLsbD_extractLsb', BitVec.getLsbD_append,
    if_neg (by omega), show k + i - w = k - w + i by omega]

/-- A cut within the lower part does not see the upper one. -/
theorem extract_append_low (x : BitVec v) (y : BitVec w) {k n : ℕ} (h : k + n ≤ w) :
    (x ++ y).extractLsb' k n = y.extractLsb' k n := by
  apply BitVec.eq_of_getLsbD_eq
  intro i hi
  rw [BitVec.getLsbD_extractLsb', BitVec.getLsbD_extractLsb', BitVec.getLsbD_append,
    if_pos (by omega)]

/-- A cut of a cut. -/
theorem extract_extract (x : BitVec w) {j k n m : ℕ} (h : k + n ≤ m) :
    (x.extractLsb' j m).extractLsb' k n = x.extractLsb' (j + k) n := by
  apply BitVec.eq_of_getLsbD_eq
  intro i hi
  rw [BitVec.getLsbD_extractLsb', BitVec.getLsbD_extractLsb', BitVec.getLsbD_extractLsb',
    decide_eq_true hi, decide_eq_true (show k + i < m by omega), Nat.add_assoc]
  rfl

/-- A field that was cut out with a shift and a mask of `n` ones. -/
theorem shift_mask_extract (x mask : BitVec w) (k n : ℕ) (hmask : mask.toNat = 2 ^ n - 1) :
    ((x >>> k) &&& mask).setWidth n = x.extractLsb' k n := by
  apply BitVec.eq_of_toNat_eq
  rw [BitVec.toNat_setWidth, BitVec.toNat_and, hmask, Nat.and_two_pow_sub_one_eq_mod,
    BitVec.toNat_ushiftRight, BitVec.extractLsb'_toNat, Nat.mod_mod]

/-- The same at bit 0, where the source writes no shift. -/
theorem mask_extract (x mask : BitVec w) (n : ℕ) (hmask : mask.toNat = 2 ^ n - 1) :
    (x &&& mask).setWidth n = x.extractLsb' 0 n := by
  have h := shift_mask_extract x mask 0 n hmask
  rwa [BitVec.ushiftRight_zero] at h

end Cerberos.Base

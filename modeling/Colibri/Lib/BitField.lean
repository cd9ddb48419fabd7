import Mathlib.Data.BitVec

/-!
# Bit-fields of 64-bit registers

A register is read and written by its bit-fields: `field raw pos len` is the value of the `len` bits
from bit `pos` on, and `setField` assigns to them the low `len` bits of a value. Each is known by its
bits, and fields that do not overlap do not see each other.
-/

namespace Colibri.Lib

/-- The value of the `len` bits from bit `pos` on. -/
def field (raw : BitVec 64) (pos len : Nat) : Nat := (raw.extractLsb' pos len).toNat

/-- An assignment to the `len` bits from bit `pos` on. -/
def setField (raw : BitVec 64) (pos len v : Nat) : BitVec 64 :=
  raw &&& ~~~(BitVec.ofNat 64 (2 ^ len - 1) <<< pos) ||| BitVec.ofNat 64 (v % 2 ^ len) <<< pos

variable {raw : BitVec 64} {pos len pos' len' v j : Nat}

/-- The one bit of `1 << k`. -/
theorem getLsbD_one_shiftLeft {w k : Nat} (hk : k < w) (j : Nat) :
    (1#w <<< k).getLsbD j = decide (j = k) := by
  rw [← BitVec.twoPow_eq, BitVec.getLsbD_twoPow, decide_eq_true hk, Bool.true_and]
  exact decide_eq_decide.mpr eq_comm

theorem field_lt (raw : BitVec 64) (pos len : Nat) : field raw pos len < 2 ^ len := BitVec.isLt _

theorem testBit_field (raw : BitVec 64) (pos len j : Nat) :
    (field raw pos len).testBit j = (decide (j < len) && raw.getLsbD (pos + j)) := by
  rw [field, BitVec.testBit_toNat, BitVec.getLsbD_extractLsb']

theorem getLsbD_setField (raw : BitVec 64) (pos len v : Nat) (hj : j < 64) :
    (setField raw pos len v).getLsbD j =
      if pos ≤ j ∧ j < pos + len then v.testBit (j - pos) else raw.getLsbD j := by
  rw [setField, BitVec.getLsbD_or, BitVec.getLsbD_and, BitVec.getLsbD_not, BitVec.getLsbD_shiftLeft,
    BitVec.getLsbD_shiftLeft, BitVec.getLsbD_ofNat, BitVec.getLsbD_ofNat, Nat.testBit_two_pow_sub_one,
    Nat.testBit_mod_two_pow]
  have hsub : j - pos < 64 := by omega
  rcases Nat.lt_or_ge j pos with hpos | hpos
  · have hlo : ¬(pos ≤ j ∧ j < pos + len) := by omega
    simp [hj, hpos, hlo]
  · have hge : ¬j < pos := by omega
    rcases Nat.lt_or_ge j (pos + len) with hlen | hlen
    · have hlt : j - pos < len := by omega
      simp [hj, hsub, hge, hpos, hlen, hlt]
    · have hlt : ¬j - pos < len := by omega
      have hhi : ¬(pos ≤ j ∧ j < pos + len) := by omega
      simp [hj, hge, hlt, hhi]

/-- **What is assigned is read.** -/
theorem field_setField (raw : BitVec 64) (hpos : pos + len ≤ 64) :
    field (setField raw pos len v) pos len = v % 2 ^ len := by
  refine Nat.eq_of_testBit_eq fun j => ?_
  rw [testBit_field, Nat.testBit_mod_two_pow]
  by_cases hj : j < len
  · rw [getLsbD_setField _ _ _ _ (by omega), if_pos (by omega), Nat.add_sub_cancel_left]
  · simp [hj]

/-- **An assignment is not seen by another field.** -/
theorem field_setField_of_disjoint (raw : BitVec 64) (hpos : pos' + len' ≤ 64)
    (h : pos + len ≤ pos' ∨ pos' + len' ≤ pos) :
    field (setField raw pos len v) pos' len' = field raw pos' len' := by
  refine Nat.eq_of_testBit_eq fun j => ?_
  rw [testBit_field, testBit_field]
  by_cases hj : j < len'
  · rw [getLsbD_setField _ _ _ _ (by omega), if_neg (by omega)]
  · simp [hj]

end Colibri.Lib

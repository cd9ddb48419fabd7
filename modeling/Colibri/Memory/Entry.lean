import Colibri.Lib.BitField
import Colibri.Memory.Layout

/-!
# Entries of page tables

Model of `pml4e_t`, `pdpte_t`, `pde_t` and `pte_t` of
`kernel/include/kernel/arch/x86-64/memory_layout.h`, four unions with the same bits, and of
`vmflag_to_x86flag` of `vm.c`.
-/

namespace Colibri.Memory

open Colibri.Lib

/-- An entry of a page table. -/
structure Entry where
  raw : BitVec 64
  deriving DecidableEq

namespace Entry

/-- Bit 0. -/
def present (e : Entry) : Bool := e.raw.getLsbD 0

/-- Bit 1. -/
def writable (e : Entry) : Bool := e.raw.getLsbD 1

/-- Bit 2. -/
def userPage (e : Entry) : Bool := e.raw.getLsbD 2

/-- Bit 7; in a leaf of the last level it is a bit of the caching type. -/
def pageSize (e : Entry) : Bool := e.raw.getLsbD 7

/-- Bit 63. -/
def xd (e : Entry) : Bool := e.raw.getLsbD 63

/-- Bits 12 to 50: `pd_addr` of an entry that refers to a table, `phys_addr` of a leaf. -/
def pdAddr (e : Entry) : Nat := (e.raw.extractLsb' 12 39).toNat

/-- The bits up to 51 that the processor takes for the address of a leaf of this level. -/
def frame (level : Nat) (e : Entry) : Nat :=
  (e.raw.extractLsb' (12 + 9 * level) (40 - 9 * level)).toNat * 2 ^ (12 + 9 * level)

/-- Assignment to a bit-field of one bit. -/
def setBit (e : Entry) (k : Nat) (b : Bool) : Entry :=
  ⟨if b then e.raw ||| 1#64 <<< k else e.raw &&& ~~~(1#64 <<< k)⟩

/-- The address of the table that an entry refers to. -/
def table (e : Entry) : Nat := physToVirt (e.pdAddr * 4096)

/-- The table that an entry refers to, if it does. -/
def child (e : Entry) : Option Nat := if e.present && !e.pageSize then some e.table else none

/-- The entry that `walk` makes for a new table. -/
def ofTable (newPt : Nat) : Entry :=
  (((⟨BitVec.ofNat 64 newPt⟩ : Entry).setBit 0 true).setBit 1 true).setBit 2 true

/-- The leaf that `mappages` makes. -/
def ofPage (pa : Nat) (flags : BitVec 64) : Entry :=
  (⟨BitVec.ofNat 64 pa ||| flags⟩ : Entry).setBit 0 true

end Entry

/-- `MEMORY_FLAG_WRITE`. -/
def memoryFlagWrite : BitVec 8 := 1

/-- `MEMORY_FLAG_USER`. -/
def memoryFlagUser : BitVec 8 := 2

/-- `MEMORY_FLAG_EXEC`. -/
def memoryFlagExec : BitVec 8 := 4

/-- `PAGE_FLAG_MASK`. -/
def pageFlagMask : BitVec 64 := 0x8000000000000006

/-- Replacing the flags of a leaf, as `updatepages` does. -/
def Entry.setFlags (e : Entry) (flags : BitVec 64) : Entry := ⟨e.raw &&& ~~~pageFlagMask ||| flags⟩

/-- `vmflag_to_x86flag`. -/
def vmflagToX86flag (nxFlagEnabled : Bool) (flag : BitVec 64) : BitVec 64 :=
  (if nxFlagEnabled && flag &&& memoryFlagExec.setWidth 64 == 0 then 1#64 <<< 63 else 0) |||
    (flag &&& (memoryFlagWrite ||| memoryFlagUser).setWidth 64) <<< 1

/-! ## Their bits -/

namespace Entry

theorem getLsbD_setBit (e : Entry) {k j : Nat} {b : Bool} (hk : k < 64) (hj : j < 64) :
    (e.setBit k b).raw.getLsbD j = if j = k then b else e.raw.getLsbD j := by
  unfold setBit
  cases b with
  | true =>
    simp only [if_true, BitVec.getLsbD_or, getLsbD_one_shiftLeft hk]
    by_cases h : j = k <;> simp [h]
  | false =>
    simp only [Bool.false_eq_true, if_false, BitVec.getLsbD_and, BitVec.getLsbD_not,
      getLsbD_one_shiftLeft hk]
    by_cases h : j = k <;> simp [h, hj]

/-- The bits of a table's entry are those of its address and the low three. -/
theorem getLsbD_ofTable (p : Nat) {j : Nat} (hj : j < 64) :
    (ofTable p).raw.getLsbD j = (decide (j < 3) || p.testBit j) := by
  rw [ofTable, getLsbD_setBit _ (by omega) hj, getLsbD_setBit _ (by omega) hj,
    getLsbD_setBit _ (by omega) hj, BitVec.getLsbD_ofNat]
  by_cases h0 : j = 0
  · simp [h0]
  · by_cases h1 : j = 1
    · simp [h1]
    · by_cases h2 : j = 2
      · simp [h2]
      · have h3 : ¬ j < 3 := by omega
        simp [h0, h1, h2, h3, hj]

theorem getLsbD_ofPage (p : Nat) (flags : BitVec 64) {j : Nat} (hj : j < 64) :
    (ofPage p flags).raw.getLsbD j = (decide (j = 0) || p.testBit j || flags.getLsbD j) := by
  rw [ofPage, getLsbD_setBit _ (by omega) hj, BitVec.getLsbD_or, BitVec.getLsbD_ofNat]
  by_cases h0 : j = 0
  · simp [h0]
  · simp [h0, hj]

/-- The low bits of an aligned address are clear. -/
theorem testBit_of_aligned {p j : Nat} (hp : p % 4096 = 0) (hj : j < 12) : p.testBit j = false := by
  have h : (p % 2 ^ 12).testBit j = p.testBit j := by
    rw [Nat.testBit_mod_two_pow]
    simp [hj]
  rw [← h, show 2 ^ 12 = 4096 from rfl, hp, Nat.zero_testBit]

@[simp] theorem present_ofTable (p : Nat) : (ofTable p).present = true := by
  rw [present, getLsbD_ofTable p (by omega)]
  rfl

@[simp] theorem present_ofPage (p : Nat) (flags : BitVec 64) : (ofPage p flags).present = true := by
  rw [present, getLsbD_ofPage p flags (by omega)]
  rfl

@[simp] theorem present_zero : (⟨0⟩ : Entry).present = false := by
  rw [present]
  simp

@[simp] theorem present_clear (e : Entry) : (e.setBit 0 false).present = false := by
  rw [present, getLsbD_setBit e (by omega) (by omega), if_pos rfl]

/-- `present` is not part of the address. -/
theorem pdAddr_clear (e : Entry) : (e.setBit 0 false).pdAddr = e.pdAddr := by
  refine congrArg BitVec.toNat (BitVec.eq_of_getLsbD_eq fun j hj => ?_)
  have h0 : ¬ 12 + j = 0 := by omega
  rw [BitVec.getLsbD_extractLsb', BitVec.getLsbD_extractLsb',
    getLsbD_setBit e (by omega) (by omega), if_neg h0]

theorem child_zero : (⟨0⟩ : Entry).child = none := by
  rw [child, present_zero]
  rfl

theorem child_of_not_present {e : Entry} (h : e.present = false) : e.child = none := by
  rw [child, h]
  rfl

theorem child_eq_some {e : Entry} (h : e.present = true) (hl : e.pageSize = false) :
    e.child = some e.table := by
  rw [child, h, hl]
  rfl

theorem child_eq_some_iff {e : Entry} {t : Nat} :
    e.child = some t ↔ (e.present = true ∧ e.pageSize = false) ∧ e.table = t := by
  rw [child, Option.ite_none_right_eq_some, Bool.and_eq_true_iff, Bool.not_eq_true',
    Option.some.injEq]

/-- **A table's entry refers to it.** -/
theorem child_ofTable {p : Nat} (hp : p % 4096 = 0) (hlt : p < 2 ^ 51) :
    (ofTable p).child = some (physToVirt p) := by
  have hsize : (ofTable p).pageSize = false := by
    rw [pageSize, getLsbD_ofTable p (by omega), testBit_of_aligned hp (by omega)]
    rfl
  have haddr : (ofTable p).pdAddr = p / 4096 := by
    refine Nat.eq_of_testBit_eq fun j => ?_
    rw [pdAddr, BitVec.testBit_toNat, BitVec.getLsbD_extractLsb', show 4096 = 2 ^ 12 from rfl,
      Nat.testBit_div_two_pow]
    by_cases hj : j < 39
    · have h3 : ¬ j + 12 < 3 := by omega
      rw [getLsbD_ofTable p (by omega), Nat.add_comm 12 j]
      simp [hj, h3]
    · have hbig : p < 2 ^ (j + 12) := Nat.lt_of_lt_of_le hlt (Nat.pow_le_pow_right (by omega) (by omega))
      simp [hj, Nat.testBit_lt_two_pow hbig]
  have hmul : p / 4096 * 4096 = p := by omega
  rw [child_eq_some (present_ofTable p) hsize, table, haddr, hmul]

/-- **A leaf of the last level has the address it was made with**, if the flags are outside it. -/
theorem frame_ofPage {p : Nat} {flags : BitVec 64} (hp : p % 4096 = 0) (hlt : p < 2 ^ 52)
    (hf : ∀ j, 12 ≤ j → j < 52 → flags.getLsbD j = false) : (ofPage p flags).frame 0 = p := by
  have haddr : ((ofPage p flags).raw.extractLsb' 12 40).toNat = p / 4096 := by
    refine Nat.eq_of_testBit_eq fun j => ?_
    rw [BitVec.testBit_toNat, BitVec.getLsbD_extractLsb', show 4096 = 2 ^ 12 from rfl,
      Nat.testBit_div_two_pow]
    by_cases hj : j < 40
    · have h0 : ¬ 12 + j = 0 := by omega
      rw [getLsbD_ofPage p flags (by omega), hf (12 + j) (by omega) (by omega)]
      simp [hj, Nat.add_comm]
    · have hbig : p < 2 ^ (j + 12) := Nat.lt_of_lt_of_le hlt (Nat.pow_le_pow_right (by omega) (by omega))
      simp [hj, Nat.testBit_lt_two_pow hbig]
  unfold frame
  rw [haddr]
  omega

end Entry

/-! ## The flags of an area as bits -/

theorem getLsbD_vmflag (nx : Bool) (flags : BitVec 8) {j : Nat} (hj : j < 64) :
    (vmflagToX86flag nx (flags.setWidth 64)).getLsbD j =
      if j = 63 then nx && !flags.getLsbD 2
      else if j = 1 then flags.getLsbD 0 else if j = 2 then flags.getLsbD 1 else false := by
  have hexec : (flags.setWidth 64 &&& memoryFlagExec.setWidth 64 == 0) = !flags.getLsbD 2 := by
    revert flags
    decide
  have hmask : (memoryFlagWrite ||| memoryFlagUser).setWidth 64 = 3#64 := by decide
  have hlow : ((flags.setWidth 64 &&& 3#64) <<< 1).getLsbD j =
      if j = 1 then flags.getLsbD 0 else if j = 2 then flags.getLsbD 1 else false := by
    rw [BitVec.getLsbD_shiftLeft, BitVec.getLsbD_and, BitVec.getLsbD_setWidth, BitVec.getLsbD_ofNat]
    match j, hj with
    | 0, _ => simp
    | 1, _ => simp
    | 2, _ =>
      have hbit : Nat.testBit 3 1 = true := by decide
      simp [hbit]
    | j + 3, hj =>
      have hbig : 3 < 2 ^ (j + 2) :=
        Nat.lt_of_lt_of_le (by decide) (Nat.pow_le_pow_right (by omega) (Nat.le_add_left 2 j))
      simp [Nat.testBit_lt_two_pow hbig]
  have hhigh : (if (nx && !flags.getLsbD 2) = true then 1#64 <<< 63 else 0).getLsbD j =
      (decide (j = 63) && (nx && !flags.getLsbD 2)) := by
    cases hb : (nx && !flags.getLsbD 2) with
    | false => simp
    | true =>
      rw [if_pos rfl, getLsbD_one_shiftLeft (by omega), Bool.and_true]
  unfold vmflagToX86flag
  rw [hexec, hmask, BitVec.getLsbD_or, hlow, hhigh]
  by_cases h63 : j = 63
  · subst h63
    simp
  · simp [h63]

end Colibri.Memory

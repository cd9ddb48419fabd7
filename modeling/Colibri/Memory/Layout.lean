import Colibri.Lib.U64

/-!
# Pages and address spaces

Model of the macros of `kernel/include/kernel/arch/x86-64/memory_layout.h`.
-/

namespace Colibri.Memory

open Colibri.Lib

/-- `SMALL_PAGE_SIZE`, which is `PAGE_SIZE`. -/
def pageSize : Nat := 0x1000

/-- `MEDIUM_PAGE_SIZE`. -/
def mediumPageSize : Nat := 0x200000

/-- `PHYSICAL_OFFSET`: where all of physical memory is mapped. -/
def physicalOffset : Nat := 0xFFFFFE8000000000

/-- `LOWHALF_START`. -/
def lowhalfStart : Nat := mediumPageSize

/-- `LOWHALF_END`. -/
def lowhalfEnd : Nat := 0x800000000000

/-- `PAGE_START(addr, PAGE_SIZE)`. -/
def pageStart (addr : Nat) : Nat := addr - addr % pageSize

/-- `PAGE_END(addr, PAGE_SIZE)`. -/
def pageEnd (addr : Nat) : Nat := u64Sub (u64Add (pageStart addr) pageSize) 1

/-- `VA2INDEX(va, level)`. -/
def va2Index (va level : Nat) : Nat := va / 2 ^ (12 + level * 9) % 512

/-- The mapped address of a physical one, `p + PHYSICAL_OFFSET`. -/
def physToVirt (p : Nat) : Nat := u64Add p physicalOffset

/-- `v - PHYSICAL_OFFSET`. -/
def virtToPhys (v : Nat) : Nat := u64Sub v physicalOffset

theorem pageSize_eq : pageSize = 4096 := rfl

theorem pageStart_le (a : Nat) : pageStart a ≤ a := Nat.sub_le _ _

theorem pageStart_mod (a : Nat) : pageStart a % 4096 = 0 := by
  rw [pageStart, pageSize_eq]
  omega

theorem pageStart_eq_iff {a p : Nat} (hp : p % 4096 = 0) :
    pageStart a = p ↔ p ≤ a ∧ a < p + 4096 := by
  rw [pageStart, pageSize_eq]
  omega

/-- An aligned bound is not in the middle of a page. -/
theorem le_of_aligned {a b : Nat} (ha : a % 4096 = 0) (hb : b % 4096 = 0) (h : a + 4095 ≤ b) :
    a + 4096 ≤ b := by
  omega

theorem pageStart_of_aligned {a : Nat} (h : a % 4096 = 0) : pageStart a = a := by
  rw [pageStart, pageSize_eq]
  omega

/-- `PAGE_END` is the last byte of the page: the sum that wraps in the last page of the address
space is undone by the difference. -/
theorem pageEnd_eq {a : Nat} (h : a < u64Size) : pageEnd a = pageStart a + 4095 := by
  have hm := pageStart_mod a
  have hle := pageStart_le a
  have hsize := u64Size_eq
  rw [pageEnd, pageSize_eq]
  rcases Nat.lt_or_ge (pageStart a + 4096) u64Size with hlt | hge
  · rw [u64Add_eq hlt, u64Sub_eq (by omega) hlt]
    omega
  · have he : pageStart a + 4096 = u64Size := by omega
    rw [u64Add, he, Nat.mod_self, u64Sub_eq_of_lt (by omega) (by omega)]
    omega

theorem pageEnd_mod {a : Nat} (h : a < u64Size) : pageEnd a % 4096 = 4095 := by
  have hm := pageStart_mod a
  rw [pageEnd_eq h]
  omega

theorem le_pageEnd {a : Nat} (h : a < u64Size) : a ≤ pageEnd a := by
  rw [pageEnd_eq h, pageStart, pageSize_eq]
  omega

theorem pageEnd_lt {a : Nat} (h : a < u64Size) : pageEnd a < u64Size := by
  have hm := pageEnd_mod h
  have hle := pageStart_le a
  have hs := pageStart_mod a
  have hsize := u64Size_eq
  rw [pageEnd_eq h] at hm ⊢
  omega

end Colibri.Memory

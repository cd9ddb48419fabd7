import Colibri.Lib.U64
import Colibri.Libc.Str

/-!
# `memmove` on 64-bit addresses (`libc/string/memmove.c`)

`Colibri.Libc.memmove` takes natural numbers for addresses and counts the turns of a loop beforehand.
Here the addresses and the counter are `u64` values that wrap, and a loop tests its counter before
each turn; fuel bounds the turns. Pointers are compared as the addresses they are.

## Results

* `memmoveU64_eq`: where the ranges do not wrap, both are the same function.
* `memmove_moves`: the destination gets what the source held, and nothing else changes.
-/

namespace Colibri.Libc

open Colibri.Lib

/-- `dest[i] = src[i]`. -/
def moveByte (dest src i : Nat) (m : Mem) : Mem :=
  Function.update m (u64Add dest i) (m (u64Add src i))

/-- `for (size_t i = ..; i < size; i++) dest[i] = src[i]`. -/
def moveUp (dest src size : Nat) : Nat → Nat → Mem → Option Mem
  | 0, _, _ => none
  | fuel + 1, i, m =>
    if i < size then moveUp dest src size fuel (u64Incr i) (moveByte dest src i m) else some m

/-- `for (size_t i = ..; i != 0; i--) dest[i - 1] = src[i - 1]`. -/
def moveDown (dest src : Nat) : Nat → Nat → Mem → Option Mem
  | 0, _, _ => none
  | fuel + 1, i, m =>
    if i ≠ 0 then moveDown dest src fuel (u64Decr i) (moveByte dest src (u64Decr i) m) else some m

/-- `memmove`: the memory it leaves, and the pointer it returns. -/
def memmoveU64 (fuel : Nat) (m : Mem) (dest src size : Nat) : Option (Mem × Nat) :=
  (if dest < src then moveUp dest src size fuel 0 m else moveDown dest src fuel size m).map
    fun m => (m, dest)

variable {m : Mem} {dest src size fuel i : Nat}

theorem moveByte_eq (hd : dest + i < u64Size) (hs : src + i < u64Size) :
    moveByte dest src i m = Function.update m (dest + i) (m (src + i)) := by
  unfold moveByte
  rw [u64Add_eq hd, u64Add_eq hs]

/-- The loop upwards ends, and is the one over natural numbers. -/
theorem moveUp_eq (hd : dest + size ≤ u64Size) (hs : src + size ≤ u64Size) (hlt : size < u64Size)
    (hi : i ≤ size) (hf : size - i < fuel) :
    moveUp dest src size fuel i m = some (copyUp dest src (size - i) i m) := by
  induction fuel generalizing i m with
  | zero => exact absurd hf (Nat.not_lt_zero _)
  | succ fuel ih =>
    unfold moveUp
    split
    case isTrue hin =>
      have hturns : size - i = size - (i + 1) + 1 := by omega
      rw [moveByte_eq (by omega) (by omega), u64Incr_eq (by omega), ih hin (by omega), hturns,
        copyUp]
    case isFalse hout =>
      obtain rfl : i = size := Nat.le_antisymm hi (Nat.le_of_not_lt hout)
      rw [Nat.sub_self, copyUp]

/-- So does the loop downwards. -/
theorem moveDown_eq (hd : dest + i ≤ u64Size) (hs : src + i ≤ u64Size) (hf : i < fuel) :
    moveDown dest src fuel i m = some (copyDown dest src i m) := by
  induction fuel generalizing i m with
  | zero => exact absurd hf (Nat.not_lt_zero i)
  | succ fuel ih =>
    cases i with
    | zero => rw [moveDown, if_neg (not_not.mpr rfl), copyDown]
    | succ i =>
      rw [moveDown, if_pos (Nat.succ_ne_zero i), u64Decr_succ (by omega),
        moveByte_eq (by omega) (by omega), ih (by omega) (by omega) (by omega), copyDown]

/-- **Where the ranges do not wrap**, neither do the loops. A range may end at the last address. -/
theorem memmoveU64_eq (hd : dest + size ≤ u64Size) (hs : src + size ≤ u64Size)
    (hf : size < fuel) :
    memmoveU64 fuel m dest src size = some (memmove m dest src size, dest) := by
  unfold memmoveU64 memmove
  split
  case isTrue h =>
    rw [moveUp_eq hd hs (by omega) (Nat.zero_le size) hf, Option.map_some, Nat.sub_zero]
  case isFalse h => rw [moveDown_eq hd hs hf, Option.map_some]

/-- **`memmove` moves**: however the ranges overlap, the destination holds what the source held
before the call, and every other byte is as it was. -/
theorem memmove_moves (m : Mem) (hd : dest + size ≤ u64Size) (hs : src + size ≤ u64Size) :
    ∃ m', (∀ fuel, size < fuel → memmoveU64 fuel m dest src size = some (m', dest)) ∧
      (∀ i < size, m' (dest + i) = m (src + i)) ∧
      ∀ a, a < dest ∨ dest + size ≤ a → m' a = m a := by
  refine ⟨m.copy dest src size, fun fuel hf => ?_, fun i hi => Mem.copy_of_lt hi,
    fun a ha => Mem.copy_of_notMem ha⟩
  rw [memmoveU64_eq hd hs hf, memmove_eq]

/-- Four bytes moved up by one, to the end of the address space. -/
theorem memmove_moves_last : ∃ m',
    (∀ fuel, 4 < fuel →
      memmoveU64 fuel (BitVec.ofNat 8) (u64Size - 4) (u64Size - 5) 4 = some (m', u64Size - 4)) ∧
      (∀ i < 4, m' (u64Size - 4 + i) = BitVec.ofNat 8 (u64Size - 5 + i)) ∧
      ∀ a, a < u64Size - 4 ∨ u64Size - 4 + 4 ≤ a → m' a = BitVec.ofNat 8 a :=
  memmove_moves (BitVec.ofNat 8) (by decide) (by decide)

/-- A source that wraps starts above the destination and reaches it: its second byte is overwritten
before it is read. -/
example : (memmoveU64 3 (BitVec.ofNat 8) 0 (u64Size - 1) 2).map (fun r => r.1 1) = some 255 := by
  decide

end Colibri.Libc

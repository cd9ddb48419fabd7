import Colibri.Lib.Bytes

/-!
# Bytes and strings (`libc/string`)

`memcpy` and `memmove` are loops over bytes. The objects they are called with do not wrap around the
address space, so addresses are natural numbers (`Colibri.Libc.Memmove` has `memmove` on `u64` ones).
`strlen` gets a bound on its turns.

## Results

* `memmove_eq`: `memmove` is a copy, however the ranges overlap.
* `memcpy_eq`: so is `memcpy`, where they do not.
* `strlen_eq`: the length of a string.
-/

namespace Colibri.Libc

open Colibri.Lib

/-- `for (size_t i = ..; i < size; i++) dest[i] = src[i]`, with `n` turns left. -/
def copyUp (dest src : Nat) : Nat → Nat → Mem → Mem
  | 0, _, m => m
  | n + 1, i, m => copyUp dest src n (i + 1) (Function.update m (dest + i) (m (src + i)))

/-- `for (size_t i = ..; i != 0; i--) dest[i - 1] = src[i - 1]`. -/
def copyDown (dest src : Nat) : Nat → Mem → Mem
  | 0, m => m
  | i + 1, m => copyDown dest src i (Function.update m (dest + i) (m (src + i)))

/-- `memcpy`. -/
def memcpy (m : Mem) (dest src size : Nat) : Mem := copyUp dest src size 0 m

/-- `memmove`. -/
def memmove (m : Mem) (dest src size : Nat) : Mem :=
  if dest < src then copyUp dest src size 0 m else copyDown dest src size m

/-- The loop of `strlen`. -/
def strlenLoop (m : Mem) (s : Nat) : Nat → Nat → Option Nat
  | 0, _ => none
  | fuel + 1, len => if m (s + len) ≠ 0 then strlenLoop m s fuel (len + 1) else some len

/-- `strlen`. -/
def strlen (fuel : Nat) (m : Mem) (s : Nat) : Option Nat := strlenLoop m s fuel 0

section Copy

variable {m : Mem} {dest src n i : Nat}

/-- Upwards, with the first `i` bytes copied: no byte is overwritten before it is read if the source
is ahead or elsewhere. -/
theorem copyUp_eq (h : dest ≤ src ∨ src + (i + n) ≤ dest) :
    copyUp dest src n i (m.copy dest src i) = m.copy dest src (i + n) := by
  induction n generalizing i with
  | zero => rfl
  | succ n ih =>
    have hunread : m.copy dest src i (src + i) = m (src + i) := Mem.copy_of_notMem (by omega)
    rw [copyUp, hunread, Mem.update_copy, ih (by omega), Nat.add_assoc, Nat.add_comm 1]

/-- Downwards, with the last `k` bytes copied: none is if the destination is. -/
theorem copyDown_eq (h : src ≤ dest) {k : Nat} :
    copyDown dest src n (m.copy (dest + n) (src + n) k) = m.copy dest src (n + k) := by
  induction n generalizing k with
  | zero => rw [copyDown, Nat.zero_add, Nat.add_zero, Nat.add_zero]
  | succ n ih =>
    have hunread : m.copy (dest + (n + 1)) (src + (n + 1)) k (src + n) = m (src + n) :=
      Mem.copy_of_notMem (by omega)
    rw [copyDown, hunread, ← Nat.add_assoc, ← Nat.add_assoc, Mem.update_copy_succ, ih,
      Nat.add_assoc, Nat.add_comm 1]

/-- **`memmove` is a copy**, whatever the ranges have in common. -/
theorem memmove_eq : memmove m dest src n = m.copy dest src n := by
  unfold memmove
  split
  case isTrue h =>
    have hup := copyUp_eq (m := m) (n := n) (i := 0) (.inl (Nat.le_of_lt h))
    rwa [Mem.copy_zero, Nat.zero_add] at hup
  case isFalse h =>
    have hdown := copyDown_eq (m := m) (n := n) (Nat.le_of_not_lt h) (k := 0)
    rwa [Mem.copy_zero] at hdown

/-- **`memcpy` is a copy** of a range apart from the destination. -/
theorem memcpy_eq (h : Mem.Disjoint dest n src n) : memcpy m dest src n = m.copy dest src n := by
  have hahead : dest ≤ src ∨ src + (0 + n) ≤ dest := by
    rcases h with h | h <;> omega
  have hup := copyUp_eq (m := m) hahead
  rwa [Mem.copy_zero, Nat.zero_add] at hup

/-- A copy of known bytes. -/
theorem copy_eq_write {l : List (BitVec 8)} (h : m.HasBytes src l) :
    m.copy dest src l.length = m.write dest l := by
  funext j
  rw [Mem.copy, Mem.write_apply]
  split
  case isTrue hj => exact h (j - dest) (by omega)
  case isFalse => rfl

end Copy

section Strlen

variable {m : Mem} {a fuel : Nat} {s : List (BitVec 8)}

/-- The loop ends at the zero. -/
theorem strlenLoop_eq (hs : m.IsString a s) {len : Nat} (hlen : len ≤ s.length)
    (hf : s.length - len < fuel) : strlenLoop m a fuel len = some s.length := by
  induction fuel generalizing len with
  | zero => exact absurd hf (Nat.not_lt_zero _)
  | succ fuel ih =>
    rw [strlenLoop]
    rcases Nat.eq_or_lt_of_le hlen with rfl | hlt
    · rw [if_neg (not_not.mpr hs.ends)]
    · have hne : m (a + len) ≠ 0 := by
        rw [hs.bytes len hlt]
        exact hs.inner _ (List.getElem_mem hlt)
      rw [if_pos hne, ih hlt (by omega)]

/-- **The length of a string.** -/
theorem strlen_eq (hs : m.IsString a s) (hf : s.length < fuel) : strlen fuel m a = some s.length :=
  strlenLoop_eq hs (Nat.zero_le _) (by omega)

end Strlen

end Colibri.Libc

import Mathlib.Tactic.Ring

/-!
# `u64` arithmetic on natural numbers

A `u64` is a `Nat` below `u64Size`. The operations wrap; each has the lemma that says when it does
not. They are definitions of their own, so that no proof reduces a remainder by `2 ^ 64`.
-/

namespace Colibri.Lib

/-- The number of `u64` values. -/
def u64Size : Nat := 2 ^ 64

theorem u64Size_eq : u64Size = 18446744073709551616 := rfl

theorem u64Size_pos : 0 < u64Size := by decide

/-- `a + b`. -/
def u64Add (a b : Nat) : Nat := (a + b) % u64Size

/-- `a - b`. -/
def u64Sub (a b : Nat) : Nat := (a + (u64Size - b)) % u64Size

/-- `a * b`. -/
def u64Mul (a b : Nat) : Nat := a * b % u64Size

/-- `a++`. -/
def u64Incr (n : Nat) : Nat := (n + 1) % u64Size

/-- `a--`. -/
def u64Decr (n : Nat) : Nat := (n + u64Size - 1) % u64Size

theorem u64Add_lt (a b : Nat) : u64Add a b < u64Size := Nat.mod_lt _ u64Size_pos

theorem u64Sub_lt (a b : Nat) : u64Sub a b < u64Size := Nat.mod_lt _ u64Size_pos

theorem u64Add_eq {a b : Nat} (h : a + b < u64Size) : u64Add a b = a + b := Nat.mod_eq_of_lt h

theorem u64Sub_eq {a b : Nat} (hb : b ≤ a) (ha : a < u64Size) : u64Sub a b = a - b := by
  have he : a + (u64Size - b) = a - b + u64Size := by omega
  rw [u64Sub, he, Nat.add_mod_right, Nat.mod_eq_of_lt (by omega)]

theorem u64Add_assoc (a b c : Nat) : u64Add (u64Add a b) c = u64Add a (b + c) := by
  simp only [u64Add, Nat.mod_add_mod, Nat.add_assoc]

/-- A difference that wraps. -/
theorem u64Sub_eq_of_lt {a b : Nat} (h : a < b) (hb : b ≤ u64Size) :
    u64Sub a b = a + (u64Size - b) := Nat.mod_eq_of_lt (by omega)

/-- `(a + b) - a` is `b`, wrapping or not. -/
theorem u64Sub_u64Add {a b : Nat} (ha : a < u64Size) (hb : b < u64Size) :
    u64Sub (u64Add a b) a = b := by
  rcases Nat.lt_or_ge (a + b) u64Size with h | h
  · rw [u64Add_eq h, u64Sub_eq (by omega) h]
    omega
  · have he : u64Add a b = a + b - u64Size := by
      rw [u64Add, Nat.mod_eq_sub_mod h, Nat.mod_eq_of_lt (by omega)]
    rw [he, u64Sub_eq_of_lt (by omega) (Nat.le_of_lt ha)]
    omega

theorem u64Mul_eq {a b : Nat} (h : a * b < u64Size) : u64Mul a b = a * b := Nat.mod_eq_of_lt h

theorem u64Incr_eq {n : Nat} (h : n + 1 < u64Size) : u64Incr n = n + 1 := Nat.mod_eq_of_lt h

theorem u64Decr_succ {n : Nat} (h : n < u64Size) : u64Decr (n + 1) = n := by
  have he : n + 1 + u64Size - 1 = n + u64Size := by omega
  rw [u64Decr, he, Nat.add_mod_right, Nat.mod_eq_of_lt h]

end Colibri.Lib

import Mathlib.Logic.Function.Basic
import Mathlib.Tactic.Ring

/-!
# Byte memory

A memory is a byte at every address. `load m a n` is the little-endian value of the `n` bytes at
`a`, and `store m a n v` writes the low `n` bytes of `v` there. Two accesses that do not overlap do
not see each other; these two lemmas, `load_store` and `load_store_of_disjoint`, are how programs
over the memory are read.
-/

namespace Colibri.Lib

/-- A byte at every address. -/
abbrev Mem := Nat → BitVec 8

namespace Mem

/-- The little-endian value of the `n` bytes at `a`. -/
def load (m : Mem) (a : Nat) : Nat → Nat
  | 0 => 0
  | n + 1 => (m a).toNat + 256 * load m (a + 1) n

/-- The memory with the low `n` bytes of `v` at `a`. -/
def store (m : Mem) (a : Nat) : Nat → Nat → Mem
  | 0, _ => m
  | n + 1, v => Function.update (store m (a + 1) n (v / 256)) a (BitVec.ofNat 8 v)

/-- The memory with `n` bytes of value `b` at `a`, as `memset` leaves it. -/
def fill (m : Mem) (a n : Nat) (b : BitVec 8) : Mem :=
  fun i => if a ≤ i ∧ i < a + n then b else m i

/-- The memory after `memcpy` of `n` bytes from `src` to `dst`. -/
def copy (m : Mem) (dst src n : Nat) : Mem :=
  fun i => if dst ≤ i ∧ i < dst + n then m (src + (i - dst)) else m i

/-- The ranges of `n` bytes at `a` and `k` bytes at `b` do not overlap. -/
def Disjoint (a n b k : Nat) : Prop := a + n ≤ b ∨ b + k ≤ a

instance (a n b k : Nat) : Decidable (Disjoint a n b k) := inferInstanceAs (Decidable (_ ∨ _))

theorem Disjoint.symm {a n b k : Nat} (h : Disjoint a n b k) : Disjoint b k a n := Or.symm h

theorem store_of_lt {m : Mem} {a n v i : Nat} (h : i < a) : store m a n v i = m i := by
  induction n generalizing a v with
  | zero => rfl
  | succ n ih => rw [store, Function.update_of_ne (by omega), ih (by omega)]

/-- A store changes the bytes of its range only. -/
theorem store_of_notMem {m : Mem} {a n v i : Nat} (h : i < a ∨ a + n ≤ i) :
    store m a n v i = m i := by
  induction n generalizing a v with
  | zero => rfl
  | succ n ih => rw [store, Function.update_of_ne (by omega), ih (by omega)]

/-- What a store leaves at an address depends on the byte that was there only. -/
theorem store_congr {m m' : Mem} {a n v i : Nat} (h : m i = m' i) :
    store m a n v i = store m' a n v i := by
  induction n generalizing a v with
  | zero => exact h
  | succ n ih =>
    rw [store, store]
    by_cases hi : i = a
    · rw [hi, Function.update_self, Function.update_self]
    · rw [Function.update_of_ne hi, Function.update_of_ne hi, ih]

/-- Stores that do not overlap commute. -/
theorem store_comm {m : Mem} {a n v b k w : Nat} (h : Disjoint a n b k) :
    store (store m a n v) b k w = store (store m b k w) a n v := by
  funext i
  by_cases hi : i < a ∨ a + n ≤ i
  · rw [store_of_notMem hi]
    exact store_congr (store_of_notMem hi)
  · have hi' : i < b ∨ b + k ≤ i := by rcases h with h | h <;> omega
    rw [store_of_notMem hi']
    exact (store_congr (store_of_notMem hi')).symm

/-- A load reads the bytes of its range only. -/
theorem load_congr {m m' : Mem} {a n : Nat} (h : ∀ i, a ≤ i → i < a + n → m' i = m i) :
    load m' a n = load m a n := by
  induction n generalizing a with
  | zero => rfl
  | succ n ih =>
    rw [load, load, h a (Nat.le_refl a) (by omega), ih fun i hi hi' => h i (by omega) (by omega)]

/-- Equal bytes elsewhere have the same value. -/
theorem load_eq_load {m m' : Mem} {a b n : Nat} (h : ∀ i < n, m' (a + i) = m (b + i)) :
    load m' a n = load m b n := by
  induction n generalizing a b with
  | zero => rfl
  | succ n ih =>
    have hhead := h 0 (Nat.succ_pos n)
    rw [Nat.add_zero, Nat.add_zero] at hhead
    have hrest := ih (a := a + 1) (b := b + 1) fun i hi => by
      have hi' := h (i + 1) (Nat.succ_lt_succ hi)
      rwa [Nat.add_comm i, ← Nat.add_assoc, ← Nat.add_assoc] at hi'
    rw [load, load, hhead, hrest]

/-- Equal values are equal bytes. -/
theorem load_eq_iff {m m' : Mem} {a n : Nat} :
    load m a n = load m' a n ↔ ∀ i < n, m (a + i) = m' (a + i) := by
  induction n generalizing a with
  | zero => simp [load]
  | succ n ih =>
    rw [load, load]
    have hb := (m a).isLt
    have hb' := (m' a).isLt
    constructor
    · intro h i hi
      have hhead : (m a).toNat = (m' a).toNat := by omega
      have htail : load m (a + 1) n = load m' (a + 1) n := by omega
      cases i with
      | zero => exact BitVec.eq_of_toNat_eq hhead
      | succ i =>
        have := ih.mp htail i (by omega)
        rwa [Nat.add_assoc, Nat.add_comm 1] at this
    · intro h
      have hhead := h 0 (by omega)
      have htail : load m (a + 1) n = load m' (a + 1) n := ih.mpr fun i hi => by
        have := h (i + 1) (by omega)
        rwa [Nat.add_comm i, ← Nat.add_assoc] at this
      rw [Nat.add_zero] at hhead
      rw [hhead, htail]

theorem load_lt (m : Mem) (a n : Nat) : load m a n < 256 ^ n := by
  induction n generalizing a with
  | zero => simp [load]
  | succ n ih =>
    have h₁ := (m a).isLt
    have h₂ := ih (a + 1)
    rw [load, pow_succ]
    omega

theorem load_eq_zero {m : Mem} {a n : Nat} (h : ∀ i < n, m (a + i) = 0) : load m a n = 0 := by
  induction n generalizing a with
  | zero => rfl
  | succ n ih =>
    have hhead := h 0 (Nat.succ_pos n)
    rw [Nat.add_zero] at hhead
    have hrest := ih (a := a + 1) fun i hi => by
      have hi' := h (i + 1) (Nat.succ_lt_succ hi)
      rwa [Nat.add_comm i, ← Nat.add_assoc] at hi'
    rw [load, hhead, hrest]
    rfl

/-- A value is that of its low bytes and that of its high ones. -/
theorem load_add (m : Mem) (a i j : Nat) :
    load m a (i + j) = load m a i + 256 ^ i * load m (a + i) j := by
  induction i generalizing a with
  | zero => rw [Nat.zero_add, load, pow_zero, one_mul, Nat.zero_add, Nat.add_zero]
  | succ i ih =>
    have hsucc : a + (i + 1) = a + 1 + i := by omega
    rw [Nat.succ_add, load, load, ih (a + 1), hsucc, pow_succ]
    ring

/-- The low bytes of a value. -/
theorem load_mod (m : Mem) (a i j : Nat) : load m a (i + j) % 256 ^ i = load m a i := by
  rw [load_add, Nat.add_mul_mod_self_left, Nat.mod_eq_of_lt (load_lt m a i)]

/-- The high bytes of a value. -/
theorem load_div (m : Mem) (a i j : Nat) : load m a (i + j) / 256 ^ i = load m (a + i) j := by
  rw [load_add, Nat.add_mul_div_left _ _ (Nat.pow_pos (by decide)), Nat.div_eq_of_lt (load_lt m a i),
    Nat.zero_add]

/-- **What is stored is loaded.** -/
theorem load_store (m : Mem) (a n v : Nat) : load (store m a n v) a n = v % 256 ^ n := by
  induction n generalizing a v with
  | zero => simp [load, Nat.mod_one]
  | succ n ih =>
    have hrest : load (store m a (n + 1) v) (a + 1) n = load (store m (a + 1) n (v / 256)) (a + 1) n :=
      load_congr fun i hi _ => Function.update_of_ne (by omega) _ _
    rw [load, hrest, ih, store, Function.update_self, BitVec.toNat_ofNat, Nat.pow_succ 256,
      Nat.mul_comm (256 ^ n), Nat.mod_mul]

/-- **A store is not seen by a load elsewhere.** -/
theorem load_store_of_disjoint {m : Mem} {a n v b k : Nat} (h : Disjoint a n b k) :
    load (store m a n v) b k = load m b k :=
  load_congr fun _ hi hi' => store_of_notMem (by rcases h with h | h <;> omega)

/-! ## Copies -/

section Copy

variable {m : Mem} {dst src n i : Nat}

/-- A byte of the copied range. -/
theorem copy_of_lt (h : i < n) : copy m dst src n (dst + i) = m (src + i) := by
  rw [copy, if_pos ⟨Nat.le_add_right dst i, Nat.add_lt_add_left h dst⟩, Nat.add_sub_cancel_left]

/-- A copy changes the bytes of its range only. -/
theorem copy_of_notMem (h : i < dst ∨ dst + n ≤ i) : copy m dst src n i = m i :=
  if_neg (by omega)

theorem copy_zero : copy m dst src 0 = m := by
  funext i
  exact copy_of_notMem (Nat.lt_or_ge i dst)

/-- One more byte behind those copied. -/
theorem update_copy :
    Function.update (copy m dst src n) (dst + n) (m (src + n)) = copy m dst src (n + 1) := by
  funext i
  by_cases hi : i = dst + n
  · rw [hi, Function.update_self, copy_of_lt (Nat.lt_succ_self n)]
  · have hin : dst ≤ i ∧ i < dst + n ↔ dst ≤ i ∧ i < dst + (n + 1) := by omega
    rw [Function.update_of_ne hi, copy, copy]
    simp only [hin]

/-- One more byte in front of them. -/
theorem update_copy_succ :
    Function.update (copy m (dst + 1) (src + 1) n) dst (m src) = copy m dst src (n + 1) := by
  funext i
  rcases Nat.lt_trichotomy i dst with hi | rfl | hi
  · rw [Function.update_of_ne (Nat.ne_of_lt hi), copy_of_notMem (.inl (Nat.lt_succ_of_lt hi)),
      copy_of_notMem (.inl hi)]
  · rw [Function.update_self]
    exact (copy_of_lt (Nat.succ_pos n)).symm
  · obtain ⟨k, rfl⟩ := Nat.exists_eq_add_of_lt hi
    rw [Function.update_of_ne (Nat.ne_of_gt hi), copy, copy]
    have hin : dst + 1 ≤ dst + k + 1 ∧ dst + k + 1 < dst + 1 + n ↔
        dst ≤ dst + k + 1 ∧ dst + k + 1 < dst + (n + 1) := by omega
    have hoff : src + 1 + (dst + k + 1 - (dst + 1)) = src + (dst + k + 1 - dst) := by omega
    simp only [hin, hoff]

/-- **What is copied is loaded.** -/
theorem load_copy {k w : Nat} (h : k + w ≤ n) :
    load (copy m dst src n) (dst + k) w = load m (src + k) w := by
  refine load_eq_load fun i hi => ?_
  rw [Nat.add_assoc, Nat.add_assoc, copy_of_lt (by omega)]

end Copy

end Mem

end Colibri.Lib

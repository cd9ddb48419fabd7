import Mathlib.Algebra.Order.BigOperators.Group.Finset
import Mathlib.Data.Finset.Piecewise

/-!
# Turns of clients that are served by the least key

A server always takes a client whose key is least. One that waits with the key `v` is passed over
for clients whose keys are not above `v`. If each turn costs a client at least `c`, then a client
with the key `k` gets no more than `turns v c k` of them while the other waits. Clients may leave.

`total` adds the turns up. It is what decreases: a turn takes at least one from it
(`total_charge`, `total_leave`).
-/

namespace Colibri.Lib

/-- How many turns are left for a client with the key `k` while one with the key `v` waits; none for
one that is gone. -/
def turns (v c : ℕ) : Option ℕ → ℕ
  | none => 0
  | some k => (v + c - k) / c

variable {v c k k' : ℕ}

theorem turns_anti (h : k ≤ k') : turns v c (some k') ≤ turns v c (some k) :=
  Nat.div_le_div_right (Nat.sub_le_sub_left h (v + c))

theorem turns_pos (hc : 0 < c) (hk : k ≤ v) : 0 < turns v c (some k) :=
  Nat.div_pos (by omega) hc

/-- A turn takes one away. -/
theorem turns_charge (hc : 0 < c) (hk : k ≤ v) (h : k + c ≤ k') :
    turns v c (some k') < turns v c (some k) := by
  have hone : turns v c (some (k + c)) + 1 = turns v c (some k) := by
    unfold turns
    rw [← Nat.add_div_right _ hc]
    congr 1
    omega
  have hanti := turns_anti (v := v) (c := c) h
  omega

section Total

variable {ι : Type*} [DecidableEq ι] {S : Finset ι} {key : ι → Option ℕ} {u : ι}

/-- The turns that are left for all of them. -/
def total (v c : ℕ) (S : Finset ι) (key : ι → Option ℕ) : ℕ := ∑ u ∈ S, turns v c (key u)

/-- One client is left with less. -/
theorem total_update_lt {x : Option ℕ} (hu : u ∈ S) (h : turns v c x < turns v c (key u)) :
    total v c S (Function.update key u x) < total v c S key := by
  refine Finset.sum_lt_sum (fun j _ => ?_) ⟨u, hu, by rwa [Function.update_self]⟩
  by_cases hj : j = u
  · rw [hj, Function.update_self]
    exact h.le
  · rw [Function.update_of_ne hj]

theorem total_update_le {x : Option ℕ} (h : turns v c x ≤ turns v c (key u)) :
    total v c S (Function.update key u x) ≤ total v c S key := by
  refine Finset.sum_le_sum fun j _ => ?_
  by_cases hj : j = u
  · rw [hj, Function.update_self]
    exact h
  · rw [Function.update_of_ne hj]

/-- **A client has had its turn.** -/
theorem total_charge (hu : u ∈ S) (hc : 0 < c) (hk : key u = some k) (hkv : k ≤ v)
    (h : k + c ≤ k') :
    total v c S (Function.update key u (some k')) < total v c S key :=
  total_update_lt hu (hk ▸ turns_charge hc hkv h)

/-- **A client leaves** in its turn. -/
theorem total_leave (hu : u ∈ S) (hc : 0 < c) (hk : key u = some k) (hkv : k ≤ v) :
    total v c S (Function.update key u none) < total v c S key :=
  total_update_lt hu (hk ▸ turns_pos hc hkv)

end Total

end Colibri.Lib

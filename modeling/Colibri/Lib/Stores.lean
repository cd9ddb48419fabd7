import Colibri.Lib.Mem

/-!
# Lists of stores

What a program writes may not depend on what it has written. Then it is a list of addresses and
values, and a memory after these stores of `k` bytes each. A store is there in the end if no other
store overlaps it.
-/

namespace Colibri.Lib.Mem

/-- The memory after these stores of `k` bytes. -/
def storeAll (m : Mem) (k : Nat) : List (Nat × Nat) → Mem
  | [] => m
  | (a, v) :: ws => storeAll (m.store a k v) k ws

variable {m : Mem} {a v k : Nat} {ws : List (Nat × Nat)}

theorem load_storeAll_of_disjoint (h : ∀ w ∈ ws, Disjoint w.1 k a k) :
    (m.storeAll k ws).load a k = m.load a k := by
  induction ws generalizing m with
  | nil => rfl
  | cons w ws ih =>
    obtain ⟨hw, hrest⟩ := List.forall_mem_cons.mp h
    rw [storeAll, ih hrest, load_store_of_disjoint hw]

/-- A store that no other one overlaps. -/
theorem load_storeAll (hmem : (a, v) ∈ ws) (h : ∀ w ∈ ws, w = (a, v) ∨ Disjoint w.1 k a k) :
    (m.storeAll k ws).load a k = v % 256 ^ k := by
  induction ws generalizing m with
  | nil => exact absurd hmem List.not_mem_nil
  | cons w ws ih =>
    obtain ⟨hw, hrest⟩ := List.forall_mem_cons.mp h
    rw [storeAll]
    by_cases hin : (a, v) ∈ ws
    · exact ih hin hrest
    · obtain rfl : (a, v) = w := (List.mem_cons.mp hmem).resolve_right hin
      rw [load_storeAll_of_disjoint fun w hw' => (hrest w hw').resolve_left fun he =>
        hin (he ▸ hw'), load_store]

end Colibri.Lib.Mem

import Colibri.Memory.Entry
import Colibri.Memory.PhysicalAllocator.Run

/-!
# The kernel's memory as the virtual-memory code sees it

Above the page allocator, pages hold page tables or area records. `Kmem` keeps these by type: the
entries of every table, the records of every area slot, the `next` of every container, and the list
of the free pages. Nothing in it is cleared when a page changes hands: what `kalloc` returns holds
what the store has there.

`kalloc` and `kfree` are on the list of free pages; `kalloc_refines` and `kfree_refines` say that the
allocator of `physical_allocator.c` does the same to its ring. Both are total here: that the address
of a `kfree` is in a managed page is a condition of its callers (`FreesManaged`, `Held`).
-/

namespace Colibri.Memory

open Colibri.Lib

/-- `struct memory_area`; `next` and `prev` are addresses, 0 for `NULL`. -/
structure MemoryArea where
  start : Nat
  size : Nat
  flags : BitVec 8
  isMmio : BitVec 8
  next : Nat
  prev : Nat
  deriving DecidableEq

/-- Free pages, page tables by address and index, area records by address, containers' `next`. -/
structure Kmem where
  free : List Nat
  nxFlagEnabled : Bool
  tables : Nat → Nat → Entry
  areas : Nat → MemoryArea
  containerNext : Nat → Nat

namespace Kmem

/-- `kalloc`: the first free page, 0 if there is none. -/
def kalloc (k : Kmem) : Kmem × Nat :=
  match k.free with
  | [] => (k, 0)
  | page :: free => ({ k with free }, page)

/-- `kfree` of an address in a managed page. Of any other the code reads a bit that is not in the
bitmap, and may fault: what is said of a `kfree` holds of addresses in managed pages only. -/
def kfree (k : Kmem) (addr : Nat) : Kmem :=
  if pageStart addr ∈ k.free then k else { k with free := pageStart addr :: k.free }

theorem kalloc_nil {k : Kmem} (h : k.free = []) : k.kalloc = (k, 0) := by
  rw [kalloc, h]

theorem kalloc_cons {k : Kmem} {p : Nat} {ps : List Nat} (h : k.free = p :: ps) :
    k.kalloc = ({ k with free := ps }, p) := by
  rw [kalloc, h]

end Kmem

theorem kalloc_suffix (k : Kmem) : k.kalloc.1.free <:+ k.free := by
  cases h : k.free with
  | nil =>
    have hk : k.kalloc.1.free = k.free := by rw [Kmem.kalloc_nil h]
    exact hk.trans h ▸ List.nil_suffix
  | cons p ps =>
    rw [Kmem.kalloc_cons h]
    exact List.suffix_cons p ps

theorem kalloc_tables (k : Kmem) : k.kalloc.1.tables = k.tables ∧
    k.kalloc.1.nxFlagEnabled = k.nxFlagEnabled := by
  unfold Kmem.kalloc
  split <;> exact ⟨rfl, rfl⟩

/-- The allocator's ring holds the free pages. -/
def FreePages (w : Window) (s : PhysAlloc) (k : Kmem) : Prop :=
  ∃ L, FreeList w s L ∧ k.free = L.map w.page

/-- **`kalloc` of the allocator** takes the page that is first in the list. -/
theorem kalloc_refines {w : Window} {s : PhysAlloc} {k : Kmem} (h : FreePages w s k) :
    ∃ s', s.kalloc = some (s', k.kalloc.2) ∧ FreePages w s' k.kalloc.1 := by
  obtain ⟨L, hL, he⟩ := h
  cases L with
  | nil =>
    rw [Kmem.kalloc_nil he]
    exact ⟨s, kalloc_nil hL, [], hL, he⟩
  | cons i L =>
    obtain ⟨s', hk, hL'⟩ := kalloc_cons hL
    rw [Kmem.kalloc_cons he]
    exact ⟨s', hk, L, hL', rfl⟩

/-- **`kfree` of the allocator** puts an allocated page first and leaves a free one where it is. -/
theorem kfree_refines {w : Window} {s : PhysAlloc} {k : Kmem} (h : FreePages w s k) {a i : Nat}
    (hi : w.Allocatable i) (ha : pageStart a = w.page i) : FreePages w (s.kfree a) (k.kfree a) := by
  obtain ⟨L, hL, he⟩ := h
  have hmem : pageStart a ∈ k.free ↔ i ∈ L := by
    rw [he, ha, List.mem_map]
    constructor
    · rintro ⟨j, hj, e⟩
      rwa [← w.page_inj e]
    · exact fun hi => ⟨i, hi, rfl⟩
  unfold Kmem.kfree
  by_cases hiL : i ∈ L
  · rw [if_pos (hmem.mpr hiL), kfree_of_mem hL hiL ha]
    exact ⟨L, hL, he⟩
  · rw [if_neg fun hm => hiL (hmem.mp hm)]
    exact ⟨i :: L, kfree_of_notMem hL hi hiL ha, by rw [he, ha]; rfl⟩

end Colibri.Memory

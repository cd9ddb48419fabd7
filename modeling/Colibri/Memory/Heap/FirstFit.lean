import Colibri.Memory.Heap.Forward
import Colibri.Memory.Heap.Run

/-!
# First fit

What `alloc` does to the list of the heap where it need not grow: it takes the first free node with
room, and the rest of that node, if it has room for a header and more, becomes a free node behind it.
The `prev` links have no part in it, so the list need not have them right.

## Results

* `alloc_first_fit`: the block, the rest of its node, and that no bytes are lost or made.
-/

namespace Colibri.Memory

open Colibri.Lib HeapField HeapNode

section FirstFit

variable {lo hi sz : Nat} {n : HeapNode} {l r nodes : List HeapNode} {h : Heap}

/-- The list of a heap that is linked by `next`. -/
theorem Heap.Chained.nodes_eq (h' : h.Chained lo hi nodes) : h.nodes = nodes :=
  h'.linked.nodes_eq nat_le h'.pos h'.bound h'.layout h'.first

/-- Taking a block conserves the bytes. -/
theorem total_carve (hn : n.Fits sz) :
    total (l ++ (carve sz n ++ r)) = total (l ++ n :: r) := by
  have hsz := hn.2
  simp only [total, carve]
  split
  case isTrue =>
    simp [HeapNode.rest]
    omega
  case isFalse => simp

/-- **First fit.** On every list of the heap where some free node has room for `sz` bytes, `alloc`
takes the first such node: it is in use with at least `sz` bytes and at most a header more, what is
left of it beyond that is a free node right behind it, all other nodes stay as they are, and the bytes
of the heap are conserved. -/
theorem alloc_first_fit (h' : h.Chained lo hi nodes) (hfit : ∃ n ∈ nodes, n.Fits sz) :
    ∃ l n r, nodes = l ++ n :: r ∧ (∀ k ∈ l, ¬k.Fits sz) ∧ n.Fits sz ∧
      ∃ mem taken rest, h.alloc sz = some ({ h with mem }, n.ptr) ∧
        ({ h with mem } : Heap).Chained lo hi (l ++ taken :: (rest ++ r)) ∧
        ({ h with mem } : Heap).nodes = l ++ taken :: (rest ++ r) ∧
        taken.addr = n.addr ∧ taken.used = true ∧ sz ≤ taken.size ∧
        taken.size ≤ sz + heapNodeSize ∧
        (if sz + heapNodeSize < n.size then
            rest = [⟨n.ptr + sz, n.size - sz - heapNodeSize, false⟩]
          else rest = []) ∧
        total (l ++ taken :: (rest ++ r)) = total nodes := by
  obtain ⟨l, n, r, rfl, hl, hn, he, -⟩ := exists_fit hfit
  obtain ⟨mem, halloc, hlinked, -, -⟩ :=
    Forward.alloc h'.first h'.pos h'.bound h'.layout h'.linked hl hn
  have hlayout : Layout (· ≤ ·) lo (l ++ (carve sz n ++ r)) hi := by
    rw [← he]
    exact h'.layout.allocated fun _ => Nat.le_refl _
  have hfirst : h.kernelHeap = firstAddr (l ++ (carve sz n ++ r)) 0 := by
    rw [h'.first, firstAddr_append l (n :: r), firstAddr_append l (carve sz n ++ r), firstAddr_carve]
    rfl
  have hchained : ({ h with mem } : Heap).Chained lo hi (l ++ (carve sz n ++ r)) :=
    ⟨hfirst, hlayout, hlinked, h'.pos, h'.bound⟩
  have htotal := total_carve (l := l) (r := r) hn
  have hsz := hn.2
  refine ⟨l, n, r, rfl, hl, hn, mem, ?_⟩
  by_cases hlt : sz + heapNodeSize < n.size
  · have hcarve : carve sz n = [⟨n.addr, sz, true⟩, n.rest sz] := if_pos hlt
    rw [hcarve] at hchained htotal
    exact ⟨⟨n.addr, sz, true⟩, [n.rest sz], halloc, hchained, hchained.nodes_eq, rfl, rfl,
      Nat.le_refl sz, Nat.le_add_right _ _, (if_pos hlt).mpr rfl, htotal⟩
  · have hcarve : carve sz n = [⟨n.addr, n.size, true⟩] := if_neg hlt
    rw [hcarve] at hchained htotal
    exact ⟨⟨n.addr, n.size, true⟩, [], halloc, hchained, hchained.nodes_eq, rfl, rfl, hsz,
      Nat.not_lt.mp hlt, (if_neg hlt).mpr rfl, htotal⟩

end FirstFit

/-- A used node, a small free one, a used one and a free one. -/
def gappedNodes : List HeapNode :=
  [⟨0x1000, 32, true⟩, ⟨0x1040, 8, false⟩, ⟨0x1068, 16, true⟩, ⟨0x1098, 72, false⟩]

/-- The small heap with three blocks, of which the second is freed. -/
def gappedHeap : Option Heap :=
  (smallHeap.alloc 32).bind fun r => (r.1.alloc 8).bind fun r => (r.1.alloc 16).bind fun r =>
    r.1.free 0x1060

theorem gappedHeap_chained : ∃ h, gappedHeap = some h ∧ h.Chained 0x1000 0x1100 gappedNodes := by
  have hany : gappedHeap.any fun h => decide (h.Tiles 0x1000 256 ∧ h.nodes = gappedNodes ∧
      h.kernelHeap = 0x1000) := by
    decide +kernel
  obtain ⟨h, hh, hp⟩ := (Option.any_eq_true _ _).mp hany
  obtain ⟨ht, hnodes, hfirst⟩ := of_decide_eq_true hp
  have hlayout := ht.layout
  have hlinked := ht.linked
  rw [hnodes] at hlayout hlinked
  exact ⟨h, hh, hfirst, hlayout.weaken, hlinked.forward, by decide, by decide⟩

/-- 24 bytes, for which the first free node is too small. -/
theorem alloc_first_fit_small : ∃ h, gappedHeap = some h ∧ ∃ l n r, gappedNodes = l ++ n :: r ∧
    (∀ k ∈ l, ¬k.Fits 24) ∧ n.Fits 24 ∧
      ∃ mem taken rest, h.alloc 24 = some ({ h with mem }, n.ptr) ∧
        ({ h with mem } : Heap).Chained 0x1000 0x1100 (l ++ taken :: (rest ++ r)) ∧
        ({ h with mem } : Heap).nodes = l ++ taken :: (rest ++ r) ∧
        taken.addr = n.addr ∧ taken.used = true ∧ 24 ≤ taken.size ∧
        taken.size ≤ 24 + heapNodeSize ∧
        (if 24 + heapNodeSize < n.size then
            rest = [⟨n.ptr + 24, n.size - 24 - heapNodeSize, false⟩]
          else rest = []) ∧
        total (l ++ taken :: (rest ++ r)) = total gappedNodes := by
  obtain ⟨h, hh, hchained⟩ := gappedHeap_chained
  exact ⟨h, hh, alloc_first_fit hchained ⟨⟨0x1098, 72, false⟩, by simp [gappedNodes], by decide⟩⟩

end Colibri.Memory

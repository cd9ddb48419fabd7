import Colibri.Memory.Heap.Alloc

/-!
# `alloc` on a list whose back links are lost

`alloc` follows `next` only. It keeps the list of nodes whatever the `prev` links are, also when it
splits a node in the middle of the list. So what it returns is read off the list of nodes, and the
bytes of the blocks have no part in it.
-/

namespace Colibri.Memory

open Colibri.Lib HeapField HeapNode

/-- The byte is in a free block. -/
def FreeByte (nodes : List HeapNode) (i : Nat) : Prop :=
  ∃ n ∈ nodes, n.used = false ∧ n.ptr ≤ i ∧ i < n.stop

/-- The first node with room for `sz` bytes. -/
def firstFit (sz : Nat) (nodes : List HeapNode) : Option HeapNode :=
  nodes.find? fun n => decide (n.Fits sz)

section

variable {lo hi sz : Nat} {n : HeapNode} {l r : List HeapNode}

/-- **`alloc` of a list that is linked by `next`**: it takes the first node that fits and changes the
headers of that node and of its rest only. -/
theorem Forward.alloc {h : Heap} (hfirst : h.kernelHeap = firstAddr (l ++ n :: r) 0) (hlo : 0 < lo)
    (hhi : hi < u64Size) (hlay : Layout (· ≤ ·) lo (l ++ n :: r) hi) (hs : Forward h.mem (l ++ n :: r))
    (hl : ∀ k ∈ l, ¬k.Fits sz) (hn : n.Fits sz) :
    ∃ mem, h.alloc sz = some ({ h with mem }, n.ptr) ∧ Forward mem (l ++ (carve sz n ++ r)) ∧
      (∀ i, OffHeaders (carve sz n) i → mem i = h.mem i) ∧ n.ptr ≠ 0 := by
  have hR : ∀ a b : Nat, a ≤ b → a ≤ b := fun _ _ h => h
  obtain ⟨halloc, hptr, hframe⟩ := hs.alloc_eq hR hlo hhi hlay hfirst hl hn
  obtain ⟨_, -, hsuf⟩ := hlay.suffix hR
  have htake := hs.suffix.take hR hhi hsuf hn
  have hbefore : ∀ k ∈ l, ∀ f : HeapField,
      f.get (Memory.take h.mem sz n.addr) k.addr = f.get h.mem k.addr := fun k hk f => by
    refine get_congr fun i h₁ h₂ => hframe i fun c hc => ?_
    have hstop := hlay.stop_le hR hk
    have hk' := k.addr_add_le_stop
    rw [carve] at hc
    split at hc <;> simp only [List.mem_cons, List.not_mem_nil, or_false] at hc
    · rcases hc with rfl | rfl
      · exact .inl (by simp only; omega)
      · exact .inl (by simp only [HeapNode.rest]; omega)
    · subst hc
      exact .inl (by simp only; omega)
  exact ⟨_, halloc, hs.replace htake (firstAddr_carve sz n r 0) hbefore, hframe, hptr⟩

end

/-! ## The heap -/

/-- The nodes of the heap: linked by `next`, and apart from each other between `lo` and `hi`. -/
structure Heap.Chained (h : Heap) (lo hi : Nat) (nodes : List HeapNode) : Prop where
  first : h.kernelHeap = firstAddr nodes 0
  layout : Layout (· ≤ ·) lo nodes hi
  linked : Forward h.mem nodes
  pos : 0 < lo
  bound : hi < u64Size

/-- The list of the heap is `nodes`: apart from each other between `lo` and `hi`, and linked in both
directions. -/
structure Heap.Linked (h : Heap) (lo hi : Nat) (nodes : List HeapNode) : Prop where
  first : h.kernelHeap = firstAddr nodes 0
  layout : Layout (· ≤ ·) lo nodes hi
  linked : Seg h.mem 0 nodes 0
  pos : 0 < lo
  bound : hi < u64Size

/-- A block of `sz` bytes at `a` is in use. -/
def Block (nodes : List HeapNode) (a sz : Nat) : Prop :=
  ∃ n ∈ nodes, n.used = true ∧ n.ptr = a ∧ sz ≤ n.size

section

variable {lo hi sz a b k i p : Nat} {m m' : Mem} {n : HeapNode} {l r nodes : List HeapNode} {h : Heap}

theorem nat_le : ∀ a b : Nat, a ≤ b → a ≤ b := fun _ _ h => h

theorem Heap.Linked.chained (h' : h.Linked lo hi nodes) : h.Chained lo hi nodes :=
  ⟨h'.first, h'.layout, h'.linked.forward, h'.pos, h'.bound⟩

/-- Writes off the headers leave the list alone. -/
theorem Heap.Linked.write (h' : h.Linked lo hi nodes)
    (hm : ∀ i, ¬OffHeaders nodes i → m i = h.mem i) :
    ({ h with mem := m } : Heap).Linked lo hi nodes := by
  refine ⟨h'.first, h'.layout, h'.linked.congr fun n hn f => ?_, h'.pos, h'.bound⟩
  refine get_congr fun i h₁ h₂ => hm i fun hoff => ?_
  have := hoff n hn
  omega

/-- Free blocks are off the headers. -/
theorem FreeByte.offHeaders (hi : FreeByte nodes i) (hlay : Layout (· ≤ ·) lo nodes k) :
    OffHeaders nodes i := by
  obtain ⟨n, hn, -, h₁, h₂⟩ := hi
  exact hlay.offHeaders nat_le hn h₁ h₂

theorem Block.offHeaders (hb : Block nodes a sz) (hlay : Layout (· ≤ ·) lo nodes hi) (h₁ : a ≤ i)
    (h₂ : i < a + sz) : OffHeaders nodes i := by
  obtain ⟨n, hn, -, rfl, hsz⟩ := hb
  refine hlay.offHeaders nat_le hn h₁ ?_
  rw [HeapNode.stop]
  rw [HeapNode.ptr] at h₂
  omega

theorem Block.not_free (hb : Block nodes a sz) (hlay : Layout (· ≤ ·) lo nodes hi) (h₁ : a ≤ i)
    (h₂ : i < a + sz) : ¬FreeByte nodes i := by
  rintro ⟨k, hk, hfree, h₃, h₄⟩
  obtain ⟨n, hn, hused, rfl, hsz⟩ := hb
  rw [HeapNode.ptr] at h₁ h₂ h₃
  have hkp := k.addr_add_le_stop
  have hstop : n.stop = n.addr + heapNodeSize + n.size := rfl
  rcases hlay.eq_or_stop_le nat_le hn hk with rfl | h | h
  · rw [hused] at hfree
    exact absurd hfree (by decide)
  · omega
  · omega

/-- Two blocks are one, or apart. -/
theorem Block.apart (ha : Block nodes a sz) (hb : Block nodes b k)
    (hlay : Layout (· ≤ ·) lo nodes hi) (hne : a ≠ b) : a + sz ≤ b ∨ b + k ≤ a := by
  obtain ⟨n, hn, -, rfl, hsz⟩ := ha
  obtain ⟨j, hj, -, rfl, hk⟩ := hb
  have hstop : n.stop = n.addr + heapNodeSize + n.size := rfl
  have hstop' : j.stop = j.addr + heapNodeSize + j.size := rfl
  rw [HeapNode.ptr, HeapNode.ptr] at hne ⊢
  rcases hlay.eq_or_stop_le nat_le hn hj with rfl | h | h
  · exact absurd rfl hne
  · omega
  · omega

/-- A change of the blocks leaves the list alone. -/
theorem Heap.Chained.write (h' : h.Chained lo hi nodes)
    (hm : ∀ i, ¬OffHeaders nodes i → m i = h.mem i) :
    ({ h with mem := m } : Heap).Chained lo hi nodes := by
  refine ⟨h'.first, h'.layout, h'.linked.congr fun n hn f => ?_, h'.pos, h'.bound⟩
  refine get_congr fun i h₁ h₂ => hm i fun hoff => ?_
  have := hoff n hn
  omega

/-- What an allocation leaves free was free before. -/
theorem freeByte_of_allocated (hi : FreeByte (allocated sz nodes) i) : FreeByte nodes i := by
  induction nodes with
  | nil => exact hi
  | cons n nodes ih =>
    rw [allocated] at hi
    obtain ⟨k, hk, hfree, h₁, h₂⟩ := hi
    split at hk
    case isFalse hfit =>
      rcases List.mem_cons.mp hk with rfl | hk
      · exact ⟨k, List.mem_cons_self, hfree, h₁, h₂⟩
      · obtain ⟨j, hj, hrest⟩ := ih ⟨k, hk, hfree, h₁, h₂⟩
        exact ⟨j, List.mem_cons_of_mem _ hj, hrest⟩
    case isTrue hfit =>
      rcases List.mem_append.mp hk with hk | hk
      · rw [carve] at hk
        split at hk
        case isTrue hlt =>
          rcases List.mem_cons.mp hk with rfl | hk
          · exact absurd hfree (by simp)
          · obtain rfl := List.mem_singleton.mp hk
            refine ⟨n, List.mem_cons_self, hfit.1, ?_, ?_⟩
            · simp only [HeapNode.ptr, HeapNode.rest] at h₁ ⊢
              omega
            · rwa [rest_stop (by omega)] at h₂
        case isFalse =>
          obtain rfl := List.mem_singleton.mp hk
          exact absurd hfree (by simp)
      · exact ⟨k, List.mem_cons_of_mem _ hk, hfree, h₁, h₂⟩

/-- Blocks in use stay in use. -/
theorem Block.allocated (hb : Block nodes a k) : Block (allocated sz nodes) a k := by
  obtain ⟨n, hn, hused, hptr, hk⟩ := hb
  refine ⟨n, ?_, hused, hptr, hk⟩
  induction nodes with
  | nil => exact hn
  | cons j nodes ih =>
    rw [Memory.allocated]
    rcases List.mem_cons.mp hn with rfl | hn
    · have hunfit : ¬n.Fits sz := fun hfit => by
        rw [hfit.1] at hused
        exact absurd hused (by decide)
      rw [if_neg hunfit]
      exact List.mem_cons_self
    · split
      · exact List.mem_append_right _ hn
      · exact List.mem_cons_of_mem _ (ih hn)

/-- **`alloc` reads the list of nodes only**: it takes the first node that fits, writes headers, and
leaves the bytes of all blocks as they were. -/
theorem Heap.Chained.alloc (h' : h.Chained lo hi nodes) (hfit : firstFit sz nodes = some n) :
    ∃ mem, h.alloc sz = some ({ h with mem }, n.ptr) ∧
      ({ h with mem } : Heap).Chained lo hi (allocated sz nodes) ∧
      (∀ i, OffHeaders (allocated sz nodes) i → mem i = h.mem i) ∧
      Block (allocated sz nodes) n.ptr sz ∧ (∀ i, n.ptr ≤ i → i < n.ptr + sz → FreeByte nodes i) ∧
      n.ptr ≠ 0 := by
  have hn : n.Fits sz := by simpa using List.find?_some hfit
  obtain ⟨l, n', r, rfl, hl, hn', he, -⟩ := exists_fit ⟨n, List.mem_of_find?_eq_some hfit, hn⟩
  obtain rfl : n' = n := by
    rw [firstFit, List.find?_append, List.find?_eq_none.mpr (by simpa using hl), Option.none_or,
      List.find?_cons_of_pos (by simpa using hn')] at hfit
    exact Option.some.inj hfit
  have hlay := h'.layout
  obtain ⟨mem, halloc, hlinked, hframe, hne⟩ := Forward.alloc h'.first h'.pos h'.bound
    hlay h'.linked hl hn'
  refine ⟨mem, halloc, ⟨?_, hlay.allocated fun _ => Nat.le_refl _, ?_, h'.pos, h'.bound⟩,
    fun i hi => ?_, ?_, fun i h₁ h₂ => ⟨n', by simp, hn.1, h₁, ?_⟩, hne⟩
  · rw [he, h'.first, firstAddr_append l (n' :: r), firstAddr_append l (carve sz n' ++ r),
      firstAddr_carve]
    rfl
  · rw [he]
    exact hlinked
  · rw [he] at hi
    exact hframe i (OffHeaders.append_iff.mp (OffHeaders.append_iff.mp hi).2).1
  · obtain ⟨c, s, hcarve, haddr, hused, hsz⟩ := carve_eq_cons sz n'
    rw [he, hcarve]
    exact ⟨c, by simp, hused, by rw [HeapNode.ptr, HeapNode.ptr, haddr], hsz hn.2⟩
  · have := hn.2
    rw [HeapNode.ptr] at h₂
    rw [HeapNode.stop]
    omega

end

end Colibri.Memory

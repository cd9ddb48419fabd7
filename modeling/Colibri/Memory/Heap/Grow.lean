import Colibri.Memory.Heap.FirstFit

/-!
# Growth of the heap

What the growth in `alloc` does with the area it is given (`Heap.Linked.grow`), and what `alloc` and
`realloc` do when there is none. `alloc` returns `NULL` and leaves the heap as it was. `realloc` does
not look at what `alloc` returned: the move copies the block to `NULL`, or frees it if there is nothing
to copy.
-/

namespace Colibri.Memory

open Colibri.Lib HeapField HeapNode

-- the call of `vmm_alloc_at` must not be evaluated where it is the discriminant of the match
attribute [local irreducible] Kmem.vmmAllocAt in
theorem grow_def : Heap.grow = fun h sz cur =>
    match h.kmem.vmmAllocAt cur h.kernelVmm sz memoryFlagWrite with
    | none => none
    | some (kmem, kernelVmm, 0) => some ({ h with kmem, kernelVmm }, 0)
    | some (kmem, kernelVmm, area) =>
      let start := (kmem.areas area).start
      let length := (kmem.areas area).size
      let regions := (start, length) :: h.regions
      if start = u64Add cur (size.get h.mem cur) then
        let m := size.set h.mem cur (u64Add (size.get h.mem cur) length)
        some ({ h with mem := m, kmem, kernelVmm, regions }, cur)
      else
        let m := size.set h.mem start length
        let m := status.set m start heapFree
        let m := prev.set m start cur
        let m := next.set m start 0
        let m := next.set m cur start
        some ({ h with mem := m, kmem, kernelVmm, regions }, start) := rfl

theorem grow_none {h : Heap} {sz cur : Nat}
    (hn : h.kmem.vmmAllocAt cur h.kernelVmm sz memoryFlagWrite = none) : h.grow sz cur = none := by
  rw [grow_def]
  beta_reduce
  rw [hn]

theorem grow_null {h : Heap} {sz cur : Nat} {kmem : Kmem} {kernelVmm : Vmm}
    (hn : h.kmem.vmmAllocAt cur h.kernelVmm sz memoryFlagWrite = some (kmem, kernelVmm, 0)) :
    h.grow sz cur = some ({ h with kmem, kernelVmm }, 0) := by
  rw [grow_def]
  beta_reduce
  rw [hn]
  rfl

/-- A new area that is not right behind the block of the last node is a node of its own. -/
theorem grow_area {h : Heap} {sz cur area start length : Nat} {kmem : Kmem} {kernelVmm : Vmm}
    (hrun : h.kmem.vmmAllocAt cur h.kernelVmm sz memoryFlagWrite = some (kmem, kernelVmm, area))
    (harea : area ≠ 0) (hs : (kmem.areas area).start = start) (hlen : (kmem.areas area).size = length)
    (htest : start ≠ u64Add cur (size.get h.mem cur)) :
    h.grow sz cur = some ({ h with
      mem := next.set (next.set (prev.set (status.set (size.set h.mem start length) start heapFree)
        start cur) start 0) cur start
      kmem, kernelVmm, regions := (start, length) :: h.regions }, start) := by
  obtain ⟨a, rfl⟩ := Nat.exists_eq_succ_of_ne_zero harea
  subst hs hlen
  rw [grow_def]
  beta_reduce
  rw [hrun]
  exact if_neg htest

/-- No node has room for `sz` bytes, and neither has `kernel_vmm`. -/
structure Heap.Exhausted (h : Heap) (nodes : List HeapNode) (sz : Nat) : Prop where
  nonempty : nodes ≠ []
  unfit : ∀ k ∈ nodes, ¬k.Fits sz
  noArea : h.kmem.vmmAllocAt (lastAddr 0 nodes) h.kernelVmm sz memoryFlagWrite =
    some (h.kmem, h.kernelVmm, 0)

section Heap

variable {lo hi hi' sz : Nat} {m : Mem} {n : HeapNode} {l r nodes : List HeapNode} {h : Heap}

/-- Where no node fits, the search of `alloc` ends at the last one. -/
theorem Forward.findFit_last {fuel : Nat} (hs : Forward m nodes) (hne : nodes ≠ [])
    (hl : ∀ k ∈ nodes, ¬k.Fits sz) (hfuel : nodes.length ≤ fuel) (hpos : ∀ k ∈ nodes, k.addr ≠ 0) :
    Memory.findFit m sz fuel (firstAddr nodes 0) = some (lastAddr 0 nodes) ∧
      next.get m (lastAddr 0 nodes) = 0 ∧ Unfit m sz (lastAddr 0 nodes) ∧ lastAddr 0 nodes ≠ 0 := by
  induction nodes generalizing fuel with
  | nil => exact absurd rfl hne
  | cons n nodes ih =>
    cases fuel with
    | zero => exact absurd hfuel (Nat.not_succ_le_zero _)
    | succ fuel =>
      obtain ⟨hn, hr⟩ := hs
      have hunfit : Unfit m sz n.addr := hn.unfit_iff.mpr (hl n List.mem_cons_self)
      rw [firstAddr, Memory.findFit, if_pos hunfit]
      cases nodes with
      | nil => exact ⟨if_pos hn.next, hn.next, hunfit, hpos n List.mem_cons_self⟩
      | cons k nodes =>
        have hnext : next.get m n.addr = k.addr := hn.next
        rw [if_neg (hnext ▸ hpos k (by simp)), hnext]
        exact ih hr (by simp) (fun j hj => hl j (List.mem_cons_of_mem _ hj))
          (Nat.le_of_succ_le_succ hfuel) fun j hj => hpos j (List.mem_cons_of_mem _ hj)

/-- A list in which no node fits has its rest at the end, if it gets one. -/
theorem splitSafe_last (hl : ∀ k ∈ nodes, ¬k.Fits sz) (hn : n.Fits sz) :
    SplitSafe sz (nodes ++ [n]) := by
  induction nodes with
  | nil =>
    rw [List.nil_append, SplitSafe, if_pos hn]
    exact .inr rfl
  | cons k nodes ih =>
    rw [List.cons_append, SplitSafe, if_neg (hl k List.mem_cons_self)]
    exact ih fun j hj => hl j (List.mem_cons_of_mem _ hj)

/-- **The heap grows** by an area behind its last node: the node made of it starts with the area, and
its block is as long as the whole area. -/
theorem Heap.Linked.grow {kmem : Kmem} {kernelVmm : Vmm} {area start length : Nat}
    (hl : h.Linked lo hi (l ++ [n]))
    (hrun : h.kmem.vmmAllocAt n.addr h.kernelVmm sz memoryFlagWrite = some (kmem, kernelVmm, area))
    (harea : area ≠ 0) (hs : (kmem.areas area).start = start) (hlen : (kmem.areas area).size = length)
    (hstart : n.stop ≤ start) (hend : start + heapNodeSize + length < u64Size) :
    ∃ h₁, h.grow sz n.addr = some (h₁, start) ∧
      h₁.Linked lo (start + heapNodeSize + length) (l ++ [n] ++ [⟨start, length, false⟩]) ∧
      h₁.regions = (start, length) :: h.regions := by
  have hstop : n.stop = n.addr + heapNodeSize + n.size := rfl
  have hsz : heapNodeSize = 32 := rfl
  have hhead := (Seg.append_iff.mp hl.linked).2.1
  have hnaddr : n.addr < u64Size := by omega
  have hap : Apart n.addr start := .inl (by omega)
  have htest : start ≠ u64Add n.addr (size.get h.mem n.addr) := by
    rw [hhead.size, u64Add_eq (by omega)]
    omega
  have hgrow := grow_area hrun harea hs hlen htest
  obtain ⟨m, hm⟩ : ∃ m, m = next.set (next.set (prev.set (status.set (size.set h.mem start length)
    start heapFree) start n.addr) start 0) n.addr start := ⟨_, rfl⟩
  refine ⟨{ h with mem := m, kmem, kernelVmm, regions := (start, length) :: h.regions }, ?_, ?_, rfl⟩
  · rw [hgrow, hm]
  · rw [List.append_assoc]
    have hlay := hl.layout
    refine ⟨?_, ?_, ?_, hl.pos, hend⟩
    · rw [hl.first, firstAddr_append, firstAddr_append]
      rfl
    · obtain ⟨hfront, -⟩ := Layout.append_iff.mp hlay
      exact Layout.append_iff.mpr ⟨hfront, hstart, Nat.le_refl _⟩
    · have hn : Header m n (lastAddr 0 l) start := by
        refine ⟨?_, ?_, ?_, ?_⟩ <;>
          simp only [hm, get_set_ne, get_set_apart, hap.symm, ne_eq, reduceCtorEq, not_false_eq_true]
        · exact hhead.size
        · exact hhead.status
        · exact hhead.prev
        · exact get_set_u64 (by decide) (by omega)
      have hx : Header m ⟨start, length, false⟩ n.addr 0 := by
        refine ⟨?_, ?_, ?_, ?_⟩ <;>
          simp only [hm, get_set_ne, get_set_apart, hap, ne_eq, reduceCtorEq, not_false_eq_true]
        · exact get_set_u64 (by decide) (by omega)
        · exact get_set_self (by decide)
        · exact get_set_u64 (by decide) hnaddr
        · exact get_set_u64 (by decide) u64Size_pos
      have hfront : ∀ i, i < n.addr → m i = h.mem i := fun i hi => by
        have hin : i < n.addr ∨ n.addr + heapNodeSize ≤ i := .inl hi
        have his : i < start ∨ start + heapNodeSize ≤ i := .inl (by omega)
        rw [hm, set_of_notMem hin, set_of_notMem his, set_of_notMem his, set_of_notMem his,
          set_of_notMem his]
      exact hl.linked.replace nat_le hlay (s := [n, ⟨start, length, false⟩]) rfl hfront
        ⟨hn, hx, trivial⟩

/-- **`alloc` of a heap that grows** is `alloc` of the grown heap, whose last node fits. -/
theorem Heap.Linked.alloc_grown {h₁ : Heap} {x : HeapNode} (hl : h.Linked lo hi nodes)
    (hne : nodes ≠ []) (hunfit : ∀ k ∈ nodes, ¬k.Fits sz)
    (hgrow : h.grow sz (lastAddr 0 nodes) = some (h₁, x.addr)) (hl₁ : h₁.Linked lo hi' (nodes ++ [x]))
    (hx : x.Fits sz) : h.alloc sz = h₁.alloc sz := by
  have hpos : ∀ {hi} {l : List HeapNode}, Layout (· ≤ ·) lo l hi → ∀ k ∈ l, k.addr ≠ 0 :=
    fun hlay k hk => by
      have := ((hlay.le nat_le).2 k hk).1
      have := hl.pos
      omega
  have hlen : nodes.length < u64Size := by
    have := hl.layout.length_le nat_le
    have := hl.bound
    rw [heapNodeSize] at *
    omega
  obtain ⟨hfind, hnext, hlast, -⟩ := hl.linked.forward.findFit_last hne hunfit
    (Nat.le_of_lt hlen) (hpos hl.layout)
  have hfind₁ := hl₁.linked.forward.findFit hunfit hx hlen (hpos hl₁.layout)
  have hhead := hl₁.linked.forward.suffix.1
  have hfits : ¬Unfit h₁.mem sz x.addr := fun hu => hhead.unfit_iff.mp hu hx
  rw [← hl.first] at hfind
  rw [← hl₁.first] at hfind₁
  unfold Heap.alloc
  simp only [hfind, hfind₁, hnext, hlast, hgrow, hfits, Option.bind_eq_bind, Option.bind_some,
    and_self, and_false, if_true, if_false]

theorem Heap.Exhausted.grow (hex : h.Exhausted nodes sz) :
    h.grow sz (lastAddr 0 nodes) = some (h, 0) := by
  rw [grow_null hex.noArea]

/-- **`alloc` where no node fits** grows the heap behind its last node. -/
theorem Heap.Chained.alloc_grow (h' : h.Chained lo hi nodes) (hne : nodes ≠ [])
    (hunfit : ∀ k ∈ nodes, ¬k.Fits sz) :
    h.alloc sz = (h.grow sz (lastAddr 0 nodes)).bind fun (h, cur) =>
      if cur = 0 then some (h, 0)
      else some ({ h with mem := take h.mem sz cur }, u64Add cur heapNodeSize) := by
  have hbound := h'.bound
  have hlo := h'.pos
  have hpos : ∀ k ∈ nodes, k.addr ≠ 0 := fun k hk => by
    have := (h'.layout.le nat_le).2 k hk
    omega
  have hlen : nodes.length ≤ u64Size := by
    have := h'.layout.length_le nat_le
    rw [heapNodeSize] at this
    omega
  obtain ⟨hfind, hnext, hlast, -⟩ := h'.linked.findFit_last hne hunfit hlen hpos
  rw [← h'.first] at hfind
  rw [Heap.alloc, hfind]
  simp only [Option.bind_eq_bind, Option.bind_some, hnext, hlast, and_self, if_true]

/-- **`alloc` of a heap that cannot grow** returns `NULL` and changes nothing. -/
theorem Heap.Chained.alloc_exhausted (h' : h.Chained lo hi nodes) (hex : h.Exhausted nodes sz) :
    h.alloc sz = some (h, 0) := by
  rw [h'.alloc_grow hex.nonempty hex.unfit, hex.grow]
  rfl

/-- A used node is not in the list after it is freed. -/
theorem notMem_freed (hlay : Layout (· ≤ ·) lo (l ++ n :: r) hi) (hused : n.used = true) :
    n ∉ freed l n r := by
  intro hmem
  obtain ⟨f, hf, hfree, hle, hge, -, -⟩ := exists_mem_freed l n r
  have hn := n.addr_add_le_stop
  have hsize : 0 < heapNodeSize := by decide
  rcases hlay.freed.eq_or_stop_le nat_le hmem hf with rfl | hstop | hstop
  · rw [hused] at hfree
    exact absurd hfree (by decide)
  · have := f.addr_add_le_stop
    omega
  · omega

/-- **`realloc` of a block that has to move, on a heap that cannot grow**, does not return, or frees
the block. -/
theorem Heap.Linked.realloc_exhausted (h' : h.Linked lo hi (l ++ n :: r)) (hused : n.used = true)
    (hpos : 0 < sz) (hsz : n.size ≤ sz) (hmove : MustMove h.mem n.addr n.ptr sz)
    (hex : h.Exhausted (l ++ n :: r) sz) :
    h.realloc n.ptr sz = none ∨
      ∃ h₁, h.realloc n.ptr sz = some (h₁, 0) ∧ n ∉ h₁.nodes := by
  have hbound := h'.bound
  have hle := Nat.le_of_lt hbound
  have hnode : u64Sub n.ptr heapNodeSize = n.addr :=
    h'.layout.u64Sub_ptr nat_le hle (by simp)
  have hsize : size.get h.mem n.addr = n.size := (Seg.append_iff.mp h'.linked).2.1.size
  have hptr : n.ptr ≠ 0 := by
    rw [HeapNode.ptr, heapNodeSize]
    omega
  have halloc := h'.chained.alloc_exhausted hex
  have hrealloc : h.realloc n.ptr sz = h.move n.addr n.ptr sz := by
    unfold Heap.realloc
    rw [if_neg hptr, if_neg (Nat.pos_iff_ne_zero.mp hpos), hnode]
    dsimp only
    rw [hsize, if_neg (Nat.not_lt.mpr hsz), if_pos hmove]
  rw [hrealloc]
  by_cases h0 : n.size = 0
  case neg =>
    left
    unfold Heap.move
    simp [halloc, hsize, h0]
  rw [Heap.move_null halloc hnode (hsize.trans h0)]
  by_cases ht : Trapped l n r
  · left
    rw [freeNode_trapped nat_le h'.pos hle h'.layout hused h'.linked ht]
    rfl
  · right
    obtain ⟨m', he, hs, -⟩ := freeNode_spec nat_le h'.pos hle h'.layout hused h'.linked ht
    refine ⟨{ h with mem := m' }, by rw [he]; rfl, ?_⟩
    have hlinked : ({ h with mem := m' } : Heap).Linked lo hi (freed l n r) :=
      ⟨h'.first.trans (firstAddr_freed l n r 0).symm, h'.layout.freed, hs, h'.pos, hbound⟩
    rw [hlinked.chained.nodes_eq]
    exact notMem_freed h'.layout hused

end Heap

end Colibri.Memory

import Colibri.Memory.Heap.Grow
import Colibri.Memory.Heap.Overlap
import Colibri.Memory.Heap.StaleLink
import Colibri.Memory.Vmm.Areas

/-!
# What `realloc` does to a heap

A heap is well formed when its list is in address order, linked in both directions, and covers the
bytes of its regions and no others. `realloc` keeps a block where it is (shrunk, or grown into the free
node behind it), or moves it.

## Results

* `realloc_iff`: the block is resized with its bytes, the other blocks stay as they are and the heap
  stays well formed, iff `ReallocSafe`.
* `realloc_drops_blocks`: a block grows by 18 bytes, and the two nodes behind it are no longer in the
  list.
-/

namespace Colibri.Memory

open Colibri.Lib HeapField HeapNode

/-- The address is in a region of the heap. -/
def Heap.InRegion (h : Heap) (i : Nat) : Prop := ∃ reg ∈ h.regions, reg.1 ≤ i ∧ i < reg.1 + reg.2

/-- A well-formed heap: the nodes are in address order, linked in both directions, and tile the
regions. -/
structure Heap.TilesRegions (h : Heap) (nodes : List HeapNode) : Prop where
  linked : ∃ lo hi, h.Linked lo hi nodes
  covers : ∀ i, Covers nodes i ↔ h.InRegion i

/-- What `realloc` of the block of `n` to `sz` bytes should come to: a block of that size at `p`, with
the bytes of the old one, and the other blocks in use as they were. -/
structure Heap.Resized (h : Heap) (nodes : List HeapNode) (n : HeapNode) (sz : Nat) (h' : Heap)
    (p : Nat) (nodes' : List HeapNode) : Prop where
  block : ∃ n' ∈ nodes', n'.used = true ∧ n'.ptr = p ∧ sz ≤ n'.size
  contents : ∀ i < min n.size sz, h'.mem (p + i) = h.mem (n.ptr + i)
  others : ∀ k ∈ nodes, k.used = true → k ≠ n →
    k ∈ nodes' ∧ k.ptr ≠ p ∧ ∀ i < k.size, h'.mem (k.ptr + i) = h.mem (k.ptr + i)

/-- `realloc` of the block of `n` to `sz` bytes returns, resizes the block and leaves a well-formed
heap. -/
def Heap.ReallocWorks (h : Heap) (nodes : List HeapNode) (n : HeapNode) (sz : Nat) : Prop :=
  ∃ h' p nodes', h.realloc n.ptr sz = some (h', p) ∧ h'.TilesRegions nodes' ∧
    h.Resized nodes n sz h' p nodes'

/-- The heap can grow by `sz` bytes: its regions are areas of `kernel_vmm`, which has a further one
for it. -/
structure Heap.CanGrow (h : Heap) (nodes : List HeapNode) (sz : Nat) : Prop where
  areas : ∃ C L, AreaList h.kmem h.kernelVmm C L ∧ ∀ reg ∈ h.regions, ∃ a ∈ L,
    (h.kmem.areas a).start ≤ reg.1 ∧ reg.1 + reg.2 ≤ areaEnd h.kmem a
  noWrap : NoWrap h.kernelVmm (lastAddr 0 nodes) sz
  area : ∃ kmem kernelVmm a, a ≠ 0 ∧
    h.kmem.vmmAllocAt (lastAddr 0 nodes) h.kernelVmm sz memoryFlagWrite = some (kmem, kernelVmm, a)

/-- There is memory for a block of `sz` bytes. -/
def Heap.HasMemory (h : Heap) (nodes : List HeapNode) (sz : Nat) : Prop :=
  (∃ k ∈ nodes, k.Fits sz) ∨ h.CanGrow nodes sz

/-- The block of `n`, in front of `r`, grows in place and the link of the node behind is read in
time. -/
def GrowsSafely (n : HeapNode) (sz : Nat) : List HeapNode → Prop
  | [] => True
  | k :: r => LinkKept n k r sz

/-- The resizes of the block of `n`, between `l` and `r`, that `realloc` gets right: to a smaller
size; in place, where the link of the node behind is read in time; into a node that is there, is not
split in the middle of the list, and does not leave the old one trapped. -/
def Heap.ReallocSafe (h : Heap) (l : List HeapNode) (n : HeapNode) (r : List HeapNode) (sz : Nat) :
    Prop :=
  if sz < n.size then True
  else if MustMove h.mem n.addr n.ptr sz then
    (∃ k ∈ l ++ n :: r, k.Fits sz) ∧ SplitSafe sz (l ++ n :: r) ∧
      HeapUse.FreeSafe (allocated sz (l ++ n :: r)) n.ptr
  else GrowsSafely n sz r

section Cover

variable {sz i : Nat} {n k : HeapNode} {r : List HeapNode}

theorem covers_split (h : sz + heapNodeSize ≤ n.size) :
    Covers (n.resize sz :: n.rest sz :: r) i ↔ Covers (n :: r) i := by
  have hstop := rest_stop h
  have hn : n.stop = n.addr + heapNodeSize + n.size := rfl
  rw [covers_cons, covers_cons, covers_cons, hstop, resize_stop, resize_addr, ← or_assoc]
  refine or_congr_left ?_
  simp only [rest]
  omega

theorem covers_shift (hadj : n.stop = k.addr) (hle : n.size ≤ sz) (h : sz ≤ n.size + k.size) :
    Covers (n.resize sz :: n.shifted k sz :: r) i ↔ Covers (n :: k :: r) i := by
  have hstop : (n.shifted k sz).stop = k.stop := by
    simp only [stop, shifted] at hadj ⊢
    omega
  have hk := k.addr_add_le_stop
  have hn : n.stop = n.addr + heapNodeSize + n.size := rfl
  have hks : k.stop = k.addr + heapNodeSize + k.size := rfl
  rw [covers_cons, covers_cons, covers_cons, covers_cons, hstop, resize_stop, resize_addr,
    ← or_assoc, ← or_assoc]
  refine or_congr_left ?_
  simp only [shifted]
  omega

theorem covers_allocated {nodes : List HeapNode} : Covers (allocated sz nodes) i ↔ Covers nodes i := by
  induction nodes with
  | nil => rfl
  | cons n nodes ih =>
    rw [allocated]
    split
    case isFalse => rw [covers_cons, covers_cons, ih]
    case isTrue =>
      rw [carve]
      split
      case isTrue hlt =>
        rw [← covers_split (Nat.le_of_lt hlt), List.cons_append, List.singleton_append, covers_cons,
          covers_cons (n := n.resize sz)]
        rfl
      case isFalse =>
        rw [List.singleton_append, covers_cons, covers_cons]
        rfl

end Cover

/-! ## In place -/

section InPlace

variable {lo hi sz i : Nat} {h : Heap} {n k : HeapNode} {l r nodes nodes' s : List HeapNode} {m : Mem}

/-- The bytes of a block are kept where only headers of the list are written. -/
theorem Layout.block_eq {m' : Mem} (hlay : Layout (· ≤ ·) lo s hi) (hk : k ∈ s)
    (hm : ∀ i, OffHeaders s i → m' i = m i) : ∀ i < k.size, m' (k.ptr + i) = m (k.ptr + i) := by
  intro i hi
  refine hm _ (hlay.offHeaders nat_le hk (Nat.le_add_right _ _) ?_)
  rw [stop, ptr]
  omega

/-- A block is resized where it is, and only headers of `s` are written on the way. -/
theorem Heap.Resized.of_frame (n' : HeapNode) (hlay : Layout (· ≤ ·) lo nodes hi) (hn : n ∈ nodes)
    (hs : Layout (· ≤ ·) lo s hi) (hframe : ∀ i, OffHeaders s i → m i = h.mem i) (hn' : n' ∈ s)
    (hmem : n' ∈ nodes') (hused : n'.used = true) (haddr : n'.addr = n.addr) (hsz : sz ≤ n'.size)
    (hothers : ∀ k ∈ nodes, k.used = true → k ≠ n → k ∈ s ∧ k ∈ nodes') :
    h.Resized nodes n sz { h with mem := m } n.ptr nodes' where
  block := ⟨n', hmem, hused, by rw [ptr, ptr, haddr], hsz⟩
  contents i hi := by
    have hb := hs.block_eq hn' hframe i (by omega)
    rw [ptr, haddr] at hb
    exact hb
  others k hk hku hkn := by
    obtain ⟨hks, hk'⟩ := hothers k hk hku hkn
    exact ⟨hk', fun e => hkn (HeapUse.Layout.eq_of_ptr_eq nat_le hlay hk hn e),
      hs.block_eq hks hframe⟩

/-- What `realloc` of the block of a node does, for a size other than 0. -/
theorem Heap.Linked.realloc_eq (hl : h.Linked lo hi (l ++ n :: r)) (hsz : 0 < sz) :
    h.realloc n.ptr sz =
      if sz < n.size then
        if n.size - sz < heapNodeSize then some (h, n.ptr)
        else some ({ h with mem := shrink h.mem n.addr n.ptr sz }, n.ptr)
      else if MustMove h.mem n.addr n.ptr sz then h.move n.addr n.ptr sz
      else some ({ h with mem := extend h.mem n.addr n.ptr sz }, n.ptr) := by
  have hn : n ∈ l ++ n :: r := by simp
  have hbound := hl.bound
  have hstop := ((hl.layout.le nat_le).2 n hn).2
  have hnode := hl.layout.u64Sub_ptr nat_le (Nat.le_of_lt hbound) hn
  have hsize := (Seg.append_iff.mp hl.linked).2.1.size
  have hptr : n.ptr ≠ 0 := by
    rw [ptr, heapNodeSize]
    omega
  rw [Heap.realloc, if_neg hptr, if_neg hsz.ne', hnode]
  simp only [hsize]
  by_cases hlt : sz < n.size
  · rw [if_pos hlt, if_pos hlt, u64Sub_eq (Nat.le_of_lt hlt) (by rw [stop] at hstop; omega)]
  · rw [if_neg hlt, if_neg hlt]

/-- Replacing the node keeps the used nodes in front of it and behind it. -/
theorem mem_of_ne {s : List HeapNode} (hr : ∀ k ∈ r, k.used = true → k ∈ s)
    (hk : k ∈ l ++ n :: r) (hu : k.used = true) (hne : k ≠ n) : k ∈ l ++ s := by
  rcases List.mem_append.mp hk with hk | hk
  · exact List.mem_append_left _ hk
  · rcases List.mem_cons.mp hk with rfl | hk
    · exact absurd rfl hne
    · exact List.mem_append_right _ (hr k hk hu)

/-- **`realloc` to a smaller size**, by a header or more. -/
theorem Heap.Linked.shrink (hl : h.Linked lo hi (l ++ n :: r)) (hused : n.used = true)
    (hsz : sz + heapNodeSize ≤ n.size) :
    ∃ nodes', ({ h with mem := Memory.shrink h.mem n.addr n.ptr sz } : Heap).Linked lo hi nodes' ∧
      (∀ i, Covers nodes' i ↔ Covers (l ++ n :: r) i) ∧
      h.Resized (l ++ n :: r) n sz { h with mem := Memory.shrink h.mem n.addr n.ptr sz } n.ptr
        nodes' := by
  have hpos := hl.pos
  have hlay := hl.layout
  obtain ⟨lo', hlo', hsuf⟩ := hlay.suffix nat_le
  obtain ⟨hseg, hframe⟩ := shrink_spec nat_le (fun _ => Nat.le_refl _) hl.bound hsuf hsz
    (Seg.append_iff.mp hl.linked).2
  have hlay' := hsuf.split (fun _ => Nat.le_refl _) hsz
  have hs : Layout (· ≤ ·) lo (l ++ n.resize sz :: n.rest sz :: r) hi :=
    hlay.replace fun _ h => h.split (fun _ => Nat.le_refl _) hsz
  generalize Memory.shrink h.mem n.addr n.ptr sz = m at hseg hframe ⊢
  refine ⟨l ++ n.resize sz :: coalesce (n.rest sz) r, ⟨?_, ?_, ?_, hpos, hl.bound⟩, fun i => ?_, ?_⟩
  · rw [hl.first, firstAddr_append, firstAddr_append]
    rfl
  · refine hlay.replace fun _ h => ?_
    obtain ⟨hn, hr⟩ := h.split (fun _ => Nat.le_refl _) hsz
    exact ⟨hn, hr.coalesce⟩
  · exact hl.linked.replace nat_le hlay rfl
      (fun i hi => hframe i (hlay'.offHeaders_of_lt nat_le hi)) hseg
  · rw [covers_append, covers_append, ← covers_split hsz, covers_cons, covers_cons, covers_coalesce]
  · refine Heap.Resized.of_frame (n.resize sz) hlay (by simp) hs
      (fun i hi => hframe i (OffHeaders.append_iff.mp hi).2) (by simp) (by simp) hused rfl
      (Nat.le_refl sz) fun k hk hku hkn => ⟨?_, ?_⟩
    · exact mem_of_ne (fun k hk _ => by simp [hk]) hk hku hkn
    · refine mem_of_ne (fun k hk hku => ?_) hk hku hkn
      refine List.mem_cons_of_mem _ (mem_coalesce_of_mem hk fun hj => ?_)
      simp [hj.2.1] at hku

theorem Heap.Linked.spared_iff (hl : h.Linked lo hi (l ++ n :: k :: r)) (hadj : n.stop = k.addr)
    (hle : n.size ≤ sz) (hsz : sz ≤ n.size + k.size) :
    Spared h.mem n k sz ↔ LinkKept n k r sz := by
  have hk := (Seg.append_iff.mp hl.linked).2.2.1
  have hstop := ((hl.layout.le nat_le).2 k (by simp)).2
  have hbound := hl.bound
  refine Memory.spared_iff hadj hle ?_ hk.next
  rw [stop] at hstop
  simp only [shifted]
  rw [stop] at hadj
  omega

/-- **`realloc` into the node on the right**, whose link is read in time. -/
theorem Heap.Linked.extend (hl : h.Linked lo hi (l ++ n :: k :: r)) (hused : n.used = true)
    (hfree : k.used = false) (hadj : n.stop = k.addr) (hle : n.size ≤ sz)
    (hsz : sz ≤ n.size + k.size) (hspared : Spared h.mem n k sz) :
    ∃ nodes', ({ h with mem := Memory.extend h.mem n.addr n.ptr sz } : Heap).Linked lo hi nodes' ∧
      (∀ i, Covers nodes' i ↔ Covers (l ++ n :: k :: r) i) ∧
      h.Resized (l ++ n :: k :: r) n sz { h with mem := Memory.extend h.mem n.addr n.ptr sz } n.ptr
        nodes' := by
  have hlay := hl.layout
  obtain ⟨lo', -, hsuf⟩ := hlay.suffix nat_le
  obtain ⟨hseg, hframe⟩ := extend_spec nat_le (fun _ => Nat.le_refl _) hl.bound hsuf hadj hle hsz
    hspared (Seg.append_iff.mp hl.linked).2
  have hlay' := hsuf.shift (fun _ => Nat.le_refl _) hadj hsz
  have hs : Layout (· ≤ ·) lo (l ++ n.resize sz :: n.shifted k sz :: r) hi :=
    hlay.replace fun _ h => h.shift (fun _ => Nat.le_refl _) hadj hsz
  generalize Memory.extend h.mem n.addr n.ptr sz = m at hseg hframe ⊢
  refine ⟨l ++ n.resize sz :: n.shifted k sz :: r, ⟨?_, hs, ?_, hl.pos, hl.bound⟩, fun i => ?_, ?_⟩
  · rw [hl.first, firstAddr_append, firstAddr_append]
    rfl
  · exact hl.linked.replace nat_le hlay rfl
      (fun i hi => hframe i (hlay'.offHeaders_of_lt nat_le hi)) hseg
  · rw [covers_append, covers_append, covers_shift hadj hle hsz]
  · have hmem : ∀ j ∈ l ++ n :: k :: r, j.used = true → j ≠ n →
        j ∈ l ++ n.resize sz :: n.shifted k sz :: r := fun j hj hju hjn => by
      refine mem_of_ne (fun j hj hju => ?_) hj hju hjn
      rcases List.mem_cons.mp hj with rfl | hj
      · simp [hfree] at hju
      · simp [hj]
    exact Heap.Resized.of_frame (n.resize sz) hlay (by simp) hs
      (fun i hi => hframe i (OffHeaders.append_iff.mp hi).2) (by simp) (by simp) hused rfl
      (Nat.le_refl sz) fun j hj hju hjn => ⟨hmem j hj hju hjn, hmem j hj hju hjn⟩

end InPlace

/-! ## Moving -/

section Move

variable {lo hi sz p i : Nat} {h h' : Heap} {n k : HeapNode} {l r nodes nodes' : List HeapNode}

/-- Where the first node that fits is split in the middle of the list. -/
theorem exists_split (hfit : ∃ k ∈ nodes, k.Fits sz) (hsafe : ¬SplitSafe sz nodes) :
    ∃ l x j r, nodes = l ++ x :: j :: r ∧ (∀ k ∈ l, ¬k.Fits sz) ∧ x.Fits sz ∧
      sz + heapNodeSize < x.size := by
  induction nodes with
  | nil => exact absurd trivial hsafe
  | cons a nodes ih =>
    by_cases ha : a.Fits sz
    · rw [SplitSafe, if_pos ha, not_or] at hsafe
      obtain ⟨j, r, rfl⟩ := List.exists_cons_of_ne_nil hsafe.2
      exact ⟨[], a, j, r, rfl, by simp, ha, Nat.not_le.mp hsafe.1⟩
    · rw [SplitSafe, if_neg ha] at hsafe
      obtain ⟨k, hk, hkf⟩ := hfit
      have hk' : k ∈ nodes := (List.mem_cons.mp hk).resolve_left fun e => ha (e ▸ hkf)
      obtain ⟨l, x, j, r, rfl, hl, hx, hlt⟩ := ih ⟨k, hk', hkf⟩ hsafe
      exact ⟨a :: l, x, j, r, rfl, List.forall_mem_cons.mpr ⟨ha, hl⟩, hx, hlt⟩

/-- **`realloc` into a node that is there** and is not split in the middle of the list: the block is
resized if the old node is not trapped, and the call does not come to an end if it is. -/
theorem Heap.Linked.move (hl : h.Linked lo hi nodes) (hn : n ∈ nodes) (hused : n.used = true)
    (hle : n.size ≤ sz) (hfit : ∃ k ∈ nodes, k.Fits sz) (hsafe : SplitSafe sz nodes) :
    (HeapUse.FreeSafe (allocated sz nodes) n.ptr →
      ∃ h' p nodes', h.move n.addr n.ptr sz = some (h', p) ∧ h'.Linked lo hi nodes' ∧
        h'.regions = h.regions ∧ (∀ i, Covers nodes' i ↔ Covers nodes i) ∧
        h.Resized nodes n sz h' p nodes') ∧
      (¬HeapUse.FreeSafe (allocated sz nodes) n.ptr → h.move n.addr n.ptr sz = none) := by
  have hpos := hl.pos
  have hbound := hl.bound
  have hlay := hl.layout
  obtain ⟨l, x, r, m₁, he, hx, hnodes, halloc, hseg, hframe⟩ :=
    Heap.alloc_spec nat_le (fun _ => Nat.le_refl _) hpos hbound hlay hl.first hl.linked hfit hsafe
  obtain ⟨x', s, hcarve, haddr, hused', hsize'⟩ := carve_eq_cons sz x
  have hx' : x ∈ nodes := by simp [he]
  have hptr : x'.ptr = x.ptr := by rw [ptr, ptr, haddr]
  have hsz := hsize' hx.2
  obtain ⟨L, hL⟩ : ∃ L, L = allocated sz nodes := ⟨_, rfl⟩
  rw [← hL] at hnodes hseg hframe ⊢
  have hxL : x' ∈ L := by
    rw [hnodes, hcarve]
    simp
  have hkeep : ∀ k ∈ nodes, k.used = true → k ∈ L := by
    intro k hk hku
    rw [he] at hk
    rw [hnodes]
    refine mem_of_ne (fun k hk _ => List.mem_append_right _ hk) hk hku fun e => ?_
    rw [e, hx.1] at hku
    exact absurd hku (by decide)
  have hlayL : Layout (· ≤ ·) lo L hi := by
    rw [hL]
    exact hlay.allocated fun _ => Nat.le_refl _
  -- the new block is apart from the other blocks in use
  have hne : ∀ k ∈ nodes, k.used = true → k.ptr ≠ x.ptr := fun k hk hku e => by
    rw [HeapUse.Layout.eq_of_ptr_eq nat_le hlay hk hx' e, hx.1] at hku
    exact absurd hku (by decide)
  have hnL := hkeep n hn hused
  have hl₁ : ({ h with mem := m₁ } : Heap).Linked lo hi L := by
    refine ⟨?_, hlayL, hseg, hpos, hbound⟩
    rw [hl.first, hnodes, firstAddr_append, firstAddr_carve, he, firstAddr_append]
    rfl
  have hcopy : ∀ i, i < x'.ptr ∨ x'.stop ≤ i → m₁.copy x.ptr n.ptr n.size i = m₁ i :=
    fun i hi => Mem.copy_of_notMem (by
      rw [stop, ← ptr, hptr] at hi
      omega)
  have hl₂ : ({ h with mem := m₁.copy x.ptr n.ptr n.size } : Heap).Linked lo hi L :=
    hl₁.write fun i hi => hcopy i (by
      by_contra hin
      exact hi (hlayL.offHeaders nat_le hxL (by omega) (by omega)))
  have hp0 : x.ptr ≠ 0 := by
    rw [ptr, heapNodeSize]
    omega
  obtain ⟨l₁, r₁, hsplit⟩ := List.append_of_mem hnL
  have hsize : size.get m₁ n.addr = n.size := by
    have hlinked := hl₁.linked
    rw [hsplit] at hlinked
    exact (Seg.append_iff.mp hlinked).2.1.size
  have hmove := Heap.move_eq (h := h) (n := n) halloc hp0
    (hlay.u64Sub_ptr nat_le (Nat.le_of_lt hbound) hn) hsize
  have hcov : ∀ i, Covers L i ↔ Covers nodes i := fun i => by rw [hL, covers_allocated]
  rw [hmove]
  subst hsplit
  rw [HeapUse.freeSafe_iff nat_le hlayL, not_not]
  refine ⟨fun ht => ?_, fun ht => ?_⟩
  swap
  · rw [freeNode_trapped nat_le hpos (Nat.le_of_lt hbound) hlayL hused hl₂.linked ht]
    rfl
  · obtain ⟨m₃, hfree, hseg₃, hframe₃⟩ :=
      freeNode_spec nat_le hpos (Nat.le_of_lt hbound) hlayL hused hl₂.linked ht
    have hstay : ∀ k ∈ l₁ ++ n :: r₁, k.used = true → k ≠ n → k ∈ freed l₁ n r₁ := by
      intro k hk hku hkn
      have hk' : k ∈ l₁ ++ r₁ := mem_of_ne (fun _ hk _ => hk) hk hku hkn
      exact mem_freed nat_le hlayL hk' (fun hj => by simp [hj.1] at hku)
        fun hj => by simp [hj.2.1] at hku
    have hx'n : x' ≠ n := fun e => hne n hn hused (by rw [← e, hptr])
    refine ⟨{ h with mem := m₃ }, x.ptr, freed l₁ n r₁, by rw [hfree]; rfl,
      ⟨hl₁.first.trans (firstAddr_freed l₁ n r₁ 0).symm, hlayL.freed, hseg₃, hpos, hbound⟩, rfl,
      fun i => covers_freed.trans (hcov i), ⟨x', hstay x' hxL hused' hx'n, hused', hptr, hsz⟩,
      fun i hi => ?_, fun k hk hku hkn => ⟨hstay k (hkeep k hk hku) hku hkn, hne k hk hku,
        fun i hi => ?_⟩⟩
    · have hb : m₃ (x'.ptr + i) = m₁.copy x.ptr n.ptr n.size (x'.ptr + i) :=
        hlayL.block_eq hxL hframe₃ i (by omega)
      have hc : m₁.copy x.ptr n.ptr n.size (x.ptr + i) = m₁ (n.ptr + i) :=
        Mem.copy_of_lt (Nat.lt_of_lt_of_le hi (Nat.min_le_left _ _))
      rw [hptr, hc] at hb
      exact hb.trans (hlayL.block_eq hnL hframe i (by omega))
    · have hkL := hkeep k hk hku
      have hb : m₃ (k.ptr + i) = m₁.copy x.ptr n.ptr n.size (k.ptr + i) :=
        hlayL.block_eq hkL hframe₃ i hi
      refine hb.trans ((hcopy _ ?_).trans (hlayL.block_eq hkL hframe i hi))
      have hks : k.stop = k.addr + heapNodeSize + k.size := rfl
      have hxs := x'.addr_add_le_stop
      have hkne := hne k hk hku
      rcases hlayL.eq_or_stop_le nat_le hkL hxL with rfl | hle | hle
      · exact absurd hptr hkne
      · rw [ptr, ptr]
        omega
      · rw [ptr]
        omega

/-- The list of a heap is read off its memory. -/
theorem Heap.TilesRegions.nodes_eq (ht : h.TilesRegions nodes) : h.nodes = nodes := by
  obtain ⟨lo, hi, hl⟩ := ht.linked
  exact hl.chained.nodes_eq

/-- Nodes end before an address that no region reaches. -/
theorem Heap.TilesRegions.stop_le (ht : h.TilesRegions nodes) (hk : k ∈ nodes)
    (hreg : ∀ reg ∈ h.regions, reg.1 + reg.2 ≤ i) : k.stop ≤ i := by
  have hks := k.addr_add_le_stop
  rw [heapNodeSize] at hks
  obtain ⟨reg, hmem, -, hlt⟩ := (ht.covers (k.stop - 1)).mp ⟨k, hk, by omega, by omega⟩
  have := hreg reg hmem
  omega

/-- **No well-formed heap is left where the heap grows**: the node made of the new area ends behind
it. -/
theorem grown_broken (ht : h.TilesRegions nodes) (hn : n ∈ nodes) (hused : n.used = true)
    (hle : n.size ≤ sz) (hunfit : ∀ k ∈ nodes, ¬k.Fits sz) (hg : h.CanGrow nodes sz)
    (hmove : h.move n.addr n.ptr sz = some (h', p)) (ht' : h'.TilesRegions nodes') : False := by
  obtain ⟨lo, hi, hl⟩ := ht.linked
  obtain ⟨C, L, hareas, hreg⟩ := hg.areas
  obtain ⟨kmem, kernelVmm, a, ha, hrun⟩ := hg.area
  have hw := hg.noWrap
  obtain ⟨-, hmod, -, hfits, hbehind⟩ := hareas.place hw
  rcases vmmAllocAt_extent hrun with ⟨-, ha0⟩ | ⟨hp0, hle', hstart, hsize, -⟩
  · exact absurd ha0 ha
  obtain ⟨start, hs⟩ : ∃ start, start = Kmem.place h.kernelVmm (lastAddr 0 nodes) := ⟨_, rfl⟩
  rw [← hs] at hmod hfits hbehind hp0 hle' hstart
  rw [hw.length] at hle' hsize
  obtain ⟨hlength, hend, -⟩ := place_arith hmod (pageStart_mod _) hareas.bounds.2.2 hareas.data_lt
    (Nat.pos_of_ne_zero hp0) hfits hle'
  rw [hlength] at hsize
  have hround : sz ≤ pageStart (sz - 1) + 4096 := by
    rw [pageStart, pageSize_eq]
    omega
  have hdata := hareas.data_lt
  have hdmod := hareas.bounds.2.2
  have hregions : ∀ reg ∈ h.regions, reg.1 + reg.2 ≤ start := fun reg hr => by
    obtain ⟨b, hb, -, hle⟩ := hreg reg hr
    have := hbehind b hb
    omega
  -- the new node is the last one
  obtain ⟨l, z, rfl⟩ : ∃ l z, nodes = l ++ [z] := by
    rcases List.eq_nil_or_concat' nodes with rfl | hc
    · exact absurd hn List.not_mem_nil
    · exact hc
  have hlast : lastAddr 0 (l ++ [z]) = z.addr := by
    rw [lastAddr_append]
    rfl
  rw [hlast] at hrun
  obtain ⟨length, hlen⟩ : ∃ length, length = pageStart (sz - 1) + 4096 := ⟨_, rfl⟩
  rw [← hlen] at hsize hround
  have hsize64 : u64Size % 4096 = 0 := by decide
  obtain ⟨h₁, hgrow, hl₁, hreg₁⟩ := hl.grow hrun ha hstart hsize
    (ht.stop_le (by simp) hregions) (by rw [heapNodeSize]; omega)
  have hx : HeapNode.Fits sz ⟨start, length, false⟩ := ⟨rfl, hround⟩
  have halloc := hl.alloc_grown (by simp) hunfit (hlast ▸ hgrow) hl₁ hx
  have hmove₁ : h₁.move n.addr n.ptr sz = some (h', p) := by
    rw [← hmove, Heap.move, Heap.move, halloc]
  obtain ⟨hsafe, htrapped⟩ := hl₁.move (List.mem_append_left _ hn) hused hle ⟨_, by simp, hx⟩
    (splitSafe_last hunfit hx)
  by_cases hfree : HeapUse.FreeSafe (allocated sz (l ++ [z] ++ [⟨start, length, false⟩])) n.ptr
  case neg => exact absurd (hmove₁.symm.trans (htrapped hfree)) (Option.some_ne_none _)
  case pos =>
    obtain ⟨h₂, p₂, nodes₂, he, hl₂, hreg₂, hcov, -⟩ := hsafe hfree
    obtain ⟨rfl, rfl⟩ := Prod.mk.inj (Option.some.inj (he.symm.trans hmove₁))
    have hnodes : nodes' = nodes₂ := ht'.nodes_eq.symm.trans hl₂.chained.nodes_eq
    -- the byte behind the area is in the new node, but in no region
    have hin : Covers nodes₂ (start + length) := by
      refine (hcov _).mpr ⟨⟨start, length, false⟩, by simp, Nat.le_add_right _ _, ?_⟩
      change start + length < start + heapNodeSize + length
      rw [heapNodeSize]
      omega
    obtain ⟨reg, hmem, hfrom, hto⟩ := (ht'.covers _).mp (hnodes ▸ hin)
    rw [hreg₂, hreg₁] at hmem
    rcases List.mem_cons.mp hmem with rfl | hmem
    · exact Nat.lt_irrefl _ hto
    · have := hregions reg hmem
      omega

end Move

/-! ## `realloc` -/

section Realloc

variable {lo hi sz i : Nat} {h : Heap} {n k : HeapNode} {l r nodes nodes' : List HeapNode}

theorem addr_eq_of_ptr (h : n.ptr = k.ptr) : n.addr = k.addr := by
  rw [ptr, ptr] at h
  omega

/-- A block that need not move has a free node right behind it, with enough room. -/
theorem Heap.Linked.free_right (hl : h.Linked lo hi (l ++ n :: r))
    (hmove : ¬MustMove h.mem n.addr n.ptr sz) :
    ∃ k r', r = k :: r' ∧ k.used = false ∧ n.stop = k.addr ∧ sz ≤ n.size + k.size := by
  obtain ⟨hn, hr⟩ := (Seg.append_iff.mp hl.linked).2
  have hbound := hl.bound
  rw [MustMove, not_or, not_or, not_or, hn.next] at hmove
  obtain ⟨hnull, hstatus, hadj, hroom⟩ := hmove
  cases r with
  | nil => exact absurd rfl hnull
  | cons k r =>
    have hkstop := ((hl.layout.le nat_le).2 k (by simp)).2
    have hnk := hl.layout.stop_le' nat_le (k := k) (by simp)
    have hk := hr.1
    rw [stop] at hkstop hnk
    rw [firstAddr, not_not, hn.size, ptr, u64Add_eq (by omega)] at hadj
    rw [firstAddr, hk.size, hn.size, u64Add_eq (by omega)] at hroom
    refine ⟨k, r, rfl, ?_, by rw [stop]; omega, by omega⟩
    rw [firstAddr, not_not, hk.status] at hstatus
    cases hu : k.used with
    | false => rfl
    | true => exact absurd hstatus (by simp [hu, heapFree])

/-- A list that covers the same bytes tiles the same regions. -/
theorem Heap.TilesRegions.of_covers {h' : Heap} (ht : h.TilesRegions nodes)
    (hl : h'.Linked lo hi nodes') (hreg : h'.regions = h.regions)
    (hcov : ∀ i, Covers nodes' i ↔ Covers nodes i) : h'.TilesRegions nodes' where
  linked := ⟨lo, hi, hl⟩
  covers i := by
    rw [hcov, ht.covers, InRegion, InRegion, hreg]

/-- **Where `realloc` is safe it works.** -/
theorem Heap.TilesRegions.realloc_works (ht : h.TilesRegions (l ++ n :: r)) (hused : n.used = true)
    (hpos : 0 < sz) (hsafe : h.ReallocSafe l n r sz) : h.ReallocWorks (l ++ n :: r) n sz := by
  obtain ⟨lo, hi, hl⟩ := ht.linked
  have hn : n ∈ l ++ n :: r := by simp
  have he := hl.realloc_eq hpos
  rw [ReallocSafe] at hsafe
  by_cases hlt : sz < n.size
  case pos =>
    by_cases hsmall : n.size - sz < heapNodeSize
    case pos =>
      rw [if_pos hlt, if_pos hsmall] at he
      exact ⟨h, n.ptr, _, he, ht, Heap.Resized.of_frame n hl.layout hn hl.layout (fun _ _ => rfl) hn hn
        hused rfl (Nat.le_of_lt hlt) fun k hk _ _ => ⟨hk, hk⟩⟩
    case neg =>
      rw [if_pos hlt, if_neg hsmall] at he
      have hroom : sz + heapNodeSize ≤ n.size := by omega
      obtain ⟨nodes', hl', hcov, hres⟩ := hl.shrink hused hroom
      exact ⟨_, n.ptr, nodes', he, ht.of_covers hl' rfl hcov, hres⟩
  case neg =>
    rw [if_neg hlt] at he hsafe
    by_cases hmove : MustMove h.mem n.addr n.ptr sz
    case pos =>
      rw [if_pos hmove] at he hsafe
      obtain ⟨hfit, hsplit, hfree⟩ := hsafe
      obtain ⟨h', p, nodes', hrun, hl', hreg, hcov, hres⟩ :=
        (hl.move hn hused (Nat.not_lt.mp hlt) hfit hsplit).1 hfree
      exact ⟨h', p, nodes', he.trans hrun, ht.of_covers hl' hreg hcov, hres⟩
    case neg =>
      rw [if_neg hmove] at he hsafe
      obtain ⟨k, r, rfl, hfree, hadj, hroom⟩ := hl.free_right hmove
      have hspared := hl.spared_iff hadj (Nat.not_lt.mp hlt) hroom |>.mpr hsafe
      obtain ⟨nodes', hl', hcov, hres⟩ :=
        hl.extend hused hfree hadj (Nat.not_lt.mp hlt) hroom hspared
      exact ⟨_, n.ptr, nodes', he, ht.of_covers hl' rfl hcov, hres⟩

/-- **`realloc` works iff it is safe.** On every well-formed heap, for every block in use and every
size other than 0, when there is memory for a move that is needed: the block is resized with its bytes,
the other blocks in use stay as they are and the heap stays well formed, if and only if the block gets
smaller; or grows in place and the link of the node behind is read before it is overwritten; or moves
into a node that is there, is not split in the middle of the list, and does not leave the old node
trapped. -/
theorem realloc_iff (ht : h.TilesRegions (l ++ n :: r)) (hused : n.used = true) (hpos : 0 < sz)
    (hmem : ¬sz < n.size → MustMove h.mem n.addr n.ptr sz → h.HasMemory (l ++ n :: r) sz) :
    h.ReallocWorks (l ++ n :: r) n sz ↔ h.ReallocSafe l n r sz := by
  refine ⟨fun ⟨h', p, nodes', hrun, ht', hres⟩ => ?_, ht.realloc_works hused hpos⟩
  obtain ⟨lo, hi, hl⟩ := ht.linked
  obtain ⟨lo', hi', hl'⟩ := ht'.linked
  have hn : n ∈ l ++ n :: r := by simp
  obtain ⟨n', hn', -, hp, -⟩ := hres.block
  rw [hl.realloc_eq hpos] at hrun
  by_contra hno
  rw [Heap.ReallocSafe] at hno
  by_cases hlt : sz < n.size
  case pos =>
    rw [if_pos hlt] at hno
    exact hno trivial
  case neg =>
    rw [if_neg hlt] at hrun hno
    have hle := Nat.not_lt.mp hlt
    by_cases hmove : MustMove h.mem n.addr n.ptr sz
    case pos =>
      rw [if_pos hmove] at hrun hno
      have hfit : ∃ k ∈ l ++ n :: r, k.Fits sz := by
        by_contra hnofit
        exact grown_broken ht hn hused hle (fun k hk hkf => hnofit ⟨k, hk, hkf⟩)
          ((hmem hlt hmove).resolve_left hnofit) hrun ht'
      have hsplit : SplitSafe sz (l ++ n :: r) := by
        by_contra hunsafe
        obtain ⟨s, x, j, t, he, hunfit, hx, hlt⟩ := exists_split hfit hunsafe
        rw [he] at hl hn
        exact move_broken hl hunfit hx hlt hn hused hle hrun hl' hn' hp
      have hnone := (hl.move hn hused hle hfit hsplit).2 fun hfree => hno ⟨hfit, hsplit, hfree⟩
      exact nomatch hnone.symm.trans hrun
    case neg =>
      rw [if_neg hmove] at hrun hno
      obtain ⟨k, r, rfl, hfree, hadj, hroom⟩ := hl.free_right hmove
      have hlost : ¬Spared h.mem n k sz := fun hs => hno ((hl.spared_iff hadj hle hroom).mp hs)
      obtain ⟨m, hm⟩ : ∃ m, m = Memory.extend h.mem n.addr n.ptr sz := ⟨_, rfl⟩
      rw [← hm] at hrun
      obtain ⟨rfl, rfl⟩ := Prod.mk.inj (Option.some.inj hrun)
      have hseg : Seg m 0 nodes' 0 := hl'.linked
      rw [hm] at hseg
      have hcov : ∀ i, Covers nodes' i ↔ Covers (l ++ n :: k :: r) i := fun i =>
        (ht'.covers i).trans (ht.covers i).symm
      exact extend_broken hl.pos hl.bound hl.layout hl.linked hadj hle hroom hlost hl'.layout hseg
        hcov hn' (addr_eq_of_ptr hp)

/-! ## Small heaps -/

/-- What a list that tiles a range covers. -/
theorem Layout.covers_iff {hi' : Nat} {s : List HeapNode} (h : Layout (· = ·) lo s hi') :
    Covers s i ↔ lo ≤ i ∧ i < hi' := by
  induction s generalizing lo with
  | nil =>
    obtain rfl : lo = hi' := h
    simp only [Covers, List.not_mem_nil, false_and, exists_false, false_iff]
    omega
  | cons n s ih =>
    obtain ⟨rfl, hs⟩ := h
    have hn := n.addr_add_le_stop
    have hle := (hs.le fun _ _ h => Nat.le_of_eq h).1
    rw [covers_cons, ih hs]
    omega

/-- A heap of one region is well formed if its nodes tile it. -/
theorem Heap.Tiles.tilesRegions {start len : Nat} (ht : h.Tiles start len) (hpos : 0 < start)
    (hend : start + len < u64Size) (hfirst : h.kernelHeap = firstAddr h.nodes 0)
    (hreg : h.regions = [(start, len)]) : h.TilesRegions h.nodes where
  linked := ⟨start, start + len, hfirst, ht.layout.weaken, ht.linked, hpos, hend⟩
  covers i := by
    rw [ht.layout.covers_iff, InRegion, hreg]
    simp

/-- The small heap with four blocks, of which those at the pointers are freed, as it is checked. -/
theorem fourBlocks_tilesRegions (freed : List Nat) (nodes : List HeapNode)
    (hall : (fourBlocks freed).any fun h => decide (h.Tiles 0x1000 256 ∧ h.nodes = nodes ∧
      h.kernelHeap = firstAddr h.nodes 0 ∧ h.regions = [(0x1000, 256)])) :
    ∃ h, fourBlocks freed = some h ∧ h.TilesRegions nodes := by
  obtain ⟨h, hh, hp⟩ := (Option.any_eq_true _ _).mp hall
  obtain ⟨ht, hnodes, hfirst, hreg⟩ := of_decide_eq_true hp
  refine ⟨h, hh, ?_⟩
  rw [← hnodes]
  exact ht.tilesRegions (by decide) (by decide) hfirst hreg

/-- The first block is moved into the third, which is free. -/
theorem realloc_iff_moved : ∃ h, fourBlocks [0x10a0] = some h ∧
    (h.ReallocWorks [⟨0x1000, 32, true⟩, ⟨0x1040, 32, true⟩, ⟨0x1080, 32, false⟩,
        ⟨0x10c0, 32, true⟩] ⟨0x1000, 32, true⟩ 32 ↔
      h.ReallocSafe [] ⟨0x1000, 32, true⟩ [⟨0x1040, 32, true⟩, ⟨0x1080, 32, false⟩,
        ⟨0x10c0, 32, true⟩] 32) := by
  obtain ⟨h, hh, ht⟩ := fourBlocks_tilesRegions [0x10a0]
    [⟨0x1000, 32, true⟩, ⟨0x1040, 32, true⟩, ⟨0x1080, 32, false⟩, ⟨0x10c0, 32, true⟩] (by decide +kernel)
  exact ⟨h, hh, realloc_iff (l := []) ht rfl (by decide) fun _ _ =>
    .inl ⟨⟨0x1080, 32, false⟩, by decide, by decide⟩⟩

/-- **A block grows by 18 bytes** into the free node behind it. The link that is read is `NULL`, and
the third block is not in the list any more. -/
theorem realloc_drops_blocks : ∃ h, fourBlocks [0x1060] = some h ∧
    h.TilesRegions [⟨0x1000, 32, true⟩, ⟨0x1040, 32, false⟩, ⟨0x1080, 32, true⟩, ⟨0x10c0, 32, true⟩] ∧
    ¬h.ReallocWorks [⟨0x1000, 32, true⟩, ⟨0x1040, 32, false⟩, ⟨0x1080, 32, true⟩, ⟨0x10c0, 32, true⟩]
      ⟨0x1000, 32, true⟩ 50 := by
  obtain ⟨h, hh, ht⟩ := fourBlocks_tilesRegions [0x1060]
    [⟨0x1000, 32, true⟩, ⟨0x1040, 32, false⟩, ⟨0x1080, 32, true⟩, ⟨0x10c0, 32, true⟩] (by decide +kernel)
  refine ⟨h, hh, ht, fun ⟨h', p, nodes', hrun, ht', hres⟩ => ?_⟩
  have hlost : ((fourBlocks [0x1060]).bind fun h => h.realloc (HeapNode.ptr ⟨0x1000, 32, true⟩) 50).all
      fun s => decide (s.1.nodes = [⟨0x1000, 50, true⟩, ⟨0x1052, 14, false⟩]) := by
    decide +kernel
  rw [hh, Option.bind_some, hrun] at hlost
  have hnodes : h'.nodes = [⟨0x1000, 50, true⟩, ⟨0x1052, 14, false⟩] := of_decide_eq_true hlost
  have hthird := (hres.others ⟨0x1080, 32, true⟩ (by decide) rfl (by decide)).1
  rw [← ht'.nodes_eq, hnodes] at hthird
  exact absurd hthird (by decide)

end Realloc

end Colibri.Memory

import Colibri.Memory.Heap.Grow
import Colibri.Memory.Vmm.Containers

/-!
# Blocks in use stay apart

A request that no node has room for makes the heap grow, if `vmm_alloc_at` finds a place for an area
behind the last node. If it finds none, `alloc` returns `NULL` and the heap is as before. A `realloc`
that has to move its block frees it then, if it is empty; else it copies the block to `NULL`.

## Results

* `heap_blocks_apart`: in runs of sound calls that add no area to the heap the blocks in use are in
  the region, apart from each other and from the headers.
* `growth_leaves_area`: a run that adds one.
-/

namespace Colibri.Memory

open Colibri.Lib HeapField HeapNode

/-- A list in which no node fits stays as it is. -/
theorem allocated_of_unfit {sz : Nat} : ∀ {nodes : List HeapNode}, (∀ k ∈ nodes, ¬k.Fits sz) →
    allocated sz nodes = nodes
  | [], _ => rfl
  | n :: nodes, h => by
    rw [allocated, if_neg (h n List.mem_cons_self),
      allocated_of_unfit fun k hk => h k (List.mem_cons_of_mem _ hk)]

namespace HeapUse

/-- `vmm_alloc_at` finds no place for `sz` bytes behind the last node of the heap. -/
def Refused (s : HeapUse) (sz : Nat) : Prop :=
  ¬Adds s.heap.kernelVmm (lastAddr 0 s.heap.nodes) sz

instance (s : HeapUse) (sz : Nat) : Decidable (s.Refused sz) := inferInstanceAs (Decidable (¬_))

/-- The call adds no area to the heap: a node fits, or there is no place for an area. -/
def Ungrown (s : HeapUse) : HeapCall → Prop
  | .alloc sz => s.HasRoom sz ∨ s.Refused sz
  | .realloc ptr sz => ptr = 0 ∨ s.Moves ptr sz → s.HasRoom sz ∨ s.Refused sz
  | .free _ => True

instance (s : HeapUse) : ∀ c, Decidable (s.Ungrown c)
  | .alloc sz => inferInstanceAs (Decidable (s.HasRoom sz ∨ s.Refused sz))
  | .realloc ptr sz =>
    inferInstanceAs (Decidable (ptr = 0 ∨ s.Moves ptr sz → s.HasRoom sz ∨ s.Refused sz))
  | .free _ => inferInstanceAs (Decidable True)

/-- Where the blocks in use have to be: in a region of the heap, apart from each other and from
every header in the list. -/
structure BlocksApart (s : HeapUse) : Prop where
  inside : ∀ b ∈ s.live, ∃ reg ∈ s.heap.regions, reg.1 ≤ b.1 ∧ b.1 + b.2 ≤ reg.1 + reg.2
  headers : ∀ b ∈ s.live, ∀ n ∈ s.heap.nodes, Mem.Disjoint b.1 b.2 n.addr heapNodeSize
  blocks : s.live.Pairwise fun b c => Mem.Disjoint b.1 b.2 c.1 c.2

section Run

variable {m : Mem} {start len sz : Nat} {kmem : Kmem} {vmm : Vmm} {s s' : HeapUse}

/-! ## A refused request -/

/-- `alloc` where no node fits and there is no place for an area. -/
theorem Listed.alloc_refused {h h' : Heap} {nodes : List HeapNode} {p : Nat}
    (hl : Listed h start len nodes) (hlen : 0 < len) (hunfit : ∀ k ∈ nodes, ¬k.Fits sz)
    (hrefused : ¬Adds h.kernelVmm (lastAddr 0 nodes) sz) (he : h.alloc sz = some (h', p)) :
    h' = h ∧ p = 0 := by
  have hchained : h.Chained start (start + len) nodes :=
    ⟨hl.first, hl.layout.weaken, hl.linked.forward, hl.pos, hl.bound⟩
  have hne : nodes ≠ [] := by
    rintro rfl
    have hempty : start = start + len := hl.layout
    omega
  cases hrun : h.kmem.vmmAllocAt (lastAddr 0 nodes) h.kernelVmm sz memoryFlagWrite with
  | none =>
    rw [hchained.alloc_grow hne hunfit, grow_none hrun] at he
    exact absurd he (by simp)
  | some r =>
    obtain ⟨kmem, kernelVmm, area⟩ := r
    obtain ⟨rfl, rfl, rfl⟩ := vmmAllocAt_of_not_adds hrefused hrun
    rw [hchained.alloc_exhausted ⟨hne, hunfit, hrun⟩] at he
    obtain ⟨rfl, rfl⟩ := Prod.mk.inj (Option.some.inj he)
    exact ⟨rfl, rfl⟩

/-- `realloc` of a block that has to move, after `alloc` has returned `NULL`: the block was empty, and
is freed. -/
theorem Moves.refused {ptr p : Nat} {h' : Heap} (hm : s.Moves ptr sz)
    (halloc : ∀ h₁ q, s.heap.alloc sz = some (h₁, q) → h₁ = s.heap ∧ q = 0)
    (he : s.heap.realloc ptr sz = some (h', p)) :
    s.heap.free ptr = some h' ∧ p = 0 := by
  obtain ⟨hptr, hsz, hlt, hmove⟩ := hm
  have hrealloc : s.heap.realloc ptr sz = s.heap.move (u64Sub ptr heapNodeSize) ptr sz := by
    unfold Heap.realloc
    simp only [hptr, hsz, hlt, hmove, if_true, if_false]
  rw [hrealloc] at he
  unfold Heap.move at he
  obtain ⟨⟨h₁, q⟩, ha, he⟩ := Option.bind_eq_some_iff.mp he
  obtain ⟨rfl, rfl⟩ := halloc h₁ q ha
  by_cases hsize : size.get s.heap.mem (u64Sub ptr heapNodeSize) = 0
  · simp only [hsize, Mem.copy_zero, ne_eq, not_true_eq_false, and_false, if_false] at he
    obtain ⟨h₂, hfree, he⟩ := Option.bind_eq_some_iff.mp he
    obtain ⟨rfl, rfl⟩ := Prod.mk.inj (Option.some.inj he)
    exact ⟨hfree, rfl⟩
  · simp only [hsize, ne_eq, not_false_eq_true, and_self, if_true] at he
    exact absurd he (by simp)

/-- **One sound call that adds no area** keeps the invariant, if it returns. -/
theorem Inv.step_ungrown {c : HeapCall} (h : Inv start len s) (hlen : 0 < len)
    (hpromised : s.Promised c) (hgrow : s.Ungrown c) (hsound : s.Sound c)
    (hstep : s.step c = some s') : Inv start len s' := by
  by_cases hroom : s.NoGrowth c
  case pos =>
    obtain ⟨s'', he, hinv⟩ := h.step hpromised hroom hsound
    rw [hstep] at he
    rwa [Option.some.inj he]
  case neg =>
    obtain ⟨nodes, hl, hh, hreg⟩ := h
    have hnodes := hl.nodes_eq
    have hunfit : ∀ {sz}, ¬s.HasRoom sz → ∀ k ∈ nodes, ¬k.Fits sz := fun hno k hk hfit =>
      hno ⟨k, hnodes.symm ▸ hk, hfit⟩
    cases c with
    | alloc sz =>
      have hrefused := hgrow.resolve_left hroom
      rw [Refused, hnodes] at hrefused
      rw [HeapUse.step, Option.map_eq_some_iff] at hstep
      obtain ⟨⟨h', p⟩, halloc, rfl⟩ := hstep
      obtain ⟨rfl, rfl⟩ := hl.alloc_refused hlen (hunfit hroom) hrefused halloc
      exact ⟨nodes, hl, hh, hreg⟩
    | realloc ptr sz =>
      obtain ⟨hneeds, hno⟩ := Classical.not_imp.mp hroom
      have hrefused := (hgrow hneeds).resolve_left hno
      rw [Refused, hnodes] at hrefused
      rw [HeapUse.step, Option.map_eq_some_iff] at hstep
      obtain ⟨⟨h', p⟩, hrealloc, rfl⟩ := hstep
      by_cases hptr : ptr = 0
      case pos =>
        rw [Heap.realloc, if_pos hptr] at hrealloc
        obtain ⟨rfl, rfl⟩ := hl.alloc_refused hlen (hunfit hno) hrefused hrealloc
        exact ⟨nodes, hl, hh.forget fun k hk _ _ => hk, hreg⟩
      case neg =>
        have hm := hneeds.resolve_left hptr
        obtain ⟨hfree, rfl⟩ := hm.refused
          (fun _ _ ha => hl.alloc_refused hlen (hunfit hno) hrefused ha) hrealloc
        rw [Sound, if_neg hptr, if_neg hm.2.1, if_pos hm, hnodes, allocated_of_unfit (hunfit hno)]
          at hsound
        obtain ⟨l, n, r, rfl, hused, rfl⟩ := hh.exists_node (hpromised.1.resolve_left hptr)
        obtain ⟨h₁, nodes', he, hl', hreg', hh', -⟩ :=
          hl.free hh ⟨n, by simp, hused, rfl⟩ hsound.2
        obtain rfl := Option.some.inj (hfree.symm.trans he)
        exact ⟨nodes', hl', hh', hreg'.trans hreg⟩
    | free ptr => exact absurd trivial hroom

/-! ## Runs -/

/-- The blocks in use are apart where each is in a node of its own. -/
theorem Inv.blocksApart (h : Inv start len s) : BlocksApart s := by
  obtain ⟨nodes, hl, hh, hreg⟩ := h
  refine ⟨fun b hb => ?_, fun b hb k hk => ?_, ?_⟩
  · obtain ⟨n, hn, -, hptr, hsize⟩ := hh.node b hb
    have hle := (hl.layout.le eq_le).2 n hn
    refine ⟨(start, len), by simp [hreg], ?_, ?_⟩
    · rw [← hptr, ptr]
      exact Nat.le_trans hle.1 (Nat.le_add_right _ _)
    · rw [← hptr, ptr]
      exact Nat.le_trans (Nat.add_le_add_left hsize _) hle.2
  · rw [hl.nodes_eq] at hk
    obtain ⟨n, hn, -, hptr, hsize⟩ := hh.node b hb
    rw [ptr] at hptr
    have hkstop := k.addr_add_le_stop
    rcases Layout.eq_or_stop_le eq_le hl.layout hn hk with rfl | hle | hle
    · exact .inr (Nat.le_of_eq hptr)
    · rw [stop] at hle
      exact .inl (by omega)
    · exact .inr (by omega)
  · refine (List.pairwise_map.mp hh.nodup).imp_of_mem fun {b c} hb hc hne => ?_
    obtain ⟨n, hn, -, hptr, hsize⟩ := hh.node b hb
    obtain ⟨k, hk, -, hptr', hsize'⟩ := hh.node c hc
    rcases Layout.eq_or_stop_le eq_le hl.layout hn hk with rfl | hle | hle
    · exact absurd (hptr.symm.trans hptr') hne
    · rw [ptr] at hptr hptr'
      rw [stop] at hle
      exact .inl (by omega)
    · rw [ptr] at hptr hptr'
      rw [stop] at hle
      exact .inr (by omega)

/-- **Blocks in use do not overlap** in every run of sound calls that add no area to the heap: each
is in the heap's region, apart from the others and from all headers. -/
theorem heap_blocks_apart (hstart : 0 < start) (hlen : heapNodeSize ≤ len)
    (hend : start + len < u64Size)
    (hrun : Run HeapUse.step (fun s c => s.Promised c ∧ s.Ungrown c ∧ s.Sound c)
      (init m start len kmem vmm) s) : BlocksApart s := by
  have hpos : 0 < len := Nat.lt_of_lt_of_le (by decide) hlen
  have hinv : Inv start len s :=
    hrun.invariant (Inv start len) (inv_init hstart hlen hend) fun _ _ _ hs hok he =>
      hs.step_ungrown hpos hok.1 hok.2.1 hok.2.2 he
  exact hinv.blocksApart

/-- Two blocks are taken, one of them is moved, and a third one is refused. -/
theorem heap_blocks_apart_small :
    ∃ s, runActions HeapUse.step (fun s c => s.Promised c ∧ s.Ungrown c ∧ s.Sound c) smallUse
        [.alloc 32, .alloc 32, .realloc 0x1020 48, .alloc 4096] = some s ∧ s.live.length = 2 ∧
      BlocksApart s := by
  have hany : (runActions HeapUse.step (fun s c => s.Promised c ∧ s.Ungrown c ∧ s.Sound c) smallUse
      [.alloc 32, .alloc 32, .realloc 0x1020 48, .alloc 4096]).any fun s =>
        decide (s.live.length = 2) := by
    decide +kernel
  obtain ⟨s, hs, hp⟩ := (Option.any_eq_true _ _).mp hany
  refine ⟨s, hs, of_decide_eq_true hp, ?_⟩
  exact heap_blocks_apart (by decide) (by decide) (by decide) (Run.of_runActions hs)

/-- The heap as `core_startup.c` sets it up: over an area of two pages of a vmm. -/
def bootUse : Option HeapUse :=
  let kmem : Kmem := { smallHeap.kmem with free := [0x5000] }
  (kmem.vmmAlloc (vmmInit 0x9000 0x10000 0x1fffff false) (2 * pageSize) memoryFlagWrite).map
    fun (kmem, vmm, area) =>
      init (fun _ => 0) (kmem.areas area).start (kmem.areas area).size kmem vmm

/-- A block as large as the area the heap grows by ends behind it. -/
theorem growth_leaves_area :
    ∃ s₀ s, bootUse = some s₀ ∧ Run HeapUse.step HeapUse.Promised s₀ s ∧ ¬BlocksApart s := by
  have hany : bootUse.any fun s₀ => (runActions HeapUse.step HeapUse.Promised s₀
      [.alloc 8192]).any fun s => decide (∃ b ∈ s.live, ∀ reg ∈ s.heap.regions,
        ¬(reg.1 ≤ b.1 ∧ b.1 + b.2 ≤ reg.1 + reg.2)) := by
    decide +kernel
  obtain ⟨s₀, hs₀, hp⟩ := (Option.any_eq_true _ _).mp hany
  obtain ⟨s, hs, hout⟩ := (Option.any_eq_true _ _).mp hp
  refine ⟨s₀, s, hs₀, Run.of_runActions hs, fun h => ?_⟩
  obtain ⟨b, hb, hreg⟩ := of_decide_eq_true hout
  obtain ⟨reg, hmem, hin⟩ := h.inside b hb
  exact hreg reg hmem hin

end Run

end HeapUse

end Colibri.Memory

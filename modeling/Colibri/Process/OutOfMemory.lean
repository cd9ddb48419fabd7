import Colibri.Memory.Heap.Grow
import Colibri.Process

/-!
# When there is no memory for a thread array

`alloc`, `realloc` and `add` of `kernel/process.c`, when no free node of the heap has room and
`kernel_vmm` has no further area. `add` doubles the capacity before it asks for memory, and overwrites
its only reference to the array with what `realloc` returned.

## Results

* `keptOnFailure_iff`: of the three only `alloc` leaves everything in place.
-/

namespace Colibri

open Colibri.Lib Colibri.Memory HeapField HeapNode

/-- A call that asks the heap for memory: `alloc`, `realloc` of the block of a node, and `add` to the
thread array at `array`, whose data is the block of a node. -/
inductive HeapRequest where
  | alloc (sz : Nat)
  | realloc (n : HeapNode) (sz : Nat)
  | add (array t : Nat) (n : HeapNode)

namespace Kernel

/-- `array->data`. -/
def arrayData (s : Kernel) (array : Nat) : Nat := s.heap.mem.load array 8

/-- `array->len`. -/
def arrayLen (s : Kernel) (array : Nat) : Nat := s.heap.mem.load (array + 8) 8

/-- `array->capacity`. -/
def arrayCapacity (s : Kernel) (array : Nat) : Nat := s.heap.mem.load (array + 16) 8

/-- What `add` asks `realloc` for when the array is full: twice its capacity. -/
def doubled (s : Kernel) (array : Nat) : Nat := u64Mul (u64Mul (s.arrayCapacity array) 2) 8

/-- `realloc` has to move the block of `n`, and there is no memory to move it to. -/
structure NoRoom (s : Kernel) (nodes : List HeapNode) (n : HeapNode) (sz : Nat) : Prop where
  node : n ∈ nodes
  used : n.used = true
  pos : 0 < sz
  size : n.size ≤ sz
  moves : MustMove s.heap.mem n.addr n.ptr sz
  exhausted : s.heap.Exhausted nodes sz

/-- The call needs memory that there is not. -/
def Fails (s : Kernel) (nodes : List HeapNode) : HeapRequest → Prop
  | .alloc sz => s.heap.Exhausted nodes sz
  | .realloc n sz => s.NoRoom nodes n sz
  | .add array _ n =>
    -- a full array that is not one of the headers
    s.arrayData array = n.ptr ∧ s.arrayCapacity array ≤ s.arrayLen array ∧
      (∀ i, array ≤ i → i < array + 24 → OffHeaders nodes i) ∧
      s.NoRoom nodes n (s.doubled array)

/-- The call reports that there is no memory and leaves what it was about in place. -/
def KeptOnFailure (s : Kernel) : HeapRequest → Prop
  | .alloc sz => s.alloc sz = some (s, 0)
  | .realloc n sz => ∃ h, s.heap.realloc n.ptr sz = some (h, 0) ∧ n ∈ h.nodes ∧
    ∀ i, n.ptr ≤ i → i < n.stop → h.mem i = s.heap.mem i
  | .add array t _ => ∃ s', s.add array t = some s' ∧ s'.arrayData array = s.arrayData array ∧
    s'.arrayLen array = s.arrayLen array ∧ s'.arrayCapacity array = s.arrayCapacity array

variable {s s' : Kernel} {lo hi sz array t : Nat} {n : HeapNode} {nodes : List HeapNode}

/-- The block of a full array is lost: `realloc` fails. -/
theorem NoRoom.realloc (h : s.NoRoom nodes n sz) (hl : s.heap.Linked lo hi nodes) :
    s.heap.realloc n.ptr sz = none ∨
      ∃ h₁, s.heap.realloc n.ptr sz = some (h₁, 0) ∧ n ∉ h₁.nodes := by
  obtain ⟨l, r, rfl⟩ := List.append_of_mem h.node
  exact hl.realloc_exhausted h.used h.pos h.size h.moves h.exhausted

/-- A write off the headers leaves the heap as full as it was. -/
theorem NoRoom.write {m : Mem} (h : s.NoRoom nodes n sz) (hl : s.heap.Linked lo hi nodes)
    (hm : ∀ i, ¬OffHeaders nodes i → m i = s.heap.mem i) :
    ({ s with heap := { s.heap with mem := m } } : Kernel).NoRoom nodes n sz := by
  have hget : ∀ k ∈ nodes, ∀ f : HeapField, f.get m k.addr = f.get s.heap.mem k.addr :=
    fun k hk f => get_congr fun i h₁ h₂ => hm i fun hoff => by
      have := hoff k hk
      omega
  refine ⟨h.node, h.used, h.pos, h.size, ?_, h.exhausted.nonempty, h.exhausted.unfit,
    h.exhausted.noArea⟩
  have hmoves := h.moves
  obtain ⟨l, r, rfl⟩ := List.append_of_mem h.node
  have hnext : next.get s.heap.mem n.addr = firstAddr r 0 :=
    (Seg.append_iff.mp hl.linked).2.1.next
  unfold MustMove at hmoves ⊢
  rw [hget n (by simp), hget n (by simp)]
  cases r with
  | nil => exact .inl hnext
  | cons k r =>
    have hk : next.get s.heap.mem n.addr = k.addr := hnext
    rw [hk] at hmoves ⊢
    rwa [hget k (by simp), hget k (by simp)]

/-- **A full thread array is not kept** when `realloc` fails. -/
theorem not_keptOnFailure_add (hl : s.heap.Linked lo hi nodes) (h : s.Fails nodes (.add array t n)) :
    ¬s.KeptOnFailure (.add array t n) := by
  obtain ⟨hdata, hfull, hoff, hroom⟩ := h
  rintro ⟨s', hadd, hdata', -, -⟩
  have hptr : n.ptr ≠ 0 := by
    rw [HeapNode.ptr, heapNodeSize]
    omega
  obtain ⟨m, hmdef⟩ : ∃ m, m = writeFields s.heap.mem array
    [⟨16, 8, u64Mul (s.arrayCapacity array) 2⟩] := ⟨_, rfl⟩
  have hm : ∀ i, ¬OffHeaders nodes i → m i = s.heap.mem i := fun i hi => by
    rw [hmdef, writeFields, writeFields]
    refine Mem.store_of_notMem ?_
    dsimp only
    by_contra hin
    exact hi (hoff i (by omega) (by omega))
  have hload : m.load array 8 = n.ptr := by
    rw [← hdata, hmdef, writeFields, writeFields]
    have hbehind : array + 8 ≤ array + 16 := by omega
    exact Mem.load_store_of_disjoint (.inr hbehind)
  have hrealloc := (hroom.write hl hm).realloc (hl.write hm)
  have he : s.add array t = (({ s.heap with mem := m } : Heap).realloc n.ptr (s.doubled array)).bind
      fun r =>
        let s₁ := ({ s with heap := r.1 } : Kernel).write array [⟨0, 8, r.2⟩]
        if r.2 = 0 then some s₁ else
          let data := s₁.heap.mem.load array 8
          let len := s₁.heap.mem.load (array + 8) 8
          if data = 0 then none
          else some ((s₁.write (u64Add data (8 * len)) [⟨0, 8, t⟩]).write array
            [⟨8, 8, u64Incr len⟩]) := by
    have hge : s.heap.mem.load (array + 8) 8 ≥ s.heap.mem.load (array + 16) 8 := hfull
    unfold Kernel.add
    dsimp only
    rw [if_pos hge, ← hload, hmdef]
    rfl
  rw [he] at hadd
  rcases hrealloc with hnone | ⟨h₁, hsome, -⟩
  · dsimp only at hnone
    rw [hnone] at hadd
    exact absurd hadd.symm (Option.some_ne_none _)
  · dsimp only at hsome
    rw [hsome, Option.bind_some] at hadd
    dsimp only at hadd
    rw [if_pos rfl] at hadd
    obtain rfl := Option.some.inj hadd
    have hzero : (({ s with heap := h₁ } : Kernel).write array [⟨0, 8, 0⟩]).arrayData array = 0 := by
      rw [arrayData, Kernel.write, writeFields, writeFields]
      exact Mem.load_store _ _ _ _
    rw [hzero, hdata] at hdata'
    exact hptr hdata'.symm

/-- **Only `alloc` keeps what there was** when it needs memory that there is not: `realloc` and `add`
never do. -/
theorem keptOnFailure_iff {req : HeapRequest} (hl : s.heap.Linked lo hi nodes)
    (h : s.Fails nodes req) : s.KeptOnFailure req ↔ ∃ sz, req = .alloc sz := by
  cases req with
  | alloc sz =>
    refine ⟨fun _ => ⟨sz, rfl⟩, fun _ => ?_⟩
    have halloc := hl.chained.alloc_exhausted h
    rw [KeptOnFailure, Kernel.alloc, halloc]
    rfl
  | realloc n sz =>
    refine ⟨?_, fun ⟨sz', he⟩ => nomatch he⟩
    rintro ⟨h', he, hmem, -⟩
    rcases h.realloc hl with hnone | ⟨h₁, hsome, hnot⟩
    · rw [hnone] at he
      exact nomatch he
    · rw [hsome] at he
      obtain ⟨rfl, -⟩ := Prod.mk.inj (Option.some.inj he)
      exact absurd hmem hnot
  | add array t n =>
    exact ⟨fun hkept => absurd hkept (not_keptOnFailure_add hl h), fun ⟨sz', he⟩ => nomatch he⟩

/-- The small heap with all of it in one block, over no memory to grow into. -/
def fullKernel : Kernel where
  heap := { smallHeap with mem := status.set smallHeap.mem 0x1000 heapUsed }
  data := fun _ => 0
  processList := 0
  kernelPml4 := 0
  nextFreePid := 0
  nextFreeTid := 0

theorem fullKernel_linked : fullKernel.heap.Linked 0x1000 0x1100 [⟨0x1000, 224, true⟩] :=
  ⟨by decide, by decide, by decide, by decide, by decide⟩

theorem fullKernel_exhausted (hsz : 0 < sz) (hle : sz ≤ 4096) :
    fullKernel.heap.Exhausted [⟨0x1000, 224, true⟩] sz := by
  refine ⟨by simp, by simp [HeapNode.Fits], ?_⟩
  have hlength : Kmem.areaLength sz = 4095 := by
    have hsize := u64Size_eq
    rw [Kmem.areaLength, u64Sub_eq (by omega) (by omega), pageEnd_eq (by omega), pageStart,
      pageSize_eq]
    omega
  have hfull : u64Add (Kmem.place fullKernel.heap.kernelVmm 0x1000) 4095 >
      fullKernel.heap.kernelVmm.vmmDataEnd := by decide
  obtain ⟨n, hn⟩ : ∃ n, u64Size = n + 1 := ⟨u64Size - 1, by decide⟩
  unfold Kmem.vmmAllocAt
  rw [hlength]
  dsimp only [lastAddr]
  have hfirst : fullKernel.heap.kernelVmm.firstArea = 0 := rfl
  rw [if_pos hfull, hn, Kmem.gapLoop, if_pos hfirst]

/-- There is no memory for another block. -/
theorem keptOnFailure_iff_full :
    fullKernel.KeptOnFailure (.alloc 16) ↔ ∃ sz, HeapRequest.alloc 16 = .alloc sz :=
  keptOnFailure_iff fullKernel_linked (fullKernel_exhausted (by decide) (by decide))

/-- The block is to grow. -/
theorem realloc_full_lost : ¬∀ (s : Kernel) (lo hi : Nat) (nodes : List HeapNode)
    (req : HeapRequest), s.heap.Linked lo hi nodes → s.Fails nodes req → s.KeptOnFailure req := by
  intro h
  have hroom : fullKernel.NoRoom [⟨0x1000, 224, true⟩] ⟨0x1000, 224, true⟩ 300 :=
    ⟨List.mem_singleton_self _, rfl, by decide, by decide, by decide,
      fullKernel_exhausted (by decide) (by decide)⟩
  obtain ⟨h', he, hmem, -⟩ := h fullKernel 0x1000 0x1100 _ (.realloc ⟨0x1000, 224, true⟩ 300)
    fullKernel_linked hroom
  rcases hroom.realloc fullKernel_linked with hnone | ⟨h₁, hsome, hnot⟩
  · rw [hnone] at he
    exact nomatch he
  · rw [hsome] at he
    obtain ⟨rfl, -⟩ := Prod.mk.inj (Option.some.inj he)
    exact hnot hmem

end Kernel

end Colibri

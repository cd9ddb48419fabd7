import Colibri.Lib.Mem
import Colibri.Memory.Vmm

/-!
# The kernel heap (`kernel/memory/heap.c`)

The heap is a doubly linked list of `heap_node_t` headers that lie in the heap itself, each before
the block it describes. The model keeps them there: a header is 32 bytes of the byte memory, so a
header that is written over another one, or over a block, is seen as such.

A link that is followed while it is `NULL` stops the kernel: the functions that can do so return
`none` there, and so does the search of `alloc` in a list that does not end.
-/

namespace Colibri.Memory

open Colibri.Lib

/-- The fields of `heap_node_t`. -/
inductive HeapField
  | size
  | status
  | prev
  | next
  deriving DecidableEq

namespace HeapField

/-- Where the field lies in the header. -/
def offset : HeapField → Nat
  | size => 0
  | status => 8
  | prev => 16
  | next => 24

/-- The bytes of the field; `status` is a `u8`. -/
def width : HeapField → Nat
  | size => 8
  | status => 1
  | prev => 8
  | next => 8

/-- `node->field`. -/
def get (f : HeapField) (m : Mem) (node : Nat) : Nat := m.load (node + f.offset) f.width

/-- `node->field = v`. -/
def set (f : HeapField) (m : Mem) (node v : Nat) : Mem := m.store (node + f.offset) f.width v

end HeapField

open HeapField

/-- `sizeof(heap_node_t)`. -/
def heapNodeSize : Nat := 32

/-- `FREE`. -/
def heapFree : Nat := 0

/-- `USED`. -/
def heapUsed : Nat := 1

/-- The heap, with what its growth works on: `kernel_vmm` and the pages below it. `regions` is a
ghost: the start and length of the region it was initialised with and of the areas it was given. -/
structure Heap where
  mem : Mem
  kernelHeap : Nat
  kmem : Kmem
  kernelVmm : Vmm
  regions : List (Nat × Nat)

/-- `init_heap`. -/
def initHeap (m : Mem) (heap sz : Nat) : Mem :=
  let m := size.set m heap (u64Sub sz heapNodeSize)
  let m := status.set m heap heapFree
  let m := prev.set m heap 0
  next.set m heap 0

/-- `cur->status == USED || cur->size < size`. -/
def Unfit (m : Mem) (sz cur : Nat) : Prop := status.get m cur = heapUsed ∨ size.get m cur < sz

instance (m : Mem) (sz cur : Nat) : Decidable (Unfit m sz cur) := inferInstanceAs (Decidable (_ ∨ _))

/-- The search of `alloc`: the first node that fits, or the last one. -/
def findFit (m : Mem) (sz : Nat) : Nat → Nat → Option Nat
  | 0, _ => none
  | fuel + 1, cur =>
    if Unfit m sz cur then
      if next.get m cur = 0 then some cur else findFit m sz fuel (next.get m cur)
    else some cur

/-- The growth of the heap behind its last node `cur`; the node 0 says that there is no memory. -/
def Heap.grow (h : Heap) (sz cur : Nat) : Option (Heap × Nat) :=
  match h.kmem.vmmAllocAt cur h.kernelVmm sz memoryFlagWrite with
  | none => none
  | some (kmem, kernelVmm, 0) => some ({ h with kmem, kernelVmm }, 0)
  | some (kmem, kernelVmm, area) =>
    let start := (kmem.areas area).start
    let length := (kmem.areas area).size
    let regions := (start, length) :: h.regions
    if start = u64Add cur (size.get h.mem cur) then
      let m := size.set h.mem cur (u64Add (size.get h.mem cur) length)
      some ({ h with mem := m, kmem, kernelVmm, regions }, cur)
    else
      let m := size.set h.mem start length
      let m := status.set m start heapFree
      let m := prev.set m start cur
      let m := next.set m start 0
      let m := next.set m cur start
      some ({ h with mem := m, kmem, kernelVmm, regions }, start)

/-- What `alloc` does with the node it takes: the rest of the node becomes a node of its own. -/
def take (m : Mem) (sz cur : Nat) : Mem :=
  let m :=
    if size.get m cur > u64Add sz heapNodeSize then
      let rest := u64Add (u64Add cur heapNodeSize) sz
      let m := size.set m rest (u64Sub (u64Sub (size.get m cur) sz) heapNodeSize)
      let m := status.set m rest heapFree
      let m := prev.set m rest cur
      let m := next.set m rest (next.get m cur)
      let m := next.set m cur rest
      size.set m cur sz
    else m
  status.set m cur heapUsed

/-- `alloc`; the block 0 is `NULL`. -/
def Heap.alloc (h : Heap) (sz : Nat) : Option (Heap × Nat) := do
  let cur ← findFit h.mem sz u64Size h.kernelHeap
  let (h, cur) ←
    (if next.get h.mem cur = 0 ∧ Unfit h.mem sz cur then h.grow sz cur else some (h, cur))
  if cur = 0 then some (h, 0)
  else some ({ h with mem := take h.mem sz cur }, u64Add cur heapNodeSize)

/-- `merge_right`. -/
def mergeRight (m : Mem) (node : Nat) : Mem :=
  let ptr := u64Add node heapNodeSize
  if next.get m node ≠ 0 ∧ status.get m (next.get m node) = heapFree ∧
      u64Add (size.get m node) ptr = next.get m node then
    let merging := next.get m node
    let m := if next.get m merging ≠ 0 then prev.set m (next.get m merging) node else m
    let m := next.set m node (next.get m merging)
    size.set m node (u64Add (size.get m node) (u64Add (size.get m merging) heapNodeSize))
  else m

/-- The merge of `free` with the node on the left. Unlike `merge_right` it follows `node->next`
whatever it is. -/
def mergeLeft (m : Mem) (node : Nat) : Option Mem :=
  let left := prev.get m node
  if left ≠ 0 ∧ status.get m left = heapFree ∧
      u64Add (u64Add left (size.get m left)) heapNodeSize = node then
    let m := next.set m left (next.get m node)
    if next.get m node = 0 then none
    else
      let m := prev.set m (next.get m node) left
      some (size.set m left (u64Add (size.get m left) (u64Add (size.get m node) heapNodeSize)))
  else some m

/-- `free` of the node. -/
def freeNode (m : Mem) (node : Nat) : Option Mem :=
  if status.get m node ≠ heapFree ∧ status.get m node ≠ heapUsed then
    -- free on an invalid address
    some m
  else if status.get m node = heapFree then some m
  else mergeLeft (mergeRight (status.set m node heapFree) node) node

/-- `free`. -/
def Heap.free (h : Heap) (ptr : Nat) : Option Heap :=
  (freeNode h.mem (u64Sub ptr heapNodeSize)).map fun mem => { h with mem }

/-- `realloc` to a smaller size, with room for a header behind the block. -/
def shrink (m : Mem) (node ptr sz : Nat) : Mem :=
  let freed := u64Add ptr sz
  let m := status.set m freed heapFree
  let m := next.set m freed (next.get m node)
  let m := prev.set m freed node
  let m := size.set m freed (u64Sub (u64Sub (size.get m node) sz) heapNodeSize)
  let m := size.set m node sz
  let m := if next.get m node ≠ 0 then prev.set m (next.get m node) freed else m
  let m := next.set m node freed
  mergeRight m freed

/-- `realloc` into the free node on the right, whose header moves up. The new header is written
field by field, between reads of the old one. -/
def extend (m : Mem) (node ptr sz : Nat) : Mem :=
  let right := u64Add ptr sz
  let m := status.set m right heapFree
  let m := size.set m right
    (u64Sub (u64Add (size.get m node) (size.get m (next.get m node))) sz)
  let m := next.set m right (next.get m (next.get m node))
  let m := prev.set m right node
  let m := next.set m node right
  let m := size.set m node sz
  if next.get m right ≠ 0 then prev.set m (next.get m right) right else m

/-- The test of `realloc` for a block that cannot grow where it is. -/
def MustMove (m : Mem) (node ptr sz : Nat) : Prop :=
  next.get m node = 0 ∨ status.get m (next.get m node) ≠ heapFree ∨
    u64Add (size.get m node) ptr ≠ next.get m node ∨
    u64Add (size.get m (next.get m node)) (size.get m node) < sz

instance (m : Mem) (node ptr sz : Nat) : Decidable (MustMove m node ptr sz) :=
  inferInstanceAs (Decidable (_ ∨ _ ∨ _ ∨ _))

/-- `realloc` into a new block. The move does not look at what `alloc` returned. -/
def Heap.move (h : Heap) (node ptr sz : Nat) : Option (Heap × Nat) := do
  let (h, newPtr) ← h.alloc sz
  if newPtr = 0 ∧ size.get h.mem node ≠ 0 then none
  else
    let h ← ({ h with mem := h.mem.copy newPtr ptr (size.get h.mem node) } : Heap).free ptr
    some (h, newPtr)

/-- `realloc`. -/
def Heap.realloc (h : Heap) (ptr sz : Nat) : Option (Heap × Nat) :=
  if ptr = 0 then h.alloc sz
  else if sz = 0 then (h.free ptr).map fun h => (h, 0)
  else
    let node := u64Sub ptr heapNodeSize
    if sz < size.get h.mem node then
      if u64Sub (size.get h.mem node) sz < heapNodeSize then some (h, ptr)
      else some ({ h with mem := shrink h.mem node ptr sz }, ptr)
    else if MustMove h.mem node ptr sz then h.move node ptr sz
    else some ({ h with mem := extend h.mem node ptr sz }, ptr)

/-- A heap of 256 bytes, just initialised, over no memory to grow into. -/
def smallHeap : Heap where
  mem := initHeap (fun _ => 0) 0x1000 256
  kernelHeap := 0x1000
  kmem :=
    { free := [], nxFlagEnabled := true, tables := fun _ _ => ⟨0⟩
      areas := fun _ => ⟨0, 0, 0, 0, 0, 0⟩, containerNext := fun _ => 0 }
  kernelVmm := vmmInit 0 0 0 false
  regions := [(0x1000, 256)]

/-! ## What a header holds -/

namespace HeapField

variable {m : Mem} {f g : HeapField} {a b v : Nat}

/-- The headers at `a` and `b` do not overlap. -/
def Apart (a b : Nat) : Prop := a + heapNodeSize ≤ b ∨ b + heapNodeSize ≤ a

theorem Apart.symm (h : Apart a b) : Apart b a := Or.symm h

theorem offset_add_width_le (f : HeapField) : f.offset + f.width ≤ heapNodeSize := by
  cases f <;> decide

/-- Writing a field changes its header only. -/
theorem set_of_notMem {i : Nat} (h : i < a ∨ a + heapNodeSize ≤ i) : f.set m a v i = m i := by
  have hf := f.offset_add_width_le
  exact Mem.store_of_notMem (by omega)

/-- A field is read off the bytes of its header. -/
theorem get_congr {m' : Mem} (h : ∀ i, a ≤ i → i < a + heapNodeSize → m' i = m i) :
    f.get m' a = f.get m a := by
  have hf := f.offset_add_width_le
  exact Mem.load_congr fun i hi hi' => h i (by omega) (by omega)

theorem get_set_apart (h : Apart b a) : f.get (g.set m b v) a = f.get m a :=
  get_congr fun _ _ _ => set_of_notMem (by rcases h with h | h <;> omega)

theorem get_set_ne (h : f ≠ g) : f.get (g.set m a v) a = f.get m a := by
  apply Mem.load_store_of_disjoint
  cases f <;> cases g <;> first | exact absurd rfl h | (simp [Mem.Disjoint, offset, width])

theorem get_set_self (h : v < 256 ^ f.width) : f.get (f.set m a v) a = v := by
  rw [get, set, Mem.load_store, Nat.mod_eq_of_lt h]

theorem get_set_u64 (hf : f ≠ status) (hv : v < u64Size) : f.get (f.set m a v) a = v :=
  get_set_self (by cases f <;> first | exact absurd rfl hf | exact hv)

theorem set_comm (h : Apart a b) {w : Nat} :
    f.set (g.set m a v) b w = g.set (f.set m b w) a v := by
  have hf := f.offset_add_width_le
  have hg := g.offset_add_width_le
  exact Mem.store_comm (by rcases h with h | h <;> simp only [Mem.Disjoint] <;> omega)

theorem get_lt (hf : f ≠ status) : f.get m a < u64Size := by
  have h := Mem.load_lt m (a + f.offset) f.width
  cases f <;> first | exact absurd rfl hf | exact h

end HeapField

end Colibri.Memory

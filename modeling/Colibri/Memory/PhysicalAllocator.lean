import Colibri.Lib.BitField
import Colibri.Memory.Layout
import Colibri.Memory.Lst

/-!
# The physical page allocator

Model of `kernel/arch/x86-64/memory/physical_allocator.c`. The free pages are threaded into a ring
through their own first bytes, seen at `PHYSICAL_OFFSET`; a bitmap at the start of the managed
memory has a bit for every page. Both are in the byte memory `mem`, so a page that is on the ring
and holds the bitmap would overwrite it.

`kalloc` returns `none` where `lst_pop` would panic.
-/

namespace Colibri.Memory

open Colibri.Lib

/-- The allocator's variables, with the memory and the address of `free_lst`. -/
structure PhysAlloc where
  mem : Mem
  base : Nat
  alloc : Nat
  allocSize : Nat
  freeLst : Nat

/-- `bit_isset`, on the bitmap at `alloc`. -/
def bitIsset (m : Mem) (alloc index : Nat) : Bool := (m (u64Add alloc (index / 8))).getLsbD (index % 8)

/-- `bit_set`. -/
def bitSet (m : Mem) (alloc index : Nat) : Mem :=
  Function.update m (u64Add alloc (index / 8)) (m (u64Add alloc (index / 8)) ||| 1#8 <<< (index % 8))

/-- `bit_clear`. -/
def bitClear (m : Mem) (alloc index : Nat) : Mem :=
  Function.update m (u64Add alloc (index / 8))
    (m (u64Add alloc (index / 8)) &&& ~~~(1#8 <<< (index % 8)))

namespace PhysAlloc

/-- `page_index`. -/
def pageIndex (s : PhysAlloc) (addr : Nat) : Nat := u64Sub (pageStart addr) s.base / pageSize

/-- `addr`. -/
def addr (s : PhysAlloc) (index : Nat) : Nat := u64Add s.base (u64Mul index pageSize)

/-- The three loops of `init_phys_allocator`: the bits of the bitmap's own pages, the free pages,
the bits behind the last page. -/
def initLoops (m : Mem) (base alloc allocSize freeLst pageCount index : Nat) : Mem :=
  let m := (List.range index).foldl (fun m i => bitSet m alloc i) m
  let m := (List.range' index (pageCount - index)).foldl
    (fun m i => lstPushEnd m freeLst (physToVirt (u64Add base (u64Mul i pageSize)))) m
  let i := max index pageCount
  (List.range' i (allocSize * 8 - i)).foldl (fun m i => bitSet m alloc i) m

/-- `init_phys_allocator` on the RAM window of `size` bytes at `start`. -/
def initPhysAllocator (s : PhysAlloc) (start size : Nat) : PhysAlloc :=
  let s := { s with mem := lstInit s.mem s.freeLst, base := u64Add (pageEnd start) 1 }
  let pageCount := size / pageSize
  if pageCount = 0 then s
  else
    let alloc := physToVirt s.base
    let allocSize := (pageCount - 1) / 8 + 1
    let index := s.pageIndex (u64Sub (u64Add s.base allocSize) 1) + 1
    { s with
      alloc, allocSize
      mem := initLoops (s.mem.fill alloc allocSize 0) s.base alloc allocSize s.freeLst pageCount index }

/-- `kalloc`. -/
def kalloc (s : PhysAlloc) : Option (PhysAlloc × Nat) :=
  if lstEmpty s.mem s.freeLst then some (s, 0)
  else do
    let (mem, n) ← lstPop s.mem s.freeLst
    let page := virtToPhys n
    return ({ s with mem := bitSet mem s.alloc (s.pageIndex page) }, page)

/-- `kfree`. -/
def kfree (s : PhysAlloc) (page : Nat) : PhysAlloc :=
  let addr := pageStart page
  let index := s.pageIndex addr
  if !bitIsset s.mem s.alloc index then s
  else { s with mem := bitClear (lstPush s.mem s.freeLst (physToVirt addr)) s.alloc index }

end PhysAlloc

/-! ## The bitmap -/

theorem byte_ne {alloc i j : Nat} (h : i / 8 ≠ j / 8) (hi : alloc + i / 8 < u64Size)
    (hj : alloc + j / 8 < u64Size) : u64Add alloc (j / 8) ≠ u64Add alloc (i / 8) := by
  rw [u64Add_eq hi, u64Add_eq hj]
  omega

theorem bitIsset_bitSet {m : Mem} {alloc i j : Nat} (hi : alloc + i / 8 < u64Size)
    (hj : alloc + j / 8 < u64Size) :
    bitIsset (bitSet m alloc i) alloc j = (decide (j = i) || bitIsset m alloc j) := by
  unfold bitIsset bitSet
  by_cases hb : i / 8 = j / 8
  · rw [hb, Function.update_self, BitVec.getLsbD_or, getLsbD_one_shiftLeft (Nat.mod_lt _ (by omega)),
      Bool.or_comm]
    congr 1
    exact decide_eq_decide.mpr (by omega)
  · have hne : j ≠ i := by
      rintro rfl
      exact hb rfl
    rw [Function.update_of_ne (byte_ne hb hi hj), decide_eq_false hne, Bool.false_or]

theorem bitIsset_bitClear {m : Mem} {alloc i j : Nat} (hi : alloc + i / 8 < u64Size)
    (hj : alloc + j / 8 < u64Size) :
    bitIsset (bitClear m alloc i) alloc j = (!decide (j = i) && bitIsset m alloc j) := by
  unfold bitIsset bitClear
  by_cases hb : i / 8 = j / 8
  · rw [hb, Function.update_self, BitVec.getLsbD_and, BitVec.getLsbD_not,
      getLsbD_one_shiftLeft (Nat.mod_lt _ (by omega)), Bool.and_comm, decide_eq_true (Nat.mod_lt j (by omega)),
      Bool.true_and]
    congr 2
    exact decide_eq_decide.mpr (by omega)
  · have hne : j ≠ i := by
      rintro rfl
      exact hb rfl
    rw [Function.update_of_ne (byte_ne hb hi hj), decide_eq_false hne, Bool.not_false, Bool.true_and]

/-- The bits are those of the bytes `alloc … alloc + n`. -/
theorem bitIsset_congr {m m' : Mem} {alloc j : Nat} (h : m' (u64Add alloc (j / 8)) =
    m (u64Add alloc (j / 8))) : bitIsset m' alloc j = bitIsset m alloc j := by
  rw [bitIsset, bitIsset, h]

end Colibri.Memory

import Colibri.Lib.Radix
import Colibri.Memory.Kmem

/-!
# Page tables

Model of `walk`, `mappages`, `updatepages`, `unmappages` and `map_higher_half` of
`kernel/arch/x86-64/memory/vm.c`. A table is known by its mapped address, so that of an entry's table
is `pd_addr << 12` plus `PHYSICAL_OFFSET`. A page descriptor is a table with an index; `none` is the
null pointer.

The loops over a range of pages count their rounds. There are fewer pages than `u64Size`, so the
result `none` is a loop that does not end: one over a range with the last page of the address space,
where `current` wraps.

`translate` is what the processor makes of the tables.
-/

namespace Colibri.Memory

open Colibri.Lib

namespace Kmem

/-- A write to a page descriptor. -/
def setEntry (k : Kmem) (t i : Nat) (e : Entry) : Kmem :=
  { k with tables := Lib.setEntry k.tables t i e }

/-- `memset` of a table. -/
def clearTable (k : Kmem) (t : Nat) : Kmem := { k with tables := Function.update k.tables t fun _ => ⟨0⟩ }

/-- The loop of `walk`, from the table `currentPt` of this level on. -/
def walkFrom (va : Nat) (alloc : Bool) : Nat → Kmem → Nat → Kmem × Option (Nat × Nat)
  | 0, k, currentPt => (k, some (currentPt, va2Index va 0))
  | level + 1, k, currentPt =>
    let index := va2Index va (level + 1)
    let entry := k.tables currentPt index
    if entry.present then
      if entry.pageSize then (k, some (currentPt, index))
      else walkFrom va alloc level k entry.table
    else if !alloc then (k, none)
    else
      let (k, newPt) := k.kalloc
      if newPt = 0 then (k, none)
      else
        let k := k.setEntry currentPt index (Entry.ofTable newPt)
        let k := k.clearTable (physToVirt newPt)
        walkFrom va alloc level k (physToVirt newPt)

/-- `walk`. -/
def walk (k : Kmem) (pagetable va : Nat) (alloc : Bool) : Kmem × Option (Nat × Nat) :=
  walkFrom va alloc 3 k pagetable

/-- One round of `unmappages`. -/
def unmapPage (pagetable : Nat) (free : Bool) (k : Kmem) (current : Nat) : Kmem :=
  match k.walk pagetable current false with
  | (k, none) => k
  | (k, some (t, i)) =>
    let k := if free then k.kfree ((k.tables t i).pdAddr * 4096) else k
    k.setEntry t i ((k.tables t i).setBit 0 false)

/-- The loop of `unmappages`. -/
def unmapLoop (pagetable stop : Nat) (free : Bool) : Nat → Kmem → Nat → Option Kmem
  | 0, _, _ => none
  | fuel + 1, k, current =>
    if current < stop then
      unmapLoop pagetable stop free fuel (k.unmapPage pagetable free current)
        (u64Add current pageSize)
    else some k

/-- `unmappages`. -/
def unmappages (k : Kmem) (pagetable va sz : Nat) (free : Bool) : Option Kmem :=
  unmapLoop pagetable (pageEnd (u64Sub (u64Add va sz) 1)) free u64Size k (pageStart va)

/-- The loop of `mappages`: `false` is its result -1. -/
def mapLoop (pagetable va stop : Nat) (x86Flags : BitVec 64) :
    Nat → Kmem → Nat → Nat → Option (Kmem × Bool)
  | 0, _, _, _ => none
  | fuel + 1, k, current, currentPa =>
    if current < stop then
      match k.walk pagetable current true with
      | (k, none) => (k.unmappages pagetable va (u64Sub current va) false).map (·, false)
      | (k, some (t, i)) =>
        if (k.tables t i).present then
          (k.unmappages pagetable va (u64Sub current va) false).map (·, false)
        else
          mapLoop pagetable va stop x86Flags fuel (k.setEntry t i (Entry.ofPage currentPa x86Flags))
            (u64Add current pageSize) (u64Add currentPa pageSize)
    else some (k, true)

/-- `mappages`. -/
def mappages (k : Kmem) (pagetable va sz pa : Nat) (flags : BitVec 8) : Option (Kmem × Bool) :=
  mapLoop pagetable va (pageEnd (u64Sub (u64Add va sz) 1))
    (vmflagToX86flag k.nxFlagEnabled (flags.setWidth 64)) u64Size k (pageStart va) (pageStart pa)

/-- The loop of `updatepages`: `false` is its result 1. -/
def updateLoop (pagetable stop : Nat) (x86Flags : BitVec 64) :
    Nat → Kmem → Nat → Option (Kmem × Bool)
  | 0, _, _ => none
  | fuel + 1, k, current =>
    if current < stop then
      match k.walk pagetable current false with
      | (k, none) => some (k, false)
      | (k, some (t, i)) =>
        updateLoop pagetable stop x86Flags fuel
          (k.setEntry t i ((k.tables t i).setFlags x86Flags)) (u64Add current pageSize)
    else some (k, true)

/-- `updatepages`. -/
def updatepages (k : Kmem) (pagetable va sz : Nat) (flags : BitVec 8) : Option (Kmem × Bool) :=
  updateLoop pagetable (pageEnd (u64Sub (u64Add va sz) 1))
    (vmflagToX86flag k.nxFlagEnabled (flags.setWidth 64)) u64Size k (pageStart va)

/-- The loop of `map_higher_half`, from the entry `i` on. -/
def mapHigherLoop (kernelPml4 pagetable : Nat) : Nat → Kmem → Nat → Kmem
  | 0, k, _ => k
  | n + 1, k, i =>
    mapHigherLoop kernelPml4 pagetable n (k.setEntry pagetable i (k.tables kernelPml4 i)) (i + 1)

/-- `map_higher_half`: the upper 256 entries. -/
def mapHigherHalf (k : Kmem) (kernelPml4 pagetable : Nat) : Kmem :=
  mapHigherLoop kernelPml4 pagetable 256 k 256

end Kmem

/-! ## Translation -/

/-- The indexes of an address, from the root's on. -/
def vaPath (va : Nat) : List Nat := [va2Index va 3, va2Index va 2, va2Index va 1, va2Index va 0]

/-- The leaf for an address, with its level. -/
def leafAt (tables : Nat → Nat → Entry) (pagetable : Nat) (path : List Nat) : Option (Nat × Entry) :=
  (seek Entry.child tables pagetable path).filter fun l => l.2.present

/-- A translation: the physical address, and the leaf's permissions. -/
structure Translation where
  pa : Nat
  writable : Bool
  user : Bool
  xd : Bool
  deriving DecidableEq

/-- What a leaf says of an address. -/
def Entry.translation (va : Nat) : Nat × Entry → Translation
  | (level, e) => ⟨e.frame level + va % 2 ^ (12 + 9 * level), e.writable, e.userPage, e.xd⟩

/-- **The lookup of an address in the four levels of tables.** -/
def translate (tables : Nat → Nat → Entry) (pagetable va : Nat) : Option Translation :=
  (leafAt tables pagetable (vaPath va)).map (Entry.translation va)

/-- The addresses that the processor accepts. -/
def Canonical (va : Nat) : Prop := va < 2 ^ 47 ∨ (u64Size - 2 ^ 47 ≤ va ∧ va < u64Size)

instance (va : Nat) : Decidable (Canonical va) := inferInstanceAs (Decidable (_ ∨ _))

end Colibri.Memory

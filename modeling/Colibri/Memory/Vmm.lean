import Colibri.Memory.Vm

/-!
# Address spaces

Model of `vmm_init`, `get_memory_area`, `vmm_alloc_at`, `vmm_free_area`, `update_area_access`,
`on_demand_allocation`, `map_mmio`, `vmm_create` and `vmm_destroy` of `kernel/memory/vmm.c`. A `Vmm`
is the record `vmm_info_t` without its lock; the areas and containers it refers to are in `Kmem`, by
address, with 0 for `NULL`. The heap blocks of the record and of its lock are not part of `Kmem`.

An area record is 40 bytes, so that a container has 102 of them and its `next` behind them. Loops
along `next` pointers count their rounds: a list without a cycle has fewer than `u64Size` members, so
the result `none` is a loop that does not end.
-/

namespace Colibri.Memory

open Colibri.Lib

/-- `struct vmm_info`. -/
structure Vmm where
  rootPagetable : Nat
  userVmm : Bool
  vmmStart : Nat
  vmmDataStart : Nat
  vmmDataEnd : Nat
  currentIndex : Nat
  rootContainer : Nat
  currentContainer : Nat
  currentAddr : Nat
  firstArea : Nat
  currentArea : Nat
  deriving DecidableEq

/-- `sizeof(memory_area_t)`. -/
def areaSize : Nat := 40

/-- `ITEM_PER_CONTAINER`. -/
def itemPerContainer : Nat := 102

theorem itemPerContainer_eq : itemPerContainer = pageSize / areaSize := by decide

/-- `vmm_init`. -/
def vmmInit (pagetable start stop : Nat) (user : Bool) : Vmm :=
  let vmmStart := pageStart start
  let vmmStart := if vmmStart = 0 then pageSize else vmmStart
  { rootPagetable := pagetable
    userVmm := user
    vmmStart
    vmmDataStart := vmmStart
    vmmDataEnd := u64Add (pageEnd stop) 1
    currentIndex := 0
    rootContainer := 0
    currentContainer := 0
    currentAddr := 0
    firstArea := 0
    currentArea := 0 }

namespace Kmem

/-- A write to an area record. -/
def setArea (k : Kmem) (a : Nat) (f : MemoryArea → MemoryArea) : Kmem :=
  { k with areas := Function.update k.areas a (f (k.areas a)) }

@[simp] theorem setArea_tables (k : Kmem) (a : Nat) (f : MemoryArea → MemoryArea) :
    (k.setArea a f).tables = k.tables := rfl

@[simp] theorem setArea_nxFlagEnabled (k : Kmem) (a : Nat) (f : MemoryArea → MemoryArea) :
    (k.setArea a f).nxFlagEnabled = k.nxFlagEnabled := rfl

@[simp] theorem setArea_free (k : Kmem) (a : Nat) (f : MemoryArea → MemoryArea) :
    (k.setArea a f).free = k.free := rfl

/-- The loop of `get_memory_area`. -/
def findArea (k : Kmem) (va : Nat) : Nat → Nat → Option Nat
  | 0, _ => none
  | fuel + 1, cur =>
    if cur = 0 then some 0
    else if (k.areas cur).start ≤ va ∧ va < u64Add (k.areas cur).start (k.areas cur).size then
      some cur
    else findArea k va fuel (k.areas cur).next

/-- `get_memory_area`; 0 is `NULL`. -/
def getMemoryArea (k : Kmem) (vmm : Vmm) (va : Nat) : Option Nat :=
  if vmm.currentAddr < va then some 0 else k.findArea va u64Size vmm.firstArea

/-- The last byte of an area, `start + size - 1`. -/
def areaLast (k : Kmem) (a : Nat) : Nat := u64Sub (u64Add (k.areas a).start (k.areas a).size) 1

/-- The search for a gap in `vmm_alloc_at`: `prev`, `cur` and `found` after it. -/
def gapLoop (k : Kmem) (vmm : Vmm) (base length found : Nat) :
    Nat → Nat → Nat → Option (Nat × Nat × Nat)
  | 0, _, _ => none
  | fuel + 1, prev, cur =>
    if cur = 0 then some (prev, cur, found)
    else if k.areaLast cur < base then gapLoop k vmm base length found fuel cur (k.areas cur).next
    else
      let lowBound := if prev = 0 then vmm.vmmDataStart else u64Add (pageEnd (k.areaLast prev)) 1
      let highBound := (k.areas cur).start
      if u64Add lowBound length < highBound then some (prev, cur, lowBound)
      else gapLoop k vmm base length found fuel cur (k.areas cur).next

/-- A new container in `vmm_alloc_at`, if the current one is full or there is none. -/
def growContainers (k : Kmem) (vmm : Vmm) : Kmem × Vmm :=
  if vmm.currentIndex = itemPerContainer ∨ vmm.rootContainer = 0 then
    let (k, phyAddr) := k.kalloc
    let newContainer := physToVirt phyAddr
    if vmm.currentContainer ≠ 0 then
      ({ k with containerNext := Function.update k.containerNext vmm.currentContainer newContainer },
        { vmm with currentContainer := newContainer, currentIndex := 0 })
    else
      (k, { vmm with rootContainer := newContainer, currentContainer := newContainer
                     currentIndex := 0 })
  else (k, vmm)

/-- The rest of `vmm_alloc_at`: the next record of the current container, put between `prev` and
`cur`. -/
def addArea (k : Kmem) (vmm : Vmm) (prev cur found length : Nat) (flags : BitVec 8) :
    Kmem × Vmm × Nat :=
  let new := vmm.currentContainer + areaSize * vmm.currentIndex
  let vmm := { vmm with currentIndex := vmm.currentIndex + 1 }
  let k := k.setArea new fun a =>
    { a with start := found, size := u64Add length 1
             flags := if vmm.userVmm then flags ||| memoryFlagUser else flags }
  let k := k.setArea new fun a => { a with next := cur }
  let k := if cur ≠ 0 then k.setArea cur fun a => { a with prev := new } else k
  let k := k.setArea new fun a => { a with prev := prev }
  let k := if prev ≠ 0 then k.setArea prev fun a => { a with next := new } else k
  let vmm := if prev ≠ 0 then vmm else { vmm with firstArea := new }
  let vmm := if prev = vmm.currentArea then
    { vmm with currentArea := new, currentAddr := k.areaLast new } else vmm
  (k, vmm, new)

/-- `length` of `vmm_alloc_at`. -/
def areaLength (sz : Nat) : Nat := pageEnd (u64Sub sz 1)

/-- `low_bound` of `vmm_alloc_at`. -/
def lowBound (vmm : Vmm) : Nat :=
  if vmm.currentArea = 0 then vmm.vmmDataStart else u64Add (pageEnd vmm.currentAddr) 1

/-- Where `vmm_alloc_at` would put an area behind the current one. -/
def place (vmm : Vmm) (base : Nat) : Nat :=
  if lowBound vmm < pageStart base then pageStart base else lowBound vmm

/-- `vmm_alloc_at`; the area 0 is `NULL`. -/
def vmmAllocAt (k : Kmem) (base : Nat) (vmm : Vmm) (sz : Nat) (flags : BitVec 8) :
    Option (Kmem × Vmm × Nat) :=
  let length := areaLength sz
  let found := place vmm base
  if u64Add found length > vmm.vmmDataEnd then
    match k.gapLoop vmm (pageStart base) length found u64Size 0 vmm.firstArea with
    | none => none
    | some _ =>
      -- whatever the search found, `found` is 0 after it
      some (k, vmm, 0)
  else if found = 0 then some (k, vmm, 0)
  else
    let (k, vmm) := k.growContainers vmm
    some (k.addArea vmm vmm.currentArea 0 found length flags)

/-- `vmm_alloc`. -/
def vmmAlloc (k : Kmem) (vmm : Vmm) (sz : Nat) (flags : BitVec 8) : Option (Kmem × Vmm × Nat) :=
  k.vmmAllocAt 0 vmm sz flags

/-- The search of `vmm_free_area` for the area's container. -/
def findContainer (k : Kmem) (area : Nat) : Nat → Nat → Option Nat
  | 0, _ => none
  | fuel + 1, cur =>
    if cur = 0 then some 0
    else if cur ≤ area ∧ area ≤ cur + areaSize * (itemPerContainer - 1) then some cur
    else findContainer k area fuel (k.containerNext cur)

/-- Taking an area out of the list in `vmm_free_area`. -/
def unlinkArea (k : Kmem) (vmm : Vmm) (area : Nat) : Kmem × Vmm :=
  let prev := (k.areas area).prev
  let next := (k.areas area).next
  let k := if prev ≠ 0 then k.setArea prev fun a => { a with next } else k
  let vmm := if prev ≠ 0 then vmm else { vmm with firstArea := next }
  let k := if next ≠ 0 then k.setArea next fun a => { a with prev } else k
  let vmm := if next ≠ 0 then vmm else { vmm with currentArea := prev }
  (k, vmm)

/-- `vmm_free_area`; `false` is its result -1. -/
def vmmFreeArea (k : Kmem) (vmm : Vmm) (area : Nat) : Option (Kmem × Vmm × Bool) :=
  if area = 0 then some (k, vmm, false)
  else
    match k.findContainer area u64Size vmm.rootContainer with
    | none => none
    | some 0 => some (k, vmm, false)
    | some _ =>
      let (k, vmm) := k.unlinkArea vmm area
      (k.unmappages vmm.rootPagetable (k.areas area).start (k.areas area).size
        (decide ((k.areas area).isMmio = 0))).map fun k => (k, vmm, true)

/-- `update_area_access`; `false` is a result other than 0. -/
def updateAreaAccess (k : Kmem) (vmm : Vmm) (area : Nat) (flags : BitVec 8) :
    Option (Kmem × Bool) :=
  let k := k.setArea area fun a =>
    { a with flags := if vmm.userVmm then flags ||| memoryFlagUser else flags }
  k.updatepages vmm.rootPagetable (k.areas area).start (k.areas area).size (k.areas area).flags

/-- `on_demand_allocation` when `vmm` is the vmm that is relevant for `va`; `false` is its result
-1. -/
def onDemandAllocation (k : Kmem) (vmm : Vmm) (va : Nat) : Option (Kmem × Bool) :=
  match k.getMemoryArea vmm va with
  | none => none
  | some 0 => some (k, false)
  | some area =>
    let (k, page) := k.kalloc
    k.mappages vmm.rootPagetable (pageStart va) pageSize page (k.areas area).flags

/-- The rest of `map_mmio`, once it has an area. -/
def mapDevice (k : Kmem) (vmm : Vmm) (area physical : Nat) : Option (Kmem × Vmm × Nat) :=
  let k := k.setArea area fun a => { a with isMmio := 1 }
  (k.mappages vmm.rootPagetable (k.areas area).start (k.areas area).size physical
    (k.areas area).flags).map fun (k, ok) => (k, vmm, if ok then (k.areas area).start else 0)

/-- `map_mmio`; the address 0 is `NULL`. -/
def mapMmio (k : Kmem) (vmm : Vmm) (physical size : Nat) (writable : Bool) :
    Option (Kmem × Vmm × Nat) :=
  let flag := (if writable then memoryFlagWrite else 0) |||
    if vmm.userVmm then memoryFlagUser else 0
  (k.vmmAlloc vmm size flag).bind fun (k, vmm, area) =>
    if area = 0 then some (k, vmm, 0) else k.mapDevice vmm area physical

/-- `unmap_mmio` when `vmm` is the vmm that is relevant for `va`. -/
def unmapMmio (k : Kmem) (vmm : Vmm) (va : Nat) : Option (Kmem × Vmm) :=
  match k.getMemoryArea vmm va with
  | none => none
  | some 0 => some (k, vmm)
  | some area =>
    if (k.areas area).isMmio = 0 then some (k, vmm)
    else (k.vmmFreeArea vmm area).map fun (k, vmm, _) => (k, vmm)

/-- `vmm_create`; `vmmBlock` and `lockBlock` say whether `alloc` finds a block for the record and for
its lock. -/
def vmmCreate (k : Kmem) (vmmBlock lockBlock : Bool) (start stop : Nat) (user : Bool) :
    Kmem × Option Vmm :=
  if !vmmBlock then (k, none)
  else
    let (k, pagetable) := k.kalloc
    if pagetable = 0 then (k, none)
    else if !lockBlock then (k.kfree (virtToPhys (physToVirt pagetable)), none)
    else (k, some (vmmInit (physToVirt pagetable) start stop user))

/-- The first loop of `vmm_destroy`. -/
def destroyAreas (pagetable : Nat) : Nat → Kmem → Nat → Option Kmem
  | 0, _, _ => none
  | fuel + 1, k, curArea =>
    if curArea = 0 then some k
    else
      (k.unmappages pagetable (k.areas curArea).start (k.areas curArea).size true).bind fun k =>
        destroyAreas pagetable fuel k (k.areas curArea).next

/-- The second loop of `vmm_destroy`. -/
def destroyContainers : Nat → Kmem → Nat → Option Kmem
  | 0, _, _ => none
  | fuel + 1, k, curContainer =>
    if curContainer = 0 then some k
    else
      let next := k.containerNext curContainer
      destroyContainers fuel (k.kfree (virtToPhys curContainer)) next

/-- `vmm_destroy`, up to the `free` of the lock and of the vmm on the heap. -/
def vmmDestroy (k : Kmem) (vmm : Vmm) : Option Kmem := do
  let k ← destroyAreas vmm.rootPagetable u64Size k vmm.firstArea
  let k ← destroyContainers u64Size k vmm.rootContainer
  return k.kfree (virtToPhys vmm.rootPagetable)

end Kmem

end Colibri.Memory

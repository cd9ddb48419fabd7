import Colibri.Memory.Heap
import Colibri.Memory.Lst
import Colibri.Memory.Vmm.Isolation

/-!
# Processes (`kernel/process.c`)

`create_process`, `add_thread` and `run_proc` over the bytes of the kernel heap. The records they
allocate are written there field by field, so a field that nobody writes keeps what the block held.

The address space of the new process is a `Proc`: the segments are copied into it by stores that
fault its pages in. Its `vmm_info_t` is kept twice, as a record and as the bytes of its block.

An access through `NULL`, and a page fault of the kernel that is not served, stop the kernel: the
functions return `none` there.
-/

namespace Colibri

open Colibri.Lib Colibri.Memory

/-! ## The image -/

/-- `Elf64_Phdr`, without the fields the kernel does not read. -/
structure Phdr where
  type : Nat
  flags : BitVec 32
  offset : Nat
  vaddr : Nat
  filesz : Nat
  memsz : Nat

/-- An image: its entry point, its program headers and its bytes. -/
structure Elf where
  entry : Nat
  segments : List Phdr
  file : Nat → BitVec 8

/-- `PT_LOAD`. -/
def ptLoad : Nat := 1

/-- `PF_X`. -/
def pfX : BitVec 32 := 1

/-- `PF_W`. -/
def pfW : BitVec 32 := 2

/-- The flags of the area of a segment. -/
def Phdr.memFlag (seg : Phdr) : BitVec 8 :=
  (if seg.flags &&& pfW ≠ 0 then memoryFlagWrite else 0) |||
    if seg.flags &&& pfX ≠ 0 then memoryFlagExec else 0

/-- `memcpy` of `n` bytes of the file from `off` on to `dst`. The processor does not take addresses
that are not canonical. -/
def copyIn (file : Nat → BitVec 8) (dst off : Nat) : Nat → Proc → Option Proc
  | 0, s => some s
  | n + 1, s => (copyIn file dst off n s).bind fun s =>
    if Canonical (u64Add dst n) then s.step (.store (u64Add dst n) (file (u64Add off n))) else none

/-- The loading of a segment; `false` says that it could not be placed at its address. -/
def loadSegment (file : Nat → BitVec 8) (s : Proc) (seg : Phdr) : Option (Proc × Bool) :=
  (s.k.vmmAllocAt seg.vaddr s.v seg.memsz (seg.memFlag ||| memoryFlagWrite)).bind
    fun (k, v, area) =>
      if area = 0 ∨ (k.areas area).start ≠ seg.vaddr then some ({ s with k, v }, false)
      else (copyIn file (k.areas area).start seg.offset seg.filesz { s with k, v }).bind fun s =>
        (s.k.updateAreaAccess s.v area seg.memFlag).map fun (k, _) => ({ s with k }, true)

/-- The loop of `create_process` over the segments. -/
def loadSegments (file : Nat → BitVec 8) : Proc → List Phdr → Option (Proc × Bool)
  | s, [] => some (s, true)
  | s, seg :: segs =>
    if seg.type = ptLoad then
      (loadSegment file s seg).bind fun (s, ok) => if ok then loadSegments file s segs else some (s, ok)
    else loadSegments file s segs

/-! ## Records -/

/-- A field of a record, with the value to write: its offset, its width and the value. -/
structure Field where
  offset : Nat
  width : Nat
  value : Nat

/-- The fields of the record at `a` are written. -/
def writeFields (m : Mem) (a : Nat) : List Field → Mem
  | [] => m
  | f :: fs => writeFields (m.store (a + f.offset) f.width f.value) a fs

/-- `strncpy` to the `n` bytes at an offset: the name up to its end, then zeros. -/
def nameFields (offset n : Nat) (name : List (BitVec 8)) : List Field :=
  (List.range n).map fun i => ⟨offset + i, 1, ((name.takeWhile (· ≠ 0)).getD i 0).toNat⟩

/-- `sizeof(proc_t)`. -/
def procSize : Nat := 128

/-- `sizeof(vmm_info_t)`. -/
def vmmInfoSize : Nat := 96

/-- `sizeof(spinlock_t)`. -/
def spinlockSize : Nat := 16

/-- The thread pointers of `init_thread_array`: a capacity of eight. -/
def threadArraySize : Nat := 64

/-- `sizeof(thread_t)`. -/
def threadSize : Nat := 560

/-- Where `threads` is in `proc_t`. -/
def threadsOffset : Nat := 88

/-- Where `prio` is in `thread_t`. -/
def prioOffset : Nat := 88

/-- `sizeof(rb_node_t)`. -/
def rbNodeSize : Nat := 40

/-- `proc->id` and `proc->name`. -/
def procFields (pid : Nat) (name : List (BitVec 8)) : List Field :=
  ⟨16, 8, pid⟩ :: nameFields 24 64 name

/-- The fields of `vmm_info_t`. -/
def vmmFields (v : Vmm) (lock : Nat) : List Field :=
  [⟨0, 8, v.rootPagetable⟩, ⟨8, 1, v.userVmm.toNat⟩, ⟨16, 8, v.vmmStart⟩, ⟨24, 8, v.vmmDataStart⟩,
    ⟨32, 8, v.vmmDataEnd⟩, ⟨40, 8, v.currentIndex⟩, ⟨48, 8, v.rootContainer⟩,
    ⟨56, 8, v.currentContainer⟩, ⟨64, 8, v.currentAddr⟩, ⟨72, 8, v.firstArea⟩,
    ⟨80, 8, v.currentArea⟩, ⟨88, 8, lock⟩]

/-- What `add_thread` writes before it has a stack: `tid`, `state`, `context` and `name`. -/
def threadFields (tid : Nat) (name : List (BitVec 8)) : List Field :=
  -- state = WAITING, and the flags and selectors of the context after its memset
  [⟨16, 8, tid⟩, ⟨92, 4, 2⟩, ⟨104, 448, 0⟩, ⟨528, 8, 0x202⟩, ⟨520, 8, 0x18 ||| 3⟩,
    ⟨544, 8, 0x20 ||| 3⟩] ++ nameFields 24 64 name

/-- What `add_thread` writes once it has a stack: `stack`, `iret_rsp`, `iret_rip` and `proc`. -/
def stackFields (stack stackEnd entry proc : Nat) : List Field :=
  [⟨552, 8, stack⟩, ⟨536, 8, stackEnd⟩, ⟨512, 8, entry⟩, ⟨96, 8, proc⟩]

/-- The kernel: its heap, the physical memory behind the pages of processes, the address of
`process_list`, the kernel's page table, and the next free numbers. -/
structure Kernel where
  heap : Heap
  data : Nat → BitVec 8
  processList : Nat
  kernelPml4 : Nat
  nextFreePid : Nat
  nextFreeTid : Nat

/-- The vmm of a new process: the block of its record, that of its lock, and the record. -/
structure VmmBlock where
  addr : Nat
  lock : Nat
  v : Vmm

namespace Kernel

/-- The record at `a` is written. -/
def write (s : Kernel) (a : Nat) (fs : List Field) : Kernel :=
  { s with heap := { s.heap with mem := writeFields s.heap.mem a fs } }

/-- `alloc`. -/
def alloc (s : Kernel) (sz : Nat) : Option (Kernel × Nat) :=
  (s.heap.alloc sz).map fun (heap, ptr) => ({ s with heap }, ptr)

/-- `free`. -/
def free (s : Kernel) (ptr : Nat) : Option Kernel := (s.heap.free ptr).map fun heap => { s with heap }

/-- The pages of the kernel are replaced. -/
def setKmem (s : Kernel) (kmem : Kmem) : Kernel := { s with heap := { s.heap with kmem } }

/-- `vmm_create` of a process, and `map_higher_half`. -/
def vmmCreate (s : Kernel) (user : Bool) : Option (Kernel × Option VmmBlock) :=
  (s.alloc vmmInfoSize).bind fun (s, vmm) =>
    if vmm = 0 then some (s, none)
    else
      let (kmem, pagetable) := s.heap.kmem.kalloc
      let s := s.setKmem kmem
      if pagetable = 0 then (s.free vmm).map fun s => (s, none)
      else (s.alloc spinlockSize).bind fun (s, lock) =>
        if lock = 0 then
          ((s.setKmem (s.heap.kmem.kfree (virtToPhys (physToVirt pagetable)))).free vmm).map
            fun s => (s, none)
        else
          let v := vmmInit (physToVirt pagetable) lowhalfStart lowhalfEnd user
          let s := (s.write lock [⟨0, spinlockSize, 0⟩]).write vmm (vmmFields v lock)
          some (s.setKmem (s.heap.kmem.mapHigherHalf s.kernelPml4 v.rootPagetable),
            some ⟨vmm, lock, v⟩)

/-- `vmm_destroy`. -/
def vmmDestroy (s : Kernel) (b : VmmBlock) : Option Kernel := do
  let kmem ← s.heap.kmem.vmmDestroy b.v
  let s ← (s.setKmem kmem).free b.lock
  s.free b.addr

/-- `init_thread_array`. -/
def initThreadArray (s : Kernel) (array : Nat) : Option Kernel :=
  let s := s.write array [⟨16, 8, 8⟩, ⟨8, 8, 0⟩]
  (s.alloc threadArraySize).map fun (s, data) => s.write array [⟨0, 8, data⟩]

/-- `add`. -/
def add (s : Kernel) (array t : Nat) : Option Kernel :=
  let put (s : Kernel) : Option Kernel :=
    let data := s.heap.mem.load array 8
    let len := s.heap.mem.load (array + 8) 8
    if data = 0 then none
    else some ((s.write (u64Add data (8 * len)) [⟨0, 8, t⟩]).write array [⟨8, 8, u64Incr len⟩])
  if s.heap.mem.load (array + 8) 8 ≥ s.heap.mem.load (array + 16) 8 then
    let capacity := u64Mul (s.heap.mem.load (array + 16) 8) 2
    let s := s.write array [⟨16, 8, capacity⟩]
    (s.heap.realloc (s.heap.mem.load array 8) (u64Mul capacity 8)).bind fun (heap, data) =>
      let s := { s with heap }.write array [⟨0, 8, data⟩]
      if data = 0 then some s else put s
  else put s

/-- `add_thread`; the address 0 is `NULL`. -/
def addThread (s : Kernel) (proc : Nat) (b : VmmBlock) (name : List (BitVec 8)) (entry : Nat) :
    Option (Kernel × VmmBlock × Nat) :=
  (s.alloc threadSize).bind fun (s, t) =>
    if t = 0 then some (s, b, 0)
    else
      let s := { s with nextFreeTid := u64Incr s.nextFreeTid }.write t
        (threadFields s.nextFreeTid name)
      (s.heap.kmem.vmmAlloc b.v pageSize memoryFlagWrite).bind fun (kmem, v, stack) =>
        let s := (s.setKmem kmem).write b.addr (vmmFields v b.lock)
        if stack = 0 then (s.free t).map fun s => (s, { b with v }, 0)
        else
          let stackEnd := u64Add (kmem.areas stack).start (kmem.areas stack).size
          ((s.write t (stackFields stack stackEnd entry proc)).add (proc + threadsOffset) t).map
            fun s => (s, { b with v }, t)

/-- The exit `free_vmm` of `create_process`. -/
def freeVmm (s : Kernel) (proc : Nat) (b : VmmBlock) : Option (Kernel × Nat) := do
  let s ← s.vmmDestroy b
  let s ← s.free proc
  return (s, 0)

/-- The part of `create_process` behind the creation of the vmm. -/
def loadProcess (s : Kernel) (proc : Nat) (b : VmmBlock) (elf : Elf) : Option (Kernel × Nat) :=
  let s := s.write proc [⟨112, 8, b.addr⟩]
  (loadSegments elf.file ⟨s.heap.kmem, b.v, s.data, [], s.data⟩ elf.segments).bind fun (p, ok) =>
    let b := { b with v := p.v }
    let s := ({ s with data := p.data }.setKmem p.k).write b.addr (vmmFields p.v b.lock)
    if !ok then s.freeVmm proc b
    else
      (s.initThreadArray (proc + threadsOffset)).bind fun s =>
        (s.addThread proc b [] elf.entry).bind fun (s, b, t) =>
          if t = 0 then s.freeVmm proc b
          else some ({ s with heap := { s.heap with
            mem := lstPushEnd s.heap.mem s.processList proc } }, proc)

/-- `create_process`; the address 0 is `NULL`. -/
def createProcess (s : Kernel) (name : List (BitVec 8)) (elf : Elf) (userProc : Bool) :
    Option (Kernel × Nat) :=
  (s.alloc procSize).bind fun (s, proc) =>
    if proc = 0 then some (s, 0)
    else
      let s := { s with nextFreePid := u64Incr s.nextFreePid }.write proc
        (procFields s.nextFreePid name)
      (s.vmmCreate userProc).bind fun (s, b) =>
        match b with
        | none => (s.free proc).map fun s => (s, 0)
        | some b => s.loadProcess proc b elf

/-- `update`, on the bytes of the thread. -/
def update (m : Mem) (se now : Nat) : Mem :=
  let delta := u64Sub now (m.load (se + 8) 8)
  m.store se 8 (u64Add (m.load se 8) (u64Mul delta (1 + m.load (se + prioOffset) 1)))

/-- The loop of `run_proc`. Of `rb_insert` it has the node that is allocated for the thread; where
the node goes in the tree is a matter of the keys. -/
def runLoop (p now : Nat) : Nat → Nat → Kernel → Option Kernel
  | 0, _, _ => none
  | fuel + 1, i, s =>
    if i < s.heap.mem.load (p + threadsOffset + 8) 8 then
      let se := s.heap.mem.load (u64Add (s.heap.mem.load (p + threadsOffset) 8) (8 * i)) 8
      let mem := update (s.heap.mem.store (se + 8) 8 0) se now
      ({ s with heap := { s.heap with mem } }.alloc rbNodeSize).bind fun (s, run) =>
        if run = 0 then none
        else runLoop p now fuel (i + 1)
          (s.write run [⟨24, 4, 0⟩, ⟨8, 8, 0⟩, ⟨0, 8, 0⟩, ⟨32, 8, se⟩])
    else some s

/-- `run_proc` at the uptime `now`. -/
def runProc (s : Kernel) (p now : Nat) : Option Kernel := runLoop p now u64Size 0 s

/-- What the scheduler reads of the threads of a process: `prio` and `vruntime`. -/
def schedFields (s : Kernel) (p : Nat) : List (Nat × Nat) :=
  (List.range (s.heap.mem.load (p + threadsOffset + 8) 8)).map fun i =>
    let t := s.heap.mem.load (u64Add (s.heap.mem.load (p + threadsOffset) 8) (8 * i)) 8
    (s.heap.mem.load (t + prioOffset) 1, s.heap.mem.load t 8)

end Kernel

end Colibri

import Colibri.Lib.U64
import Colibri.Scheduler.RbTree.Run

/-!
# The fair scheduler's run queue

Model of `kernel/scheduler/cfs.c`, with the parts of `thread_t`, `proc_t` and `vmm_info_t` that the
scheduler reads and writes. A `sched_entity_t` is the first field of its `thread_t`, so an entity is
named by the address of its thread.

* `u64` values are `Nat`s below `2 ^ 64`, with the wrapping operations of `Colibri.Lib.U64`.
* `threads`, `procs` and `vmms` are the heap's live `thread_t`, `proc_t` and `vmm_info_t` blocks.
  Reading through a pointer to no live block makes the operation `none`.
* `uptime()` is a value `now` given to each operation that reads it.
* What `get_timeslice` computes only goes to the timer and is left out; that it reads the thread is
  not.
-/

namespace Colibri.Scheduler

open Colibri.Lib

/-- `registers_t`: the stack pointer, and the other saved registers as one block. -/
structure Registers where
  rsp : Nat
  saved : Nat
  deriving DecidableEq, Repr

/-- `int_frame_t`. The vector number and the error code are part of the block `saved`. -/
structure IntFrame where
  registers : Registers
  iretRip : Nat
  iretCs : Nat
  iretFlags : Nat
  iretRsp : Nat
  iretSs : Nat
  deriving DecidableEq, Repr

/-- `enum thread_state`. -/
inductive ThreadState where
  | active
  | sleeping
  | waiting
  | dead
  deriving DecidableEq, Repr

/-- `thread_t`, whose first two fields are the `sched_entity_t`. -/
structure Thread where
  vruntime : Nat
  execStartTime : Nat
  prio : Nat
  state : ThreadState
  proc : Addr
  context : IntFrame
  stack : Addr
  deriving DecidableEq, Repr

/-- `se->vruntime = v`. -/
def Thread.setVruntime (th : Thread) (v : Nat) : Thread := { th with vruntime := v }

theorem Thread.setVruntime_proc (th : Thread) (v : Nat) : (th.setVruntime v).proc = th.proc := rfl

theorem Thread.setVruntime_context (th : Thread) (v : Nat) :
    (th.setVruntime v).context = th.context := rfl

/-- `proc_t`: the first `len` entries of its thread array, and its vmm. -/
structure Proc where
  threads : List Addr
  vmm : Addr
  deriving DecidableEq, Repr

/-- `cpu->thread` when it is not `NULL`. -/
inductive ThreadRef where
  | idle
  | thread (t : Addr)
  deriving DecidableEq, Repr

/-- A pointer to a vmm when it is not `NULL`. -/
inductive VmmRef where
  | kernel
  | user (v : Addr)
  deriving DecidableEq, Repr

/-- `cpu_status_t`, with the registers of the processor that scheduling touches. `frame` is the
frame the last interrupt returned with, hence what the processor runs on. -/
structure Cpu where
  thread : Option ThreadRef
  vmm : Option VmmRef
  cr3 : Nat
  rsp0 : Nat
  frame : IntFrame

/-- `cfs_t`. -/
structure Cfs where
  tree : SchedTree Addr
  running : Nat

/-- What the scheduler works on. A live vmm is given by the physical address of its root table;
`idleRip` is `idle_t.context.iret_rip`, and `clock` the last value `uptime` returned. -/
structure System where
  threads : Addr → Option Thread
  procs : Addr → Option Proc
  vmms : Addr → Option Nat
  kernelRoot : Nat
  idleRip : Nat
  cfs : Cfs
  cpu : Cpu
  clock : Nat

namespace System

/-- `entity_key`. -/
def entityKey (s : System) (t : Addr) : Nat := ((s.threads t).map (·.vruntime)).getD 0

/-- A write to the thread `t`. -/
def modifyThread (s : System) (t : Addr) (f : Thread → Thread) : Option System :=
  (s.threads t).map fun th => { s with threads := Function.update s.threads t (some (f th)) }

/-- `weight_delta`. -/
def weightDelta (th : Thread) (delta : Nat) : Nat := u64Mul delta (1 + th.prio)

/-- `update`, on the thread's own fields. -/
def updateEntity (now : Nat) (th : Thread) : Thread :=
  let delta := u64Sub now th.execStartTime
  th.setVruntime (u64Add th.vruntime (weightDelta th delta))

/-- `cfs_queue`; `run` is the node `rb_insert` allocates. -/
def cfsQueue (s : System) (t : Addr) (now : Nat) (run : Addr) : Option System := do
  let s ← s.modifyThread t (updateEntity now)
  let running := u64Incr s.cfs.running
  let tree ← s.cfs.tree.rbInsert s.entityKey t run
  return { s with cfs := ⟨tree, running⟩ }

/-- `cfs_dequeue`. -/
def cfsDequeue (s : System) (t : Addr) : Option System := do
  let running := u64Decr s.cfs.running
  let tree ← s.cfs.tree.rbRemove s.entityKey t
  return { s with cfs := ⟨tree, running⟩ }

/-- `cfs_pick_next`. `some none` is its `NULL`. -/
def cfsPickNext (s : System) : Option Ptr :=
  match s.cfs.tree.leftmost with
  | none => some none
  | some a => (s.cfs.tree.nodes a).map fun n => some n.se

end System

/-! ## What the operations do -/

/-- What a write to a thread does. -/
theorem modifyThread_eq {s s' : System} {t : Addr} {f : Thread → Thread}
    (h : s.modifyThread t f = some s') : ∃ th, s.threads t = some th ∧
      s' = { s with threads := Function.update s.threads t (some (f th)) } := by
  rw [System.modifyThread, Option.map_eq_some_iff] at h
  obtain ⟨th, hth, rfl⟩ := h
  exact ⟨th, hth, rfl⟩

theorem entityKey_update {s : System} {t u : Addr} (x : Option Thread) (h : u ≠ t) :
    ({ s with threads := Function.update s.threads t x } : System).entityKey u = s.entityKey u := by
  simp [System.entityKey, Function.update_of_ne h]

/-- What `cfs_queue` does. -/
theorem cfsQueue_eq {s s' : System} {t : Addr} {now : Nat} {run : Addr}
    (h : s.cfsQueue t now run = some s') : ∃ s₁ tree running,
      s.modifyThread t (System.updateEntity now) = some s₁ ∧ running = u64Incr s₁.cfs.running ∧
      s₁.cfs.tree.rbInsert s₁.entityKey t run = some tree ∧
      s' = { s₁ with cfs := ⟨tree, running⟩ } := by
  simp only [System.cfsQueue, Option.bind_eq_bind, Option.bind_eq_some_iff] at h
  obtain ⟨s₁, hs₁, tree, htree, hs'⟩ := h
  exact ⟨s₁, tree, _, hs₁, rfl, htree, (Option.some.inj hs').symm⟩

/-- What `cfs_dequeue` does. -/
theorem cfsDequeue_eq {s s' : System} {t : Addr} (h : s.cfsDequeue t = some s') :
    ∃ tree running, running = u64Decr s.cfs.running ∧
      s.cfs.tree.rbRemove s.entityKey t = some tree ∧ s' = { s with cfs := ⟨tree, running⟩ } := by
  simp only [System.cfsDequeue, Option.bind_eq_bind, Option.bind_eq_some_iff] at h
  obtain ⟨tree, htree, hs'⟩ := h
  exact ⟨tree, _, rfl, htree, (Option.some.inj hs').symm⟩

theorem updateEntity_proc (now : Nat) (th : Thread) :
    (System.updateEntity now th).proc = th.proc := Thread.setVruntime_proc th _

theorem updateEntity_context (now : Nat) (th : Thread) :
    (System.updateEntity now th).context = th.context := Thread.setVruntime_context th _

theorem cfsQueue_some {s s₁ : System} {t : Addr} {now : Nat} {run : Addr} {tree : SchedTree Addr}
    (h₁ : s.modifyThread t (System.updateEntity now) = some s₁)
    (htree : s₁.cfs.tree.rbInsert s₁.entityKey t run = some tree) :
    ∃ running, s.cfsQueue t now run = some { s₁ with cfs := ⟨tree, running⟩ } :=
  ⟨u64Incr s₁.cfs.running, by simp [System.cfsQueue, h₁, htree]⟩

theorem cfsDequeue_some {s : System} {t : Addr} {tree : SchedTree Addr}
    (htree : s.cfs.tree.rbRemove s.entityKey t = some tree) :
    ∃ running, s.cfsDequeue t = some { s with cfs := ⟨tree, running⟩ } :=
  ⟨u64Decr s.cfs.running, by simp [System.cfsDequeue, htree]⟩

/-- **`cfs_pick_next`** returns the first entity of the queue. -/
theorem cfsPickNext_eq {s : System} {T : NTree Addr} (h : Shaped s.cfs.tree T) :
    s.cfsPickNext = some (entities T).head? := by
  rw [System.cfsPickNext, h.leftmost, firstAddr, entities, List.head?_map]
  cases hT : T.toList with
  | nil => rfl
  | cons x l =>
    obtain ⟨n, hn, he⟩ := rep_mem h.holds.rep (x := x) (by rw [hT]; exact List.mem_cons_self)
    simp [hn, he]

end Colibri.Scheduler

import Colibri.Scheduler.Cfs

/-!
# `schedule`, and the runs of one processor

Model of `kernel/scheduler/scheduler.c` with what `kernel/process.c` and `change_current_vmm` of
`kernel/memory/vmm.c` do to the scheduler's state.

A run is made of three kinds of actions. `spawn` is `create_process` on its path of success, further
`add_thread` calls and the `run_proc` of the new process. `timer` is a timer interrupt: `schedule`
on the frame the processor pushed. `die` marks the running thread `DEAD`.

`destroy_thread` and `destroy_process` also free the thread's stack area, the blocks of the kernel heap
and, with `vmm_destroy`, the pages of the vmm. Here only that the blocks are gone matters. Those frees
can fault, so a step of this model says what the code leaves if it returns.
-/

namespace Colibri.Scheduler

open Colibri.Lib

/-- The code and data selectors of the GDT in `boot.S`, with the requested privilege level. -/
def kernelCs : Nat := 0x08
def kernelSs : Nat := 0x10
def userCs : Nat := 0x18 ||| 3
def userSs : Nat := 0x20 ||| 3

/-- What `add_thread` finds: the block `alloc` returned with the fields it does not write, the stack
area, and the entry point. -/
structure NewThread where
  addr : Addr
  vruntime : Nat
  execStartTime : Nat
  prio : Nat
  stack : Addr
  stackEnd : Nat
  entry : Nat
  deriving DecidableEq, Repr

/-- The thread `add_thread` builds. -/
def NewThread.init (nt : NewThread) (p : Addr) : Thread where
  vruntime := nt.vruntime
  execStartTime := nt.execStartTime
  prio := nt.prio
  state := .waiting
  proc := p
  context := {
    registers := ⟨0, 0⟩
    iretRip := nt.entry
    iretCs := userCs
    iretFlags := 0x202
    iretRsp := nt.stackEnd
    iretSs := userSs }
  stack := nt.stack

namespace System

/-- `change_current_vmm`: `CR3` is left alone for the kernel's vmm. -/
def changeCurrentVmm (s : System) (v : VmmRef) : Option System :=
  match v with
  | .kernel => some { s with cpu := { s.cpu with vmm := some .kernel } }
  | .user a => (s.vmms a).map fun root =>
    { s with cpu := { s.cpu with vmm := some (.user a), cr3 := root } }

/-- `add_thread` for each of the new threads. -/
def addThreads (s : System) (p : Addr) (ts : List NewThread) : System :=
  { s with threads := ts.foldl (fun m nt => Function.update m nt.addr (some (nt.init p))) s.threads }

/-- `create_process` when it succeeds: the new vmm is made current while the segments are loaded,
then the old one again unless there was none. -/
def createProcess (s : System) (p v : Addr) (root : Nat) (ts : List NewThread) :
    Option System := do
  let current := s.cpu.vmm
  let s := { s with vmms := Function.update s.vmms v (some root) }
  let s ← s.changeCurrentVmm (.user v)
  let s ← match current with
    | none => some s
    | some c => s.changeCurrentVmm c
  let s := s.addThreads p ts
  return { s with procs := Function.update s.procs p (some ⟨ts.map (·.addr), v⟩) }

/-- The loop of `run_proc`, with the reading of `uptime` and the tree node of each turn. -/
def runThreads (s : System) : List Addr → List (Nat × Addr) → Option System
  | [], _ => some s
  | _ :: _, [] => none
  | t :: ts, (now, run) :: rs => do
    let s ← s.modifyThread t fun th => { th with execStartTime := 0 }
    let s ← s.cfsQueue t now run
    s.runThreads ts rs

/-- `run_proc`. -/
def runProc (s : System) (p : Addr) (rs : List (Nat × Addr)) : Option System := do
  s.runThreads (← s.procs p).threads rs

/-- `destroy_process`, without what `vmm_destroy` and `free` do to the memory. -/
def destroyProcess (s : System) (p : Addr) : Option System := do
  let proc ← s.procs p
  let _ ← s.vmms proc.vmm
  return { s with
    vmms := Function.update s.vmms proc.vmm none, procs := Function.update s.procs p none }

/-- `destroy_thread`, without what `vmm_free_area` and `free` do to the memory. -/
def destroyThread (s : System) (t : Addr) : Option System := do
  let p := (← s.threads t).proc
  let proc ← s.procs p
  let ts := proc.threads.erase t
  let _ ← s.vmms proc.vmm
  let s := { s with
    procs := Function.update s.procs p (some { proc with threads := ts }),
    threads := Function.update s.threads t none }
  if ts.isEmpty then s.destroyProcess p else some s

/-- The first part of `schedule`: what happens to the old thread, when `new` was picked. Returns the
thread to go on with. -/
def leaveOld (s : System) (now : Nat) (run : Addr) (context : IntFrame) (new : Ptr) :
    Option (System × Ptr) :=
  match s.cpu.thread with
  | none | some .idle => some ({ s with cpu := { s.cpu with rsp0 := context.iretRsp } }, new)
  | some (.thread old) => do
    if (← s.threads old).state ≠ .dead then
      match new with
      | none => return (s, some old)
      | some n =>
        let s ← s.modifyThread old fun th => { th with state := .waiting }
        let s ← s.cfsQueue old now run
        let s ← s.modifyThread old fun th => { th with context := context }
        return (s, some n)
    else
      return (← s.destroyThread old, new)

/-- The path of `schedule` with nothing to run: of the frame only `rip` and `rsp` change. -/
def goIdle (s : System) (context : IntFrame) : System × IntFrame :=
  ({ s with cpu := { s.cpu with thread := some .idle, vmm := some .kernel } },
    { context with iretRip := s.idleRip, iretRsp := s.cpu.rsp0 })

/-- The path of `schedule` that switches to the thread `n`. -/
def switchTo (s : System) (n : Addr) : Option (System × IntFrame) := do
  let s ← s.cfsDequeue n
  let s ← s.modifyThread n fun th => { th with state := .active }
  let s := { s with cpu := { s.cpu with thread := some (.thread n) } }
  let th ← s.threads n
  let s ← s.changeCurrentVmm (.user (← s.procs th.proc).vmm)
  return (s, th.context)

/-- The switch of `schedule`, which is skipped when the old thread goes on. -/
def enter (s : System) (old : Option ThreadRef) (n : Addr) (context : IntFrame) :
    Option (System × IntFrame) :=
  if old = some (.thread n) then some (s, context) else s.switchTo n

/-- `schedule` on the interrupt frame `context`. -/
def schedule (s : System) (now : Nat) (run : Addr) (context : IntFrame) :
    Option (System × IntFrame) := do
  let old := s.cpu.thread
  let (s, new) ← s.leaveOld now run context (← s.cfsPickNext)
  match new with
  | none => return s.goIdle context
  | some n =>
    let (s, frame) ← s.enter old n context
    -- `get_timeslice` reads the thread
    let _ ← s.threads n
    return (s, { frame with registers.rsp := context.registers.rsp })

/-- The timer interrupt: `iretq` goes on with the frame `schedule` leaves. -/
def timer (s : System) (now : Nat) (run : Addr) (context : IntFrame) : Option System := do
  let (s, frame) ← s.schedule now run context
  return { s with cpu := { s.cpu with frame }, clock := now }

/-- The running thread is marked `DEAD`. -/
def die (s : System) : Option System :=
  match s.cpu.thread with
  | some (.thread t) => s.modifyThread t fun th => { th with state := .dead }
  | _ => none

end System

/-! ## What the operations do -/

theorem changeCurrentVmm_eq {s s' : System} {v : VmmRef} (h : s.changeCurrentVmm v = some s') :
    (v = .kernel ∧ s' = { s with cpu := { s.cpu with vmm := some .kernel } }) ∨
    ∃ a root, v = .user a ∧ s.vmms a = some root ∧
      s' = { s with cpu := { s.cpu with vmm := some (.user a), cr3 := root } } := by
  cases v with
  | kernel => exact .inl ⟨rfl, (Option.some.inj h).symm⟩
  | user a =>
    obtain ⟨root, hroot, rfl⟩ := Option.map_eq_some_iff.mp h
    exact .inr ⟨a, root, rfl, hroot, rfl⟩

theorem addThreads_of_notMem {s : System} {p t : Addr} {ts : List NewThread}
    (h : t ∉ ts.map (·.addr)) : (s.addThreads p ts).threads t = s.threads t := by
  show ts.foldl _ s.threads t = s.threads t
  generalize s.threads = m
  induction ts generalizing m with
  | nil => rfl
  | cons nt ts ih =>
    rw [List.map_cons, List.mem_cons, not_or] at h
    rw [List.foldl_cons, ih h.2, Function.update_of_ne h.1]

theorem addThreads_of_mem {s : System} {p t : Addr} {ts : List NewThread}
    (h : t ∈ ts.map (·.addr)) :
    ∃ nt ∈ ts, nt.addr = t ∧ (s.addThreads p ts).threads t = some (nt.init p) := by
  show ∃ nt ∈ ts, nt.addr = t ∧ ts.foldl _ s.threads t = some (nt.init p)
  generalize s.threads = m
  induction ts generalizing m with
  | nil => exact absurd h List.not_mem_nil
  | cons nt ts ih =>
    by_cases hmem : t ∈ ts.map (·.addr)
    · obtain ⟨nt', hnt', ha, he⟩ := ih hmem (Function.update m nt.addr (some (nt.init p)))
      exact ⟨nt', List.mem_cons_of_mem _ hnt', ha, he⟩
    · have ht : nt.addr = t := by
        rw [List.map_cons, List.mem_cons] at h
        exact (h.resolve_right hmem).symm
      refine ⟨nt, List.mem_cons_self, ht, ?_⟩
      have := addThreads_of_notMem (s := { s with
        threads := Function.update m nt.addr (some (nt.init p)) }) (p := p) hmem
      rw [List.foldl_cons]
      refine this.trans ?_
      rw [← ht]
      exact Function.update_self _ _ _

/-- **What `create_process` does** when it succeeds. If the current vmm was the kernel's or none,
`CR3` stays with the new process. -/
theorem createProcess_eq {s s' : System} {p v : Addr} {root : Nat} {ts : List NewThread}
    (h : s.createProcess p v root ts = some s') :
    ∃ vmm cr3, s' = { s with
        threads := (s.addThreads p ts).threads,
        procs := Function.update s.procs p (some ⟨ts.map (·.addr), v⟩),
        vmms := Function.update s.vmms v (some root),
        cpu := { s.cpu with vmm, cr3 } } ∧
      (cr3 = root ∨ ∃ a, s.cpu.vmm = some (.user a) ∧
        Function.update s.vmms v (some root) a = some cr3) := by
  simp only [System.createProcess, Option.bind_eq_bind, Option.bind_eq_some_iff] at h
  obtain ⟨s₁, h₁, h⟩ := h
  rcases changeCurrentVmm_eq h₁ with ⟨hk, -⟩ | ⟨a, root', ha, hroot, rfl⟩
  · exact absurd hk (by simp)
  obtain rfl := VmmRef.user.inj ha
  obtain rfl : root = root' := by simpa using hroot
  cases hc : s.cpu.vmm with
  | none =>
    rw [hc] at h
    exact ⟨_, _, (Option.some.inj h).symm, .inl rfl⟩
  | some c =>
    rw [hc] at h
    simp only [Option.bind_eq_some_iff] at h
    obtain ⟨s₂, h₂, h⟩ := h
    rcases changeCurrentVmm_eq h₂ with ⟨-, rfl⟩ | ⟨b, root₂, rfl, hroot₂, rfl⟩
    · exact ⟨_, _, (Option.some.inj h).symm, .inl rfl⟩
    · exact ⟨_, _, (Option.some.inj h).symm, .inr ⟨b, rfl, hroot₂⟩⟩

/-- **What `destroy_thread` does**: the thread goes, and with the last one its process and vmm. -/
theorem destroyThread_eq {s s' : System} {t : Addr} (h : s.destroyThread t = some s') :
    ∃ th proc root, s.threads t = some th ∧ s.procs th.proc = some proc ∧
      s.vmms proc.vmm = some root ∧
      ((proc.threads.erase t ≠ [] ∧ s' = { s with
          procs := Function.update s.procs th.proc
            (some { proc with threads := proc.threads.erase t }),
          threads := Function.update s.threads t none }) ∨
        (proc.threads.erase t = [] ∧ s' = { s with
          vmms := Function.update s.vmms proc.vmm none,
          procs := Function.update s.procs th.proc none,
          threads := Function.update s.threads t none })) := by
  simp only [System.destroyThread, Option.bind_eq_bind, Option.bind_eq_some_iff] at h
  obtain ⟨th, hth, proc, hproc, root, hroot, h⟩ := h
  refine ⟨th, proc, root, hth, hproc, hroot, ?_⟩
  split at h
  · rename_i hemp
    simp [System.destroyProcess, hroot] at h
    exact .inr ⟨List.isEmpty_iff.mp hemp, h.symm⟩
  · rename_i hemp
    exact .inl ⟨fun he => hemp (by rw [he]; rfl), (Option.some.inj h).symm⟩

/-- **What happens to the old thread.** Nothing if there was none; it goes on if nothing else is
queued; it is queued and its frame saved; or it is destroyed. -/
theorem leaveOld_eq {s s' : System} {now : Nat} {run : Addr} {context : IntFrame} {new new' : Ptr}
    (h : s.leaveOld now run context new = some (s', new')) :
    ((s.cpu.thread = none ∨ s.cpu.thread = some .idle) ∧ new' = new ∧
      s' = { s with cpu := { s.cpu with rsp0 := context.iretRsp } }) ∨
    ∃ old th, s.cpu.thread = some (.thread old) ∧ s.threads old = some th ∧
      ((th.state ≠ .dead ∧ new = none ∧ new' = some old ∧ s' = s) ∨
        (th.state ≠ .dead ∧ ∃ n s₁ s₂, new = some n ∧ new' = some n ∧
          (s.modifyThread old fun th => { th with state := .waiting }) = some s₁ ∧
          s₁.cfsQueue old now run = some s₂ ∧
          (s₂.modifyThread old fun th => { th with context := context }) = some s') ∨
        (th.state = .dead ∧ new' = new ∧ s.destroyThread old = some s')) := by
  unfold System.leaveOld at h
  split at h
  · rename_i hc
    obtain ⟨rfl, rfl⟩ := Prod.mk.inj (Option.some.inj h)
    exact .inl ⟨.inl hc, rfl, rfl⟩
  · rename_i hc
    obtain ⟨rfl, rfl⟩ := Prod.mk.inj (Option.some.inj h)
    exact .inl ⟨.inr hc, rfl, rfl⟩
  · rename_i old hc
    simp only [Option.bind_eq_bind, Option.bind_eq_some_iff] at h
    obtain ⟨th, hth, h⟩ := h
    refine .inr ⟨old, th, hc, hth, ?_⟩
    split at h
    · rename_i hst
      cases new with
      | none =>
        obtain ⟨rfl, rfl⟩ := Prod.mk.inj (Option.some.inj h)
        exact .inl ⟨hst, rfl, rfl, rfl⟩
      | some n =>
        simp only [Option.bind_eq_some_iff] at h
        obtain ⟨s₁, h₁, s₂, h₂, s₃, h₃, h⟩ := h
        obtain ⟨rfl, rfl⟩ := Prod.mk.inj (Option.some.inj h)
        exact .inr (.inl ⟨hst, n, s₁, s₂, rfl, rfl, h₁, h₂, h₃⟩)
    · rename_i hst
      simp only [Option.bind_eq_some_iff] at h
      obtain ⟨s₁, h₁, h⟩ := h
      obtain ⟨rfl, rfl⟩ := Prod.mk.inj (Option.some.inj h)
      exact .inr (.inr ⟨not_not.mp hst, rfl, h₁⟩)

/-- **What a switch does.** -/
theorem switchTo_eq {s s' : System} {n : Addr} {frame : IntFrame}
    (h : s.switchTo n = some (s', frame)) :
    ∃ s₁ s₂ th proc root, s.cfsDequeue n = some s₁ ∧
      (s₁.modifyThread n fun th => { th with state := .active }) = some s₂ ∧
      s₂.threads n = some th ∧ s₂.procs th.proc = some proc ∧ s₂.vmms proc.vmm = some root ∧
      frame = th.context ∧
      s' = { s₂ with cpu := { s₂.cpu with
        thread := some (.thread n), vmm := some (.user proc.vmm), cr3 := root } } := by
  simp only [System.switchTo, Option.bind_eq_bind, Option.bind_eq_some_iff] at h
  obtain ⟨s₁, h₁, s₂, h₂, th, hth, proc, hproc, s₃, h₃, h⟩ := h
  rcases changeCurrentVmm_eq h₃ with ⟨hk, -⟩ | ⟨a, root, ha, hroot, rfl⟩
  · exact absurd hk (by simp)
  · obtain rfl := VmmRef.user.inj ha
    obtain ⟨rfl, rfl⟩ := Prod.mk.inj (Option.some.inj h)
    exact ⟨s₁, s₂, th, proc, root, h₁, h₂, hth, hproc, hroot, rfl, rfl⟩

/-- **What `schedule` does.** -/
theorem schedule_eq {s s' : System} {now : Nat} {run : Addr} {context frame : IntFrame}
    (h : s.schedule now run context = some (s', frame)) :
    ∃ new new' s₁, s.cfsPickNext = some new ∧
      s.leaveOld now run context new = some (s₁, new') ∧
      ((new' = none ∧ s₁.goIdle context = (s', frame)) ∨
        ∃ n frame', new' = some n ∧ s₁.enter s.cpu.thread n context = some (s', frame') ∧
          (s'.threads n).isSome ∧
          frame = { frame' with registers.rsp := context.registers.rsp }) := by
  simp only [System.schedule, Option.bind_eq_bind, Option.bind_eq_some_iff] at h
  obtain ⟨new, hnew, ⟨s₁, new'⟩, h₁, h⟩ := h
  refine ⟨new, new', s₁, hnew, h₁, ?_⟩
  cases new' with
  | none => exact .inl ⟨rfl, Option.some.inj h⟩
  | some n =>
    simp only [Option.bind_eq_some_iff] at h
    obtain ⟨⟨s₂, frame'⟩, h₂, th, hth, h⟩ := h
    obtain ⟨rfl, rfl⟩ := Prod.mk.inj (Option.some.inj h)
    exact .inr ⟨n, frame', rfl, h₂, by rw [hth]; rfl, rfl⟩

/-! ## Runs -/

/-- What happens on the processor, with the values the environment supplies. -/
inductive Action where
  | spawn (p v : Addr) (root : Nat) (ts : List NewThread) (rs : List (Nat × Addr))
  | timer (now : Nat) (run : Addr) (context : IntFrame)
  | die

/-- The effect of an action; `none` is a fault. -/
def step (s : System) : Action → Option System
  | .spawn p v root ts rs => do
    let s ← s.createProcess p v root ts
    let s ← s.runProc p rs
    return { s with clock := ((rs.map Prod.fst).getLast?).getD s.clock }
  | .timer now run context => s.timer now run context
  | .die => s.die

/-- `alloc` found a block for a tree node at `run`. -/
def FreshNode (s : System) (run : Addr) : Prop :=
  s.cfs.tree.nodes run = none ∧ 0 < run ∧ run < u64Size

/-- What the environment guarantees of the values it supplies: allocated blocks are not in use,
`uptime` does not decrease, and the frame pushed by the timer interrupt has the selectors the
processor runs on. -/
def Valid (s : System) : Action → Prop
  | .spawn p v root ts rs =>
    s.procs p = none ∧ s.vmms v = none ∧ root ≠ s.kernelRoot ∧ (∀ w, s.vmms w ≠ some root) ∧
      (ts.map (·.addr)).Nodup ∧ (∀ nt ∈ ts, s.threads nt.addr = none) ∧
      rs.length = ts.length ∧ (rs.map Prod.snd).Nodup ∧ (∀ r ∈ rs, FreshNode s r.2) ∧
      (s.clock :: rs.map Prod.fst).Pairwise (· ≤ ·)
  | .timer now run context =>
    s.clock ≤ now ∧ FreshNode s run ∧ context.iretCs = s.cpu.frame.iretCs ∧
      context.iretSs = s.cpu.frame.iretSs
  | .die => ∃ t, s.cpu.thread = some (.thread t)

/-- The state in which `main` has set up the processor: an empty run queue, no thread, and the
kernel's vmm. -/
def System.boot (kernelRoot idleRip rsp0 : Nat) (regs : Registers) : System where
  threads _ := none
  procs _ := none
  vmms _ := none
  kernelRoot := kernelRoot
  idleRip := idleRip
  cfs := ⟨.empty, 0⟩
  cpu := {
    thread := none
    vmm := some .kernel
    cr3 := kernelRoot
    rsp0 := rsp0
    frame := ⟨regs, 0, kernelCs, 0x202, 0, kernelSs⟩ }
  clock := 0

/-- The states reached by runs whose every step meets `P`. -/
inductive Reach (P : System → Action → Prop) (s₀ : System) : System → Prop
  | init : Reach P s₀ s₀
  | step {s s' : System} (a : Action) (hs : Reach P s₀ s) (hv : Valid s a) (hp : P s a)
      (h : step s a = some s') : Reach P s₀ s'

end Colibri.Scheduler

import Colibri.Lib.Run
import Colibri.Scheduler.Resume

/-!
# Several processors

Every processor runs `schedule` from its own timer interrupts, on one run queue and without a lock.
`Smp` is the scheduler's state with a core for each processor: its `cpu_status_t` and where it is in
`schedule`. The steps are those of `schedule` between which others can come: `cfs_pick_next`, the
part for the old thread with `cfs_queue`, the saving of its context, `cfs_dequeue`, and the loading
of the new one. `schedule_steps` says that the steps of one core without others in between are a
call of `schedule`.

Two things can go wrong. A thread that one core has picked is in the queue until that core dequeues
it, so another core picks it too. And a thread that a core has put back is in the queue before its
context is saved and before the core has left it. `smp_sound` is what holds in the runs in which
neither happens.
-/

namespace Colibri.Scheduler

open Colibri.Lib Colibri.Lib.ColorTree

/-- Where a core is in `schedule`; `context` is the interrupt's frame and `new` what was picked. -/
inductive Phase where
  /-- Outside of `schedule`. -/
  | running
  /-- After `cfs_pick_next`. -/
  | picked (context : IntFrame) (new : Ptr)
  /-- After `cfs_queue` of the old thread. -/
  | queued (context : IntFrame) (new : Addr)
  /-- The old thread's context is saved, or it is destroyed, or there was none. -/
  | left (context : IntFrame) (new : Ptr)
  /-- After `cfs_dequeue` of the new thread. -/
  | taken (context : IntFrame) (new : Addr)
  deriving DecidableEq

namespace Phase

/-- What was picked. -/
def new : Phase → Ptr
  | running => none
  | picked _ n => n
  | queued _ n => some n
  | left _ n => n
  | taken _ n => some n

/-- The frame that is still to be saved. -/
def unsaved : Phase → Option IntFrame
  | picked c _ => some c
  | queued c _ => some c
  | _ => none

/-- Whether the core has done with its old thread, which may still be its `thread`. -/
def done : Phase → Bool
  | left _ _ => true
  | taken _ _ => true
  | _ => false

/-- Whether the core has put back its old thread, which is still its `thread`. -/
def leaving : Phase → Bool
  | queued _ _ => true
  | left _ _ => true
  | taken _ _ => true
  | _ => false

end Phase

/-- A processor. -/
structure Core where
  cpu : Cpu
  phase : Phase

/-- The thread that only this core can run: its own until it is put back, then the one it took. -/
def Core.Owns (c : Core) (t : Addr) : Prop :=
  match c.phase with
  | .running => c.cpu.thread = some (.thread t)
  | .picked _ _ => c.cpu.thread = some (.thread t)
  | .queued _ _ => False
  | .left _ _ => False
  | .taken _ n => t = n

/-- The scheduler's state with all processors; the field `cpu` of `sys` is not used. `last` is the
history: the frame each thread was last interrupted with. -/
structure Smp where
  sys : System
  cores : Nat → Core
  last : Addr → IntFrame

/-- A step of a core. -/
inductive SmpAction where
  | timer (i : Nat) (context : IntFrame)
  | leave (i now : Nat) (run : Addr)
  | save (i : Nat)
  | dequeue (i : Nat)
  | load (i : Nat)
  | die (i : Nat)

namespace Smp

/-- What the core `i` works on. -/
def view (m : Smp) (i : Nat) : System := { m.sys with cpu := (m.cores i).cpu }

/-- The state after the core `i` worked on it. -/
def put (m : Smp) (i : Nat) (s : System) (phase : Phase) : Smp :=
  { m with sys := s, cores := Function.update m.cores i ⟨s.cpu, phase⟩ }

/-- The timer interrupt and `cfs_pick_next`. -/
def timer (m : Smp) (i : Nat) (context : IntFrame) : Option Smp :=
  match (m.cores i).phase with
  | .running => (m.view i).cfsPickNext.map fun new =>
    { m.put i (m.view i) (.picked context new) with
      last := match (m.cores i).cpu.thread with
        | some (.thread t) => Function.update m.last t context
        | _ => m.last }
  | _ => none

/-- The part of `schedule` for the old thread, without the saving of its context. -/
def leave (m : Smp) (i now : Nat) (run : Addr) : Option Smp :=
  match (m.cores i).phase with
  | .picked context new =>
    let s := m.view i
    match s.cpu.thread with
    | some (.thread old) => do
      if (← s.threads old).state ≠ .dead then
        match new with
        | none => return m.put i { s with cpu := { s.cpu with frame := context } } .running
        | some n =>
          let s ← s.modifyThread old fun th => { th with state := .waiting }
          let s ← s.cfsQueue old now run
          return m.put i s (.queued context n)
      else
        let s ← s.destroyThread old
        return m.put i s (.left context new)
    | _ =>
      some (m.put i { s with cpu := { s.cpu with rsp0 := context.iretRsp } } (.left context new))
  | _ => none

/-- The `memcpy` to the old thread's context. -/
def save (m : Smp) (i : Nat) : Option Smp :=
  match (m.cores i).phase, (m.cores i).cpu.thread with
  | .queued context n, some (.thread old) =>
    ((m.view i).modifyThread old fun th => { th with context := context }).map fun s =>
      m.put i s (.left context (some n))
  | _, _ => none

/-- `cfs_dequeue` of the new thread, or what is done without one. -/
def dequeue (m : Smp) (i : Nat) : Option Smp :=
  match (m.cores i).phase with
  | .left context none =>
    let (s, frame) := (m.view i).goIdle context
    some (m.put i { s with cpu := { s.cpu with frame } } .running)
  | .left context (some n) =>
    let s := m.view i
    if s.cpu.thread = some (.thread n) then
      some (m.put i { s with cpu := { s.cpu with frame := context } } .running)
    else (s.cfsDequeue n).map fun s => m.put i s (.taken context n)
  | _ => none

/-- The rest: the new thread becomes current and its context is loaded. -/
def load (m : Smp) (i : Nat) : Option Smp :=
  match (m.cores i).phase with
  | .taken context n => do
    let s ← (m.view i).modifyThread n fun th => { th with state := .active }
    let s := { s with cpu := { s.cpu with thread := some (.thread n) } }
    let th ← s.threads n
    let s ← s.changeCurrentVmm (.user (← s.procs th.proc).vmm)
    let frame := { th.context with registers.rsp := context.registers.rsp }
    return m.put i { s with cpu := { s.cpu with frame } } .running
  | _ => none

/-- The running thread is marked `DEAD`. -/
def die (m : Smp) (i : Nat) : Option Smp :=
  match (m.cores i).phase with
  | .running => (m.view i).die.map fun s => m.put i s .running
  | _ => none

/-- The effect of a step; `none` if the core is elsewhere, or a pointer is to no live block. -/
def step (m : Smp) : SmpAction → Option Smp
  | .timer i context => m.timer i context
  | .leave i now run => m.leave i now run
  | .save i => m.save i
  | .dequeue i => m.dequeue i
  | .load i => m.load i
  | .die i => m.die i

/-- The block for a new tree node is not in use. -/
def Promised (m : Smp) : SmpAction → Prop
  | .leave _ _ run => FreshNode m.sys run
  | _ => True

/-- The condition on the steps. What is dequeued is still in the queue, and `rb_remove` finds it; and
a thread is loaded only after each core that put it back has left it. -/
def Meets (m : Smp) : SmpAction → Prop
  | .dequeue i => ∀ context n, (m.cores i).phase = .left context (some n) →
    Queued m.sys.cfs.tree n ∧
      ∀ T, Holds m.sys.cfs.tree T → ¬ TieAbove m.sys.entityKey n T
  | .load i => ∀ context n, (m.cores i).phase = .taken context n →
    ∀ j, j ≠ i → (m.cores j).phase.leaving = true → (m.cores j).cpu.thread ≠ some (.thread n)
  | _ => True

/-- A state to start from: all cores run, each a thread of its own or none, and all other live
threads are queued, each with the frame it was last interrupted with. -/
structure Start (m : Smp) : Prop where
  running : ∀ i, (m.cores i).phase = .running
  apart : ∀ i j t, (m.cores i).cpu.thread = some (.thread t) →
    (m.cores j).cpu.thread = some (.thread t) → i = j
  queue : ∃ T out, Inv m.sys T out ∧ ∀ t, t ∈ out ↔ ∃ i, (m.cores i).cpu.thread = some (.thread t)
  saved : ∀ t th, Queued m.sys.cfs.tree t → m.sys.threads t = some th → th.context = m.last t

end Smp

/-! ## One core by itself -/

section

variable {m m₀ : Smp} {i now : Nat} {run : Addr} {s s' : System} {context frame : IntFrame}

@[simp] theorem put_cores (m : Smp) (i : Nat) (s : System) (phase : Phase) :
    (m.put i s phase).cores i = ⟨s.cpu, phase⟩ := Function.update_self _ _ _

@[simp] theorem put_view (m : Smp) (i : Nat) (s : System) (phase : Phase) :
    (m.put i s phase).view i = s := by
  unfold Smp.view
  rw [put_cores]
  rfl

@[simp] theorem put_put (m : Smp) (i : Nat) (s s' : System) (phase phase' : Phase) :
    (m.put i s phase).put i s' phase' = m.put i s' phase' := by
  unfold Smp.put
  simp only [Function.update_idem]

/-- The processor returns from the interrupt. -/
def Smp.iret (m : Smp) (i : Nat) (s : System) (frame : IntFrame) : Smp :=
  m.put i { s with cpu := { s.cpu with frame } } .running

/-- The steps that make a thread current, or go on with it. -/
theorem enter_steps {n : Addr} {frame' : IntFrame}
    (hr : Run Smp.step (fun _ _ => True) m₀ (m.put i s (.left context (some n))))
    (h : s.enter s.cpu.thread n context = some (s', frame')) :
    Run Smp.step (fun _ _ => True) m₀
      (m.iret i s' { frame' with registers.rsp := context.registers.rsp }) := by
  unfold System.enter at h
  by_cases heq : s.cpu.thread = some (.thread n)
  · rw [if_pos heq] at h
    obtain ⟨rfl, rfl⟩ := Prod.mk.inj (Option.some.inj h)
    refine .step (.dequeue i) hr trivial ?_
    simp [Smp.step, Smp.dequeue, heq, Smp.iret]
  · rw [if_neg heq] at h
    obtain ⟨s₁, s₂, th, proc, root, h₁, h₂, hth, hproc, hroot, rfl, rfl⟩ := switchTo_eq h
    have hd : (m.put i s (.left context (some n))).step (.dequeue i) =
        some (m.put i s₁ (.taken context n)) := by
      simp [Smp.step, Smp.dequeue, heq, h₁]
    refine .step (.load i) (.step (.dequeue i) hr trivial hd) trivial ?_
    simp [Smp.step, Smp.load, h₂, hth, hproc, System.changeCurrentVmm, hroot, Smp.iret]

/-- The steps after the old thread was left. -/
theorem left_steps {new : Ptr}
    (hr : Run Smp.step (fun _ _ => True) m₀ (m.put i s (.left context new)))
    (h : (new = none ∧ s.goIdle context = (s', frame)) ∨ ∃ n frame', new = some n ∧
      s.enter s.cpu.thread n context = some (s', frame') ∧ (s'.threads n).isSome ∧
      frame = { frame' with registers.rsp := context.registers.rsp }) :
    Run Smp.step (fun _ _ => True) m₀ (m.iret i s' frame) := by
  rcases h with ⟨rfl, h⟩ | ⟨n, frame', rfl, h, -, rfl⟩
  · refine .step (.dequeue i) hr trivial ?_
    simp [Smp.step, Smp.dequeue, h, Smp.iret]
  · exact enter_steps hr h

/-- **The steps of one core without others in between are a call of `schedule`.** -/
theorem schedule_steps (hphase : (m.cores i).phase = .running)
    (h : (m.view i).schedule now run context = some (s', frame)) :
    ∃ last, Run Smp.step (fun _ _ => True) m (Smp.iret { m with last } i s' frame) := by
  obtain ⟨new, new', s₁, hpick, hleave, hrest⟩ := schedule_eq h
  obtain ⟨last, hlast⟩ : ∃ last, last = match (m.cores i).cpu.thread with
    | some (.thread t) => Function.update m.last t context
    | _ => m.last := ⟨_, rfl⟩
  refine ⟨last, ?_⟩
  have h₀ : Run Smp.step (fun _ _ => True) m
      (({ m with last } : Smp).put i (m.view i) (.picked context new)) := by
    refine .step (.timer i context) .init trivial ?_
    rw [hlast]
    simp only [Smp.step, Smp.timer, hphase, hpick, Option.map_some]
    rfl
  obtain ⟨mm, hmm⟩ : ∃ mm : Smp, mm = { m with last } := ⟨_, rfl⟩
  rw [← hmm] at h₀ ⊢
  obtain ⟨v, hv⟩ : ∃ v, v = m.view i := ⟨_, rfl⟩
  rw [← hv] at h₀ hleave hrest
  rcases leaveOld_eq hleave with ⟨hcpu, rfl, rfl⟩ | ⟨old, th, hcpu, hth, hcase⟩
  · have hl : (mm.put i v (.picked context new')).step (.leave i now run) = some (mm.put i
        { v with cpu := { v.cpu with rsp0 := context.iretRsp } } (.left context new')) := by
      rcases hcpu with hcpu | hcpu <;> simp [Smp.step, Smp.leave, hcpu]
    exact left_steps (.step (.leave i now run) h₀ trivial hl) hrest
  · rcases hcase with ⟨hlive, rfl, rfl, rfl⟩ | ⟨hlive, n, s₂, s₃, rfl, rfl, h₂, h₃, h₄⟩ |
      ⟨hdead, rfl, hd⟩
    · rcases hrest with ⟨hn, -⟩ | ⟨n, frame', hn, he, -, rfl⟩
      · exact absurd hn (by simp)
      · obtain rfl := Option.some.inj hn
        rw [System.enter, if_pos hcpu] at he
        obtain ⟨rfl, rfl⟩ := Prod.mk.inj (Option.some.inj he)
        refine .step (.leave i now run) h₀ trivial ?_
        simp [Smp.step, Smp.leave, hcpu, hth, hlive, Smp.iret]
    · have hl : (mm.put i v (.picked context (some n))).step (.leave i now run) =
          some (mm.put i s₃ (.queued context n)) := by
        simp [Smp.step, Smp.leave, hcpu, hth, hlive, h₂, h₃]
      have hcpu₃ : s₃.cpu = v.cpu := by
        obtain ⟨th₃, -, -, hc, -⟩ := cfsQueue_threads h₃
        obtain ⟨th₂, -, he⟩ := modifyThread_eq h₂
        rw [hc, he]
      have hcpu₁ : s₁.cpu.thread = v.cpu.thread := by
        obtain ⟨th₄, -, he⟩ := modifyThread_eq h₄
        rw [← hcpu₃, he]
      have hsv : (mm.put i s₃ (.queued context n)).step (.save i) =
          some (mm.put i s₁ (.left context (some n))) := by
        simp [Smp.step, Smp.save, hcpu₃, hcpu, h₄]
      rw [← hcpu₁] at hrest
      exact left_steps (.step (.save i) (.step (.leave i now run) h₀ trivial hl) trivial hsv) hrest
    · have hl : (mm.put i v (.picked context new')).step (.leave i now run) =
          some (mm.put i s₁ (.left context new')) := by
        simp [Smp.step, Smp.leave, hcpu, hth, hdead, hd]
      have hcpu₁ : s₁.cpu = v.cpu := (destroyThread_threads hd).2
      rw [← hcpu₁] at hrest
      exact left_steps (.step (.leave i now run) h₀ trivial hl) hrest

end

/-! ## What the steps do -/

/-- **What happens to the old thread.** -/
theorem leave_eq {m m' : Smp} {i now : Nat} {run : Addr} (h : m.leave i now run = some m') :
    ∃ context new, (m.cores i).phase = .picked context new ∧
      (((∀ t, (m.cores i).cpu.thread ≠ some (.thread t)) ∧ ∃ s, m' = m.put i s (.left context new) ∧
          s.threads = m.sys.threads ∧ s.cfs = m.sys.cfs ∧
          s.cpu.thread = (m.cores i).cpu.thread) ∨
        ∃ old th, (m.cores i).cpu.thread = some (.thread old) ∧ m.sys.threads old = some th ∧
          ((new = none ∧ ∃ s, m' = m.put i s .running ∧ s.threads = m.sys.threads ∧
              s.cfs = m.sys.cfs ∧ s.cpu.thread = some (.thread old)) ∨
            (∃ n s₁ s₂, new = some n ∧
              ((m.view i).modifyThread old fun th => { th with state := .waiting }) = some s₁ ∧
              s₁.cfsQueue old now run = some s₂ ∧ m' = m.put i s₂ (.queued context n)) ∨
            ∃ s₁, (m.view i).destroyThread old = some s₁ ∧ m' = m.put i s₁ (.left context new))) := by
  unfold Smp.leave at h
  split at h
  · rename_i context new hphase
    refine ⟨context, new, hphase, ?_⟩
    simp only at h
    split at h
    · rename_i old hold
      refine .inr ?_
      simp only [Option.bind_eq_bind, Option.bind_eq_some_iff] at h
      obtain ⟨th, hth, h⟩ := h
      refine ⟨old, th, hold, hth, ?_⟩
      split at h
      · cases new with
        | none => exact .inl ⟨rfl, _, (Option.some.inj h).symm, rfl, rfl, hold⟩
        | some n =>
          simp only [Option.bind_eq_some_iff] at h
          obtain ⟨s₁, h₁, s₂, h₂, h⟩ := h
          exact .inr (.inl ⟨n, s₁, s₂, rfl, h₁, h₂, (Option.some.inj h).symm⟩)
      · simp only [Option.bind_eq_some_iff] at h
        obtain ⟨s₁, h₁, h⟩ := h
        exact .inr (.inr ⟨s₁, h₁, (Option.some.inj h).symm⟩)
    · rename_i hold
      exact .inl ⟨hold, _, (Option.some.inj h).symm, rfl, rfl, rfl⟩
  · exact absurd h (by simp)

/-- **What is saved.** -/
theorem save_eq {m m' : Smp} {i : Nat} (h : m.save i = some m') : ∃ context n old s,
    (m.cores i).phase = .queued context n ∧ (m.cores i).cpu.thread = some (.thread old) ∧
    ((m.view i).modifyThread old fun th => { th with context := context }) = some s ∧
    m' = m.put i s (.left context (some n)) := by
  unfold Smp.save at h
  split at h
  · rename_i context n old hphase hold
    obtain ⟨s, hs, rfl⟩ := Option.map_eq_some_iff.mp h
    exact ⟨context, n, old, s, hphase, hold, hs, rfl⟩
  · exact absurd h (by simp)

/-- **What is dequeued.** -/
theorem dequeue_eq {m m' : Smp} {i : Nat} (h : m.dequeue i = some m') : ∃ context new,
    (m.cores i).phase = .left context new ∧
    ((new = none ∧ ∃ s, m' = m.put i s .running ∧ s.threads = m.sys.threads ∧
        s.cfs = m.sys.cfs ∧ s.cpu.thread = some .idle) ∨
      ∃ n, new = some n ∧ ((m.cores i).cpu.thread = some (.thread n) ∨
        ∃ s, (m.view i).cfsDequeue n = some s ∧ m' = m.put i s (.taken context n))) := by
  unfold Smp.dequeue at h
  split at h
  · rename_i context hphase
    exact ⟨context, none, hphase, .inl ⟨rfl, _, (Option.some.inj h).symm, rfl, rfl, rfl⟩⟩
  · rename_i context n hphase
    refine ⟨context, some n, hphase, .inr ⟨n, rfl, ?_⟩⟩
    simp only at h
    split at h
    · rename_i hthread
      exact .inl hthread
    · obtain ⟨s, hs, rfl⟩ := Option.map_eq_some_iff.mp h
      exact .inr ⟨s, hs, rfl⟩
  · exact absurd h (by simp)

/-- **What is loaded.** -/
theorem load_eq {m m' : Smp} {i : Nat} (h : m.load i = some m') : ∃ context n th s,
    (m.cores i).phase = .taken context n ∧ m.sys.threads n = some th ∧ m' = m.put i s .running ∧
    s.threads = Function.update m.sys.threads n (some { th with state := .active }) ∧
    s.cfs = m.sys.cfs ∧ s.cpu.thread = some (.thread n) ∧
    s.cpu.frame = { th.context with registers.rsp := context.registers.rsp } := by
  unfold Smp.load at h
  split at h
  · rename_i context n hphase
    simp only [Option.bind_eq_bind, Option.bind_eq_some_iff] at h
    obtain ⟨s₁, h₁, th₁, hth₁, proc, -, s₂, h₂, h⟩ := h
    obtain ⟨th, hth, rfl⟩ := modifyThread_eq h₁
    obtain rfl : { th with state := .active } = th₁ := by simpa using hth₁
    obtain rfl := Option.some.inj h
    rcases changeCurrentVmm_eq h₂ with ⟨hk, -⟩ | ⟨a, root, -, -, rfl⟩
    · exact absurd hk (by simp)
    · exact ⟨context, n, th, _, hphase, hth, rfl, rfl, rfl, rfl, rfl⟩
  · exact absurd h (by simp)

/-! ## The invariant -/

/-- **No two cores own a thread or have it current**, the threads outside the queue are those that
cores own, and a thread that no core is running or about to save has its last frame saved. -/
structure SmpInv (m : Smp) (T : NTree Addr) (out : List Addr) : Prop where
  inv : Inv m.sys T out
  owned : ∀ t, t ∈ out ↔ ∃ i, (m.cores i).Owns t
  unique : ∀ i j t, (m.cores i).Owns t → (m.cores j).Owns t → i = j
  apart : ∀ i j t, (m.cores i).cpu.thread = some (.thread t) →
    (m.cores j).cpu.thread = some (.thread t) → i = j
  interrupted : ∀ i t c, (m.cores i).phase.unsaved = some c →
    (m.cores i).cpu.thread = some (.thread t) → m.last t = c
  other : ∀ i n, (m.cores i).phase.new = some n → (m.cores i).cpu.thread ≠ some (.thread n)
  saved : ∀ t th, m.sys.threads t = some th →
    (∀ i, (m.cores i).cpu.thread = some (.thread t) → (m.cores i).phase.done = true) →
    th.context = m.last t

theorem Inv.out_congr {s : System} {T : NTree Addr} {out out' : List Addr} (h : Inv s T out)
    (he : ∀ t, t ∈ out' ↔ t ∈ out) : Inv s T out' :=
  ⟨h.queue, h.addr, h.running, fun t => by rw [he t]; exact h.live t,
    fun t ht => h.disjoint t ((he t).mp ht)⟩

section

variable {m m' : Smp} {T T' : NTree Addr} {out out' : List Addr} {i : Nat}

theorem SmpInv.start (h : m.Start) : ∃ T out, SmpInv m T out := by
  obtain ⟨T, out, hinv, hout⟩ := h.queue
  have howns : ∀ i t, (m.cores i).Owns t ↔ (m.cores i).cpu.thread = some (.thread t) := by
    intro i t
    unfold Core.Owns
    rw [h.running i]
  refine ⟨T, out, hinv, fun t => ?_, fun i j t hi hj => ?_, h.apart, fun i t c hc => ?_,
    fun i n hn => ?_, fun t th hth hdone => ?_⟩
  · rw [hout]
    exact exists_congr fun i => (howns i t).symm
  · exact h.apart i j t ((howns i t).mp hi) ((howns j t).mp hj)
  · rw [h.running i] at hc
    exact absurd hc (by simp [Phase.unsaved])
  · rw [h.running i] at hn
    exact absurd hn (by simp [Phase.new])
  · refine h.saved t th ⟨T, hinv.queue.holds, ?_⟩ hth
    rcases (hinv.live t).mp (by rw [hth]; rfl) with hm | hm
    · exact hm
    · obtain ⟨i, hi⟩ := (hout t).mp hm
      have := hdone i hi
      rw [h.running i] at this
      exact absurd this (by simp [Phase.done])

/-- **The step of one core**: what it must establish of its own record for the invariant to hold
again. -/
theorem SmpInv.put (h : SmpInv m T out) {s : System} {phase : Phase} {last : Addr → IntFrame}
    (hinv : Inv s T' out')
    (hout : ∀ t, t ∈ out' ↔ (⟨s.cpu, phase⟩ : Core).Owns t ∨ ∃ j, j ≠ i ∧ (m.cores j).Owns t)
    (hnew : ∀ t, (⟨s.cpu, phase⟩ : Core).Owns t → (m.cores i).Owns t ∨ t ∉ out)
    (hapart : ∀ t, s.cpu.thread = some (.thread t) → ∀ j, j ≠ i →
      (m.cores j).cpu.thread ≠ some (.thread t))
    (hlast : ∀ j, j ≠ i → ∀ t, (m.cores j).cpu.thread = some (.thread t) → last t = m.last t)
    (hint : ∀ t c, phase.unsaved = some c → s.cpu.thread = some (.thread t) → last t = c)
    (hother : ∀ n, phase.new = some n → s.cpu.thread ≠ some (.thread n))
    (hsaved : ∀ t th, s.threads t = some th →
      (s.cpu.thread = some (.thread t) → phase.done = true) →
      (∀ j, j ≠ i → (m.cores j).cpu.thread = some (.thread t) → (m.cores j).phase.done = true) →
      th.context = last t) :
    SmpInv { m.put i s phase with last } T' out' := by
  obtain ⟨m', hm'⟩ : ∃ m' : Smp, m' = { m.put i s phase with last } := ⟨_, rfl⟩
  have hsys : m'.sys = s := by rw [hm']; rfl
  have hlast' : m'.last = last := by rw [hm']
  have hself : m'.cores i = ⟨s.cpu, phase⟩ := by
    rw [hm']
    exact Function.update_self _ _ _
  have hne : ∀ j, j ≠ i → m'.cores j = m.cores j := fun j hj => by
    rw [hm']
    exact Function.update_of_ne hj _ _
  have hexcl : ∀ t, (⟨s.cpu, phase⟩ : Core).Owns t → ∀ j, j ≠ i → ¬ (m.cores j).Owns t := by
    intro t ht j hj hown
    rcases hnew t ht with hi | hi
    · exact hj (h.unique j i t hown hi)
    · exact hi ((h.owned t).mpr ⟨j, hown⟩)
  rw [← hm']
  refine ⟨hsys ▸ hinv, fun t => ?_, fun j k t hj hk => ?_, fun j k t hj hk => ?_, fun j t c hc ht => ?_,
    fun j n hn => ?_, fun t th hth hdone => ?_⟩
  · rw [hout t]
    constructor
    · rintro (ht | ⟨j, hj, ht⟩)
      · exact ⟨i, by rw [hself]; exact ht⟩
      · exact ⟨j, by rw [hne j hj]; exact ht⟩
    · rintro ⟨j, hj⟩
      by_cases hji : j = i
      · rw [hji, hself] at hj
        exact .inl hj
      · rw [hne j hji] at hj
        exact .inr ⟨j, hji, hj⟩
  · by_cases hji : j = i <;> by_cases hki : k = i
    · rw [hji, hki]
    · rw [hji, hself] at hj
      rw [hne k hki] at hk
      exact absurd hk (hexcl t hj k hki)
    · rw [hki, hself] at hk
      rw [hne j hji] at hj
      exact absurd hj (hexcl t hk j hji)
    · rw [hne j hji] at hj
      rw [hne k hki] at hk
      exact h.unique j k t hj hk
  · by_cases hji : j = i <;> by_cases hki : k = i
    · rw [hji, hki]
    · rw [hji, hself] at hj
      rw [hne k hki] at hk
      exact absurd hk (hapart t hj k hki)
    · rw [hki, hself] at hk
      rw [hne j hji] at hj
      exact absurd hj (hapart t hk j hji)
    · rw [hne j hji] at hj
      rw [hne k hki] at hk
      exact h.apart j k t hj hk
  · by_cases hji : j = i
    · rw [hji, hself] at hc ht
      rw [hlast']
      exact hint t c hc ht
    · rw [hne j hji] at hc ht
      rw [hlast']
      exact (hlast j hji t ht).trans (h.interrupted j t c hc ht)
  · by_cases hji : j = i
    · rw [hji, hself] at hn ⊢
      exact hother n hn
    · rw [hne j hji] at hn ⊢
      exact h.other j n hn
  · rw [hlast']
    refine hsaved t th (hsys ▸ hth) (fun ht => ?_) fun j hj ht => ?_
    · have := hdone i
      rw [hself] at this
      exact this ht
    · have := hdone j
      rw [hne j hj] at this
      exact this ht

/-- A core that owns what it owned before. -/
theorem SmpInv.out_same (h : SmpInv m T out) {c : Core}
    (he : ∀ t, c.Owns t ↔ (m.cores i).Owns t) (t : Addr) :
    t ∈ out ↔ c.Owns t ∨ ∃ j, j ≠ i ∧ (m.cores j).Owns t := by
  rw [h.owned t, he t]
  constructor
  · rintro ⟨j, hj⟩
    by_cases hji : j = i
    · exact .inl (hji ▸ hj)
    · exact .inr ⟨j, hji, hj⟩
  · rintro (hi | ⟨j, -, hj⟩)
    · exact ⟨i, hi⟩
    · exact ⟨j, hj⟩

/-- A core that no longer owns its thread. -/
theorem SmpInv.out_drop (h : SmpInv m T out) {c : Core} {old : Addr} (hold : (m.cores i).Owns old)
    (honly : ∀ t, (m.cores i).Owns t → t = old) (hc : ∀ t, ¬ c.Owns t) (t : Addr) :
    t ∈ out.filter (· ≠ old) ↔ c.Owns t ∨ ∃ j, j ≠ i ∧ (m.cores j).Owns t := by
  rw [List.mem_filter, h.owned t, decide_eq_true_eq]
  constructor
  · rintro ⟨⟨j, hj⟩, hne⟩
    refine .inr ⟨j, fun hji => hne (honly t (hji ▸ hj)), hj⟩
  · rintro (ht | ⟨j, hji, hj⟩)
    · exact absurd ht (hc t)
    · refine ⟨⟨j, hj⟩, fun he => hji (h.unique j i t hj (he ▸ hold))⟩

theorem SmpInv.thread_apart (h : SmpInv m T out) (t : Addr)
    (ht : (m.cores i).cpu.thread = some (.thread t)) (j : Nat) (hj : j ≠ i) :
    (m.cores j).cpu.thread ≠ some (.thread t) := fun hjt => hj (h.apart j i t hjt ht)

/-- **The timer interrupt** and `cfs_pick_next`. -/
theorem SmpInv.timer (h : SmpInv m T out) {context : IntFrame} (hs : m.timer i context = some m') :
    SmpInv m' T out := by
  unfold Smp.timer at hs
  split at hs
  · rename_i hphase
    obtain ⟨new, hnew, rfl⟩ := Option.map_eq_some_iff.mp hs
    have hshaped : Shaped (m.view i).cfs.tree T := h.inv.queue.toShaped
    rw [cfsPickNext_eq hshaped] at hnew
    have hown : ∀ t, (m.cores i).Owns t ↔ (m.cores i).cpu.thread = some (.thread t) := by
      intro t
      unfold Core.Owns
      rw [hphase]
    obtain ⟨last, hlast⟩ : ∃ last, last = match (m.cores i).cpu.thread with
      | some (.thread t) => Function.update m.last t context
      | _ => m.last := ⟨_, rfl⟩
    have hself : ∀ t, (m.cores i).cpu.thread = some (.thread t) → last t = context := by
      intro t ht
      rw [hlast, ht]
      exact Function.update_self _ _ _
    have hne : ∀ t, (m.cores i).cpu.thread ≠ some (.thread t) → last t = m.last t := by
      intro t ht
      rw [hlast]
      split
      · rename_i u hu
        rw [hu] at ht
        exact Function.update_of_ne (fun e => ht (by rw [e])) _ _
      · rfl
    rw [← hlast]
    refine h.put (h.inv.congr rfl rfl) (h.out_same fun t => (hown t).symm)
      (fun t ht => .inl ((hown t).mpr ht)) (fun t ht j hj => h.thread_apart t ht j hj)
      (fun j hj t ht => hne t fun hi => hj (h.apart j i t ht hi)) (fun t c hc ht => ?_)
      (fun n hn ht => ?_) fun t th hth hi hj => ?_
    · obtain rfl := Option.some.inj hc
      exact hself t ht
    · -- what was picked is queued, and what the core runs is not
      have hn' : (entities T).head? = some n := (Option.some.inj hnew).trans hn
      exact h.inv.disjoint n ((h.owned n).mpr ⟨i, (hown n).mpr ht⟩) (List.mem_of_head? hn')
    · have hit : (m.cores i).cpu.thread ≠ some (.thread t) := fun ht => by
        simpa [Phase.done] using hi ht
      rw [hne t hit]
      refine h.saved t th hth fun j ht => ?_
      by_cases hji : j = i
      · exact absurd (hji ▸ ht) hit
      · exact hj j hji ht
  · exact absurd hs (by simp)

/-- A thread of another core, or of none, was saved if it is now. -/
theorem SmpInv.saved_of_ne (h : SmpInv m T out) {t : Addr} {th : Thread}
    (hth : m.sys.threads t = some th)
    (hi : (m.cores i).cpu.thread = some (.thread t) → (m.cores i).phase.done = true)
    (hj : ∀ j, j ≠ i → (m.cores j).cpu.thread = some (.thread t) →
      (m.cores j).phase.done = true) : th.context = m.last t := by
  refine h.saved t th hth fun j ht => ?_
  by_cases hji : j = i
  · exact hji ▸ hi (hji ▸ ht)
  · exact hj j hji ht

/-- **The part for the old thread.** -/
theorem SmpInv.leave (h : SmpInv m T out) {now : Nat} {run : Addr} (hrun : FreshNode m.sys run)
    (hs : m.leave i now run = some m') : ∃ T' out', SmpInv m' T' out' := by
  obtain ⟨context, new, hphase, hcase⟩ := leave_eq hs
  have hown : ∀ t, (m.cores i).Owns t ↔ (m.cores i).cpu.thread = some (.thread t) := by
    intro t
    unfold Core.Owns
    rw [hphase]
  have hother : ∀ n, new = some n → (m.cores i).cpu.thread ≠ some (.thread n) := by
    intro n hn
    refine h.other i n ?_
    rw [hphase]
    exact hn
  rcases hcase with ⟨hnone, s, rfl, ht, hc, hcpu⟩ | ⟨old, th₀, hold, hth₀, hcase⟩
  · -- no old thread
    refine ⟨T, out, h.put (h.inv.congr ht hc) (h.out_same fun t => ?_) (fun t ht => absurd ht id)
      (fun t ht => absurd (hcpu ▸ ht) (hnone t)) (fun _ _ _ _ => rfl) (fun _ _ hc => ?_)
      (fun n _ ht => absurd (hcpu ▸ ht) (hnone n)) fun t th hth hi hj => ?_⟩
    · rw [hown t]
      exact ⟨fun hf => absurd hf id, fun ht => absurd ht (hnone t)⟩
    · exact absurd hc (by simp [Phase.unsaved])
    · exact h.saved_of_ne (ht ▸ hth) (fun ht => absurd ht (hnone t)) hj
  have honly : ∀ t, (m.cores i).Owns t → t = old := by
    intro t ht
    have := (hown t).mp ht
    rw [hold] at this
    exact (ThreadRef.thread.inj (Option.some.inj this)).symm
  have hlast : m.last old = context := by
    refine h.interrupted i old context ?_ hold
    rw [hphase]
    rfl
  have hapart : ∀ {s : System}, s.cpu.thread = some (.thread old) → ∀ t,
      s.cpu.thread = some (.thread t) → ∀ j, j ≠ i → (m.cores j).cpu.thread ≠ some (.thread t) := by
    intro s hs t ht
    rw [hs] at ht
    exact h.thread_apart t (hold.trans ht)
  have hout : ∀ t, t ∈ old :: out.filter (· ≠ old) ↔ t ∈ out := by
    intro t
    have hmem : old ∈ out := (h.owned old).mpr ⟨i, (hown old).mpr hold⟩
    by_cases hto : t = old
    · simp [hto, hmem]
    · simp [hto]
  have hinv : Inv (m.view i) T (old :: out.filter (· ≠ old)) :=
    (h.inv.congr rfl rfl : Inv (m.view i) T out).out_congr hout
  rcases hcase with ⟨-, s, rfl, ht, hc, hcpu⟩ | ⟨n, s₁, s₂, hn, h₁, h₂, rfl⟩ | ⟨s₁, h₁, rfl⟩
  · -- the old thread goes on
    refine ⟨T, out, h.put (h.inv.congr ht hc) (h.out_same fun t => ?_) (fun t ht => .inl ?_)
      (hapart hcpu) (fun _ _ _ _ => rfl) (fun _ _ hc => ?_) (fun n hn => ?_)
      fun t th hth hi hj => ?_⟩
    · rw [hown t, hold, ← hcpu]
      rfl
    · rw [hown t, hold, ← hcpu]
      exact ht
    · exact absurd hc (by simp [Phase.unsaved])
    · exact absurd hn (by simp [Phase.new])
    · refine h.saved_of_ne (ht ▸ hth) (fun hi' => ?_) hj
      rw [hold, ← hcpu] at hi'
      simpa [Phase.done] using hi hi'
  · -- it is put back
    have hi₁ := hinv.modify h₁ (.inl List.mem_cons_self)
    obtain ⟨th₁, hth₁, rfl⟩ := modifyThread_eq h₁
    obtain ⟨th₂, hth₂, ht₂, hc₂, -⟩ := cfsQueue_threads h₂
    have hcpu : s₂.cpu.thread = some (.thread old) := by
      rw [hc₂]
      exact hold
    obtain ⟨T', -, -, hi₂, -⟩ := hi₁.queueIn (by simp) hrun h₂
    refine ⟨T', out.filter (· ≠ old), h.put hi₂ (h.out_drop ((hown old).mpr hold) honly
      fun _ hf => hf) (fun t ht => absurd ht id) (hapart hcpu) (fun _ _ _ _ => rfl)
      (fun t c hc ht => ?_) (fun n' hn' => ?_) fun t th hth hi hj => ?_⟩
    · rw [hcpu] at ht
      obtain rfl := ThreadRef.thread.inj (Option.some.inj ht)
      exact hlast.trans (Option.some.inj hc)
    · rw [hc₂]
      exact hother n' (hn.trans hn')
    · have hto : t ≠ old := fun e => by simpa [Phase.done] using hi (e ▸ hcpu)
      rw [ht₂, Function.update_of_ne hto] at hth
      have hth' : (m.view i).threads t = some th := by
        simpa [Function.update_of_ne hto] using hth
      exact h.saved_of_ne hth' (fun ht => absurd (honly t ((hown t).mpr ht)) hto) hj
  · -- it is destroyed
    obtain ⟨ht₁, hc₁⟩ := destroyThread_threads h₁
    have hcpu : s₁.cpu.thread = some (.thread old) := by
      rw [hc₁]
      exact hold
    obtain ⟨hi₁, -⟩ := hinv.destroy (by simp) h₁
    refine ⟨T, out.filter (· ≠ old), h.put hi₁ (h.out_drop ((hown old).mpr hold) honly
      fun _ hf => hf) (fun t ht => absurd ht id) (hapart hcpu) (fun _ _ _ _ => rfl)
      (fun t c hc ht => ?_) (fun n' hn' => ?_) fun t th hth hi hj => ?_⟩
    · exact absurd hc (by simp [Phase.unsaved])
    · rw [hc₁]
      exact hother n' hn'
    · rw [ht₁] at hth
      have hto : t ≠ old := fun e => by simp [e] at hth
      rw [Function.update_of_ne hto] at hth
      exact h.saved_of_ne hth (fun ht => absurd (honly t ((hown t).mpr ht)) hto) hj

/-- **Saving the context** of the old thread. -/
theorem SmpInv.save (h : SmpInv m T out) (hs : m.save i = some m') : SmpInv m' T out := by
  obtain ⟨context, n, old, s, hphase, hold, h₁, rfl⟩ := save_eq hs
  have hi₁ := (h.inv.congr rfl rfl : Inv (m.view i) T out).modify h₁ (.inr fun _ => rfl)
  obtain ⟨th₀, hth₀, rfl⟩ := modifyThread_eq h₁
  have hown : ∀ t, ¬ (m.cores i).Owns t := by
    intro t ht
    unfold Core.Owns at ht
    rwa [hphase] at ht
  have hlast : m.last old = context := by
    refine h.interrupted i old context ?_ hold
    rw [hphase]
    rfl
  refine h.put hi₁ (h.out_same fun t => ⟨fun hf => absurd hf id, fun ht => absurd ht (hown t)⟩)
    (fun t ht => absurd ht id) (fun t ht j hj => h.thread_apart t ht j hj) (fun _ _ _ _ => rfl)
    (fun t c hc ht => ?_) (fun n' hn' => ?_) fun t th hth hi hj => ?_
  · exact absurd hc (by simp [Phase.unsaved])
  · refine h.other i n' ?_
    rw [hphase]
    exact hn'
  · by_cases hto : t = old
    · subst hto
      simp only [Function.update_self, Option.some.injEq] at hth
      rw [← hth, hlast]
    · have hth' : (m.view i).threads t = some th := by
        simpa [Function.update_of_ne hto] using hth
      refine h.saved_of_ne hth' (fun ht => ?_) hj
      rw [hold] at ht
      exact absurd (ThreadRef.thread.inj (Option.some.inj ht)).symm hto

/-- **`cfs_dequeue`** of a thread that is queued and found. -/
theorem SmpInv.dequeue (h : SmpInv m T out) (hmeets : m.Meets (.dequeue i))
    (hs : m.dequeue i = some m') : ∃ T' out', SmpInv m' T' out' := by
  obtain ⟨context, new, hphase, hcase⟩ := dequeue_eq hs
  have hown : ∀ t, ¬ (m.cores i).Owns t := by
    intro t ht
    unfold Core.Owns at ht
    rwa [hphase] at ht
  have hdone : (m.cores i).phase.done = true := by rw [hphase]; rfl
  rcases hcase with ⟨-, s, rfl, ht, hc, hcpu⟩ | ⟨n, rfl, hcase⟩
  · refine ⟨T, out, h.put (h.inv.congr ht hc) (h.out_same fun t => ?_) (fun t ht => ?_)
      (fun t ht => ?_) (fun _ _ _ _ => rfl) (fun _ _ hc => ?_) (fun n hn => ?_)
      fun t th hth hi hj => ?_⟩
    · refine ⟨fun ht => ?_, fun ht => absurd ht (hown t)⟩
      have : s.cpu.thread = some (.thread t) := ht
      exact absurd this (by simp [hcpu])
    · have : s.cpu.thread = some (.thread t) := ht
      exact absurd this (by simp [hcpu])
    · exact absurd ht (by simp [hcpu])
    · exact absurd hc (by simp [Phase.unsaved])
    · exact absurd hn (by simp [Phase.new])
    · exact h.saved_of_ne (ht ▸ hth) (fun _ => hdone) hj
  · have hne : (m.cores i).cpu.thread ≠ some (.thread n) := by
      refine h.other i n ?_
      rw [hphase]
      rfl
    rcases hcase with hthread | ⟨s, hdeq, rfl⟩
    · exact absurd hthread hne
    · obtain ⟨hq, htie⟩ := hmeets context n hphase
      have hn : n ∈ entities T := (queued_iff h.inv.queue.holds).mp hq
      obtain ⟨hthreads, hcpu, -, -, hcase⟩ :=
        (h.inv.congr rfl rfl : Inv (m.view i) T out).dequeue hn hdeq
      rcases hcase with ⟨-, T', hi', -⟩ | ⟨htie', -⟩
      · have hnout : n ∉ out := fun hm => h.inv.disjoint n hm hn
        have hcpu' : s.cpu.thread = (m.cores i).cpu.thread := by
          rw [hcpu]
          rfl
        refine ⟨T', n :: out, h.put hi' (fun t => ?_) (fun t ht => ?_) (fun t ht j hj => ?_)
          (fun _ _ _ _ => rfl) (fun _ _ hc => ?_) (fun n' hn' => ?_) fun t th hth hi hj => ?_⟩
        · rw [List.mem_cons, h.owned t]
          constructor
          · rintro (ht | ⟨j, hj⟩)
            · exact .inl ht
            · exact .inr ⟨j, fun e => hown t (e ▸ hj), hj⟩
          · rintro (ht | ⟨j, -, hj⟩)
            · exact .inl ht
            · exact .inr ⟨j, hj⟩
        · have : t = n := ht
          exact .inr (this ▸ hnout)
        · exact h.thread_apart t (hcpu' ▸ ht) j hj
        · exact absurd hc (by simp [Phase.unsaved])
        · obtain rfl := Option.some.inj hn'
          rw [hcpu']
          exact hne
        · exact h.saved_of_ne (hthreads ▸ hth) (fun _ => hdone) hj
      · exact absurd htie' (htie T h.inv.queue.holds)

/-- Before a thread is loaded, no core has it current. -/
theorem SmpInv.load_free (h : SmpInv m T out) {context : IntFrame} {n : Addr}
    (hmeets : m.Meets (.load i)) (hphase : (m.cores i).phase = .taken context n) (j : Nat) :
    (m.cores j).cpu.thread ≠ some (.thread n) := by
  intro hj
  by_cases hji : j = i
  · subst hji
    refine h.other j n ?_ hj
    rw [hphase]
    rfl
  · have hi : (m.cores i).Owns n := by
      unfold Core.Owns
      rw [hphase]
    have hlv := fun hl => hmeets context n hphase j hji hl hj
    have hjown : (m.cores j).Owns n := by
      unfold Core.Owns
      cases hp : (m.cores j).phase <;> simp_all [Phase.leaving]
    exact hji (h.unique j i n hjown hi)

/-- **Loading** makes the thread current on this core alone, with the frame it was last interrupted
with. -/
theorem SmpInv.load (h : SmpInv m T out) (hmeets : m.Meets (.load i)) (hs : m.load i = some m') :
    SmpInv m' T out ∧ ∃ context n, (m.cores i).phase = .taken context n ∧
      (m'.cores i).cpu.thread = some (.thread n) ∧
      (m'.cores i).cpu.frame = { m.last n with registers.rsp := context.registers.rsp } := by
  obtain ⟨context, n, th₀, s, hphase, hth₀, rfl, ht, hc, hcpu, hframe⟩ := load_eq hs
  have hfree := h.load_free hmeets hphase
  have hown : ∀ t, (m.cores i).Owns t ↔ t = n := by
    intro t
    unfold Core.Owns
    rw [hphase]
  have hlast : th₀.context = m.last n := h.saved n th₀ hth₀ fun j hj => absurd hj (hfree j)
  have hinv : Inv s T out := by
    have hmod : ({ m.sys with cfs := m.sys.cfs } : System).modifyThread n
        (fun th => { th with state := .active }) = some { m.sys with
          threads := Function.update m.sys.threads n (some { th₀ with state := .active }) } := by
      rw [System.modifyThread, hth₀]
      rfl
    exact (h.inv.modify hmod (.inr fun _ => rfl)).congr ht hc
  have hnowns : ∀ t, (⟨s.cpu, .running⟩ : Core).Owns t ↔ t = n := by
    intro t
    change s.cpu.thread = some (.thread t) ↔ t = n
    rw [hcpu]
    simp [eq_comm]
  refine ⟨h.put hinv (h.out_same fun t => (hnowns t).trans (hown t).symm)
    (fun t ht => .inl ((hown t).mpr ((hnowns t).mp ht))) (fun t ht j _ => ?_)
    (fun _ _ _ _ => rfl) (fun _ _ hc => ?_) (fun n hn => ?_) fun t th hth hi hj => ?_,
    context, n, hphase, ?_, ?_⟩
  · rw [hcpu] at ht
    obtain rfl := ThreadRef.thread.inj (Option.some.inj ht)
    exact hfree j
  · exact absurd hc (by simp [Phase.unsaved])
  · exact absurd hn (by simp [Phase.new])
  · have htn : t ≠ n := fun e => by simpa [Phase.done] using hi (e ▸ hcpu)
    rw [ht, Function.update_of_ne htn] at hth
    refine h.saved_of_ne hth (fun _ => ?_) hj
    rw [hphase]
    rfl
  · unfold Smp.put
    simp only [Function.update_self]
    exact hcpu
  · unfold Smp.put
    simp only [Function.update_self]
    rw [hframe, hlast]

theorem SmpInv.die (h : SmpInv m T out) (hs : m.die i = some m') : SmpInv m' T out := by
  unfold Smp.die at hs
  split at hs
  · rename_i hphase
    obtain ⟨s, hd, rfl⟩ := Option.map_eq_some_iff.mp hs
    unfold System.die at hd
    split at hd
    · rename_i t₀ ht₀
      have hi₁ := (h.inv.congr rfl rfl : Inv (m.view i) T out).modify hd (.inr fun _ => rfl)
      obtain ⟨th₀, hth₀, rfl⟩ := modifyThread_eq hd
      have hown : ∀ t, (m.cores i).Owns t ↔ (m.cores i).cpu.thread = some (.thread t) := by
        intro t
        unfold Core.Owns
        rw [hphase]
      refine h.put hi₁ (h.out_same fun t => (hown t).symm) (fun t ht => .inl ((hown t).mpr ht))
        (fun t ht j hj => h.thread_apart t ht j hj) (fun _ _ _ _ => rfl) (fun _ _ hc => ?_)
        (fun n hn => ?_) fun t th hth hi hj => ?_
      · exact absurd hc (by simp [Phase.unsaved])
      · exact absurd hn (by simp [Phase.new])
      · have htt : t ≠ t₀ := fun e => by simpa [Phase.done] using hi (e ▸ ht₀)
        have hth' : (m.view i).threads t = some th := by
          simpa [Function.update_of_ne htt] using hth
        refine h.saved_of_ne hth' (fun ht => ?_) hj
        simpa [Phase.done] using hi ht
    · exact absurd hd (by simp)
  · exact absurd hs (by simp)

/-- **Every step that meets the condition** keeps the invariant. -/
theorem SmpInv.step (h : SmpInv m T out) {a : SmpAction} (hp : m.Promised a) (hm : m.Meets a)
    (hs : m.step a = some m') : ∃ T' out', SmpInv m' T' out' := by
  cases a with
  | timer i context => exact ⟨T, out, h.timer hs⟩
  | leave i now run => exact h.leave hp hs
  | save i => exact ⟨T, out, h.save hs⟩
  | dequeue i => exact h.dequeue hm hs
  | load i => exact ⟨T, out, (h.load hm hs).1⟩
  | die i => exact ⟨T, out, h.die hs⟩

end

/-- The runs of the processors in which every step meets `P`. -/
abbrev SmpRun (P : Smp → SmpAction → Prop) : Smp → Smp → Prop :=
  Run Smp.step fun m a => m.Promised a ∧ P m a

/-- **In the runs that meet the condition no thread is current on two processors, and a processor
that makes a thread current loads the frame with which it was last interrupted**, except for
`registers.rsp`, which stays that of the interrupt. -/
theorem smp_sound {m₀ m : Smp} (h₀ : m₀.Start) (hrun : SmpRun Smp.Meets m₀ m) :
    (∀ i j t, (m.cores i).cpu.thread = some (.thread t) →
      (m.cores j).cpu.thread = some (.thread t) → i = j) ∧
    ∀ i m', m.Meets (.load i) → m.step (.load i) = some m' → ∃ context n,
      (m.cores i).phase = .taken context n ∧ (m'.cores i).cpu.thread = some (.thread n) ∧
      (m'.cores i).cpu.frame = { m.last n with registers.rsp := context.registers.rsp } := by
  obtain ⟨T, out, h⟩ := Run.invariant (fun m => ∃ T out, SmpInv m T out) (SmpInv.start h₀)
    (fun _ _ _ ⟨_, _, h⟩ ha hs => h.step ha.1 ha.2 hs) hrun
  exact ⟨h.apart, fun i m' hm hs => (h.load hm hs).2⟩

/-! ## One thread for two processors -/

/-- All processors are still without a thread. -/
def parked (s : System) : Smp :=
  ⟨s, fun _ => ⟨s.cpu, .running⟩, fun t => ((s.threads t).map (·.context)).getD kernelFrame⟩

theorem start_parked {s : System} (h : Reach DequeueMeets tied₀ s)
    (hnone : s.cpu.thread = none) : (parked s).Start where
  running _ := rfl
  apart i j t ht _ := by
    have hcpu : some (.thread t) = s.cpu.thread := ht.symm
    rw [hnone] at hcpu
    exact absurd hcpu nofun
  queue := by
    obtain ⟨T, hT⟩ := reach_inv h
    exact ⟨T, current s, hT, fun t => ⟨fun ht => ⟨0, mem_current.mp ht⟩, fun ⟨_, ht⟩ =>
      mem_current.mpr ht⟩⟩
  saved t th _ hth := by
    have hth' : s.threads t = some th := hth
    show th.context = ((s.threads t).map (·.context)).getD kernelFrame
    rw [hth']
    rfl

/-- One thread is queued. -/
def idleCores : Smp := parked tied₁

theorem start_idleCores : idleCores.Start :=
  start_parked (reach_tied₁ fun _ _ => trivial) rfl

/-- A thread that `rb_remove` finds in the tree can be dequeued. -/
theorem meets_dequeue {m : Smp} {i : Nat} {context : IntFrame} {n : Addr} {T : NTree Addr}
    (hphase : (m.cores i).phase = .left context (some n)) (hT : Holds m.sys.cfs.tree T)
    (hn : n ∈ entities T) (htie : ¬TieAbove m.sys.entityKey n T) : m.Meets (.dequeue i) := by
  intro context' n' hphase'
  rw [hphase] at hphase'
  obtain ⟨-, hn'⟩ := Phase.left.inj hphase'
  obtain rfl := Option.some.inj hn'
  refine ⟨⟨T, hT, hn⟩, fun T' hT' => ?_⟩
  rwa [holds_unique hT' hT]

/-- A thread can be loaded while no other core has put one back. -/
theorem meets_load {m : Smp} {i : Nat} (h : ∀ j, j ≠ i → (m.cores j).phase.leaving = false) :
    m.Meets (.load i) := by
  intro context n _ j hj hl
  rw [h j hj] at hl
  exact absurd hl (by decide)

def duo₀ : Smp := parked tied₂
def duo₁ : Smp := (duo₀.step (.timer 0 kernelFrame)).get rfl
def duo₂ : Smp := (duo₁.step (.leave 0 0 40)).get rfl
def duo₃ : Smp := (duo₂.step (.dequeue 0)).get rfl
def duo₄ : Smp := (duo₃.step (.timer 1 kernelFrame)).get rfl
def duo₅ : Smp := (duo₄.step (.load 0)).get rfl
def duo₆ : Smp := (duo₅.step (.leave 1 0 50)).get rfl
def duo₇ : Smp := (duo₆.step (.dequeue 1)).get rfl
def duo₈ : Smp := (duo₇.step (.load 1)).get rfl

/-- Two processors take one thread each: the second picks while the first has not loaded its own. -/
theorem smp_sound_duo : (duo₇.cores 0).cpu.thread = some (.thread 100) ∧
    (duo₈.cores 1).cpu.thread = some (.thread 200) ∧
    (duo₈.cores 1).cpu.frame = { duo₇.last 200 with registers.rsp := 0 } := by
  have h₂ : SmpRun Smp.Meets duo₀ duo₂ :=
    .step (.leave 0 0 40) (.step (.timer 0 kernelFrame) .init ⟨trivial, trivial⟩ rfl)
      ⟨⟨rfl, by decide, by decide⟩, trivial⟩ rfl
  have h₃ : SmpRun Smp.Meets duo₀ duo₃ := by
    refine .step (.dequeue 0) h₂ ⟨trivial, ?_⟩ rfl
    have hT : Holds duo₂.sys.cfs.tree
        (.node .nil .black (10, 100) (.node .nil .red (20, 200) .nil)) :=
      ⟨rfl, ⟨rfl, trivial, ⟨rfl, trivial, trivial⟩⟩, by decide⟩
    exact meets_dequeue rfl hT (by decide) (by simp [TieAbove, entities, toList])
  have h₅ : SmpRun Smp.Meets duo₀ duo₅ := by
    refine .step (.load 0) (.step (.timer 1 kernelFrame) h₃ ⟨trivial, trivial⟩ rfl)
      ⟨trivial, meets_load ?_⟩ rfl
    rintro (_ | _ | j) hj
    · exact absurd rfl hj
    · rfl
    · rfl
  have h₇ : SmpRun Smp.Meets duo₀ duo₇ := by
    refine .step (.dequeue 1) (.step (.leave 1 0 50) h₅ ⟨⟨rfl, by decide, by decide⟩, trivial⟩ rfl)
      ⟨trivial, ?_⟩ rfl
    have hT : Holds duo₆.sys.cfs.tree (.node .nil .black (10, 200) .nil) :=
      ⟨rfl, ⟨rfl, trivial, trivial⟩, by decide⟩
    exact meets_dequeue rfl hT (by decide) (by simp [TieAbove, entities, toList])
  have hmeets : duo₇.Meets (.load 1) := by
    refine meets_load ?_
    rintro (_ | _ | j) hj
    · rfl
    · exact absurd rfl hj
    · rfl
  have hstart : duo₀.Start := start_parked (reach_tied₂ fun _ _ => trivial) rfl
  obtain ⟨context, n, hphase, hcpu, hframe⟩ := (smp_sound hstart h₇).2 1 duo₈ hmeets rfl
  have htaken : (duo₇.cores 1).phase = .taken kernelFrame 200 := rfl
  rw [htaken] at hphase
  obtain ⟨rfl, rfl⟩ := Phase.taken.inj hphase
  exact ⟨rfl, hcpu, hframe⟩

def twice₁ : Smp := (idleCores.step (.timer 0 kernelFrame)).get rfl
def twice₂ : Smp := (twice₁.step (.timer 1 kernelFrame)).get rfl
def twice₃ : Smp := (twice₂.step (.leave 0 0 40)).get rfl
def twice₄ : Smp := (twice₃.step (.leave 1 0 40)).get rfl
def twice₅ : Smp := (twice₄.step (.dequeue 0)).get rfl
def twice₆ : Smp := (twice₅.step (.dequeue 1)).get rfl
def twice₇ : Smp := (twice₆.step (.load 0)).get rfl
def twice₈ : Smp := (twice₇.step (.load 1)).get rfl

/-- **Two processors pick the thread before either dequeues it**, and it becomes current on both. -/
theorem smp_picked_twice : idleCores.Start ∧ SmpRun (fun _ _ => True) idleCores twice₈ ∧
    (twice₈.cores 0).cpu.thread = some (.thread 100) ∧
    (twice₈.cores 1).cpu.thread = some (.thread 100) := by
  refine ⟨start_idleCores, ?_, rfl, rfl⟩
  have h₂ : SmpRun (fun _ _ => True) idleCores twice₂ :=
    .step (.timer 1 kernelFrame) (.step (.timer 0 kernelFrame) .init ⟨trivial, trivial⟩ rfl)
      ⟨trivial, trivial⟩ rfl
  have h₄ : SmpRun (fun _ _ => True) idleCores twice₄ :=
    .step (.leave 1 0 40) (.step (.leave 0 0 40) h₂ ⟨⟨rfl, by decide, by decide⟩, trivial⟩ rfl)
      ⟨⟨rfl, by decide, by decide⟩, trivial⟩ rfl
  have h₆ : SmpRun (fun _ _ => True) idleCores twice₆ :=
    .step (.dequeue 1) (.step (.dequeue 0) h₄ ⟨trivial, trivial⟩ rfl) ⟨trivial, trivial⟩ rfl
  exact .step (.load 1) (.step (.load 0) h₆ ⟨trivial, trivial⟩ rfl) ⟨trivial, trivial⟩ rfl

end Colibri.Scheduler

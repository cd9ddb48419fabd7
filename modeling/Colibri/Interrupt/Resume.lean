import Mathlib.Data.Nat.Digits.Defs
import Mathlib.Tactic.FinCases
import Colibri.Interrupt.Isr
import Colibri.Scheduler.Resume

/-!
# Threads do not notice the timer

The frames of `Colibri.Scheduler` hold the saved registers but `rsp` as one number; here that number
is the bytes of the `int_frame_t` in memory (`Frame.toIntFrame`), and the processor is the one of
`Colibri.Interrupt.Isr`. A run interleaves any computation with timer interrupts, new processes and
the end of threads. It carries along with which registers each thread was last interrupted (`seen`),
which the source does not keep.

`threads_resume`: in every run, whenever `iretq` goes on with a thread, all its registers are those it
was last interrupted with.
-/

namespace Colibri.Interrupt

open Colibri.Lib Colibri.Scheduler

/-! ## Frames as numbers -/

/-- The number the words are the digits of. -/
def encode (ws : List (BitVec 64)) : Nat := Nat.ofDigits (2 ^ 64) (ws.map BitVec.toNat)

theorem encode_inj {ws ws' : List (BitVec 64)} (hlen : ws.length = ws'.length)
    (h : encode ws = encode ws') : ws = ws' := by
  have hlt (l : List (BitVec 64)) : ∀ d ∈ l.map BitVec.toNat, d < 2 ^ 64 := by
    intro d hd
    obtain ⟨w, -, rfl⟩ := List.mem_map.mp hd
    exact w.isLt
  refine List.map_injective_iff.mpr (fun a b => BitVec.eq_of_toNat_eq) ?_
  exact Nat.ofDigits_inj_of_len_eq (by decide) (by simpa using hlen) (hlt ws) (hlt ws') h

/-- The fields of `int_frame_t` that `Colibri.Scheduler` takes as one block. -/
def Frame.block (f : Frame) : List (BitVec 64) :=
  f.registers.low ++ f.registers.high ++ [f.vectorNumber, f.errorCode]

/-- The frame of the scheduler's model. -/
def Frame.toIntFrame (f : Frame) : IntFrame where
  registers := ⟨(f.registers.gpr .rsp).toNat, encode f.block⟩
  iretRip := f.iretRip.toNat
  iretCs := f.iretCs.toNat
  iretFlags := f.iretFlags.toNat
  iretRsp := f.iretRsp.toNat
  iretSs := f.iretSs.toNat

/-- The position of a register but `rsp` in the block. -/
def Reg.index : Reg → Nat
  | .r15 => 1 | .r14 => 2 | .r13 => 3 | .r12 => 4 | .r11 => 5 | .r10 => 6 | .r9 => 7 | .r8 => 8
  | .rdi => 9 | .rsi => 10 | .rbp => 11 | .rbx => 12 | .rdx => 13 | .rcx => 14 | .rax => 15
  | .rsp => 0

theorem gpr_eq_getD (f : Frame) {i : Reg} (h : i ≠ .rsp) :
    f.registers.gpr i = f.block.getD i.index 0 := by
  cases i <;> first | rfl | exact absurd rfl h

theorem xmm_eq_getD (f : Frame) (x : Fin 16) :
    f.registers.xmm x = ⟨f.block.getD (16 + 2 * x) 0, f.block.getD (17 + 2 * x) 0⟩ := by
  fin_cases x <;> rfl

/-- Two frames with one block. -/
theorem Frame.block_inj {f g : Frame} (hblock : f.block = g.block)
    (hrsp : f.registers.gpr .rsp = g.registers.gpr .rsp) :
    f.registers = g.registers ∧ f.vectorNumber = g.vectorNumber ∧ f.errorCode = g.errorCode := by
  have hget (i : Nat) : f.block.getD i 0 = g.block.getD i 0 := by rw [hblock]
  refine ⟨Registers.ext (hget 0) ?_ ?_, hget 48, hget 49⟩
  · funext i
    by_cases hi : i = .rsp
    · rw [hi, hrsp]
    · rw [gpr_eq_getD f hi, gpr_eq_getD g hi, hblock]
  · funext x
    rw [xmm_eq_getD f, xmm_eq_getD g, hblock]

theorem toIntFrame_inj {f g : Frame} (h : f.toIntFrame = g.toIntFrame) : f = g := by
  have hrsp := BitVec.eq_of_toNat_eq (congrArg (fun x => x.registers.rsp) h)
  have hblock : f.block = g.block := encode_inj rfl (congrArg (fun x => x.registers.saved) h)
  obtain ⟨hregs, hvec, herr⟩ := Frame.block_inj hblock hrsp
  exact Frame.ext hregs hvec herr (BitVec.eq_of_toNat_eq (congrArg IntFrame.iretRip h))
    (BitVec.eq_of_toNat_eq (congrArg IntFrame.iretCs h))
    (BitVec.eq_of_toNat_eq (congrArg IntFrame.iretFlags h))
    (BitVec.eq_of_toNat_eq (congrArg IntFrame.iretRsp h))
    (BitVec.eq_of_toNat_eq (congrArg IntFrame.iretSs h))

theorem Frame.block_eq (f : Frame) : f.block = f.words.take 12 ++ (f.words.drop 13).take 38 := rfl

/-- Two frames with the same bytes are the same. -/
theorem words_inj {f g : Frame} (h : f.words = g.words) : f = g := by
  have hget (i : Nat) : f.words.getD i 0 = g.words.getD i 0 := by rw [h]
  obtain ⟨hregs, hvec, herr⟩ :=
    Frame.block_inj (by rw [Frame.block_eq, Frame.block_eq, h]) (hget 12)
  exact Frame.ext hregs hvec herr (hget 51) (hget 52) (hget 53) (hget 54) (hget 55)

/-- The frame with another `registers.rsp`. -/
def Frame.withRsp (f : Frame) (w : BitVec 64) : Frame :=
  { f with registers.gpr := Function.update f.registers.gpr .rsp w }

theorem toIntFrame_withRsp (f : Frame) (w : BitVec 64) :
    (f.withRsp w).toIntFrame = { f.toIntFrame with registers.rsp := w.toNat } := by
  simp [Frame.withRsp, Frame.toIntFrame, Frame.block, Registers.low, Registers.high]

/-- The frame differs from another one in `registers.rsp` only. -/
theorem toIntFrame_setRsp {f g : Frame} {w : BitVec 64}
    (h : f.toIntFrame = { g.toIntFrame with registers.rsp := w.toNat }) :
    f.registers.gpr .rsp = w ∧ f.context = g.context := by
  have hset : f = g.withRsp w := toIntFrame_inj (h.trans (toIntFrame_withRsp g w).symm)
  rw [hset, Frame.withRsp]
  constructor
  · simp
  · unfold Frame.context
    simp

/-! ## Runs -/

/-- The scheduler's data, the processor, and the registers each thread was last interrupted with. -/
structure Kernel where
  sys : System
  cpu : Machine
  seen : Addr → Context

/-- What a new thread starts with. -/
def newContext (nt : NewThread) : Context where
  gpr := Function.update (fun _ => 0) .rsp (BitVec.ofNat 64 nt.stackEnd)
  xmm := fun _ => ⟨0, 0⟩
  rip := BitVec.ofNat 64 nt.entry
  cs := BitVec.ofNat 64 userCs
  rflags := 0x202
  ss := BitVec.ofNat 64 userSs

/-- What happens, with the values the environment supplies. `compute` is what the program or the
kernel does between two interrupts. `f` is the frame that `schedule` finds at the address it is given,
and `m` the machine when `interrupt_dispatch` has returned. -/
inductive Event where
  | compute (m : Machine)
  | spawn (p v : Addr) (root : Nat) (ts : List NewThread) (rs : List (Nat × Addr))
  | die
  | timer (now : Nat) (run : Addr) (rsp0 handler ret : BitVec 64) (f : Frame) (m : Machine)

/-- `APIC_TIMER_INTERRUPT`. -/
def apicTimerInterrupt : Nat := 0x40

/-- The registers seen last, when the thread that runs is interrupted. -/
def Kernel.interrupt (x : Kernel) : Addr → Context :=
  match x.sys.cpu.thread with
  | some (.thread t) => Function.update x.seen t x.cpu.toContext
  | _ => x.seen

def Kernel.step (x : Kernel) : Event → Option Kernel
  | .compute m => some { x with cpu := m }
  | .spawn p v root ts rs => (Scheduler.step x.sys (.spawn p v root ts rs)).map fun s =>
    let seen := ts.foldl (fun c nt => Function.update c nt.addr (newContext nt)) x.seen
    { x with sys := s, seen }
  | .die => x.sys.die.map fun s => { x with sys := s }
  | .timer now run _ _ _ f m => (x.sys.timer now run f.toIntFrame).map fun s =>
    { sys := s, cpu := isrExit m, seen := x.interrupt }

/-- The machine `interrupt_dispatch` is entered with. -/
abbrev Kernel.entry (x : Kernel) (rsp0 handler ret : BitVec 64) : Machine :=
  interruptEntry rsp0 handler ret apicTimerInterrupt none x.cpu

/-- What the environment guarantees: that of `Colibri.Scheduler.Valid` for new processes, addresses
that are `u64` values, room on the stack, and that `schedule` leaves in memory the frame it computes
from the one it finds there. -/
def Kernel.ok (x : Kernel) : Event → Prop
  | .spawn p v root ts rs => Valid x.sys (.spawn p v root ts rs) ∧
    ∀ nt ∈ ts, nt.entry < 2 ^ 64 ∧ nt.stackEnd < 2 ^ 64
  | .timer now run rsp0 handler ret f m =>
    frameSize + 8 ≤ (x.cpu.deliveryStack rsp0).toNat ∧
      (x.entry rsp0 handler ret).mem.HasWords ((x.entry rsp0 handler ret).gpr .rdi).toNat f.words ∧
      m.gpr .rax = (x.entry rsp0 handler ret).gpr .rdi ∧
      ∀ s frame, x.sys.schedule now run f.toIntFrame = some (s, frame) → ∃ f' : Frame,
        f'.toIntFrame = frame ∧
        m.mem.HasWords ((x.entry rsp0 handler ret).gpr .rdi).toNat f'.words
  | _ => True

/-- The saved frame of every thread that does not run holds the registers it was last interrupted
with. -/
def Kernel.Inv (x : Kernel) : Prop :=
  ∃ g : Addr → Frame, (∀ t, (g t).context = x.seen t) ∧ Saved x.sys fun t => (g t).toIntFrame

section Steps

variable {x x' : Kernel} {g : Addr → Frame}

theorem toIntFrame_update (t : Addr) (f : Frame) :
    (fun u => (Function.update g t f u).toIntFrame) =
      Function.update (fun u => (g u).toIntFrame) t f.toIntFrame := by
  funext u
  by_cases hu : u = t
  · rw [hu, Function.update_self, Function.update_self]
  · rw [Function.update_of_ne hu, Function.update_of_ne hu]

theorem context_update {c : Addr → Context} (hg : ∀ t, (g t).context = c t) (t : Addr) (f : Frame)
    (u : Addr) : (Function.update g t f u).context = Function.update c t f.context u := by
  by_cases hu : u = t
  · rw [hu, Function.update_self, Function.update_self]
  · rw [Function.update_of_ne hu, Function.update_of_ne hu, hg]

/-- The frame `add_thread` builds. -/
def newFrame (nt : NewThread) : Frame where
  registers := ⟨0, fun _ => 0, fun _ => ⟨0, 0⟩⟩
  vectorNumber := 0
  errorCode := 0
  iretRip := BitVec.ofNat 64 nt.entry
  iretCs := BitVec.ofNat 64 userCs
  iretFlags := 0x202
  iretRsp := BitVec.ofNat 64 nt.stackEnd
  iretSs := BitVec.ofNat 64 userSs

theorem newFrame_context (nt : NewThread) : (newFrame nt).context = newContext nt := rfl

theorem toIntFrame_newFrame {nt : NewThread} (p : Addr) (he : nt.entry < 2 ^ 64)
    (hs : nt.stackEnd < 2 ^ 64) : (newFrame nt).toIntFrame = (nt.init p).context := by
  have hentry : (newFrame nt).iretRip.toNat = nt.entry := Nat.mod_eq_of_lt he
  have hstack : (newFrame nt).iretRsp.toNat = nt.stackEnd := Nat.mod_eq_of_lt hs
  have hblock : encode (newFrame nt).block = 0 := by
    show encode (List.replicate 50 0) = 0
    decide
  unfold Frame.toIntFrame
  rw [hentry, hstack, hblock]
  rfl

/-- The frames of new threads, in front of others. -/
theorem spawn_frames {p : Addr} {ts : List NewThread} {c : Addr → Context}
    (hg : ∀ t, (g t).context = c t) (hts : ∀ nt ∈ ts, nt.entry < 2 ^ 64 ∧ nt.stackEnd < 2 ^ 64) :
    ∃ g' : Addr → Frame,
      (∀ t, (g' t).context =
        ts.foldl (fun c nt => Function.update c nt.addr (newContext nt)) c t) ∧
      ts.foldl (fun m nt => Function.update m nt.addr (nt.init p).context)
        (fun t => (g t).toIntFrame) = fun t => (g' t).toIntFrame := by
  induction ts generalizing g c with
  | nil => exact ⟨g, hg, rfl⟩
  | cons nt ts ih =>
    obtain ⟨⟨he, hs⟩, hrest⟩ := List.forall_mem_cons.mp hts
    have hframe := toIntFrame_newFrame p he hs
    have hupd : ∀ t, (Function.update g nt.addr (newFrame nt) t).context =
        Function.update c nt.addr (newContext nt) t := context_update hg nt.addr (newFrame nt)
    obtain ⟨g', hg', hlast⟩ := ih hupd hrest
    refine ⟨g', hg', ?_⟩
    rw [List.foldl_cons, ← hframe, ← toIntFrame_update]
    exact hlast

theorem Kernel.step_timer {now : Nat} {run : Addr} {rsp0 handler ret : BitVec 64} {f : Frame}
    {m : Machine} {s : System} (h : x.sys.timer now run f.toIntFrame = some s) :
    x.step (.timer now run rsp0 handler ret f m) = some ⟨s, isrExit m, x.interrupt⟩ := by
  rw [Kernel.step, h]
  rfl

/-- The frame of a timer interrupt. -/
def Machine.timerFrame (m : Machine) (rsp0 : BitVec 64) : Frame :=
  m.saved (m.frameAddr rsp0) apicTimerInterrupt none

/-- It is where `interrupt_dispatch` is told that it is. -/
theorem entry_frame {rsp0 handler ret : BitVec 64}
    (hroom : frameSize + 8 ≤ (x.cpu.deliveryStack rsp0).toNat) :
    ((x.entry rsp0 handler ret).gpr .rdi).toNat = x.cpu.frameAddr rsp0 ∧
      (x.entry rsp0 handler ret).mem.HasWords ((x.entry rsp0 handler ret).gpr .rdi).toNat
        (x.cpu.timerFrame rsp0).words := by
  have herr : (none : Option (BitVec 64)).isSome ↔ apicTimerInterrupt ∈ errVectors := by decide
  have hrdi := @interruptEntry_rdi rsp0 handler ret _ none x.cpu hroom herr
  have hwords := @interruptEntry_words rsp0 handler ret _ none x.cpu hroom herr
  have hlt : x.cpu.frameAddr rsp0 < 2 ^ 64 :=
    (Nat.sub_le _ _).trans_lt (x.cpu.deliveryStack rsp0).isLt
  have haddr : ((x.entry rsp0 handler ret).gpr .rdi).toNat = x.cpu.frameAddr rsp0 := by
    rw [hrdi, BitVec.toNat_ofNat, Nat.mod_eq_of_lt hlt]
  rw [haddr]
  exact ⟨rfl, hwords⟩

/-- The timer interrupt sees the frame of the program it interrupts. -/
theorem timer_frame {rsp0 handler ret : BitVec 64} {f : Frame}
    (hroom : frameSize + 8 ≤ (x.cpu.deliveryStack rsp0).toNat)
    (hf : (x.entry rsp0 handler ret).mem.HasWords ((x.entry rsp0 handler ret).gpr .rdi).toNat
      f.words) :
    ((x.entry rsp0 handler ret).gpr .rdi).toNat = x.cpu.frameAddr rsp0 ∧
      f = x.cpu.timerFrame rsp0 := by
  obtain ⟨haddr, hwords⟩ := @entry_frame x rsp0 handler ret hroom
  exact ⟨haddr, words_inj (hf.eq hwords (by rw [Frame.length_words, Frame.length_words]))⟩

/-- The machine after an `interrupt_dispatch` that was entered with `e` and has stored `f` in the
place of the frame. -/
def dispatched (e : Machine) (f : Frame) : Machine :=
  { e.set .rax (e.gpr .rdi) with mem := e.mem.storeWords (e.gpr .rdi).toNat f.words }

theorem dispatched_rax (e : Machine) (f : Frame) : (dispatched e f).gpr .rax = e.gpr .rdi :=
  set_gpr_self

theorem dispatched_words (e : Machine) (f : Frame) :
    (dispatched e f).mem.HasWords (e.gpr .rdi).toNat f.words :=
  Mem.hasWords_storeWords

/-- A timer interrupt whose handler stores the frame that `schedule` computes. -/
theorem Kernel.ok_timer {now : Nat} {run : Addr} {rsp0 handler ret : BitVec 64} {s : System}
    {f' : Frame} (hroom : frameSize + 8 ≤ (x.cpu.deliveryStack rsp0).toNat)
    (htimer : x.sys.timer now run (x.cpu.timerFrame rsp0).toIntFrame = some s)
    (hf' : f'.toIntFrame = s.cpu.frame) :
    x.ok (.timer now run rsp0 handler ret (x.cpu.timerFrame rsp0)
      (dispatched (x.entry rsp0 handler ret) f')) := by
  refine ⟨hroom, (entry_frame hroom).2, dispatched_rax _ _, fun s' frame hs' => ⟨f', ?_, ?_⟩⟩
  · rw [System.timer, hs'] at htimer
    rw [hf', ← Option.some.inj htimer]
  · exact dispatched_words _ _

theorem interrupt_thread {t : Addr} (h : x.sys.cpu.thread = some (.thread t)) :
    x.interrupt = Function.update x.seen t x.cpu.toContext := by
  rw [Kernel.interrupt, h]

/-- The frames of the threads after an interrupt. -/
theorem interrupt_frames (now : Nat) (run : Addr) {f : Frame}
    (hg : ∀ t, (g t).context = x.seen t) (hf : f.context = x.cpu.toContext) : ∃ g' : Addr → Frame,
      (∀ t, (g' t).context = x.interrupt t) ∧
        interrupted x.sys (fun t => (g t).toIntFrame) (.timer now run f.toIntFrame) =
          fun t => (g' t).toIntFrame := by
  unfold Kernel.interrupt
  rcases hcur : x.sys.cpu.thread with - | - | t
  · exact ⟨g, hg, interrupted_timer_idle (.inl hcur)⟩
  · exact ⟨g, hg, interrupted_timer_idle (.inr hcur)⟩
  · refine ⟨Function.update g t f, fun u => ?_, ?_⟩
    · rw [context_update hg, hf]
    · rw [interrupted_timer hcur, toIntFrame_update]

/-- **A timer interrupt.** It keeps the invariant, and if a thread runs afterwards then with the
registers it was last interrupted with. -/
theorem Kernel.Inv.timer {now : Nat} {run : Addr} {rsp0 handler ret : BitVec 64} {f : Frame}
    {m : Machine} (hx : x.Inv) (hok : x.ok (.timer now run rsp0 handler ret f m))
    (hstep : x.step (.timer now run rsp0 handler ret f m) = some x') :
    x'.Inv ∧ ∀ t, x'.sys.cpu.thread = some (.thread t) → x'.cpu.toContext = x'.seen t := by
  obtain ⟨g, hg, hsaved⟩ := hx
  obtain ⟨hroom, hf, hrax, hleft⟩ := hok
  obtain ⟨haddr, hfr⟩ := timer_frame hroom hf
  obtain ⟨s, hs, rfl⟩ := Option.map_eq_some_iff.mp hstep
  simp only [System.timer, Option.bind_eq_bind, Option.bind_eq_some_iff] at hs
  obtain ⟨⟨s₁, frame⟩, hsched, hs⟩ := hs
  obtain rfl := Option.some.inj hs
  obtain ⟨f', hf', hwords⟩ := hleft s₁ frame hsched
  obtain ⟨hsaved', hcur⟩ := hsaved.schedule hsched
  obtain ⟨g', hg', hlast⟩ := interrupt_frames now run hg
    (hfr ▸ saved_context : f.context = x.cpu.toContext)
  rw [hlast] at hsaved' hcur
  refine ⟨⟨g', hg', hsaved'⟩, fun t ht => ?_⟩
  -- the frame in memory is the thread's, with the stack pointer of the interrupted program
  obtain ⟨hrsp, hctx⟩ := toIntFrame_setRsp (hf'.trans (hcur t ht))
  rw [hfr, Machine.timerFrame, saved_rsp] at hrsp
  have hrdi : (x.entry rsp0 handler ret).gpr .rdi = BitVec.ofNat 64 (x.cpu.frameAddr rsp0) := by
    rw [← haddr, BitVec.ofNat_toNat, BitVec.setWidth_eq]
  rw [haddr] at hwords
  have hexit := isrExit_frame (by omega) (hrax.trans hrdi) hwords hrsp
  show (isrExit m).toContext = x.interrupt t
  rw [hexit, ← hg' t]
  exact hctx

theorem Kernel.Inv.step {e : Event} (hx : x.Inv) (hok : x.ok e) (hstep : x.step e = some x') :
    x'.Inv := by
  cases e with
  | compute m =>
    obtain rfl := Option.some.inj hstep
    exact hx
  | spawn p v root ts rs =>
    obtain ⟨g, hg, hsaved⟩ := hx
    obtain ⟨s, hs, rfl⟩ := Option.map_eq_some_iff.mp hstep
    obtain ⟨g', hg', hlast⟩ := spawn_frames (p := p) hg hok.2
    have hsaved' := hsaved.spawn hok.1 hs
    rw [interrupted, hlast] at hsaved'
    exact ⟨g', hg', hsaved'⟩
  | die =>
    obtain ⟨g, hg, hsaved⟩ := hx
    obtain ⟨s, hs, rfl⟩ := Option.map_eq_some_iff.mp hstep
    exact ⟨g, hg, hsaved.die hs⟩
  | timer now run rsp0 handler ret f m => exact (hx.timer hok hstep).1

end Steps

/-- The state in which the first program is interrupted. -/
def Kernel.boot (kernelRoot idleRip rsp0 : Nat) (regs : Scheduler.Registers) (cpu : Machine)
    (seen : Addr → Context) : Kernel := ⟨.boot kernelRoot idleRip rsp0 regs, cpu, seen⟩

/-- A frame of a program with these registers. -/
def frameOf (c : Context) : Frame where
  registers := ⟨0, c.gpr, c.xmm⟩
  vectorNumber := 0
  errorCode := 0
  iretRip := c.rip
  iretCs := c.cs
  iretFlags := c.rflags
  iretRsp := c.gpr .rsp
  iretSs := c.ss

theorem frameOf_context (c : Context) : (frameOf c).context = c := by
  unfold Frame.context frameOf
  rw [Function.update_eq_self]

theorem Kernel.inv_boot {kernelRoot idleRip rsp0 : Nat} {regs : Scheduler.Registers} {cpu : Machine}
    {seen : Addr → Context} : (Kernel.boot kernelRoot idleRip rsp0 regs cpu seen).Inv :=
  ⟨fun t => frameOf (seen t), fun t => frameOf_context (seen t), fun t th ht => by
    exact absurd ht (by simp [Kernel.boot, System.boot])⟩

/-- **Threads do not notice the timer.** In every run of computations, timer interrupts, new
processes and ends of threads: whenever `iretq` goes on with a thread, every general register, every
`xmm` register, `rip`, `rflags` and the selectors are those the thread was last interrupted with, or
for a new thread its entry point, its stack and zeros. -/
theorem threads_resume {kernelRoot idleRip r now : Nat} {regs : Scheduler.Registers} {cpu : Machine}
    {seen : Addr → Context} {x x' : Kernel} {run : Addr} {rsp0 handler ret : BitVec 64} {f : Frame}
    {m : Machine} (hrun : Run Kernel.step Kernel.ok (.boot kernelRoot idleRip r regs cpu seen) x)
    (hok : x.ok (.timer now run rsp0 handler ret f m))
    (hstep : x.step (.timer now run rsp0 handler ret f m) = some x') :
    ∀ t, x'.sys.cpu.thread = some (.thread t) → x'.cpu.toContext = x'.seen t := by
  have hinv : x.Inv := hrun.invariant Kernel.Inv Kernel.inv_boot
    fun _ _ _ hx hok hstep => hx.step hok hstep
  exact (hinv.timer hok hstep).2

/-! ## Two threads -/

/-- A processor in the kernel's own code. -/
def idleProgram : Machine :=
  { userProgram with cs := 0x8, ss := 0x10, gpr := fun _ => 0xFFFFFFFF80204000 }

/-- Another program than `userProgram`. -/
def otherProgram : Machine := { userProgram with gpr := fun _ => 9, rip := 0x500000 }

/-- The thread of `spawnOne i`. -/
def oneThread (i : Nat) : NewThread := ⟨100 * i, 0, 0, 0, 0, 0, 0⟩

/-- A timer interrupt, and then what the program does that it goes on with. -/
theorem run_timer {x₀ x : Kernel} {now : Nat} {run : Addr} {rsp0 : BitVec 64} {s : System}
    {f' : Frame} (hrun : Run Kernel.step Kernel.ok x₀ x)
    (hroom : frameSize + 8 ≤ (x.cpu.deliveryStack rsp0).toNat)
    (htimer : x.sys.timer now run (x.cpu.timerFrame rsp0).toIntFrame = some s)
    (hf' : f'.toIntFrame = s.cpu.frame) (m : Machine) :
    Run Kernel.step Kernel.ok x₀ ⟨s, m, x.interrupt⟩ :=
  .step (.compute m) (.step (.timer now run rsp0 0 0 _ _) hrun (Kernel.ok_timer hroom htimer hf')
    (Kernel.step_timer htimer)) trivial rfl

/-- Of two threads with one `vruntime` each timer interrupt starts or resumes the other. -/
theorem timer_tied₂ (c₀ c₁ c₂ : IntFrame) : ∃ s₁ s₂ s₃, tied₂.timer 0 40 c₀ = some s₁ ∧
    s₁.timer 1 50 c₁ = some s₂ ∧ s₂.timer 2 60 c₂ = some s₃ ∧
    (s₁.cpu.thread = some (.thread 100) ∧
      s₁.cpu.frame = { ((oneThread 1).init 1).context with registers.rsp := c₀.registers.rsp }) ∧
    (s₂.cpu.thread = some (.thread 200) ∧
      s₂.cpu.frame = { ((oneThread 2).init 2).context with registers.rsp := c₁.registers.rsp }) ∧
    s₃.cpu.thread = some (.thread 100) ∧
      s₃.cpu.frame = { c₁ with registers.rsp := c₂.registers.rsp } :=
  ⟨_, _, _, rfl, rfl, rfl, ⟨rfl, rfl⟩, ⟨rfl, rfl⟩, rfl, rfl⟩

/-- The second thread is started in place of the first, which the third interrupt resumes. -/
theorem threads_resume_two : ∃ x x' f m,
    Run Kernel.step Kernel.ok (.boot 0x9000 0 0 ⟨0, 0⟩ idleProgram fun _ => otherProgram.toContext) x ∧
      x.step (.timer 2 60 userRsp0 0 0 f m) = some x' ∧ x.sys.cpu.thread = some (.thread 200) ∧
        x'.sys.cpu.thread = some (.thread 100) ∧ x'.cpu.toContext = userProgram.toContext := by
  let f₀ := idleProgram.timerFrame 0
  let f₁ := userProgram.timerFrame userRsp0
  let f₂ := otherProgram.timerFrame userRsp0
  obtain ⟨s₁, s₂, s₃, ht₁, ht₂, ht₃, ⟨hc₁, hf₁⟩, ⟨hc₂, hf₂⟩, hc₃, hf₃⟩ :=
    timer_tied₂ f₀.toIntFrame f₁.toIntFrame f₂.toIntFrame
  have hidle : frameSize + 8 ≤ (idleProgram.deliveryStack 0).toNat := by decide
  have huser : frameSize + 8 ≤ (userProgram.deliveryStack userRsp0).toNat := by decide
  have hother : frameSize + 8 ≤ (otherProgram.deliveryStack userRsp0).toNat := by decide
  -- each interrupt is followed by what the thread that it starts does
  let x₂ : Kernel := ⟨tied₂, idleProgram, Function.update (Function.update
    (fun _ => otherProgram.toContext) 100 (newContext (oneThread 1))) 200 (newContext (oneThread 2))⟩
  let x₃ : Kernel := ⟨s₁, userProgram, x₂.interrupt⟩
  let x₄ : Kernel := ⟨s₂, otherProgram, x₃.interrupt⟩
  have hrun₂ : Run Kernel.step Kernel.ok
      (.boot 0x9000 0 0 ⟨0, 0⟩ idleProgram fun _ => otherProgram.toContext) x₂ := by
    refine .step (.spawn 2 12 0x2000 [oneThread 2] [(0, 20)])
      (.step (.spawn 1 11 0x1000 [oneThread 1] [(0, 10)]) .init ⟨?_, by decide⟩ rfl)
      ⟨valid_tied₁, by decide⟩ rfl
    exact valid_spawnOne rfl rfl (by decide) (fun w => nofun) rfl ⟨rfl, by decide, by decide⟩ rfl
  have hframe₁ : ((newFrame (oneThread 1)).withRsp (f₀.registers.gpr .rsp)).toIntFrame =
      s₁.cpu.frame := by
    rw [toIntFrame_withRsp, toIntFrame_newFrame 1 (by decide) (by decide), hf₁]
    rfl
  have hframe₂ : ((newFrame (oneThread 2)).withRsp (f₁.registers.gpr .rsp)).toIntFrame =
      s₂.cpu.frame := by
    rw [toIntFrame_withRsp, toIntFrame_newFrame 2 (by decide) (by decide), hf₂]
    rfl
  have hframe₃ : (f₁.withRsp (f₂.registers.gpr .rsp)).toIntFrame = s₃.cpu.frame := by
    rw [toIntFrame_withRsp, hf₃]
    rfl
  have hrun₃ : Run Kernel.step Kernel.ok
      (.boot 0x9000 0 0 ⟨0, 0⟩ idleProgram fun _ => otherProgram.toContext) x₃ :=
    run_timer hrun₂ hidle ht₁ hframe₁ userProgram
  have hrun₄ : Run Kernel.step Kernel.ok
      (.boot 0x9000 0 0 ⟨0, 0⟩ idleProgram fun _ => otherProgram.toContext) x₄ :=
    run_timer hrun₃ huser ht₂ hframe₂ otherProgram
  have hok₄ : x₄.ok (.timer 2 60 userRsp0 0 0 f₂ _) := Kernel.ok_timer hother ht₃ hframe₃
  have hresumed := threads_resume hrun₄ hok₄ (Kernel.step_timer ht₃) 100 hc₃
  refine ⟨x₄, _, _, _, hrun₄, Kernel.step_timer ht₃, hc₂, hc₃, hresumed.trans ?_⟩
  have hseen₄ : x₄.interrupt = Function.update x₃.interrupt 200 otherProgram.toContext :=
    interrupt_thread hc₂
  have hseen₃ : x₃.interrupt = Function.update x₂.interrupt 100 userProgram.toContext :=
    interrupt_thread hc₁
  show x₄.interrupt 100 = userProgram.toContext
  rw [hseen₄, hseen₃, Function.update_of_ne (by decide), Function.update_self]

end Colibri.Interrupt

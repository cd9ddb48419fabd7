import Mathlib.Data.BitVec
import Colibri.Lib.Run

/-!
# `push_off`, `pop_off` and the interrupt flag

Model of `push_off` and `pop_off` of `kernel/kernel.c` on one processor, with what `acquire` and
`release` of `kernel/synchronization/spinlock.c` make of them, and of how the processor delivers an
interrupt through the gates `set_idt_entry` builds.

`int_on` is a copy of the interrupt flag that only `push_off` and `pop_off` keep up to date. The
processor clears the flag by itself when it enters a handler.

* The state holds the lock words, and the other processors may change them between two steps. A
  call of `acquire` is one step here: the one in which it returns.
* `opened` and `handlers` are not in the source. They record the interrupt flag right before each
  `push_off` that is still open, and the calls of handlers that have not returned, so that a run can
  be required to nest its calls properly.
-/

namespace Colibri.Sync

open Colibri.Lib

/-- The interrupt flag of a processor, and what its `cpu_status_t` says about it. -/
structure Cpu where
  iFlag : Bool
  intOn : Bool
  pushOffCount : BitVec 32
  deriving DecidableEq, Repr

/-- `push_off`. -/
def Cpu.pushOff (c : Cpu) : Cpu :=
  let c := if c.intOn then { c with intOn := false, iFlag := false } else c
  { c with pushOffCount := c.pushOffCount + 1 }

/-- `pop_off`; `none` is its panic. -/
def Cpu.popOff (c : Cpu) : Option Cpu :=
  if c.intOn then none
  else
    let c := { c with pushOffCount := c.pushOffCount - 1 }
    some (if c.pushOffCount = 0 then { c with intOn := true, iFlag := true } else c)

/-- A processor as `ap_init.S` and `boot.S` leave it: interrupts are off, and `cpu_status` is
zero. -/
def Cpu.reset : Cpu := ⟨false, false, 0⟩

/-- A processor after its `ap_startup` or `bsp_startup`, which are enclosed in `push_off` and
`pop_off`. -/
def Cpu.started : Cpu := ((Cpu.reset.pushOff).popOff).getD Cpu.reset

theorem started_eq : Cpu.started = ⟨true, true, 0⟩ := by decide

/-! ## Gates -/

/-- `FLAGS_DPL`, `FLAGS_GATE_TYPE`, and the `flags` of the descriptor `set_idt_entry` writes. -/
def flagsDpl (x : Nat) : Nat := x <<< 5
def flagsGateType (x : Nat) : Nat := x
def setIdtEntry (flags : Nat) : Nat := flags ||| 0x80

/-- The `flags` of every descriptor the kernel installs: `load_idt`, `enable_lapic`, the keyboard,
and both timers pass the same ones. -/
def idtFlags : Nat := setIdtEntry (flagsDpl 0 ||| flagsGateType 0xE)

/-- The interrupt flag after the processor went through a gate with the given `flags`: gates of
type `0xE` clear it, those of type `0xF` do not. -/
def gateFlag (flags : Nat) (iFlag : Bool) : Bool := if flags % 16 = 0xE then false else iFlag

theorem gateFlag_idtFlags (iFlag : Bool) : gateFlag idtFlags iFlag = false := by
  unfold gateFlag
  exact if_pos (by decide)

/-! ## Executions -/

/-- `spinlock_t`. -/
structure Spinlock where
  held : Bool
  cpuId : Nat
  deriving DecidableEq, Repr

/-- A handler that has not returned: the interrupt flag in its frame, and how many `push_off` were
open when it was entered. -/
structure Handler where
  iFlag : Bool
  opened : Nat
  deriving DecidableEq, Repr

/-- The processor `id` in the middle of an execution. -/
structure Exec where
  id : Nat
  cpu : Cpu
  locks : Nat → Spinlock
  opened : List Bool
  handlers : List Handler

/-- What can happen. Vectors below 32 are exceptions, which the interrupt flag does not hold
back. -/
inductive Action where
  | pushOff
  | popOff
  | acquire (l : Nat)
  | release (l : Nat)
  | interrupt (vector : Nat)
  | iretq
  | others (l : Nat) (lock : Spinlock)
  deriving DecidableEq, Repr

namespace Exec

/-- `holding`. -/
def holding (s : Exec) (l : Nat) : Bool := (s.locks l).held && (s.locks l).cpuId == s.id

/-- A call of `push_off`. -/
def pushOff (s : Exec) : Exec :=
  { s with cpu := s.cpu.pushOff, opened := s.cpu.iFlag :: s.opened }

/-- A call of `pop_off`. -/
def popOff (s : Exec) : Option Exec :=
  s.cpu.popOff.map fun c => { s with cpu := c, opened := s.opened.tail }

/-- `acquire`, when it returns; `none` is its panic. -/
def acquire (s : Exec) (l : Nat) : Option Exec :=
  let s := s.pushOff
  if s.holding l then none
  else some { s with locks := Function.update s.locks l ⟨true, s.id⟩ }

/-- `release`. -/
def release (s : Exec) (l : Nat) : Option Exec :=
  popOff { s with locks := Function.update s.locks l ⟨false, 0⟩ }

/-- The processor enters a handler. -/
def interrupt (s : Exec) : Exec :=
  { s with
    cpu := { s.cpu with iFlag := gateFlag idtFlags s.cpu.iFlag }
    handlers := ⟨s.cpu.iFlag, s.opened.length⟩ :: s.handlers }

/-- `iretq`. -/
def iretq (s : Exec) : Option Exec :=
  match s.handlers with
  | [] => none
  | h :: hs => some { s with cpu := { s.cpu with iFlag := h.iFlag }, handlers := hs }

/-- The effect of an action. -/
def step (s : Exec) : Action → Option Exec
  | .pushOff => some s.pushOff
  | .popOff => s.popOff
  | .acquire l => s.acquire l
  | .release l => s.release l
  | .interrupt _ => some s.interrupt
  | .iretq => s.iretq
  | .others l lock => some { s with locks := Function.update s.locks l lock }

/-- How many `push_off` the running handler found open. -/
def base (s : Exec) : Nat := (s.handlers.head?.map (·.opened)).getD 0

/-- **Proper nesting**, and that an interrupt that is no exception needs the interrupt flag. A
`pop_off` closes a `push_off` of the same handler, and a handler returns when its own are closed. -/
def Valid (s : Exec) : Action → Prop
  | .popOff | .release _ => s.base < s.opened.length
  | .interrupt vector => 32 ≤ vector → s.cpu.iFlag = true
  | .iretq => s.handlers ≠ [] ∧ s.opened.length = s.base
  | _ => True

/-- The processor `id` after its startup. -/
def boot (id : Nat) (locks : Nat → Spinlock) : Exec := ⟨id, Cpu.started, locks, [], []⟩

end Exec

/-- The actions that close a `push_off`. -/
def Action.closes : Action → Bool
  | .popOff | .release _ => true
  | _ => false

/-- The actions that open one. -/
def Action.opens : Action → Bool
  | .pushOff | .acquire _ => true
  | _ => false

/-! ## What the operations do -/

theorem Cpu.pushOff_count (c : Cpu) : c.pushOff.pushOffCount = c.pushOffCount + 1 := by
  unfold Cpu.pushOff
  split <;> rfl

/-- `push_off` never sets the interrupt flag. -/
theorem Cpu.pushOff_iFlag {c : Cpu} (h : c.iFlag = false) : c.pushOff.iFlag = false := by
  unfold Cpu.pushOff
  split
  · rfl
  · exact h

/-- **What `pop_off` does.** It sets the interrupt flag exactly when its count gets to zero. -/
theorem Cpu.popOff_eq {c c' : Cpu} (h : c.popOff = some c') :
    c.intOn = false ∧
      ((c.pushOffCount - 1 = 0 ∧ c' = ⟨true, true, c.pushOffCount - 1⟩) ∨
        (c.pushOffCount - 1 ≠ 0 ∧ c' = { c with pushOffCount := c.pushOffCount - 1 })) := by
  unfold Cpu.popOff at h
  split at h
  · exact absurd h (by simp)
  · rename_i hon
    obtain rfl := Option.some.inj h
    refine ⟨by simpa using hon, ?_⟩
    by_cases h0 : c.pushOffCount - 1 = 0
    · exact .inl ⟨h0, if_pos h0⟩
    · exact .inr ⟨h0, if_neg h0⟩

theorem Cpu.popOff_count {c c' : Cpu} (h : c.popOff = some c') :
    c'.pushOffCount = c.pushOffCount - 1 := by
  obtain ⟨-, ⟨-, rfl⟩ | ⟨-, rfl⟩⟩ := Cpu.popOff_eq h <;> rfl

namespace Exec

theorem popOff_eq {s s' : Exec} (h : s.popOff = some s') :
    ∃ c, s.cpu.popOff = some c ∧ s' = { s with cpu := c, opened := s.opened.tail } := by
  obtain ⟨c, hc, rfl⟩ := Option.map_eq_some_iff.mp h
  exact ⟨c, hc, rfl⟩

/-- **What an action does**, by what it does to the count. -/
theorem step_cases {s s' : Exec} {a : Action} (h : s.step a = some s') :
    (a.opens = true ∧ ∃ locks, s' = { s.pushOff with locks }) ∨
    (a.closes = true ∧ ∃ c locks, s.cpu.popOff = some c ∧
      s' = { s with cpu := c, opened := s.opened.tail, locks }) ∨
    ((∃ vector, a = .interrupt vector) ∧ s' = s.interrupt) ∨
    (a = .iretq ∧ ∃ x hs, s.handlers = x :: hs ∧
      s' = { s with cpu := { s.cpu with iFlag := x.iFlag }, handlers := hs }) ∨
    ∃ l lock, a = .others l lock ∧ s' = { s with locks := Function.update s.locks l lock } := by
  cases a with
  | pushOff => exact .inl ⟨rfl, s.locks, (Option.some.inj h).symm⟩
  | popOff =>
    obtain ⟨c, hc, rfl⟩ := popOff_eq h
    exact .inr (.inl ⟨rfl, c, s.locks, hc, rfl⟩)
  | acquire l =>
    change s.acquire l = some s' at h
    unfold acquire at h
    simp only at h
    split at h
    · exact absurd h (by simp)
    · exact .inl ⟨rfl, _, (Option.some.inj h).symm⟩
  | release l =>
    obtain ⟨c, hc, rfl⟩ := popOff_eq h
    exact .inr (.inl ⟨rfl, c, _, hc, rfl⟩)
  | interrupt vector => exact .inr (.inr (.inl ⟨⟨vector, rfl⟩, (Option.some.inj h).symm⟩))
  | iretq =>
    change s.iretq = some s' at h
    unfold iretq at h
    split at h
    · exact absurd h (by simp)
    · rename_i x hs hh
      exact .inr (.inr (.inr (.inl ⟨rfl, x, hs, hh, (Option.some.inj h).symm⟩)))
  | others l lock => exact .inr (.inr (.inr (.inr ⟨l, lock, rfl, (Option.some.inj h).symm⟩)))

theorem lt_length_of_closes {s : Exec} {a : Action} (hv : s.Valid a) (ha : a.closes = true) :
    s.base < s.opened.length := by
  cases a with
  | popOff => exact hv
  | release l => exact hv
  | _ => exact absurd ha (by simp [Action.closes])

end Exec

/-! ## The count -/

/-- `push_off_count` counts the open `push_off`, as a `u32`. -/
def Counted (s : Exec) : Prop := s.cpu.pushOffCount = BitVec.ofNat 32 s.opened.length

theorem counted_boot (id : Nat) (locks : Nat → Spinlock) : Counted (Exec.boot id locks) := by
  unfold Counted Exec.boot
  rw [started_eq]
  rfl

theorem ofNat_length_tail {l : List Bool} (h : 0 < l.length) :
    BitVec.ofNat 32 l.tail.length = BitVec.ofNat 32 l.length - 1 := by
  obtain ⟨b, l, rfl⟩ := List.exists_cons_of_length_pos h
  rw [List.tail_cons, List.length_cons, BitVec.ofNat_add]
  exact (BitVec.add_sub_cancel _ _).symm

theorem Counted.step {s s' : Exec} {a : Action} (hs : Counted s) (hv : s.Valid a)
    (h : s.step a = some s') : Counted s' := by
  unfold Counted at hs ⊢
  rcases Exec.step_cases h with ⟨-, locks, rfl⟩ | ⟨ha, c, locks, hc, rfl⟩ | ⟨-, rfl⟩ |
    ⟨-, x, hs', -, rfl⟩ | ⟨l, lock, -, rfl⟩
  · show s.cpu.pushOff.pushOffCount = BitVec.ofNat 32 (s.opened.length + 1)
    rw [Cpu.pushOff_count, hs, BitVec.ofNat_add]
    rfl
  · have hlen := Exec.lt_length_of_closes hv ha
    show c.pushOffCount = BitVec.ofNat 32 s.opened.tail.length
    rw [Cpu.popOff_count hc, hs, ofNat_length_tail (by omega)]
  · exact hs
  · exact hs
  · exact hs

/-- **Where the count gets to zero.** Nesting `2 ^ 32` deep aside, only with the outermost
`push_off`. -/
theorem Counted.sub_one_eq_zero {s : Exec} (hs : Counted s) (h : 0 < s.opened.length) :
    s.cpu.pushOffCount - 1 = 0 ↔ (s.opened.length - 1) % 2 ^ 32 = 0 := by
  rw [hs, ← ofNat_length_tail h, List.length_tail, ← BitVec.toNat_inj, BitVec.toNat_ofNat]
  rfl

/-! ## Closing an outermost `push_off` -/

/-- The runs of a processor after its startup whose every action meets `P`. -/
abbrev ExecRun (P : Exec → Action → Prop) (id : Nat) (locks : Nat → Spinlock) : Exec → Prop :=
  Run Exec.step (fun s a => s.Valid a ∧ P s a) (Exec.boot id locks)

/-- The `pop_off` of the action `a` closes an outermost `push_off`, right before which the interrupt
flag was `before`, and leads to `s'`. -/
def ClosesOutermost (s : Exec) (a : Action) (before : Bool) (s' : Exec) : Prop :=
  s.Valid a ∧ a.closes = true ∧ s.opened = [before] ∧ s.step a = some s'

/-- **The interrupt flag is set** after every `pop_off` that closes an outermost `push_off`. -/
theorem Counted.closesOutermost {s s' : Exec} {a : Action} {before : Bool} (hs : Counted s)
    (h : ClosesOutermost s a before s') : s'.cpu.iFlag = true := by
  obtain ⟨-, ha, ho, h⟩ := h
  rcases Exec.step_cases h with ⟨ha', -⟩ | ⟨-, c, locks, hc, rfl⟩ | ⟨⟨v, rfl⟩, -⟩ | ⟨rfl, -⟩ |
    ⟨l, lock, rfl, -⟩
  · cases a <;> simp [Action.opens, Action.closes] at ha ha'
  · have hzero : s.cpu.pushOffCount - 1 = 0 := by
      rw [hs.sub_one_eq_zero (by rw [ho]; exact Nat.one_pos), ho]
      rfl
    obtain ⟨-, ⟨-, rfl⟩ | ⟨hne, -⟩⟩ := Cpu.popOff_eq hc
    · rfl
    · exact absurd hzero hne
  all_goals simp [Action.closes] at ha

theorem ExecRun.counted {P : Exec → Action → Prop} {id : Nat} {locks : Nat → Spinlock} {s : Exec}
    (h : ExecRun P id locks s) : Counted s :=
  Run.invariant Counted (counted_boot id locks) (fun _ _ _ hs ha h => hs.step ha.1 h) h

/-! ## Handlers -/

/-- The condition on a step: an outermost `push_off` is made with the interrupt flag set, and
`push_off` are not nested `2 ^ 32` deep. -/
def OutermostEnabled (s : Exec) (a : Action) : Prop :=
  a.opens = true → (s.opened = [] → s.cpu.iFlag = true) ∧ s.opened.length + 1 < 2 ^ 32

/-- What holds in the handlers of a run with this condition: the interrupt flag is clear in all of
them, and one that was entered with no `push_off` open makes none. -/
structure Quiet (s : Exec) : Prop where
  short : s.opened.length < 2 ^ 32
  first : ∀ before, s.opened.getLast? = some before → before = true
  clear : s.handlers ≠ [] → s.cpu.iFlag = false
  frames : ∀ x ∈ s.handlers.dropLast, x.iFlag = false
  outer : ∀ x ∈ s.handlers, x.opened = 0 → s.opened = []
  nested : s.handlers.Pairwise fun x y => y.opened = 0 → x.opened = 0

theorem quiet_boot (id : Nat) (locks : Nat → Spinlock) : Quiet (Exec.boot id locks) where
  short := by simp [Exec.boot]
  first _ h := absurd h (by simp [Exec.boot])
  clear h := absurd rfl h
  frames _ hx := absurd hx List.not_mem_nil
  outer _ hx := absurd hx List.not_mem_nil
  nested := .nil

theorem Quiet.pushOff {s : Exec} {locks : Nat → Spinlock} (hs : Quiet s)
    (hfirst : s.opened = [] → s.cpu.iFlag = true) (hlen : s.opened.length + 1 < 2 ^ 32) :
    Quiet { s.pushOff with locks } where
  short := hlen
  first before h := by
    change (s.cpu.iFlag :: s.opened).getLast? = some before at h
    cases ho : s.opened with
    | nil =>
      rw [ho] at h
      exact (Option.some.inj h).symm.trans (hfirst ho)
    | cons b bs =>
      rw [ho, List.getLast?_cons_cons, ← ho] at h
      exact hs.first before h
  clear h := Cpu.pushOff_iFlag (hs.clear h)
  frames := hs.frames
  outer x hx h0 := by
    have hclear := hs.clear (List.ne_nil_of_mem hx)
    have hset := hfirst (hs.outer x hx h0)
    rw [hclear] at hset
    exact absurd hset (by decide)
  nested := hs.nested

theorem Quiet.popOff {s : Exec} {c : Cpu} {locks : Nat → Spinlock} (hs : Quiet s)
    (hcount : Counted s) (hlen : s.base < s.opened.length) (hc : s.cpu.popOff = some c) :
    Quiet { s with cpu := c, opened := s.opened.tail, locks } where
  short := by
    have := hs.short
    rw [List.length_tail]
    omega
  first before h := by
    obtain ⟨b, bs, ho⟩ := List.exists_cons_of_length_pos (Nat.zero_lt_of_lt hlen)
    change s.opened.tail.getLast? = some before at h
    refine hs.first before ?_
    rw [ho, List.tail_cons] at h
    rw [ho, List.getLast?_cons_of_ne_nil, h]
    rintro rfl
    exact absurd h (by simp)
  clear h := by
    obtain ⟨-, ⟨hzero, -⟩ | ⟨-, rfl⟩⟩ := Cpu.popOff_eq hc
    · -- the count gets to zero: the handler has opened an outermost `push_off`
      obtain ⟨x, xs, hh⟩ := List.exists_cons_of_ne_nil h
      change s.handlers = x :: xs at hh
      rw [hcount.sub_one_eq_zero (by omega), Nat.mod_eq_of_lt (by have := hs.short; omega)] at hzero
      have hbase : s.base = x.opened := by rw [Exec.base, hh]; rfl
      have hnil := hs.outer x (by rw [hh]; exact List.mem_cons_self) (by omega)
      rw [hnil] at hlen
      exact absurd hlen (Nat.not_lt_zero _)
    · exact hs.clear h
  frames := hs.frames
  outer x hx h0 := by
    show s.opened.tail = []
    rw [hs.outer x hx h0]
    rfl
  nested := hs.nested

theorem Quiet.interrupt {s : Exec} (hs : Quiet s) : Quiet s.interrupt where
  short := hs.short
  first := hs.first
  clear _ := gateFlag_idtFlags s.cpu.iFlag
  frames x hx := by
    change x ∈ (_ :: s.handlers).dropLast at hx
    cases hh : s.handlers with
    | nil => simp [hh] at hx
    | cons y ys =>
      rw [hh, List.dropLast_cons_cons, ← hh, List.mem_cons] at hx
      rcases hx with rfl | hx
      · exact hs.clear (by rw [hh]; exact List.cons_ne_nil _ _)
      · exact hs.frames x hx
  outer x hx h0 := by
    rcases List.mem_cons.mp hx with rfl | hx
    · exact List.length_eq_zero_iff.mp h0
    · exact hs.outer x hx h0
  nested := .cons (fun y hy h0 => by rw [hs.outer y hy h0]; rfl) hs.nested

theorem Quiet.iretq {s : Exec} {x : Handler} {xs : List Handler} (hs : Quiet s)
    (hh : s.handlers = x :: xs) :
    Quiet { s with cpu := { s.cpu with iFlag := x.iFlag }, handlers := xs } where
  short := hs.short
  first := hs.first
  clear h := by
    obtain ⟨y, ys, rfl⟩ := List.exists_cons_of_ne_nil h
    refine hs.frames x ?_
    rw [hh, List.dropLast_cons_cons]
    exact List.mem_cons_self
  frames y hy := by
    refine hs.frames y ?_
    rw [hh, List.dropLast_cons_of_ne_nil]
    · exact List.mem_cons_of_mem _ hy
    · rintro rfl
      exact absurd hy List.not_mem_nil
  outer y hy h0 := hs.outer y (by rw [hh]; exact List.mem_cons_of_mem _ hy) h0
  nested := by
    have := hs.nested
    rw [hh] at this
    exact this.of_cons

theorem Quiet.step {s s' : Exec} {a : Action} (hs : Quiet s) (hcount : Counted s)
    (hv : s.Valid a) (hp : OutermostEnabled s a) (h : s.step a = some s') : Quiet s' := by
  rcases Exec.step_cases h with ⟨ha, locks, rfl⟩ | ⟨ha, c, locks, hc, rfl⟩ | ⟨-, rfl⟩ |
    ⟨-, x, xs, hh, rfl⟩ | ⟨l, lock, -, rfl⟩
  · exact hs.pushOff (hp ha).1 (hp ha).2
  · exact hs.popOff hcount (Exec.lt_length_of_closes hv ha) hc
  · exact hs.interrupt
  · exact hs.iretq hh
  · exact ⟨hs.short, hs.first, hs.clear, hs.frames, hs.outer, hs.nested⟩

theorem ExecRun.quiet {id : Nat} {locks : Nat → Spinlock} {s : Exec}
    (h : ExecRun OutermostEnabled id locks s) : Quiet s := by
  refine (Run.invariant (fun s => Quiet s ∧ Counted s)
    ⟨quiet_boot id locks, counted_boot id locks⟩ ?_ h).1
  intro s a s' hs ha h
  exact ⟨hs.1.step hs.2 ha.1 ha.2 h, hs.2.step ha.1 h⟩

/-- **When `pop_off` restores the interrupt flag.** In every run, the `pop_off` that closes an
outermost `push_off` leaves the interrupt flag as it was right before that `push_off` if and only if
the flag was set there. In a run in which it always is, no handler ever runs with interrupts
enabled. -/
theorem push_off_pop_off_restores (id : Nat) (locks : Nat → Spinlock) :
    (∀ s, ExecRun (fun _ _ => True) id locks s → ∀ a before s', ClosesOutermost s a before s' →
      (s'.cpu.iFlag = before ↔ before = true)) ∧
    ∀ s, ExecRun OutermostEnabled id locks s →
      (∀ a before s', ClosesOutermost s a before s' → s'.cpu.iFlag = before) ∧
      (s.handlers ≠ [] → s.cpu.iFlag = false) := by
  constructor
  · intro s hs a before s' hclose
    rw [hs.counted.closesOutermost hclose]
    exact eq_comm
  · intro s hs
    refine ⟨?_, hs.quiet.clear⟩
    intro a before s' hclose
    rw [hs.counted.closesOutermost hclose]
    exact (hs.quiet.first before (by rw [hclose.2.2.1]; rfl)).symm

/-- A `push_off` outside of handlers, and its `pop_off`. -/
theorem push_off_pop_off_restores_boot :
    ∃ s', ClosesOutermost (Exec.boot 0 fun _ => ⟨false, 0⟩).pushOff .popOff true s' ∧
      s'.cpu.iFlag = true := by
  have hrun : ExecRun OutermostEnabled 0 (fun _ => ⟨false, 0⟩)
      (Exec.boot 0 fun _ => ⟨false, 0⟩).pushOff :=
    .step .pushOff .init ⟨trivial, fun _ => ⟨fun _ => rfl, by decide⟩⟩ rfl
  have hclose : ClosesOutermost (Exec.boot 0 fun _ => ⟨false, 0⟩).pushOff .popOff true
      (Exec.boot 0 fun _ => ⟨false, 0⟩) := ⟨Nat.one_pos, rfl, rfl, rfl⟩
  exact ⟨_, hclose, ((push_off_pop_off_restores 0 _).2 _ hrun).1 _ _ _ hclose⟩

/-- The start of a run: the timer interrupt, and a lock taken in its handler. -/
def inHandler (locks : Nat → Spinlock) : Exec :=
  { (Exec.boot 0 locks).interrupt.pushOff with locks := Function.update locks 0 ⟨true, 0⟩ }

/-- The same lock, released: the handler has not returned, and interrupts are enabled. -/
def afterRelease (locks : Nat → Spinlock) : Exec :=
  { (Exec.boot 0 locks).interrupt with
    cpu := Cpu.started
    locks := Function.update (Function.update locks 0 ⟨true, 0⟩) 0 ⟨false, 0⟩ }

theorem inHandler_run : ExecRun (fun _ _ => True) 0 (fun _ => ⟨false, 0⟩)
    (inHandler fun _ => ⟨false, 0⟩) :=
  .step (.acquire 0) (.step (.interrupt 0x40) .init ⟨fun _ => rfl, trivial⟩ rfl) ⟨trivial, trivial⟩
    rfl

theorem inHandler_closes : ClosesOutermost (inHandler fun _ => ⟨false, 0⟩) (.release 0) false
    (afterRelease fun _ => ⟨false, 0⟩) :=
  ⟨Nat.one_pos, rfl, rfl, rfl⟩

/-- A lock taken and released in the handler of a timer interrupt enables interrupts. -/
theorem handler_release_enables :
    ¬ ∀ s, ExecRun (fun _ _ => True) 0 (fun _ => ⟨false, 0⟩) s → ∀ a before s',
      ClosesOutermost s a before s' → s'.cpu.iFlag = before := by
  intro h
  exact absurd (h _ inHandler_run _ _ _ inHandler_closes) (by decide)

end Colibri.Sync

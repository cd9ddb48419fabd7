import Colibri.Lib.BitField
import Colibri.Sync.PushOff

/-!
# Arming an HPET timer (`kernel/arch/x86-64/timer/hpet.c`, `interrupt/ioapic.c`)

`arm_hpet_timer` routes a timer that has no route yet to the first interrupt of the I/O APIC, from 9
on, that the timer's capabilities allow. It asks `set_irq` for it, which refuses an interrupt that is
mapped already.

* The registers of both devices are functions of the register's number. The values of the main
  counter that `poll_hpet` reads are arguments.
* Loops take fuel, and the result `none` is a loop that is not finished.
* The clock, the log and the other processors leave the I/O APIC alone.

## Results

* `arms_iff`: `arm_hpet_timer` does what its callers expect if and only if the timer exists and can
  do what it is asked to, and the first interrupt that is allowed, from 9 on, is below 24 and not
  mapped.
* `routeLoop_taken`: it does not end when that interrupt is mapped.
-/

namespace Colibri.Timer

open Colibri.Lib Colibri.Sync

/-- What ends a call without a return. -/
inductive Stop where
  | divideError
  | nullPointer
  | panic
  deriving DecidableEq, Repr

/-! ## The I/O APIC -/

/-- The I/O APIC. `mapped` is `io_apic_reg_sel != NULL`. -/
structure IoApic where
  mapped : Bool
  regs : Nat → BitVec 32

/-- `DEST_LOGICAL`. -/
def destLogical : Nat := 1

/-- The entry that `set_irq` writes: `vector`, `destination_mode`, `destination` and `masked`. -/
def redirectEntry (idtEntry dest destMode : Nat) (masked : Bool) : BitVec 64 :=
  let entry := BitVec.ofNat 64 (idtEntry % 256)
  let entry := setField entry 11 1 destMode
  let entry := setField entry 56 8 dest
  setField entry 16 1 masked.toNat

namespace IoApic

/-- `read_ioapic_register`. -/
def readIoapicRegister (io : IoApic) (reg : Nat) : Except Stop (BitVec 32) :=
  if io.mapped then .ok (io.regs reg) else .error .nullPointer

/-- `write_ioapic_register`. -/
def writeIoapicRegister (io : IoApic) (reg : Nat) (value : BitVec 32) : IoApic :=
  if io.mapped then { io with regs := Function.update io.regs reg value } else io

/-- `write_ioapic_redirect`. -/
def writeIoapicRedirect (io : IoApic) (index : Nat) (entry : BitVec 64) : IoApic :=
  if index < 0x10 ∨ index > 0x3F then io
  else if index % 2 ≠ 0 then io
  else (io.writeIoapicRegister index (entry.setWidth 32)).writeIoapicRegister (index + 1)
    ((entry >>> 32).setWidth 32)

/-- The register of `irq`, a `u8`. -/
def redirectReg (irq : Nat) : Nat := (0x10 + irq * 2) % 256

/-- `set_irq`; `false` is its result -1. -/
def setIrq (io : IoApic) (irq idtEntry dest destMode : Nat) (masked : Bool) :
    Except Stop (IoApic × Bool) :=
  (io.readIoapicRegister (redirectReg irq)).map fun raw =>
    if field (raw.setWidth 64) 0 8 ≠ 0 then (io, false)
    else (io.writeIoapicRedirect (redirectReg irq) (redirectEntry idtEntry dest destMode masked), true)

end IoApic

/-! ## The timers -/

/-- The HPET. `setup_hpet` makes `timer_count` from a field of 5 bits. -/
structure Hpet where
  regs : Nat → BitVec 64
  hpetPeriod : Nat
  timerCount : Nat
  timerCount_le : timerCount ≤ 32

/-- `TIMER_CONFIG_REG(n)`. -/
def timerConfigReg (n : Nat) : Nat := 32 + 4 * n

/-- `TIMER_COMPARATOR_REG(n)`. -/
def timerComparatorReg (n : Nat) : Nat := 33 + 4 * n

/-- `write_hpet_register`. -/
def Hpet.write (h : Hpet) (reg : Nat) (value : BitVec 64) : Hpet :=
  { h with regs := Function.update h.regs reg value }

/-- `timer_config.int_enb_cnf = v`. -/
def setIntEnbCnf (config : BitVec 64) (v : Nat) : BitVec 64 := setField config 2 1 v

/-- `timer_config.per_int_cnf = v`. -/
def setPerIntCnf (config : BitVec 64) (v : Nat) : BitVec 64 := setField config 3 1 v

/-- `timer_config.per_int_cap`. -/
def perIntCap (config : BitVec 64) : Nat := field config 4 1

/-- `timer_config.val_set_cnf = v`. -/
def setValSetCnf (config : BitVec 64) (v : Nat) : BitVec 64 := setField config 6 1 v

/-- `timer_config.int_route_cnf`. -/
def intRouteCnf (config : BitVec 64) : Nat := field config 9 5

/-- `timer_config.int_route_cnf = v`. -/
def setIntRouteCnf (config : BitVec 64) (v : Nat) : BitVec 64 := setField config 9 5 v

/-- `timer_config.int_route_cap`. -/
def intRouteCap (config : BitVec 64) : Nat := field config 32 32

/-- A processor with the two devices. -/
structure Machine where
  cpu : Cpu
  hpet : Hpet
  ioApic : IoApic

/-- The inner loop of `arm_hpet_timer`: to the next allowed interrupt. `irq_used` is a `u8`. -/
def skipLoop : Nat → Nat → Nat → Option (Nat × Nat)
  | 0, _, _ => none
  | fuel + 1, irqUsed, availableIrq =>
    if availableIrq % 2 = 0 then skipLoop fuel ((irqUsed + 1) % 256) (availableIrq / 2)
    else some (irqUsed, availableIrq)

/-- The outer loop of `arm_hpet_timer`, for the given vector. -/
def routeLoop (vector : Nat) : Nat → IoApic → Nat → Nat → Option (Except Stop (IoApic × Nat × Nat))
  | 0, _, _, _ => none
  | fuel + 1, io, irqUsed, availableIrq =>
    if availableIrq = 0 then some (.ok (io, irqUsed, availableIrq))
    else (skipLoop fuel irqUsed availableIrq).bind fun (irqUsed, availableIrq) =>
      match io.setIrq irqUsed vector destLogical 0xFF false with
      | .error e => some (.error e)
      | .ok (io, true) => some (.ok (io, irqUsed, availableIrq))
      | .ok (io, false) => routeLoop vector fuel io irqUsed availableIrq

/-- The choice of a route in `arm_hpet_timer`: the configuration to go on with, or `none` for
`return 1`. -/
def chooseRoute (fuel : Nat) (io : IoApic) (timer : Nat) (config : BitVec 64) :
    Option (Except Stop (IoApic × Option (BitVec 64))) :=
  if intRouteCnf config = 0 then
    (routeLoop (0x30 + timer) fuel io 9 (intRouteCap config / 2 ^ 9)).map fun r =>
      r.map fun (io, irqUsed, availableIrq) =>
        (io, if availableIrq = 0 then none else some (setIntRouteCnf config irqUsed))
  else some (.ok (io, some config))

/-- The rest of `arm_hpet_timer`; its two calls of `poll_hpet` read `now` and `now'`. -/
def startTimer (s : Machine) (timer cycle : Nat) (config : BitVec 64) (periodic : Bool)
    (now now' : Nat) : Except Stop (Machine × Nat) :=
  let config := setIntEnbCnf config 1
  if periodic = true ∧ perIntCap config = 0 then .ok (s, 1)
  else
    let config := setPerIntCnf config periodic.toNat
    let config := setValSetCnf config periodic.toNat
    let hpet := s.hpet.write (timerComparatorReg timer) (BitVec.ofNat 64 (now + cycle))
    let hpet := hpet.write (timerConfigReg timer) config
    let hpet := hpet.write (timerComparatorReg timer) (BitVec.ofNat 64 (now' + cycle))
    let hpet := if periodic then hpet.write (timerComparatorReg timer) (BitVec.ofNat 64 cycle) else hpet
    match s.cpu.popOff with
    | none => .error .panic
    | some cpu => .ok ({ s with cpu, hpet }, 0)

/-- `arm_hpet_timer`. -/
def armHpetTimer (fuel : Nat) (s : Machine) (timer femto : Nat) (periodic : Bool)
    (now now' : Nat) : Option (Except Stop (Machine × Nat)) :=
  let s := { s with cpu := s.cpu.pushOff }
  if timer ≥ s.hpet.timerCount then some (.ok (s, 1))
  else if s.hpet.hpetPeriod = 0 then some (.error .divideError)
  else
    let cycle := femto / s.hpet.hpetPeriod
    let config := s.hpet.regs (timerConfigReg timer)
    (chooseRoute fuel s.ioApic timer config).map fun r => r.bind fun (ioApic, config) =>
      let s := { s with ioApic }
      match config with
      | none => .ok (s, 1)
      | some config => startTimer s timer cycle config periodic now now'

/-! ## What the callers expect -/

namespace IoApic

/-- `irq` is mapped: its vector is in use. -/
def Taken (io : IoApic) (irq : Nat) : Prop :=
  field ((io.regs (redirectReg irq)).setWidth 64) 0 8 ≠ 0

instance (io : IoApic) (irq : Nat) : Decidable (io.Taken irq) := inferInstanceAs (Decidable (_ ≠ _))

/-- The redirection entry of `irq`. -/
def redirect (io : IoApic) (irq : Nat) : BitVec 64 :=
  io.regs (0x11 + irq * 2) ++ io.regs (0x10 + irq * 2)

end IoApic

/-- The interrupts, from 9 on, that the mask allows. -/
def Allowed (mask irq : Nat) : Prop := 9 ≤ irq ∧ mask.testBit irq = true

instance (mask irq : Nat) : Decidable (Allowed mask irq) := inferInstanceAs (Decidable (_ ∧ _))

/-- The configuration register of a timer. -/
def Machine.config (s : Machine) (timer : Nat) : BitVec 64 := s.hpet.regs (timerConfigReg timer)

/-- A timer without a route got one: to an interrupt that was allowed and free, whose entry has been
written. -/
def Routed (s s' : Machine) (timer : Nat) : Prop :=
  ∃ irq, Allowed (intRouteCap (s.config timer)) irq ∧ ¬s.ioApic.Taken irq ∧
    intRouteCnf (s'.config timer) = irq ∧
    s'.ioApic.redirect irq = redirectEntry (0x30 + timer) destLogical 0xFF false

/-- The call returns with the `push_off` it made undone. If the timer has no route, it gets one, or
the result is 1 because no allowed interrupt is free. -/
def Arms (s : Machine) (timer femto : Nat) (periodic : Bool) (now now' : Nat) : Prop :=
  ∃ fuel s' code, armHpetTimer fuel s timer femto periodic now now' = some (.ok (s', code)) ∧
    s'.cpu.pushOffCount = s.cpu.pushOffCount ∧
    (intRouteCnf (s.config timer) = 0 →
      Routed s s' timer ∨
        code = 1 ∧ ∀ irq, Allowed (intRouteCap (s.config timer)) irq → s.ioApic.Taken irq)

/-- The first allowed interrupt has a redirection entry, which is free. -/
def FirstFree (io : IoApic) (mask : Nat) : Prop :=
  io.mapped = true ∧ ∃ irq < 24, Allowed mask irq ∧ ¬io.Taken irq ∧ ∀ j < irq, ¬Allowed mask j

/-- What `arm_hpet_timer` needs: the timer exists, the period is not 0, a periodic timer can be
periodic, and a timer without a route has a first allowed interrupt that is free. -/
def Usable (s : Machine) (timer : Nat) (periodic : Bool) : Prop :=
  timer < s.hpet.timerCount ∧ s.hpet.hpetPeriod ≠ 0 ∧
    (periodic = true → perIntCap (s.config timer) ≠ 0) ∧
    (intRouteCnf (s.config timer) = 0 → FirstFree s.ioApic (intRouteCap (s.config timer)))

/-! ## The loops -/

/-- The lowest bit of `n` that is set. -/
def LowBit (n d : Nat) : Prop := n.testBit d = true ∧ ∀ j < d, n.testBit j = false

section Loops

variable {io io' : IoApic} {fuel irq available d vector mask timer : Nat}
  {r : Nat × Nat}

theorem exists_lowBit (h : available ≠ 0) : ∃ d, LowBit available d := by
  have hex : ∃ d, available.testBit d = true := by
    by_contra hno
    refine h (Nat.eq_of_testBit_eq fun j => ?_)
    rw [Nat.zero_testBit]
    exact Bool.eq_false_iff.mpr fun hj => hno ⟨j, hj⟩
  exact ⟨Nat.find hex, Nat.find_spec hex, fun j hj => Bool.eq_false_iff.mpr (Nat.find_min hex hj)⟩

/-- The inner loop stops at the lowest bit. -/
theorem skipLoop_eq (hd : LowBit available d) (hirq : irq + d < 256) :
    skipLoop fuel irq available =
      if d < fuel then some (irq + d, available / 2 ^ d) else none := by
  induction fuel generalizing irq available d with
  | zero => rfl
  | succ fuel ih =>
    rw [skipLoop]
    cases d with
    | zero =>
      have hodd : ¬available % 2 = 0 := by
        have hbit := hd.1
        rw [Nat.testBit_zero] at hbit
        simpa using hbit
      rw [if_neg hodd, if_pos (Nat.succ_pos _), Nat.add_zero, pow_zero, Nat.div_one]
    | succ d =>
      have heven : available % 2 = 0 := by
        have hbit := hd.2 0 (Nat.succ_pos _)
        rw [Nat.testBit_zero] at hbit
        simpa using hbit
      have hd' : LowBit (available / 2) d :=
        ⟨by rw [← Nat.testBit_succ]; exact hd.1,
          fun j hj => by rw [← Nat.testBit_succ]; exact hd.2 _ (Nat.succ_lt_succ hj)⟩
      have hnext : (irq + 1) % 256 = irq + 1 := Nat.mod_eq_of_lt (by omega)
      rw [if_pos heven, hnext, ih hd' (by omega), Nat.div_div_eq_div_mul, ← pow_succ']
      simp only [Nat.succ_lt_succ_iff, Nat.add_assoc, Nat.add_comm 1 d]

theorem setIrq_not_mapped (h : io.mapped = false) (dest mode : Nat) (masked : Bool) :
    io.setIrq irq vector dest mode masked = .error .nullPointer := by
  rw [IoApic.setIrq, IoApic.readIoapicRegister, h]
  rfl

theorem setIrq_taken (h : io.mapped = true) (ht : io.Taken irq) (dest mode : Nat) (masked : Bool) :
    io.setIrq irq vector dest mode masked = .ok (io, false) := by
  rw [IoApic.setIrq, IoApic.readIoapicRegister, h]
  exact congrArg Except.ok (if_pos ht)

theorem setIrq_free (h : io.mapped = true) (ht : ¬io.Taken irq) (dest mode : Nat) (masked : Bool) :
    io.setIrq irq vector dest mode masked = .ok
      (io.writeIoapicRedirect (IoApic.redirectReg irq) (redirectEntry vector dest mode masked),
        true) := by
  rw [IoApic.setIrq, IoApic.readIoapicRegister, h]
  exact congrArg Except.ok (if_neg ht)

/-- A round of the outer loop. -/
theorem routeLoop_succ (hd : LowBit available d) (hirq : irq + d < 256) (hfuel : d < fuel) :
    routeLoop vector (fuel + 1) io irq available =
      match io.setIrq (irq + d) vector destLogical 0xFF false with
      | .error e => some (.error e)
      | .ok (io, true) => some (.ok (io, irq + d, available / 2 ^ d))
      | .ok (io, false) => routeLoop vector fuel io (irq + d) (available / 2 ^ d) := by
  have hne : available ≠ 0 := fun h0 => by
    have hbit := hd.1
    rw [h0, Nat.zero_testBit] at hbit
    exact absurd hbit (by decide)
  rw [routeLoop, if_neg hne, skipLoop_eq hd hirq, if_pos hfuel, Option.bind_some]

/-- Without enough fuel for the inner loop there is no result. -/
theorem routeLoop_short (hd : LowBit available d) (hirq : irq + d < 256) (hfuel : fuel ≤ d) :
    routeLoop vector (fuel + 1) io irq available = none := by
  have hne : available ≠ 0 := fun h0 => by
    have hbit := hd.1
    rw [h0, Nat.zero_testBit] at hbit
    exact absurd hbit (by decide)
  rw [routeLoop, if_neg hne, skipLoop_eq hd hirq, if_neg (Nat.not_lt.mpr hfuel), Option.bind_none]

/-- **The loop does not get past an interrupt that is mapped.** -/
theorem routeLoop_taken (hd : LowBit available d) (hirq : irq + d < 256) (hmapped : io.mapped = true)
    (ht : io.Taken (irq + d)) : routeLoop vector fuel io irq available = none := by
  induction fuel generalizing irq available d with
  | zero => rfl
  | succ fuel ih =>
    rcases Nat.lt_or_ge d fuel with hlt | hge
    · rw [routeLoop_succ hd hirq hlt, setIrq_taken hmapped ht]
      have hd' : LowBit (available / 2 ^ d) 0 :=
        ⟨by rw [Nat.testBit_div_two_pow, Nat.zero_add]; exact hd.1, fun j hj => absurd hj (Nat.not_lt_zero j)⟩
      exact ih hd' hirq ht
    · exact routeLoop_short hd hirq hge

/-- A result of the loop, where interrupts are allowed. -/
theorem routeLoop_eq_some (hd : LowBit available d) (hirq : irq + d < 256)
    (h : routeLoop vector fuel io irq available = some (.ok (io', r))) :
    io.mapped = true ∧ ¬io.Taken (irq + d) ∧ r = (irq + d, available / 2 ^ d) ∧
      io' = io.writeIoapicRedirect (IoApic.redirectReg (irq + d))
        (redirectEntry vector destLogical 0xFF false) := by
  by_cases ht : io.mapped = true ∧ io.Taken (irq + d)
  · rw [routeLoop_taken hd hirq ht.1 ht.2] at h
    exact nomatch h
  cases fuel with
  | zero => exact nomatch h
  | succ fuel =>
    rcases Nat.lt_or_ge d fuel with hlt | hge
    case inr => rw [routeLoop_short hd hirq hge] at h; exact nomatch h
    rw [routeLoop_succ hd hirq hlt] at h
    cases hmapped : io.mapped with
    | false => rw [setIrq_not_mapped hmapped] at h; exact nomatch h
    | true =>
      have hfree : ¬io.Taken (irq + d) := fun h => ht ⟨hmapped, h⟩
      rw [setIrq_free hmapped hfree] at h
      obtain ⟨rfl, rfl⟩ := Prod.mk.inj (Except.ok.inj (Option.some.inj h))
      exact ⟨rfl, hfree, rfl, rfl⟩

/-- The loop over a free interrupt. -/
theorem routeLoop_free (hd : LowBit available d) (hirq : irq + d < 256) (hmapped : io.mapped = true)
    (ht : ¬io.Taken (irq + d)) :
    routeLoop vector (d + 2) io irq available = some (.ok
      (io.writeIoapicRedirect (IoApic.redirectReg (irq + d))
        (redirectEntry vector destLogical 0xFF false), irq + d, available / 2 ^ d)) := by
  rw [routeLoop_succ hd hirq (Nat.lt_succ_self d), setIrq_free hmapped ht]

end Loops

/-! ## The redirection entries -/

section Entries

variable {io : IoApic} {irq : Nat} {entry : BitVec 64}

theorem redirectReg_eq (h : irq < 32) : IoApic.redirectReg irq = 0x10 + irq * 2 :=
  Nat.mod_eq_of_lt (by omega)

theorem writeIoapicRegister_eq (h : io.mapped = true) (reg : Nat) (value : BitVec 32) :
    io.writeIoapicRegister reg value = ⟨true, Function.update io.regs reg value⟩ := by
  rw [IoApic.writeIoapicRegister, if_pos h, h]

/-- The entry of an interrupt below 24 is written. -/
theorem redirect_writeIoapicRedirect (hmapped : io.mapped = true) (h : irq < 24) :
    (io.writeIoapicRedirect (IoApic.redirectReg irq) entry).redirect irq = entry := by
  have hrange : ¬(0x10 + irq * 2 < 0x10 ∨ 0x10 + irq * 2 > 0x3F) := by omega
  have heven : ¬(0x10 + irq * 2) % 2 ≠ 0 := by omega
  have hne : 0x10 + irq * 2 ≠ 0x11 + irq * 2 := by omega
  have hsucc : 0x10 + irq * 2 + 1 = 0x11 + irq * 2 := by omega
  rw [redirectReg_eq (by omega), IoApic.writeIoapicRedirect, if_neg hrange, if_neg heven,
    writeIoapicRegister_eq hmapped, writeIoapicRegister_eq rfl, IoApic.redirect, hsucc]
  simp only [Function.update_self, Function.update_of_ne hne]
  refine BitVec.eq_of_getLsbD_eq fun j hj => ?_
  rw [BitVec.getLsbD_append, BitVec.getLsbD_setWidth, BitVec.getLsbD_setWidth,
    BitVec.getLsbD_ushiftRight]
  by_cases hlo : j < 32
  · simp [hlo]
  · have hhi : j - 32 < 32 := by omega
    have hsum : 32 + (j - 32) = j := by omega
    simp [hlo, hhi, hsum]

/-- The others are not. -/
theorem writeIoapicRedirect_high (h : 24 ≤ irq) (h' : irq < 32) :
    io.writeIoapicRedirect (IoApic.redirectReg irq) entry = io := by
  rw [redirectReg_eq h', IoApic.writeIoapicRedirect, if_pos (.inr (by omega))]

/-- The vector of an entry. -/
theorem vector_redirectEntry (vector dest mode : Nat) (masked : Bool) :
    field (redirectEntry vector dest mode masked) 0 8 = vector % 256 := by
  rw [redirectEntry, field_setField_of_disjoint _ (by omega) (.inr (by omega)),
    field_setField_of_disjoint _ (by omega) (.inr (by omega)),
    field_setField_of_disjoint _ (by omega) (.inr (by omega))]
  refine Nat.eq_of_testBit_eq fun j => ?_
  rw [testBit_field, Nat.zero_add, BitVec.getLsbD_ofNat, show 256 = 2 ^ 8 from rfl,
    Nat.testBit_mod_two_pow]
  by_cases hj : j < 8
  · have hj' : j < 64 := by omega
    simp [hj, hj']
  · simp [hj]

/-- An interrupt is free if the vector of its entry is 0. -/
theorem vector_redirect (h : irq < 32) (hfree : ¬io.Taken irq) : field (io.redirect irq) 0 8 = 0 := by
  rw [IoApic.Taken, not_not, redirectReg_eq h] at hfree
  refine Eq.trans (Nat.eq_of_testBit_eq fun j => ?_) hfree
  rw [testBit_field, testBit_field, Nat.zero_add, IoApic.redirect, BitVec.getLsbD_append,
    BitVec.getLsbD_setWidth]
  by_cases hj : j < 8
  · have h32 : j < 32 := by omega
    have h64 : j < 64 := by omega
    simp [hj, h32, h64]
  · simp [hj]

end Entries

/-! ## `arm_hpet_timer` -/

section Arm

variable {s s' : Machine} {c : Cpu} {timer femto cycle now now' code : Nat} {periodic : Bool}
  {config : BitVec 64}

theorem pushOffCount_pushOff (c : Cpu) : c.pushOff.pushOffCount = c.pushOffCount + 1 := by
  unfold Cpu.pushOff
  cases c.intOn <;> rfl

theorem pushOffCount_ne (c : Cpu) : c.pushOff.pushOffCount ≠ c.pushOffCount := by
  rw [pushOffCount_pushOff]
  intro h
  simp at h

/-- `pop_off` undoes `push_off` on the count. -/
theorem popOff_pushOff (c : Cpu) :
    ∃ c', c.pushOff.popOff = some c' ∧ c'.pushOffCount = c.pushOffCount := by
  have hcount : c.pushOff.pushOffCount - 1 = c.pushOffCount := by
    rw [pushOffCount_pushOff]
    exact BitVec.add_sub_cancel _ _
  have hint : c.pushOff.intOn = false := by
    unfold Cpu.pushOff
    cases hc : c.intOn <;> simp [hc]
  unfold Cpu.popOff
  rw [if_neg (by rw [hint]; decide), hcount]
  refine ⟨_, rfl, ?_⟩
  split <;> rfl

/-- The rest of the call, once the timer has a route. -/
theorem startTimer_spec (hs : s.cpu = c.pushOff) (timer cycle : Nat) (config : BitVec 64)
    (periodic : Bool) (now now' : Nat) :
    (periodic = true ∧ perIntCap config = 0 ∧
      startTimer s timer cycle config periodic now now' = .ok (s, 1)) ∨
    (periodic = true → perIntCap config ≠ 0) ∧
      ∃ s', startTimer s timer cycle config periodic now now' = .ok (s', 0) ∧
        s'.cpu.pushOffCount = c.pushOffCount ∧ s'.ioApic = s.ioApic ∧
        intRouteCnf (s'.config timer) = intRouteCnf config := by
  obtain ⟨c', hpop, hcount⟩ := popOff_pushOff c
  have hcap : perIntCap (setIntEnbCnf config 1) = perIntCap config :=
    field_setField_of_disjoint _ (by omega) (.inl (by omega))
  unfold startTimer
  simp only [hcap, hs, hpop]
  by_cases hper : periodic = true ∧ perIntCap config = 0
  · exact .inl ⟨hper.1, hper.2, if_pos hper⟩
  · refine .inr ⟨fun h h' => hper ⟨h, h'⟩, _, if_neg hper, hcount, rfl, ?_⟩
    have hroute : ∀ v, intRouteCnf (setValSetCnf (setPerIntCnf (setIntEnbCnf config 1) v) v) =
        intRouteCnf config := fun v => by
      rw [intRouteCnf, setValSetCnf, field_setField_of_disjoint _ (by omega) (.inl (by omega)),
        setPerIntCnf, field_setField_of_disjoint _ (by omega) (.inl (by omega)),
        setIntEnbCnf, field_setField_of_disjoint _ (by omega) (.inl (by omega)), intRouteCnf]
    have hne : timerConfigReg timer ≠ timerComparatorReg timer := by
      rw [timerConfigReg, timerComparatorReg]
      omega
    rw [← hroute periodic.toNat]
    cases periodic <;>
      simp [Machine.config, Hpet.write, Function.update_of_ne hne, Function.update_self]

/-- The lowest bit of the mask that the loop starts with is the first allowed interrupt. -/
theorem lowBit_iff {mask d : Nat} :
    LowBit (mask / 2 ^ 9) d ↔ Allowed mask (9 + d) ∧ ∀ j < 9 + d, ¬Allowed mask j := by
  simp only [LowBit, Allowed, Nat.testBit_div_two_pow, Nat.add_comm _ 9]
  constructor
  · rintro ⟨hd, hlow⟩
    refine ⟨⟨Nat.le_add_right _ _, hd⟩, fun j hj h => ?_⟩
    have hbit := hlow (j - 9) (by omega)
    rw [Nat.add_sub_cancel' h.1, h.2] at hbit
    exact absurd hbit (by decide)
  · rintro ⟨⟨-, hd⟩, hlow⟩
    refine ⟨hd, fun j hj => Bool.eq_false_iff.mpr fun h => ?_⟩
    exact hlow (9 + j) (by omega) ⟨Nat.le_add_right _ _, h⟩

/-- The mask has 32 bits. -/
theorem allowed_lt {irq : Nat} (h : Allowed (intRouteCap config) irq) : irq < 32 := by
  by_contra hge
  have hlt : intRouteCap config < 2 ^ irq :=
    Nat.lt_of_lt_of_le (field_lt _ _ _) (Nat.pow_le_pow_right (by decide) (Nat.not_lt.mp hge))
  have hbit := h.2
  rw [Nat.testBit_lt_two_pow hlt] at hbit
  exact absurd hbit (by decide)

/-- What a call that returns has done: it failed with `push_off` still open, or it has a timer and a
route. -/
theorem armHpetTimer_eq_some {fuel : Nat}
    (h : armHpetTimer fuel s timer femto periodic now now' = some (.ok (s', code))) :
    s'.cpu = s.cpu.pushOff ∨
      timer < s.hpet.timerCount ∧ s.hpet.hpetPeriod ≠ 0 ∧
        ∃ io config, chooseRoute fuel s.ioApic timer (s.config timer) = some (.ok (io, some config)) ∧
          startTimer { s with cpu := s.cpu.pushOff, ioApic := io } timer
            (femto / s.hpet.hpetPeriod) config periodic now now' = .ok (s', code) := by
  unfold armHpetTimer at h
  dsimp only at h
  split at h
  case isTrue =>
    obtain ⟨rfl, -⟩ := Prod.mk.inj (Except.ok.inj (Option.some.inj h))
    exact .inl rfl
  case isFalse htimer =>
    split at h
    case isTrue => exact nomatch h
    case isFalse hperiod =>
      obtain ⟨r, hr, hbind⟩ := Option.map_eq_some_iff.mp h
      cases r with
      | error e => exact nomatch hbind
      | ok r =>
        obtain ⟨io, route⟩ := r
        cases route with
        | none =>
          obtain ⟨rfl, -⟩ := Prod.mk.inj (Except.ok.inj hbind)
          exact .inl rfl
        | some config => exact .inr ⟨Nat.not_le.mp htimer, hperiod, io, config, hr, hbind⟩

theorem perIntCap_setIntRouteCnf (config : BitVec 64) (v : Nat) :
    perIntCap (setIntRouteCnf config v) = perIntCap config :=
  field_setField_of_disjoint _ (by omega) (.inr (by omega))

theorem intRouteCnf_setIntRouteCnf (config : BitVec 64) {v : Nat} (hv : v < 32) :
    intRouteCnf (setIntRouteCnf config v) = v :=
  (field_setField _ (by omega)).trans (Nat.mod_eq_of_lt hv)

/-- A route that was chosen is to the first allowed interrupt. -/
theorem chooseRoute_eq_some {fuel : Nat} {io io' : IoApic} {config' : BitVec 64}
    (h : chooseRoute fuel io timer config = some (.ok (io', some config'))) :
    (intRouteCnf config ≠ 0 ∧ io' = io ∧ config' = config) ∨
      io.mapped = true ∧ ∃ irq, Allowed (intRouteCap config) irq ∧
        (∀ j < irq, ¬Allowed (intRouteCap config) j) ∧ ¬io.Taken irq ∧
        config' = setIntRouteCnf config irq ∧
        io' = io.writeIoapicRedirect (IoApic.redirectReg irq)
          (redirectEntry (0x30 + timer) destLogical 0xFF false) := by
  unfold chooseRoute at h
  split at h
  case isFalse hroute =>
    obtain ⟨rfl, he⟩ := Prod.mk.inj (Except.ok.inj (Option.some.inj h))
    exact .inl ⟨hroute, rfl, (Option.some.inj he).symm⟩
  case isTrue =>
    obtain ⟨r, hr, hmap⟩ := Option.map_eq_some_iff.mp h
    cases r with
    | error e => exact nomatch hmap
    | ok r =>
      obtain ⟨io₁, irq, available⟩ := r
      obtain ⟨rfl, he⟩ := Prod.mk.inj (Except.ok.inj hmap)
      by_cases hzero : intRouteCap config / 2 ^ 9 = 0
      · -- no interrupt is allowed
        cases fuel with
        | zero => exact nomatch hr
        | succ fuel =>
          rw [hzero, routeLoop, if_pos rfl] at hr
          obtain ⟨-, hr⟩ := Prod.mk.inj (Except.ok.inj (Option.some.inj hr))
          obtain ⟨-, rfl⟩ := Prod.mk.inj hr
          exact nomatch he
      · obtain ⟨d, hd⟩ := exists_lowBit hzero
        obtain ⟨hallowed, hfirst⟩ := lowBit_iff.mp hd
        have hlt := allowed_lt hallowed
        obtain ⟨hmapped, hfree, hresult, rfl⟩ := routeLoop_eq_some hd (by omega) hr
        obtain ⟨rfl, rfl⟩ := Prod.mk.inj hresult
        split at he
        case isTrue => exact nomatch he
        case isFalse =>
          exact .inr ⟨hmapped, _, hallowed, hfirst, hfree, (Option.some.inj he).symm, rfl⟩

/-- A free first interrupt is chosen. -/
theorem chooseRoute_of_firstFree {io : IoApic} {irq : Nat} (hroute : intRouteCnf config = 0)
    (hmapped : io.mapped = true) (hallowed : Allowed (intRouteCap config) irq)
    (hfree : ¬io.Taken irq) (hfirst : ∀ j < irq, ¬Allowed (intRouteCap config) j) :
    ∃ fuel, chooseRoute fuel io timer config = some (.ok
      (io.writeIoapicRedirect (IoApic.redirectReg irq)
        (redirectEntry (0x30 + timer) destLogical 0xFF false), some (setIntRouteCnf config irq))) := by
  obtain ⟨d, rfl⟩ := Nat.exists_eq_add_of_le hallowed.1
  have hd := lowBit_iff.mpr ⟨hallowed, hfirst⟩
  have hlt := allowed_lt hallowed
  have hne : intRouteCap config / 2 ^ 9 / 2 ^ d ≠ 0 := fun h0 => by
    have hbit : (intRouteCap config / 2 ^ 9 / 2 ^ d).testBit 0 = true := by
      rw [Nat.testBit_div_two_pow, Nat.zero_add]
      exact hd.1
    rw [h0, Nat.zero_testBit] at hbit
    exact absurd hbit (by decide)
  refine ⟨d + 2, ?_⟩
  rw [chooseRoute, if_pos hroute, routeLoop_free hd (by omega) hmapped hfree, Option.map_some]
  simp only [Except.map, if_neg hne]

/-- A call that does what its callers expect had what it needs. -/
theorem Arms.usable (h : Arms s timer femto periodic now now') : Usable s timer periodic := by
  obtain ⟨fuel, s', code, hrun, hcount, hrouted⟩ := h
  rcases armHpetTimer_eq_some hrun with hopen | ⟨htimer, hperiod, io, config, hchoose, hstart⟩
  · exact absurd (hopen ▸ hcount) (pushOffCount_ne _)
  rcases startTimer_spec (c := s.cpu) (s := { s with cpu := s.cpu.pushOff, ioApic := io }) rfl
      timer (femto / s.hpet.hpetPeriod) config periodic now now' with
    ⟨-, -, he⟩ | ⟨hcap, s₁, he, -, hio, hcnf⟩
  · obtain ⟨rfl, -⟩ := Prod.mk.inj (Except.ok.inj (he.symm.trans hstart))
    exact absurd hcount (pushOffCount_ne _)
  obtain ⟨rfl, rfl⟩ := Prod.mk.inj (Except.ok.inj (he.symm.trans hstart))
  refine ⟨htimer, hperiod, ?_, fun hroute => ?_⟩
  · rcases chooseRoute_eq_some hchoose with ⟨-, -, rfl⟩ | ⟨-, irq, -, -, -, rfl, -⟩
    · exact hcap
    · rwa [perIntCap_setIntRouteCnf] at hcap
  · rcases chooseRoute_eq_some hchoose with
      ⟨hne, -⟩ | ⟨hmapped, irq, hallowed, hfirst, hfree, rfl, rfl⟩
    · exact absurd hroute hne
    refine ⟨hmapped, irq, ?_, hallowed, hfree, hfirst⟩
    have hlt := allowed_lt hallowed
    rcases hrouted hroute with ⟨irq', -, -, hirq, hentry⟩ | ⟨hone, -⟩
    · rw [hcnf, intRouteCnf_setIntRouteCnf _ hlt] at hirq
      subst hirq
      by_contra hge
      -- from 24 on the entry is not written, and its vector is still 0
      rw [hio] at hentry
      dsimp only at hentry
      rw [writeIoapicRedirect_high (Nat.not_lt.mp hge) hlt] at hentry
      have hvector := vector_redirect hlt hfree
      have htc := s.hpet.timerCount_le
      rw [hentry, vector_redirectEntry, Nat.mod_eq_of_lt (by omega)] at hvector
      omega
    · exact absurd hone (by decide)

/-- A call that has what it needs does what its callers expect. -/
theorem Usable.arms (h : Usable s timer periodic) : Arms s timer femto periodic now now' := by
  obtain ⟨htimer, hperiod, hcap, hfirstFree⟩ := h
  have hrun : ∀ fuel io config, chooseRoute fuel s.ioApic timer (s.config timer) =
      some (.ok (io, some config)) →
      armHpetTimer fuel s timer femto periodic now now' =
        some (startTimer { s with cpu := s.cpu.pushOff, ioApic := io } timer
          (femto / s.hpet.hpetPeriod) config periodic now now') := fun fuel io config hchoose => by
    have hchoose' : chooseRoute fuel s.ioApic timer (s.hpet.regs (timerConfigReg timer)) =
      some (.ok (io, some config)) := hchoose
    unfold armHpetTimer
    dsimp only
    rw [if_neg (Nat.not_le.mpr htimer), if_neg hperiod, hchoose']
    rfl
  by_cases hroute : intRouteCnf (s.config timer) = 0
  · obtain ⟨hmapped, irq, hlt, hallowed, hfree, hfirst⟩ := hfirstFree hroute
    obtain ⟨fuel, hchoose⟩ := chooseRoute_of_firstFree hroute hmapped hallowed hfree
      hfirst
    obtain ⟨hper, hno, -⟩ | ⟨-, s', he, hcount, hio, hcnf⟩ := startTimer_spec (c := s.cpu)
      (s := { s with cpu := s.cpu.pushOff, ioApic := (s.ioApic.writeIoapicRedirect
        (IoApic.redirectReg irq) (redirectEntry (0x30 + timer) destLogical 0xFF false)) }) rfl
      timer (femto / s.hpet.hpetPeriod) (setIntRouteCnf (s.config timer) irq) periodic now now'
    · rw [perIntCap_setIntRouteCnf] at hno
      exact absurd hno (hcap hper)
    refine ⟨fuel, s', 0, by rw [hrun _ _ _ hchoose, he], hcount, fun _ =>
      .inl ⟨irq, hallowed, hfree, ?_, ?_⟩⟩
    · rw [hcnf, intRouteCnf_setIntRouteCnf _ (by omega)]
    · rw [hio]
      exact redirect_writeIoapicRedirect hmapped hlt
  · have hchoose : chooseRoute 0 s.ioApic timer (s.config timer) =
        some (.ok (s.ioApic, some (s.config timer))) := if_neg hroute
    obtain ⟨hper, hno, -⟩ | ⟨-, s', he, hcount, -, -⟩ := startTimer_spec (c := s.cpu)
      (s := { s with cpu := s.cpu.pushOff }) rfl timer (femto / s.hpet.hpetPeriod)
      (s.config timer) periodic now now'
    · exact absurd hno (hcap hper)
    · exact ⟨0, s', 0, by rw [hrun _ _ _ hchoose]; exact congrArg some he, hcount,
        fun h => absurd h hroute⟩

/-- **When `arm_hpet_timer` does what it should.** It returns with its `push_off` undone and the timer
routed to an interrupt that was free if and only if the timer exists, the period is not 0, a periodic
timer can be periodic, and the first interrupt from 9 on that is allowed is below 24 and free, if the
timer has no route yet. -/
theorem arms_iff : Arms s timer femto periodic now now' ↔ Usable s timer periodic :=
  ⟨Arms.usable, Usable.arms⟩

end Arm

/-! ## An I/O APIC in use -/

/-- One timer that allows every interrupt, at 100 MHz, on an I/O APIC with these registers. -/
def oneTimer (regs : Nat → BitVec 32) : Machine where
  cpu := Cpu.started
  hpet :=
    { regs := fun reg => if reg = timerConfigReg 0 then 0xFFFFFFFF00000010 else 0
      hpetPeriod := 10000000
      timerCount := 1
      timerCount_le := by decide }
  ioApic := ⟨true, regs⟩

/-- Interrupt 10 is mapped, and the timer gets interrupt 9. -/
theorem arms_oneTimer : Arms (oneTimer fun reg => if reg = 0x24 then 0x31 else 0) 0 1000000000 true 0 0 :=
  arms_iff.mpr ⟨by decide, by decide, by decide, fun _ => ⟨rfl, 9, by decide, by decide, by decide,
    fun j hj h => absurd h.1 (Nat.not_le.mpr hj)⟩⟩

/-- Interrupt 9 is mapped, and all others are free: the call does not return. -/
theorem armHpetTimer_stuck :
    ¬∀ s timer femto periodic now now', Arms s timer femto periodic now now' := by
  intro h
  obtain ⟨-, -, -, hfirst⟩ :=
    (h (oneTimer fun reg => if reg = 0x22 then 0x31 else 0) 0 1000000000 true 0 0).usable
  obtain ⟨-, irq, hlt, hallowed, hfree, hnone⟩ := hfirst (by decide)
  rcases Nat.lt_or_ge 9 irq with hgt | hle
  · exact hnone 9 hgt (by decide)
  · obtain rfl : irq = 9 := Nat.le_antisymm hle hallowed.1
    exact hfree (by decide)

end Colibri.Timer

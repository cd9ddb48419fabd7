import Colibri.Lib.Words

/-!
# The interrupt wrapper

Model of `kernel/arch/x86-64/interrupt/isr_wrapper.S`, with what the processor does when it delivers
an interrupt and at `iretq`, and of `int_frame_t` of `kernel/x86-64.h`.

* A register is a 64-bit word, an `xmm` register two of them. `rflags` is that of the interrupted
  program: what `add` and `sub` of the wrapper leave there is not read before `iretq` loads it anew.
* `interrupt_dispatch` stands between `isrEntry` and `isrExit`. Of its machine nothing is assumed but
  that `%rax` is the frame it returns and what that frame then holds.
* Faults of the accesses to the stack are left out: its pages are mapped.

While the wrapper runs, its stack is a list of words (`View`), and every instruction but
`popq %rsp` acts on that list (`Shows.exec`). So the frame is found by running the pushes on a list
(`isrEntry_frame`), and the registers after `iretq` by running the pops on it (`isrExit_eq`).
-/

namespace Colibri.Interrupt

open Colibri.Lib

/-- The general registers. -/
inductive Reg where
  | rax | rcx | rdx | rbx | rsp | rbp | rsi | rdi
  | r8 | r9 | r10 | r11 | r12 | r13 | r14 | r15
  deriving DecidableEq, Repr

/-- `xmm_t`. -/
structure Xmm where
  low : BitVec 64
  high : BitVec 64
  deriving DecidableEq, Repr

/-- The registers a program runs on. -/
@[ext] structure Context where
  gpr : Reg → BitVec 64
  xmm : Fin 16 → Xmm
  rip : BitVec 64
  cs : BitVec 64
  rflags : BitVec 64
  ss : BitVec 64

/-- The state of a processor and its memory. -/
@[ext] structure Machine extends Context where
  cr2 : BitVec 64
  mem : Mem

/-! ## The instructions -/

/-- A register is written. -/
def Machine.set (m : Machine) (r : Reg) (w : BitVec 64) : Machine :=
  { m with gpr := Function.update m.gpr r w }

/-- `pushq`. -/
def Machine.push (m : Machine) (w : BitVec 64) : Machine :=
  let sp := m.gpr .rsp - 8
  { m.set .rsp sp with mem := m.mem.store sp.toNat 8 w.toNat }

/-- The word on top of the stack. -/
def Machine.top (m : Machine) : BitVec 64 := BitVec.ofNat 64 (m.mem.load (m.gpr .rsp).toNat 8)

/-- `popq`. A popped stack pointer is not incremented. -/
def Machine.pop (m : Machine) (r : Reg) : Machine := (m.set .rsp (m.gpr .rsp + 8)).set r m.top

/-- `movdqu %xmm, (%rsp)`. -/
def Machine.storeXmm (m : Machine) (x : Fin 16) : Machine :=
  let sp := (m.gpr .rsp).toNat
  { m with mem := (m.mem.store (sp + 8) 8 (m.xmm x).high.toNat).store sp 8 (m.xmm x).low.toNat }

/-- `movdqu (%rsp), %xmm`. -/
def Machine.loadXmm (m : Machine) (x : Fin 16) : Machine :=
  let sp := (m.gpr .rsp).toNat
  let v : Xmm := ⟨BitVec.ofNat 64 (m.mem.load sp 8), BitVec.ofNat 64 (m.mem.load (sp + 8) 8)⟩
  { m with xmm := Function.update m.xmm x v }

/-- What `push_reg` and `pop_reg` are made of. `pushXmm` and `popXmm` are the macros `push_xmm` and
`pop_xmm`. -/
inductive Op where
  | pushq (r : Reg)
  | popq (r : Reg)
  | pushXmm (x : Fin 16)
  | popXmm (x : Fin 16)
  | movqCr2Rax

def Op.exec (m : Machine) : Op → Machine
  | .pushq r => m.push (m.gpr r)
  | .popq r => m.pop r
  | .pushXmm x => (m.set .rsp (m.gpr .rsp - 16)).storeXmm x
  | .popXmm x =>
    let m := m.loadXmm x
    m.set .rsp (m.gpr .rsp + 16)
  | .movqCr2Rax => m.set .rax m.cr2

def run (m : Machine) (ops : List Op) : Machine := ops.foldl Op.exec m

/-- `push_reg`. -/
def pushReg : List Op :=
  [.pushXmm 15, .pushXmm 14, .pushXmm 13, .pushXmm 12, .pushXmm 11, .pushXmm 10, .pushXmm 9,
    .pushXmm 8, .pushXmm 7, .pushXmm 6, .pushXmm 5, .pushXmm 4, .pushXmm 3, .pushXmm 2, .pushXmm 1,
    .pushXmm 0, .pushq .rax, .pushq .rcx, .pushq .rdx, .pushq .rbx, .pushq .rsp, .pushq .rbp,
    .pushq .rsi, .pushq .rdi, .pushq .r8, .pushq .r9, .pushq .r10, .pushq .r11, .pushq .r12,
    .pushq .r13, .pushq .r14, .pushq .r15, .movqCr2Rax, .pushq .rax]

/-- The pops of `pop_reg` up to that of `%rsp`. -/
def popLow : List Op :=
  [.popq .rax, .popq .r15, .popq .r14, .popq .r13, .popq .r12, .popq .r11, .popq .r10, .popq .r9,
    .popq .r8, .popq .rdi, .popq .rsi, .popq .rbp]

/-- The pops of `pop_reg` after that of `%rsp`. -/
def popHigh : List Op :=
  [.popq .rbx, .popq .rdx, .popq .rcx, .popq .rax, .popXmm 0, .popXmm 1, .popXmm 2, .popXmm 3,
    .popXmm 4, .popXmm 5, .popXmm 6, .popXmm 7, .popXmm 8, .popXmm 9, .popXmm 10, .popXmm 11,
    .popXmm 12, .popXmm 13, .popXmm 14, .popXmm 15]

/-- `pop_reg`. -/
def popReg : List Op := popLow ++ .popq .rsp :: popHigh

/-- `iretq`. -/
def Machine.iretq (m : Machine) : Machine :=
  let sp := (m.gpr .rsp).toNat
  let word i := BitVec.ofNat 64 (m.mem.load (sp + 8 * i) 8)
  { m.set .rsp (word 3) with rip := word 0, cs := word 1, rflags := word 2, ss := word 4 }

/-! ## Delivery and the wrapper -/

/-- `GDT_ENTRY_KERNEL_CODE`. -/
def gdtEntryKernelCode : BitVec 64 := 0x8

/-- The vectors whose stub is a `vector_err`. -/
def errVectors : List Nat := [8, 10, 11, 12, 13, 14, 17]

/-- The stack an interrupt is delivered on: in user mode that of the TSS, aligned to 16 bytes. -/
def Machine.deliveryStack (m : Machine) (rsp0 : BitVec 64) : BitVec 64 :=
  (if m.cs &&& 3 = 0 then m.gpr .rsp else rsp0) &&& ~~~15

/-- The processor delivers an interrupt through an interrupt gate: it pushes the registers `iretq`
takes back, and an error code if the exception has one. `IF`, `TF`, `NT` and `RF` are cleared. -/
def Machine.deliver (m : Machine) (rsp0 handler : BitVec 64) (err : Option (BitVec 64)) : Machine :=
  let pushed := [m.ss, m.gpr .rsp, m.rflags, m.cs, m.rip] ++ err.toList
  { pushed.foldl Machine.push (m.set .rsp (m.deliveryStack rsp0)) with
    rip := handler, cs := gdtEntryKernelCode, ss := if m.cs &&& 3 = 0 then m.ss else 0
    rflags := m.rflags &&& ~~~0x14300 }

/-- `vector_handler_N`, a `vector_err` or a `vector_no_err`. -/
def vectorHandler (v : Nat) (m : Machine) : Machine :=
  if v ∈ errVectors then m.push (BitVec.ofNat 64 v) else (m.push 0).push (BitVec.ofNat 64 v)

/-- The first part of `isr_wrapper`: the call of `interrupt_dispatch` pushes the return address. -/
def isrEntry (ret : BitVec 64) (m : Machine) : Machine :=
  let m := run m pushReg
  (m.set .rdi (m.gpr .rsp)).push ret

/-- The second part of `isr_wrapper`, when `interrupt_dispatch` has returned. -/
def isrExit (m : Machine) : Machine :=
  let m := run (m.set .rsp (m.gpr .rax)) popReg
  (m.set .rsp (m.gpr .rsp + 16)).iretq

/-- What `interrupt_dispatch` is entered with, when the vector `v` is delivered. -/
def interruptEntry (rsp0 handler ret : BitVec 64) (v : Nat) (err : Option (BitVec 64))
    (m : Machine) : Machine :=
  isrEntry ret (vectorHandler v (m.deliver rsp0 handler err))

/-! ## The frame -/

/-- `registers_t`. -/
@[ext] structure Registers where
  cr2 : BitVec 64
  gpr : Reg → BitVec 64
  xmm : Fin 16 → Xmm

/-- `int_frame_t`. -/
@[ext] structure Frame where
  registers : Registers
  vectorNumber : BitVec 64
  errorCode : BitVec 64
  iretRip : BitVec 64
  iretCs : BitVec 64
  iretFlags : BitVec 64
  iretRsp : BitVec 64
  iretSs : BitVec 64

/-- The fields of `registers_t` before `rsp`, in their order. -/
def Registers.low (r : Registers) : List (BitVec 64) :=
  [r.cr2, r.gpr .r15, r.gpr .r14, r.gpr .r13, r.gpr .r12, r.gpr .r11, r.gpr .r10, r.gpr .r9,
    r.gpr .r8, r.gpr .rdi, r.gpr .rsi, r.gpr .rbp]

/-- The fields of `registers_t` after `rsp`, in their order. -/
def Registers.high (r : Registers) : List (BitVec 64) :=
  [r.gpr .rbx, r.gpr .rdx, r.gpr .rcx, r.gpr .rax,
    (r.xmm 0).low, (r.xmm 0).high, (r.xmm 1).low, (r.xmm 1).high, (r.xmm 2).low, (r.xmm 2).high,
    (r.xmm 3).low, (r.xmm 3).high, (r.xmm 4).low, (r.xmm 4).high, (r.xmm 5).low, (r.xmm 5).high,
    (r.xmm 6).low, (r.xmm 6).high, (r.xmm 7).low, (r.xmm 7).high, (r.xmm 8).low, (r.xmm 8).high,
    (r.xmm 9).low, (r.xmm 9).high, (r.xmm 10).low, (r.xmm 10).high, (r.xmm 11).low, (r.xmm 11).high,
    (r.xmm 12).low, (r.xmm 12).high, (r.xmm 13).low, (r.xmm 13).high, (r.xmm 14).low,
    (r.xmm 14).high, (r.xmm 15).low, (r.xmm 15).high]

/-- The fields of `int_frame_t` after `registers.rsp`, in their order. -/
def Frame.high (f : Frame) : List (BitVec 64) :=
  f.registers.high ++ [f.vectorNumber, f.errorCode, f.iretRip, f.iretCs, f.iretFlags, f.iretRsp,
    f.iretSs]

/-- `sizeof(int_frame_t)`. -/
def frameSize : Nat := 448

/-- The offset of the field after `registers.rsp`. -/
def rbxOffset : Nat := 104

/-- `int_frame_t` as it lies in memory. -/
def Frame.words (f : Frame) : List (BitVec 64) :=
  f.registers.low ++ f.registers.gpr .rsp :: f.high

theorem frameSize_eq : frameSize = 448 := rfl

theorem Frame.length_words (f : Frame) : f.words.length = 56 := rfl

/-- The part of a frame up to `registers.rsp`, and the rest. -/
theorem Frame.split {mem : Mem} {F : Nat} {f : Frame} (h : mem.HasWords F f.words) :
    mem.HasWords F (f.registers.low ++ [f.registers.gpr .rsp]) ∧
      mem.HasWords (F + rbxOffset) f.high := by
  rw [Frame.words, List.append_cons] at h
  exact Mem.HasWords.append_iff.mp h

theorem Frame.size_high (f : Frame) : 8 * f.high.length = frameSize - rbxOffset := by
  have hlen : f.high.length = 43 := rfl
  rw [hlen]
  rfl

/-- What `iretq` goes on with after the registers of the frame were popped. -/
def Frame.context (f : Frame) : Context where
  gpr := Function.update f.registers.gpr .rsp f.iretRsp
  xmm := f.registers.xmm
  rip := f.iretRip
  cs := f.iretCs
  rflags := f.iretFlags
  ss := f.iretSs

/-- Where the frame of an interrupt lies. -/
def Machine.frameAddr (m : Machine) (rsp0 : BitVec 64) : Nat :=
  (m.deliveryStack rsp0).toNat - frameSize

/-- The frame at `F` of an interrupted program. -/
def Machine.saved (m : Machine) (F v : Nat) (err : Option (BitVec 64)) : Frame where
  registers := ⟨m.cr2, Function.update m.gpr .rsp (BitVec.ofNat 64 (F + rbxOffset)), m.xmm⟩
  vectorNumber := BitVec.ofNat 64 v
  errorCode := err.getD 0
  iretRip := m.rip
  iretCs := m.cs
  iretFlags := m.rflags
  iretRsp := m.gpr .rsp
  iretSs := m.ss

/-! ## The stack as a list of words -/

/-- What the wrapper works on: the registers without `%rsp`, and its stack. -/
structure View where
  gpr : Reg → BitVec 64
  xmm : Fin 16 → Xmm
  cr2 : BitVec 64
  stack : List (BitVec 64)

/-- The effect on a stack that ends at `top`. `popq %rsp` has none: it may leave the stack. -/
def Op.view (top : Nat) (v : View) : Op → Option View
  | .pushq r =>
    let w := if r = .rsp then BitVec.ofNat 64 (top - 8 * v.stack.length) else v.gpr r
    some { v with stack := w :: v.stack }
  | .popq r =>
    match v.stack with
    | [] => none
    | w :: ws =>
      if r = .rsp then none else some { v with gpr := Function.update v.gpr r w, stack := ws }
  | .pushXmm x => some { v with stack := (v.xmm x).low :: (v.xmm x).high :: v.stack }
  | .popXmm x =>
    match v.stack with
    | low :: high :: ws => some { v with xmm := Function.update v.xmm x ⟨low, high⟩, stack := ws }
    | _ => none
  | .movqCr2Rax => some { v with gpr := Function.update v.gpr .rax v.cr2 }

def runView (top : Nat) : View → List Op → Option View
  | v, [] => some v
  | v, op :: ops => (op.view top v).bind fun v' => runView top v' ops

/-- The words an instruction pushes. -/
def Op.growth : Op → Nat
  | .pushq _ => 1
  | .pushXmm _ => 2
  | _ => 0

theorem growth_popLow : (popLow.map Op.growth).sum = 0 := rfl

theorem growth_popHigh : (popHigh.map Op.growth).sum = 0 := rfl

/-- The machine is in the state `v`, on a stack that ends at `top`; of the memory that was there,
it has changed no byte outside `low` to `top`. -/
structure Shows (base : Mem) (low top : Nat) (m : Machine) (v : View) : Prop where
  lt : top < 2 ^ 64
  rsp : (m.gpr .rsp).toNat + 8 * v.stack.length = top
  gpr : ∀ r, r ≠ .rsp → m.gpr r = v.gpr r
  xmm : m.xmm = v.xmm
  cr2 : m.cr2 = v.cr2
  words : m.mem.HasWords (m.gpr .rsp).toNat v.stack
  frame : ∀ i, i < low ∨ top ≤ i → m.mem i = base i

section Shows

variable {base : Mem} {low top : Nat} {m m' : Machine} {v v' : View} {r : Reg} {w : BitVec 64}
  {ws : List (BitVec 64)}

theorem set_gpr : (m.set r w).gpr = Function.update m.gpr r w := rfl

@[simp] theorem set_gpr_self : (m.set r w).gpr r = w := Function.update_self _ _ _

theorem set_gpr_of_ne {r' : Reg} (h : r' ≠ r) : (m.set r w).gpr r' = m.gpr r' :=
  Function.update_of_ne h _ _

theorem set_xmm : (m.set r w).xmm = m.xmm := rfl

theorem set_cr2 : (m.set r w).cr2 = m.cr2 := rfl

theorem set_mem : (m.set r w).mem = m.mem := rfl

theorem push_rsp : (m.push w).gpr .rsp = m.gpr .rsp - 8 := set_gpr_self

theorem push_mem : (m.push w).mem = m.mem.store (m.gpr .rsp - 8).toNat 8 w.toNat := rfl

theorem pop_rsp_self : (m.pop .rsp).gpr .rsp = m.top := set_gpr_self

theorem pop_gpr_of_ne {r' : Reg} (h : r' ≠ r) (hsp : r' ≠ .rsp) : (m.pop r).gpr r' = m.gpr r' :=
  (set_gpr_of_ne h).trans (set_gpr_of_ne hsp)

theorem pop_xmm : (m.pop r).xmm = m.xmm := rfl

theorem pop_cr2 : (m.pop r).cr2 = m.cr2 := rfl

theorem pop_mem : (m.pop r).mem = m.mem := rfl

/-- The stack pointer as a number. -/
theorem Shows.rsp_eq (h : Shows base low top m v) :
    m.gpr .rsp = BitVec.ofNat 64 (top - 8 * v.stack.length) := by
  have hrsp := h.rsp
  have he : top - 8 * v.stack.length = (m.gpr .rsp).toNat := by omega
  rw [he, BitVec.ofNat_toNat, BitVec.setWidth_eq]

/-- The other registers do not matter. -/
theorem Shows.congr (h : Shows base low top m v) (hg : m'.gpr = m.gpr) (hx : m'.xmm = m.xmm)
    (hc : m'.cr2 = m.cr2) (hm : m'.mem = m.mem) : Shows base low top m' v where
  lt := h.lt
  rsp := by rw [hg, h.rsp]
  gpr r hr := by rw [hg, h.gpr r hr]
  xmm := by rw [hx, h.xmm]
  cr2 := by rw [hc, h.cr2]
  words := by
    rw [hm, hg]
    exact h.words
  frame i hi := by rw [hm, h.frame i hi]

theorem Shows.set (h : Shows base low top m v) (hr : r ≠ .rsp) (w : BitVec 64) :
    Shows base low top (m.set r w) { v with gpr := Function.update v.gpr r w } where
  lt := h.lt
  rsp := by
    rw [set_gpr_of_ne hr.symm]
    exact h.rsp
  gpr r' hr' := by
    show (m.set r w).gpr r' = Function.update v.gpr r w r'
    by_cases he : r' = r
    · rw [he, set_gpr_self, Function.update_self]
    · rw [set_gpr_of_ne he, Function.update_of_ne he, h.gpr r' hr']
  xmm := h.xmm
  cr2 := h.cr2
  words := by
    rw [set_gpr_of_ne hr.symm]
    exact h.words
  frame := h.frame

theorem Shows.push (h : Shows base low top m v) (w : BitVec 64)
    (hroom : low + 8 * (v.stack.length + 1) ≤ top) :
    Shows base low top (m.push w) { v with stack := w :: v.stack } := by
  have hrsp := h.rsp
  have hsp : (m.gpr .rsp - 8).toNat + 8 = (m.gpr .rsp).toNat := by bv_omega
  have hwords := h.words
  rw [← hsp] at hwords
  exact {
    lt := h.lt
    rsp := by
      rw [push_rsp, List.length_cons]
      omega
    gpr := fun r hr => (set_gpr_of_ne hr).trans (h.gpr r hr)
    xmm := h.xmm
    cr2 := h.cr2
    words := by
      rw [push_rsp, push_mem]
      exact hwords.push
    frame := fun i hi => by
      rw [← h.frame i hi, push_mem]
      exact Mem.store_of_notMem (by omega) }

theorem Shows.pushXmm (h : Shows base low top m v) (x : Fin 16)
    (hroom : low + 8 * (v.stack.length + 2) ≤ top) :
    Shows base low top (Op.exec m (.pushXmm x))
      { v with stack := (v.xmm x).low :: (v.xmm x).high :: v.stack } := by
  have hrsp := h.rsp
  have hsp : (m.gpr .rsp - 16).toNat + 8 + 8 = (m.gpr .rsp).toNat := by bv_omega
  have hwords := h.words
  have hnew : (Op.exec m (.pushXmm x)).gpr .rsp = m.gpr .rsp - 16 := set_gpr_self
  have hmem : (Op.exec m (.pushXmm x)).mem =
      (m.mem.store ((m.gpr .rsp - 16).toNat + 8) 8 (v.xmm x).high.toNat).store
        (m.gpr .rsp - 16).toNat 8 (v.xmm x).low.toNat := by
    rw [← h.xmm, ← hnew]
    rfl
  rw [← hsp] at hwords
  exact {
    lt := h.lt
    rsp := by
      rw [hnew, List.length_cons, List.length_cons]
      omega
    gpr := fun r hr => (set_gpr_of_ne hr).trans (h.gpr r hr)
    xmm := h.xmm
    cr2 := h.cr2
    words := by
      rw [hnew, hmem]
      exact hwords.push.push
    frame := fun i hi => by
      rw [← h.frame i hi, hmem, Mem.store_of_notMem (by omega), Mem.store_of_notMem (by omega)] }

theorem Shows.pop (h : Shows base low top m v) (hr : r ≠ .rsp) (hv : v.stack = w :: ws) :
    Shows base low top (m.pop r) { v with gpr := Function.update v.gpr r w, stack := ws } := by
  have hrsp := h.rsp
  have hlt := h.lt
  have hwords := h.words
  rw [hv] at hrsp hwords
  rw [List.length_cons] at hrsp
  have hsp : (m.gpr .rsp + 8).toNat = (m.gpr .rsp).toNat + 8 := by bv_omega
  have htop : m.top = w := Mem.ofNat_load_of_eq hwords.1
  have hskip : Shows base low top (m.set .rsp (m.gpr .rsp + 8)) { v with stack := ws } :=
    { lt := h.lt
      rsp := by
        rw [set_gpr_self, hsp, ← hrsp]
        ring
      gpr := fun r' hr' => (set_gpr_of_ne hr').trans (h.gpr r' hr')
      xmm := h.xmm
      cr2 := h.cr2
      words := by
        rw [set_gpr_self, hsp]
        exact hwords.2
      frame := h.frame }
  rw [← htop]
  exact hskip.set hr _

theorem Shows.popXmm (h : Shows base low top m v) (x : Fin 16) {l u : BitVec 64}
    (hv : v.stack = l :: u :: ws) :
    Shows base low top (Op.exec m (.popXmm x))
      { v with xmm := Function.update v.xmm x ⟨l, u⟩, stack := ws } := by
  have hrsp := h.rsp
  have hlt := h.lt
  have hwords := h.words
  rw [hv] at hrsp hwords
  simp only [List.length_cons] at hrsp
  obtain ⟨hl, hu, hrest⟩ := hwords
  have hsp : (m.gpr .rsp + 16).toNat = (m.gpr .rsp).toNat + 8 + 8 := by bv_omega
  have hnew : (Op.exec m (.popXmm x)).gpr .rsp = m.gpr .rsp + 16 := set_gpr_self
  exact {
    lt := h.lt
    rsp := by
      rw [hnew, hsp, ← hrsp]
      ring
    gpr := fun r hr => (set_gpr_of_ne hr).trans (h.gpr r hr)
    xmm := by
      show Function.update m.xmm x _ = _
      rw [Mem.ofNat_load_of_eq hl, Mem.ofNat_load_of_eq hu, h.xmm]
    cr2 := h.cr2
    words := by
      rw [hnew, hsp]
      exact hrest
    frame := h.frame }

/-- **An instruction acts on the stack as on a list.** -/
theorem Shows.exec {op : Op} (h : Shows base low top m v)
    (hroom : low + 8 * (v.stack.length + op.growth) ≤ top) (hv : op.view top v = some v') :
    Shows base low top (op.exec m) v' ∧ v'.stack.length ≤ v.stack.length + op.growth := by
  cases op with
  | pushq r =>
    obtain rfl := Option.some.inj hv
    refine ⟨?_, le_refl _⟩
    split_ifs with hr
    · rw [hr, ← h.rsp_eq]
      exact h.push _ hroom
    · rw [← h.gpr r hr]
      exact h.push _ hroom
  | popq r =>
    cases hst : v.stack with
    | nil => simp [Op.view, hst] at hv
    | cons w ws =>
      simp only [Op.view, hst] at hv
      split_ifs at hv with hr
      obtain rfl := Option.some.inj hv
      exact ⟨h.pop hr hst, Nat.le_succ _⟩
  | pushXmm x =>
    obtain rfl := Option.some.inj hv
    exact ⟨h.pushXmm x hroom, le_refl _⟩
  | popXmm x =>
    rcases hst : v.stack with - | ⟨l, - | ⟨u, ws⟩⟩
    · simp [Op.view, hst] at hv
    · simp [Op.view, hst] at hv
    · simp only [Op.view, hst] at hv
      obtain rfl := Option.some.inj hv
      exact ⟨h.popXmm x hst, Nat.le_add_right _ 2⟩
  | movqCr2Rax =>
    obtain rfl := Option.some.inj hv
    have hset := h.set (r := .rax) (by decide) v.cr2
    rw [← h.cr2] at hset ⊢
    exact ⟨hset, le_refl _⟩

/-- **And so do lists of them.** -/
theorem Shows.run {ops : List Op} (h : Shows base low top m v)
    (hroom : low + 8 * (v.stack.length + (ops.map Op.growth).sum) ≤ top)
    (hv : runView top v ops = some v') : Shows base low top (run m ops) v' := by
  induction ops generalizing m v with
  | nil =>
    obtain rfl := Option.some.inj hv
    exact h
  | cons op ops ih =>
    obtain ⟨v₁, hv₁, hv⟩ := Option.bind_eq_some_iff.mp hv
    rw [List.map_cons, List.sum_cons] at hroom
    obtain ⟨h₁, hlen⟩ := h.exec (by omega) hv₁
    exact ih h₁ (by omega) hv

theorem Shows.pushAll (h : Shows base low top m v) (ws : List (BitVec 64))
    (hroom : low + 8 * (v.stack.length + ws.length) ≤ top) :
    Shows base low top (ws.foldl Machine.push m) { v with stack := ws.reverse ++ v.stack } := by
  induction ws generalizing m v with
  | nil => exact h
  | cons w ws ih =>
    rw [List.length_cons] at hroom
    have hrest := ih (h.push w (by omega)) (by rw [List.length_cons]; omega)
    rwa [List.reverse_cons, List.append_assoc]

end Shows

/-! ## The frame `interrupt_dispatch` gets -/

section Entry

variable {rsp0 handler ret : BitVec 64} {v : Nat} {err : Option (BitVec 64)} {m : Machine}

/-- The registers on the stack after `push_reg`. -/
theorem runView_pushReg {g : Reg → BitVec 64} {x : Fin 16 → Xmm} {c : BitVec 64} {F top : Nat}
    {ws : List (BitVec 64)} (hws : ws.length = 7) (htop : F + frameSize = top) (r : Registers)
    (hr : r = ⟨c, Function.update g .rsp (BitVec.ofNat 64 (F + rbxOffset)), x⟩) :
    runView top ⟨g, x, c, ws⟩ pushReg =
      some ⟨Function.update g .rax c, x, c, r.low ++ r.gpr .rsp :: (r.high ++ ws)⟩ := by
  have hslot : F + rbxOffset = top - 8 * (ws.length + 36) := by
    rw [hws, ← htop]
    unfold rbxOffset frameSize
    omega
  rw [hr, hslot]
  rfl

theorem toNat_deliveryStack_mod : (m.deliveryStack rsp0).toNat % 16 = 0 := by
  unfold Machine.deliveryStack
  generalize (if m.cs &&& 3 = 0 then m.gpr .rsp else rsp0) = x
  have hlow : x &&& ~~~15 &&& 15 = 0#64 := by
    rw [BitVec.and_assoc]
    simp
  have hmod := congrArg BitVec.toNat hlow
  rwa [BitVec.toNat_and, show (15 : BitVec 64).toNat = 2 ^ 4 - 1 from rfl,
    Nat.and_two_pow_sub_one_eq_mod] at hmod

/-- The stub makes the same stack of both kinds of exceptions. -/
theorem shows_vectorHandler {low : Nat}
    (hroom : low + frameSize ≤ (m.deliveryStack rsp0).toNat) (herr : err.isSome ↔ v ∈ errVectors) :
    Shows m.mem low (m.deliveryStack rsp0).toNat (vectorHandler v (m.deliver rsp0 handler err))
      ⟨m.gpr, m.xmm, m.cr2,
        [BitVec.ofNat 64 v, err.getD 0, m.rip, m.cs, m.rflags, m.gpr .rsp, m.ss]⟩ := by
  rw [frameSize_eq] at hroom
  have hstart : Shows m.mem low (m.deliveryStack rsp0).toNat (m.set .rsp (m.deliveryStack rsp0))
      ⟨m.gpr, m.xmm, m.cr2, []⟩ :=
    { lt := (m.deliveryStack rsp0).isLt
      rsp := by simp
      gpr := fun r hr => set_gpr_of_ne hr
      xmm := rfl
      cr2 := rfl
      words := trivial
      frame := fun _ _ => rfl }
  have hdeliver : Shows m.mem low (m.deliveryStack rsp0).toNat (m.deliver rsp0 handler err)
      ⟨m.gpr, m.xmm, m.cr2, err.toList ++ [m.rip, m.cs, m.rflags, m.gpr .rsp, m.ss]⟩ := by
    have hpush := hstart.pushAll ([m.ss, m.gpr .rsp, m.rflags, m.cs, m.rip] ++ err.toList)
      (by cases err <;> simp <;> omega)
    have hstack : ([m.ss, m.gpr .rsp, m.rflags, m.cs, m.rip] ++ err.toList).reverse ++ [] =
        err.toList ++ [m.rip, m.cs, m.rflags, m.gpr .rsp, m.ss] := by cases err <;> rfl
    rw [hstack] at hpush
    unfold Machine.deliver
    exact hpush.congr rfl rfl rfl rfl
  unfold vectorHandler
  cases err with
  | none =>
    have hv : v ∉ errVectors := fun h => absurd (herr.mpr h) (by simp)
    rw [if_neg hv]
    exact (hdeliver.push 0 (by simp; omega)).push _ (by simp; omega)
  | some e =>
    rw [if_pos (herr.mp rfl)]
    exact hdeliver.push _ (by simp; omega)

/-- The machine when `interrupt_dispatch` is entered. -/
theorem shows_interruptEntry (hroom : frameSize + 8 ≤ (m.deliveryStack rsp0).toNat)
    (herr : err.isSome ↔ v ∈ errVectors) :
    ∃ g, g .rdi = BitVec.ofNat 64 (m.frameAddr rsp0) ∧
      Shows m.mem (m.frameAddr rsp0 - 8) (m.frameAddr rsp0 + frameSize)
        (interruptEntry rsp0 handler ret v err m)
        ⟨g, m.xmm, m.cr2, ret :: (m.saved (m.frameAddr rsp0) v err).words⟩ := by
  have hF : m.frameAddr rsp0 + frameSize = (m.deliveryStack rsp0).toNat :=
    Nat.sub_add_cancel (by omega)
  generalize m.frameAddr rsp0 = F at *
  have hlow : F - 8 + frameSize ≤ (m.deliveryStack rsp0).toNat := by omega
  have hstub := @shows_vectorHandler rsp0 handler v err m (F - 8) hlow herr
  rw [← hF] at hstub hroom
  have hpush : Shows m.mem (F - 8) (F + frameSize)
      (run (vectorHandler v (m.deliver rsp0 handler err)) pushReg)
      ⟨Function.update m.gpr .rax m.cr2, m.xmm, m.cr2, (m.saved F v err).words⟩ :=
    hstub.run (by show F - 8 + 8 * (7 + 49) ≤ F + 448; omega)
      (runView_pushReg rfl rfl (m.saved F v err).registers rfl)
  have hrdi : (run (vectorHandler v (m.deliver rsp0 handler err)) pushReg).gpr .rsp =
      BitVec.ofNat 64 F := by
    rw [hpush.rsp_eq, Frame.length_words]
    exact congrArg _ (Nat.add_sub_cancel_right F frameSize)
  have hcall := (hpush.set (r := .rdi) (by decide) (BitVec.ofNat 64 F)).push ret (by
    rw [Frame.length_words]
    rw [frameSize_eq] at *
    omega)
  unfold interruptEntry isrEntry
  rw [← hrdi] at hcall ⊢
  exact ⟨_, Function.update_self _ _ _, hcall⟩

section

variable (hroom : frameSize + 8 ≤ (m.deliveryStack rsp0).toNat)
  (herr : err.isSome ↔ v ∈ errVectors)
include hroom herr

theorem interruptEntry_rdi :
    (interruptEntry rsp0 handler ret v err m).gpr .rdi = BitVec.ofNat 64 (m.frameAddr rsp0) := by
  obtain ⟨g, hg, h⟩ := @shows_interruptEntry rsp0 handler ret v err m hroom herr
  exact (h.gpr .rdi (by decide)).trans hg

theorem interruptEntry_words : (interruptEntry rsp0 handler ret v err m).mem.HasWords
    (m.frameAddr rsp0) (m.saved (m.frameAddr rsp0) v err).words := by
  obtain ⟨g, hg, h⟩ := @shows_interruptEntry rsp0 handler ret v err m hroom herr
  have hrsp := h.rsp
  rw [List.length_cons, Frame.length_words, frameSize_eq] at hrsp
  have hwords := h.words.tail
  rwa [show ((interruptEntry rsp0 handler ret v err m).gpr .rsp).toNat + 8 = m.frameAddr rsp0 by
    omega] at hwords

/-- **The frame of an interrupt.** Whatever the vector, and whether or not the exception has an error
code, `interrupt_dispatch` gets the address of an `int_frame_t` with the registers of the interrupted
program. The frame ends where the stack of the delivery starts and is aligned for the call. No other
byte of memory has changed but those of the return address. -/
theorem interruptEntry_frame :
    m.frameAddr rsp0 % 16 = 0 ∧
      (interruptEntry rsp0 handler ret v err m).gpr .rdi = BitVec.ofNat 64 (m.frameAddr rsp0) ∧
      (interruptEntry rsp0 handler ret v err m).mem.HasWords (m.frameAddr rsp0)
        (m.saved (m.frameAddr rsp0) v err).words ∧
      ∀ i, i < m.frameAddr rsp0 - 8 ∨ (m.deliveryStack rsp0).toNat ≤ i →
        (interruptEntry rsp0 handler ret v err m).mem i = m.mem i := by
  refine ⟨?_, interruptEntry_rdi hroom herr, interruptEntry_words hroom herr, fun i hi => ?_⟩
  · have hmod : (m.deliveryStack rsp0).toNat % 16 = 0 := toNat_deliveryStack_mod
    unfold Machine.frameAddr
    rw [frameSize_eq] at *
    omega
  · obtain ⟨g, -, h⟩ := @shows_interruptEntry rsp0 handler ret v err m hroom herr
    refine h.frame i (hi.imp_right fun hi => ?_)
    rw [Machine.frameAddr, Nat.sub_add_cancel (by omega)]
    exact hi

end

/-- A user program, and the stack of the TSS. -/
def userProgram : Machine where
  gpr := fun _ => 7
  xmm := fun _ => ⟨1, 2⟩
  rip := 0x400000
  cs := 0x1b
  rflags := 0x202
  ss := 0x23
  cr2 := 0x5000
  mem := fun _ => 0

def userRsp0 : BitVec 64 := 0xFFFFFFFF80204000

/-- A page fault of the user program. -/
theorem interruptEntry_frame_user :
    (interruptEntry userRsp0 0x1000 0x2000 14 (some 6) userProgram).mem.HasWords 0xFFFFFFFF80203E40
      (userProgram.saved 0xFFFFFFFF80203E40 14 (some 6)).words := by
  have hF : userProgram.frameAddr userRsp0 = 0xFFFFFFFF80203E40 := by decide
  rw [← hF]
  exact (interruptEntry_frame (by decide) (by decide)).2.2.1

end Entry

/-! ## The registers after `iretq` -/

section Exit

variable {m : Machine} {f : Frame} {P : BitVec 64} {top : Nat} {g : Reg → BitVec 64}
  {x : Fin 16 → Xmm} {c : BitVec 64} {ws : List (BitVec 64)}

/-- The registers the first pops of `pop_reg` do not load for good. -/
def highRegs : List Reg := [.rsp, .rbx, .rdx, .rcx, .rax]

theorem runView_popLow (r : Registers) :
    ∃ g', runView top ⟨g, x, c, r.low ++ ws⟩ popLow = some ⟨g', x, c, ws⟩ ∧
      ∀ i, i ∉ highRegs → g' i = r.gpr i := by
  refine ⟨_, rfl, fun i hi => ?_⟩
  cases i <;> first | rfl | exact absurd (by decide) hi

/-- A row of `pop_xmm` loads the registers it names. -/
theorem runView_popXmms (y : Fin 16 → Xmm) (is : List (Fin 16)) :
    ∃ x', runView top ⟨g, x, c, is.flatMap (fun i => [(y i).low, (y i).high]) ++ ws⟩
        (is.map .popXmm) = some ⟨g, x', c, ws⟩ ∧
      (∀ i ∈ is, x' i = y i) ∧ ∀ i, i ∉ is → x' i = x i := by
  induction is generalizing x with
  | nil => exact ⟨x, rfl, fun i hi => absurd hi List.not_mem_nil, fun i _ => rfl⟩
  | cons j is ih =>
    obtain ⟨x', hrun, hin, hout⟩ := ih (x := Function.update x j (y j))
    refine ⟨x', hrun, fun i hi => ?_, fun i hi => ?_⟩
    · -- a register named twice has what the later `pop_xmm` loads
      by_cases hmem : i ∈ is
      · exact hin i hmem
      · obtain rfl := (List.mem_cons.mp hi).resolve_right hmem
        rw [hout i hmem, Function.update_self]
    · rw [List.mem_cons, not_or] at hi
      rw [hout i hi.2, Function.update_of_ne hi.1]

/-- The registers in the order of `pop_reg`. -/
def xmmOrder : List (Fin 16) := [0, 1, 2, 3, 4, 5, 6, 7, 8, 9, 10, 11, 12, 13, 14, 15]

theorem popHigh_eq :
    popHigh = .popq .rbx :: .popq .rdx :: .popq .rcx :: .popq .rax :: xmmOrder.map .popXmm := rfl

theorem Registers.high_eq (r : Registers) : r.high = r.gpr .rbx :: r.gpr .rdx :: r.gpr .rcx ::
    r.gpr .rax :: xmmOrder.flatMap (fun i => [(r.xmm i).low, (r.xmm i).high]) := rfl

theorem runView_popq {r : Reg} {w : BitVec 64} {ops : List Op} (hr : r ≠ .rsp) :
    runView top ⟨g, x, c, w :: ws⟩ (.popq r :: ops) =
      runView top ⟨Function.update g r w, x, c, ws⟩ ops := by
  simp [runView, Op.view, hr]

theorem runView_popHigh (r : Registers) :
    ∃ g', runView top ⟨g, x, c, r.high ++ ws⟩ popHigh = some ⟨g', r.xmm, c, ws⟩ ∧
      ∀ i, i ≠ .rsp → g' i = if i ∈ highRegs then r.gpr i else g i := by
  refine ⟨Function.update (Function.update (Function.update (Function.update g .rbx (r.gpr .rbx))
    .rdx (r.gpr .rdx)) .rcx (r.gpr .rcx)) .rax (r.gpr .rax), ?_, fun i hi => ?_⟩
  · obtain ⟨x', hrun, hin, -⟩ := runView_popXmms r.xmm xmmOrder
    have hall : x' = r.xmm := by
      funext i
      exact hin i (by revert i; decide)
    rw [popHigh_eq, Registers.high_eq]
    simp only [List.cons_append]
    rw [runView_popq (by decide), runView_popq (by decide), runView_popq (by decide),
      runView_popq (by decide), hrun, hall]
  · cases i <;> first | rfl | exact absurd rfl hi

theorem run_append (m : Machine) (ops ops' : List Op) :
    run m (ops ++ ops') = run (run m ops) ops' := List.foldl_append

theorem run_cons (m : Machine) (op : Op) (ops : List Op) : run m (op :: ops) = run (op.exec m) ops :=
  rfl

/-- What pushes nothing writes nothing. -/
theorem run_mem {ops : List Op} (h : ∀ op ∈ ops, op.growth = 0) : (run m ops).mem = m.mem := by
  induction ops generalizing m with
  | nil => rfl
  | cons op ops ih =>
    obtain ⟨hop, hops⟩ := List.forall_mem_cons.mp h
    rw [run_cons, ih hops]
    cases op with
    | pushq => exact absurd hop Nat.one_ne_zero
    | pushXmm => exact absurd hop (Nat.succ_ne_zero 1)
    | _ => rfl

/-- `iretq` with the registers of a frame goes on in its context. -/
theorem iretq_eq
    (h : m.mem.HasWords (m.gpr .rsp).toNat
      [f.iretRip, f.iretCs, f.iretFlags, f.iretRsp, f.iretSs])
    (hg : ∀ i, i ≠ .rsp → m.gpr i = f.registers.gpr i) (hx : m.xmm = f.registers.xmm) :
    m.iretq = { toContext := f.context, cr2 := m.cr2, mem := m.mem } := by
  have hword (i : Nat) (hi : i < 5) := Mem.ofNat_load_of_eq (h.load_getElem hi)
  have hgpr : (m.set .rsp f.iretRsp).gpr = Function.update f.registers.gpr .rsp f.iretRsp := by
    funext i
    by_cases hi : i = .rsp
    · rw [hi, set_gpr_self, Function.update_self]
    · rw [set_gpr_of_ne hi, Function.update_of_ne hi, hg i hi]
  unfold Machine.iretq Frame.context
  simp only [hword 0 (by decide), hword 1 (by decide), hword 2 (by decide), hword 3 (by decide),
    hword 4 (by decide), List.getElem_cons_zero, List.getElem_cons_succ, hgpr, set_xmm, hx, set_cr2,
    set_mem]

/-- The machine after the pops that end with `popq %rsp`, which goes to the rest of the frame. -/
theorem pop_low (hlow : m.mem.HasWords (m.gpr .rsp).toNat (f.registers.low ++ [P]))
    (hlt : (m.gpr .rsp).toNat + rbxOffset < 2 ^ 64) :
    ∃ g', (∀ i, i ∉ highRegs → g' i = f.registers.gpr i) ∧
      ∀ {ws : List (BitVec 64)}, m.mem.HasWords P.toNat ws → P.toNat + 8 * ws.length < 2 ^ 64 →
        Shows m.mem 0 (P.toNat + 8 * ws.length) ((run m popLow).pop .rsp) ⟨g', m.xmm, m.cr2, ws⟩ := by
  have hstart : Shows m.mem 0 ((m.gpr .rsp).toNat + rbxOffset) m
      ⟨m.gpr, m.xmm, m.cr2, f.registers.low ++ [P]⟩ :=
    ⟨hlt, rfl, fun _ _ => rfl, rfl, rfl, hlow, fun _ _ => rfl⟩
  obtain ⟨g₁, hv, hg⟩ := @runView_popLow ((m.gpr .rsp).toNat + rbxOffset) m.gpr m.xmm m.cr2 [P]
    f.registers
  have hpop := hstart.run (by rw [growth_popLow, Nat.zero_add]; exact Nat.le_add_left _ _) hv
  have hmem : (run m popLow).mem = m.mem := run_mem (by decide)
  generalize run m popLow = m₁ at *
  have htop : m₁.top = P := Mem.ofNat_load_of_eq hpop.words.head
  refine ⟨g₁, hg, fun hws hlt' => ⟨hlt', ?_, fun i hi => ?_, ?_, ?_, ?_, fun i _ => ?_⟩⟩
  · rw [pop_rsp_self, htop]
  · rw [pop_gpr_of_ne hi hi]
    exact hpop.gpr i hi
  · rw [pop_xmm]
    exact hpop.xmm
  · rw [pop_cr2]
    exact hpop.cr2
  · rw [pop_rsp_self, htop, pop_mem, hmem]
    exact hws
  · rw [pop_mem, hmem]

/-- The machine after `pop_reg` and `iretq`. -/
theorem pop_high {top : Nat} {base : Mem} {g : Reg → BitVec 64} {x : Fin 16 → Xmm} {c : BitVec 64}
    (h : Shows base 0 top m ⟨g, x, c, f.high⟩)
    (hg : ∀ i, i ∉ highRegs → g i = f.registers.gpr i) :
    ((run m popHigh).set .rsp ((run m popHigh).gpr .rsp + 16)).iretq =
      { toContext := f.context, cr2 := c, mem := m.mem } := by
  obtain ⟨g', hv, hg'⟩ := @runView_popHigh top g x c
    [f.vectorNumber, f.errorCode, f.iretRip, f.iretCs, f.iretFlags, f.iretRsp, f.iretSs] f.registers
  have hpop := h.run (by rw [growth_popHigh, Nat.zero_add, ← h.rsp]; exact Nat.le_add_left _ _) hv
  have hmem : (run m popHigh).mem = m.mem := run_mem (by decide)
  generalize run m popHigh = m₁ at *
  have hsp : (m₁.gpr .rsp + 16).toNat = (m₁.gpr .rsp).toNat + 8 + 8 := by
    have hrsp := hpop.rsp
    have hlt := hpop.lt
    simp only [List.length_cons, List.length_nil] at hrsp
    bv_omega
  rw [iretq_eq (f := f), set_cr2, set_mem, hpop.cr2, hmem]
  · rw [set_gpr_self, hsp, set_mem]
    exact hpop.words.tail.tail
  · intro i hi
    rw [set_gpr_of_ne hi]
    refine ((hpop.gpr i hi).trans (hg' i hi)).trans ?_
    split_ifs with hhigh
    · rfl
    · exact hg i hhigh
  · rw [set_xmm]
    exact hpop.xmm

/-- **What `isr_wrapper` goes on with.** The fields of the frame before `registers.rsp` are read from
the frame, and those after it from where this field points to. -/
theorem isrExit_eq
    (hlow : m.mem.HasWords (m.gpr .rax).toNat (f.registers.low ++ [P]))
    (hhigh : m.mem.HasWords P.toNat f.high) (hlt : (m.gpr .rax).toNat + rbxOffset < 2 ^ 64)
    (hlt' : P.toNat + (frameSize - rbxOffset) < 2 ^ 64) :
    isrExit m = { toContext := f.context, cr2 := m.cr2, mem := m.mem } := by
  obtain ⟨g, hg, hshows⟩ := pop_low (m := m.set .rsp (m.gpr .rax)) (f := f) (P := P)
    (by rw [set_gpr_self]; exact hlow) (by rw [set_gpr_self]; exact hlt)
  have hstart := hshows hhigh (by rw [f.size_high]; exact hlt')
  unfold isrExit popReg
  rw [run_append, run_cons, Op.exec]
  exact pop_high hstart hg

/-- The saved frame is that of the program it was saved of. -/
theorem saved_context {F v : Nat} {err : Option (BitVec 64)} :
    (m.saved F v err).context = m.toContext := by
  unfold Frame.context Machine.saved
  rw [Function.update_idem, Function.update_eq_self]

theorem saved_rsp {F v : Nat} {err : Option (BitVec 64)} :
    (m.saved F v err).registers.gpr .rsp = BitVec.ofNat 64 (F + rbxOffset) := by
  simp [Machine.saved]

theorem isrExit_frame {rsp0 : BitVec 64} {m' : Machine}
    (hroom : frameSize ≤ (m.deliveryStack rsp0).toNat)
    (hrax : m'.gpr .rax = BitVec.ofNat 64 (m.frameAddr rsp0))
    (hframe : m'.mem.HasWords (m.frameAddr rsp0) f.words)
    (hrsp : f.registers.gpr .rsp = BitVec.ofNat 64 (m.frameAddr rsp0 + rbxOffset)) :
    isrExit m' = { toContext := f.context, cr2 := m'.cr2, mem := m'.mem } := by
  have hF : m.frameAddr rsp0 + frameSize = (m.deliveryStack rsp0).toNat :=
    Nat.sub_add_cancel hroom
  have hlt := (m.deliveryStack rsp0).isLt
  rw [frameSize_eq] at hF
  generalize m.frameAddr rsp0 = F at *
  have hrax' : (m'.gpr .rax).toNat = F := by
    rw [hrax, BitVec.toNat_ofNat, Nat.mod_eq_of_lt (by omega)]
  have hslot : (f.registers.gpr .rsp).toNat = F + rbxOffset := by
    rw [hrsp, BitVec.toNat_ofNat, Nat.mod_eq_of_lt (by unfold rbxOffset; omega)]
  obtain ⟨hlow, hhigh⟩ := Frame.split hframe
  rw [← hslot] at hhigh
  rw [← hrax'] at hlow
  exact isrExit_eq hlow hhigh (by rw [hrax', rbxOffset]; omega)
    (by rw [hslot, frameSize_eq, rbxOffset]; omega)

/-- **An interrupted program goes on with what its frame holds.** Whatever frame
`interrupt_dispatch` leaves, if only it leaves `registers.rsp` as `push_reg` has saved it, the
processor goes on with all the registers of that frame, and the wrapper changes no memory. If it
leaves the whole frame, the program finds every register as it was. -/
theorem isrExit_resumes {rsp0 : BitVec 64} {v : Nat} {err : Option (BitVec 64)} {m' : Machine}
    (hroom : frameSize ≤ (m.deliveryStack rsp0).toNat)
    (hrax : m'.gpr .rax = BitVec.ofNat 64 (m.frameAddr rsp0))
    (hframe : m'.mem.HasWords (m.frameAddr rsp0) f.words)
    (hrsp : f.registers.gpr .rsp = (m.saved (m.frameAddr rsp0) v err).registers.gpr .rsp) :
    isrExit m' = { toContext := f.context, cr2 := m'.cr2, mem := m'.mem } ∧
      (f = m.saved (m.frameAddr rsp0) v err → (isrExit m').toContext = m.toContext) := by
  have hexit := isrExit_frame hroom hrax hframe (hrsp.trans saved_rsp)
  refine ⟨hexit, fun hf => ?_⟩
  rw [hexit, hf]
  exact saved_context

/-- The user program goes on after a timer interrupt that leaves its frame. -/
theorem isrExit_resumes_user : ∃ m',
    m'.mem = (interruptEntry userRsp0 0x1000 0x2000 64 none userProgram).mem ∧
      (isrExit m').toContext = userProgram.toContext := by
  have hwords := @interruptEntry_words userRsp0 0x1000 0x2000 64 none userProgram
    (by decide) (by decide)
  generalize interruptEntry userRsp0 0x1000 0x2000 64 none userProgram = e at *
  refine ⟨e.set .rax (BitVec.ofNat 64 (userProgram.frameAddr userRsp0)), set_mem, ?_⟩
  rw [← set_mem (m := e) (r := .rax)] at hwords
  exact (isrExit_resumes (by decide) set_gpr_self hwords rfl).2 rfl

end Exit

end Colibri.Interrupt

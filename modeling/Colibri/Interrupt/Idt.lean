import Colibri.Lib.Mem

/-!
# The interrupt descriptor table

Model of `kernel/arch/x86-64/interrupt/interrupt.c`: `set_idt_entry` and the loop of `load_idt`, on
the bytes of `idt`, and of the gate the processor reads there. The stubs that `load_idt` counts off
by sixteen bytes are those of `isr_wrapper.S`, each behind an `.align 16`; their sizes are a
parameter.

* `idt_gates`: after any calls of `set_idt_entry`, the gate of a vector is what the last call for it
  has set, and is not present if there was none.
* `loadIdt_gates`: `load_idt` gives each exception the stub that pushes its vector.
-/

namespace Colibri.Interrupt

open Colibri.Lib

/-- The arguments of `set_idt_entry`. -/
structure IdtEntry where
  vector : BitVec 8
  handlerAddr : BitVec 64
  selector : BitVec 16
  flags : BitVec 8

/-- `&idt[vector]`. -/
def entryAddr (idt : Nat) (v : BitVec 8) : Nat := idt + 16 * v.toNat

/-- `set_idt_entry`. -/
def setIdtEntry (idt : Nat) (m : Mem) (c : IdtEntry) : Mem :=
  let entry := entryAddr idt c.vector
  let m := m.store entry 2 (c.handlerAddr &&& 0xFFFF).toNat
  let m := m.store (entry + 6) 2 (c.handlerAddr >>> 16 &&& 0xFFFF).toNat
  let m := m.store (entry + 8) 4 (c.handlerAddr >>> 32 &&& 0xFFFFFFFF).toNat
  let m := m.store (entry + 5) 1 (c.flags ||| 0x80).toNat
  m.store (entry + 2) 2 c.selector.toNat

/-- A gate as the processor reads it. -/
structure Gate where
  offset : Nat
  selector : Nat
  ist : Nat
  gateType : Nat
  dpl : Nat
  present : Bool
  deriving DecidableEq

def readGate (idt : Nat) (m : Mem) (v : BitVec 8) : Gate :=
  let entry := entryAddr idt v
  let flags := m.load (entry + 5) 1
  { offset := m.load entry 2 + 2 ^ 16 * m.load (entry + 6) 2 + 2 ^ 32 * m.load (entry + 8) 4
    selector := m.load (entry + 2) 2
    ist := m.load (entry + 4) 1 % 8
    gateType := flags % 16
    dpl := flags / 32 % 4
    present := flags / 128 = 1 }

/-- The gate a call asks for. `set_idt_entry` leaves `ist` alone. -/
def IdtEntry.gate (c : IdtEntry) (ist : Nat) : Gate where
  offset := c.handlerAddr.toNat
  selector := c.selector.toNat
  ist := ist
  gateType := c.flags.toNat % 16
  dpl := c.flags.toNat / 32 % 4
  present := true

/-! ## One call -/

section Call

variable {idt i : Nat} {m : Mem} {c : IdtEntry} {v : BitVec 8} {calls : List IdtEntry}

/-- A call changes the sixteen bytes of its entry only. -/
theorem setIdtEntry_of_notMem (h : i < entryAddr idt c.vector ∨ entryAddr idt c.vector + 16 ≤ i) :
    setIdtEntry idt m c i = m i := by
  unfold setIdtEntry
  rw [Mem.store_of_notMem (by omega), Mem.store_of_notMem (by omega), Mem.store_of_notMem (by omega),
    Mem.store_of_notMem (by omega), Mem.store_of_notMem (by omega)]

theorem readGate_congr {m' : Mem}
    (h : ∀ i, entryAddr idt v ≤ i → i < entryAddr idt v + 16 → m' i = m i) :
    readGate idt m' v = readGate idt m v := by
  have hload (k n : Nat) (hk : k + n ≤ 16) :
      m'.load (entryAddr idt v + k) n = m.load (entryAddr idt v + k) n :=
    Mem.load_congr fun i hi hi' => h i (by omega) (by omega)
  have hlow : m'.load (entryAddr idt v) 2 = m.load (entryAddr idt v) 2 := hload 0 2 (by decide)
  unfold readGate
  simp only [hlow, hload 5 1 (by decide), hload 6 2 (by decide), hload 8 4 (by decide),
    hload 2 2 (by decide), hload 4 1 (by decide)]

/-- The entry of another vector is left alone. -/
theorem readGate_setIdtEntry_of_ne (h : v ≠ c.vector) :
    readGate idt (setIdtEntry idt m c) v = readGate idt m v := by
  have hne : v.toNat ≠ c.vector.toNat := fun he => h (BitVec.eq_of_toNat_eq he)
  refine readGate_congr fun i hi hi' => setIdtEntry_of_notMem ?_
  unfold entryAddr at *
  omega

theorem flags_present (f : BitVec 8) : (f ||| 0x80).toNat % 16 = f.toNat % 16 ∧
    (f ||| 0x80).toNat / 32 % 4 = f.toNat / 32 % 4 ∧ (f ||| 0x80).toNat / 128 = 1 := by
  revert f
  decide

theorem toNat_and_mask {w k : Nat} (a : BitVec w) (hk : k < w) :
    (a &&& BitVec.ofNat w (2 ^ k - 1)).toNat = a.toNat % 2 ^ k := by
  have hmask : 2 ^ k - 1 < 2 ^ w := (Nat.sub_le _ _).trans_lt (Nat.pow_lt_pow_right (by decide) hk)
  rw [BitVec.toNat_and, BitVec.toNat_ofNat, Nat.mod_eq_of_lt hmask, Nat.and_two_pow_sub_one_eq_mod]

/-- The three parts of the address. -/
theorem addr_parts (a : BitVec 64) : (a &&& 0xFFFF).toNat % 256 ^ 2 +
    2 ^ 16 * ((a >>> 16 &&& 0xFFFF).toNat % 256 ^ 2) +
    2 ^ 32 * ((a >>> 32 &&& 0xFFFFFFFF).toNat % 256 ^ 4) = a.toNat := by
  have hlt := a.isLt
  have hlow : (a &&& 0xFFFF).toNat = a.toNat % 2 ^ 16 := toNat_and_mask (k := 16) a (by decide)
  have hmed : (a >>> 16 &&& 0xFFFF).toNat = (a >>> 16).toNat % 2 ^ 16 :=
    toNat_and_mask (k := 16) (a >>> 16) (by decide)
  have hhigh : (a >>> 32 &&& 0xFFFFFFFF).toNat = (a >>> 32).toNat % 2 ^ 32 :=
    toNat_and_mask (k := 32) (a >>> 32) (by decide)
  rw [BitVec.toNat_ushiftRight, Nat.shiftRight_eq_div_pow] at hmed hhigh
  rw [hlow, hmed, hhigh]
  omega

/-- **A call sets the gate of its vector.** -/
theorem readGate_setIdtEntry_self :
    readGate idt (setIdtEntry idt m c) c.vector = c.gate (readGate idt m c.vector).ist := by
  obtain ⟨htype, hdpl, hpresent⟩ := flags_present c.flags
  have hflags : (c.flags ||| 0x80).toNat % 256 ^ 1 = (c.flags ||| 0x80).toNat :=
    Nat.mod_eq_of_lt (c.flags ||| 0x80).isLt
  have hsel : c.selector.toNat % 256 ^ 2 = c.selector.toNat := Nat.mod_eq_of_lt c.selector.isLt
  unfold readGate setIdtEntry IdtEntry.gate
  generalize entryAddr idt c.vector = e
  simp (disch := (unfold Mem.Disjoint; omega)) only [Mem.load_store_of_disjoint, Mem.load_store]
  rw [addr_parts, hsel, hflags, htype, hdpl, hpresent]
  rfl

end Call

/-! ## Runs of calls -/

section Run

variable {idt : Nat} {m : Mem} {calls pre post : List IdtEntry} {c : IdtEntry} {v : BitVec 8}

/-- A vector that no call names keeps its gate. -/
theorem readGate_foldl_of_notMem (h : v ∉ calls.map (·.vector)) :
    readGate idt (calls.foldl (setIdtEntry idt) m) v = readGate idt m v := by
  induction calls generalizing m with
  | nil => rfl
  | cons c calls ih =>
    rw [List.map_cons, List.mem_cons, not_or] at h
    rw [List.foldl_cons, ih h.2, readGate_setIdtEntry_of_ne h.1]

/-- No call writes an interrupt stack number. -/
theorem ist_foldl (v : BitVec 8) :
    (readGate idt (calls.foldl (setIdtEntry idt) m) v).ist = (readGate idt m v).ist := by
  induction calls generalizing m with
  | nil => rfl
  | cons c calls ih =>
    rw [List.foldl_cons, ih]
    by_cases hv : v = c.vector
    · rw [hv, readGate_setIdtEntry_self]
      rfl
    · rw [readGate_setIdtEntry_of_ne hv]

/-- The last call for a vector decides. -/
theorem readGate_foldl (h : c.vector ∉ post.map (·.vector)) :
    readGate idt ((pre ++ c :: post).foldl (setIdtEntry idt) m) c.vector =
      c.gate (readGate idt m c.vector).ist := by
  rw [List.foldl_append, List.foldl_cons, readGate_foldl_of_notMem h, readGate_setIdtEntry_self,
    ist_foldl]

theorem foldl_of_notMem {i : Nat} (h : i < idt ∨ idt + 4096 ≤ i) :
    calls.foldl (setIdtEntry idt) m i = m i := by
  induction calls generalizing m with
  | nil => rfl
  | cons c calls ih =>
    have hv := c.vector.isLt
    rw [List.foldl_cons, ih]
    refine setIdtEntry_of_notMem ?_
    unfold entryAddr
    omega

/-- The gates of the table as it is linked, `struct interrupt_descriptor idt[256] = {0}`. -/
def emptyGate : Gate := ⟨0, 0, 0, 0, 0, false⟩

theorem readGate_zero (h : ∀ i, idt ≤ i → i < idt + 4096 → m i = 0) :
    readGate idt m v = emptyGate := by
  have hv := v.isLt
  have hload (k n : Nat) (hk : k + n ≤ 16) : m.load (entryAddr idt v + k) n = 0 := by
    unfold entryAddr
    exact Mem.load_eq_zero fun i hi => h _ (by omega) (by omega)
  have hlow : m.load (entryAddr idt v) 2 = 0 := hload 0 2 (by decide)
  unfold readGate
  simp only [hlow, hload 5 1 (by decide), hload 6 2 (by decide), hload 8 4 (by decide),
    hload 2 2 (by decide), hload 4 1 (by decide)]
  rfl

/-- **The gates after any calls of `set_idt_entry`.** The gate of a vector is the one the last call
for it has asked for, on the interrupted stack, and it is not present if there was no call. Nothing
outside the table is written. -/
theorem idt_gates (h : ∀ i, idt ≤ i → i < idt + 4096 → m i = 0) (calls : List IdtEntry) :
    (∀ v, v ∉ calls.map (·.vector) →
      readGate idt (calls.foldl (setIdtEntry idt) m) v = emptyGate) ∧
    (∀ pre c post, calls = pre ++ c :: post → c.vector ∉ post.map (·.vector) →
      readGate idt (calls.foldl (setIdtEntry idt) m) c.vector = c.gate 0) ∧
    ∀ i, i < idt ∨ idt + 4096 ≤ i → calls.foldl (setIdtEntry idt) m i = m i := by
  refine ⟨fun v hv => ?_, fun pre c post hc hpost => ?_, fun i hi => foldl_of_notMem hi⟩
  · rw [readGate_foldl_of_notMem hv, readGate_zero h]
  · rw [hc, readGate_foldl hpost, readGate_zero h]
    rfl

/-- The keyboard's gate, set twice. -/
theorem idt_gates_keyboard : readGate 0x3000 ([⟨0x21, 0x1000, 0x8, 0xE⟩, ⟨0x30, 0x2000, 0x8, 0xE⟩,
    ⟨0x21, 0x123456789ABC, 0x8, 0xE⟩].foldl (setIdtEntry 0x3000) fun _ => 0) 0x21 =
      ⟨0x123456789ABC, 0x8, 0, 0xE, 0, true⟩ :=
  (idt_gates (fun _ _ _ => rfl) _).2.1 [⟨0x21, 0x1000, 0x8, 0xE⟩, ⟨0x30, 0x2000, 0x8, 0xE⟩]
    ⟨0x21, 0x123456789ABC, 0x8, 0xE⟩ [] rfl List.not_mem_nil

end Run

/-! ## `load_idt` -/

/-- The address of `vector_handler_i` in `isr_wrapper.S`: each stub starts at the next multiple of
sixteen bytes. -/
def vectorHandlerAddr (size : Nat → Nat) (base : Nat) : Nat → Nat
  | 0 => base
  | i + 1 => (vectorHandlerAddr size base i + size i + 15) / 16 * 16

/-- `GDT_ENTRY_KERNEL_CODE`, `FLAGS_DPL(0)` and `FLAGS_GATE_TYPE(0xE)`. -/
def interruptGate (vector : BitVec 8) (handlerAddr : BitVec 64) : IdtEntry :=
  ⟨vector, handlerAddr, 0x8, 0 <<< 5 ||| 0xE⟩

theorem interruptGate_gate (v : BitVec 8) (a : BitVec 64) (ist : Nat) :
    (interruptGate v a).gate ist = ⟨a.toNat, 0x8, ist, 0xE, 0, true⟩ := by
  simp [interruptGate, IdtEntry.gate]

/-- The calls of `load_idt`. -/
def loadIdt (vectorHandler0 : BitVec 64) : List IdtEntry :=
  (List.range 32).map fun i =>
    interruptGate (BitVec.ofNat 8 i) (vectorHandler0 + BitVec.ofNat 64 (i * 16))

/-- Stubs of at most sixteen bytes follow each other by sixteen. -/
theorem vectorHandlerAddr_eq {size : Nat → Nat} {base : Nat} (hbase : base % 16 = 0)
    (hsize : ∀ i, 0 < size i ∧ size i ≤ 16) (i : Nat) :
    vectorHandlerAddr size base i = base + 16 * i := by
  induction i with
  | zero => rfl
  | succ i ih =>
    have hi := hsize i
    rw [vectorHandlerAddr, ih]
    omega

theorem loadIdt_vectors (a : BitVec 64) :
    (loadIdt a).map (·.vector) = (List.range 32).map (BitVec.ofNat 8) := List.map_map

/-- The call for a vector is the last one for it. -/
theorem loadIdt_split {a : BitVec 64} {i : Nat} (hi : i < 32) : ∃ pre post,
    loadIdt a = pre ++ interruptGate (BitVec.ofNat 8 i) (a + BitVec.ofNat 64 (i * 16)) :: post ∧
      BitVec.ofNat 8 i ∉ post.map (·.vector) := by
  have hmem : interruptGate (BitVec.ofNat 8 i) (a + BitVec.ofNat 64 (i * 16)) ∈ loadIdt a :=
    List.mem_map.mpr ⟨i, List.mem_range.mpr hi, rfl⟩
  obtain ⟨pre, post, hsplit⟩ := List.append_of_mem hmem
  refine ⟨pre, post, hsplit, fun hpost => ?_⟩
  have hnodup : ((loadIdt a).map (·.vector)).Nodup := by
    rw [loadIdt_vectors]
    decide
  rw [hsplit, List.map_append, List.map_cons] at hnodup
  exact (List.nodup_cons.mp (List.nodup_append.mp hnodup).2.1).1 hpost

/-- **`load_idt` gives each exception its own stub**, in a present interrupt gate of the kernel, which
no later call for another vector changes. -/
theorem loadIdt_gates {idt base : Nat} {m : Mem} {size : Nat → Nat} {calls : List IdtEntry}
    (hzero : ∀ i, idt ≤ i → i < idt + 4096 → m i = 0) (hbase : base % 16 = 0)
    (hsize : ∀ i, 0 < size i ∧ size i ≤ 16) (hfit : base + 512 ≤ 2 ^ 64)
    (hcalls : ∀ c ∈ calls, 32 ≤ c.vector.toNat) {i : Nat} (hi : i < 32) :
    readGate idt ((loadIdt (BitVec.ofNat 64 base) ++ calls).foldl (setIdtEntry idt) m)
      (BitVec.ofNat 8 i) = ⟨vectorHandlerAddr size base i, 0x8, 0, 0xE, 0, true⟩ := by
  obtain ⟨pre, post, hsplit, hpost⟩ := loadIdt_split (a := BitVec.ofNat 64 base) hi
  have hcall : (loadIdt (BitVec.ofNat 64 base) ++ calls) = pre ++
      interruptGate (BitVec.ofNat 8 i) (BitVec.ofNat 64 base + BitVec.ofNat 64 (i * 16)) ::
        (post ++ calls) := by
    rw [hsplit, List.append_assoc, List.cons_append]
  have hlast : BitVec.ofNat 8 i ∉ (post ++ calls).map (·.vector) := by
    rw [List.map_append, List.mem_append, not_or]
    refine ⟨hpost, fun hin => ?_⟩
    obtain ⟨c, hc, he⟩ := List.mem_map.mp hin
    have hvec := hcalls c hc
    rw [he, BitVec.toNat_ofNat] at hvec
    omega
  have haddr : (BitVec.ofNat 64 base + BitVec.ofNat 64 (i * 16)).toNat = base + 16 * i := by
    rw [← BitVec.ofNat_add, BitVec.toNat_ofNat]
    omega
  have hgate : readGate idt ((loadIdt (BitVec.ofNat 64 base) ++ calls).foldl (setIdtEntry idt) m)
      (BitVec.ofNat 8 i) = (interruptGate (BitVec.ofNat 8 i)
        (BitVec.ofNat 64 base + BitVec.ofNat 64 (i * 16))).gate emptyGate.ist := by
    rw [hcall, ← readGate_zero hzero]
    exact readGate_foldl hlast
  rw [hgate, vectorHandlerAddr_eq hbase hsize, ← haddr, interruptGate_gate]
  rfl

/-- The table of a kernel with its stubs at 2 MiB and 9 bytes each, and the gate of the keyboard. -/
theorem loadIdt_gates_pageFault :
    readGate 0x3000 ((loadIdt (BitVec.ofNat 64 0x200000) ++ [interruptGate 0x21 0x200210]).foldl
      (setIdtEntry 0x3000) fun _ => 0) (BitVec.ofNat 8 14) = ⟨0x2000E0, 0x8, 0, 0xE, 0, true⟩ := by
  have haddr : vectorHandlerAddr (fun _ => 9) 0x200000 14 = 0x2000E0 := by
    rw [vectorHandlerAddr_eq (by decide) fun _ => by decide]
  rw [← haddr]
  exact loadIdt_gates (fun _ _ _ => rfl) (by decide) (fun _ => by decide) (by decide)
    (by simp [interruptGate]) (by decide)

end Colibri.Interrupt

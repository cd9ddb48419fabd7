import Colibri.Memory.Vm.Kvminit
import Colibri.Memory.Vm.Map
import Colibri.Memory.Vm.Recursive

/-!
# The address space of the kernel

Model of the page tables that `kernel/arch/x86-64/boot.S` fills while paging is off, of the entries
that `kvminit` adds to them, and of `disable_id_mapping` of `kernel/arch/x86-64/memory/vm.c`. The two
C functions write through virtual addresses, so their stores are looked up in the tables they change.

* A store is `none` when it faults. The write protection that `boot.S` enables is that of the leaf.
* The TLB is left out: neither function invalidates an entry.
* `kvminit` and `disable_id_mapping` are modelled with nothing between them. What the kernel maps in
  the meantime is in other entries of the PML4.

`kernel_address_space`: the translation of every address outside the recursive slot, after `boot.S`,
after `kvminit` and after `disable_id_mapping`. The last one takes away the first 2 MiB of the
identity mapping and of the kernel's window, no more: the rest of the first GiB stays mapped twice.
-/

namespace Colibri.Boot

open Colibri.Lib Colibri.Memory

/-- The entries of all tables, by the mapped address of the table. -/
abbrev Tables := Nat → Nat → Entry

/-- The physical addresses that the linker gives to `pml4` and to `physical_mapping`, in the GiB that
`boot.S` maps. -/
structure Layout where
  pml4 : Nat
  physicalMapping : Nat
  pml4_aligned : pml4 % 4096 = 0
  mapping_aligned : physicalMapping % 4096 = 0
  pml4_tail : pml4 + 4 * 4096 ≤ 0x40000000
  mapping_tail : physicalMapping + 4096 ≤ 0x40000000
  apart : pml4 + 4 * 4096 ≤ physicalMapping ∨ physicalMapping + 4096 ≤ pml4

namespace Layout

/-- The tables follow each other in `.bss`. -/
def kernelP3 (l : Layout) : Nat := l.pml4 + 4096

def kernelP3Hh (l : Layout) : Nat := l.kernelP3 + 4096

def kernelP2 (l : Layout) : Nat := l.kernelP3Hh + 4096

/-- The root, as the model of the tables knows it. -/
def root (l : Layout) : Nat := physToVirt l.pml4

end Layout

/-! ## `boot.S` -/

/-- `movl %eax, t + i * 8`, with the physical address of a table. -/
def movl (tables : Tables) (t i : Nat) (eax : BitVec 32) : Tables :=
  let e := tables (physToVirt t) i
  setEntry tables (physToVirt t) i ⟨e.raw &&& 0xFFFFFFFF00000000 ||| eax.setWidth 64⟩

/-- `PRESENT`. -/
def flagPresent : BitVec 32 := 1

/-- `WRITABLE`. -/
def flagWritable : BitVec 32 := 1 <<< 1

/-- `PS_BIT`. -/
def flagPs : BitVec 32 := 1 <<< 7

/-- The rounds of `fill_p2` that are left, from the value of `%ecx` on. -/
def fillP2 (l : Layout) : Nat → Tables → Nat → Tables
  | 0, tables, _ => tables
  | n + 1, tables, ecx =>
    let eax := BitVec.ofNat 32 (0x200000 * ecx) ||| (flagPresent ||| flagWritable ||| flagPs)
    fillP2 l n (movl tables l.kernelP2 ecx eax) (ecx + 1)

/-- `_start`, up to `ap_boot`. -/
def start (l : Layout) (tables : Tables) : Tables :=
  let tables := movl tables l.pml4 510 (BitVec.ofNat 32 l.pml4 ||| (flagPresent ||| flagWritable))
  let tables :=
    movl tables l.pml4 511 (BitVec.ofNat 32 l.kernelP3Hh ||| (flagPresent ||| flagWritable))
  let tables := movl tables l.pml4 0 (BitVec.ofNat 32 l.kernelP3 ||| (flagPresent ||| flagWritable))
  let eax := BitVec.ofNat 32 l.kernelP2 ||| (flagPresent ||| flagWritable)
  let tables := movl tables l.kernelP3 0 eax
  let tables := movl tables l.kernelP3Hh 510 eax
  fillP2 l 512 tables 0

/-! ## `kvminit` and `disable_id_mapping` -/

/-- The table and the index that the address of an entry is mapped to, for a write. -/
def entryAt (tables : Tables) (root va : Nat) : Option (Nat × Nat) :=
  ((translate tables root va).filter (·.writable)).map fun tr =>
    (physToVirt (pageStart tr.pa), tr.pa % 4096 / 8)

/-- A store of an entry. -/
def storeEntry (tables : Tables) (root va : Nat) (e : Entry) : Option Tables :=
  (entryAt tables root va).map fun p => setEntry tables p.1 p.2 e

/-- `physical_entry`. -/
def physicalEntry (l : Layout) (nxFlagEnabled : Bool) : Entry :=
  (((⟨BitVec.ofNat 64 l.physicalMapping⟩ : Entry).setBit 0 true).setBit 1 true).setBit 63
    nxFlagEnabled

/-- The entry of `physical_mapping` for the GiB `i`. -/
def mappingEntry (nxFlagEnabled : Bool) (i : Nat) : Entry :=
  ((((⟨BitVec.ofNat 64 (0x40000000 * i)⟩ : Entry).setBit 0 true).setBit 1 true).setBit 63
    nxFlagEnabled).setBit 7 true

/-- The rounds of the loop over `physical_mapping` that are left. -/
def mapPhysical (l : Layout) (nxFlagEnabled : Bool) : Nat → Tables → Nat → Option Tables
  | 0, tables, _ => some tables
  | n + 1, tables, i =>
    (storeEntry tables l.root (kernelVirtualOffset + l.physicalMapping + 8 * i)
      (mappingEntry nxFlagEnabled i)).bind fun tables => mapPhysical l nxFlagEnabled n tables (i + 1)

/-- The writes of `kvminit` to the tables. -/
def kvminitTables (l : Layout) (nxFlagEnabled : Bool) (tables : Tables) : Option Tables :=
  (storeEntry tables l.root (pdptVa pml4RecurseEntry + 8 * 509)
    (physicalEntry l nxFlagEnabled)).bind fun tables => mapPhysical l nxFlagEnabled 512 tables 0

/-- `disable_id_mapping`. -/
def disableIdMapping (l : Layout) (tables : Tables) : Option Tables :=
  (entryAt tables l.root (pdVa 0 0)).map fun p =>
    setEntry tables p.1 p.2 ((tables p.1 p.2).setBit 0 false)

/-! ## Entries by their bits -/

/-- The entry consists of an address and of flags. -/
structure Made (e : Entry) (p f : Nat) (nx : Bool) : Prop where
  bits : ∀ j < 63, e.raw.getLsbD j = (p.testBit j || f.testBit j)
  xd : e.xd = nx

section Made

variable {e : Entry} {p f k : Nat} {nx : Bool}

theorem testBit_flags (hf : f < 4096) {j : Nat} (hj : 12 ≤ j) : f.testBit j = false :=
  Nat.testBit_lt_two_pow (Nat.lt_of_lt_of_le hf (Nat.pow_le_pow_right Nat.two_pos hj))

theorem Made.low (h : Made e p f nx) (hp : p % 4096 = 0) {j : Nat} (hj : j < 12) :
    e.raw.getLsbD j = f.testBit j := by
  rw [h.bits j (by omega), Entry.testBit_of_aligned hp hj, Bool.false_or]

theorem Made.high (h : Made e p f nx) (hf : f < 4096) {j : Nat} (hj : 12 ≤ j) (hj' : j < 63) :
    e.raw.getLsbD j = p.testBit j := by
  rw [h.bits j hj', testBit_flags hf hj, Bool.or_false]

theorem Made.ofNat (hp : p < 2 ^ 63) : Made ⟨BitVec.ofNat 64 p⟩ p 0 false where
  bits j hj := by
    rw [BitVec.getLsbD_ofNat, Nat.zero_testBit, Bool.or_false, decide_eq_true (by omega),
      Bool.true_and]
  xd := by
    rw [Entry.xd, BitVec.getLsbD_ofNat, Nat.testBit_lt_two_pow hp, Bool.and_false]

/-- A flag is set. -/
theorem Made.setBit (h : Made e p f nx) (hk : k < 63) :
    Made (e.setBit k true) p (f ||| 2 ^ k) nx where
  bits j hj := by
    rw [Entry.getLsbD_setBit e (by omega) (by omega), h.bits j hj, Nat.testBit_or,
      Nat.testBit_two_pow]
    by_cases hjk : j = k
    · simp [hjk]
    · have hkj : k ≠ j := fun he => hjk he.symm
      simp [hjk, hkj]
  xd := by
    rw [Entry.xd, Entry.getLsbD_setBit e (by omega) (by omega), if_neg (by omega)]
    exact h.xd

theorem Made.setXd (h : Made e p f false) : Made (e.setBit 63 nx) p f nx where
  bits j hj := by
    rw [Entry.getLsbD_setBit e (by omega) (by omega), if_neg (by omega), h.bits j hj]
  xd := by rw [Entry.xd, Entry.getLsbD_setBit e (by omega) (by omega), if_pos rfl]

/-- A field of the entry from bit 12 on is that of the address. -/
theorem Made.extract (h : Made e p f nx) (hf : f < 4096) {s n : Nat} (hs : 12 ≤ s)
    (hn : s + n ≤ 63) (hlt : p < 2 ^ (s + n)) : (e.raw.extractLsb' s n).toNat = p / 2 ^ s := by
  refine Nat.eq_of_testBit_eq fun j => ?_
  rw [BitVec.testBit_toNat, BitVec.getLsbD_extractLsb', Nat.testBit_div_two_pow]
  by_cases hj : j < n
  · rw [h.high hf (by omega) (by omega), Nat.add_comm s j]
    simp [hj]
  · have hbig : p < 2 ^ (j + s) :=
      Nat.lt_of_lt_of_le hlt (Nat.pow_le_pow_right (by decide) (by omega))
    simp [hj, Nat.testBit_lt_two_pow hbig]

/-- The entry refers to the table at the physical address `p`, which it lets the kernel write. -/
structure Link (e : Entry) (p : Nat) : Prop where
  refers : e.Refers (physToVirt p)
  writable : e.writable = true

/-- An entry for a table refers to it. -/
theorem Made.link (h : Made e p 3 nx) (hp : p % 4096 = 0) (hlt : p < 2 ^ 51) : Link e p where
  refers.child := by
    have hpresent : e.present = true := h.low hp (by decide)
    have hsize : e.pageSize = false := h.low hp (by decide)
    have haddr : e.pdAddr = p / 4096 := h.extract (by decide) (by decide) (by decide) hlt
    have hmul : p / 4096 * 4096 = p := by omega
    rw [Entry.child_eq_some hpresent hsize, Entry.table, haddr, hmul]
  refers.narrow := by
    rw [h.high (by decide) (by decide) (by decide), Nat.testBit_lt_two_pow hlt]
  writable := h.low hp (by decide)

end Made

/-- A leaf of this level that only the kernel may use, for the page at `pa`. -/
structure Large (e : Entry) (level pa : Nat) (nx : Bool) : Prop where
  present : e.present = true
  pageSize : e.pageSize = true
  translation : ∀ va, Entry.translation va (level, e) =
    ⟨pa + va % 2 ^ (12 + 9 * level), true, false, nx⟩

theorem Made.large {e : Entry} {p level : Nat} {nx : Bool} (h : Made e p 0x83 nx)
    (hlevel : level ≤ 2) (hp : p % 2 ^ (12 + 9 * level) = 0) (hlt : p < 2 ^ 52) :
    Large e level p nx := by
  have hpow : 2 ^ (12 + 9 * level) = 4096 * 2 ^ (9 * level) := pow_add 2 12 (9 * level)
  have hp' : p % 4096 = 0 :=
    Nat.mod_eq_zero_of_dvd ((Dvd.intro _ hpow.symm).trans (Nat.dvd_of_mod_eq_zero hp))
  have hframe : e.frame level = p := by
    have hlt' : p < 2 ^ (12 + 9 * level + (40 - 9 * level)) := by
      rwa [show 12 + 9 * level + (40 - 9 * level) = 52 by omega]
    rw [Entry.frame, h.extract (by decide) (by omega) (by omega) hlt']
    exact Nat.div_mul_cancel (Nat.dvd_of_mod_eq_zero hp)
  have hw : e.writable = true := h.low hp' (by decide)
  have hu : e.userPage = false := h.low hp' (by decide)
  refine ⟨h.low hp' (by decide), h.low hp' (by decide), fun va => ?_⟩
  rw [Entry.translation, hframe, hw, hu, h.xd]

/-! ## The entries of `boot.S` -/

section Start

variable {l : Layout} {tables : Tables} {t i u j p f : Nat} {eax : BitVec 32}

theorem movl_of_ne (h : u ≠ physToVirt t ∨ j ≠ i) : movl tables t i eax u j = tables u j :=
  setEntry_of_ne h

/-- A 32-bit store into an entry of `.bss`. -/
theorem made_movl (h : tables (physToVirt t) i = ⟨0⟩) (hp : p < 2 ^ 32) (hf : f < 2 ^ 32) :
    Made (movl tables t i (BitVec.ofNat 32 p ||| BitVec.ofNat 32 f) (physToVirt t) i) p f false := by
  have hself : movl tables t i (BitVec.ofNat 32 p ||| BitVec.ofNat 32 f) (physToVirt t) i =
      ⟨(BitVec.ofNat 32 p ||| BitVec.ofNat 32 f).setWidth 64⟩ := by
    rw [movl, setEntry_self, h]
    simp
  rw [hself]
  refine ⟨fun j _ => ?_, ?_⟩
  · rw [BitVec.getLsbD_setWidth, BitVec.getLsbD_or, BitVec.getLsbD_ofNat, BitVec.getLsbD_ofNat]
    by_cases hj : j < 32
    · simp [hj, show j < 64 by omega]
    · have hpow : 2 ^ 32 ≤ 2 ^ j := Nat.pow_le_pow_right Nat.two_pos (by omega)
      simp [hj, Nat.testBit_lt_two_pow (Nat.lt_of_lt_of_le hp hpow),
        Nat.testBit_lt_two_pow (Nat.lt_of_lt_of_le hf hpow)]
  · simp [Entry.xd]

theorem fillP2_of_ne (h : u ≠ physToVirt l.kernelP2) {n ecx : Nat} :
    fillP2 l n tables ecx u j = tables u j := by
  induction n generalizing tables ecx with
  | zero => rfl
  | succ n ih => rw [fillP2, ih, movl_of_ne (.inl h)]

/-- The loop leaves the entries before `%ecx` alone. -/
theorem fillP2_of_lt {n ecx : Nat} (h : i < ecx) :
    fillP2 l n tables ecx (physToVirt l.kernelP2) i = tables (physToVirt l.kernelP2) i := by
  induction n generalizing tables ecx with
  | zero => rfl
  | succ n ih => rw [fillP2, ih (by omega), movl_of_ne (.inr (by omega))]

/-- **`fill_p2`** makes each entry it comes to a page of 2 MiB. -/
theorem made_fillP2 {n ecx : Nat} (hz : ∀ i, ecx ≤ i → tables (physToVirt l.kernelP2) i = ⟨0⟩)
    (hn : ecx + n ≤ 512) (hi : ecx ≤ i) (hi' : i < ecx + n) :
    Made (fillP2 l n tables ecx (physToVirt l.kernelP2) i) (0x200000 * i) 0x83 false := by
  induction n generalizing tables ecx with
  | zero => omega
  | succ n ih =>
    rw [fillP2]
    by_cases he : i = ecx
    · subst he
      rw [fillP2_of_lt (Nat.lt_succ_self i)]
      exact made_movl (f := 0x83) (hz i (Nat.le_refl i)) (by omega) (by decide)
    · refine ih (fun i' hle => ?_) (by omega) (by omega) (by omega)
      rw [movl_of_ne (.inr (by omega))]
      exact hz i' (by omega)

/-- The tables of `boot.S` are in `.bss`. -/
structure Blank (l : Layout) (tables : Tables) : Prop where
  pml4 : ∀ i, tables l.root i = ⟨0⟩
  kernelP3 : ∀ i, tables (physToVirt l.kernelP3) i = ⟨0⟩
  kernelP3Hh : ∀ i, tables (physToVirt l.kernelP3Hh) i = ⟨0⟩
  kernelP2 : ∀ i, tables (physToVirt l.kernelP2) i = ⟨0⟩

/-- The mapping of the first GiB, from the entry `first` of `kernel_p2` on, in both places. -/
structure Windows (l : Layout) (first : Nat) (tables : Tables) : Prop where
  slot : Link (tables l.root pml4RecurseEntry) l.pml4
  low : Link (tables l.root 0) l.kernelP3
  high : Link (tables l.root 511) l.kernelP3Hh
  rest : ∀ i, i ∉ [0, 509, pml4RecurseEntry, 511] → tables l.root i = ⟨0⟩
  p3 : Link (tables (physToVirt l.kernelP3) 0) l.kernelP2
  p3_rest : ∀ i, i ≠ 0 → tables (physToVirt l.kernelP3) i = ⟨0⟩
  p3Hh : Link (tables (physToVirt l.kernelP3Hh) 510) l.kernelP2
  p3Hh_rest : ∀ i, i ≠ 510 → tables (physToVirt l.kernelP3Hh) i = ⟨0⟩
  p2 : ∀ i, first ≤ i → i < 512 →
    Large (tables (physToVirt l.kernelP2) i) 1 (0x200000 * i) false
  p2_first : ∀ i, i < first → (tables (physToVirt l.kernelP2) i).present = false

theorem physToVirt_ne {a b : Nat} (ha : a < 2 ^ 51) (hb : b < 2 ^ 51) (h : a ≠ b) :
    physToVirt a ≠ physToVirt b := fun he => h (physToVirt_inj ha hb he)

/-- The tables of the kernel are different ones. -/
structure Layout.Apart (l : Layout) : Prop where
  root_p3 : l.root ≠ physToVirt l.kernelP3
  root_p3Hh : l.root ≠ physToVirt l.kernelP3Hh
  root_p2 : l.root ≠ physToVirt l.kernelP2
  root_mapping : l.root ≠ physToVirt l.physicalMapping
  p3_p3Hh : physToVirt l.kernelP3 ≠ physToVirt l.kernelP3Hh
  p3_p2 : physToVirt l.kernelP3 ≠ physToVirt l.kernelP2
  p3_mapping : physToVirt l.kernelP3 ≠ physToVirt l.physicalMapping
  p3Hh_p2 : physToVirt l.kernelP3Hh ≠ physToVirt l.kernelP2
  p3Hh_mapping : physToVirt l.kernelP3Hh ≠ physToVirt l.physicalMapping
  p2_mapping : physToVirt l.kernelP2 ≠ physToVirt l.physicalMapping

theorem Layout.kernelP3_eq (l : Layout) : l.kernelP3 = l.pml4 + 4096 := rfl

theorem Layout.kernelP3Hh_eq (l : Layout) : l.kernelP3Hh = l.pml4 + 8192 := Nat.add_assoc _ _ _

theorem Layout.kernelP2_eq (l : Layout) : l.kernelP2 = l.pml4 + 12288 := by
  rw [Layout.kernelP2, Layout.kernelP3Hh_eq, Nat.add_assoc]

theorem Layout.tables_apart (l : Layout) : l.Apart := by
  have h₁ := l.pml4_tail
  have h₂ := l.mapping_tail
  have h₃ := l.apart
  have hp3 := l.kernelP3_eq
  have hp3Hh := l.kernelP3Hh_eq
  have hp2 := l.kernelP2_eq
  constructor <;> exact physToVirt_ne (by omega) (by omega) (by omega)

/-- `boot.S` fills three entries of the PML4. -/
theorem start_root (hz : Blank l tables) {i : Nat} (h₀ : i ≠ 0) (h₁ : i ≠ 510)
    (h₂ : i ≠ 511) : start l tables l.root i = ⟨0⟩ := by
  have h := l.tables_apart
  unfold start
  rw [fillP2_of_ne h.root_p2, movl_of_ne (.inl h.root_p3Hh), movl_of_ne (.inl h.root_p3),
    movl_of_ne (.inr h₀), movl_of_ne (.inr h₂), movl_of_ne (.inr h₁)]
  exact hz.pml4 i

theorem windows_start (hz : Blank l tables) : Windows l 0 (start l tables) := by
  have h := l.tables_apart
  have htail := l.pml4_tail
  have halign := l.pml4_aligned
  have hp3 := l.kernelP3_eq
  have hp3Hh := l.kernelP3Hh_eq
  have hp2 := l.kernelP2_eq
  constructor
  case rest =>
    intro i hi
    simp only [List.mem_cons, List.not_mem_nil, or_false, not_or] at hi
    exact start_root hz hi.1 hi.2.2.1 hi.2.2.2
  all_goals unfold start
  · rw [fillP2_of_ne h.root_p2, movl_of_ne (.inl h.root_p3Hh), movl_of_ne (.inl h.root_p3),
      movl_of_ne (.inr (by decide)), movl_of_ne (.inr (by decide))]
    exact (made_movl (f := 3) (hz.pml4 _) (by omega) (by decide)).link halign (by omega)
  · rw [fillP2_of_ne h.root_p2, movl_of_ne (.inl h.root_p3Hh), movl_of_ne (.inl h.root_p3)]
    refine (made_movl (f := 3) ?_ (by omega) (by decide)).link (by omega) (by omega)
    rw [movl_of_ne (.inr (by decide)), movl_of_ne (.inr (by decide))]
    exact hz.pml4 0
  · rw [fillP2_of_ne h.root_p2, movl_of_ne (.inl h.root_p3Hh), movl_of_ne (.inl h.root_p3),
      movl_of_ne (.inr (by decide))]
    refine (made_movl (f := 3) ?_ (by omega) (by decide)).link (by omega) (by omega)
    rw [movl_of_ne (.inr (by decide))]
    exact hz.pml4 511
  · rw [fillP2_of_ne h.p3_p2, movl_of_ne (.inl h.p3_p3Hh)]
    refine (made_movl (f := 3) ?_ (by omega) (by decide)).link (by omega) (by omega)
    rw [movl_of_ne (.inl h.root_p3.symm), movl_of_ne (.inl h.root_p3.symm),
      movl_of_ne (.inl h.root_p3.symm)]
    exact hz.kernelP3 0
  · intro i hi
    rw [fillP2_of_ne h.p3_p2, movl_of_ne (.inl h.p3_p3Hh), movl_of_ne (.inr hi),
      movl_of_ne (.inl h.root_p3.symm), movl_of_ne (.inl h.root_p3.symm),
      movl_of_ne (.inl h.root_p3.symm)]
    exact hz.kernelP3 i
  · rw [fillP2_of_ne h.p3Hh_p2]
    refine (made_movl (f := 3) ?_ (by omega) (by decide)).link (by omega) (by omega)
    rw [movl_of_ne (.inl h.p3_p3Hh.symm), movl_of_ne (.inl h.root_p3Hh.symm),
      movl_of_ne (.inl h.root_p3Hh.symm), movl_of_ne (.inl h.root_p3Hh.symm)]
    exact hz.kernelP3Hh 510
  · intro i hi
    rw [fillP2_of_ne h.p3Hh_p2, movl_of_ne (.inr hi), movl_of_ne (.inl h.p3_p3Hh.symm),
      movl_of_ne (.inl h.root_p3Hh.symm), movl_of_ne (.inl h.root_p3Hh.symm),
      movl_of_ne (.inl h.root_p3Hh.symm)]
    exact hz.kernelP3Hh i
  · intro i _ hi
    refine (made_fillP2 (fun i _ => ?_) (Nat.le_refl 512) (Nat.zero_le i) (by omega)).large
      (by decide) (Nat.mul_mod_right _ _) (by omega)
    rw [movl_of_ne (.inl h.p3Hh_p2.symm), movl_of_ne (.inl h.p3_p2.symm),
      movl_of_ne (.inl h.root_p2.symm), movl_of_ne (.inl h.root_p2.symm),
      movl_of_ne (.inl h.root_p2.symm)]
    exact hz.kernelP2 i
  · exact fun i hi => absurd hi (Nat.not_lt_zero i)

end Start

/-! ## Translation -/

section Translate

variable {l : Layout} {tables : Tables} {first root va : Nat} {e : Entry} {nx : Bool}

theorem Large.child {level pa : Nat} (h : Large e level pa nx) : e.child = none := by
  rw [Entry.child, h.present, h.pageSize]
  rfl

/-- A lookup that ends at an entry that is not present. -/
theorem translate_absent {n : Nat}
    (hseek : seek Entry.child tables root (vaPath va) = some (n, e)) (h : e.present = false) :
    translate tables root va = none := by
  rw [Memory.translate, leafAt, hseek, Option.filter_some, h]
  rfl

/-- A lookup that ends at a large page. -/
theorem translate_large {level pa : Nat}
    (hseek : seek Entry.child tables root (vaPath va) = some (level, e)) (h : Large e level pa nx) :
    translate tables root va = some ⟨pa + va % 2 ^ (12 + 9 * level), true, false, nx⟩ := by
  rw [Memory.translate, leafAt, hseek, Option.filter_some, if_pos h.present, Option.map_some,
    h.translation]

/-- What is behind `kernel_p2`. -/
theorem Windows.translate_p2 (h : Windows l first tables)
    (hseek : seek Entry.child tables root (vaPath va) = seek Entry.child tables
      (physToVirt l.kernelP2) [va2Index va 1, va2Index va 0]) :
    translate tables root va =
      if first ≤ va2Index va 1 then some ⟨va % 2 ^ 30, true, false, false⟩ else none := by
  have hlt : va2Index va 1 < 512 := Nat.mod_lt _ (by decide)
  split_ifs with hi
  · have hlarge := h.p2 _ hi hlt
    rw [seek_cons_none hlarge.child] at hseek
    have hpa : 0x200000 * (va / 2 ^ 21 % 512) + va % 2 ^ 21 = va % 2 ^ 30 := by omega
    rw [translate_large hseek hlarge]
    exact congrArg (fun pa => some (⟨pa, true, false, false⟩ : Translation)) hpa
  · have habsent := h.p2_first _ (Nat.lt_of_not_le hi)
    rw [seek_cons_none (Entry.child_of_not_present habsent)] at hseek
    exact translate_absent hseek habsent

/-- **The identity mapping.** -/
theorem Windows.translate_low (h : Windows l first tables) (hva : va2Index va 3 = 0) :
    translate tables l.root va = if va2Index va 2 = 0 ∧ first ≤ va2Index va 1
      then some ⟨va % 2 ^ 30, true, false, false⟩ else none := by
  by_cases hi : va2Index va 2 = 0
  · simp only [hi, true_and]
    refine h.translate_p2 ?_
    rw [vaPath, hva, hi, seek_cons h.low.refers.child, seek_cons h.p3.refers.child]
  · simp only [hi, false_and, if_false]
    have hzero := h.p3_rest _ hi
    refine translate_absent (n := 2) (e := ⟨0⟩) ?_ Entry.present_zero
    rw [vaPath, hva, seek_cons h.low.refers.child, seek_cons_none (hzero ▸ Entry.child_zero), hzero]
    rfl

/-- **The window of the kernel.** -/
theorem Windows.translate_high (h : Windows l first tables) (hva : va2Index va 3 = 511) :
    translate tables l.root va = if va2Index va 2 = 510 ∧ first ≤ va2Index va 1
      then some ⟨va % 2 ^ 30, true, false, false⟩ else none := by
  by_cases hi : va2Index va 2 = 510
  · simp only [hi, true_and]
    refine h.translate_p2 ?_
    rw [vaPath, hva, hi, seek_cons h.high.refers.child, seek_cons h.p3Hh.refers.child]
  · simp only [hi, false_and, if_false]
    have hzero := h.p3Hh_rest _ hi
    refine translate_absent (n := 2) (e := ⟨0⟩) ?_ Entry.present_zero
    rw [vaPath, hva, seek_cons h.high.refers.child, seek_cons_none (hzero ▸ Entry.child_zero),
      hzero]
    rfl

theorem translate_root_absent (h : tables l.root (va2Index va 3) = ⟨0⟩) :
    translate tables l.root va = none := by
  refine translate_absent (n := 3) (e := ⟨0⟩) ?_ Entry.present_zero
  rw [vaPath, seek_cons_none (h ▸ Entry.child_zero), h]
  rfl

/-- The entry of the PML4 for the physical memory, once `kvminit` has set it. -/
def Mapping (l : Layout) (tables : Tables) : Option Bool → Prop
  | none => tables l.root 509 = ⟨0⟩
  | some nx => Link (tables l.root 509) l.physicalMapping ∧
    ∀ i < 512, Large (tables (physToVirt l.physicalMapping) i) 2 (0x40000000 * i) nx

theorem Mapping.translate {physical : Option Bool} (h : Mapping l tables physical)
    (hva : va2Index va 3 = 509) :
    translate tables l.root va = physical.map fun nx => ⟨va % 2 ^ 39, true, false, nx⟩ := by
  cases physical with
  | none => exact translate_root_absent (hva ▸ h)
  | some nx =>
    have hlarge := h.2 (va2Index va 2) (Nat.mod_lt _ (by decide))
    have hseek : seek Entry.child tables l.root (vaPath va) =
        some (2, tables (physToVirt l.physicalMapping) (va2Index va 2)) := by
      rw [vaPath, hva, seek_cons h.1.refers.child, seek_cons_none hlarge.child]
      rfl
    have hpa : 0x40000000 * (va / 2 ^ 30 % 512) + va % 2 ^ 30 = va % 2 ^ 39 := by omega
    rw [translate_large hseek hlarge, Option.map_some]
    exact congrArg (fun pa => some (⟨pa, true, false, nx⟩ : Translation)) hpa

/-- The address space outside the recursive slot: the first GiB from `first` on at 0 and at
`_kernel_virtual_offset`, and 512 GiB at `PHYSICAL_OFFSET`. -/
def kernelSpace (first : Nat) (physical : Option Bool) (va : Nat) : Option Translation :=
  if first ≤ va ∧ va < 0x40000000 then some ⟨va, true, false, false⟩
  else if kernelVirtualOffset + first ≤ va ∧ va < kernelVirtualOffset + 0x40000000 then
    some ⟨va - kernelVirtualOffset, true, false, false⟩
  else if physicalOffset ≤ va ∧ va < physicalOffset + physicalMappingSize then
    physical.map fun nx => ⟨va - physicalOffset, true, false, nx⟩
  else none

/-- **The tables map what they should.** -/
theorem Windows.translate_eq {physical : Option Bool} (h : Windows l first tables)
    (hm : Mapping l tables physical) (hva : Canonical va) (hslot : va2Index va 3 ≠ pml4RecurseEntry) :
    translate tables l.root va = kernelSpace (0x200000 * first) physical va := by
  have hsize := u64Size_eq
  unfold kernelSpace
  rw [physicalOffset_eq, kernelVirtualOffset_eq, physicalMappingSize_eq]
  unfold Canonical at hva
  rw [hsize] at hva
  have hpath : va2Index va 3 = va / 2 ^ 39 % 512 ∧ va2Index va 2 = va / 2 ^ 30 % 512 ∧
    va2Index va 1 = va / 2 ^ 21 % 512 := ⟨rfl, rfl, rfl⟩
  have hr : pml4RecurseEntry = 510 := rfl
  obtain ⟨h₃, h₂, h₁⟩ := hpath
  by_cases hlow : va2Index va 3 = 0
  · rw [h.translate_low hlow]
    by_cases hin : va2Index va 2 = 0 ∧ first ≤ va2Index va 1
    · rw [if_pos hin, if_pos (by omega), Nat.mod_eq_of_lt (by omega)]
    · rw [if_neg hin, if_neg (by omega), if_neg (by omega), if_neg (by omega)]
  by_cases hhigh : va2Index va 3 = 511
  · rw [h.translate_high hhigh]
    by_cases hin : va2Index va 2 = 510 ∧ first ≤ va2Index va 1
    · have hpa : va % 2 ^ 30 = va - 18446744071562067968 := by omega
      rw [if_pos hin, if_neg (by omega), if_pos (by omega), hpa]
    · rw [if_neg hin, if_neg (by omega), if_neg (by omega), if_neg (by omega)]
  by_cases hmap : va2Index va 3 = 509
  · have hpa : va % 2 ^ 39 = va - 18446742424442109952 := by omega
    rw [hm.translate hmap, if_neg (by omega), if_neg (by omega), if_pos (by omega), hpa]
  · have hrest := h.rest (va2Index va 3) (by simp [hlow, hhigh, hmap, hslot])
    rw [translate_root_absent hrest, if_neg (by omega), if_neg (by omega), if_neg (by omega)]

end Translate

/-! ## The stores of `kvminit` and `disable_id_mapping` -/

section Stores

variable {l : Layout} {tables : Tables} {first va p : Nat} {e : Entry} {nx : Bool}

theorem virtToPhys_physToVirt (hp : p < 2 ^ 51) : virtToPhys (physToVirt p) = p := by
  have hoff : physicalOffset < u64Size := by decide
  have hsize := u64Size_eq
  rw [virtToPhys, physToVirt, u64Add, Nat.add_comm]
  exact u64Sub_u64Add hoff (by omega)

theorem entryAt_eq {pa : Nat} {user xd : Bool} (hp : p % 4096 = 0) (hpa : p ≤ pa ∧ pa < p + 4096)
    (h : translate tables l.root va = some ⟨pa, true, user, xd⟩) :
    entryAt tables l.root va = some (physToVirt p, (pa - p) / 8) := by
  have hstart : pageStart pa = p := (pageStart_eq_iff hp).mpr hpa
  have hindex : pa % 4096 = pa - p := by omega
  rw [entryAt, h, Option.filter_some, if_pos rfl, Option.map_some, hstart, hindex]

/-- An address of the recursive slot is that of an entry of the table that its last index leads to. -/
theorem entryAt_slot (hseek : seek Entry.child tables l.root (vaPath va) = some (0, e))
    (he : Link e p) (hp : p % 4096 = 0) (hlt : p < 2 ^ 51) :
    entryAt tables l.root va = some (physToVirt p, va % 4096 / 8) := by
  have hpa : e.frame 0 = p := by rw [he.refers.frame, virtToPhys_physToVirt hlt]
  have hoff : va % 2 ^ (12 + 9 * 0) = va % 4096 := rfl
  have htranslate : translate tables l.root va =
      some ⟨p + va % 4096, true, e.userPage, e.xd⟩ := by
    rw [Memory.translate, leafAt, hseek, Option.filter_some, if_pos he.refers.present,
      Option.map_some, Entry.translation, hpa, hoff, he.writable]
  have hindex : p + va % 4096 - p = va % 4096 := Nat.add_sub_cancel_left p _
  rw [entryAt_eq hp (by omega) htranslate, hindex]

theorem vaPath_getVa {a b c d off : Nat} (ha : a < 512) (hb : b < 512) (hc : c < 512) (hd : d < 512)
    (hoff : off < 4096) : vaPath (getVa a b c d off) = [a, b, c, d] := by
  obtain ⟨h₃, h₂, h₁, h₀⟩ := va2Index_getVa ha hb hc hd hoff
  rw [vaPath, h₃, h₂, h₁, h₀]

theorem Windows.slot_child (h : Windows l first tables) :
    (tables l.root pml4RecurseEntry).child = some l.root := h.slot.refers.child

/-- The address that `kvminit` stores `physical_entry` to is that of entry 509 of the PML4. -/
theorem Windows.entryAt_pml4 (h : Windows l first tables) :
    entryAt tables l.root (pdptVa pml4RecurseEntry + 8 * 509) = some (l.root, 509) := by
  have htail := l.pml4_tail
  have hslot := h.slot_child
  have haddr : pdptVa pml4RecurseEntry + 8 * 509 =
    getVa pml4RecurseEntry pml4RecurseEntry pml4RecurseEntry pml4RecurseEntry 4072 := by decide
  have hseek : seek Entry.child tables l.root (vaPath (pdptVa pml4RecurseEntry + 8 * 509)) =
      some (0, tables l.root pml4RecurseEntry) := by
    rw [haddr, vaPath_getVa (by decide) (by decide) (by decide) (by decide) (by decide),
      seek_cons hslot, seek_cons hslot, seek_cons hslot, seek_singleton]
  exact entryAt_slot hseek h.slot l.pml4_aligned (by omega)

/-- The address that `disable_id_mapping` writes to is that of the first entry of `kernel_p2`. -/
theorem Windows.entryAt_p2 (h : Windows l first tables) :
    entryAt tables l.root (pdVa 0 0) = some (physToVirt l.kernelP2, 0) := by
  have htail := l.pml4_tail
  have halign := l.pml4_aligned
  have hp2 := l.kernelP2_eq
  have hslot := h.slot_child
  have hseek : seek Entry.child tables l.root (vaPath (pdVa 0 0)) =
      some (0, tables (physToVirt l.kernelP3) 0) := by
    rw [pdVa, vaPath_getVa (by decide) (by decide) (by decide) (by decide) (by decide),
      seek_cons hslot, seek_cons hslot, seek_cons h.low.refers.child, seek_singleton]
  exact entryAt_slot hseek h.p3 (by omega) (by omega)

/-- The address of an entry of `physical_mapping` is in the window of the kernel. -/
theorem Windows.entryAt_mapping (h : Windows l 0 tables) {i : Nat} (hi : i < 512) :
    entryAt tables l.root (kernelVirtualOffset + l.physicalMapping + 8 * i) =
      some (physToVirt l.physicalMapping, i) := by
  have htail := l.mapping_tail
  have hoff := kernelVirtualOffset_eq
  have hva : va2Index (kernelVirtualOffset + l.physicalMapping + 8 * i) 3 = 511 := by
    unfold va2Index
    omega
  have hp2 : va2Index (kernelVirtualOffset + l.physicalMapping + 8 * i) 2 = 510 := by
    unfold va2Index
    omega
  have hpa : (kernelVirtualOffset + l.physicalMapping + 8 * i) % 2 ^ 30 =
      l.physicalMapping + 8 * i := by omega
  have htranslate := h.translate_high hva
  rw [if_pos ⟨hp2, Nat.zero_le _⟩, hpa] at htranslate
  have hindex : (l.physicalMapping + 8 * i - l.physicalMapping) / 8 = i := by omega
  rw [entryAt_eq l.mapping_aligned (by omega) htranslate, hindex]

/-- The windows depend on four tables only, and not on the entry for the physical memory. -/
theorem Windows.congr {tables' : Tables} (h : Windows l first tables)
    (hroot : ∀ j, j ≠ 509 → tables' l.root j = tables l.root j)
    (hp3 : ∀ j, tables' (physToVirt l.kernelP3) j = tables (physToVirt l.kernelP3) j)
    (hp3Hh : ∀ j, tables' (physToVirt l.kernelP3Hh) j = tables (physToVirt l.kernelP3Hh) j)
    (hp2 : ∀ j, tables' (physToVirt l.kernelP2) j = tables (physToVirt l.kernelP2) j) :
    Windows l first tables' where
  slot := (hroot pml4RecurseEntry (by decide)).symm ▸ h.slot
  low := (hroot 0 (by decide)).symm ▸ h.low
  high := (hroot 511 (by decide)).symm ▸ h.high
  rest j hj := (hroot j fun he => hj (by simp [he])).trans (h.rest j hj)
  p3 := (hp3 _).symm ▸ h.p3
  p3_rest j hj := (hp3 j).trans (h.p3_rest j hj)
  p3Hh := (hp3Hh _).symm ▸ h.p3Hh
  p3Hh_rest j hj := (hp3Hh j).trans (h.p3Hh_rest j hj)
  p2 j hj hj' := (hp2 j).symm ▸ h.p2 j hj hj'
  p2_first j hj := (congrArg Entry.present (hp2 j)).trans (h.p2_first j hj)

theorem Windows.write_root (h : Windows l first tables) :
    Windows l first (setEntry tables l.root 509 e) := by
  have ha := l.tables_apart
  exact h.congr (fun j hj => setEntry_of_ne (.inr hj)) (fun j => setEntry_of_ne (.inl ha.root_p3.symm))
    (fun j => setEntry_of_ne (.inl ha.root_p3Hh.symm)) fun j => setEntry_of_ne (.inl ha.root_p2.symm)

theorem Windows.write_mapping {i : Nat} (h : Windows l first tables) :
    Windows l first (setEntry tables (physToVirt l.physicalMapping) i e) := by
  have ha := l.tables_apart
  exact h.congr (fun j _ => setEntry_of_ne (.inl ha.root_mapping))
    (fun j => setEntry_of_ne (.inl ha.p3_mapping)) (fun j => setEntry_of_ne (.inl ha.p3Hh_mapping))
    fun j => setEntry_of_ne (.inl ha.p2_mapping)

/-- Without its first entry, `kernel_p2` maps the rest. -/
theorem Windows.write_p2 (h : Windows l 0 tables) (he : e.present = false) :
    Windows l 1 (setEntry tables (physToVirt l.kernelP2) 0 e) := by
  have ha := l.tables_apart
  have hroot (j : Nat) : setEntry tables (physToVirt l.kernelP2) 0 e l.root j = tables l.root j :=
    setEntry_of_ne (.inl ha.root_p2)
  have hp3 (j : Nat) : setEntry tables (physToVirt l.kernelP2) 0 e (physToVirt l.kernelP3) j =
      tables (physToVirt l.kernelP3) j := setEntry_of_ne (.inl ha.p3_p2)
  have hp3Hh (j : Nat) : setEntry tables (physToVirt l.kernelP2) 0 e (physToVirt l.kernelP3Hh) j =
      tables (physToVirt l.kernelP3Hh) j := setEntry_of_ne (.inl ha.p3Hh_p2)
  refine ⟨?_, ?_, ?_, fun j hj => ?_, ?_, fun j hj => ?_, ?_, fun j hj => ?_, fun j hj hj' => ?_,
    fun j hj => ?_⟩
  · rw [hroot]
    exact h.slot
  · rw [hroot]
    exact h.low
  · rw [hroot]
    exact h.high
  · rw [hroot, h.rest j hj]
  · rw [hp3]
    exact h.p3
  · rw [hp3, h.p3_rest j hj]
  · rw [hp3Hh]
    exact h.p3Hh
  · rw [hp3Hh, h.p3Hh_rest j hj]
  · rw [setEntry_of_ne (.inr (by omega))]
    exact h.p2 j (Nat.zero_le j) hj'
  · obtain rfl : j = 0 := by omega
    rw [setEntry_self, he]

theorem made_mappingEntry {i : Nat} (hi : i < 512) :
    Large (mappingEntry nx i) 2 (0x40000000 * i) nx := by
  have hbase : Made ⟨BitVec.ofNat 64 (0x40000000 * i)⟩ (0x40000000 * i) 0 false :=
    .ofNat (by omega)
  exact (((hbase.setBit (k := 0) (by decide)).setBit (k := 1) (by decide)).setXd.setBit (k := 7)
    (by decide)).large (Nat.le_refl 2) (Nat.mul_mod_right _ _) (by omega)

theorem link_physicalEntry : Link (physicalEntry l nx) l.physicalMapping := by
  have htail := l.mapping_tail
  have hbase : Made ⟨BitVec.ofNat 64 l.physicalMapping⟩ l.physicalMapping 0 false :=
    .ofNat (by omega)
  exact ((hbase.setBit (k := 0) (by decide)).setBit (k := 1) (by decide)).setXd.link
    l.mapping_aligned (by omega)

/-- **The loop of `kvminit`** does not fault, and fills `physical_mapping`. -/
theorem mapPhysical_spec {n i : Nat} (h : Windows l 0 tables) (hn : i + n = 512)
    (hlink : Link (tables l.root 509) l.physicalMapping)
    (hbefore : ∀ j < i, Large (tables (physToVirt l.physicalMapping) j) 2 (0x40000000 * j) nx) :
    ∃ tables', mapPhysical l nx n tables i = some tables' ∧ Windows l 0 tables' ∧
      Mapping l tables' (some nx) := by
  induction n generalizing tables i with
  | zero =>
    obtain rfl : i = 512 := hn
    exact ⟨tables, rfl, h, hlink, hbefore⟩
  | succ n ih =>
    have hstore : storeEntry tables l.root (kernelVirtualOffset + l.physicalMapping + 8 * i)
        (mappingEntry nx i) =
          some (setEntry tables (physToVirt l.physicalMapping) i (mappingEntry nx i)) := by
      rw [storeEntry, h.entryAt_mapping (by omega), Option.map_some]
    rw [mapPhysical, hstore, Option.bind_some]
    refine ih h.write_mapping (by omega) ?_ fun j hj => ?_
    · rwa [setEntry_of_ne (.inl l.tables_apart.root_mapping)]
    · by_cases hji : j = i
      · rw [hji, setEntry_self]
        exact made_mappingEntry (by omega)
      · rw [setEntry_of_ne (.inr hji)]
        exact hbefore j (by omega)

theorem kvminitTables_spec (nx : Bool) (h : Windows l 0 tables) : ∃ tables',
    kvminitTables l nx tables = some tables' ∧ Windows l 0 tables' ∧
      Mapping l tables' (some nx) := by
  have hstore : storeEntry tables l.root (pdptVa pml4RecurseEntry + 8 * 509) (physicalEntry l nx) =
      some (setEntry tables l.root 509 (physicalEntry l nx)) := by
    rw [storeEntry, h.entryAt_pml4, Option.map_some]
  rw [kvminitTables, hstore, Option.bind_some]
  refine mapPhysical_spec h.write_root (Nat.zero_add 512) ?_
    fun j hj => absurd hj (Nat.not_lt_zero j)
  rw [setEntry_self]
  exact link_physicalEntry

/-- **`disable_id_mapping`** takes away one page, in both windows. -/
theorem disableIdMapping_spec {physical : Option Bool} (h : Windows l 0 tables)
    (hm : Mapping l tables physical) : ∃ tables', disableIdMapping l tables = some tables' ∧
      Windows l 1 tables' ∧ Mapping l tables' physical := by
  have ha := l.tables_apart
  refine ⟨_, by rw [disableIdMapping, h.entryAt_p2, Option.map_some],
    h.write_p2 (Entry.present_clear _), ?_⟩
  cases physical with
  | none => exact (setEntry_of_ne (.inl ha.root_p2)).trans hm
  | some nx =>
    refine ⟨?_, fun j hj => ?_⟩
    · rw [setEntry_of_ne (.inl ha.root_p2)]
      exact hm.1
    · rw [setEntry_of_ne (.inl ha.p2_mapping.symm)]
      exact hm.2 j hj

/-- **The address space while the kernel boots.** No store of `kvminit` or of `disable_id_mapping`
faults. Outside the recursive slot an address is mapped as `kernelSpace` says, at each of the three
stages, and `disable_id_mapping` takes away 2 MiB. -/
theorem kernel_address_space (nx : Bool) (hz : Blank l tables) : ∃ tables₁ tables₂,
    kvminitTables l nx (start l tables) = some tables₁ ∧
    disableIdMapping l tables₁ = some tables₂ ∧
    ∀ va, Canonical va → va2Index va 3 ≠ pml4RecurseEntry →
      translate (start l tables) l.root va = kernelSpace 0 none va ∧
      translate tables₁ l.root va = kernelSpace 0 (some nx) va ∧
      translate tables₂ l.root va = kernelSpace 0x200000 (some nx) va := by
  have hstart := windows_start hz
  have hnone : Mapping l (start l tables) none :=
    start_root hz (by decide) (by decide) (by decide)
  obtain ⟨tables₁, hk, hw₁, hm₁⟩ := kvminitTables_spec nx hstart
  obtain ⟨tables₂, hd, hw₂, hm₂⟩ := disableIdMapping_spec hw₁ hm₁
  exact ⟨tables₁, tables₂, hk, hd, fun va hva hslot => ⟨hstart.translate_eq hnone hva hslot,
    hw₁.translate_eq hm₁ hva hslot, hw₂.translate_eq hm₂ hva hslot⟩⟩

end Stores

/-- A kernel of 1 MiB. -/
def smallKernel : Layout where
  pml4 := 0x2F0000
  physicalMapping := 0x2FF000
  pml4_aligned := by decide
  mapping_aligned := by decide
  pml4_tail := by decide
  mapping_tail := by decide
  apart := by decide

/-- Its first page is still mapped twice, and the real-mode memory of the first MiB no more. -/
theorem kernel_address_space_small : ∃ tables₁ tables₂,
    kvminitTables smallKernel true (start smallKernel fun _ _ => ⟨0⟩) = some tables₁ ∧
    disableIdMapping smallKernel tables₁ = some tables₂ ∧
    translate tables₂ smallKernel.root 0x200000 = some ⟨0x200000, true, false, false⟩ ∧
    translate tables₂ smallKernel.root 0xFFFFFFFF80200000 = some ⟨0x200000, true, false, false⟩ ∧
    translate tables₁ smallKernel.root 0x8000 = some ⟨0x8000, true, false, false⟩ ∧
    translate tables₂ smallKernel.root 0x8000 = none := by
  obtain ⟨tables₁, tables₂, hk, hd, h⟩ := kernel_address_space (l := smallKernel) true
    (show Blank smallKernel fun _ _ => ⟨0⟩ from ⟨fun _ => rfl, fun _ => rfl, fun _ => rfl, fun _ => rfl⟩)
  refine ⟨tables₁, tables₂, hk, hd, ?_, ?_, ?_, ?_⟩
  · rw [(h 0x200000 (by decide) (by decide)).2.2]
    decide
  · rw [(h 0xFFFFFFFF80200000 (by decide) (by decide)).2.2]
    decide
  · rw [(h 0x8000 (by decide) (by decide)).2.1]
    decide
  · rw [(h 0x8000 (by decide) (by decide)).2.2]
    decide

end Colibri.Boot

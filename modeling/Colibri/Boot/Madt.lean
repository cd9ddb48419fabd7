import Colibri.Lib.Mem
import Colibri.Lib.U64

/-!
# The records of the MADT (`kernel/arch/x86-64/interrupt/ioapic.c`)

`read_madt` goes over the records of the interrupt controllers. It counts the local APICs that are
enabled, and maps the registers of the first I/O APIC; if that fails it returns. The table is the one
that `find_table` returns. `mapMmio` is `map_mmio` of the 32 bytes at an address, at the moment of the
one call there can be; it does not write the table. The log message is left out.

As with the tags of the boot loader, the loop gets a bound on its turns and returns the headers that
it has looked at.

## Results

* `madtLoop_path`: the loop over records that follow each other.
* `madtLoop_inside`: a loop that stays in the table has gone over such records.
* `madtWalks_iff`: when the loop ends and stays in the table.
-/

namespace Colibri.Boot

open Colibri.Lib

/-- `IC_TYPE_LAPIC`. -/
def icTypeLapic : Nat := 0

/-- `IC_TYPE_IO_APIC`. -/
def icTypeIoApic : Nat := 1

/-- `MAX_CORES`. -/
def maxCores : Nat := 32

/-- `offsetof(struct madt, interrupt_controllers)`. -/
def madtHeaderSize : Nat := 44

/-- `sizeof(struct ic_headers)`. -/
def icHeaderSize : Nat := 2

/-- `madt->header.length`. -/
def madtLength (m : Mem) (madt : Nat) : Nat := m.load (madt + 4) 4

/-- `header->type`. -/
def icType (m : Mem) (header : Nat) : Nat := m.load header 1

/-- `header->length`. -/
def icLength (m : Mem) (header : Nat) : Nat := m.load (header + 1) 1

/-- `lapic->flags`. -/
def lapicFlags (m : Mem) (lapic : Nat) : Nat := m.load (lapic + 4) 4

/-- `ioapic->address`. -/
def ioApicAddress (m : Mem) (ioapic : Nat) : Nat := m.load (ioapic + 4) 4

/-- `kernel_status.core_available`, `io_apic_reg_sel` and `io_apic_win`. -/
structure Apics where
  coreAvailable : Nat
  regSel : Nat
  win : Nat

/-- What `read_madt` does behind the loop, if this has not returned. -/
def limitCores (r : Nat × Apics) : Nat × Apics :=
  if r.1 = 0 ∧ maxCores < r.2.coreAvailable then (0, { r.2 with coreAvailable := maxCores }) else r

section Read

variable (mapMmio : Nat → Nat) (m : Mem)

/-- The case of an I/O APIC; `none` if it cannot be mapped. -/
def readIoApic (ioapic : Nat) (s : Apics) : Option Apics :=
  if s.regSel = 0 then
    let regSel := mapMmio (ioApicAddress m ioapic)
    if regSel = 0 then none else some { s with regSel := regSel, win := u64Add regSel 0x10 }
  else some s

/-- The `switch`. -/
def readRecord (header : Nat) (s : Apics) : Option Apics :=
  if icType m header = icTypeLapic then
    some (if lapicFlags m header % 2 = 1 then
      { s with coreAvailable := (s.coreAvailable + 1) % 2 ^ 32 } else s)
  else if icType m header = icTypeIoApic then readIoApic mapMmio m header s
  else some s

/-- The loop over the records: what it returns, its state, and the headers that it has looked at. -/
def madtLoop (madt : Nat) : Nat → Nat → Apics → Option ((Nat × Apics) × List Nat)
  | 0, _, _ => none
  | fuel + 1, header, s =>
    if u64Sub header madt < madtLength m madt then
      (readRecord mapMmio m header s).elim (some ((1, s), [header])) fun s =>
        (madtLoop madt fuel (u64Add header (icLength m header)) s).map fun r =>
          (r.1, header :: r.2)
    else some ((0, s), [])

/-- `read_madt`. -/
def readMadt (madt fuel : Nat) (s : Apics) : Option ((Nat × Apics) × List Nat) :=
  if madt = 0 then some ((1, s), [])
  else (madtLoop mapMmio m madt fuel (u64Add madt madtHeaderSize) s).map fun r =>
    (limitCores r.1, r.2)

/-- What the loop does on these records. -/
def readRecords : List Nat → Apics → (Nat × Apics) × List Nat
  | [], s => ((0, s), [])
  | header :: headers, s =>
    (readRecord mapMmio m header s).elim ((1, s), [header]) fun s =>
      ((readRecords headers s).1, header :: (readRecords headers s).2)

end Read

/-- These records follow each other from `a` to `b`. They take up memory, and their headers are in
front of `stop`. -/
def Records (m : Mem) (stop b : Nat) : Nat → List Nat → Prop
  | a, [] => a = b
  | a, header :: headers => header = a ∧ a + icHeaderSize ≤ stop ∧ 0 < icLength m a ∧
    Records m stop b (a + icLength m a) headers

/-- The record at `b` is an I/O APIC that cannot be mapped. -/
def Unmapped (mapMmio : Nat → Nat) (m : Mem) (regSel b : Nat) : Prop :=
  icType m b = icTypeIoApic ∧ regSel = 0 ∧ mapMmio (ioApicAddress m b) = 0

/-- Records up to the end of the table, or up to the first I/O APIC where it cannot be mapped. -/
def RecordsToStop (mapMmio : Nat → Nat) (m : Mem) (stop regSel a : Nat) : Prop :=
  ∃ headers b, Records m stop b a headers ∧ (stop ≤ b ∨ (b + icHeaderSize ≤ stop ∧
    Unmapped mapMmio m regSel b ∧ ∀ h ∈ headers, icType m h ≠ icTypeIoApic))

/-- `read_madt` returns after at most as many turns as the table has bytes, and all the headers that
it looks at are in the table. -/
def MadtWalks (mapMmio : Nat → Nat) (m : Mem) (madt : Nat) (s : Apics) : Prop :=
  ∃ fuel r, readMadt mapMmio m madt fuel s = some r ∧ r.2.length ≤ madtLength m madt ∧
    ∀ h ∈ r.2, madt ≤ h ∧ h + icHeaderSize ≤ madt + madtLength m madt

/-! ## A record -/

section Record

variable {mapMmio : Nat → Nat} {m : Mem} {a b stop regSel : Nat} {s s' : Apics} {headers : List Nat}

theorem readRecord_eq_none : readRecord mapMmio m a s = none ↔ Unmapped mapMmio m s.regSel a := by
  rw [readRecord, Unmapped]
  by_cases hlapic : icType m a = icTypeLapic
  · rw [if_pos hlapic, hlapic]
    simp [icTypeLapic, icTypeIoApic]
  · rw [if_neg hlapic]
    by_cases hio : icType m a = icTypeIoApic
    · rw [if_pos hio, readIoApic]
      by_cases hsel : s.regSel = 0
      · by_cases hmap : mapMmio (ioApicAddress m a) = 0
        · simp [hio, hsel, hmap]
        · simp [hsel, hmap]
      · simp [hsel]
    · simp [hio]

/-- Only an I/O APIC that is mapped changes `io_apic_reg_sel`, and it is not 0 then. -/
theorem regSel_readRecord (h : readRecord mapMmio m a s = some s') :
    if icType m a = icTypeIoApic then s'.regSel ≠ 0 else s'.regSel = s.regSel := by
  rw [readRecord] at h
  by_cases hlapic : icType m a = icTypeLapic
  · rw [if_pos hlapic] at h
    rw [hlapic, if_neg (by decide)]
    obtain rfl := Option.some.inj h
    split <;> rfl
  · rw [if_neg hlapic] at h
    by_cases hio : icType m a = icTypeIoApic
    · rw [if_pos hio, readIoApic] at h
      rw [if_pos hio]
      by_cases hsel : s.regSel = 0
      · by_cases hmap : mapMmio (ioApicAddress m a) = 0
        · simp [hsel, hmap] at h
        · rw [if_pos hsel, if_neg hmap] at h
          obtain rfl := Option.some.inj h
          exact hmap
      · rw [if_neg hsel] at h
        obtain rfl := Option.some.inj h
        exact hsel
    · rw [if_neg hio] at h ⊢
      rw [Option.some.inj h]

/-- A record that is no I/O APIC does not end the loop, and leaves `io_apic_reg_sel` alone. -/
theorem readRecord_of_ne (hne : icType m a ≠ icTypeIoApic) :
    ∃ s', readRecord mapMmio m a s = some s' ∧ s'.regSel = s.regSel := by
  cases he : readRecord mapMmio m a s with
  | none => exact absurd (readRecord_eq_none.mp he).1 hne
  | some s' =>
    have hsel := regSel_readRecord he
    rw [if_neg hne] at hsel
    exact ⟨s', rfl, hsel⟩

/-- While `io_apic_reg_sel` is 0 there was no I/O APIC. -/
theorem ne_of_readRecord (h : readRecord mapMmio m a s = some s') (hsel : s'.regSel = 0) :
    icType m a ≠ icTypeIoApic ∧ s.regSel = 0 := by
  have hkeep := regSel_readRecord h
  have hne : icType m a ≠ icTypeIoApic := fun hio => by
    rw [if_pos hio] at hkeep
    exact hkeep hsel
  rw [if_neg hne] at hkeep
  exact ⟨hne, hkeep.symm.trans hsel⟩

/-- The loop has looked at these records or at the first of them. -/
theorem readRecords_prefix : (readRecords mapMmio m headers s).2 <+: headers := by
  induction headers generalizing s with
  | nil => exact List.prefix_refl []
  | cons h headers ih =>
    rw [readRecords]
    cases readRecord mapMmio m h s with
    | none => exact List.prefix_cons_inj h |>.mpr (List.nil_prefix)
    | some s' => exact (List.prefix_cons_inj h).mpr ih

/-- If no I/O APIC has stopped it, it has looked at all of them. -/
theorem visited_readRecords (h : (readRecords mapMmio m headers s).1.1 = 0) :
    (readRecords mapMmio m headers s).2 = headers := by
  induction headers generalizing s with
  | nil => rfl
  | cons h' headers ih =>
    rw [readRecords] at h ⊢
    cases he : readRecord mapMmio m h' s with
    | none =>
      rw [he] at h
      exact nomatch h
    | some s' =>
      rw [he, Option.elim_some] at h
      rw [Option.elim_some, ih h]

/-- The loop goes over records without an I/O APIC. -/
theorem readRecords_of_noIoApic (hno : ∀ h ∈ headers, icType m h ≠ icTypeIoApic) :
    (readRecords mapMmio m headers s).1.1 = 0 ∧
      (readRecords mapMmio m headers s).1.2.regSel = s.regSel := by
  induction headers generalizing s with
  | nil => exact ⟨rfl, rfl⟩
  | cons h headers ih =>
    obtain ⟨hh, hrest⟩ := List.forall_mem_cons.mp hno
    obtain ⟨s', he, hsel⟩ := readRecord_of_ne (s := s) hh
    rw [readRecords, he, Option.elim_some, ← hsel]
    exact ih hrest

theorem Records.length_le (h : Records m stop b a headers) :
    a + headers.length ≤ b ∧ (headers ≠ [] → a + headers.length < stop) := by
  induction headers generalizing a with
  | nil => exact ⟨Nat.le_of_eq h, fun h => absurd rfl h⟩
  | cons h' headers ih =>
    obtain ⟨-, hin, hpos, hrest⟩ := h
    have hle := ih hrest
    rw [icHeaderSize] at hin
    rw [List.length_cons]
    refine ⟨by omega, fun _ => ?_⟩
    cases headers with
    | nil => rw [List.length_nil]; omega
    | cons => have := hle.2 (List.cons_ne_nil _ _); omega

theorem Records.end_lt (h : Records m stop b a headers) (hb : a < stop + 256) :
    b < stop + 256 := by
  induction headers generalizing a with
  | nil => exact h ▸ hb
  | cons h' headers ih =>
    obtain ⟨-, hin, -, hrest⟩ := h
    have hlen : icLength m a < 256 := Mem.load_lt m _ 1
    exact ih hrest (by omega)

theorem Records.inside (h : Records m stop b a headers) :
    ∀ h ∈ headers, a ≤ h ∧ h + icHeaderSize ≤ stop := by
  induction headers generalizing a with
  | nil => exact fun h hh => absurd hh List.not_mem_nil
  | cons h' headers ih =>
    obtain ⟨rfl, hin, hpos, hrest⟩ := h
    refine List.forall_mem_cons.mpr ⟨⟨Nat.le_refl _, hin⟩, fun h hh => ?_⟩
    obtain ⟨hge, hle⟩ := ih hrest h hh
    exact ⟨by omega, hle⟩

/-- The bounds on the headers that the loop looks at. -/
theorem Records.bounds {base : Nat} {visited : List Nat} (hp : Records m stop b a headers)
    (ha : base < a)
    (hv : visited <+: headers ∨ (visited = headers ++ [b] ∧ b + icHeaderSize ≤ stop)) :
    visited.length ≤ stop - base ∧ ∀ h ∈ visited, base ≤ h ∧ h + icHeaderSize ≤ stop := by
  obtain ⟨hend, hlen⟩ := hp.length_le
  have hins := hp.inside
  rcases hv with hpre | ⟨rfl, hb⟩
  · refine ⟨?_, fun h hh => ?_⟩
    · by_cases hnil : headers = []
      · rw [hnil] at hpre
        rw [List.prefix_nil.mp hpre]
        exact Nat.zero_le _
      · have hle := hpre.length_le
        have hlt := hlen hnil
        omega
    · obtain ⟨hge, hle⟩ := hins h (hpre.subset hh)
      exact ⟨by omega, hle⟩
  · have hsize : icHeaderSize = 2 := rfl
    refine ⟨by rw [List.length_append, List.length_singleton]; omega, fun h hh => ?_⟩
    rcases List.mem_append.mp hh with hh | hh
    · obtain ⟨hge, hle⟩ := hins h hh
      exact ⟨by omega, hle⟩
    · rw [List.mem_singleton.mp hh]
      exact ⟨by omega, hb⟩

end Record

/-! ## The loop -/

section Loop

variable {mapMmio : Nat → Nat} {m : Mem} {madt a b fuel : Nat} {s : Apics} {headers : List Nat}

/-- The test of the loop, where the header has wrapped or not. -/
theorem u64Sub_header (hm : madt < u64Size) (ha : madt ≤ a) (hlt : a < madt + u64Size) :
    u64Sub (a % u64Size) madt = a - madt := by
  obtain ⟨off, rfl⟩ := Nat.exists_eq_add_of_le ha
  have h := u64Sub_u64Add (a := madt) (b := off) hm (by omega)
  rw [u64Add] at h
  rw [h]
  omega

theorem madtLength_lt (m : Mem) (madt : Nat) : madtLength m madt < 2 ^ 32 := Mem.load_lt m _ 4

theorem icLength_lt (m : Mem) (header : Nat) : icLength m header < 256 := Mem.load_lt m _ 1

/-- One turn in the table. -/
theorem madtLoop_succ (hm : madt + madtLength m madt ≤ u64Size) (ha : madt ≤ a)
    (hlt : a < madt + madtLength m madt) :
    madtLoop mapMmio m madt (fuel + 1) (a % u64Size) s =
      (readRecord mapMmio m a s).elim (some ((1, s), [a])) fun s =>
        (madtLoop mapMmio m madt fuel ((a + icLength m a) % u64Size) s).map fun r =>
          (r.1, a :: r.2) := by
  have hlen := madtLength_lt m madt
  rw [madtLoop, u64Sub_header (by omega) ha (by omega), if_pos (by omega), Nat.mod_eq_of_lt (by omega)]
  rfl

/-- A loop that ends does not depend on the bound. -/
theorem madtLoop_mono {r : (Nat × Apics) × List Nat} (k : Nat)
    (h : madtLoop mapMmio m madt fuel a s = some r) :
    madtLoop mapMmio m madt (fuel + k) a s = some r := by
  induction fuel generalizing a s r with
  | zero => exact nomatch h
  | succ fuel ih =>
    rw [madtLoop] at h
    rw [Nat.add_right_comm, madtLoop]
    split at h
    case isTrue hlt =>
      rw [if_pos hlt]
      cases he : readRecord mapMmio m a s with
      | none => rwa [he] at h
      | some s' =>
        rw [he, Option.elim_some] at h
        obtain ⟨r', hr', rfl⟩ := Option.map_eq_some_iff.mp h
        rw [Option.elim_some, ih hr', Option.map_some]
    case isFalse hge => rwa [if_neg hge]

theorem readMadt_det {fuel' : Nat} {r r' : (Nat × Apics) × List Nat}
    (h : readMadt mapMmio m madt fuel s = some r) (h' : readMadt mapMmio m madt fuel' s = some r') :
    r = r' := by
  rw [readMadt] at h h'
  split at h
  case isTrue hnull =>
    rw [if_pos hnull] at h'
    exact Option.some.inj (h.symm.trans h')
  case isFalse hnull =>
    rw [if_neg hnull] at h'
    obtain ⟨x, hx, rfl⟩ := Option.map_eq_some_iff.mp h
    obtain ⟨x', hx', rfl⟩ := Option.map_eq_some_iff.mp h'
    have hsum := madtLoop_mono fuel hx'
    rw [Nat.add_comm, madtLoop_mono fuel' hx] at hsum
    rw [Option.some.inj hsum]

/-- The loop ends behind the table. -/
theorem madtLoop_end (hm : madt < u64Size) (ha : madt + madtLength m madt ≤ a)
    (hlt : a < madt + u64Size) :
    madtLoop mapMmio m madt (fuel + 1) (a % u64Size) s = some ((0, s), []) := by
  rw [madtLoop, u64Sub_header hm (by omega) hlt, if_neg (by omega)]

/-- **The loop over records that follow each other** does what they ask for, and goes on behind
them if no I/O APIC has stopped it. -/
theorem madtLoop_path (hm : madt + madtLength m madt ≤ u64Size) (ha : madt ≤ a)
    (hp : Records m (madt + madtLength m madt) b a headers) :
    madtLoop mapMmio m madt (headers.length + fuel) (a % u64Size) s =
      if (readRecords mapMmio m headers s).1.1 = 0 then
        (madtLoop mapMmio m madt fuel (b % u64Size) (readRecords mapMmio m headers s).1.2).map
          fun r => (r.1, headers ++ r.2)
      else some (readRecords mapMmio m headers s) := by
  induction headers generalizing a s with
  | nil =>
    obtain rfl : a = b := hp
    rw [readRecords, if_pos rfl, List.length_nil, Nat.zero_add]
    exact Option.map_id'.symm
  | cons h headers ih =>
    obtain ⟨rfl, hin, -, hrest⟩ := hp
    rw [icHeaderSize] at hin
    rw [List.length_cons, Nat.add_right_comm, madtLoop_succ hm ha (by omega), readRecords]
    cases readRecord mapMmio m h s with
    | none => rfl
    | some s' =>
      rw [Option.elim_some, Option.elim_some, ih (by omega) hrest]
      split
      case isTrue => rw [Option.map_map]; rfl
      case isFalse => rfl

/-- Over records up to the end of the table the loop does what they ask for. -/
theorem madtLoop_records (hmadt : madt < u64Size) (hm : madt + madtLength m madt ≤ u64Size)
    (ha : madt ≤ a) (hlt : a < madt + madtLength m madt + 256)
    (hp : Records m (madt + madtLength m madt) b a headers) (hb : madt + madtLength m madt ≤ b) :
    madtLoop mapMmio m madt (headers.length + 1) (a % u64Size) s =
      some (readRecords mapMmio m headers s) := by
  have hlen := madtLength_lt m madt
  have hend := hp.end_lt hlt
  have hu64 := u64Size_eq
  rw [madtLoop_path hm ha hp]
  split
  case isTrue h =>
    rw [madtLoop_end hmadt hb (by omega), Option.map_some, List.append_nil]
    exact congrArg some (Prod.ext (Prod.ext h.symm rfl) (visited_readRecords h).symm)
  case isFalse => rfl

/-- Over records up to an I/O APIC that cannot be mapped the loop goes up to there. -/
theorem madtLoop_unmapped (hm : madt + madtLength m madt ≤ u64Size) (ha : madt ≤ a)
    (hp : Records m (madt + madtLength m madt) b a headers)
    (hb : b + icHeaderSize ≤ madt + madtLength m madt) (hmap : Unmapped mapMmio m s.regSel b)
    (hno : ∀ h ∈ headers, icType m h ≠ icTypeIoApic) :
    ∃ s', madtLoop mapMmio m madt (headers.length + 1) (a % u64Size) s =
      some ((1, s'), headers ++ [b]) := by
  obtain ⟨hret, hsel⟩ := readRecords_of_noIoApic (s := s) hno
  have hle := hp.length_le.1
  rw [← hsel, ← readRecord_eq_none] at hmap
  rw [icHeaderSize] at hb
  rw [madtLoop_path hm ha hp, if_pos hret, madtLoop_succ hm (by omega) (by omega), hmap]
  exact ⟨_, rfl⟩

/-- **A loop that ends and stays in the table** has gone over records up to where it stops. -/
theorem madtLoop_inside {r : (Nat × Apics) × List Nat}
    (hm : madt + madtLength m madt ≤ u64Size) (ha : madt ≤ a)
    (hlt : a < madt + madtLength m madt + 256)
    (h : madtLoop mapMmio m madt fuel (a % u64Size) s = some r)
    (hin : ∀ h ∈ r.2, madt ≤ h ∧ h + icHeaderSize ≤ madt + madtLength m madt) :
    RecordsToStop mapMmio m (madt + madtLength m madt) s.regSel a := by
  induction fuel generalizing a s r with
  | zero => exact nomatch h
  | succ fuel ih =>
    rcases Nat.lt_or_ge a (madt + madtLength m madt) with hlt' | hge
    · rw [madtLoop_succ hm ha hlt'] at h
      cases he : readRecord mapMmio m a s with
      | none =>
        rw [he] at h
        obtain rfl := Option.some.inj h
        exact ⟨[], a, rfl, .inr ⟨(hin a List.mem_cons_self).2, readRecord_eq_none.mp he,
          fun h hh => absurd hh List.not_mem_nil⟩⟩
      | some s' =>
        rw [he, Option.elim_some] at h
        obtain ⟨r', hr', rfl⟩ := Option.map_eq_some_iff.mp h
        obtain ⟨hina, hrest⟩ := List.forall_mem_cons.mp hin
        have hlen := icLength_lt m a
        obtain ⟨headers, b, hp, hstop⟩ := ih (by omega) (by omega) hr' hrest
        rcases Nat.eq_zero_or_pos (icLength m a) with hzero | hpos
        -- a record of length 0 is looked at again, and starts no records
        · rw [hzero, Nat.add_zero] at hp
          cases headers with
          | cons => exact absurd hzero (Nat.pos_iff_ne_zero.mp hp.2.2.1)
          | nil =>
            obtain rfl : a = b := hp
            rcases hstop with hstop | ⟨-, ⟨htype, hsel', -⟩, -⟩
            · omega
            · exact absurd htype (ne_of_readRecord he hsel').1
        · refine ⟨a :: headers, b, ⟨rfl, hina.2, hpos, hp⟩, hstop.imp_right ?_⟩
          rintro ⟨hb, ⟨htype, hsel', hmap⟩, hno⟩
          obtain ⟨hne, hsel⟩ := ne_of_readRecord he hsel'
          exact ⟨hb, ⟨htype, hsel, hmap⟩, List.forall_mem_cons.mpr ⟨hne, hno⟩⟩
    · exact ⟨[], a, rfl, .inl hge⟩

/-- **`read_madt` ends and stays in the table** if and only if there are records up to where it
stops. -/
theorem madtWalks_iff (hpos : 0 < madt) (hmadt : madt < u64Size)
    (hm : madt + madtLength m madt ≤ u64Size) :
    MadtWalks mapMmio m madt s ↔ RecordsToStop mapMmio m (madt + madtLength m madt) s.regSel
      (madt + madtHeaderSize) := by
  have hsize : madtHeaderSize = 44 := rfl
  constructor
  · rintro ⟨fuel, r, h, -, hin⟩
    rw [readMadt, if_neg (by omega)] at h
    obtain ⟨r', hr', rfl⟩ := Option.map_eq_some_iff.mp h
    exact madtLoop_inside hm (by omega) (by omega) hr' hin
  · rintro ⟨headers, b, hp, hstop⟩
    obtain ⟨r, hr, hvisited⟩ : ∃ r, madtLoop mapMmio m madt (headers.length + 1)
        ((madt + madtHeaderSize) % u64Size) s = some r ∧ (r.2 <+: headers ∨
          (r.2 = headers ++ [b] ∧ b + icHeaderSize ≤ madt + madtLength m madt)) := by
      rcases hstop with hb | ⟨hb, hmap, hno⟩
      · exact ⟨_, madtLoop_records hmadt hm (by omega) (by omega) hp hb,
          .inl readRecords_prefix⟩
      · obtain ⟨s', hs'⟩ := madtLoop_unmapped hm (by omega) hp hb hmap hno
        exact ⟨_, hs', .inr ⟨rfl, hb⟩⟩
    have hbound := hp.bounds (show madt < madt + madtHeaderSize by omega) hvisited
    rw [Nat.add_sub_cancel_left] at hbound
    refine ⟨headers.length + 1, (limitCores r.1, r.2), ?_, hbound⟩
    rw [readMadt, if_neg (by omega), u64Add, hr]
    rfl

end Loop

end Colibri.Boot

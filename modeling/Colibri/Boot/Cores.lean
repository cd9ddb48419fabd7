import Mathlib.Data.Finset.Card
import Mathlib.Data.List.Perm.Basic
import Colibri.Boot.Madt

/-!
# The processors that are started (`kernel/arch/x86-64/core_startup.c`)

`read_madt` counts the local APICs that are enabled, and `init_ap` starts the processors with the ids
below this count, other than its own. Nothing reads `apic_id`. The copy of the trampoline, the lock,
the count of the running processors and the log message are left out of `initAp`.

## Results

* `coreAvailable_readRecords`: what `read_madt` has counted.
* `startsCores_iff`: the enabled processors are started, if and only if their ids are the numbers
  below their count and none of them is behind an I/O APIC that cannot be mapped.
-/

namespace Colibri.Boot

open Colibri.Lib

/-- `LAPIC_REG_ERROR_STATUS`. -/
def lapicRegErrorStatus : Nat := 0x280

/-- `DELIVERY_INIT`. -/
def deliveryInit : Nat := 5

/-- `DELIVERY_START_UP`. -/
def deliveryStartUp : Nat := 6

/-- The fields of `ipi_command_t` that are set here. -/
structure IpiCommand where
  vector : Nat := 0
  delivMode : Nat
  level : Nat := 0
  triggerMode : Nat := 0

/-- What `init_ap` does to the local APIC, and its delays. -/
inductive LapicOp
  | writeRegister (reg value : Nat)
  | sendIpi (dest : Nat) (command : IpiCommand)
  | millidelay (ms : Nat)
  | nanodelay (ns : Nat)

/-- The body of the loop: INIT, its deassertion, and STARTUP twice. -/
def startCore (i : Nat) : List LapicOp :=
  let ini : IpiCommand := { delivMode := deliveryInit, level := 1, triggerMode := 1 }
  let startup : IpiCommand := { delivMode := deliveryStartUp, vector := 8 }
  [.writeRegister lapicRegErrorStatus 0, .sendIpi i ini, .sendIpi i { ini with level := 0 },
    .millidelay 10, .writeRegister lapicRegErrorStatus 0, .sendIpi i startup, .nanodelay 200000,
    .writeRegister lapicRegErrorStatus 0, .sendIpi i startup, .nanodelay 200000]

/-- `init_ap`. -/
def initAp (coreAvailable bspId : Nat) : List LapicOp :=
  (List.range coreAvailable).flatMap fun i => if i = bspId then [] else startCore i

/-- `lapic->apic_id`. -/
def apicId (m : Mem) (lapic : Nat) : Nat := m.load (lapic + 3) 1

/-- The record is a local APIC that is enabled. -/
def Enabled (m : Mem) (h : Nat) : Prop := icType m h = icTypeLapic ∧ lapicFlags m h % 2 = 1

instance Enabled.decidable (m : Mem) (h : Nat) : Decidable (Enabled m h) :=
  inferInstanceAs (Decidable (_ ∧ _))

/-- The ids of the enabled local APICs. -/
def enabledIds (m : Mem) (headers : List Nat) : List Nat :=
  (headers.filter fun h => decide (Enabled m h)).map (apicId m)

/-- A table with these records, of the lengths that their types have. -/
structure MadtOf (m : Mem) (madt : Nat) (headers : List Nat) : Prop where
  pos : 0 < madt
  stop_le : madt + madtLength m madt ≤ u64Size
  records : Records m (madt + madtLength m madt) (madt + madtLength m madt)
    (madt + madtHeaderSize) headers
  lapic : ∀ h ∈ headers, icType m h = icTypeLapic → icLength m h = 8
  ioApic : ∀ h ∈ headers, icType m h = icTypeIoApic → icLength m h = 12

/-- `read_madt` counts the enabled processors, and `init_ap` starts them, in some order, but for the
one that it runs on. -/
def StartsCores (mapMmio : Nat → Nat) (m : Mem) (madt : Nat) (headers : List Nat) (bspId : Nat)
    (s : Apics) : Prop :=
  ∃ fuel r, readMadt mapMmio m madt fuel s = some r ∧
    r.1.2.coreAvailable = (enabledIds m headers).length ∧
      ∃ ids : List Nat, ids.Perm ((enabledIds m headers).filter (· ≠ bspId)) ∧
        initAp r.1.2.coreAvailable bspId = ids.flatMap startCore

/-! ## What is counted -/

section Count

variable {mapMmio : Nat → Nat} {m : Mem} {b : Nat} {s : Apics} {headers hs₁ hs₂ : List Nat}

theorem enabledIds_append : enabledIds m (hs₁ ++ hs₂) = enabledIds m hs₁ ++ enabledIds m hs₂ := by
  rw [enabledIds, List.filter_append, List.map_append]
  rfl

theorem enabledIds_cons : enabledIds m (b :: headers) =
    if Enabled m b then apicId m b :: enabledIds m headers else enabledIds m headers := by
  by_cases h : Enabled m b <;> simp [enabledIds, h]

theorem coreAvailable_readRecord {s' : Apics} (h : readRecord mapMmio m b s = some s') :
    s'.coreAvailable =
      if Enabled m b then (s.coreAvailable + 1) % 2 ^ 32 else s.coreAvailable := by
  rw [readRecord] at h
  by_cases hlapic : icType m b = icTypeLapic
  · rw [if_pos hlapic] at h
    obtain rfl := Option.some.inj h
    by_cases hflag : lapicFlags m b % 2 = 1
    · rw [if_pos hflag, if_pos ⟨hlapic, hflag⟩]
    · rw [if_neg hflag, if_neg fun h => hflag h.2]
  · rw [if_neg hlapic] at h
    rw [if_neg fun h => hlapic h.1]
    by_cases hio : icType m b = icTypeIoApic
    · rw [if_pos hio, readIoApic] at h
      by_cases hsel : s.regSel = 0
      · by_cases hmap : mapMmio (ioApicAddress m b) = 0
        · simp [hsel, hmap] at h
        · rw [if_pos hsel, if_neg hmap] at h
          rw [← Option.some.inj h]
      · rw [if_neg hsel] at h
        rw [← Option.some.inj h]
    · rw [if_neg hio] at h
      rw [← Option.some.inj h]

/-- **What `read_madt` has counted**: the enabled local APICs that it has looked at. -/
theorem coreAvailable_readRecords
    (hlt : s.coreAvailable + (enabledIds m (readRecords mapMmio m headers s).2).length < 2 ^ 32) :
    (readRecords mapMmio m headers s).1.2.coreAvailable =
      s.coreAvailable + (enabledIds m (readRecords mapMmio m headers s).2).length := by
  induction headers generalizing s with
  | nil => rfl
  | cons h headers ih =>
    rw [readRecords] at hlt ⊢
    cases he : readRecord mapMmio m h s with
    | none =>
      have hno : ¬Enabled m h := fun hen =>
        absurd (hen.1.symm.trans (readRecord_eq_none.mp he).1) (by decide)
      rw [Option.elim_none, enabledIds_cons, if_neg hno]
      rfl
    | some s' =>
      have hcore := coreAvailable_readRecord he
      rw [he, Option.elim_some, enabledIds_cons] at hlt
      rw [Option.elim_some, enabledIds_cons]
      by_cases hen : Enabled m h
      · rw [if_pos hen, List.length_cons] at hlt ⊢
        rw [if_pos hen, Nat.mod_eq_of_lt (by omega)] at hcore
        rw [ih (by omega), hcore]
        omega
      · rw [if_neg hen] at hlt hcore ⊢
        rw [ih (by omega), hcore]

/-- No enabled local APIC is behind the first I/O APIC, if this cannot be mapped. -/
def NoneBehind (mapMmio : Nat → Nat) (m : Mem) (regSel : Nat) (headers : List Nat) : Prop :=
  ∀ hs₁ b hs₂, headers = hs₁ ++ b :: hs₂ → (∀ h ∈ hs₁, icType m h ≠ icTypeIoApic) →
    Unmapped mapMmio m regSel b → enabledIds m hs₂ = []

/-- The loop looks at all records, or stops at the first I/O APIC. -/
theorem readRecords_cases (mapMmio : Nat → Nat) (m : Mem) (headers : List Nat) (s : Apics) :
    (readRecords mapMmio m headers s).2 = headers ∨
    ∃ hs₁ b hs₂, headers = hs₁ ++ b :: hs₂ ∧ (∀ h ∈ hs₁, icType m h ≠ icTypeIoApic) ∧
      Unmapped mapMmio m s.regSel b ∧ (readRecords mapMmio m headers s).2 = hs₁ ++ [b] := by
  induction headers generalizing s with
  | nil => exact .inl rfl
  | cons h headers ih =>
    rw [readRecords]
    cases he : readRecord mapMmio m h s with
    | none =>
      exact .inr ⟨[], h, headers, rfl, fun h hh => absurd hh List.not_mem_nil,
        readRecord_eq_none.mp he, rfl⟩
    | some s' =>
      rw [Option.elim_some]
      rcases ih (s := s') with hall | ⟨hs₁, b, hs₂, rfl, hno, hmap, hvisited⟩
      · exact .inl (congrArg (h :: ·) hall)
      · obtain ⟨hne, hsel⟩ := ne_of_readRecord he hmap.2.1
        exact .inr ⟨h :: hs₁, b, hs₂, rfl, List.forall_mem_cons.mpr ⟨hne, hno⟩,
          ⟨hmap.1, hsel, hmap.2.2⟩, congrArg (h :: ·) hvisited⟩

/-- It does stop there. -/
theorem readRecords_unmapped (hno : ∀ h ∈ hs₁, icType m h ≠ icTypeIoApic)
    (hmap : Unmapped mapMmio m s.regSel b) :
    (readRecords mapMmio m (hs₁ ++ b :: hs₂) s).2 = hs₁ ++ [b] := by
  induction hs₁ generalizing s with
  | nil =>
    rw [List.nil_append, readRecords, readRecord_eq_none.mpr hmap]
    rfl
  | cons h hs₁ ih =>
    obtain ⟨hh, hrest⟩ := List.forall_mem_cons.mp hno
    obtain ⟨s', he, hsel⟩ := readRecord_of_ne (s := s) hh
    rw [List.cons_append, readRecords, he, Option.elim_some, ih hrest (hsel ▸ hmap)]
    rfl

/-- All enabled local APICs are counted if and only if none is behind where the loop stops. -/
theorem enabledIds_readRecords :
    (enabledIds m (readRecords mapMmio m headers s).2).length = (enabledIds m headers).length ↔
      NoneBehind mapMmio m s.regSel headers := by
  have hsplit : ∀ hs₁ b hs₂, enabledIds m (hs₁ ++ b :: hs₂) =
      enabledIds m (hs₁ ++ [b]) ++ enabledIds m hs₂ := fun hs₁ b hs₂ => by
    rw [← enabledIds_append, List.append_assoc, List.singleton_append]
  constructor
  · rintro hlen hs₁ b hs₂ rfl hno hmap
    rw [readRecords_unmapped hno hmap, hsplit hs₁ b hs₂, List.length_append] at hlen
    exact List.eq_nil_of_length_eq_zero (by omega)
  · intro hnone
    rcases readRecords_cases mapMmio m headers s with hall | ⟨hs₁, b, hs₂, rfl, hno, hmap, hvisited⟩
    · rw [hall]
    · rw [hvisited, hsplit hs₁ b hs₂, hnone hs₁ b hs₂ rfl hno hmap, List.append_nil]

end Count

/-! ## What is started -/

section Start

variable {ids ids' : List Nat} {i n bspId : Nat}

theorem initAp_eq : initAp n bspId = ((List.range n).filter (· ≠ bspId)).flatMap startCore := by
  rw [initAp]
  induction List.range n with
  | nil => rfl
  | cons i is ih => by_cases h : i = bspId <;> simp [h, ih]

/-- The commands tell which processors they go to. -/
theorem startCore_injective (h : ids.flatMap startCore = ids'.flatMap startCore) : ids = ids' := by
  induction ids generalizing ids' with
  | nil =>
    cases ids' with
    | nil => rfl
    | cons i' ids' => exact nomatch h
  | cons i ids ih =>
    cases ids' with
    | nil => exact nomatch h
    | cons i' ids' =>
      obtain ⟨hhead, htail⟩ := List.append_inj h rfl
      have hsecond := congrArg (fun ops => ops[1]?) hhead
      obtain ⟨hi, -⟩ := LapicOp.sendIpi.inj (Option.some.inj hsecond)
      rw [hi, ih htail]

/-- Two sets of the same size that differ in one number at most are equal. -/
theorem eq_of_erase_eq {s t : Finset Nat} (hcard : s.card = t.card)
    (h : s.erase i = t.erase i) : s = t := by
  by_cases hs : i ∈ s
  · have ht : i ∈ t := by
      by_contra ht
      rw [Finset.erase_eq_of_notMem ht] at h
      have hlt := Finset.card_erase_lt_of_mem hs
      rw [h, hcard] at hlt
      exact Nat.lt_irrefl _ hlt
    rw [← Finset.insert_erase hs, h, Finset.insert_erase ht]
  · rw [Finset.erase_eq_of_notMem hs] at h
    have hle : s ⊆ t := h ▸ Finset.erase_subset i t
    exact Finset.eq_of_subset_of_card_le hle (Nat.le_of_eq hcard.symm)

/-- **The processors that are started** are these, but for the one that does it, if and only if
these are the numbers below their count. -/
theorem initAp_starts_iff (hnodup : ids.Nodup) :
    (∃ targets : List Nat, targets.Perm (ids.filter (· ≠ bspId)) ∧
      initAp ids.length bspId = targets.flatMap startCore) ↔ ∀ i, i ∈ ids ↔ i < ids.length := by
  have hrange := List.nodup_range (n := ids.length)
  constructor
  · rintro ⟨targets, hperm, hops⟩
    rw [initAp_eq] at hops
    rw [← startCore_injective hops] at hperm
    have he : ids.toFinset = Finset.range ids.length := by
      refine eq_of_erase_eq (i := bspId) ?_ ?_
      · rw [List.toFinset_card_of_nodup hnodup, Finset.card_range]
      · ext i
        have hmem := hperm.mem_iff (a := i)
        simp only [List.mem_filter, List.mem_range, decide_eq_true_eq] at hmem
        simp only [Finset.mem_erase, List.mem_toFinset, Finset.mem_range]
        tauto
    intro i
    rw [← List.mem_toFinset, he, Finset.mem_range]
  · intro hall
    refine ⟨_, ?_, initAp_eq⟩
    refine List.Perm.filter _ ((List.perm_ext_iff_of_nodup hrange hnodup).mpr fun i => ?_)
    rw [List.mem_range, hall]

end Start

/-! ## Both together -/

section Cores

variable {mapMmio : Nat → Nat} {m : Mem} {madt bspId : Nat} {s : Apics} {headers : List Nat}

theorem enabledIds_readRecords_le : (enabledIds m (readRecords mapMmio m headers s).2).length ≤
    (enabledIds m headers).length := by
  obtain ⟨rest, hrest⟩ : (readRecords mapMmio m headers s).2 <+: headers := readRecords_prefix
  calc (enabledIds m (readRecords mapMmio m headers s).2).length
      ≤ (enabledIds m ((readRecords mapMmio m headers s).2 ++ rest)).length := by
        rw [enabledIds_append, List.length_append]
        exact Nat.le_add_right _ _
    _ = (enabledIds m headers).length := by rw [hrest]

/-- What `read_madt` does on a table with at most 32 enabled processors. -/
theorem readMadt_eq (hm : MadtOf m madt headers) (hcore : s.coreAvailable = 0)
    (hle : (enabledIds m headers).length ≤ maxCores) :
    ∃ r, readMadt mapMmio m madt (headers.length + 1) s = some r ∧ r.1.2.coreAvailable =
      (enabledIds m (readRecords mapMmio m headers s).2).length := by
  have hpos := hm.pos
  have hsize := hm.records.length_le.1
  have hheader : madtHeaderSize = 44 := rfl
  have hmax : maxCores = 32 := rfl
  have hcount : (enabledIds m (readRecords mapMmio m headers s).2).length ≤ maxCores :=
    Nat.le_trans enabledIds_readRecords_le hle
  have hlt : s.coreAvailable + (enabledIds m (readRecords mapMmio m headers s).2).length <
      2 ^ 32 := by omega
  have hcores := coreAvailable_readRecords hlt
  rw [hcore, Nat.zero_add] at hcores
  have hstop := hm.stop_le
  refine ⟨(limitCores (readRecords mapMmio m headers s).1, (readRecords mapMmio m headers s).2),
    ?_, ?_⟩
  · rw [readMadt, if_neg (by omega), u64Add, madtLoop_records (by omega) hstop (by omega)
      (by omega) hm.records (Nat.le_refl _)]
    rfl
  · rw [limitCores, if_neg (by omega)]
    exact hcores

/-- **The enabled processors are started** if and only if their ids are the numbers below their
count, and none of them is behind an I/O APIC that cannot be mapped. -/
theorem startsCores_iff (hm : MadtOf m madt headers) (hcore : s.coreAvailable = 0)
    (hnodup : (enabledIds m headers).Nodup) (hle : (enabledIds m headers).length ≤ maxCores) :
    StartsCores mapMmio m madt headers bspId s ↔
      (∀ i, i ∈ enabledIds m headers ↔ i < (enabledIds m headers).length) ∧
        NoneBehind mapMmio m s.regSel headers := by
  obtain ⟨r, hr, hcount⟩ := readMadt_eq hm hcore hle
  rw [← enabledIds_readRecords, ← hcount, ← initAp_starts_iff hnodup]
  constructor
  · rintro ⟨fuel, r', hr', hall, hstarts⟩
    obtain rfl := readMadt_det hr hr'
    rw [hall] at hstarts
    exact ⟨hstarts, hall⟩
  · rintro ⟨hstarts, hall⟩
    rw [← hall] at hstarts
    exact ⟨_, r, hr, hall, hstarts⟩

end Cores

/-! ## Two processors -/

/-- A table at `0x5000` with two local APICs that are enabled. -/
def twoCpus (id₁ id₂ : Nat) : Mem :=
  ((((((Mem.store (fun _ => 0) 0x5004 4 60).store 0x502D 1 8).store 0x502F 1 id₁).store
    0x5030 4 1).store 0x5035 1 8).store 0x5037 1 id₂).store 0x5038 4 1

theorem madtOf_twoCpus (id₁ id₂ : Nat) : MadtOf (twoCpus id₁ id₂) 0x5000 [0x502C, 0x5034] := by
  have hlen : madtLength (twoCpus id₁ id₂) 0x5000 = 60 := rfl
  have hlen₁ : icLength (twoCpus id₁ id₂) 0x502C = 8 := rfl
  have hlen₂ : icLength (twoCpus id₁ id₂) 0x5034 = 8 := rfl
  have htype₁ : icType (twoCpus id₁ id₂) 0x502C = icTypeLapic := rfl
  have htype₂ : icType (twoCpus id₁ id₂) 0x5034 = icTypeLapic := rfl
  refine ⟨by decide, by rw [hlen]; decide, ?_, fun h hh _ => ?_, fun h hh hio => ?_⟩
  · have hrest : Records (twoCpus id₁ id₂) 0x503C 0x503C 0x5034 [0x5034] :=
      ⟨rfl, by decide, by rw [hlen₂]; decide, by rw [hlen₂]; rfl⟩
    rw [hlen]
    exact ⟨rfl, by decide, hlen₁ ▸ by decide, hrest⟩
  · rcases List.mem_pair.mp hh with rfl | rfl
    · exact hlen₁
    · exact hlen₂
  · rcases List.mem_pair.mp hh with rfl | rfl
    · exact absurd (htype₁.symm.trans hio) (by decide)
    · exact absurd (htype₂.symm.trans hio) (by decide)

/-- With the ids 0 and 2, the processor 1 is started in place of 2. -/
theorem gap_not_started : MadtOf (twoCpus 0 2) 0x5000 [0x502C, 0x5034] ∧
    enabledIds (twoCpus 0 2) [0x502C, 0x5034] = [0, 2] ∧
    ∀ mapMmio regSel win,
      ¬StartsCores mapMmio (twoCpus 0 2) 0x5000 [0x502C, 0x5034] 0 ⟨0, regSel, win⟩ := by
  have hids : enabledIds (twoCpus 0 2) [0x502C, 0x5034] = [0, 2] := by decide
  refine ⟨madtOf_twoCpus 0 2, hids, ?_⟩
  rintro mapMmio regSel win ⟨fuel, r, -, hall, hstarts⟩
  rw [hall, hids] at hstarts
  have hlt := ((initAp_starts_iff (by decide)).mp hstarts 2).mp (by decide)
  exact absurd hlt (by decide)

/-- With the ids 1 and 0, both are started. -/
theorem startsCores_two : StartsCores (fun _ => 0) (twoCpus 1 0) 0x5000 [0x502C, 0x5034] 0
    ⟨0, 0, 0⟩ := by
  have hids : enabledIds (twoCpus 1 0) [0x502C, 0x5034] = [1, 0] := by decide
  refine (startsCores_iff (madtOf_twoCpus 1 0) rfl (by rw [hids]; decide) (by rw [hids]; decide)).mpr
    ⟨fun i => ?_, fun hs₁ b hs₂ he hno hmap => ?_⟩
  · rw [hids, List.mem_pair, List.length_cons, List.length_singleton]
    omega
  · -- there is no I/O APIC in the table
    have hb : b ∈ [0x502C, 0x5034] := by
      rw [he]
      exact List.mem_append_cons_self
    have htype : icType (twoCpus 1 0) b = icTypeLapic := by
      rcases List.mem_pair.mp hb with rfl | rfl <;> decide
    exact absurd (htype.symm.trans hmap.1) (by decide)

end Colibri.Boot

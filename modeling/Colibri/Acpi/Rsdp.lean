import Colibri.Acpi

/-!
# The root pointers of the system description tables (`kernel/acpi.c`)

`load_rsdp` takes the address of the RSDT from a structure of 20 bytes, `load_xsdp` that of the XSDT
from one of 36 bytes, which starts with the fields of the first. A structure of revision 0 has only
the first part. Each part is to be believed if its bytes sum to 0 modulo 256.

The loop of `load_xsdp` is `for (size_t i = 0; sizeof(struct xsdp); i++)`: its condition is a
constant. A loop gets a bound on its turns (`fuel`); it ends if it has a result for some bound. The
log messages are left out.

## Results

* `sumLoop_lt`, `sumLoop_forever`: what the loops of the two functions compute.
* `loadRsdp_eq`: `load_rsdp` believes what has the sum, and changes nothing else.
* `xsdpLoads_iff`: `load_xsdp` does what it is for only where it does not come to its loop.
-/

namespace Colibri.Acpi

open Colibri.Lib Colibri.Memory

/-- `sizeof(struct rsdp)`. -/
def sizeofRsdp : Nat := 20

/-- `sizeof(struct xsdp)`. -/
def sizeofXsdp : Nat := 36

/-- The globals `rsdt` and `xsdt`. -/
structure Tables where
  rsdt : Nat
  xsdt : Nat

/-- `for (size_t i = ..; cond(i); i++) sum += byte[i]`, where `sum` is a `u32`. -/
def sumLoop (m : Readable) (byte : Nat) (cond : Nat → Bool) : Nat → Nat → Nat → Option Nat
  | 0, _, _ => none
  | fuel + 1, i, sum =>
    if cond i then
      (m.byte (u64Add byte i)).bind fun b =>
        sumLoop m byte cond fuel (u64Incr i) ((sum + b.toNat) % 2 ^ 32)
    else some sum

/-- `revision`. -/
def sdpRevision (m : Readable) (sdp : Nat) : Option Nat := m.read (u64Add sdp 15) 1

/-- `rsdt_addr`. -/
def rsdtAddr (m : Readable) (sdp : Nat) : Option Nat := m.read (u64Add sdp 16) 4

/-- `xsdt_address`. -/
def xsdtAddress (m : Readable) (xsdp : Nat) : Option Nat := m.read (u64Add xsdp 24) 8

/-- `load_rsdp`: the value returned and the globals. -/
def loadRsdp (m : Readable) (rsdp fuel : Nat) (g : Tables) : Option (Nat × Tables) :=
  (sumLoop m rsdp (fun i => decide (i < sizeofRsdp)) fuel 0 0).bind fun sum =>
    if sum &&& 0xFF ≠ 0 then some (1, g)
    else (rsdtAddr m rsdp).bind fun addr => some (0, { g with rsdt := physToVirt addr })

/-- `load_xsdp`: the value returned and the globals. -/
def loadXsdp (m : Readable) (xsdp fuel : Nat) (g : Tables) : Option (Nat × Tables) :=
  (loadRsdp m xsdp fuel g).bind fun r =>
    if r.1 ≠ 0 then some (1, r.2)
    else (sdpRevision m xsdp).bind fun revision =>
      if revision = 0 then some (0, r.2)
      -- the condition does not look at `i`
      else (sumLoop m xsdp (fun _ => decide (sizeofXsdp ≠ 0)) fuel 0 0).bind fun sum =>
        if sum &&& 0xFF ≠ 0 then some (1, r.2)
        else (xsdtAddress m xsdp).bind fun addr => some (0, { r.2 with xsdt := physToVirt addr })

/-! ## The structures -/

/-- The sum of bytes. -/
def byteSum (bytes : List (BitVec 8)) : Nat := (bytes.map BitVec.toNat).sum

/-- The bytes of an RSDP (revision 0) or of an XSDP. -/
structure Sdp where
  bytes : List (BitVec 8)
  rsdp_le : sizeofRsdp ≤ bytes.length
  xsdp_le : bytes.get ⟨15, Nat.lt_of_lt_of_le (by decide) rsdp_le⟩ ≠ 0 → sizeofXsdp ≤ bytes.length

namespace Sdp

variable (c : Sdp)

/-- The revision of the structure. -/
def revision : Nat := (c.bytes.get ⟨15, Nat.lt_of_lt_of_le (by decide) c.rsdp_le⟩).toNat

/-- The first 20 bytes sum to 0 modulo 256. -/
def RsdpValid : Prop := byteSum (c.bytes.take sizeofRsdp) % 256 = 0

/-- All 36 bytes sum to 0 modulo 256. -/
def XsdpValid : Prop := byteSum (c.bytes.take sizeofXsdp) % 256 = 0

instance decidableRsdpValid : Decidable c.RsdpValid := inferInstanceAs (Decidable (_ = _))

instance decidableXsdpValid : Decidable c.XsdpValid := inferInstanceAs (Decidable (_ = _))

/-- The structure is in memory at `sdp`. -/
def In (m : Readable) (sdp : Nat) : Prop :=
  ∀ i, (h : i < c.bytes.length) → m.byte (u64Add sdp i) = some c.bytes[i]

end Sdp

/-- `load_xsdp` returns, 0 for a structure to be believed and 1 for others; it sets `xsdt` only for
an XSDP to be believed, and returns 1 with nothing set. -/
def XsdpLoads (m : Readable) (xsdp : Nat) (c : Sdp) (g : Tables) : Prop :=
  ∃ fuel ret g', loadXsdp m xsdp fuel g = some (ret, g') ∧ (ret = 0 ∨ ret = 1) ∧
    (ret = 0 ↔ c.RsdpValid ∧ (c.revision = 0 ∨ c.XsdpValid)) ∧
    (g'.xsdt ≠ g.xsdt → ret = 0 ∧ c.revision ≠ 0) ∧ (ret = 1 → g' = g)

/-! ## The loops -/

section Loop

variable {m : Readable} {sdp fuel i sum : Nat} {c : Sdp} {g : Tables}

theorem byteSum_cons (b : BitVec 8) (l : List (BitVec 8)) : byteSum (b :: l) = b.toNat + byteSum l :=
  rfl

/-- The loop of `load_rsdp` reads the bytes below its bound and ends. -/
theorem sumLoop_lt {l : List (BitVec 8)} (fuel : Nat)
    (hread : ∀ k, (h : k < l.length) → m.byte (u64Add sdp (i + k)) = some l[k])
    (hi : i + l.length < u64Size) (hsum : sum < 2 ^ 32) :
    sumLoop m sdp (fun j => decide (j < i + l.length)) fuel i sum =
      if fuel ≤ l.length then none else some ((sum + byteSum l) % 2 ^ 32) := by
  induction l generalizing i sum fuel with
  | nil =>
    cases fuel with
    | zero => rfl
    | succ fuel => simpa [sumLoop, byteSum] using (Nat.mod_eq_of_lt hsum).symm
  | cons b l ih =>
    cases fuel with
    | zero => simp [sumLoop]
    | succ fuel =>
      have hhead : m.byte (u64Add sdp i) = some b := hread 0 (Nat.succ_pos _)
      have hlt : i < i + (b :: l).length := by rw [List.length_cons]; omega
      have hstep : i + 1 + l.length = i + (b :: l).length := by rw [List.length_cons]; omega
      have hrest := @ih (i + 1) ((sum + b.toNat) % 2 ^ 32) fuel
        (fun k hk => by
          have hk' := hread (k + 1) (Nat.succ_lt_succ hk)
          rwa [Nat.add_left_comm, Nat.add_comm, List.getElem_cons_succ] at hk')
        (by omega) (Nat.mod_lt _ (by decide))
      rw [sumLoop, if_pos (decide_eq_true hlt), hhead, Option.bind_some, u64Incr_eq (by omega),
        ← hstep, hrest, byteSum_cons, List.length_cons, Nat.mod_add_mod, Nat.add_assoc]
      exact if_congr (by omega) rfl rfl

/-- The loop of `load_xsdp` has no result. -/
theorem sumLoop_forever : sumLoop m sdp (fun _ => decide (sizeofXsdp ≠ 0)) fuel i sum = none := by
  induction fuel generalizing i sum with
  | zero => rfl
  | succ fuel ih =>
    rw [sumLoop, if_pos (by decide)]
    cases m.byte (u64Add sdp i) with
    | none => rfl
    | some b => exact ih

end Loop

/-! ## The functions -/

section Load

variable {m : Readable} {sdp fuel n : Nat} {c : Sdp} {g : Tables}

/-- A field of the structure can be read. -/
theorem Sdp.In.read (h : c.In m sdp) {i : Nat} (hn : i + n ≤ c.bytes.length) :
    ∃ v, m.read (u64Add sdp i) n = some v := by
  induction n generalizing i with
  | zero => exact ⟨0, rfl⟩
  | succ n ih =>
    obtain ⟨v, hv⟩ := ih (i := i + 1) (by omega)
    rw [Readable.read, h i (by omega), Option.bind_some, u64Add_assoc, hv]
    exact ⟨_, rfl⟩

theorem sdpRevision_eq (h : c.In m sdp) : sdpRevision m sdp = some c.revision := by
  have hlt : 15 < c.bytes.length := Nat.lt_of_lt_of_le (by decide) c.rsdp_le
  rw [sdpRevision, Readable.read, h 15 hlt]
  rfl

/-- **What `load_rsdp` does**: it believes a structure with the sum, and sets `rsdt` only then. -/
theorem loadRsdp_eq (h : c.In m sdp) (fuel : Nat) :
    ∃ addr, loadRsdp m sdp fuel g =
      if fuel ≤ sizeofRsdp then none
      else if c.RsdpValid then some (0, { g with rsdt := addr }) else some (1, g) := by
  have hsize := u64Size_eq
  have hlen : (c.bytes.take sizeofRsdp).length = sizeofRsdp := by
    rw [List.length_take, Nat.min_eq_left c.rsdp_le]
  have hread : ∀ k, (hk : k < (c.bytes.take sizeofRsdp).length) →
      m.byte (u64Add sdp (0 + k)) = some (c.bytes.take sizeofRsdp)[k] := by
    intro k hk
    rw [List.getElem_take, Nat.zero_add]
    exact h k _
  have hsum := @sumLoop_lt m sdp 0 0 _ fuel hread (by rw [hlen, sizeofRsdp]; omega) (by decide)
  rw [hlen, Nat.zero_add, Nat.zero_add] at hsum
  obtain ⟨addr, haddr⟩ := h.read (i := 16) (n := 4) c.rsdp_le
  refine ⟨physToVirt addr, ?_⟩
  rw [loadRsdp, hsum, rsdtAddr, haddr]
  split
  case isTrue => rfl
  case isFalse =>
    have hmask : byteSum (c.bytes.take sizeofRsdp) % 2 ^ 32 &&& 0xFF =
        byteSum (c.bytes.take sizeofRsdp) % 256 := by
      rw [show 0xFF = 2 ^ 8 - 1 from rfl, Nat.and_two_pow_sub_one_eq_mod]
      omega
    rw [Option.bind_some, hmask, Option.bind_some]
    by_cases hv : c.RsdpValid
    · have hzero : byteSum (c.bytes.take sizeofRsdp) % 256 = 0 := hv
      rw [if_neg (not_not.mpr hzero), if_pos hv]
    · have hne : byteSum (c.bytes.take sizeofRsdp) % 256 ≠ 0 := hv
      rw [if_pos hne, if_neg hv]

/-- `load_xsdp` never returns from its loop. -/
theorem loadXsdp_forever (h : c.In m sdp) (hv : c.RsdpValid) (hrev : c.revision ≠ 0) :
    loadXsdp m sdp fuel g = none := by
  obtain ⟨addr, hrsdp⟩ := loadRsdp_eq (g := g) h fuel
  rw [if_pos hv] at hrsdp
  rw [loadXsdp, hrsdp]
  split
  case isTrue => rfl
  case isFalse =>
    rw [Option.bind_some, if_neg (not_not.mpr rfl), sdpRevision_eq h, Option.bind_some,
      if_neg hrev, sumLoop_forever, Option.bind_none]

/-- **`load_xsdp` does what it is for** if and only if it does not come to the second sum: the first
20 bytes do not sum to 0, or the revision is 0. -/
theorem xsdpLoads_iff (h : c.In m sdp) :
    XsdpLoads m sdp c g ↔ ¬c.RsdpValid ∨ c.revision = 0 := by
  constructor
  · rintro ⟨fuel, ret, g', hload, -⟩
    by_contra hno
    rw [not_or, not_not] at hno
    rw [loadXsdp_forever h hno.1 hno.2] at hload
    exact nomatch hload
  · intro hcond
    obtain ⟨addr, hrsdp⟩ := loadRsdp_eq (g := g) h (sizeofRsdp + 1)
    rw [if_neg (by decide)] at hrsdp
    by_cases hv : c.RsdpValid
    · have hrev := hcond.resolve_left (not_not.mpr hv)
      rw [if_pos hv] at hrsdp
      refine ⟨sizeofRsdp + 1, 0, { g with rsdt := addr }, ?_, .inl rfl, ?_, ?_, ?_⟩
      · rw [loadXsdp, hrsdp, Option.bind_some, if_neg (not_not.mpr rfl), sdpRevision_eq h,
          Option.bind_some, if_pos hrev]
      · exact iff_of_true rfl ⟨hv, .inl hrev⟩
      · exact fun hne => absurd rfl hne
      · exact fun h1 => nomatch h1
    · rw [if_neg hv] at hrsdp
      refine ⟨sizeofRsdp + 1, 1, g, ?_, .inr rfl, ?_, ?_, fun _ => rfl⟩
      · rw [loadXsdp, hrsdp, Option.bind_some, if_pos Nat.one_ne_zero]
      · exact iff_of_false (by decide) fun h2 => hv h2.1
      · exact fun hne => absurd rfl hne

end Load

/-! ## Structures in memory -/

/-- Memory with the structure at address 8, and nothing else. -/
def Sdp.memory (c : Sdp) : Readable where
  byte a := if 8 ≤ a then c.bytes[a - 8]? else none
  null := rfl

theorem Sdp.in_memory (c : Sdp) (hlen : c.bytes.length ≤ 2 ^ 32) : c.In c.memory 8 := by
  intro i hi
  have hadd : u64Add 8 i = 8 + i := u64Add_eq (by rw [u64Size_eq]; omega)
  simp [Sdp.memory, hadd, hi]

/-- An XSDP with the right sums: of revision 2, zero but for its checksum. -/
def zeroXsdp : Sdp where
  bytes := List.replicate 8 0 ++ [254] ++ List.replicate 6 0 ++ [2] ++ List.replicate 20 0
  rsdp_le := by decide
  xsdp_le := fun _ => by decide

/-- An RSDP of revision 0: the signature, the checksum, the OEM's name and the address of the RSDT. -/
def firstRsdp : Sdp where
  bytes := [0x52, 0x53, 0x44, 0x20, 0x50, 0x54, 0x52, 0x20] ++ [7] ++
    [0x42, 0x4f, 0x43, 0x48, 0x53, 0x20] ++ [0] ++ [0x3c, 0x0a, 0xfe, 0x07]
  rsdp_le := by decide
  xsdp_le := fun h => absurd rfl h

/-- The right sums of an XSDP make `load_xsdp` loop. -/
theorem xsdp_loops : zeroXsdp.In zeroXsdp.memory 8 ∧ zeroXsdp.RsdpValid ∧ zeroXsdp.XsdpValid ∧
    ∀ g, ¬XsdpLoads zeroXsdp.memory 8 zeroXsdp g := by
  have hin := zeroXsdp.in_memory (by decide)
  refine ⟨hin, by decide, by decide, ?_⟩
  rintro g ⟨fuel, ret, g', hload, -⟩
  rw [loadXsdp_forever hin (by decide) (by decide)] at hload
  exact nomatch hload

/-- An RSDP with the right sum is loaded. -/
theorem xsdpLoads_firstRsdp : firstRsdp.In firstRsdp.memory 8 ∧ firstRsdp.RsdpValid ∧
    ∀ g, XsdpLoads firstRsdp.memory 8 firstRsdp g :=
  have hin := firstRsdp.in_memory (by decide)
  ⟨hin, by decide, fun _ => (xsdpLoads_iff hin).mpr (.inr rfl)⟩

end Colibri.Acpi

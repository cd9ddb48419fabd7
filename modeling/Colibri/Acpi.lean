import Mathlib.Tactic.Ring
import Colibri.Memory.Layout

/-!
# The system description tables (`kernel/acpi.c`)

`find_table_in_rsdt` and `find_table_in_xsdt` look for a table by its signature in the list of
physical addresses behind the header of an RSDT or an XSDT. The header has 36 bytes. `struct rsdt`
and `struct xsdt` are not packed: the 8-byte addresses of `struct xsdt` are aligned to 8, so that
`sdt_addresses` is at offset 40, while an XSDT has them right behind its header.

Memory is what the processor can read; other accesses fault, and so does one through `NULL`.

## Results

* `findTableInRsdt_eq`: the lookup in the RSDT finds the first listed table with the signature.
* `lookupsAgree_iff`: so does the one in the XSDT, if and only if the addresses that it makes of the
  upper half of an entry and the lower half of the next lead to the same result.
* `findTable_iff`: `find_table` finds that table if and only if there is no XSDT or the lookups agree.
-/

namespace Colibri.Acpi

open Colibri.Lib Colibri.Memory

/-- The bytes that the processor can read. Nothing is mapped at address 0. -/
structure Readable where
  byte : Nat → Option (BitVec 8)
  null : byte 0 = none

/-- The little-endian value of `n` bytes at `a`; `none` is a fault. -/
def Readable.read (m : Readable) (a : Nat) : Nat → Option Nat
  | 0 => some 0
  | n + 1 => (m.byte a).bind fun b => (m.read (u64Add a 1) n).map fun v => b.toNat + 256 * v

/-- `!memcmp(a, b, size)`, which stops at the first difference. -/
def Readable.same (m : Readable) (a : Nat) : List (BitVec 8) → Option Bool
  | [] => some true
  | c :: cs => (m.byte a).bind fun b => if b = c then m.same (u64Add a 1) cs else some false

/-- `sizeof(struct acpi_sdt_header)`. -/
def sdtHeaderSize : Nat := 36

/-- Where `sdt_addresses` is in `struct rsdt` and in `struct xsdt`: behind the header, aligned to
its elements. -/
def sdtAddressesOffset (width : Nat) : Nat := (sdtHeaderSize + width - 1) / width * width

/-- `header->length`. -/
def sdtLength (m : Readable) (sdt : Nat) : Option Nat := m.read (u64Add sdt 4) 4

/-- `entries`, a `u32`. -/
def sdtEntries (length width : Nat) : Nat := u64Sub length sdtHeaderSize / width % 2 ^ 32

/-- `sdt_addresses[i]`. -/
def sdtAddress (m : Readable) (sdt width i : Nat) : Option Nat :=
  m.read (u64Add sdt (sdtAddressesOffset width + width * i)) width

/-- `is_acpi_table`. -/
def isAcpiTable (m : Readable) (header : Nat) (signature : List (BitVec 8)) : Option Bool :=
  m.same header signature

/-- The loop over the entries, from `i` on; the result 0 is `NULL`. -/
def findLoop (m : Readable) (sdt width : Nat) (signature : List (BitVec 8)) : Nat → Nat → Option Nat
  | 0, _ => some 0
  | n + 1, i =>
    (sdtAddress m sdt width i).bind fun address =>
      (isAcpiTable m (physToVirt address) signature).bind fun found =>
        if found then some (physToVirt address) else findLoop m sdt width signature n (i + 1)

/-- `find_table_in_rsdt` and `find_table_in_xsdt`, over elements of `width` bytes. -/
def findTableIn (m : Readable) (sdt width : Nat) (signature : List (BitVec 8)) : Option Nat :=
  if sdt = 0 then some 0
  else (sdtLength m sdt).bind fun length =>
    findLoop m sdt width signature (sdtEntries length width) 0

/-- `find_table_in_rsdt`. -/
def findTableInRsdt (m : Readable) (rsdt : Nat) (signature : List (BitVec 8)) : Option Nat :=
  findTableIn m rsdt 4 signature

/-- `find_table_in_xsdt`. -/
def findTableInXsdt (m : Readable) (xsdt : Nat) (signature : List (BitVec 8)) : Option Nat :=
  findTableIn m xsdt 8 signature

/-- `find_table`. -/
def findTable (m : Readable) (rsdt xsdt : Nat) (signature : List (BitVec 8)) : Option Nat :=
  if xsdt ≠ 0 then findTableInXsdt m xsdt signature else findTableInRsdt m rsdt signature

/-! ## Well-formed tables -/

/-- An RSDT or XSDT at `sdt` lists these tables: the addresses, of `width` bytes, are packed behind
the header. -/
structure Lists (m : Readable) (sdt width : Nat) (tables : List Nat) : Prop where
  notNull : sdt ≠ 0
  length : sdtLength m sdt = some (sdtHeaderSize + width * tables.length)
  entry : ∀ i, (h : i < tables.length) →
    m.read (u64Add sdt (sdtHeaderSize + width * i)) width = some tables[i]

/-- The table at the physical address `a` has the signature. -/
def HasSignature (m : Readable) (signature : List (BitVec 8)) (a : Nat) : Prop :=
  isAcpiTable m (physToVirt a) signature = some true

instance (m : Readable) (signature : List (BitVec 8)) (a : Nat) :
    Decidable (HasSignature m signature a) := inferInstanceAs (Decidable (_ = _))

/-- The first listed table with the signature, or `NULL`. -/
def firstListed (m : Readable) (signature : List (BitVec 8)) (tables : List Nat) : Nat :=
  match tables.find? fun a => decide (HasSignature m signature a) with
  | none => 0
  | some a => physToVirt a

/-- Both lookups find the first listed table. -/
structure LookupsAgree (m : Readable) (rsdt xsdt : Nat) (tables : List Nat)
    (signature : List (BitVec 8)) : Prop where
  rsdt : findTableInRsdt m rsdt signature = some (firstListed m signature tables)
  xsdt : findTableInXsdt m xsdt signature = some (firstListed m signature tables)

/-- What `find_table_in_xsdt` takes for the addresses: the lower half of an entry becomes the upper
half of the address read before it, and the last address has the four bytes behind the table. -/
def misread (m : Readable) (xsdt : Nat) : List Nat → List (Option Nat)
  | [] => []
  | a :: tables =>
    (tables.map fun b => some (b * 2 ^ 32)) ++
      [(m.read (u64Add xsdt (sdtHeaderSize + 8 * (a :: tables).length)) 4).map (· * 2 ^ 32)]

/-- There is memory at the address that was read, and it has another signature. -/
def Rejected (m : Readable) (signature : List (BitVec 8)) (address : Option Nat) : Prop :=
  ∃ a, address = some a ∧ isAcpiTable m (physToVirt a) signature = some false

/-- The first of the addresses that is not rejected is `a`. -/
def LeadsTo (m : Readable) (signature : List (BitVec 8)) (a : Nat) (addresses : List (Option Nat)) :
    Prop :=
  ∃ l r, addresses = l ++ some a :: r ∧ ∀ b ∈ l, Rejected m signature b

/-! ## Reads -/

section Read

variable {m : Readable} {a n k v i : Nat} {sdt width : Nat} {tables : List Nat}
  {signature : List (BitVec 8)} {addresses : List (Option Nat)}

/-- A read is a read of its first bytes and one of the others. -/
theorem read_add (m : Readable) (ha : a < u64Size) (n k : Nat) :
    m.read a (n + k) =
      (m.read a n).bind fun v => (m.read (u64Add a n) k).map fun w => v + 256 ^ n * w := by
  induction n generalizing a with
  | zero => simp [Readable.read, u64Add_eq (b := 0) ha]
  | succ n ih =>
    rw [Nat.succ_add, Readable.read, Readable.read, ih (u64Add_lt a 1), u64Add_assoc,
      Nat.add_comm 1 n]
    cases m.byte a with
    | none => rfl
    | some b =>
      cases m.read (u64Add a 1) n with
      | none => rfl
      | some v =>
        cases m.read (u64Add a (n + 1)) k with
        | none => rfl
        | some w =>
          simp only [Option.bind_some, Option.map_some, Option.some.injEq]
          rw [pow_succ]
          ring

theorem read_lt (h : m.read a n = some v) : v < 256 ^ n := by
  induction n generalizing a v with
  | zero =>
    obtain rfl := Option.some.inj h
    exact Nat.one_pos
  | succ n ih =>
    rw [Readable.read] at h
    cases hb : m.byte a with
    | none => rw [hb] at h; exact nomatch h
    | some b =>
      rw [hb, Option.bind_some, Option.map_eq_some_iff] at h
      obtain ⟨w, hw, rfl⟩ := h
      have hlt := ih hw
      have hbyte := b.isLt
      rw [pow_succ]
      omega

/-- The halves of a small 8-byte value. -/
theorem read_halves (ha : a < u64Size) (h : m.read a 8 = some v) (hv : v < 2 ^ 32) :
    m.read a 4 = some v ∧ m.read (u64Add a 4) 4 = some 0 := by
  rw [read_add m ha 4 4] at h
  cases hlo : m.read a 4 with
  | none => rw [hlo] at h; exact nomatch h
  | some lo =>
    cases hhi : m.read (u64Add a 4) 4 with
    | none => rw [hlo, hhi] at h; exact nomatch h
    | some hi =>
      rw [hlo, hhi] at h
      have hsum : lo + 256 ^ 4 * hi = v := Option.some.inj h
      have hzero : hi = 0 := by omega
      subst hzero
      rw [Nat.mul_zero, Nat.add_zero] at hsum
      rw [hsum]
      exact ⟨rfl, rfl⟩

/-- What can be read can be compared. -/
theorem same_isSome (h : (m.read a signature.length).isSome) : ∃ b, m.same a signature = some b := by
  induction signature generalizing a with
  | nil => exact ⟨true, rfl⟩
  | cons c cs ih =>
    rw [List.length_cons, Readable.read] at h
    rw [Readable.same]
    cases hb : m.byte a with
    | none => rw [hb] at h; exact nomatch h
    | some b =>
      rw [hb, Option.bind_some, Option.isSome_map] at h
      rw [Option.bind_some]
      split
      case isTrue => exact ih h
      case isFalse => exact ⟨false, rfl⟩

/-- Nothing is found through `NULL`. -/
theorem same_null (h : signature ≠ []) : m.same 0 signature = none := by
  cases signature with
  | nil => exact absurd rfl h
  | cons c cs => rw [Readable.same, m.null, Option.bind_none]

/-! ## The loop over a list of addresses -/

/-- The loop, on the addresses that it reads. -/
def search (m : Readable) (signature : List (BitVec 8)) : List (Option Nat) → Option Nat
  | [] => some 0
  | address :: rest => address.bind fun a =>
    (isAcpiTable m (physToVirt a) signature).bind fun found =>
      if found then some (physToVirt a) else search m signature rest

theorem findLoop_eq (h : ∀ j, (hj : j < addresses.length) →
    sdtAddress m sdt width (i + j) = addresses[j]) :
    findLoop m sdt width signature addresses.length i = search m signature addresses := by
  induction addresses generalizing i with
  | nil => rfl
  | cons address rest ih =>
    have hhead := h 0 (Nat.succ_pos _)
    rw [Nat.add_zero, List.getElem_cons_zero] at hhead
    have htail := ih (i := i + 1) fun j hj => by
      have hj' := h (j + 1) (Nat.succ_lt_succ hj)
      rwa [List.getElem_cons_succ, Nat.add_comm j 1, ← Nat.add_assoc] at hj'
    rw [List.length_cons, findLoop, search, hhead, htail]

/-- The lookup in a table that lists as many tables as there are addresses read. -/
theorem findTableIn_eq (hl : Lists m sdt width tables) (hw : 0 < width)
    (hlen : addresses.length = tables.length)
    (h : ∀ j, (hj : j < addresses.length) → sdtAddress m sdt width j = addresses[j]) :
    findTableIn m sdt width signature = search m signature addresses := by
  have hlt := read_lt hl.length
  have hmul : tables.length ≤ width * tables.length := Nat.le_mul_of_pos_left _ hw
  have hentries : sdtEntries (sdtHeaderSize + width * tables.length) width = tables.length := by
    have hsize := u64Size_eq
    rw [sdtEntries, u64Sub_eq (Nat.le_add_right _ _) (by omega), Nat.add_sub_cancel_left,
      Nat.mul_div_cancel_left _ hw, Nat.mod_eq_of_lt (by omega)]
  rw [findTableIn, if_neg hl.notNull, hl.length, Option.bind_some, hentries, ← hlen]
  exact findLoop_eq fun j hj => by rw [Nat.zero_add]; exact h j hj

/-- `NULL` is found where every address is rejected. -/
theorem search_eq_null (hs : signature ≠ []) :
    search m signature addresses = some 0 ↔ ∀ b ∈ addresses, Rejected m signature b := by
  induction addresses with
  | nil => simp [search]
  | cons address rest ih =>
    rw [List.forall_mem_cons, ← ih, search]
    cases address with
    | none => simp [Rejected]
    | some a =>
      rw [Option.bind_some]
      cases hsame : isAcpiTable m (physToVirt a) signature with
      | none => simp [Rejected, hsame]
      | some found =>
        cases found with
        | false => simp [Rejected, hsame]
        | true =>
          have hne : physToVirt a ≠ 0 := fun h0 => by
            rw [isAcpiTable, h0, same_null hs] at hsame
            exact nomatch hsame
          simp [Rejected, hsame, hne]

/-- The table that is found is the first that is not rejected. -/
theorem search_eq_some (hv : v ≠ 0) :
    search m signature addresses = some v ↔
      ∃ a, physToVirt a = v ∧ HasSignature m signature a ∧ LeadsTo m signature a addresses := by
  induction addresses with
  | nil => simp [search, LeadsTo, hv.symm]
  | cons address rest ih =>
    rw [search]
    constructor
    · intro h
      cases address with
      | none => exact nomatch h
      | some a =>
        rw [Option.bind_some] at h
        cases hsame : isAcpiTable m (physToVirt a) signature with
        | none => rw [hsame] at h; exact nomatch h
        | some found =>
          rw [hsame, Option.bind_some] at h
          cases found with
          | true => exact ⟨a, Option.some.inj h, hsame, [], rest, rfl, by simp⟩
          | false =>
            obtain ⟨b, hb, hhas, l, r, rfl, hl⟩ := ih.mp h
            exact ⟨b, hb, hhas, some a :: l, r, rfl, List.forall_mem_cons.mpr ⟨⟨a, rfl, hsame⟩, hl⟩⟩
    · rintro ⟨b, hb, hhas, l, r, he, hl⟩
      cases l with
      | nil =>
        obtain ⟨rfl, rfl⟩ := List.cons.inj he
        have hsame : isAcpiTable m (physToVirt b) signature = some true := hhas
        rw [Option.bind_some, hsame, Option.bind_some, if_pos rfl, hb]
      | cons c l =>
        obtain ⟨rfl, rfl⟩ := List.cons.inj he
        obtain ⟨⟨a, rfl, hsame⟩, hrest⟩ := List.forall_mem_cons.mp hl
        rw [Option.bind_some, hsame, Option.bind_some, if_neg (by decide)]
        exact ih.mpr ⟨b, hb, hhas, l, r, rfl, hrest⟩

/-! ## The RSDT -/

/-- The first listed table is what the search of the list finds. -/
theorem search_tables
    (ht : ∀ a ∈ tables, (m.read (physToVirt a) signature.length).isSome) :
    search m signature (tables.map some) = some (firstListed m signature tables) := by
  induction tables with
  | nil => rfl
  | cons a tables ih =>
    obtain ⟨ha, hrest⟩ := List.forall_mem_cons.mp ht
    rw [List.map_cons, search, Option.bind_some]
    obtain ⟨found, hsame⟩ := same_isSome ha
    have hsame' : isAcpiTable m (physToVirt a) signature = some found := hsame
    rw [hsame', Option.bind_some]
    cases found with
    | true =>
      have hhas : HasSignature m signature a := hsame
      rw [if_pos rfl, firstListed, List.find?_cons_of_pos (by simpa using hhas)]
    | false =>
      have hhas : ¬HasSignature m signature a := by
        rw [HasSignature, hsame']
        decide
      rw [if_neg (by decide), ih hrest, firstListed, firstListed,
        List.find?_cons_of_neg (by simpa using hhas)]

/-- **The lookup in a well-formed RSDT** finds the first listed table. -/
theorem findTableInRsdt_eq (hl : Lists m sdt 4 tables)
    (ht : ∀ a ∈ tables, (m.read (physToVirt a) signature.length).isSome) :
    findTableInRsdt m sdt signature = some (firstListed m signature tables) := by
  rw [← search_tables ht]
  refine findTableIn_eq hl (by decide) (List.length_map some) fun j hj => ?_
  rw [List.length_map] at hj
  rw [List.getElem_map]
  exact hl.entry j hj

/-! ## The XSDT -/

theorem length_misread : (misread m sdt tables).length = tables.length := by
  cases tables with
  | nil => rfl
  | cons a tables => simp [misread]

/-- The addresses that the lookup in a well-formed XSDT reads. -/
theorem sdtAddress_eq_misread (hl : Lists m sdt 8 tables) (hsmall : ∀ a ∈ tables, a < 2 ^ 32)
    {j : Nat} (hj : j < (misread m sdt tables).length) :
    sdtAddress m sdt 8 j = (misread m sdt tables)[j] := by
  have hj' : j < tables.length := by rwa [length_misread] at hj
  have haddr : ∀ i, u64Add sdt (sdtHeaderSize + 8 * i) < u64Size := fun i => u64Add_lt _ _
  have hupper := (read_halves (haddr j) (hl.entry j hj') (hsmall _ (List.getElem_mem hj'))).2
  rw [u64Add_assoc] at hupper
  -- the address is read from the second half of its entry on
  have hstart : sdtAddress m sdt 8 j =
      (m.read (u64Add sdt (sdtHeaderSize + 8 * (j + 1))) 4).map (· * 2 ^ 32) := by
    have hoff : sdtAddressesOffset 8 + 8 * j = sdtHeaderSize + 8 * j + 4 := by
      rw [sdtAddressesOffset, sdtHeaderSize]
      omega
    have hnext : u64Add (u64Add sdt (sdtHeaderSize + 8 * j + 4)) 4 =
        u64Add sdt (sdtHeaderSize + 8 * (j + 1)) := by
      rw [u64Add_assoc]
      congr 1
    rw [sdtAddress, hoff, read_add m (u64Add_lt _ _) 4 4, hupper, Option.bind_some, hnext]
    cases m.read (u64Add sdt (sdtHeaderSize + 8 * (j + 1))) 4 with
    | none => rfl
    | some w => simp [Nat.mul_comm]
  rw [hstart]
  cases tables with
  | nil => exact absurd hj' (Nat.not_lt_zero _)
  | cons a tables =>
    rcases Nat.lt_or_ge j tables.length with hlt | hge
    · have hlower := (read_halves (haddr (j + 1)) (hl.entry (j + 1) (Nat.succ_lt_succ hlt))
        (hsmall _ (List.getElem_mem _))).1
      rw [hlower]
      simp [misread, List.getElem_append_left, hlt]
    · have hlast : j = tables.length := by
        rw [List.length_cons] at hj'
        omega
      subst hlast
      simp [misread]

/-- Every address that is read has its lower half clear, and is one of 64 bits. -/
theorem misread_spec {b : Nat} (hsmall : ∀ a ∈ tables, a < 2 ^ 32)
    (hb : some b ∈ misread m sdt tables) : b % 2 ^ 32 = 0 ∧ b < u64Size := by
  have hsize := u64Size_eq
  cases tables with
  | nil => exact nomatch hb
  | cons a tables =>
    rw [misread, List.mem_append, List.mem_map, List.mem_singleton] at hb
    rcases hb with ⟨c, hc, he⟩ | he
    · have hlt := hsmall c (List.mem_cons_of_mem _ hc)
      obtain rfl := Option.some.inj he
      omega
    · obtain ⟨w, hw, rfl⟩ := Option.map_eq_some_iff.mp he.symm
      have hlt := read_lt hw
      omega

theorem eq_of_physToVirt_eq {a b : Nat} (ha : a < u64Size) (hb : b < u64Size)
    (h : physToVirt a = physToVirt b) : a = b := by
  have hsize := u64Size_eq
  simp only [physToVirt, u64Add, hsize] at h
  omega

theorem physToVirt_ne_zero {a : Nat} (ha : a < 2 ^ 32) : physToVirt a ≠ 0 := by
  have hsize := u64Size_eq
  rw [physToVirt, physicalOffset, u64Add_eq (by omega)]
  omega

/-- **The lookups agree** on well-formed tables if and only if no listed table has the signature and
the lookup in the XSDT rejects every address that it reads; or the first listed table with the
signature is at physical address 0, and this is the first address that the lookup does not
reject. -/
theorem lookupsAgree_iff {rsdt xsdt : Nat} (hr : Lists m rsdt 4 tables) (hx : Lists m xsdt 8 tables)
    (hs : signature.length = 4) (ht : ∀ a ∈ tables, (m.read (physToVirt a) 4).isSome) :
    LookupsAgree m rsdt xsdt tables signature ↔
      (∀ a ∈ tables, ¬HasSignature m signature a) ∧
          (∀ b ∈ misread m xsdt tables, Rejected m signature b) ∨
        (tables.find? fun a => decide (HasSignature m signature a)) = some 0 ∧
          LeadsTo m signature 0 (misread m xsdt tables) := by
  have hne : signature ≠ [] := List.ne_nil_of_length_pos (by omega)
  rw [← hs] at ht
  have hsmall : ∀ a ∈ tables, a < 2 ^ 32 := fun a ha => by
    obtain ⟨i, hi, rfl⟩ := List.mem_iff_getElem.mp ha
    exact read_lt (hr.entry i hi)
  have hrsdt := findTableInRsdt_eq hr ht
  have hxsdt : findTableInXsdt m xsdt signature = search m signature (misread m xsdt tables) :=
    findTableIn_eq hx (by decide) length_misread fun j hj => sdtAddress_eq_misread hx hsmall hj
  have hiff : LookupsAgree m rsdt xsdt tables signature ↔
      search m signature (misread m xsdt tables) = some (firstListed m signature tables) :=
    ⟨fun h => hxsdt.symm.trans h.xsdt, fun h => ⟨hrsdt, hxsdt.trans h⟩⟩
  rw [hiff]
  cases hfind : tables.find? fun a => decide (HasSignature m signature a) with
  | none =>
    have hnone : ∀ a ∈ tables, ¬HasSignature m signature a := by simpa using hfind
    have hfirst : firstListed m signature tables = 0 := by rw [firstListed, hfind]
    rw [hfirst, search_eq_null hne]
    exact ⟨fun h => .inl ⟨hnone, h⟩, fun h => h.elim And.right fun h => nomatch h.1⟩
  | some a =>
    have ha := hsmall a (List.mem_of_find?_eq_some hfind)
    have hhas : HasSignature m signature a := by simpa using List.find?_some hfind
    have hfirst : firstListed m signature tables = physToVirt a := by rw [firstListed, hfind]
    rw [hfirst, search_eq_some (physToVirt_ne_zero ha)]
    constructor
    · rintro ⟨b, hb, -, hleads⟩
      -- both are addresses of tables, but one has its lower half clear
      have hmem : some b ∈ misread m xsdt tables := by
        obtain ⟨l, r, he, -⟩ := hleads
        rw [he]
        exact List.mem_append_right l List.mem_cons_self
      obtain ⟨hmod, hlt⟩ := misread_spec hsmall hmem
      have hsize := u64Size_eq
      obtain rfl : b = a := eq_of_physToVirt_eq hlt (by omega) hb
      obtain rfl : b = 0 := by omega
      exact .inr ⟨rfl, hleads⟩
    · rintro (⟨hnone, -⟩ | ⟨hzero, hleads⟩)
      · exact absurd hhas (hnone a (List.mem_of_find?_eq_some hfind))
      · obtain rfl := Option.some.inj hzero
        exact ⟨_, rfl, hhas, hleads⟩

/-! ## `find_table` -/

/-- **`find_table`** looks into the RSDT only where there is no XSDT: it finds the first listed table if
and only if there is none, or the lookups agree. -/
theorem findTable_iff {rsdt xsdt : Nat} (hr : Lists m rsdt 4 tables)
    (ht : ∀ a ∈ tables, (m.read (physToVirt a) signature.length).isSome) :
    findTable m rsdt xsdt signature = some (firstListed m signature tables) ↔
      xsdt = 0 ∨ LookupsAgree m rsdt xsdt tables signature := by
  have hrsdt := findTableInRsdt_eq hr ht
  by_cases hx : xsdt = 0
  · rw [findTable, if_neg (not_not.mpr hx)]
    exact iff_of_true hrsdt (.inl hx)
  · rw [findTable, if_pos hx]
    exact ⟨fun h => .inr ⟨hrsdt, h⟩, fun h => (h.resolve_left hx).xsdt⟩

end Read

/-! ## One table -/

/-- An HPET table at the physical address 0x2000, an RSDT at 0x100 and an XSDT at 0x200 that list
it, and zeros. -/
def oneTable : Readable where
  byte a :=
    if a < physicalOffset then none
    else some (match a - physicalOffset with
      | 0x104 => 40
      | 0x125 => 0x20
      | 0x204 => 44
      | 0x225 => 0x20
      | 0x2000 => 0x48
      | 0x2001 => 0x50
      | 0x2002 => 0x45
      | 0x2003 => 0x54
      | _ => 0)
  null := by decide

theorem lists_oneTable :
    Lists oneTable (physToVirt 0x100) 4 [0x2000] ∧ Lists oneTable (physToVirt 0x200) 8 [0x2000] := by
  have hr : oneTable.read (u64Add (physToVirt 0x100) (sdtHeaderSize + 4 * 0)) 4 = some 0x2000 := by
    decide
  have hx : oneTable.read (u64Add (physToVirt 0x200) (sdtHeaderSize + 8 * 0)) 8 = some 0x2000 := by
    decide
  refine ⟨⟨by decide, by decide, fun i hi => ?_⟩, ⟨by decide, by decide, fun i hi => ?_⟩⟩
  · obtain rfl : i = 0 := Nat.lt_one_iff.mp hi
    exact hr
  · obtain rfl : i = 0 := Nat.lt_one_iff.mp hi
    exact hx

/-- No table has the signature `APIC`. -/
theorem lookupsAgree_oneTable :
    LookupsAgree oneTable (physToVirt 0x100) (physToVirt 0x200) [0x2000] [0x41, 0x50, 0x49, 0x43] :=
  (lookupsAgree_iff lists_oneTable.1 lists_oneTable.2 rfl (by decide)).mpr
    (.inl ⟨by decide, fun b hb => ⟨0, List.mem_singleton.mp hb, by decide⟩⟩)

/-- The HPET table is found in the RSDT only. -/
theorem lookups_differ : ¬∀ m rsdt xsdt tables signature, Lists m rsdt 4 tables →
    Lists m xsdt 8 tables → signature.length = 4 →
    (∀ a ∈ tables, (m.read (physToVirt a) 4).isSome) →
    LookupsAgree m rsdt xsdt tables signature := by
  intro h
  have hagree := h oneTable (physToVirt 0x100) (physToVirt 0x200) [0x2000]
    [0x48, 0x50, 0x45, 0x54] lists_oneTable.1 lists_oneTable.2 rfl (by decide)
  exact absurd (hagree.rsdt.trans hagree.xsdt.symm) (by decide)

end Colibri.Acpi

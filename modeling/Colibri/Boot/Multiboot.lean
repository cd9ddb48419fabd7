import Colibri.Lib.Mem
import Colibri.Lib.U64

/-!
# The tags of the boot loader (`kernel/multiboot.c`)

`load_multiboot_info` goes over the tags behind the first eight bytes of the block at `addr` and
gives the caller the addresses of those that it asked for. The request is `boot_info`: for every kind
of tag a pointer to a variable of the caller, or `NULL`, and an array for the modules. All of it is in
one memory, the block, `boot_info`, the variables, and `headerVar`, where the function has its local
`header`.

The loop gets a bound on its turns (`fuel`). With its state it returns the headers that it has looked
at; they are what its results are about. The log message is left out.

## Results

* `Kept.loadTag`: a turn writes the variables of the request only, and the `vbe` field.
* `tagLoop_eq`: over a well-formed sequence the loop ends, and each tag has its turn.
* `tagLoop_inside`: a loop that stays in its block has gone over such a sequence.
-/

namespace Colibri.Boot

open Colibri.Lib

/-- `MULTIBOOT_BOOTLOADER_MAGIC`. -/
def multibootBootloaderMagic : Nat := 0x36d76289

/-- `MULTIBOOT_HEADER_TAG_END`. -/
def tagEnd : Nat := 0

/-- `MULTIBOOT_TAG_TYPE_MODULES`. -/
def tagModules : Nat := 3

/-- `sizeof(struct multiboot_tag_header)`. -/
def tagHeaderSize : Nat := 8

/-- `sizeof(struct multiboot_boot_information)`. -/
def bootInfoSize : Nat := 168

/-- The fields of `boot_info` that point to a variable. -/
inductive Slot
  | basicMeminfo | biosBootDevice | memoryMap | vbe | framebuffer | elfSymbols | apm | efi32 | efi64
  | smbios | acpiOld | acpiNew | network | efiMmap | efi32Handle | efi64Handle | loadBaseAddr
  deriving DecidableEq

/-- The type of the tags that a field is for. -/
def Slot.type : Slot → Nat
  | .basicMeminfo => 4 | .biosBootDevice => 5 | .memoryMap => 6 | .vbe => 7 | .framebuffer => 8
  | .elfSymbols => 9 | .apm => 10 | .efi32 => 11 | .efi64 => 12 | .smbios => 13 | .acpiOld => 14
  | .acpiNew => 15 | .network => 16 | .efiMmap => 17 | .efi32Handle => 19 | .efi64Handle => 20
  | .loadBaseAddr => 21

/-- Where the field is in `struct multiboot_boot_information`. -/
def Slot.offset : Slot → Nat
  | .basicMeminfo => 32 | .biosBootDevice => 40 | .memoryMap => 48 | .vbe => 56 | .framebuffer => 64
  | .elfSymbols => 72 | .apm => 80 | .efi32 => 88 | .efi64 => 96 | .smbios => 104 | .acpiOld => 112
  | .acpiNew => 120 | .network => 128 | .efiMmap => 136 | .efi32Handle => 144 | .efi64Handle => 152
  | .loadBaseAddr => 160

/-- The `case` of a type. -/
def slotOf : Nat → Option Slot
  | 4 => some .basicMeminfo | 5 => some .biosBootDevice | 6 => some .memoryMap | 7 => some .vbe
  | 8 => some .framebuffer | 9 => some .elfSymbols | 10 => some .apm | 11 => some .efi32
  | 12 => some .efi64 | 13 => some .smbios | 14 => some .acpiOld | 15 => some .acpiNew
  | 16 => some .network | 17 => some .efiMmap | 19 => some .efi32Handle | 20 => some .efi64Handle
  | 21 => some .loadBaseAddr | _ => none

/-- `header->type`. -/
def tagType (m : Mem) (header : Nat) : Nat := m.load header 4

/-- `header->size`. -/
def tagSize (m : Mem) (header : Nat) : Nat := m.load (header + 4) 4

/-- `(header->size + 7) & ~7`, a `u32`. -/
def roundUp (size : Nat) : Nat := (size + 7) % 2 ^ 32 / 8 * 8

/-- The next header. -/
def nextTag (m : Mem) (header : Nat) : Nat := u64Add header (roundUp (tagSize m header))

/-- `boot_info->module`. -/
def modulePtr (m : Mem) (info : Nat) : Nat := m.load (info + 16) 8

/-- `boot_info->module_size`. -/
def moduleSize (m : Mem) (info : Nat) : Nat := m.load (info + 24) 8

/-- A field that points to a variable. -/
def slotPtr (m : Mem) (info : Nat) (slot : Slot) : Nat := m.load (info + slot.offset) 8

/-- The memory and `module_index`. -/
structure Loading where
  mem : Mem
  moduleIndex : Nat

section Load

variable (info headerVar header : Nat)

/-- The case of the modules. -/
def loadModule (s : Loading) : Loading :=
  if modulePtr s.mem info ≠ 0 ∧ s.moduleIndex < moduleSize s.mem info then
    { mem := s.mem.store (u64Add (modulePtr s.mem info) (8 * s.moduleIndex)) 8 header
      moduleIndex := (s.moduleIndex + 1) % 2 ^ 32 }
  else s

/-- The case of another tag that is stored. -/
def loadSlot (slot : Slot) (s : Loading) : Loading :=
  if slotPtr s.mem info slot = 0 then s
  -- `boot_info->vbe = &header` in place of `*boot_info->vbe = header`
  else if slot = .vbe then { s with mem := s.mem.store (info + slot.offset) 8 headerVar }
  else { s with mem := s.mem.store (slotPtr s.mem info slot) 8 header }

/-- The `switch`. -/
def loadTag (s : Loading) : Loading :=
  if tagType s.mem header = tagModules then loadModule info header s
  else (slotOf (tagType s.mem header)).elim s fun slot => loadSlot info headerVar header slot s

end Load

/-- The loop over the tags: its state, and the headers that it has looked at. -/
def tagLoop (info headerVar : Nat) : Nat → Nat → Loading → Option (Loading × List Nat)
  | 0, _, _ => none
  | fuel + 1, header, s =>
    if tagType s.mem header = tagEnd then some (s, [header])
    else
      let s := loadTag info headerVar header s
      (tagLoop info headerVar fuel (nextTag s.mem header) s).map fun r => (r.1, header :: r.2)

/-- `load_multiboot_info`; another magic number is its panic. -/
def loadMultibootInfo (magic addr info headerVar fuel : Nat) (m : Mem) : Option (Mem × List Nat) :=
  if magic ≠ multibootBootloaderMagic then none
  else (tagLoop info headerVar fuel (u64Add addr 8) ⟨m, 0⟩).map fun r =>
    (r.1.mem.store (info + 24) 8 r.1.moduleIndex, r.2)

/-! ## Blocks and requests -/

/-- A tag, which is not the end of a block and takes up memory. -/
structure Tag where
  type : Nat
  size : Nat
  notEnd : type ≠ tagEnd
  pos : 0 < size

/-- What a tag takes up. -/
def Tag.length (t : Tag) : Nat := (t.size + 7) / 8 * 8

/-- From `a` on these tags follow each other, each at a multiple of 8 bytes behind the first, and
then an end tag. Every header is in front of `stop`. -/
def TagsIn (m : Mem) (stop : Nat) : Nat → List Tag → Prop
  | a, [] => a + tagHeaderSize ≤ stop ∧ tagType m a = tagEnd
  | a, t :: tags => a + tagHeaderSize ≤ stop ∧ tagType m a = t.type ∧ tagSize m a = t.size ∧
    TagsIn m stop (a + t.length) tags

instance TagsIn.decidable (m : Mem) (stop : Nat) : ∀ a tags, Decidable (TagsIn m stop a tags)
  | a, [] => inferInstanceAs (Decidable (a + tagHeaderSize ≤ stop ∧ tagType m a = tagEnd))
  | a, t :: tags =>
    have := TagsIn.decidable m stop (a + t.length) tags
    inferInstanceAs (Decidable (a + tagHeaderSize ≤ stop ∧ tagType m a = t.type ∧
      tagSize m a = t.size ∧ TagsIn m stop (a + t.length) tags))

/-- The tags with their addresses. -/
def placed : Nat → List Tag → List (Nat × Tag)
  | _, [] => []
  | a, t :: tags => (a, t) :: placed (a + t.length) tags

/-- The block of `n` bytes at `addr` does not wrap, and its size is a `u32`. -/
structure Block (addr n : Nat) : Prop where
  size_lt : n < 2 ^ 32
  stop_le : addr + n ≤ u64Size

/-- The request at `info`: its variables and its array are apart from each other, from the request
and from the block, and the local `header` is no variable of the caller. -/
structure Request (m : Mem) (addr n info headerVar : Nat) : Prop where
  apart : Mem.Disjoint info bootInfoSize addr n
  slot : ∀ σ, slotPtr m info σ ≠ 0 → Mem.Disjoint (slotPtr m info σ) 8 addr n ∧
    Mem.Disjoint (slotPtr m info σ) 8 info bootInfoSize
  slots : ∀ σ τ, σ ≠ τ → slotPtr m info σ ≠ 0 → slotPtr m info τ ≠ 0 →
    Mem.Disjoint (slotPtr m info σ) 8 (slotPtr m info τ) 8
  module : modulePtr m info ≠ 0 → modulePtr m info + 8 * moduleSize m info ≤ u64Size ∧
    Mem.Disjoint (modulePtr m info) (8 * moduleSize m info) addr n ∧
    Mem.Disjoint (modulePtr m info) (8 * moduleSize m info) info bootInfoSize ∧
    ∀ σ, slotPtr m info σ ≠ 0 →
      Mem.Disjoint (modulePtr m info) (8 * moduleSize m info) (slotPtr m info σ) 8
  header : 0 < headerVar ∧ headerVar < u64Size ∧ headerVar ≠ slotPtr m info .vbe

/-- The bytes that the loop may write: those of the `vbe` field, of the array and of the variables. -/
def Written (m : Mem) (info i : Nat) : Prop :=
  (info + 56 ≤ i ∧ i < info + 64) ∨
    (modulePtr m info ≠ 0 ∧ modulePtr m info ≤ i ∧ i < modulePtr m info + 8 * moduleSize m info) ∨
    ∃ σ, slotPtr m info σ ≠ 0 ∧ slotPtr m info σ ≤ i ∧ i < slotPtr m info σ + 8

/-- Nothing else is changed. -/
def Kept (m : Mem) (info : Nat) (s : Loading) : Prop := ∀ i, ¬Written m info i → s.mem i = m i

/-! ## The fields -/

section Slots

variable {σ τ : Slot} {ty size : Nat}

theorem slotOf_eq_some : slotOf ty = some σ ↔ ty = σ.type := by
  constructor
  · intro h
    unfold slotOf at h
    split at h <;> first | (cases h; rfl) | cases h
  · rintro rfl
    cases σ <;> rfl

theorem Slot.offset_bounds (σ : Slot) : 32 ≤ σ.offset ∧ σ.offset + 8 ≤ bootInfoSize := by
  cases σ <;> decide

/-- The fields are in the order of the types, without one for 18. -/
theorem Slot.offset_eq (σ : Slot) : (σ.type ≤ 17 ∧ σ.offset = 8 * σ.type) ∨
    (19 ≤ σ.type ∧ σ.offset + 8 = 8 * σ.type) := by
  cases σ <;> decide

theorem Slot.type_inj (h : σ.type = τ.type) : σ = τ :=
  Option.some.inj ((slotOf_eq_some.mpr rfl).symm.trans (slotOf_eq_some.mpr h))

theorem Slot.offset_apart (h : σ ≠ τ) : Mem.Disjoint σ.offset 8 τ.offset 8 := by
  have hne : σ.type ≠ τ.type := fun he => h (Slot.type_inj he)
  have hσ := σ.offset_eq
  have hτ := τ.offset_eq
  rw [Mem.Disjoint]
  omega

theorem Slot.type_ne (σ : Slot) : σ.type ≠ tagModules := by
  cases σ <;> decide

/-- The step of the loop is what a tag takes up, if it is not too large. -/
theorem roundUp_eq (h : size + 7 < 2 ^ 32) : roundUp size = (size + 7) / 8 * 8 := by
  rw [roundUp, Nat.mod_eq_of_lt h]

/-- The step over a tag of size 0, or of a size that wraps, is none. -/
theorem roundUp_eq_zero (hlt : size < 2 ^ 32) (h : size = 0 ∨ 2 ^ 32 ≤ size + 7) :
    roundUp size = 0 := by
  rw [roundUp]
  omega

end Slots

/-! ## What a turn leaves alone -/

section Kept

variable {m : Mem} {addr n info headerVar header : Nat} {s : Loading} {σ : Slot}

/-- The request, but for `vbe`, and the block are not written. -/
theorem Request.notWritten (hr : Request m addr n info headerVar) {i : Nat}
    (h : (info ≤ i ∧ i < info + bootInfoSize ∧ (i < info + 56 ∨ info + 64 ≤ i)) ∨
      (addr ≤ i ∧ i < addr + n)) : ¬Written m info i := by
  have hinfo := hr.apart
  rw [bootInfoSize] at h
  rw [Mem.Disjoint, bootInfoSize] at hinfo
  rintro (hvbe | ⟨hmod, hin⟩ | ⟨σ, hσ, hin⟩)
  · omega
  · obtain ⟨-, hblock, hreq, -⟩ := hr.module hmod
    rw [Mem.Disjoint] at hblock hreq
    rw [bootInfoSize] at hreq
    omega
  · obtain ⟨hblock, hreq⟩ := hr.slot σ hσ
    rw [Mem.Disjoint] at hblock hreq
    rw [bootInfoSize] at hreq
    omega

theorem Kept.load (hk : Kept m info s) {a k : Nat} (h : ∀ i, a ≤ i → i < a + k → ¬Written m info i) :
    s.mem.load a k = m.load a k := Mem.load_congr fun i hi hi' => hk i (h i hi hi')

theorem Kept.modulePtr (hr : Request m addr n info headerVar) (hk : Kept m info s) :
    modulePtr s.mem info = modulePtr m info :=
  hk.load fun i hi hi' => hr.notWritten (.inl ⟨by omega, by rw [bootInfoSize]; omega, by omega⟩)

theorem Kept.moduleSize (hr : Request m addr n info headerVar) (hk : Kept m info s) :
    moduleSize s.mem info = moduleSize m info :=
  hk.load fun i hi hi' => hr.notWritten (.inl ⟨by omega, by rw [bootInfoSize]; omega, by omega⟩)

theorem Kept.slotPtr (hr : Request m addr n info headerVar) (hk : Kept m info s) (hσ : σ ≠ .vbe) :
    slotPtr s.mem info σ = slotPtr m info σ := by
  have hb := σ.offset_bounds
  have hap : Mem.Disjoint σ.offset 8 Slot.vbe.offset 8 := Slot.offset_apart hσ
  have hvbe : Slot.vbe.offset = 56 := rfl
  rw [Mem.Disjoint, hvbe] at hap
  exact hk.load fun i hi hi' => hr.notWritten (.inl ⟨by omega, by omega, by omega⟩)

/-- A header in the block is what it was. -/
theorem Kept.tag (hr : Request m addr n info headerVar) (hk : Kept m info s)
    (h : addr ≤ header ∧ header + tagHeaderSize ≤ addr + n) :
    tagType s.mem header = tagType m header ∧ tagSize s.mem header = tagSize m header := by
  rw [tagHeaderSize] at h
  exact ⟨hk.load fun i hi hi' => hr.notWritten (.inr ⟨by omega, by omega⟩),
    hk.load fun i hi hi' => hr.notWritten (.inr ⟨by omega, by omega⟩)⟩

/-- A write to what may be written. -/
theorem Kept.store {a k v index : Nat} (hk : Kept m info s)
    (h : ∀ i, a ≤ i → i < a + k → Written m info i) : Kept m info ⟨s.mem.store a k v, index⟩ := by
  intro i hi
  have hout : i < a ∨ a + k ≤ i := by
    by_contra hin
    exact hi (h i (by omega) (by omega))
  exact (Mem.store_of_notMem hout).trans (hk i hi)

/-- **A turn** writes variables of the request only. -/
theorem Kept.loadTag (hr : Request m addr n info headerVar) (hk : Kept m info s) :
    Kept m info (loadTag info headerVar header s) := by
  rw [Boot.loadTag]
  split
  case isTrue =>
    rw [loadModule, hk.modulePtr hr, hk.moduleSize hr]
    split
    case isTrue h =>
      obtain ⟨hroom, -⟩ := hr.module h.1
      rw [u64Add_eq (by omega)]
      exact hk.store fun i hi hi' => .inr (.inl ⟨h.1, by omega, by omega⟩)
    case isFalse => exact hk
  case isFalse =>
    cases hslot : slotOf (tagType s.mem header) with
    | none => exact hk
    | some σ =>
      rw [Option.elim_some, loadSlot]
      split
      case isTrue => exact hk
      case isFalse hptr =>
        split
        case isTrue hvbe =>
          subst hvbe
          exact hk.store fun i hi hi' => .inl ⟨hi, hi'⟩
        case isFalse hvbe =>
          rw [hk.slotPtr hr hvbe] at hptr ⊢
          exact hk.store fun i hi hi' => .inr (.inr ⟨σ, hptr, hi, hi'⟩)

end Kept

/-! ## The loop -/

section Loop

variable {m : Mem} {addr n info headerVar a fuel : Nat} {s : Loading} {tags : List Tag}

theorem TagsIn.header_le (h : TagsIn m (addr + n) a tags) : a + tagHeaderSize ≤ addr + n := by
  cases tags with
  | nil => exact h.1
  | cons t tags => exact h.1

theorem tagSize_lt (m : Mem) (header : Nat) : tagSize m header < 2 ^ 32 := Mem.load_lt m _ 4

/-- The step over a tag of a sequence. -/
theorem nextTag_eq {t : Tag} (hb : Block addr n) (hk : tagSize s.mem a = t.size)
    (hnext : a + t.length + tagHeaderSize ≤ addr + n) (ha : addr ≤ a) :
    nextTag s.mem a = a + t.length := by
  have hsize := hb.size_lt
  have hstop := hb.stop_le
  rw [Tag.length, tagHeaderSize] at hnext
  rw [nextTag, hk, roundUp_eq (by omega), Tag.length, u64Add_eq (by omega)]

/-- **The loop over a well-formed sequence** gives every tag its turn and ends. -/
theorem tagLoop_eq (hb : Block addr n) (hr : Request m addr n info headerVar) (hk : Kept m info s)
    (ht : TagsIn m (addr + n) a tags) (ha : addr ≤ a) :
    tagLoop info headerVar fuel a s =
      if fuel ≤ tags.length then none
      else some ((placed a tags).foldl (fun s p => loadTag info headerVar p.1 s) s,
        (placed a tags).map Prod.fst ++ [a + (tags.map Tag.length).sum]) := by
  induction tags generalizing a s fuel with
  | nil =>
    cases fuel with
    | zero => rfl
    | succ fuel =>
      rw [tagLoop, (hk.tag hr ⟨ha, ht.1⟩).1, if_pos ht.2, if_neg (by simp)]
      rfl
  | cons t tags ih =>
    obtain ⟨hin, htype, hsize, hrest⟩ := ht
    cases fuel with
    | zero => rfl
    | succ fuel =>
      have hk' : Kept m info (loadTag info headerVar a s) := hk.loadTag hr
      have hnext : nextTag (loadTag info headerVar a s).mem a = a + t.length :=
        nextTag_eq hb ((hk'.tag hr ⟨ha, hin⟩).2.trans hsize) hrest.header_le ha
      have hne : tagType s.mem a ≠ tagEnd := by
        rw [(hk.tag hr ⟨ha, hin⟩).1, htype]
        exact t.notEnd
      rw [tagLoop, if_neg hne]
      simp only [hnext]
      rw [ih hk' hrest (by omega), List.length_cons, placed, List.foldl_cons]
      simp only [List.map_cons, List.sum_cons, ← Nat.add_assoc]
      by_cases hf : fuel ≤ tags.length
      · rw [if_pos hf, if_pos (Nat.succ_le_succ hf)]
        rfl
      · rw [if_neg hf, if_neg (by omega)]
        rfl

/-- The headers of a sequence are inside. -/
theorem TagsIn.inside (ht : TagsIn m (addr + n) a tags) (ha : addr ≤ a) :
    ∀ h ∈ (placed a tags).map Prod.fst ++ [a + (tags.map Tag.length).sum],
      addr ≤ h ∧ h + tagHeaderSize ≤ addr + n := by
  induction tags generalizing a with
  | nil => simpa [placed] using ⟨ha, ht.1⟩
  | cons t tags ih =>
    obtain ⟨hin, -, -, hrest⟩ := ht
    rw [placed, List.map_cons, List.map_cons, List.sum_cons, List.cons_append, ← Nat.add_assoc]
    exact List.forall_mem_cons.mpr ⟨⟨ha, hin⟩, ih hrest (by omega)⟩

theorem length_placed : (placed a tags).length = tags.length := by
  induction tags generalizing a with
  | nil => rfl
  | cons t tags ih => rw [placed, List.length_cons, List.length_cons, ih]

/-- There are fewer tags than bytes. -/
theorem TagsIn.length_le (ht : TagsIn m (addr + n) a tags) : a + 8 * tags.length + 8 ≤ addr + n := by
  induction tags generalizing a with
  | nil => exact ht.1
  | cons t tags ih =>
    obtain ⟨-, -, -, hrest⟩ := ht
    have hle := ih hrest
    have hpos := t.pos
    rw [Tag.length] at hle
    rw [List.length_cons]
    omega

theorem mem_of_tagLoop {r : Loading × List Nat} (h : tagLoop info headerVar fuel a s = some r) :
    a ∈ r.2 := by
  cases fuel with
  | zero => exact nomatch h
  | succ fuel =>
    rw [tagLoop] at h
    split at h
    case isTrue =>
      obtain rfl := Option.some.inj h
      exact List.mem_cons_self
    case isFalse =>
      obtain ⟨r', -, rfl⟩ := Option.map_eq_some_iff.mp h
      exact List.mem_cons_self

/-- **A loop that ends and stays in the block** has gone over a well-formed sequence. -/
theorem tagLoop_inside {r : Loading × List Nat} (hb : Block addr n)
    (hr : Request m addr n info headerVar) (hk : Kept m info s)
    (h : tagLoop info headerVar fuel a s = some r)
    (hin : ∀ h ∈ r.2, addr ≤ h ∧ h + tagHeaderSize ≤ addr + n) :
    ∃ tags, TagsIn m (addr + n) a tags := by
  induction fuel generalizing a s r with
  | zero => exact nomatch h
  | succ fuel ih =>
    rw [tagLoop] at h
    split at h
    case isTrue hend =>
      obtain rfl := Option.some.inj h
      have ha := hin a List.mem_cons_self
      exact ⟨[], ha.2, (hk.tag hr ha).1.symm.trans hend⟩
    case isFalse hne =>
      obtain ⟨r', hr', rfl⟩ := Option.map_eq_some_iff.mp h
      obtain ⟨ha, hrest⟩ := List.forall_mem_cons.mp hin
      have hk' : Kept m info (loadTag info headerVar a s) := hk.loadTag hr
      obtain ⟨tags, htags⟩ := ih hk' hr' hrest
      rw [(hk.tag hr ha).1] at hne
      have hsize := tagSize_lt m a
      have hstop := hb.stop_le
      have hn := hb.size_lt
      have hmem := (hk'.tag hr ha).2
      -- a step of 0 would come back to this header, which starts no sequence
      by_cases hsmall : tagSize m a = 0 ∨ 2 ^ 32 ≤ tagSize m a + 7
      · have ha' := ha.2
        rw [tagHeaderSize] at ha'
        have hsame : nextTag (loadTag info headerVar a s).mem a = a := by
          rw [nextTag, hmem, roundUp_eq_zero hsize hsmall, u64Add_eq (by omega), Nat.add_zero]
        rw [hsame] at htags
        cases tags with
        | nil => exact absurd htags.2 hne
        | cons t tags =>
          have hle := htags.2.2.2.header_le
          have hpos := t.pos
          have ht := htags.2.2.1
          rw [Tag.length, tagHeaderSize] at hle
          omega
      · rw [not_or] at hsmall
        have hround : roundUp (tagSize m a) = (tagSize m a + 7) / 8 * 8 := roundUp_eq (by omega)
        obtain ⟨t, ht⟩ : ∃ t : Tag, t.type = tagType m a ∧ t.size = tagSize m a :=
          ⟨⟨tagType m a, tagSize m a, hne, Nat.pos_of_ne_zero hsmall.1⟩, rfl, rfl⟩
        have hlen : roundUp (tagSize m a) = t.length := by rw [hround, Tag.length, ht.2]
        refine ⟨t :: tags, ha.2, ht.1.symm, ht.2.symm, ?_⟩
        -- no step leads around the address space back into the block
        have hnext := (hrest _ (mem_of_tagLoop hr')).1
        rw [nextTag, hmem, hlen] at htags hnext
        have hnowrap : a + t.length < u64Size := by
          have ha' := ha.2
          have hsize64 := u64Size_eq
          rw [tagHeaderSize] at ha'
          rw [← hlen, hround] at hnext ⊢
          by_contra hwrap
          rw [u64Add, Nat.mod_eq_sub_mod (Nat.le_of_not_lt hwrap), Nat.mod_eq_of_lt (by omega)] at hnext
          omega
        rwa [u64Add_eq hnowrap] at htags

end Loop

end Colibri.Boot

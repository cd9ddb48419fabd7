import Colibri.Boot.BootInfo
import Colibri.Boot.Madt

/-!
# The loops over what the firmware hands over

The loop of `load_multiboot_info` and that of `read_madt` take their steps from the sizes that they
find. Neither looks at the size of the block: the first ends at an end tag only, and a tag or a record
without a size is looked at for ever.

## Results

* `walks_iff`: the blocks that the loops go over without leaving them.
-/

namespace Colibri.Boot

open Colibri.Lib

variable {m mt : Mem} {addr n info headerVar madt : Nat} {mapMmio : Nat → Nat} {s : Apics}

/-- `load_multiboot_info` returns after at most as many turns as the block has bytes, and all the
headers that it looks at are in the block. -/
def TagLoopWalks (m : Mem) (addr n info headerVar : Nat) : Prop :=
  ∃ fuel m' visited,
    loadMultibootInfo multibootBootloaderMagic addr info headerVar fuel m = some (m', visited) ∧
      visited.length ≤ n ∧ ∀ h ∈ visited, addr ≤ h ∧ h + tagHeaderSize ≤ addr + n

/-- **`load_multiboot_info` ends and stays in the block** if and only if this has tags up to an end
tag. -/
theorem tagLoopWalks_iff (hb : Block addr n) (hr : Request m addr n info headerVar) :
    TagLoopWalks m addr n info headerVar ↔ ∃ tags, TagsIn m (addr + n) (addr + 8) tags := by
  constructor
  · rintro ⟨fuel, m', visited, hrun, -, hin⟩
    rw [loadMultibootInfo, if_neg (not_not.mpr rfl)] at hrun
    obtain ⟨r, hr', he⟩ := Option.map_eq_some_iff.mp hrun
    obtain ⟨-, rfl⟩ := Prod.mk.inj he
    have hk : Kept m info ⟨m, 0⟩ := fun _ _ => rfl
    obtain ⟨tags, ht⟩ := tagLoop_inside hb hr hk hr' hin
    have hstop := hb.stop_le
    have hsize := hb.size_lt
    have hu64 := u64Size_eq
    -- the first header is in the block, so that `addr + 8` does not wrap
    have hfirst := (hin _ (mem_of_tagLoop hr')).1
    have hnowrap : addr + 8 < u64Size := by
      by_contra hwrap
      rw [u64Add, Nat.mod_eq_sub_mod (Nat.le_of_not_lt hwrap), Nat.mod_eq_of_lt (by omega)] at hfirst
      omega
    rw [u64Add_eq hnowrap] at ht
    exact ⟨tags, ht⟩
  · rintro ⟨tags, ht⟩
    have hrun := @loadMultibootInfo_eq m addr n info headerVar tags (tags.length + 1) hb hr ht
    rw [if_neg (by omega)] at hrun
    refine ⟨_, _, _, hrun, ?_, ht.inside (Nat.le_add_right addr 8)⟩
    have hle := ht.length_le
    rw [List.length_append, List.length_map, length_placed, List.length_singleton]
    omega

/-- **The two loops end inside** what they go over if and only if the tags are up to an end tag, and
the records are up to the end of the table or to the I/O APIC where `read_madt` returns. -/
theorem walks_iff (hb : Block addr n) (hr : Request m addr n info headerVar) (hpos : 0 < madt)
    (hmadt : madt < u64Size) (hm : madt + madtLength mt madt ≤ u64Size) :
    (TagLoopWalks m addr n info headerVar ↔ ∃ tags, TagsIn m (addr + n) (addr + 8) tags) ∧
      (MadtWalks mapMmio mt madt s ↔ RecordsToStop mapMmio mt (madt + madtLength mt madt) s.regSel
        (madt + madtHeaderSize)) :=
  ⟨tagLoopWalks_iff hb hr, madtWalks_iff hpos hmadt hm⟩

/-! ## Sizes of 0 -/

/-- A block at `0x1000` whose first tag has size 0, and a table at `0x5000` whose only record has
length 0. -/
def stuck : Mem := (Mem.store (fun _ => 0) 0x1008 4 1).store 0x5004 4 52

theorem request_stuck : Request stuck 0x1000 0x18 0x2000 0x4000 := by
  have hnull : ∀ σ, slotPtr stuck 0x2000 σ = 0 := fun σ => by cases σ <;> decide
  exact {
    apart := .inr (by decide)
    slot := fun σ hσ => absurd (hnull σ) hσ
    slots := fun σ _ _ hσ => absurd (hnull σ) hσ
    module := fun h => absurd (by decide) h
    header := ⟨by decide, by decide, by rw [hnull]; decide⟩ }

/-- A size of 0 keeps both loops from ending. -/
theorem stuck_not_walks : Block 0x1000 0x18 ∧ Request stuck 0x1000 0x18 0x2000 0x4000 ∧
    madtLength stuck 0x5000 = 52 ∧ ¬TagLoopWalks stuck 0x1000 0x18 0x2000 0x4000 ∧
    ∀ mapMmio s, ¬MadtWalks mapMmio stuck 0x5000 s := by
  have hlen : madtLength stuck 0x5000 = 52 := by decide
  refine ⟨block_plain, request_stuck, hlen, ?_, fun mapMmio s => ?_⟩
  · rw [tagLoopWalks_iff block_plain request_stuck]
    rintro ⟨tags, ht⟩
    cases tags with
    | nil => exact absurd ht.2 (by decide)
    | cons t tags =>
      have hsize : tagSize stuck 0x1008 = 0 := by decide
      have hpos := t.pos
      exact absurd (ht.2.2.1.symm.trans hsize) (by omega)
  · rw [madtWalks_iff (by decide) (by decide) (by rw [hlen]; decide), hlen]
    have htype : icType stuck 0x502C ≠ icTypeIoApic := by decide
    rintro ⟨headers, b, hp, hstop⟩
    cases headers with
    | nil =>
      obtain rfl : 0x502C = b := hp
      rcases hstop with hle | ⟨-, hmap, -⟩
      · exact absurd hle (by decide)
      · exact htype hmap.1
    | cons h headers => exact absurd hp.2.2.1 (by decide)

/-- A table at `0x5000` with two local APICs, an I/O APIC and a record of another kind. -/
def fourRecords : Mem :=
  [(0x5004, 4, 82), (0x502D, 1, 8), (0x5030, 4, 1), (0x5035, 1, 8), (0x503C, 1, 1), (0x503D, 1, 12),
    (0x5040, 4, 0xFEC00000), (0x5048, 1, 2), (0x5049, 1, 10)].foldl
      (fun m s => m.store s.1 s.2.1 s.2.2) fun _ => 0

theorem records_fourRecords :
    Records fourRecords 0x5052 0x5052 0x502C [0x502C, 0x5034, 0x503C, 0x5048] := by
  have h₁ : icLength fourRecords 0x502C = 8 := by decide
  have h₂ : icLength fourRecords 0x5034 = 8 := by decide
  have h₃ : icLength fourRecords 0x503C = 12 := by decide
  have h₄ : icLength fourRecords 0x5048 = 10 := by decide
  simp [Records, icHeaderSize, h₁, h₂, h₃, h₄]

/-- A block with five tags, and a table with four records. -/
theorem walks_full : TagLoopWalks fullBlock 0x1000 0x68 0x2000 0x4000 ∧
    MadtWalks (fun _ => 0xFFFF800000000000) fourRecords 0x5000 ⟨0, 0, 0⟩ := by
  have hlen : madtLength fourRecords 0x5000 = 82 := by decide
  obtain ⟨htags, hrecords⟩ := @walks_iff fullBlock fourRecords 0x1000 0x68 0x2000 0x4000
    0x5000 (fun _ => 0xFFFF800000000000) ⟨0, 0, 0⟩ block_full request_full (by decide) (by decide)
    (by rw [hlen]; decide)
  refine ⟨htags.mpr ⟨_, tagsIn_full⟩, hrecords.mpr ?_⟩
  rw [hlen]
  exact ⟨[0x502C, 0x5034, 0x503C, 0x5048], 0x5052, records_fourRecords, .inl (by decide)⟩

end Colibri.Boot

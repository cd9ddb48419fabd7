import Colibri.Memory.Vm.Map

/-!
# Changing the access to pages

`updatepages` replaces the flags in the descriptors of a range. It keeps the frame of every page, in
the range or not (`updateLoop_spec`). What a leaf says of a page apart from the access is its level and
its frame, `Entry.place`.
-/

namespace Colibri.Memory

open Colibri.Lib

/-! ## Flags and frames -/

namespace Entry

/-- Where a leaf leads, apart from the access it gives. -/
def place : Nat × Entry → Nat × Nat
  | (level, e) => (level, e.frame level)

theorem getLsbD_setFlags (e : Entry) {flags : BitVec 64} {j : Nat}
    (hm : pageFlagMask.getLsbD j = false) (hf : flags.getLsbD j = false) (hj : j < 64) :
    (e.setFlags flags).raw.getLsbD j = e.raw.getLsbD j := by
  rw [setFlags, BitVec.getLsbD_or, BitVec.getLsbD_and, BitVec.getLsbD_not, hm, hf]
  simp [hj]

theorem mask_address : ∀ j < 52, 12 ≤ j → pageFlagMask.getLsbD j = false := by decide

/-- **New flags keep the frame.** -/
theorem frame_setFlags (e : Entry) (nx : Bool) (flags : BitVec 8) :
    (e.setFlags (vmflagToX86flag nx (flags.setWidth 64))).frame 0 = e.frame 0 := by
  unfold frame
  have hbits : (e.setFlags (vmflagToX86flag nx (flags.setWidth 64))).raw.extractLsb' 12 40 =
      e.raw.extractLsb' 12 40 := by
    refine BitVec.eq_of_getLsbD_eq fun j hj => ?_
    rw [BitVec.getLsbD_extractLsb', BitVec.getLsbD_extractLsb', getLsbD_setFlags]
    · exact mask_address (12 + j) (by omega) (by omega)
    · rw [getLsbD_vmflag nx flags (by omega), if_neg (by omega), if_neg (by omega),
        if_neg (by omega)]
    · omega
  exact congrArg (fun b : BitVec 40 => b.toNat * 2 ^ 12) hbits

theorem present_setFlags (e : Entry) (nx : Bool) (flags : BitVec 8) :
    (e.setFlags (vmflagToX86flag nx (flags.setWidth 64))).present = e.present := by
  refine getLsbD_setFlags e (by decide) ?_ (by omega)
  rw [getLsbD_vmflag nx flags (by omega), if_neg (by omega), if_neg (by omega), if_neg (by omega)]

theorem place_setFlags (e : Entry) (nx : Bool) (flags : BitVec 8) :
    ((some (0, e.setFlags (vmflagToX86flag nx (flags.setWidth 64)))).filter
        fun l => l.2.present).map place =
      ((some (0, e)).filter fun l => l.2.present).map place := by
  rw [Option.filter_some, Option.filter_some, present_setFlags]
  split
  · rw [Option.map_some, Option.map_some, place, place, frame_setFlags]
  · rfl

end Entry

/-! ## The pages that loops take -/

theorem walkFrom_suffix (va : Nat) (alloc : Bool) : ∀ (level : Nat) (k : Kmem) (t : Nat),
    (Kmem.walkFrom va alloc level k t).1.free <:+ k.free
  | 0, k, t => List.suffix_rfl
  | level + 1, k, t => by
    rw [Kmem.walkFrom]
    simp only
    split
    · split
      · exact List.suffix_rfl
      · exact walkFrom_suffix va alloc level k _
    · split
      · exact List.suffix_rfl
      · obtain ⟨k₁, p, hk⟩ : ∃ k₁ p, k.kalloc = (k₁, p) := ⟨_, _, rfl⟩
        have hs : k₁.free <:+ k.free := by
          have := kalloc_suffix k
          rwa [hk] at this
        rw [hk]
        simp only
        split
        · exact hs
        · exact (walkFrom_suffix va alloc level _ _).trans hs

/-- `mappages` takes pages only. -/
theorem mapLoop_suffix {root va stop : Nat} {flags : BitVec 64} : ∀ (fuel : Nat) {k k' : Kmem}
    {current pa : Nat}, Kmem.mapLoop root va stop flags fuel k current pa = some (k', true) →
    k'.free <:+ k.free
  | 0, _, _, _, _, h => absurd h (by simp [Kmem.mapLoop])
  | fuel + 1, k, k', current, pa, h => by
    have hs := walkFrom_suffix current true 3 k root
    rw [Kmem.mapLoop] at h
    split at h
    · obtain ⟨k₁, d, hw⟩ : ∃ k₁ d, k.walk root current true = (k₁, d) := ⟨_, _, rfl⟩
      rw [show Kmem.walkFrom current true 3 k root = (k₁, d) from hw] at hs
      rw [hw] at h
      cases d with
      | none =>
        obtain ⟨x, -, he⟩ := Option.map_eq_some_iff.mp h
        exact absurd (Prod.mk.inj he).2 (by simp)
      | some d =>
        simp only at h
        split at h
        · obtain ⟨x, -, he⟩ := Option.map_eq_some_iff.mp h
          exact absurd (Prod.mk.inj he).2 (by simp)
        · exact (mapLoop_suffix fuel h).trans hs
    · obtain ⟨rfl, -⟩ := Prod.mk.inj (Option.some.inj h)
      exact List.suffix_rfl

/-! ## `updatepages` -/

/-- No page below `stop` is in a large page. -/
def SmallBelow (k : Kmem) (root stop : Nat) : Prop :=
  ∀ x < stop, ∀ level e, leafAt k.tables root (vaPath x) ≠ some (level + 1, e)

/-- Two tables lead the pages to the same places. -/
def SamePlaces (k k' : Kmem) (root : Nat) : Prop :=
  ∀ q, PagePath q → (leafAt k'.tables root q).map Entry.place = (leafAt k.tables root q).map Entry.place

theorem lowhalf_not_recursive {x : Nat} (h : x < lowhalfEnd) : va2Index x 3 ≠ 510 := by
  unfold va2Index
  unfold lowhalfEnd at h
  omega

theorem SamePlaces.small {k k' : Kmem} {root stop : Nat} (h : SamePlaces k k' root)
    (hs : SmallBelow k root stop) (hlt : stop ≤ lowhalfEnd) : SmallBelow k' root stop := by
  intro x hx level e he
  have hp := h _ (vaPath_pagePath (lowhalf_not_recursive (Nat.lt_of_lt_of_le hx hlt)))
  rw [he] at hp
  obtain ⟨l, hl, hpl⟩ := Option.map_eq_some_iff.mp hp.symm
  obtain ⟨level', e'⟩ := l
  obtain ⟨rfl, -⟩ := Prod.mk.inj hpl
  exact hs x hx level e' hl

/-- **`updatepages`** keeps the tree and leads every page where it led before. -/
theorem updateLoop_spec {root stop : Nat} {nx : Bool} {flags : BitVec 8} (hstop : stop < lowhalfEnd) :
    ∀ (fuel : Nat) {k k' : Kmem} {current : Nat} {b : Bool}, Ready k root →
    SmallBelow k root lowhalfEnd →
    Kmem.updateLoop root stop (vmflagToX86flag nx (flags.setWidth 64)) fuel k current = some (k', b) →
    Ready k' root ∧ SamePlaces k k' root ∧ k'.free = k.free
  | 0, _, _, _, _, _, _, h => absurd h (by simp [Kmem.updateLoop])
  | fuel + 1, k, k', current, b, hr, hs, h => by
    rw [Kmem.updateLoop] at h
    by_cases hlt : current < stop
    · have hlow : current < lowhalfEnd := Nat.lt_trans hlt hstop
      have hva := vaPath_pagePath (lowhalf_not_recursive hlow)
      obtain ⟨hk, -, hslot⟩ := walk_lookup k root current
      obtain ⟨k₁, d, hw⟩ : ∃ k₁ d, k.walk root current false = (k₁, d) := ⟨_, _, rfl⟩
      rw [hw] at hk hslot
      obtain rfl : k₁ = k := hk
      rw [if_pos hlt, hw] at h
      cases d with
      | none =>
        obtain ⟨rfl, -⟩ := Prod.mk.inj (Option.some.inj h)
        exact ⟨hr, fun _ _ => rfl, rfl⟩
      | some d =>
        obtain ⟨t, i⟩ := d
        have hl : LeafSlot k₁ root current t i := by
          rcases hslot t i rfl with hl | ⟨level, hl⟩
          · exact hl
          · exact absurd hl (hs current hlow level _)
        obtain ⟨hr₁, hpage, hrest⟩ := hl.set hr hva
          ((k₁.tables t i).setFlags (vmflagToX86flag nx (flags.setWidth 64)))
        obtain ⟨k₂, hk₂⟩ : ∃ k₂, k₂ = k₁.setEntry t i
          ((k₁.tables t i).setFlags (vmflagToX86flag nx (flags.setWidth 64))) := ⟨_, rfl⟩
        have hfree : k₂.free = k₁.free := hk₂ ▸ rfl
        simp only [← hk₂] at h hr₁ hpage hrest
        have hplaces : SamePlaces k₁ k₂ root := by
          intro q hq
          by_cases he : q = vaPath current
          · rw [he, hpage, hl.leaf_eq, Entry.place_setFlags]
          · rw [hrest q hq he]
        obtain ⟨hr', hp', hf'⟩ := updateLoop_spec hstop fuel hr₁
          (hplaces.small hs (Nat.le_refl _)) h
        exact ⟨hr', fun q hq => (hp' q hq).trans (hplaces q hq), hf'.trans hfree⟩
    · rw [if_neg hlt] at h
      obtain ⟨rfl, -⟩ := Prod.mk.inj (Option.some.inj h)
      exact ⟨hr, fun _ _ => rfl, rfl⟩

end Colibri.Memory

import Colibri.Memory.Vmm.Bounds

/-!
# Gaps in the address space

When there is no room behind the last address that it gave out, `vmm_alloc_at` searches the list for
a gap between two areas, and then sets `found` to 0 whatever the search came to. A gap below that
address is never used again.

## Results

* `complete_iff`: a request that some gap could take gets an area iff there is room at the top.
* `AreaList.place_gap`: the room at the top is itself a gap.
-/

namespace Colibri.Memory

open Colibri.Lib

/-- `P` starts a gap that could take the request: page aligned, not below the base or the data, with
the rounded size below the end of the data, clear of every listed area. -/
structure Gap (k : Kmem) (v : Vmm) (base sz P : Nat) : Prop where
  aligned : P % 4096 = 0
  base : pageStart base ≤ P
  lower : v.vmmDataStart ≤ P
  upper : P + roundUp sz ≤ v.vmmDataEnd
  clear : ∀ a, Listed k v a → areaEnd k a ≤ P ∨ P + roundUp sz ≤ (k.areas a).start

/-- `vmm_alloc_at` returns, and it does not return `NULL` when there is a gap: it returns an area
that is not below the base. -/
def CompleteAt (k : Kmem) (v : Vmm) (base sz : Nat) (flags : BitVec 8) : Prop :=
  ∃ k' v' a, k.vmmAllocAt base v sz flags = some (k', v', a) ∧
    ((∃ P, Gap k v base sz P) → a ≠ 0 ∧ pageStart base ≤ (k'.areas a).start)

instance (v : Vmm) (base sz : Nat) : Decidable (NoWrap v base sz) :=
  inferInstanceAs (Decidable (_ ∧ _ ∧ _))

/-- There is room behind the last address given out, or behind the base. -/
def TopRoom (v : Vmm) (base sz : Nat) : Prop := Kmem.place v base + roundUp sz ≤ v.vmmDataEnd

instance (v : Vmm) (base sz : Nat) : Decidable (TopRoom v base sz) :=
  inferInstanceAs (Decidable (_ ≤ _))

section

variable {k k' : Kmem} {v v' : Vmm} {C L : List Nat} {base sz a : Nat} {flags : BitVec 8}

theorem NoWrap.roundUp (h : NoWrap v base sz) : roundUp sz = pageStart (sz - 1) + 4096 :=
  if_neg (Nat.ne_of_gt h.1)

/-- What `vmm_alloc_at` compares with the end of the data says whether there is room. -/
theorem AreaList.topRoom_iff (h : AreaList k v C L) (hw : NoWrap v base sz) :
    TopRoom v base sz ↔ u64Add (Kmem.place v base) (Kmem.areaLength sz) ≤ v.vmmDataEnd := by
  obtain ⟨-, hmod, -, hlt, -⟩ := h.place hw
  have hround : pageStart (sz - 1) % 4096 = 0 := pageStart_mod _
  have hend := h.bounds.2.2
  rw [TopRoom, hw.roundUp, hw.length]
  rw [u64Add_eq (by omega)]
  omega

/-- **The room at the top is a gap.** -/
theorem AreaList.place_gap (h : AreaList k v C L) (hw : NoWrap v base sz) (hroom : TopRoom v base sz) :
    Gap k v base sz (Kmem.place v base) := by
  obtain ⟨hlower, hmod, hbase, -, hclear⟩ := h.place hw
  exact ⟨hmod, hbase, hlower, hroom, fun a ha => .inl (hclear a (h.linked.mem_of_listed ha))⟩

/-- Without room at the top the result is `NULL`. -/
theorem AreaList.null_of_not_topRoom (h : AreaList k v C L) (hw : NoWrap v base sz)
    (hroom : ¬TopRoom v base sz) (hrun : k.vmmAllocAt base v sz flags = some (k', v', a)) : a = 0 := by
  rcases vmmAllocAt_cases hrun with ⟨-, -, rfl⟩ | ⟨-, hle, -⟩
  · rfl
  · exact absurd ((h.topRoom_iff hw).mpr hle) hroom

/-- The record that is handed out is not at `NULL`. -/
theorem Containers.next_pos {k₁ : Kmem} {v₁ : Vmm} (h : Containers k v C)
    (hfree : ∀ p ∈ k.free, physToVirt p ≠ 0) (hg : k.growContainers v = (k₁, v₁)) :
    v₁.currentContainer + areaSize * v₁.currentIndex ≠ 0 := by
  have hzero : physToVirt 0 ≠ 0 := by decide
  have hpage : physToVirt k.kalloc.2 ≠ 0 := by
    cases hf : k.free with
    | nil =>
      rw [Kmem.kalloc_nil hf]
      exact hzero
    | cons p ps =>
      rw [Kmem.kalloc_cons hf]
      exact hfree p (hf ▸ List.mem_cons_self)
  unfold Kmem.growContainers at hg
  simp only at hg
  split_ifs at hg with hneeds hcur <;> obtain ⟨rfl, rfl⟩ := Prod.mk.inj hg
  · change physToVirt k.kalloc.2 + areaSize * 0 ≠ 0
    rw [Nat.mul_zero, Nat.add_zero]
    exact hpage
  · change physToVirt k.kalloc.2 + areaSize * 0 ≠ 0
    rw [Nat.mul_zero, Nat.add_zero]
    exact hpage
  · have hC : C ≠ [] := fun e => hneeds (.inr (by rw [h.root, e]; rfl))
    have := h.pos _ (h.current_mem hC)
    omega

/-- With room at the top the result is an area behind the base. -/
theorem AreaList.area_of_topRoom (h : AreaList k v C L) (hw : NoWrap v base sz)
    (hfree : ∀ p ∈ k.free, physToVirt p ≠ 0) (hroom : TopRoom v base sz)
    (hrun : k.vmmAllocAt base v sz flags = some (k', v', a)) :
    a ≠ 0 ∧ pageStart base ≤ (k'.areas a).start := by
  obtain ⟨hlower, -, hbase, -, -⟩ := h.place hw
  have hpos := h.bounds.2.1
  have hle := (h.topRoom_iff hw).mp hroom
  have ha : a ≠ 0 := by
    obtain ⟨k₁, v₁, hg⟩ : ∃ k₁ v₁, k.growContainers v = (k₁, v₁) := ⟨_, _, rfl⟩
    unfold Kmem.vmmAllocAt at hrun
    dsimp only at hrun
    rw [if_neg (Nat.not_lt.mpr hle), if_neg (by omega), hg] at hrun
    have hadd : (k₁.addArea v₁ v₁.currentArea 0 (Kmem.place v base) (Kmem.areaLength sz) flags).2.2
        = v₁.currentContainer + areaSize * v₁.currentIndex := rfl
    have ha : (k₁.addArea v₁ v₁.currentArea 0 (Kmem.place v base) (Kmem.areaLength sz) flags).2.2
        = a := congrArg (fun r => r.2.2) (Option.some.inj hrun)
    rw [← ha, hadd]
    exact h.containers.next_pos hfree hg
  rcases vmmAllocAt_extent hrun with ⟨-, ha0⟩ | ⟨-, -, hstart, -⟩
  · exact absurd ha0 ha
  · exact ⟨ha, hstart ▸ hbase⟩

end

/-- **A gap is used iff there is room at the top**: in every state that an address space can get
into, for every request that does not wrap, `vmm_alloc_at` is complete iff the last address given out
leaves room for it or there is no gap anywhere. -/
theorem complete_iff {k : Kmem} {pagetable start stop base sz : Nat} {user : Bool} {flags : BitVec 8}
    {r : VmmRun} (he : stop < u64Size)
    (hr : VmmReach ⟨k, vmmInit pagetable start stop user, []⟩ r) (hw : NoWrap r.v base sz)
    (hfree : ∀ p ∈ r.k.free, physToVirt p ≠ 0) :
    CompleteAt r.k r.v base sz flags ↔ TopRoom r.v base sz ∨ ∀ P, ¬Gap r.k r.v base sz P := by
  obtain ⟨L, h⟩ := (AreaList.init (k := k) he).reach hr
  obtain ⟨⟨k', v', a⟩, hrun⟩ := h.linked.returns base sz flags
  constructor
  · rintro ⟨k'', v'', a', hrun', hgap⟩
    by_cases hroom : TopRoom r.v base sz
    · exact .inl hroom
    · exact .inr fun P hP => (hgap ⟨P, hP⟩).1 (h.null_of_not_topRoom hw hroom hrun')
  · rintro (hroom | hnone)
    · exact ⟨k', v', a, hrun, fun _ => h.area_of_topRoom hw hfree hroom hrun⟩
    · exact ⟨k', v', a, hrun, fun ⟨P, hP⟩ => absurd hP (hnone P)⟩

/-- The first page of an empty address space. -/
theorem complete_iff_first :
    CompleteAt emptyKmem (vmmInit 0x9000 0x1000 0x2000 true) 0 0x1000 1 ↔
      TopRoom (vmmInit 0x9000 0x1000 0x2000 true) 0 0x1000 ∨
        ∀ P, ¬Gap emptyKmem (vmmInit 0x9000 0x1000 0x2000 true) 0 0x1000 P :=
  complete_iff (r := ⟨emptyKmem, vmmInit 0x9000 0x1000 0x2000 true, []⟩) (by decide) .refl
    ⟨by decide, by decide, by decide⟩ (by decide)

/-- Two pages are given out and the first is freed: it is never given out again. -/
theorem gap_not_used : ∃ r P, VmmReach ⟨emptyKmem, vmmInit 0x9000 0x1000 0x2000 true, []⟩ r ∧
    NoWrap r.v 0 0x1000 ∧ (∀ p ∈ r.k.free, physToVirt p ≠ 0) ∧ Gap r.k r.v 0 0x1000 P ∧
    ¬CompleteAt r.k r.v 0 0x1000 1 := by
  obtain ⟨v₀, hv₀⟩ : ∃ v₀, v₀ = vmmInit 0x9000 0x1000 0x2000 true := ⟨_, rfl⟩
  have hall : ((emptyKmem.vmmAllocAt 0 v₀ 0x1000 1).bind fun s₁ =>
      (s₁.1.vmmAllocAt 0 s₁.2.1 0x1000 1).bind fun s₂ =>
        (s₂.1.vmmFreeArea s₂.2.1 s₁.2.2).map fun s₃ => decide (
          (s₁.2.2 ≠ 0 ∧ NoWrap s₁.2.1 0 0x1000 ∧ ¬NeedsContainer s₁.2.1) ∧
          s₂.2.1.firstArea = s₁.2.2 ∧
          (s₃.2.1.vmmDataStart = 0x1000 ∧ s₃.2.1.vmmDataEnd = 0x3000 ∧ NoWrap s₃.2.1 0 0x1000 ∧
            ¬TopRoom s₃.2.1 0 0x1000 ∧ s₃.1.free = [0x3000, 0x4000]) ∧
          (s₃.1.areas s₃.2.1.firstArea).start = 0x2000 ∧
          (s₃.1.areas s₃.2.1.firstArea).next = 0)) = some true := by
    rw [hv₀]
    decide +kernel
  obtain ⟨⟨k₁, v₁, a₁⟩, h₁, hall⟩ := Option.bind_eq_some_iff.mp hall
  obtain ⟨⟨k₂, v₂, a₂⟩, h₂, hall⟩ := Option.bind_eq_some_iff.mp hall
  obtain ⟨⟨k₃, v₃, b⟩, h₃, hall⟩ := Option.map_eq_some_iff.mp hall
  obtain ⟨⟨ha₁, hw₁, hneeds⟩, hfirst, ⟨hstart, hend, hw₃, hroom, hfree⟩, hsecond, hlast⟩ :=
    of_decide_eq_true hall
  have hfresh : FreshContainer emptyKmem [] 0x2000 := ⟨⟨_, rfl⟩, by decide, by decide, by simp⟩
  obtain ⟨C, hreach⟩ : ∃ C, VmmReach ⟨emptyKmem, v₀, []⟩ ⟨k₃, v₃, C⟩ := by
    have hw₀ : NoWrap v₀ 0 0x1000 := by
      rw [hv₀]
      decide
    have hstep₁ := VmmStep.alloc (r := ⟨emptyKmem, v₀, []⟩) hw₀ (fun _ => hfresh) h₁
    obtain ⟨C₁, hC₁⟩ : ∃ C₁, VmmStep ⟨emptyKmem, v₀, []⟩ ⟨k₁, v₁, C₁⟩ := ⟨_, hstep₁⟩
    have hfresh₂ : NeedsContainer v₁ → FreshContainer k₁ C₁ 0 := fun h => absurd h hneeds
    have hstep₂ := VmmStep.alloc (r := ⟨k₁, v₁, C₁⟩) hw₁ hfresh₂ h₂
    obtain ⟨C₂, hC₂⟩ : ∃ C₂, VmmStep ⟨k₁, v₁, C₁⟩ ⟨k₂, v₂, C₂⟩ := ⟨_, hstep₂⟩
    have hfirst' : v₂.firstArea = a₁ := hfirst
    have hlisted : Listed k₂ v₂ a₁ := by
      rw [← hfirst']
      exact .first (hfirst' ▸ ha₁)
    have hstep₃ := VmmStep.free (r := ⟨k₂, v₂, C₂⟩) hlisted h₃
    exact ⟨C₂, .tail (.tail (.tail .refl hC₁) hC₂) hstep₃⟩
  rw [← hv₀]
  obtain ⟨L, h⟩ := (AreaList.init (k := emptyKmem) (by decide)).reach (hv₀ ▸ hreach)
  have honly : ∀ a, Listed k₃ v₃ a → a = v₃.firstArea := by
    intro a ha
    induction ha with
    | first => rfl
    | next _ hn ih => exact absurd (ih ▸ hlast) hn
  have hround : roundUp 0x1000 = 0x1000 := by decide
  have hgap : Gap k₃ v₃ 0 0x1000 0x1000 := by
    refine ⟨by decide, by decide, hstart.le, ?_, fun a ha => .inr ?_⟩
    · rw [hround, hend]
      decide
    · rw [hround, honly a ha, hsecond]
  refine ⟨⟨k₃, v₃, C⟩, 0x1000, hreach, hw₃, ?_, hgap, ?_⟩
  · rw [hfree]
    decide
  · rintro ⟨k₄, v₄, a₄, hrun, hcomplete⟩
    exact (hcomplete ⟨_, hgap⟩).1 (h.null_of_not_topRoom hw₃ hroom hrun)

end Colibri.Memory

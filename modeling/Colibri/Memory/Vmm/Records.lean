import Colibri.Memory.Vmm.Containers

/-!
# Whose records an operation writes

The records of all address spaces are in one memory. `vmm_alloc_at` and `vmm_free_area` write to those
in the containers of their address space only (`OwnRecords`), so that the lists of the others stay as
they are (`AreaList.other`).
-/

namespace Colibri.Memory

open Colibri.Lib

/-- The record `a` is in one of the containers. -/
def InContainers (C : List Nat) (a : Nat) : Prop :=
  ∃ c ∈ C, ∃ i < itemPerContainer, a = c + areaSize * i

/-- Nothing that an area list consists of has changed outside the containers `C`. -/
structure OwnRecords (C : List Nat) (k k' : Kmem) : Prop where
  areas : ∀ a ≠ 0, ¬ InContainers C a →
    (k'.areas a).start = (k.areas a).start ∧ (k'.areas a).size = (k.areas a).size ∧
      (k'.areas a).next = (k.areas a).next ∧ (k'.areas a).prev = (k.areas a).prev
  containers : ∀ c, c ∉ C → k'.containerNext c = k.containerNext c

section

variable {k k' : Kmem} {v v' : Vmm} {C D L : List Nat}

theorem Slot.inContainers {a : Nat} (h : Slot v C a) : InContainers C a := by
  obtain ⟨c, hc, i, hi, he, -⟩ := h
  exact ⟨c, hc, i, hi, he⟩

theorem InContainers.mono {a : Nat} (h : InContainers C a) (hs : ∀ c ∈ C, c ∈ D) :
    InContainers D a := by
  obtain ⟨c, hc, i, hi, he⟩ := h
  exact ⟨c, hs c hc, i, hi, he⟩

/-- A record is in one container. -/
theorem InContainers.disjoint {a : Nat} (h : InContainers C a) (h' : InContainers D a)
    (hC : ∀ c ∈ C, c % 4096 = 0) (hD : ∀ d ∈ D, d % 4096 = 0) : ∃ c ∈ C, c ∈ D := by
  obtain ⟨c, hc, i, hi, rfl⟩ := h
  obtain ⟨d, hd, j, hj, he⟩ := h'
  have h₁ := hC c hc
  have h₂ := hD d hd
  unfold areaSize at he
  unfold itemPerContainer at hi hj
  obtain rfl : c = d := by omega
  exact ⟨c, hc, hd⟩

theorem SameRecords.own (h : SameRecords k k') : OwnRecords C k k' :=
  ⟨fun a _ _ => by rw [h.areas]; exact ⟨rfl, rfl, rfl, rfl⟩, fun c _ => by rw [h.containers]⟩

theorem OwnRecords.mono (h : OwnRecords C k k') (hs : ∀ c ∈ C, c ∈ D) : OwnRecords D k k' :=
  ⟨fun a ha hn => h.areas a ha fun hin => hn (hin.mono hs),
    fun c hc => h.containers c fun hm => hc (hs c hm)⟩

/-- **The list of another address space** stays. -/
theorem AreaList.other (h : AreaList k v C L) (ho : OwnRecords D k k')
    (hD : ∀ d ∈ D, d % 4096 = 0) (hapart : ∀ c ∈ C, c ∉ D) : AreaList k' v C L := by
  have h0 : ∀ a ∈ L, a ≠ 0 := fun a ha e => h.linked.zero_notMem (e ▸ ha)
  refine h.congr_extent (fun a ha => ho.areas a (h0 a ha) fun hin => ?_)
    fun c hc => ho.containers c (hapart c hc)
  obtain ⟨c, hc, hd⟩ := (h.slots a ha).inContainers.disjoint hin h.containers.aligned hD
  exact hapart c hc hd

/-! ## `vmm_alloc_at` -/

theorem growContainers_own {page : Nat} (h : Containers k v C)
    (hg : k.growContainers v = (k', v')) : OwnRecords (grownContainers v C page) k k' := by
  have hcur : v.currentContainer ≠ 0 → v.currentContainer ∈ grownContainers v C page := by
    intro hne
    have hmem := h.current_mem fun e => hne (h.eq_nil_iff.mpr e)
    unfold grownContainers
    split
    · exact List.mem_append_left _ hmem
    · exact hmem
  unfold Kmem.growContainers at hg
  split at hg
  · have hs := kalloc_sameRecords k
    obtain ⟨k₁, p, hk⟩ : ∃ k₁ p, k.kalloc = (k₁, p) := ⟨_, _, rfl⟩
    rw [hk] at hg hs
    simp only at hg
    split at hg
    case isTrue hne =>
      obtain ⟨rfl, -⟩ := Prod.mk.inj hg
      refine ⟨fun a _ _ => ?_, fun c hc => ?_⟩
      · rw [show _ = k.areas from hs.areas]
        exact ⟨rfl, rfl, rfl, rfl⟩
      · rw [← hs.containers]
        exact Function.update_of_ne (fun e => hc (by rw [e]; exact hcur hne)) _ _
    case isFalse =>
      obtain ⟨rfl, -⟩ := Prod.mk.inj hg
      exact hs.own
  · obtain ⟨rfl, -⟩ := Prod.mk.inj hg
    exact (SameRecords.refl k).own

/-- **`vmm_alloc_at`** writes to its own containers. -/
theorem Linked.alloc_own {base sz a page : Nat} {flags : BitVec 8} (h : Linked k v C L)
    (hfresh : NeedsContainer v → FreshContainer k C page)
    (hrun : k.vmmAllocAt base v sz flags = some (k', v', a)) :
    OwnRecords (grownContainers v C page) k k' := by
  rcases vmmAllocAt_cases hrun with ⟨rfl, -, -⟩ | ⟨-, -, hadd⟩
  · exact (SameRecords.refl k').own
  obtain ⟨k₁, v₁, hg, hc, hC, hidx, hslots, hareas, -, -, ⟨rc, cc, ci, rfl⟩, -⟩ :=
    growContainers_spec h.containers hfresh
  have hgrow : OwnRecords (grownContainers v C page) k k₁ := growContainers_own h.containers hg
  obtain ⟨n, hn⟩ : ∃ n, n = cc + areaSize * ci := ⟨_, rfl⟩
  have hnin : InContainers (grownContainers v C page) n := ⟨cc, hc.current_mem hC, ci, hidx, hn⟩
  have hn0 : n ≠ 0 := by
    have hpos := hc.pos cc (hc.current_mem hC)
    omega
  have hcurin : v.currentArea ≠ 0 → InContainers (grownContainers v C page) v.currentArea :=
    fun h0 => (hslots _ (h.slots _ (h.current_mem h0))).inContainers
  have hcur : v.currentArea ≠ n := by
    by_cases h0 : v.currentArea = 0
    · exact fun e => hn0 (e.symm.trans h0)
    · intro e
      have hslot := hslots _ (h.slots _ (h.current_mem h0))
      rw [e] at hslot
      exact (hn ▸ hc.next_new hC hidx) hslot
  obtain ⟨areas, heq, -, -, harest⟩ := addArea_eq k₁ { v with
    rootContainer := rc, currentContainer := cc, currentIndex := ci } (Kmem.place v base)
    (Kmem.areaLength sz) flags hn hcur
  have hfin := hadd _ _ hg
  rw [heq] at hfin
  obtain ⟨rfl, -⟩ := Prod.mk.inj hfin
  refine ⟨fun b hb0 hb => ?_, fun c hc => hgrow.containers c hc⟩
  have hbn : b ≠ n := fun e => hb (e ▸ hnin)
  have hbc : b ≠ v.currentArea := fun e => hb (e ▸ hcurin (e ▸ hb0))
  have hsame : areas b = k.areas b := (harest b hbn hbc).trans (congrFun hareas b)
  simp only [hsame, and_self]

/-! ## `vmm_free_area` -/

/-- **`vmm_free_area` of a listed area** writes to its own containers. -/
theorem Linked.free_own {a : Nat} {b : Bool} (h : Linked k v C L) (ha : a ∈ L)
    (hrun : k.vmmFreeArea v a = some (k', v', b)) : OwnRecords C k k' := by
  obtain ⟨L₁, L₂, rfl⟩ := List.append_of_mem ha
  have ha0 : a ≠ 0 := fun e => h.zero_notMem (by simp [e])
  obtain ⟨hprev, hnext⟩ := h.ring.neighbours
  rw [h.freeArea] at hrun
  obtain ⟨k₂, hun, he⟩ := Option.map_eq_some_iff.mp hrun
  obtain ⟨rfl, -⟩ := Prod.mk.inj he
  have hs := unmappages_sameRecords hun
  obtain ⟨areas, heq, hrec⟩ := unlinkArea_eq k v a
  rw [heq] at hs
  have hsame : k₂.areas = areas := hs.areas
  -- the neighbours are listed, or `NULL`
  have hin : ∀ c, c = (k.areas a).prev ∨ c = (k.areas a).next → c ≠ 0 → InContainers C c := by
    intro c hc hc0
    refine (h.slots c ?_).inContainers
    rcases hc with rfl | rfl
    · rw [areaPrev, if_neg ha0] at hprev
      rw [hprev] at hc0 ⊢
      rcases List.eq_nil_or_concat L₁ with rfl | ⟨B, d, rfl⟩
      · exact absurd rfl hc0
      · simp
    · rw [areaNext, if_neg ha0] at hnext
      rw [hnext] at hc0 ⊢
      cases L₂ with
      | nil => exact absurd rfl hc0
      | cons d L₂ => simp
  refine ⟨fun c hc0 hc => ?_, fun c _ => congrFun hs.containers c⟩
  obtain ⟨h₁, h₂, -, h₃, h₄⟩ := hrec c
  rw [if_neg fun hp => hc (hin c (.inl hp.1) hc0)] at h₃
  rw [if_neg fun hp => hc (hin c (.inr hp.1) hc0)] at h₄
  rw [hsame]
  exact ⟨h₁, h₂, h₃, h₄⟩

/-- New flags are in no list. -/
theorem setFlags_own (k : Kmem) (area : Nat) (flags : BitVec 8) :
    OwnRecords [] k (k.setArea area fun a => { a with flags }) := by
  refine ⟨fun a _ _ => ?_, fun _ _ => rfl⟩
  unfold Kmem.setArea
  by_cases ha : a = area
  · subst ha
    simp only [Function.update_self, and_self]
  · simp only [Function.update_of_ne ha, and_self]

/-! ## The operations on page tables -/

theorem updateLoop_sameRecords {root stop : Nat} {flags : BitVec 64} (fuel : Nat) {k k' : Kmem}
    {current : Nat} {ok : Bool}
    (h : Kmem.updateLoop root stop flags fuel k current = some (k', ok)) : SameRecords k k' := by
  induction fuel generalizing k current with
  | zero => exact absurd h (by simp [Kmem.updateLoop])
  | succ fuel ih =>
    rw [Kmem.updateLoop] at h
    split at h
    case isFalse =>
      obtain ⟨rfl, -⟩ := Prod.mk.inj (Option.some.inj h)
      exact .refl k
    case isTrue =>
      obtain ⟨hk, -, -⟩ := walk_lookup k root current
      obtain ⟨k₁, d, hw⟩ : ∃ k₁ d, k.walk root current false = (k₁, d) := ⟨_, _, rfl⟩
      rw [hw] at h hk
      obtain rfl : k₁ = k := hk
      cases d with
      | none =>
        obtain ⟨rfl, -⟩ := Prod.mk.inj (Option.some.inj h)
        exact .refl k₁
      | some d =>
        obtain ⟨t, i⟩ := d
        have hset : SameRecords k₁ (k₁.setEntry t i ((k₁.tables t i).setFlags flags)) := ⟨rfl, rfl⟩
        exact hset.trans (ih h)

/-- `update_area_access` writes flags only. -/
theorem updateAreaAccess_own {area : Nat} {flags : BitVec 8} {b : Bool}
    (h : k.updateAreaAccess v area flags = some (k', b)) : OwnRecords [] k k' := by
  have hflags := setFlags_own k area (if v.userVmm then flags ||| memoryFlagUser else flags)
  unfold Kmem.updateAreaAccess Kmem.updatepages at h
  have hs := updateLoop_sameRecords u64Size h
  refine ⟨fun a ha hn => ?_, fun c hc => ?_⟩
  · rw [hs.areas]
    exact hflags.areas a ha hn
  · rw [hs.containers]
    exact hflags.containers c hc

theorem mapHigherLoop_sameRecords (kernelPml4 pagetable : Nat) : ∀ (n : Nat) (k : Kmem) (i : Nat),
    SameRecords k (Kmem.mapHigherLoop kernelPml4 pagetable n k i)
  | 0, k, _ => .refl k
  | n + 1, k, i => by
    have hset : SameRecords k (k.setEntry pagetable i (k.tables kernelPml4 i)) := ⟨rfl, rfl⟩
    rw [Kmem.mapHigherLoop]
    exact hset.trans (mapHigherLoop_sameRecords kernelPml4 pagetable n _ (i + 1))

theorem mapHigherHalf_sameRecords (k : Kmem) (kernelPml4 pagetable : Nat) :
    SameRecords k (k.mapHigherHalf kernelPml4 pagetable) :=
  mapHigherLoop_sameRecords kernelPml4 pagetable 256 k 256

end

end Colibri.Memory

import Colibri.Lib.Run
import Colibri.Memory.Vmm.Areas

/-!
# What a new record is made of

The containers of an address space are pages from `kalloc`, which are not cleared. `vmm_alloc_at`
writes the fields of a record one by one, all but `is_mmio`, and links a new container behind the
last one without writing the `next` of the new one. What these two hold is what the page held.

## Results

* `vmm_records_clean`: as long as the pages taken for containers hold 0 in `next`, and the records
  handed out by `vmm_alloc_at` hold 0 in `is_mmio`, the containers end with `NULL`, `vmm_free_area`
  of a record in none of them returns -1, and `is_mmio` marks what `map_mmio` has made. The pages of
  the other areas are freed, as far as `kfree` can take what their descriptors hold (`FreesManaged`).
* `stale_container`: a page that holds something else.
-/

namespace Colibri.Memory

open Colibri.Lib

/-! ## The page tables and the records -/

/-- The records are those of `k`. -/
structure SameRecords (k k' : Kmem) : Prop where
  areas : k'.areas = k.areas
  containers : k'.containerNext = k.containerNext

theorem SameRecords.refl (k : Kmem) : SameRecords k k := ⟨rfl, rfl⟩

theorem SameRecords.trans {k k' k'' : Kmem} (h : SameRecords k k') (h' : SameRecords k' k'') :
    SameRecords k k'' := ⟨h'.areas.trans h.areas, h'.containers.trans h.containers⟩

theorem kalloc_sameRecords (k : Kmem) : SameRecords k k.kalloc.1 := by
  unfold Kmem.kalloc
  split <;> exact ⟨rfl, rfl⟩

theorem walkFrom_sameRecords {va : Nat} {alloc : Bool} (level : Nat) {k : Kmem} {pt : Nat} :
    SameRecords k (Kmem.walkFrom va alloc level k pt).1 := by
  induction level generalizing k pt with
  | zero => exact .refl k
  | succ level ih =>
    unfold Kmem.walkFrom
    simp only
    split
    · split
      · exact .refl k
      · exact ih
    · split
      · exact .refl k
      · split
        · exact kalloc_sameRecords k
        · exact (kalloc_sameRecords k).trans ⟨ih.areas, ih.containers⟩

theorem unmapLoop_sameRecords {root stop : Nat} {free : Bool} (fuel : Nat) {k k' : Kmem}
    {current : Nat} (h : Kmem.unmapLoop root stop free fuel k current = some k') :
    SameRecords k k' := by
  refine unmapLoop_preserves (P := SameRecords k) (fun k₁ x hk₁ => ?_) fuel h (.refl k)
  obtain ⟨ha, hc, -⟩ := unmapPage_areas k₁ root free x
  exact hk₁.trans ⟨ha, hc⟩

theorem mapLoop_sameRecords {root va stop : Nat} {flags : BitVec 64} (fuel : Nat) {k k' : Kmem}
    {current pa : Nat} {ok : Bool}
    (h : Kmem.mapLoop root va stop flags fuel k current pa = some (k', ok)) : SameRecords k k' := by
  induction fuel generalizing k current pa with
  | zero => exact nomatch h
  | succ fuel ih =>
    rw [Kmem.mapLoop] at h
    split at h
    case isFalse =>
      obtain ⟨rfl, -⟩ := Prod.mk.inj (Option.some.inj h)
      exact .refl k
    case isTrue =>
      have hw : SameRecords k (k.walk root current true).1 := walkFrom_sameRecords 3
      obtain ⟨k₁, d, he⟩ : ∃ k₁ d, k.walk root current true = (k₁, d) := ⟨_, _, rfl⟩
      rw [he] at h hw
      have hundo : ∀ {k'}, (k₁.unmappages root va (u64Sub current va) false).map (·, false) =
          some (k', ok) → SameRecords k k' := fun h => by
        obtain ⟨k₂, hk₂, he⟩ := Option.map_eq_some_iff.mp h
        obtain ⟨rfl, -⟩ := Prod.mk.inj he
        unfold Kmem.unmappages at hk₂
        exact hw.trans (unmapLoop_sameRecords u64Size hk₂)
      cases d with
      | none => exact hundo h
      | some d =>
        simp only at h
        split at h
        · exact hundo h
        · exact hw.trans ⟨(ih h).areas, (ih h).containers⟩

theorem unmappages_sameRecords {k k' : Kmem} {root va sz : Nat} {free : Bool}
    (h : k.unmappages root va sz free = some k') : SameRecords k k' := by
  unfold Kmem.unmappages at h
  exact unmapLoop_sameRecords u64Size h

theorem mappages_sameRecords {k k' : Kmem} {root va sz pa : Nat} {flags : BitVec 8} {ok : Bool}
    (h : k.mappages root va sz pa flags = some (k', ok)) : SameRecords k k' := by
  unfold Kmem.mappages at h
  exact mapLoop_sameRecords u64Size h

theorem onDemandAllocation_sameRecords {k k' : Kmem} {v : Vmm} {va : Nat} {ok : Bool}
    (h : k.onDemandAllocation v va = some (k', ok)) : SameRecords k k' := by
  unfold Kmem.onDemandAllocation at h
  split at h
  · exact absurd h (by simp)
  · obtain ⟨rfl, -⟩ := Prod.mk.inj (Option.some.inj h)
    exact .refl k
  · exact (kalloc_sameRecords k).trans (mappages_sameRecords h)

/-! ## The pages that `vmm_free_area` gives back

`unmappages` gives `kfree` the address in each descriptor that it finds, present or not, and `kfree`
reads the bitmap at the place of its argument. The pages that the allocator hands out have a place there;
the 0 in a descriptor that was never present has none. -/

/-- The addresses whose pages `vmm_free_area` unmaps. -/
def AreaPages (k : Kmem) (area x : Nat) : Prop :=
  pageStart (k.areas area).start ≤ x ∧ x ≤ pageEnd (k.areaLast area)

instance (k : Kmem) (area x : Nat) : Decidable (AreaPages k area x) :=
  inferInstanceAs (Decidable (_ ∧ _))

/-- `unmappages` of an area, from its first page to its last. -/
theorem unmappages_eq (k : Kmem) (root a : Nat) (free : Bool) :
    k.unmappages root (k.areas a).start (k.areas a).size free =
      Kmem.unmapLoop root (pageEnd (k.areaLast a)) free u64Size k (pageStart (k.areas a).start) :=
  rfl

/-- `p` is a page that the allocator hands out. -/
def Window.Managed (w : Window) (p : Nat) : Prop := ∃ i, w.Allocatable i ∧ p = w.page i

/-- Every descriptor in the pages of the area holds a page of the allocator. -/
def FreesManaged (w : Window) (k : Kmem) (root area : Nat) : Prop :=
  ∀ x, AreaPages k area x → ∀ t i, (k.walk root x false).2 = some (t, i) →
    w.Managed ((k.tables t i).pdAddr * 4096)

/-- `k'` has the entries of `k`, but that some are not present any more. -/
def Unmapped (k k' : Kmem) : Prop := ∀ t i, (k'.tables t i).pdAddr = (k.tables t i).pdAddr ∧
  ((k'.tables t i).present = true → k'.tables t i = k.tables t i)

section

variable {w : Window} {k k' : Kmem} {root : Nat}

theorem Unmapped.clear (h : Unmapped k k') (t i : Nat) :
    Unmapped k (k'.setEntry t i ((k'.tables t i).setBit 0 false)) := by
  intro u j
  simp only [Kmem.setEntry]
  by_cases hu : u = t ∧ j = i
  · obtain ⟨rfl, rfl⟩ := hu
    rw [setEntry_self]
    refine ⟨(Entry.pdAddr_clear _).trans (h u j).1, fun hp => ?_⟩
    rw [Entry.present_clear] at hp
    exact absurd hp (by simp)
  · rw [setEntry_of_ne (not_and_or.mp hu)]
    exact h u j

/-- What `walk` finds then, it found before. -/
theorem Unmapped.walkFrom (h : Unmapped k k') {va : Nat} : ∀ (level : Nat) {pt t i : Nat},
    (Kmem.walkFrom va false level k' pt).2 = some (t, i) →
    (Kmem.walkFrom va false level k pt).2 = some (t, i)
  | 0, _, _, _, hw => hw
  | level + 1, pt, t, i, hw => by
    unfold Kmem.walkFrom at hw ⊢
    simp only at hw ⊢
    by_cases hp : (k'.tables pt (va2Index va (level + 1))).present = true
    · have he := (h _ _).2 hp
      rw [if_pos hp, he] at hw
      rw [he] at hp
      rw [if_pos hp]
      by_cases hs : (k.tables pt (va2Index va (level + 1))).pageSize = true
      · rw [if_pos hs] at hw ⊢
        exact hw
      · rw [if_neg hs] at hw ⊢
        exact h.walkFrom level hw
    · rw [if_neg hp] at hw
      exact absurd hw (by simp)

/-- A loop of `unmappages` that ends with the address space does not end. -/
theorem unmapLoop_endless {free : Bool} : ∀ (fuel : Nat) {k : Kmem} {current : Nat},
    current % 4096 = 0 → current < u64Size →
    Kmem.unmapLoop root (u64Size - 1) free fuel k current = none
  | 0, _, _, _, _ => rfl
  | fuel + 1, k, current, hc, hlt => by
    have hsize := u64Size_eq
    have hnext : u64Add current pageSize % 4096 = 0 := by
      rw [u64Add, pageSize_eq, hsize]
      omega
    rw [Kmem.unmapLoop, if_pos (by omega)]
    exact unmapLoop_endless fuel hnext (u64Add_lt _ _)

/-- **What the pages of the range preserve** holds when the loop of `unmappages` ends. -/
theorem unmapLoop_within {P : Kmem → Prop} {stop : Nat} {free : Bool} (hm : stop % 4096 = 4095)
    (hstop : stop < u64Size) : ∀ (fuel : Nat) {k k' : Kmem} {current : Nat}, current % 4096 = 0 →
    (∀ k x, current ≤ x → x ≤ stop → P k → P (k.unmapPage root free x)) →
    Kmem.unmapLoop root stop free fuel k current = some k' → P k → P k'
  | 0, _, _, _, _, _, hrun, _ => absurd hrun (by simp [Kmem.unmapLoop])
  | fuel + 1, k, k', current, hc, hpage, hrun, hk => by
    have hsize := u64Size_eq
    by_cases hcur : current < stop
    case neg =>
      rw [Kmem.unmapLoop, if_neg hcur] at hrun
      obtain rfl := Option.some.inj hrun
      exact hk
    case pos =>
      by_cases hend : current + 4096 < u64Size
      · have hadd : u64Add current pageSize = current + 4096 := by
          rw [pageSize_eq, u64Add_eq hend]
        rw [Kmem.unmapLoop, if_pos hcur, hadd] at hrun
        exact unmapLoop_within hm hstop fuel (by omega)
          (fun k x hx => hpage k x (by omega)) hrun
          (hpage k current (Nat.le_refl _) (Nat.le_of_lt hcur) hk)
      · -- The last page of the address space: `current` wraps and stays below `stop`.
        obtain rfl : stop = u64Size - 1 := by omega
        rw [unmapLoop_endless _ hc (by omega)] at hrun
        exact absurd hrun (by simp)

/-- What `unmappages` does to the allocator: `kfree` of pages that it hands out, and of none without
`free`. -/
structure GivesBack (w : Window) (free : Bool) (k k' : Kmem) : Prop where
  unmapped : Unmapped k k'
  pages : ∀ s, FreePages w s k → ∃ pages : List Nat, (∀ p ∈ pages, w.Managed p) ∧
    (free = false → pages = []) ∧ FreePages w (pages.foldl PhysAlloc.kfree s) k'

theorem GivesBack.refl {free : Bool} (k : Kmem) : GivesBack w free k k :=
  ⟨fun _ _ => ⟨rfl, fun _ => rfl⟩, fun _ hs => ⟨[], by simp, fun _ => rfl, hs⟩⟩

/-- **A round of `unmappages`** gives back the page of the descriptor it finds. -/
theorem GivesBack.unmapPage {free : Bool} (h : GivesBack w free k k') {x : Nat}
    (hm : free = true → ∀ t i, (k.walk root x false).2 = some (t, i) →
      w.Managed ((k.tables t i).pdAddr * 4096)) :
    GivesBack w free k (k'.unmapPage root free x) := by
  obtain ⟨hk, -, -⟩ := walk_lookup k' root x
  unfold Kmem.unmapPage
  obtain ⟨k₁, d, hw⟩ : ∃ k₁ d, k'.walk root x false = (k₁, d) := ⟨_, _, rfl⟩
  rw [hw] at hk ⊢
  obtain rfl : k₁ = k' := hk
  cases d with
  | none => exact h
  | some d =>
    obtain ⟨t, i⟩ := d
    cases free with
    | false => exact ⟨h.unmapped.clear t i, h.pages⟩
    | true =>
      have hfound : (k.walk root x false).2 = some (t, i) :=
        h.unmapped.walkFrom 3 (congrArg Prod.snd hw)
      obtain ⟨j, hj, hp⟩ := hm rfl t i hfound
      rw [← (h.unmapped t i).1] at hp
      have htables : ∀ a, (k₁.kfree a).tables = k₁.tables := fun a => by
        unfold Kmem.kfree
        split <;> rfl
      refine ⟨fun u c => ?_, fun s hs => ?_⟩
      · simp only [if_true, Kmem.setEntry, htables]
        exact h.unmapped.clear t i u c
      · obtain ⟨pages, hpages, -, hfree⟩ := h.pages s hs
        refine ⟨pages ++ [(k₁.tables t i).pdAddr * 4096], fun p hp' => ?_, fun h => ?_, ?_⟩
        · rcases List.mem_append.mp hp' with hp' | hp'
          · exact hpages p hp'
          · exact ⟨j, hj, (List.mem_singleton.mp hp').trans hp⟩
        · exact absurd h (by simp)
        · rw [List.foldl_append]
          exact kfree_refines hfree hj (by rw [hp, w.pageStart_page])

/-- **`unmappages` of an area** gives back pages of the allocator, if its descriptors hold no other
addresses. -/
theorem GivesBack.unmappages {free : Bool} {area : Nat} {k'' : Kmem} (h : GivesBack w free k k')
    (hm : free = true → FreesManaged w k root area)
    (hrun : k'.unmappages root (k.areas area).start (k.areas area).size free = some k'') :
    GivesBack w free k k'' := by
  have hlast : k.areaLast area < u64Size := u64Sub_lt _ _
  unfold Kmem.unmappages at hrun
  exact unmapLoop_within (pageEnd_mod hlast) (pageEnd_lt hlast) u64Size (pageStart_mod _)
    (fun k' x hx hx' h => h.unmapPage fun hf t i => hm hf x ⟨hx, hx'⟩ t i) hrun h

end

/-! ## A new record -/

/-- `vmm_alloc_at` finds a place. -/
def Adds (v : Vmm) (base sz : Nat) : Prop :=
  Kmem.place v base ≠ 0 ∧ u64Add (Kmem.place v base) (Kmem.areaLength sz) ≤ v.vmmDataEnd

instance (v : Vmm) (base sz : Nat) : Decidable (Adds v base sz) :=
  inferInstanceAs (Decidable (_ ∧ _))

/-- The record that `vmm_alloc_at` hands out next. -/
def nextSlot (k : Kmem) (v : Vmm) : Nat :=
  if NeedsContainer v then physToVirt k.kalloc.2
  else v.currentContainer + areaSize * v.currentIndex

section Alloc

variable {k k' : Kmem} {v v' : Vmm} {C L : List Nat} {base sz a : Nat} {flags : BitVec 8}

/-- `vmm_alloc_at` with a place. -/
theorem vmmAllocAt_of_adds (h : Adds v base sz) {k₁ : Kmem} {v₁ : Vmm}
    (hg : k.growContainers v = (k₁, v₁)) :
    k.vmmAllocAt base v sz flags = some (k₁.addArea v₁ v₁.currentArea 0 (Kmem.place v base)
      (Kmem.areaLength sz) flags) := by
  unfold Kmem.vmmAllocAt
  simp only [gt_iff_lt, Nat.not_lt.mpr h.2, if_false, h.1, hg]

/-- `vmm_alloc_at` without a place. -/
theorem vmmAllocAt_of_not_adds (h : ¬Adds v base sz)
    (hrun : k.vmmAllocAt base v sz flags = some (k', v', a)) : k' = k ∧ v' = v ∧ a = 0 := by
  rcases vmmAllocAt_cases hrun with hsame | ⟨h₀, hle, -⟩
  · exact hsame
  · exact absurd ⟨h₀, hle⟩ h

theorem setArea_isMmio {f : MemoryArea → MemoryArea} (hf : ∀ r, (f r).isMmio = r.isMmio)
    (k : Kmem) (a b : Nat) : ((k.setArea a f).areas b).isMmio = (k.areas b).isMmio := by
  by_cases hb : b = a
  · simp [hb, Kmem.setArea, hf]
  · simp [hb, Kmem.setArea]

/-- `addArea` does not write `is_mmio`, and takes the next record of the container. -/
theorem addArea_stale {prev cur found length : Nat}
    (h : k.addArea v prev cur found length flags = (k', v', a)) :
    a = v.currentContainer + areaSize * v.currentIndex ∧
      (∀ b, (k'.areas b).isMmio = (k.areas b).isMmio) ∧ k'.containerNext = k.containerNext ∧
      v'.currentContainer = v.currentContainer ∧ v'.currentIndex = v.currentIndex + 1 ∧
      (prev = v.currentArea → v'.currentArea = a) := by
  unfold Kmem.addArea at h
  simp only [Prod.mk.injEq] at h
  obtain ⟨rfl, rfl, rfl⟩ := h
  refine ⟨rfl, fun b => ?_, ?_, ?_, ?_, fun hprev => ?_⟩
  · split <;> split <;> simp only [setArea_isMmio, implies_true]
  · split <;> split <;> rfl
  · split <;> split <;> rfl
  · split <;> split <;> rfl
  · rw [hprev, if_pos (by split <;> rfl)]

/-- `growContainers` writes the `next` of the last container, and of no other. -/
theorem growContainers_stale (h : k.growContainers v = (k', v')) :
    k'.areas = k.areas ∧
      v'.currentContainer + areaSize * v'.currentIndex = nextSlot k v ∧
      (∀ c, c ≠ v.currentContainer → k'.containerNext c = k.containerNext c) ∧
      (¬NeedsContainer v → k'.containerNext = k.containerNext) := by
  unfold Kmem.growContainers at h
  unfold nextSlot
  have hrec := kalloc_sameRecords k
  by_cases hn : NeedsContainer v
  · rw [if_pos (show v.currentIndex = itemPerContainer ∨ v.rootContainer = 0 from hn)] at h
    rw [if_pos hn]
    simp only at h
    split at h
    all_goals
      obtain ⟨rfl, rfl⟩ := Prod.mk.inj h
      refine ⟨hrec.areas, by simp, fun c hc => ?_, fun hnot => absurd hn hnot⟩
    · simp [hc, hrec.containers]
    · simp [hrec.containers]
  · rw [if_neg (show ¬(v.currentIndex = itemPerContainer ∨ v.rootContainer = 0) from hn)] at h
    rw [if_neg hn]
    obtain ⟨rfl, rfl⟩ := Prod.mk.inj h
    exact ⟨rfl, rfl, fun _ _ => rfl, fun _ => rfl⟩

/-- A new area becomes the last one, whatever page its record is on. -/
theorem vmmAllocAt_current (hadds : Adds v base sz)
    (hrun : k.vmmAllocAt base v sz flags = some (k', v', a)) :
    a = nextSlot k v ∧ v'.currentArea = nextSlot k v := by
  obtain ⟨k₁, v₁, hg⟩ : ∃ k₁ v₁, k.growContainers v = (k₁, v₁) := ⟨_, _, rfl⟩
  rw [vmmAllocAt_of_adds hadds hg] at hrun
  obtain ⟨ha, -, -, -, -, hcur⟩ := addArea_stale (Option.some.inj hrun)
  have hslot := (growContainers_stale hg).2.1
  exact ⟨ha.trans hslot, (hcur rfl).trans (ha.trans hslot)⟩

/-- The containers of `v` end with `NULL`. -/
def EndsNull (k : Kmem) (C : List Nat) : Prop := ∀ c ∈ C.getLast?, k.containerNext c = 0

/-- The new container is not the current one. -/
theorem FreshContainer.ne_current {page : Nat} (h : FreshContainer k C page)
    (hc : Containers k v C) : physToVirt page ≠ v.currentContainer := by
  obtain ⟨-, -, hlt, hnew⟩ := h
  intro he
  by_cases hC : C = []
  · have h0 : v.currentContainer = 0 := by rw [hc.current, hC]; rfl
    have hoff : 0 < physicalOffset := by decide
    rw [h0, physToVirt, u64Add_eq (by omega)] at he
    omega
  · exact hnew (he ▸ hc.current_mem hC)

/-- **What a new record holds**: `vmm_alloc_at` hands out a record it has not handed out before, with
the `is_mmio` that was there, and the new container's `next` is the one that was there. -/
theorem Containers.alloc_stale (hc : Containers k v C)
    (hfresh : NeedsContainer v → FreshContainer k C k.kalloc.2) (hadds : Adds v base sz)
    (hrun : k.vmmAllocAt base v sz flags = some (k', v', a)) :
    a = nextSlot k v ∧ a ≠ 0 ∧ ¬Slot v C a ∧
      (∀ b, Slot v C b ∨ b = a → Slot v' (grownContainers v C k.kalloc.2) b) ∧
      (∀ b, (k'.areas b).isMmio = (k.areas b).isMmio) ∧
      (EndsNull k C → (NeedsContainer v → k.containerNext (physToVirt k.kalloc.2) = 0) →
        EndsNull k' (grownContainers v C k.kalloc.2)) := by
  obtain ⟨k₁, v₁, hg, hc₁, hC, hidx, hslots, -⟩ := growContainers_spec hc hfresh
  obtain ⟨hareas, hslot, hnext, hsame⟩ := growContainers_stale hg
  rw [vmmAllocAt_of_adds hadds hg] at hrun
  obtain ⟨ha, hmmio, hcn, hcc, hci, -⟩ := addArea_stale (Option.some.inj hrun)
  have hnew : ¬Slot v₁ (grownContainers v C k.kalloc.2) a := ha ▸ hc₁.next_new hC hidx
  have hpos := hc₁.pos _ (hc₁.current_mem hC)
  refine ⟨ha.trans hslot, by omega, fun h => hnew (hslots a h), fun b hb => ?_, fun b => ?_, fun hend hz => ?_⟩
  · rcases hb with hb | rfl
    · obtain ⟨c, hcC, i, hi, he, himp⟩ := hslots b hb
      refine ⟨c, hcC, i, hi, he, fun h => ?_⟩
      have := himp (h.trans hcc)
      omega
    · exact ⟨v₁.currentContainer, hc₁.current_mem hC, v₁.currentIndex, hidx, ha, fun _ => by omega⟩
  · rw [hmmio, hareas]
  · unfold grownContainers
    by_cases hn : NeedsContainer v
    case neg =>
      rw [if_neg hn]
      intro c hcl
      rw [hcn, hsame hn]
      exact hend c hcl
    case pos =>
      rw [if_pos hn]
      intro c hcl
      have hce : c = physToVirt k.kalloc.2 := by
        rw [List.getLast?_concat] at hcl
        exact (Option.some.inj hcl).symm
      have hne : c ≠ v.currentContainer := hce ▸ (hfresh hn).ne_current hc
      rw [hcn, hnext c hne, hce, hz hn]

end Alloc

/-! ## Runs -/

/-- The kernel's memory with one address space, the containers it has taken, and the areas that
`map_mmio` has made. -/
structure AreaRun where
  k : Kmem
  v : Vmm
  containers : List Nat
  mmio : List Nat

/-- What is done with the address space; `other` is anything that is done to memory that is none of
its containers. -/
inductive AreaAction
  | alloc (base sz : Nat) (flags : BitVec 8)
  | mmio (physical sz : Nat) (writable : Bool)
  | free (area : Nat)
  | other (k : Kmem)

/-- The area is in the container `c`, as `vmm_free_area` tests it. -/
def InContainer (c a : Nat) : Prop := c ≤ a ∧ a ≤ c + areaSize * (itemPerContainer - 1)

namespace AreaRun

/-- The containers after `vmm_alloc_at`. -/
def grown (r : AreaRun) (base sz : Nat) : List Nat :=
  if Adds r.v base sz then grownContainers r.v r.containers r.k.kalloc.2 else r.containers

/-- One action. -/
def step (r : AreaRun) : AreaAction → Option AreaRun
  | .alloc base sz flags => (r.k.vmmAllocAt base r.v sz flags).map fun (k, v, _) =>
    { k, v, containers := r.grown base sz, mmio := r.mmio }
  | .mmio physical sz writable => (r.k.mapMmio r.v physical sz writable).map fun (k, v, _) =>
    { k, v, containers := r.grown 0 sz
      mmio := if Adds r.v 0 sz then nextSlot r.k r.v :: r.mmio else r.mmio }
  | .free area => (r.k.vmmFreeArea r.v area).map fun (k, v, _) => { r with k, v }
  | .other k => some { r with k }

/-- `kalloc` has a page for the container, if one is needed; areas that are freed are in the list, or
in no container at all. -/
def Promised (r : AreaRun) : AreaAction → Prop
  | .alloc base sz _ =>
    Adds r.v base sz → NeedsContainer r.v → FreshContainer r.k r.containers r.k.kalloc.2
  | .mmio _ sz _ =>
    Adds r.v 0 sz → NeedsContainer r.v → FreshContainer r.k r.containers r.k.kalloc.2
  | .free area => Listed r.k r.v area ∨ ∀ c ∈ r.containers, ¬InContainer c area
  | .other k =>
    (∀ c ∈ r.containers, ∀ i < itemPerContainer, k.areas (c + areaSize * i) =
      r.k.areas (c + areaSize * i)) ∧
    ∀ c ∈ r.containers, k.containerNext c = r.k.containerNext c

/-- The page taken for a container holds 0 where its `next` is. -/
def ClearNext (r : AreaRun) : Prop :=
  NeedsContainer r.v → r.k.containerNext (physToVirt r.k.kalloc.2) = 0

/-- What is taken for records is clear where they are not written, and the descriptors of an area
whose pages are freed hold pages of the allocator. -/
def Cleared (w : Window) (r : AreaRun) : AreaAction → Prop
  | .alloc base sz _ =>
    Adds r.v base sz → r.ClearNext ∧ (r.k.areas (nextSlot r.k r.v)).isMmio = 0
  | .mmio _ sz _ => Adds r.v 0 sz → r.ClearNext
  | .free area => Listed r.k r.v area → (r.k.areas area).isMmio = 0 →
    FreesManaged w r.k r.v.rootPagetable area
  | .other _ => True

end AreaRun

/-- Following `next` from `c` visits `C` and ends. -/
def Follows (k : Kmem) : Nat → List Nat → Prop
  | c, [] => c = 0
  | c, d :: C => c = d ∧ d ≠ 0 ∧ Follows k (k.containerNext d) C

/-- What the records of an address space have to hold. -/
structure RecordsClean (w : Window) (r : AreaRun) : Prop where
  containers : Follows r.k r.v.rootContainer r.containers
  foreign : ∀ a, (∀ c ∈ r.containers, ¬InContainer c a) →
    r.k.vmmFreeArea r.v a = some (r.k, r.v, false)
  mmio : ∀ a, Listed r.k r.v a → ((r.k.areas a).isMmio ≠ 0 ↔ a ∈ r.mmio)
  /-- `vmm_free_area` frees the pages of what `map_mmio` has not made, if `kfree` can take them. -/
  freed : ∀ a, Listed r.k r.v a → (a ∉ r.mmio → FreesManaged w r.k r.v.rootPagetable a) →
    r.k.vmmFreeArea r.v a =
      ((r.k.unlinkArea r.v a).1.unmappages r.v.rootPagetable (r.k.areas a).start (r.k.areas a).size
        (decide (a ∉ r.mmio))).map fun k => (k, (r.k.unlinkArea r.v a).2, true)
  /-- Every page it frees then is one of the allocator's. -/
  given : ∀ a, Listed r.k r.v a → (a ∉ r.mmio → FreesManaged w r.k r.v.rootPagetable a) →
    ∀ k' v' ok, r.k.vmmFreeArea r.v a = some (k', v', ok) →
      GivesBack w (decide (a ∉ r.mmio)) r.k k'

/-- What every run keeps. -/
structure Clean (r : AreaRun) (L : List Nat) : Prop where
  linked : Linked r.k r.v r.containers L
  ends : EndsNull r.k r.containers
  slots : ∀ a ∈ r.mmio, Slot r.v r.containers a
  mmio : ∀ a ∈ L, (r.k.areas a).isMmio ≠ 0 ↔ a ∈ r.mmio

/-- What `map_mmio` does to the records: those of `vmm_alloc_at`, and the new one is marked. -/
theorem mapMmio_cases {k k' : Kmem} {v v' : Vmm} {physical sz addr : Nat} {writable : Bool}
    (h : k.mapMmio v physical sz writable = some (k', v', addr)) :
    ∃ k₁ a flags, k.vmmAllocAt 0 v sz flags = some (k₁, v', a) ∧
      ((a = 0 ∧ k' = k₁) ∨
        (a ≠ 0 ∧ SameRecords (k₁.setArea a fun r => { r with isMmio := 1 }) k')) := by
  rw [Kmem.mapMmio, Option.bind_eq_some_iff] at h
  obtain ⟨⟨k₁, v₁, a⟩, halloc, h⟩ := h
  rw [Kmem.vmmAlloc] at halloc
  simp only at h
  by_cases ha : a = 0
  · rw [if_pos ha] at h
    obtain ⟨rfl, rfl, -⟩ : k₁ = k' ∧ v₁ = v' ∧ _ := by simpa using h
    exact ⟨k₁, a, _, halloc, .inl ⟨ha, rfl⟩⟩
  · rw [if_neg ha, Kmem.mapDevice, Option.map_eq_some_iff] at h
    obtain ⟨⟨k₂, ok⟩, hmap, he⟩ := h
    obtain ⟨rfl, rfl, -⟩ : k₂ = k' ∧ v₁ = v' ∧ _ := by simpa using he
    exact ⟨k₁, a, _, halloc, .inr ⟨ha, mappages_sameRecords hmap⟩⟩

section Clean

variable {r r' : AreaRun} {L : List Nat}

/-- The rest of a chain of containers. -/
theorem follows_of_chain {k : Kmem} : ∀ {C : List Nat},
    List.IsChain (fun a b => k.containerNext a = b) C → (∀ c ∈ C, 0 < c) → EndsNull k C →
    Follows k (C.headD 0) C
  | [], _, _, _ => rfl
  | [c], _, hpos, hend => ⟨rfl, Nat.pos_iff_ne_zero.mp (hpos c List.mem_cons_self), hend c rfl⟩
  | c :: d :: C, hchain, hpos, hend => by
    rw [List.isChain_cons_cons] at hchain
    refine ⟨rfl, Nat.pos_iff_ne_zero.mp (hpos c List.mem_cons_self), ?_⟩
    rw [hchain.1]
    exact follows_of_chain hchain.2 (fun e he => hpos e (List.mem_cons_of_mem _ he))
      fun e he => hend e (by simpa using he)

theorem Clean.follows (h : Clean r L) : Follows r.k r.v.rootContainer r.containers := by
  have hc := h.linked.containers
  rw [hc.root]
  exact follows_of_chain hc.chain hc.pos h.ends

/-- The search of `vmm_free_area` for a record in no container ends at `NULL`. -/
theorem findContainer_foreign {k : Kmem} {a : Nat} : ∀ {C : List Nat} {c fuel : Nat},
    C.length < fuel → Follows k c C → (∀ c ∈ C, ¬InContainer c a) →
    k.findContainer a fuel c = some 0
  | [], c, fuel, hf, hc, _ => by
    cases fuel with
    | zero => exact absurd hf (Nat.lt_irrefl 0)
    | succ fuel => exact if_pos hc
  | d :: C, c, fuel, hf, ⟨hcd, hd, hC⟩, hin => by
    cases fuel with
    | zero => exact absurd hf (Nat.not_lt_zero _)
    | succ fuel =>
      have hnot : ¬(d ≤ a ∧ a ≤ d + areaSize * (itemPerContainer - 1)) :=
        hin d List.mem_cons_self
      rw [hcd, Kmem.findContainer, if_neg hd, if_neg hnot]
      exact findContainer_foreign (Nat.lt_of_succ_lt_succ hf) hC
        fun e he => hin e (List.mem_cons_of_mem _ he)

theorem Clean.foreign (h : Clean r L) {a : Nat} (ha : ∀ c ∈ r.containers, ¬InContainer c a) :
    r.k.vmmFreeArea r.v a = some (r.k, r.v, false) := by
  unfold Kmem.vmmFreeArea
  split
  · rfl
  · simp only [findContainer_foreign h.linked.containers.length_lt h.follows ha]

/-- `vmm_alloc_at` on clear memory. -/
theorem Clean.alloc (h : Clean r L) {base sz a : Nat} {flags : BitVec 8} {k : Kmem} {v : Vmm}
    (hfresh : Adds r.v base sz → NeedsContainer r.v →
      FreshContainer r.k r.containers r.k.kalloc.2)
    (hnext : Adds r.v base sz → r.ClearNext)
    (hrun : r.k.vmmAllocAt base r.v sz flags = some (k, v, a)) :
    (¬Adds r.v base sz ∧ k = r.k ∧ v = r.v ∧ a = 0) ∨
    (Adds r.v base sz ∧ a = nextSlot r.k r.v ∧ a ≠ 0 ∧ a ∉ L ∧ a ∉ r.mmio ∧
      Linked k v (r.grown base sz) (L ++ [a]) ∧ EndsNull k (r.grown base sz) ∧
      (∀ b, Slot r.v r.containers b ∨ b = a → Slot v (r.grown base sz) b) ∧
      ∀ b, (k.areas b).isMmio = (r.k.areas b).isMmio) := by
  by_cases hadds : Adds r.v base sz
  case neg => exact .inl ⟨hadds, vmmAllocAt_of_not_adds hadds hrun⟩
  case pos =>
    have hgrown : r.grown base sz = grownContainers r.v r.containers r.k.kalloc.2 := if_pos hadds
    obtain ⟨ha, ha0, hnew, hslots, hmmio, hend⟩ :=
      h.linked.containers.alloc_stale (hfresh hadds) hadds hrun
    rw [← hgrown] at hslots hend
    rcases h.linked.alloc (hfresh hadds) hrun with ⟨-, -, he⟩ | ⟨hlinked, -⟩
    · exact absurd he ha0
    · rw [← hgrown] at hlinked
      exact .inr ⟨hadds, ha, ha0, fun hL => hnew (h.linked.slots a hL),
        fun hm => hnew (h.slots a hm), hlinked, hend h.ends (hnext hadds), hslots, hmmio⟩

/-- Where a new area has been put behind the others, its `is_mmio` says whether `map_mmio` made it. -/
theorem Clean.push (h : Clean r L) {base sz a : Nat} {k k' : Kmem} {v : Vmm} {mmio : List Nat}
    (hL : a ∉ L) (hm : a ∉ r.mmio) (hlinked : Linked k v (r.grown base sz) (L ++ [a]))
    (hend : EndsNull k (r.grown base sz))
    (hslots : ∀ b, Slot r.v r.containers b ∨ b = a → Slot v (r.grown base sz) b)
    (hrec : ∀ b, (k'.areas b).next = (k.areas b).next ∧ (k'.areas b).prev = (k.areas b).prev)
    (hcont : k'.containerNext = k.containerNext)
    (hold : ∀ b, b ≠ a → (k'.areas b).isMmio = (r.k.areas b).isMmio)
    (hmmio : (mmio = r.mmio ∧ (k'.areas a).isMmio = 0) ∨
      (mmio = a :: r.mmio ∧ (k'.areas a).isMmio ≠ 0)) :
    Clean ⟨k', v, r.grown base sz, mmio⟩ (L ++ [a]) where
  linked := hlinked.congr (fun b _ => hrec b) fun c _ => congrFun hcont c
  ends := fun c hc => (congrFun hcont c).trans (hend c hc)
  slots := fun b hb => by
    rcases hmmio with ⟨rfl, -⟩ | ⟨rfl, -⟩
    · exact hslots b (.inl (h.slots b hb))
    · rcases List.mem_cons.mp hb with rfl | hb
      · exact hslots b (.inr rfl)
      · exact hslots b (.inl (h.slots b hb))
  mmio := fun b hb => by
    change (k'.areas b).isMmio ≠ 0 ↔ b ∈ mmio
    rcases List.mem_append.mp hb with hb | hb
    · have hba : b ≠ a := fun e => hL (e ▸ hb)
      rw [hold b hba, h.mmio b hb]
      rcases hmmio with ⟨rfl, -⟩ | ⟨rfl, -⟩
      · rfl
      · simp [hba]
    · rw [List.mem_singleton.mp hb]
      rcases hmmio with ⟨rfl, h0⟩ | ⟨rfl, h0⟩
      · exact iff_of_false (fun hne => hne h0) hm
      · exact iff_of_true h0 List.mem_cons_self

/-- `map_mmio` on clear memory. -/
theorem Clean.mmio_step (h : Clean r L) {physical sz addr : Nat} {writable : Bool} {k : Kmem}
    {v : Vmm} (hp : r.Promised (.mmio physical sz writable))
    (hc : Adds r.v 0 sz → r.ClearNext)
    (hrun : r.k.mapMmio r.v physical sz writable = some (k, v, addr)) :
    ∃ L', Clean ⟨k, v, r.grown 0 sz,
      if Adds r.v 0 sz then nextSlot r.k r.v :: r.mmio else r.mmio⟩ L' := by
  obtain ⟨k₁, a, flags, halloc, hcase⟩ := mapMmio_cases hrun
  rcases h.alloc hp hc halloc with
    ⟨hadds, hk, hv, ha⟩ | ⟨hadds, ha, ha0, hL, hm, hlinked, hend, hslots, hmmio⟩
  · obtain ⟨-, hk'⟩ := hcase.resolve_right fun hne => hne.1 ha
    refine ⟨L, ?_⟩
    rw [AreaRun.grown, if_neg hadds, if_neg hadds, hk', hk, hv]
    exact ⟨h.linked, h.ends, h.slots, h.mmio⟩
  · obtain ⟨-, hrec⟩ := hcase.resolve_left fun he => ha0 he.1
    rw [if_pos hadds, ← ha]
    have hother : ∀ b, b ≠ a → k.areas b = k₁.areas b := fun b hb => by
      rw [hrec.areas, Kmem.setArea]
      exact Function.update_of_ne hb _ _
    have hself : k.areas a = { k₁.areas a with isMmio := 1 } := by
      rw [hrec.areas, Kmem.setArea]
      exact Function.update_self _ _ _
    refine ⟨L ++ [a], h.push hL hm hlinked hend hslots (fun b => ?_) hrec.containers
      (fun b hb => ?_) (.inr ⟨rfl, ?_⟩)⟩
    · by_cases hb : b = a
      · rw [hb, hself]
        exact ⟨rfl, rfl⟩
      · rw [hother b hb]
        exact ⟨rfl, rfl⟩
    · rw [hother b hb, hmmio]
    · rw [hself]
      exact (by decide : (1 : BitVec 8) ≠ 0)

/-- `vmm_free_area` of a listed area, or of one that is in no container. -/
theorem Clean.free_step (h : Clean r L) {area : Nat} {k : Kmem} {v : Vmm} {ok : Bool}
    (hp : r.Promised (.free area)) (hrun : r.k.vmmFreeArea r.v area = some (k, v, ok)) :
    ∃ L', Clean { r with k, v } L' := by
  rcases hp with hlisted | hforeign
  · obtain ⟨L₁, L₂, rfl⟩ := List.append_of_mem (h.linked.mem_of_listed hlisted)
    rw [h.linked.freeArea, Option.map_eq_some_iff] at hrun
    obtain ⟨k₁, hunmap, he⟩ := hrun
    obtain ⟨rfl, rfl, -⟩ : k₁ = k ∧ (r.k.unlinkArea r.v area).2 = v ∧ _ := by simpa using he
    have hrec := unmappages_sameRecords hunmap
    obtain ⟨areas, heq, hsame⟩ := unlinkArea_eq r.k r.v area
    have hlinked := h.linked.unlink
    rw [heq] at hlinked hrec ⊢
    have hcont : ∀ c, k₁.containerNext c = r.k.containerNext c := fun c =>
      congrFun hrec.containers c
    have hareas : ∀ b, k₁.areas b = areas b := fun b => congrFun hrec.areas b
    refine ⟨L₁ ++ L₂, ⟨hlinked.congr (fun b _ => ?_) fun c _ => hcont c,
      fun c hcl => (hcont c).trans (h.ends c hcl), h.slots, fun b hb => ?_⟩⟩
    · rw [hareas]
      exact ⟨rfl, rfl⟩
    · change (k₁.areas b).isMmio ≠ 0 ↔ b ∈ r.mmio
      rw [hareas, (hsame b).2.2.1]
      refine h.mmio b ?_
      rcases List.mem_append.mp hb with hb | hb <;> simp [hb]
  · rw [h.foreign hforeign] at hrun
    obtain ⟨rfl, rfl, -⟩ : r.k = k ∧ r.v = v ∧ _ := by simpa using hrun
    exact ⟨L, h⟩

/-- **Every action on clear memory keeps the records clean.** -/
theorem Clean.step (h : Clean r L) {w : Window} {act : AreaAction} (hp : r.Promised act)
    (hc : r.Cleared w act)
    (hrun : r.step act = some r') : ∃ L', Clean r' L' := by
  cases act with
  | alloc base sz flags =>
    rw [AreaRun.step, Option.map_eq_some_iff] at hrun
    obtain ⟨⟨k, v, a⟩, he, rfl⟩ := hrun
    rcases h.alloc hp (fun hadds => (hc hadds).1) he with
      ⟨hadds, rfl, rfl, -⟩ | ⟨hadds, ha, ha0, hL, hm, hlinked, hend, hslots, hmmio⟩
    · refine ⟨L, ?_⟩
      rw [AreaRun.grown, if_neg hadds]
      exact ⟨h.linked, h.ends, h.slots, h.mmio⟩
    · refine ⟨L ++ [a], h.push hL hm hlinked hend hslots (fun _ => ⟨rfl, rfl⟩) rfl
        (fun b _ => hmmio b) (.inl ⟨rfl, ?_⟩)⟩
      rw [hmmio, ha]
      exact (hc hadds).2
  | mmio physical sz writable =>
    rw [AreaRun.step, Option.map_eq_some_iff] at hrun
    obtain ⟨⟨k, v, addr⟩, he, rfl⟩ := hrun
    exact h.mmio_step hp hc he
  | free area =>
    rw [AreaRun.step, Option.map_eq_some_iff] at hrun
    obtain ⟨⟨k, v, ok⟩, he, rfl⟩ := hrun
    exact h.free_step hp he
  | other k =>
    obtain rfl := Option.some.inj hrun
    obtain ⟨hareas, hnext⟩ := hp
    have hsame : ∀ a, Slot r.v r.containers a → k.areas a = r.k.areas a := fun a ha => by
      obtain ⟨c, hc, i, hi, rfl, -⟩ := ha
      exact hareas c hc i hi
    refine ⟨L, ⟨h.linked.congr (fun a ha => ?_) hnext, fun c hcl => ?_, h.slots, fun a ha => ?_⟩⟩
    · rw [hsame a (h.linked.slots a ha)]
      exact ⟨rfl, rfl⟩
    · exact (hnext c (List.mem_of_getLast? hcl)).trans (h.ends c hcl)
    · change (k.areas a).isMmio ≠ 0 ↔ a ∈ r.mmio
      rw [hsame a (h.linked.slots a ha)]
      exact h.mmio a ha

/-- `vmm_free_area` of a listed area. -/
theorem Clean.freeArea (h : Clean r L) {a : Nat} (ha : Listed r.k r.v a) :
    r.k.vmmFreeArea r.v a =
      ((r.k.unlinkArea r.v a).1.unmappages r.v.rootPagetable (r.k.areas a).start (r.k.areas a).size
        (decide (a ∉ r.mmio))).map fun k => (k, (r.k.unlinkArea r.v a).2, true) := by
  have hmem := h.linked.mem_of_listed ha
  have hmmio : decide ((r.k.areas a).isMmio = 0) = decide (a ∉ r.mmio) := by
    rw [decide_eq_decide, ← h.mmio a hmem, not_not]
  obtain ⟨L₁, L₂, rfl⟩ := List.append_of_mem hmem
  rw [h.linked.freeArea, hmmio]

theorem Clean.recordsClean (h : Clean r L) (w : Window) : RecordsClean w r where
  containers := h.follows
  foreign := fun _ ha => h.foreign ha
  mmio := fun a ha => h.mmio a (h.linked.mem_of_listed ha)
  freed := fun _ ha _ => h.freeArea ha
  given := fun a ha hm k' v' ok hrun => by
    rw [h.freeArea ha, Option.map_eq_some_iff] at hrun
    obtain ⟨k₁, hun, he⟩ := hrun
    obtain ⟨rfl, -⟩ := Prod.mk.inj he
    obtain ⟨areas, heq, -⟩ := unlinkArea_eq r.k r.v a
    rw [heq] at hun
    have hsame : GivesBack w (decide (a ∉ r.mmio)) r.k r.k := .refl r.k
    have hunlinked : GivesBack w (decide (a ∉ r.mmio)) r.k { r.k with areas } :=
      ⟨hsame.unmapped, hsame.pages⟩
    exact hunlinked.unmappages (fun hf => hm (of_decide_eq_true hf)) hun

/-- **The records stay clean on clear memory.** In every run from a new address space in which the
pages taken for containers hold 0 in `next`, the records `vmm_alloc_at` hands out hold 0 in `is_mmio`,
and areas whose pages are freed have descriptors with pages of the allocator only. -/
theorem vmm_records_clean {w : Window} {k : Kmem} {pagetable start stop : Nat} {user : Bool}
    (hstop : stop < u64Size)
    (hrun : Run AreaRun.step (fun r act => r.Promised act ∧ r.Cleared w act)
      ⟨k, vmmInit pagetable start stop user, [], []⟩ r) : RecordsClean w r := by
  have hinv : ∃ L, Clean r L := by
    refine hrun.invariant (fun r => ∃ L, Clean r L) ⟨[], ?_⟩ fun r act r' ⟨L, h⟩ hok he =>
      h.step hok.1 hok.2 he
    exact ⟨(AreaList.init hstop).linked, by simp [EndsNull], by simp, by simp⟩
  obtain ⟨L, h⟩ := hinv
  exact h.recordsClean w

end Clean

/-- An address space over a page that holds `next` and `is_mmio` where they would be. -/
def oneContainer (next : Nat) (isMmio : BitVec 8) : AreaRun where
  k :=
    { free := [0x5000], nxFlagEnabled := true, tables := fun _ _ => ⟨0⟩
      areas := fun _ => ⟨0, 0, 0, isMmio, 0, 0⟩, containerNext := fun _ => next }
  v := vmmInit 0x9000 0x400000 0x7fffff false
  containers := []
  mmio := []

theorem oneContainer_fresh (next : Nat) (isMmio : BitVec 8) :
    FreshContainer (oneContainer next isMmio).k [] 0x5000 :=
  ⟨⟨[], rfl⟩, by decide, by decide, by simp⟩

/-- A cleared page for the container, one for an area and three for its tables. -/
def clearedPages : AreaRun where
  k := { (oneContainer 0 0).k with free := [0x5000, 0x3000, 0x6000, 0x7000, 0x8000] }
  v := vmmInit 0x9000 0x400000 0x7fffff false
  containers := []
  mmio := []

/-- An area is faulted in, a device is mapped behind it, and the area is freed: where the records are,
what the descriptor of the area held, and the free pages at the end. -/
def faultMapFree : Option (List Nat × Option Nat × List Nat) :=
  (clearedPages.step (.alloc 0 4096 memoryFlagWrite)).bind fun r₁ =>
  (r₁.k.onDemandAllocation r₁.v 0x400000).bind fun (k, _) =>
  (AreaRun.step { r₁ with k } (.mmio 0xfee00000 4096 true)).bind fun r₂ =>
  (r₂.step (.free r₂.v.firstArea)).map fun r₃ =>
    ([r₁.v.rootContainer, r₁.v.currentIndex, r₂.v.firstArea,
        pageStart (r₂.k.areas r₂.v.firstArea).start, pageEnd (r₂.k.areaLast r₂.v.firstArea)],
      (r₂.k.walk r₂.v.rootPagetable 0x400000 false).2.map fun (t, i) => (r₂.k.tables t i).pdAddr,
      r₃.k.free)

theorem faultMapFree_eq : faultMapFree =
    some ([0xfffffe8000005000, 1, 0xfffffe8000005000, 0x400000, 0x400fff], some 3, [0x3000]) := by
  decide +kernel

/-- The whole of a page has one descriptor. -/
theorem walk_of_pageStart {x y : Nat} (h : pageStart x = pageStart y) (k : Kmem) (root : Nat)
    (alloc : Bool) : k.walk root x alloc = k.walk root y alloc := by
  have hpath := vaPath_of_pageStart h
  simp only [vaPath, List.cons.injEq, and_true] at hpath
  obtain ⟨h₃, h₂, h₁, h₀⟩ := hpath
  simp only [Kmem.walk, Kmem.walkFrom, h₃, h₂, h₁, h₀]

/-- An area of memory with its page, and an area of a device, on cleared pages; the first is freed. -/
theorem vmm_records_clean_cleared : ∃ r,
    Run AreaRun.step (fun r act => r.Promised act ∧ r.Cleared smallWindow act) clearedPages r ∧
      r.k.free = [0x3000] ∧ RecordsClean smallWindow r := by
  have heq := faultMapFree_eq
  unfold faultMapFree at heq
  obtain ⟨r₁, hr₁, heq⟩ := Option.bind_eq_some_iff.mp heq
  obtain ⟨⟨k, ok⟩, hk, heq⟩ := Option.bind_eq_some_iff.mp heq
  obtain ⟨r₂, hr₂, heq⟩ := Option.bind_eq_some_iff.mp heq
  obtain ⟨r₃, hr₃, heq⟩ := Option.map_eq_some_iff.mp heq
  simp only [Prod.mk.injEq, List.cons.injEq, and_true] at heq
  obtain ⟨⟨hroot, hindex, hfirst, hstart, hend⟩, hdescriptor, hfree⟩ := heq
  have hneeds : ¬NeedsContainer r₁.v := by
    rw [NeedsContainer, hroot, hindex]
    decide
  have hfresh : FreshContainer clearedPages.k [] 0x5000 := ⟨⟨_, rfl⟩, by decide, by decide, by simp⟩
  have hsame := onDemandAllocation_sameRecords hk
  have hmanaged : FreesManaged smallWindow r₂.k r₂.v.rootPagetable r₂.v.firstArea := by
    intro x hx t i hw
    rw [AreaPages, hstart, hend] at hx
    have hpage : pageStart x = pageStart 0x400000 :=
      (pageStart_eq_iff (by decide)).mpr ⟨hx.1, Nat.lt_succ_of_le hx.2⟩
    rw [walk_of_pageStart hpage] at hw
    rw [hw] at hdescriptor
    have haddr : (r₂.k.tables t i).pdAddr = 3 := Option.some.inj hdescriptor
    exact ⟨1, ⟨by decide, by decide⟩, by rw [haddr]; rfl⟩
  have hrun : Run AreaRun.step (fun r act => r.Promised act ∧ r.Cleared smallWindow act)
      clearedPages r₃ := by
    refine .step (.free r₂.v.firstArea) (.step (.mmio 0xfee00000 4096 true) (.step (.other k)
      (.step (.alloc 0 4096 memoryFlagWrite) .init ⟨fun _ _ => hfresh, fun _ => ⟨fun _ => rfl, rfl⟩⟩
        hr₁) ⟨⟨fun c _ i _ => ?_, fun c _ => ?_⟩, trivial⟩ rfl)
      ⟨fun _ hn => absurd hn hneeds, fun _ hn => absurd hn hneeds⟩ hr₂)
      ⟨.inl (.first ?_), fun _ _ => hmanaged⟩ hr₃
    · rw [hsame.areas]
    · rw [hsame.containers]
    · rw [hfirst]
      decide
  exact ⟨r₃, hrun, hfree, vmm_records_clean (by decide) hrun⟩

/-- One area on a page that was in use: the containers do not end, and the area looks like one of
`map_mmio`. -/
theorem stale_container :
    ∃ r, Run AreaRun.step AreaRun.Promised (oneContainer 0x1234 1) r ∧ ∀ w, ¬RecordsClean w r := by
  have hany : ((oneContainer 0x1234 1).step (.alloc 0 4096 memoryFlagWrite)).any fun r =>
      r.k.containerNext r.v.rootContainer = 0x1234 ∧ r.containers = [r.v.rootContainer] := by
    decide +kernel
  obtain ⟨r, hr, hp⟩ := (Option.any_eq_true _ _).mp hany
  obtain ⟨hnext, hcont⟩ := of_decide_eq_true hp
  refine ⟨r, .step (.alloc 0 4096 memoryFlagWrite) .init (fun _ _ => oneContainer_fresh _ _) hr,
    fun w h => ?_⟩
  have hfollows := h.containers
  rw [hcont] at hfollows
  obtain ⟨-, -, hend⟩ := hfollows
  rw [Follows, hnext] at hend
  exact absurd hend (by decide)

end Colibri.Memory

import Colibri.Memory.Vm.Map
import Colibri.Memory.Vmm
import Mathlib.Data.List.Perm.Subperm

/-!
# The list of areas

`AreaList k v C L`: the areas of the address space `v` are `L`, in this order, with records in the
containers `C`. The list is a ring whose head is `NULL`: what follows `NULL` is `first_area` and what
precedes it is `current_area`. `vmm_alloc_at` puts a new area last, `vmm_free_area` takes one out, and
`get_memory_area` finds the one with an address.

`current_addr` is never lowered by `vmm_free_area`. What survives is that it is not below the end of
any area (`AreaList.top`), which is all that the lookup's early exit and the next placement need.
-/

namespace Colibri.Memory

open Colibri.Lib

/-! ## Containers -/

/-- The containers of an address space. The last one's `next` is never written. -/
structure Containers (k : Kmem) (v : Vmm) (C : List Nat) : Prop where
  chain : List.IsChain (fun a b => k.containerNext a = b) C
  root : v.rootContainer = C.headD 0
  current : v.currentContainer = C.getLastD 0
  aligned : ∀ c ∈ C, c % 4096 = 0
  pos : ∀ c ∈ C, 0 < c
  lt : ∀ c ∈ C, c + 4096 ≤ u64Size
  nodup : C.Nodup
  index : v.currentIndex ≤ itemPerContainer

/-- A record that has been handed out. -/
def Slot (v : Vmm) (C : List Nat) (a : Nat) : Prop :=
  ∃ c ∈ C, ∃ i < itemPerContainer, a = c + areaSize * i ∧
    (c = v.currentContainer → i < v.currentIndex)

/-- `vmm_alloc_at` needs a container. -/
def NeedsContainer (v : Vmm) : Prop := v.currentIndex = itemPerContainer ∨ v.rootContainer = 0

instance (v : Vmm) : Decidable (NeedsContainer v) := inferInstanceAs (Decidable (_ ∨ _))

/-- The page that `kalloc` gives next can be a container: it is inside the mapped memory and not a
container already. -/
def FreshContainer (k : Kmem) (C : List Nat) (page : Nat) : Prop :=
  (∃ free, k.free = page :: free) ∧ page % 4096 = 0 ∧ page + physicalOffset + 4096 ≤ u64Size ∧
    physToVirt page ∉ C

theorem Slot.pos {k : Kmem} {v : Vmm} {C : List Nat} (hc : Containers k v C) {a : Nat}
    (h : Slot v C a) : 0 < a := by
  obtain ⟨c, hcC, i, -, rfl, -⟩ := h
  have := hc.pos c hcC
  omega

theorem Slot.lt {k : Kmem} {v : Vmm} {C : List Nat} (hc : Containers k v C) {a : Nat}
    (h : Slot v C a) : a < u64Size := by
  obtain ⟨c, hcC, i, hi, rfl, -⟩ := h
  have := hc.lt c hcC
  unfold areaSize
  unfold itemPerContainer at hi
  omega

theorem Containers.current_mem {k : Kmem} {v : Vmm} {C : List Nat} (hc : Containers k v C)
    (hC : C ≠ []) : v.currentContainer ∈ C := by
  rw [hc.current, List.getLastD_eq_getLast?, List.getLast?_eq_some_getLast hC]
  exact List.getLast_mem hC

/-- The next record of the current container is a new one. -/
theorem Containers.next_new {k : Kmem} {v : Vmm} {C : List Nat} (hc : Containers k v C)
    (hC : C ≠ []) (hi : v.currentIndex < itemPerContainer) :
    ¬ Slot v C (v.currentContainer + areaSize * v.currentIndex) := by
  rintro ⟨c, hcC, i, hi', he, himp⟩
  have hcur := hc.current_mem hC
  have h₁ := hc.aligned c hcC
  have h₂ := hc.aligned _ hcur
  unfold areaSize at he
  unfold itemPerContainer at hi hi'
  by_cases hcc : c = v.currentContainer
  · have := himp hcc
    omega
  · omega

theorem Containers.eq_nil_iff {k : Kmem} {v : Vmm} {C : List Nat} (hc : Containers k v C) :
    v.currentContainer = 0 ↔ C = [] := by
  constructor
  · intro h
    by_contra hne
    rw [hc.current, List.getLastD_eq_getLast?, List.getLast?_eq_some_getLast hne,
      Option.getD_some] at h
    have := hc.pos _ (List.getLast_mem hne)
    omega
  · rintro rfl
    exact hc.current

/-- **A new container** is put behind the others. -/
theorem Containers.push {k : Kmem} {v : Vmm} {C : List Nat} (hc : Containers k v C) {n : Nat}
    (hal : n % 4096 = 0) (hpos : 0 < n) (hlt : n + 4096 ≤ u64Size) (hnew : n ∉ C) (k' : Kmem)
    (hk : k'.containerNext = if v.currentContainer = 0 then k.containerNext else
      Function.update k.containerNext v.currentContainer n) :
    Containers k' { v with
      rootContainer := if v.currentContainer = 0 then n else v.rootContainer
      currentContainer := n
      currentIndex := 0 } (C ++ [n]) := by
  have hmem : ∀ {Q : Nat → Prop}, (∀ c ∈ C, Q c) → Q n → ∀ c ∈ C ++ [n], Q c := by
    intro Q hC hn c hcC
    rcases List.mem_append.mp hcC with h | h
    · exact hC c h
    · rw [List.mem_singleton.mp h]
      exact hn
  refine ⟨?_, ?_, ?_, hmem hc.aligned hal, hmem hc.pos hpos, hmem hc.lt hlt, ?_, Nat.zero_le _⟩
  · rcases List.eq_nil_or_concat C with rfl | ⟨B, c, rfl⟩
    · exact .singleton n
    · rw [List.concat_eq_append] at hc hnew ⊢
      have hcur : v.currentContainer = c := by
        rw [hc.current]
        simp
      have hne : v.currentContainer ≠ 0 := fun h => by simpa using hc.eq_nil_iff.mp h
      have hchain := hc.chain
      rw [if_neg hne, hcur] at hk
      rw [List.append_assoc, List.singleton_append, List.isChain_append_cons_cons]
      refine ⟨?_, ?_, .singleton n⟩
      · -- the writes are to the last container only
        have hnd := (List.nodup_append.mp hc.nodup).2.2
        refine nextChain_congr hchain fun a ha => ?_
        rw [List.dropLast_concat] at ha
        rw [hk, Function.update_of_ne (hnd a ha c (by simp))]
      · rw [hk, Function.update_self]
  · cases C with
    | nil => simp [hc.eq_nil_iff.mpr rfl]
    | cons c C =>
      have hne : v.currentContainer ≠ 0 := fun h => by simpa using hc.eq_nil_iff.mp h
      rw [if_neg hne, hc.root]
      rfl
  · simp
  · rw [List.nodup_append]
    refine ⟨hc.nodup, List.nodup_singleton _, fun a ha b hb => ?_⟩
    rw [List.mem_singleton.mp hb]
    exact fun e => hnew (e ▸ ha)

/-- The containers after `vmm_alloc_at` with the page `page`. -/
def grownContainers (v : Vmm) (C : List Nat) (page : Nat) : List Nat :=
  if NeedsContainer v then C ++ [physToVirt page] else C

theorem growContainers_spec {k : Kmem} {v : Vmm} {C : List Nat} {page : Nat}
    (hc : Containers k v C) (hfresh : NeedsContainer v → FreshContainer k C page) :
    ∃ k' v', k.growContainers v = (k', v') ∧ Containers k' v' (grownContainers v C page) ∧
      grownContainers v C page ≠ [] ∧ v'.currentIndex < itemPerContainer ∧
      (∀ a, Slot v C a → Slot v' (grownContainers v C page) a) ∧
      k'.areas = k.areas ∧ k'.tables = k.tables ∧ k'.nxFlagEnabled = k.nxFlagEnabled ∧
      (∃ rc cc ci, v' = { v with rootContainer := rc, currentContainer := cc, currentIndex := ci }) ∧
      k.free = (if NeedsContainer v then [page] else []) ++ k'.free := by
  unfold grownContainers Kmem.growContainers
  by_cases hn : NeedsContainer v
  · obtain ⟨⟨free, hfree⟩, hal, hlt, hnew⟩ := hfresh hn
    obtain ⟨n, hvirt⟩ : ∃ n, physToVirt page = n := ⟨_, rfl⟩
    have hnval : n = page + physicalOffset := by
      rw [← hvirt, physToVirt, u64Add_eq (by omega)]
    have hoff : 0 < physicalOffset := by decide
    have hoffm : physicalOffset % 4096 = 0 := by decide
    rw [hvirt] at hnew
    rw [if_pos hn, if_pos (show v.currentIndex = itemPerContainer ∨ v.rootContainer = 0 from hn),
      Kmem.kalloc_cons hfree]
    simp only [hvirt]
    have hslots : ∀ a, Slot v C a → ∀ v' : Vmm, v'.currentContainer = n → Slot v' (C ++ [n]) a := by
      rintro a ⟨c, hcC, i, hi, he, -⟩ v' hv'
      refine ⟨c, List.mem_append_left _ hcC, i, hi, he, fun hcv => ?_⟩
      rw [hcv, hv'] at hcC
      exact absurd hcC hnew
    by_cases hcur : v.currentContainer = 0
    · have hpush := hc.push (n := n) (by omega) (by omega) (by omega) hnew { k with free }
        (by rw [if_pos hcur])
      rw [if_pos hcur] at hpush
      rw [if_neg (not_not_intro hcur)]
      exact ⟨_, _, rfl, hpush, by simp, by simp [itemPerContainer], fun a ha => hslots a ha _ rfl,
        rfl, rfl, rfl, ⟨_, _, _, rfl⟩, by rw [if_pos hn]; exact hfree⟩
    · have hpush := hc.push (n := n) (by omega) (by omega) (by omega) hnew { k with
        free, containerNext := Function.update k.containerNext v.currentContainer n }
        (by rw [if_neg hcur])
      rw [if_neg hcur] at hpush
      rw [if_pos hcur]
      exact ⟨_, _, rfl, hpush, by simp, by simp [itemPerContainer], fun a ha => hslots a ha _ rfl,
        rfl, rfl, rfl, ⟨_, _, _, rfl⟩, by rw [if_pos hn]; exact hfree⟩
  · have hne : v.currentIndex ≠ itemPerContainer ∧ v.rootContainer ≠ 0 := not_or.mp hn
    have hlt : v.currentIndex < itemPerContainer := Nat.lt_of_le_of_ne hc.index hne.1
    have hC : C ≠ [] := by
      rintro rfl
      exact hne.2 hc.root
    rw [if_neg hn, if_neg (show ¬ (v.currentIndex = itemPerContainer ∨ v.rootContainer = 0) from hn)]
    exact ⟨k, v, rfl, hc, hC, hlt, fun a ha => ha, rfl, rfl, rfl, ⟨_, _, _, rfl⟩, by rw [if_neg hn]; rfl⟩

/-! ## The list -/

/-- What follows an area, or `NULL`. -/
def areaNext (k : Kmem) (v : Vmm) (a : Nat) : Nat := if a = 0 then v.firstArea else (k.areas a).next

/-- What precedes an area, or `NULL`. -/
def areaPrev (k : Kmem) (v : Vmm) (a : Nat) : Nat := if a = 0 then v.currentArea else (k.areas a).prev

/-- The first byte behind an area. -/
def areaEnd (k : Kmem) (a : Nat) : Nat := (k.areas a).start + (k.areas a).size

/-- The list of areas is `L`, wherever they lie. -/
structure Linked (k : Kmem) (v : Vmm) (C L : List Nat) : Prop where
  containers : Containers k v C
  ring : LinkRing (areaNext k v) (areaPrev k v) 0 L
  slots : ∀ a ∈ L, Slot v C a

/-- **The areas of `v` are `L`.** -/
structure AreaList (k : Kmem) (v : Vmm) (C L : List Nat) : Prop where
  containers : Containers k v C
  ring : LinkRing (areaNext k v) (areaPrev k v) 0 L
  slots : ∀ a ∈ L, Slot v C a
  aligned : ∀ a ∈ L, (k.areas a).start % 4096 = 0 ∧ (k.areas a).size % 4096 = 0
  pos : ∀ a ∈ L, 0 < (k.areas a).size
  sorted : L.Pairwise fun a b => areaEnd k a ≤ (k.areas b).start
  lower : ∀ a ∈ L, v.vmmDataStart ≤ (k.areas a).start
  upper : ∀ a ∈ L, areaEnd k a ≤ v.vmmDataEnd
  top : ∀ a ∈ L, areaEnd k a ≤ v.currentAddr + 1
  addr_mod : v.currentArea ≠ 0 → v.currentAddr % 4096 = 4095
  bounds : v.vmmDataStart % 4096 = 0 ∧ 0 < v.vmmDataStart ∧ v.vmmDataEnd % 4096 = 0
  data_lt : v.vmmDataEnd < u64Size
  addr_lt : v.currentAddr < u64Size

section

variable {k k' : Kmem} {v : Vmm} {C L : List Nat}

theorem AreaList.linked (h : AreaList k v C L) : Linked k v C L := ⟨h.containers, h.ring, h.slots⟩

theorem Linked.current_eq (h : Linked k v C L) : v.currentArea = L.getLastD 0 :=
  h.ring.prev_head

theorem Linked.first_eq (h : Linked k v C L) : v.firstArea = L.headD 0 :=
  h.ring.next_head

theorem Linked.current_mem (h : Linked k v C L) (hne : v.currentArea ≠ 0) : v.currentArea ∈ L := by
  have he := h.current_eq
  rcases List.eq_nil_or_concat L with rfl | ⟨B, a, rfl⟩
  · exact absurd he hne
  · rw [List.concat_eq_append] at he ⊢
    simp at he
    simp [he]

theorem Linked.zero_notMem (h : Linked k v C L) : 0 ∉ L := (List.nodup_cons.mp h.ring.nodup).1

theorem Linked.nil_of_current (h : Linked k v C L) (h0 : v.currentArea = 0) : L = [] := by
  have he := h.current_eq
  rcases List.eq_nil_or_concat L with rfl | ⟨B, a, rfl⟩
  · rfl
  · have hn := h.zero_notMem
    rw [List.concat_eq_append] at he hn
    rw [h0] at he
    simp at he
    exact absurd (by simp [he]) hn

/-- The list does not see writes to other parts of the records. -/
theorem Linked.congr (h : Linked k v C L)
    (ha : ∀ a ∈ L, (k'.areas a).next = (k.areas a).next ∧ (k'.areas a).prev = (k.areas a).prev)
    (hc : ∀ c ∈ C, k'.containerNext c = k.containerNext c) : Linked k' v C L := by
  refine ⟨⟨?_, h.containers.root, h.containers.current, h.containers.aligned, h.containers.pos,
    h.containers.lt, h.containers.nodup, h.containers.index⟩, ?_, h.slots⟩
  · exact nextChain_congr h.containers.chain fun c hcC => hc c (List.dropLast_subset C hcC)
  · refine h.ring.congr (fun a hL => ?_) fun a hL => ?_
    · unfold areaNext
      by_cases h0 : a = 0
      · rw [if_pos h0, if_pos h0]
      · rw [if_neg h0, if_neg h0, (ha a ((List.mem_cons.mp hL).resolve_left h0)).1]
    · unfold areaPrev
      by_cases h0 : a = 0
      · rw [if_pos h0, if_pos h0]
      · rw [if_neg h0, if_neg h0, (ha a ((List.mem_cons.mp hL).resolve_left h0)).2]

/-- The list does not see writes to other fields of its records. -/
theorem AreaList.congr_extent (h : AreaList k v C L)
    (ha : ∀ a ∈ L, (k'.areas a).start = (k.areas a).start ∧ (k'.areas a).size = (k.areas a).size ∧
      (k'.areas a).next = (k.areas a).next ∧ (k'.areas a).prev = (k.areas a).prev)
    (hc : ∀ c ∈ C, k'.containerNext c = k.containerNext c) : AreaList k' v C L := by
  have hend : ∀ a ∈ L, areaEnd k' a = areaEnd k a := fun a hL => by
    rw [areaEnd, areaEnd, (ha a hL).1, (ha a hL).2.1]
  have hl := h.linked.congr (fun a hL => (ha a hL).2.2) hc
  refine ⟨hl.containers, hl.ring, hl.slots, fun a hL => ?_, fun a hL => ?_, ?_, fun a hL => ?_,
    fun a hL => ?_, fun a hL => ?_, h.addr_mod, h.bounds, h.data_lt, h.addr_lt⟩
  · rw [(ha a hL).1, (ha a hL).2.1]
    exact h.aligned a hL
  · rw [(ha a hL).2.1]
    exact h.pos a hL
  · refine h.sorted.imp_of_mem fun {a b} hL hL' hab => ?_
    rw [hend a hL, (ha b hL').1]
    exact hab
  · rw [(ha a hL).1]
    exact h.lower a hL
  · rw [hend a hL]
    exact h.upper a hL
  · rw [hend a hL]
    exact h.top a hL

/-- The list does not see writes outside its records and containers. -/
theorem AreaList.congr (h : AreaList k v C L) (ha : ∀ a ∈ L, k'.areas a = k.areas a)
    (hc : ∀ c ∈ C, k'.containerNext c = k.containerNext c) : AreaList k' v C L :=
  h.congr_extent (fun a hL => by rw [ha a hL]; exact ⟨rfl, rfl, rfl, rfl⟩) hc

end

/-! ## `vmm_alloc_at` -/

/-- The record of a new area. -/
def newArea (k : Kmem) (v : Vmm) (found length : Nat) (flags : BitVec 8) : MemoryArea where
  start := found
  size := u64Add length 1
  flags := if v.userVmm then flags ||| memoryFlagUser else flags
  isMmio := (k.areas (v.currentContainer + areaSize * v.currentIndex)).isMmio
  next := 0
  prev := v.currentArea

/-- **A new area at the end of the list**: what `addArea` does to the records and to the vmm. -/
theorem addArea_eq (k : Kmem) (v : Vmm) (found length : Nat) (flags : BitVec 8) {n : Nat}
    (hn : n = v.currentContainer + areaSize * v.currentIndex) (hne : v.currentArea ≠ n) :
    ∃ areas, k.addArea v v.currentArea 0 found length flags =
      ({ k with areas }, { v with
          currentIndex := v.currentIndex + 1
          firstArea := if v.currentArea = 0 then n else v.firstArea
          currentArea := n
          currentAddr := u64Sub (u64Add found (u64Add length 1)) 1 }, n) ∧
      areas n = newArea k v found length flags ∧
      (v.currentArea ≠ 0 → areas v.currentArea = { k.areas v.currentArea with next := n }) ∧
      ∀ a, a ≠ n → a ≠ v.currentArea → areas a = k.areas a := by
  unfold Kmem.addArea
  rw [← hn]
  by_cases h0 : v.currentArea = 0
  · simp only [h0, ne_eq, not_true_eq_false, if_false, if_true, Kmem.setArea, Kmem.areaLast,
      Function.update_self]
    refine ⟨_, rfl, ?_, fun h => h.elim, fun a ha _ => ?_⟩
    · rw [Function.update_self, newArea, ← hn, h0]
    · rw [Function.update_of_ne ha, Function.update_of_ne ha, Function.update_of_ne ha]
  · simp only [h0, ne_eq, not_true_eq_false, not_false_eq_true, if_false, if_true, Kmem.setArea,
      Kmem.areaLast, Function.update_self, Function.update_of_ne (Ne.symm hne),
      Function.update_of_ne hne]
    refine ⟨_, rfl, ?_, fun _ => ?_, fun a ha ha' => ?_⟩
    · rw [Function.update_of_ne (Ne.symm hne), Function.update_self, newArea, ← hn]
    · rw [Function.update_self]
    · rw [Function.update_of_ne ha', Function.update_of_ne ha, Function.update_of_ne ha,
        Function.update_of_ne ha]

/-- **What `vmm_alloc_at` can do**: nothing, or a new area behind the last one. -/
theorem vmmAllocAt_cases {k k' : Kmem} {v v' : Vmm} {base sz a : Nat} {flags : BitVec 8}
    (h : k.vmmAllocAt base v sz flags = some (k', v', a)) :
    (k' = k ∧ v' = v ∧ a = 0) ∨
    (Kmem.place v base ≠ 0 ∧ u64Add (Kmem.place v base) (Kmem.areaLength sz) ≤ v.vmmDataEnd ∧
      ∀ k₁ v₁, k.growContainers v = (k₁, v₁) → k₁.addArea v₁ v₁.currentArea 0 (Kmem.place v base)
        (Kmem.areaLength sz) flags = (k', v', a)) := by
  unfold Kmem.vmmAllocAt at h
  by_cases hhigh : u64Add (Kmem.place v base) (Kmem.areaLength sz) > v.vmmDataEnd
  · simp only [hhigh, if_true] at h
    cases hg : k.gapLoop v (pageStart base) (Kmem.areaLength sz) (Kmem.place v base) u64Size 0
        v.firstArea with
    | none => simp [hg] at h
    | some r =>
      simp only [hg, Option.some.injEq, Prod.mk.injEq] at h
      exact .inl ⟨h.1.symm, h.2.1.symm, h.2.2.symm⟩
  · simp only [hhigh, if_false] at h
    by_cases h0 : Kmem.place v base = 0
    · simp only [h0, if_true, Option.some.injEq, Prod.mk.injEq] at h
      exact .inl ⟨h.1.symm, h.2.1.symm, h.2.2.symm⟩
    · simp only [h0, if_false, Option.some.injEq] at h
      refine .inr ⟨h0, Nat.le_of_not_gt hhigh, fun k₁ v₁ hg => ?_⟩
      rw [hg] at h
      exact h

/-- The bounds and the last address of `v'` are those of `v`. -/
structure SameSpace (v v' : Vmm) : Prop where
  dataStart : v'.vmmDataStart = v.vmmDataStart
  dataEnd : v'.vmmDataEnd = v.vmmDataEnd
  addr : v'.currentAddr = v.currentAddr

theorem growContainers_sameSpace {k k' : Kmem} {v v' : Vmm} (h : k.growContainers v = (k', v')) :
    SameSpace v v' ∧ v'.currentArea = v.currentArea := by
  unfold Kmem.growContainers at h
  simp only at h
  split_ifs at h <;> obtain ⟨-, rfl⟩ := Prod.mk.inj h <;> exact ⟨⟨rfl, rfl, rfl⟩, rfl⟩

/-- **The new area**, wherever its record is. -/
theorem addArea_extent {k k' : Kmem} {v v' : Vmm} {found length a : Nat} {flags : BitVec 8}
    (h : k.addArea v v.currentArea 0 found length flags = (k', v', a)) :
    (k'.areas a).start = found ∧ (k'.areas a).size = u64Add length 1 ∧
      v'.vmmDataStart = v.vmmDataStart ∧ v'.vmmDataEnd = v.vmmDataEnd ∧
      v'.currentAddr = u64Sub (u64Add found (u64Add length 1)) 1 := by
  obtain ⟨n, hn⟩ : ∃ n, n = v.currentContainer + areaSize * v.currentIndex := ⟨_, rfl⟩
  unfold Kmem.addArea at h
  rw [← hn] at h
  by_cases h0 : v.currentArea = 0
  · simp only [h0, ne_eq, not_true_eq_false, if_false, if_true, Kmem.setArea, Kmem.areaLast,
      Function.update_self, Prod.mk.injEq] at h
    obtain ⟨rfl, rfl, rfl⟩ := h
    refine ⟨?_, ?_, rfl, rfl, rfl⟩ <;> simp only [Function.update_self]
  · by_cases hc : v.currentArea = n
    · -- the record of the current area is used again
      simp only [hc ▸ h0, hc, ne_eq, not_true_eq_false, not_false_eq_true, if_false, if_true,
        Kmem.setArea, Kmem.areaLast, Function.update_self, Prod.mk.injEq] at h
      obtain ⟨rfl, rfl, rfl⟩ := h
      refine ⟨?_, ?_, rfl, rfl, rfl⟩ <;> simp only [Function.update_self]
    · simp only [h0, ne_eq, not_true_eq_false, not_false_eq_true, if_false, if_true, Kmem.setArea,
        Kmem.areaLast, Function.update_self, Function.update_of_ne (Ne.symm hc),
        Prod.mk.injEq] at h
      obtain ⟨rfl, rfl, rfl⟩ := h
      refine ⟨?_, ?_, rfl, rfl, rfl⟩ <;>
        simp only [Function.update_of_ne (Ne.symm hc), Function.update_self]

/-- **What `vmm_alloc_at` does to the address space**, whatever the request. -/
theorem vmmAllocAt_extent {k k' : Kmem} {v v' : Vmm} {base sz a : Nat} {flags : BitVec 8}
    (h : k.vmmAllocAt base v sz flags = some (k', v', a)) :
    (v' = v ∧ a = 0) ∨
    (Kmem.place v base ≠ 0 ∧ u64Add (Kmem.place v base) (Kmem.areaLength sz) ≤ v.vmmDataEnd ∧
      (k'.areas a).start = Kmem.place v base ∧ (k'.areas a).size = u64Add (Kmem.areaLength sz) 1 ∧
      v'.vmmDataStart = v.vmmDataStart ∧ v'.vmmDataEnd = v.vmmDataEnd ∧
      v'.currentAddr = u64Sub (u64Add (Kmem.place v base) (u64Add (Kmem.areaLength sz) 1)) 1) := by
  rcases vmmAllocAt_cases h with ⟨-, hv, ha⟩ | ⟨hne, hle, hadd⟩
  · exact .inl ⟨hv, ha⟩
  · obtain ⟨k₁, v₁, hg⟩ : ∃ k₁ v₁, k.growContainers v = (k₁, v₁) := ⟨_, _, rfl⟩
    obtain ⟨hsame, -⟩ := growContainers_sameSpace hg
    obtain ⟨hstart, hsize, hds, hde, haddr⟩ := addArea_extent (hadd k₁ v₁ hg)
    exact .inr ⟨hne, hle, hstart, hsize, hds.trans hsame.dataStart, hde.trans hsame.dataEnd, haddr⟩

/-- What `vmm_alloc_at` leaves alone: the tables, and all free pages but the first ones. -/
structure KeepsTables (k : Kmem) (v : Vmm) (k' : Kmem) (v' : Vmm) : Prop where
  tables : k'.tables = k.tables
  nx : k'.nxFlagEnabled = k.nxFlagEnabled
  free : k'.free <:+ k.free
  root : v'.rootPagetable = v.rootPagetable

theorem growContainers_keepsTables {k k' : Kmem} {v v' : Vmm}
    (h : k.growContainers v = (k', v')) : KeepsTables k v k' v' := by
  obtain ⟨ht, hn⟩ := kalloc_tables k
  have hf := kalloc_suffix k
  unfold Kmem.growContainers at h
  simp only at h
  split_ifs at h <;> obtain ⟨rfl, rfl⟩ := Prod.mk.inj h
  · exact ⟨ht, hn, hf, rfl⟩
  · exact ⟨ht, hn, hf, rfl⟩
  · exact ⟨rfl, rfl, List.suffix_rfl, rfl⟩

theorem addArea_keepsTables {k k' : Kmem} {v v' : Vmm} {prev cur found length a : Nat}
    {flags : BitVec 8} (h : k.addArea v prev cur found length flags = (k', v', a)) :
    KeepsTables k v k' v' := by
  unfold Kmem.addArea at h
  simp only [Prod.mk.injEq] at h
  obtain ⟨rfl, rfl, -⟩ := h
  constructor
  · simp only [apply_ite Kmem.tables, Kmem.setArea_tables, ite_self]
  · simp only [apply_ite Kmem.nxFlagEnabled, Kmem.setArea_nxFlagEnabled, ite_self]
  · simp only [apply_ite Kmem.free, Kmem.setArea_free, ite_self, List.suffix_rfl]
  · simp only [apply_ite Vmm.rootPagetable, ite_self]

theorem vmmAllocAt_keepsTables {k k' : Kmem} {v v' : Vmm} {base sz a : Nat} {flags : BitVec 8}
    (h : k.vmmAllocAt base v sz flags = some (k', v', a)) : KeepsTables k v k' v' := by
  rcases vmmAllocAt_cases h with ⟨rfl, rfl, -⟩ | ⟨-, -, hadd⟩
  · exact ⟨rfl, rfl, List.suffix_rfl, rfl⟩
  · obtain ⟨k₁, v₁, hg⟩ : ∃ k₁ v₁, k.growContainers v = (k₁, v₁) := ⟨_, _, rfl⟩
    have h₁ := growContainers_keepsTables hg
    have h₂ := addArea_keepsTables (hadd k₁ v₁ hg)
    exact ⟨h₂.tables.trans h₁.tables, h₂.nx.trans h₁.nx, h₂.free.trans h₁.free,
      h₂.root.trans h₁.root⟩

/-- The current top address: the last byte handed out, or the start of the data if nothing is listed. -/
def topAddr (v : Vmm) : Nat := if v.currentArea = 0 then v.vmmDataStart else v.currentAddr

/-- `vmm_alloc_at` computes with addresses below `2 ^ 64`: neither the base nor the top address,
with the rounded size added, wraps. -/
def NoWrap (v : Vmm) (base sz : Nat) : Prop :=
  1 ≤ sz ∧ base + (pageStart (sz - 1) + 4096) < u64Size ∧
    topAddr v + (pageStart (sz - 1) + 4096) < u64Size

instance (v : Vmm) (base sz : Nat) : Decidable (NoWrap v base sz) :=
  inferInstanceAs (Decidable (_ ∧ _ ∧ _))

theorem areaLength_eq {sz : Nat} (h₁ : 1 ≤ sz) (h₂ : sz ≤ u64Size) :
    Kmem.areaLength sz = pageStart (sz - 1) + 4095 := by
  have hlt : u64Sub sz 1 = sz - 1 := by
    rcases Nat.lt_or_ge sz u64Size with h | h
    · exact u64Sub_eq h₁ h
    · obtain rfl : sz = u64Size := by omega
      rw [u64Sub, Nat.add_mod_left, Nat.mod_eq_of_lt (by omega)]
  rw [Kmem.areaLength, hlt, pageEnd_eq (by omega)]

/-- The end of a new area at `P` of the rounded size `R + 4096`, below the aligned end `E`. -/
theorem place_arith {P R E : Nat} (hP : P % 4096 = 0) (hR : R % 4096 = 0) (hE : E % 4096 = 0)
    (hlt : E < u64Size) (hpos : 0 < P) (h : P + (R + 4096) ≤ u64Size)
    (hh : u64Add P (R + 4095) ≤ E) :
    u64Add (R + 4095) 1 = R + 4096 ∧ P + R + 4096 ≤ E ∧
      u64Sub (u64Add P (u64Add (R + 4095) 1)) 1 = P + R + 4095 := by
  -- one association throughout: the sums differ by literals that are not to be unfolded
  rw [← Nat.add_assoc] at h
  have hlt₁ : P + (R + 4095) < u64Size := by
    rw [← Nat.add_assoc]
    omega
  rw [u64Add_eq hlt₁, ← Nat.add_assoc] at hh
  have hend : P + R + 4096 ≤ E := le_of_aligned (by omega) hE hh
  have hlt₂ : P + R + 4096 < u64Size := Nat.lt_of_le_of_lt hend hlt
  have hlt₃ : R + 4095 + 1 < u64Size :=
    Nat.lt_of_le_of_lt (Nat.add_le_add_right (Nat.le_add_left R P) 4096) hlt₂
  rw [Nat.add_assoc] at hlt₂
  refine ⟨u64Add_eq hlt₃, hend, ?_⟩
  rw [u64Add_eq hlt₃, u64Add_eq hlt₂, u64Sub_eq (by omega) hlt₂, ← Nat.add_assoc]
  rfl

section

variable {k k' : Kmem} {v v' : Vmm} {C L : List Nat} {base sz : Nat} {flags : BitVec 8}

theorem NoWrap.length (h : NoWrap v base sz) : Kmem.areaLength sz = pageStart (sz - 1) + 4095 := by
  obtain ⟨h₁, h₂, -⟩ := h
  have h₃ : sz - 1 < pageStart (sz - 1) + 4096 := by
    rw [pageStart, pageSize_eq]
    omega
  exact areaLength_eq h₁ (by omega)

/-- The place of a new area: behind all areas, aligned, not before the data start. -/
theorem AreaList.place (h : AreaList k v C L) (hw : NoWrap v base sz) :
    v.vmmDataStart ≤ Kmem.place v base ∧ Kmem.place v base % 4096 = 0 ∧
      pageStart base ≤ Kmem.place v base ∧
      Kmem.place v base + (pageStart (sz - 1) + 4096) ≤ u64Size ∧
      ∀ a ∈ L, areaEnd k a ≤ Kmem.place v base := by
  obtain ⟨h₁, h₂, h₃⟩ := hw
  have hb := pageStart_le base
  have hbm := pageStart_mod base
  obtain ⟨R, hR⟩ : ∃ R, R = pageStart (sz - 1) + 4096 := ⟨_, rfl⟩
  have hRpos : 4096 ≤ R := hR ▸ Nat.le_add_left _ _
  obtain ⟨B, hB⟩ : ∃ B, B = pageStart base := ⟨_, rfl⟩
  rw [← hR] at h₂ h₃
  rw [← hB] at hb hbm
  unfold Kmem.place
  rw [← hR, ← hB]
  have hlow : v.vmmDataStart ≤ Kmem.lowBound v ∧ Kmem.lowBound v % 4096 = 0 ∧
      Kmem.lowBound v + R ≤ u64Size ∧ ∀ a ∈ L, areaEnd k a ≤ Kmem.lowBound v := by
    unfold topAddr at h₃
    unfold Kmem.lowBound
    by_cases h0 : v.currentArea = 0
    · obtain rfl := h.linked.nil_of_current h0
      rw [if_pos h0] at h₃ ⊢
      exact ⟨Nat.le_refl _, h.bounds.1, by omega, by simp⟩
    · have hmod := h.addr_mod h0
      have hstart : pageStart v.currentAddr = v.currentAddr - 4095 := by
        rw [pageStart, pageSize_eq, hmod]
      have hend : u64Add (pageEnd v.currentAddr) 1 = v.currentAddr + 1 := by
        rw [if_neg h0] at h₃
        rw [pageEnd_eq h.addr_lt, hstart, u64Add_eq (by omega)]
        omega
      rw [if_neg h0] at h₃ ⊢
      rw [hend]
      refine ⟨?_, by omega, by omega, h.top⟩
      have hm := h.linked.current_mem h0
      have h₄ := h.lower _ hm
      have h₅ := h.top _ hm
      have h₆ := h.pos _ hm
      unfold areaEnd at h₅
      omega
  obtain ⟨hl₁, hl₂, hl₃, hl₄⟩ := hlow
  split
  · exact ⟨by omega, hbm, Nat.le_refl _, by omega, fun a ha => by
      have := hl₄ a ha
      omega⟩
  · exact ⟨hl₁, hl₂, by omega, hl₃, hl₄⟩

/-- What an allocation leaves of the records of other areas. -/
def SameExtent (k k' : Kmem) (b : Nat) : Prop :=
  (k'.areas b).start = (k.areas b).start ∧ (k'.areas b).size = (k.areas b).size ∧
    (k'.areas b).isMmio = (k.areas b).isMmio

/-- **`vmm_alloc_at`** puts a new record behind all others, or does nothing. -/
theorem Linked.alloc {page a : Nat} (h : Linked k v C L)
    (hfresh : NeedsContainer v → FreshContainer k C page)
    (hrun : k.vmmAllocAt base v sz flags = some (k', v', a)) :
    (k' = k ∧ v' = v ∧ a = 0) ∨
    (Linked k' v' (grownContainers v C page) (L ++ [a]) ∧ (∀ b ∈ L, SameExtent k k' b) ∧
      k'.tables = k.tables ∧ k.free = (if NeedsContainer v then [page] else []) ++ k'.free) := by
  rcases vmmAllocAt_cases hrun with hsame | ⟨-, -, hadd⟩
  · exact .inl hsame
  right
  obtain ⟨k₁, v₁, hg, hc, hC, hidx, hslots, hareas, htables, -, ⟨rc, cc, ci, rfl⟩, hfree⟩ :=
    growContainers_spec h.containers hfresh
  obtain ⟨n, hn⟩ : ∃ n, n = cc + areaSize * ci := ⟨_, rfl⟩
  have hnew : ¬ Slot _ (grownContainers v C page) n := hn ▸ hc.next_new hC hidx
  have hnL : ∀ b ∈ L, b ≠ n := fun b hb e => hnew (e ▸ hslots b (h.slots b hb))
  have hn0 : n ≠ 0 := by
    have hpos := hc.pos cc (hc.current_mem hC)
    omega
  have hcur : v.currentArea ≠ n := by
    by_cases h0 : v.currentArea = 0
    · rw [h0]
      exact hn0.symm
    · exact hnL _ (h.current_mem h0)
  obtain ⟨areas, heq, hanew, haprev, harest⟩ := addArea_eq k₁ { v with
    rootContainer := rc, currentContainer := cc, currentIndex := ci } (Kmem.place v base)
    (Kmem.areaLength sz) flags hn hcur
  have hfin := hadd _ _ hg
  rw [heq] at hfin
  simp only [Prod.mk.injEq] at hfin
  obtain ⟨rfl, rfl, rfl⟩ := hfin
  have hnext : (areas n).next = 0 := by rw [hanew]; rfl
  have hprev : (areas n).prev = v.currentArea := by rw [hanew]; rfl
  have haprev : v.currentArea ≠ 0 → areas v.currentArea = { k₁.areas v.currentArea with next := n } :=
    haprev
  -- the records of the list keep all but one `next`
  have hsame : ∀ b ∈ L, SameExtent k { k₁ with areas } b ∧ (areas b).prev = (k.areas b).prev ∧
      (b ≠ v.currentArea → (areas b).next = (k.areas b).next) := by
    intro b hb
    change ((areas b).start = _ ∧ (areas b).size = _ ∧ (areas b).isMmio = _) ∧ _
    by_cases hbc : b = v.currentArea
    · have hb0 : v.currentArea ≠ 0 := fun h0 => h.zero_notMem (by rw [← h0, ← hbc]; exact hb)
      rw [hbc, haprev hb0, hareas]
      exact ⟨⟨rfl, rfl, rfl⟩, rfl, fun hne => absurd rfl hne⟩
    · rw [harest b (hnL b hb) hbc, hareas]
      exact ⟨⟨rfl, rfl, rfl⟩, rfl, fun _ => rfl⟩
  refine ⟨⟨⟨hc.chain, hc.root, hc.current, hc.aligned, hc.pos, hc.lt, hc.nodup, hidx⟩, ?_,
    fun b hb => ?_⟩, fun b hb => (hsame b hb).1, htables, hfree⟩
  · have hprev0 : areaPrev k v 0 = v.currentArea := if_pos rfl
    refine h.ring.insertBack ?_ ?_ ?_ ?_ ?_ ?_ ?_
    · rw [List.mem_cons, not_or]
      exact ⟨hn0, fun hm => hnL n hm rfl⟩
    · rw [hprev0]
      unfold areaNext
      by_cases h0 : v.currentArea = 0
      · rw [if_pos h0, if_pos h0]
      · rw [if_neg h0]
        exact congrArg MemoryArea.next (haprev h0)
    · unfold areaNext
      rw [if_neg hn0, hnext]
    · exact if_pos rfl
    · unfold areaPrev
      rw [if_neg hn0, hprev, if_pos rfl]
    · intro b hb hne
      rw [hprev0] at hne
      unfold areaNext
      by_cases h0 : b = 0
      · rw [if_pos h0, if_pos h0, if_neg fun hc0 => hne (h0.trans hc0.symm)]
      · rw [if_neg h0, if_neg h0]
        exact (hsame b ((List.mem_cons.mp hb).resolve_left h0)).2.2 hne
    · intro b hb h0
      unfold areaPrev
      rw [if_neg h0, if_neg h0]
      exact (hsame b ((List.mem_cons.mp hb).resolve_left h0)).2.1
  · rcases List.mem_append.mp hb with hb | hb
    · obtain ⟨c, hcC, i, hi, he, himp⟩ := hslots b (h.slots b hb)
      exact ⟨c, hcC, i, hi, he, fun hcc => Nat.lt_succ_of_lt (himp hcc)⟩
    · rw [List.mem_singleton.mp hb]
      exact ⟨cc, hc.current_mem hC, ci, hidx, hn, fun _ => Nat.lt_succ_self ci⟩

/-- **`vmm_alloc_at`** appends an area behind all others, or does nothing. -/
theorem AreaList.alloc {page a : Nat} (h : AreaList k v C L) (hw : NoWrap v base sz)
    (hfresh : NeedsContainer v → FreshContainer k C page)
    (hrun : k.vmmAllocAt base v sz flags = some (k', v', a)) :
    (k' = k ∧ v' = v ∧ a = 0) ∨
    (AreaList k' v' (grownContainers v C page) (L ++ [a]) ∧
      (k'.areas a).start = Kmem.place v base ∧
      (k'.areas a).size = pageStart (sz - 1) + 4096) := by
  rcases h.linked.alloc hfresh hrun with hsame | ⟨hl, hsame, -, -⟩
  · exact .inl hsame
  rcases vmmAllocAt_extent hrun with ⟨-, ha0⟩ | ⟨hpos, hle, hstart, hsize, hds, hde, haddr⟩
  · exact absurd (by simp [ha0]) hl.zero_notMem
  right
  obtain ⟨hp₁, hp₂, -, hp₃, hp₄⟩ := h.place hw
  have hlen := hw.length
  obtain ⟨P, hP⟩ : ∃ P, P = Kmem.place v base := ⟨_, rfl⟩
  obtain ⟨R, hR⟩ : ∃ R, R = pageStart (sz - 1) := ⟨_, rfl⟩
  have hRm : R % 4096 = 0 := hR ▸ pageStart_mod _
  rw [← hR] at hlen hp₃
  rw [← hP] at hp₁ hp₂ hp₃ hp₄
  rw [hlen, ← hP] at hle haddr
  rw [← hP] at hstart hpos
  rw [hlen] at hsize
  have hdata := h.bounds
  have hdlt := h.data_lt
  obtain ⟨hsum, hend, hlastAddr⟩ := place_arith hp₂ hRm hdata.2.2 hdlt (Nat.pos_of_ne_zero hpos) hp₃ hle
  rw [hlastAddr] at haddr
  rw [hsum] at hsize
  have hlast : areaEnd k' a = P + R + 4096 := by
    rw [areaEnd, hstart, hsize, Nat.add_assoc]
  have hends : ∀ b ∈ L, areaEnd k' b = areaEnd k b := by
    intro b hb
    rw [areaEnd, areaEnd, (hsame b hb).1, (hsame b hb).2.1]
  have hall : ∀ {Q : Nat → Prop}, (∀ b ∈ L, Q b) → Q a → ∀ b ∈ L ++ [a], Q b := by
    intro Q hL hq b hb
    rcases List.mem_append.mp hb with hb | hb
    · exact hL b hb
    · rw [List.mem_singleton.mp hb]
      exact hq
  rw [hstart, hsize, ← hP, ← hR]
  refine ⟨⟨hl.containers, hl.ring, hl.slots, hall (fun b hb => ?_) ?_, hall (fun b hb => ?_) ?_, ?_,
    hall (fun b hb => ?_) ?_, hall (fun b hb => ?_) ?_, hall (fun b hb => ?_) ?_, fun _ => ?_, ?_,
    ?_, ?_⟩, rfl, rfl⟩
  · rw [(hsame b hb).1, (hsame b hb).2.1]
    exact h.aligned b hb
  · rw [hstart, hsize]
    exact ⟨hp₂, by omega⟩
  · rw [(hsame b hb).2.1]
    exact h.pos b hb
  · rw [hsize]
    exact Nat.succ_pos _
  · rw [List.pairwise_append]
    refine ⟨h.sorted.imp_of_mem fun {b c} hb hcL hbc => ?_, List.pairwise_singleton _ _,
      fun b hb c hcn => ?_⟩
    · rw [hends b hb, (hsame c hcL).1]
      exact hbc
    · rw [List.mem_singleton.mp hcn, hends b hb, hstart]
      exact hp₄ b hb
  · rw [(hsame b hb).1, hds]
    exact h.lower b hb
  · rw [hstart, hds]
    exact hp₁
  · rw [hends b hb, hde]
    exact h.upper b hb
  · rw [hlast, hde]
    exact hend
  · rw [hends b hb, haddr]
    exact Nat.le_trans (hp₄ b hb) (Nat.le_trans (Nat.le_add_right P R) (Nat.le_add_right _ 4096))
  · rw [hlast, haddr]
  · rw [haddr]
    omega
  · rw [hds, hde]
    exact hdata
  · rw [hde]
    exact hdlt
  · rw [haddr]
    exact Nat.lt_of_lt_of_le (Nat.lt_succ_self _) (Nat.le_trans hend (Nat.le_of_lt hdlt))

end

/-! ## `unmappages` and the records -/

theorem unmapPage_areas (k : Kmem) (root : Nat) (free : Bool) (current : Nat) :
    (k.unmapPage root free current).areas = k.areas ∧
      (k.unmapPage root free current).containerNext = k.containerNext ∧
      (k.unmapPage root free current).nxFlagEnabled = k.nxFlagEnabled := by
  obtain ⟨hk, -, -⟩ := walk_lookup k root current
  unfold Kmem.unmapPage
  obtain ⟨k', d, hw⟩ : ∃ k' d, k.walk root current false = (k', d) := ⟨_, _, rfl⟩
  rw [hw] at hk ⊢
  obtain rfl : k' = k := hk
  cases d with
  | none => exact ⟨rfl, rfl, rfl⟩
  | some d =>
    obtain ⟨t, i⟩ := d
    cases free with
    | false => exact ⟨rfl, rfl, rfl⟩
    | true =>
      simp only [if_true, Kmem.setEntry, Kmem.kfree]
      split <;> exact ⟨rfl, rfl, rfl⟩

/-- **`unmappages`** leaves the records alone, and ends when its range ends below the last page. -/
theorem unmapLoop_areas {root stop : Nat} {free : Bool} (fuel : Nat) {k : Kmem} {current : Nat}
    (hf : stop < current + 4096 * fuel) (hlt : stop + 4096 < u64Size) :
    ∃ k', Kmem.unmapLoop root stop free (fuel + 1) k current = some k' ∧ k'.areas = k.areas ∧
      k'.containerNext = k.containerNext ∧ k'.nxFlagEnabled = k.nxFlagEnabled := by
  refine unmapLoop_rule hlt fuel hf (fun k' x _ _ hk' => ?_) ⟨rfl, rfl, rfl⟩
  obtain ⟨h₁, h₂, h₃⟩ := unmapPage_areas k' root free x
  exact ⟨h₁.trans hk'.1, h₂.trans hk'.2.1, h₃.trans hk'.2.2⟩

/-! ## `vmm_free_area` -/

section

variable {k : Kmem} {v : Vmm} {C L L₁ L₂ : List Nat} {a : Nat}

/-- There are fewer distinct pointers than addresses. -/
theorem length_lt_of_nodup {l : List Nat} (hnd : (0 :: l).Nodup) (hlt : ∀ b ∈ l, b < u64Size) :
    l.length < u64Size := by
  have hsub : 0 :: l ⊆ List.range u64Size := by
    intro b hb
    rw [List.mem_range]
    rcases List.mem_cons.mp hb with rfl | hb
    · exact u64Size_pos
    · exact hlt b hb
  have hle := (List.subperm_of_subset hnd hsub).length_le
  rwa [List.length_range, List.length_cons] at hle

theorem Linked.length_lt (h : Linked k v C L) : L.length < u64Size :=
  length_lt_of_nodup h.ring.nodup fun b hb => (h.slots b hb).lt h.containers

theorem Containers.length_lt (hc : Containers k v C) : C.length < u64Size := by
  refine length_lt_of_nodup (List.nodup_cons.mpr ⟨fun h0 => Nat.lt_irrefl 0 (hc.pos 0 h0), hc.nodup⟩)
    fun b hb => ?_
  have := hc.lt b hb
  omega

/-- The search of `vmm_free_area` ends at a container that has the record; it does not get behind the
last one, whose `next` is arbitrary. -/
theorem findContainer_spec : ∀ (C : List Nat) (fuel : Nat), C.length < fuel →
    List.IsChain (fun a b => k.containerNext a = b) C → (∀ c ∈ C, 0 < c) →
    (∃ c ∈ C, c ≤ a ∧ a ≤ c + areaSize * (itemPerContainer - 1)) →
    ∃ c, k.findContainer a fuel (C.headD 0) = some c ∧ c ≠ 0
  | [], _, _, _, _, h => by
    obtain ⟨c, hc, -⟩ := h
    exact absurd hc (by simp)
  | c :: C, fuel, hf, hchain, hpos, h => by
    cases fuel with
    | zero => simp at hf
    | succ fuel =>
      have hc0 : c ≠ 0 := Nat.pos_iff_ne_zero.mp (hpos c List.mem_cons_self)
      rw [List.headD_cons, Kmem.findContainer, if_neg hc0]
      by_cases hin : c ≤ a ∧ a ≤ c + areaSize * (itemPerContainer - 1)
      · rw [if_pos hin]
        exact ⟨c, rfl, hc0⟩
      · rw [if_neg hin]
        have hrest : ∃ c ∈ C, c ≤ a ∧ a ≤ c + areaSize * (itemPerContainer - 1) := by
          obtain ⟨d, hd, hda⟩ := h
          rcases List.mem_cons.mp hd with rfl | hd
          · exact absurd hda hin
          · exact ⟨d, hd, hda⟩
        have hlen : C.length < fuel := by simpa using hf
        cases C with
        | nil =>
          obtain ⟨d, hd, -⟩ := hrest
          exact absurd hd (by simp)
        | cons d C =>
          rw [List.isChain_cons_cons] at hchain
          rw [hchain.1]
          exact findContainer_spec (d :: C) fuel hlen hchain.2
            (fun e he => hpos e (List.mem_cons_of_mem _ he)) hrest

/-- A write through a pointer that may be `NULL`. -/
theorem ite_setArea (k : Kmem) (a : Nat) (f : MemoryArea → MemoryArea) :
    (if a ≠ 0 then k.setArea a f else k) = { k with
      areas := fun b => if b = a ∧ b ≠ 0 then f (k.areas b) else k.areas b } := by
  by_cases h0 : a = 0
  · subst h0
    have hareas : (fun b => if b = 0 ∧ b ≠ 0 then f (k.areas b) else k.areas b) = k.areas := by
      funext b
      exact if_neg fun h => h.2 h.1
    rw [if_neg (not_not_intro rfl), hareas]
  · have hareas : Function.update k.areas a (f (k.areas a)) =
        fun b => if b = a ∧ b ≠ 0 then f (k.areas b) else k.areas b := by
      funext b
      by_cases hb : b = a
      · subst hb
        rw [Function.update_self, if_pos ⟨rfl, h0⟩]
      · rw [Function.update_of_ne hb, if_neg fun h => hb h.1]
    rw [if_pos h0, Kmem.setArea, hareas]

/-- What taking an area out does to the records. -/
theorem unlinkArea_eq (k : Kmem) (v : Vmm) (a : Nat) :
    ∃ areas, k.unlinkArea v a = ({ k with areas }, { v with
        firstArea := if (k.areas a).prev = 0 then (k.areas a).next else v.firstArea
        currentArea := if (k.areas a).next = 0 then (k.areas a).prev else v.currentArea }) ∧
      ∀ b, (areas b).start = (k.areas b).start ∧ (areas b).size = (k.areas b).size ∧
        (areas b).isMmio = (k.areas b).isMmio ∧
        (areas b).next = (if b = (k.areas a).prev ∧ b ≠ 0 then (k.areas a).next else (k.areas b).next) ∧
        (areas b).prev = (if b = (k.areas a).next ∧ b ≠ 0 then (k.areas a).prev else (k.areas b).prev) := by
  have hfirst : ∀ (v : Vmm) (p q : Nat), (if p ≠ 0 then v else { v with firstArea := q }) =
      { v with firstArea := if p = 0 then q else v.firstArea } := by
    intro v p q
    by_cases hp : p = 0 <;> simp [hp]
  have hcurrent : ∀ (v : Vmm) (p q : Nat), (if q ≠ 0 then v else { v with currentArea := p }) =
      { v with currentArea := if q = 0 then p else v.currentArea } := by
    intro v p q
    by_cases hq : q = 0 <;> simp [hq]
  unfold Kmem.unlinkArea
  simp only [ite_setArea, hfirst, hcurrent]
  refine ⟨_, rfl, fun b => ?_⟩
  by_cases hp : b = (k.areas a).prev ∧ b ≠ 0 <;> by_cases hq : b = (k.areas a).next ∧ b ≠ 0
  · simp only [if_pos hp, if_pos hq, and_self]
  · simp only [if_pos hp, if_neg hq, and_self]
  · simp only [if_neg hp, if_pos hq, and_self]
  · simp only [if_neg hp, if_neg hq, and_self]

/-- **Taking a record out** leaves the list of the others. -/
theorem Linked.unlink (h : Linked k v C (L₁ ++ a :: L₂)) :
    Linked (k.unlinkArea v a).1 (k.unlinkArea v a).2 C (L₁ ++ L₂) := by
  have ha0 : a ≠ 0 := fun e => h.zero_notMem (by simp [e])
  obtain ⟨hprev, hnext⟩ := h.ring.neighbours
  unfold areaPrev at hprev
  unfold areaNext at hnext
  rw [if_neg ha0] at hprev hnext
  have hsub : (L₁ ++ L₂).Sublist (L₁ ++ a :: L₂) := by simp
  obtain ⟨areas, heq, hrec⟩ := unlinkArea_eq k v a
  rw [heq]
  refine ⟨⟨h.containers.chain, h.containers.root, h.containers.current, h.containers.aligned,
    h.containers.pos, h.containers.lt, h.containers.nodup, h.containers.index⟩, ?_,
    fun b hb => h.slots b (hsub.subset hb)⟩
  refine h.ring.unlink rfl rfl ?_ ?_ (fun b _ hb => ?_) fun b _ hb => ?_
  · rw [← hprev, ← hnext]
    unfold areaNext
    by_cases h0 : (k.areas a).prev = 0
    · rw [if_pos h0, if_pos h0]
    · rw [if_neg h0]
      exact ((hrec _).2.2.2.1).trans (if_pos ⟨rfl, h0⟩)
  · rw [← hprev, ← hnext]
    unfold areaPrev
    by_cases h0 : (k.areas a).next = 0
    · rw [if_pos h0, if_pos h0]
    · rw [if_neg h0]
      exact ((hrec _).2.2.2.2).trans (if_pos ⟨rfl, h0⟩)
  · rw [← hprev] at hb
    unfold areaNext
    by_cases h0 : b = 0
    · rw [if_pos h0, if_pos h0]
      exact if_neg fun hp => hb (h0.trans hp.symm)
    · rw [if_neg h0, if_neg h0]
      exact ((hrec b).2.2.2.1).trans (if_neg fun hp => hb hp.1)
  · rw [← hnext] at hb
    unfold areaPrev
    by_cases h0 : b = 0
    · rw [if_pos h0, if_pos h0]
      exact if_neg fun hp => hb (h0.trans hp.symm)
    · rw [if_neg h0, if_neg h0]
      exact ((hrec b).2.2.2.2).trans (if_neg fun hp => hb hp.1)

/-- **Taking an area out** leaves the list of the others. -/
theorem AreaList.unlink (h : AreaList k v C (L₁ ++ a :: L₂)) :
    AreaList (k.unlinkArea v a).1 (k.unlinkArea v a).2 C (L₁ ++ L₂) := by
  have hl := h.linked.unlink
  have hcur0 : v.currentArea ≠ 0 := fun h0 => by simpa using h.linked.nil_of_current h0
  have hsub : (L₁ ++ L₂).Sublist (L₁ ++ a :: L₂) := by simp
  obtain ⟨areas, heq, hrec⟩ := unlinkArea_eq k v a
  rw [heq] at hl ⊢
  have hend : ∀ b, areaEnd ({ k with areas } : Kmem) b = areaEnd k b := fun b => by
    rw [areaEnd, areaEnd, (hrec b).1, (hrec b).2.1]
  refine ⟨hl.containers, hl.ring, hl.slots, fun b hb => ?_, fun b hb => ?_, ?_, fun b hb => ?_,
    fun b hb => ?_, fun b hb => ?_, fun _ => h.addr_mod hcur0, h.bounds, h.data_lt, h.addr_lt⟩
  · rw [(hrec b).1, (hrec b).2.1]
    exact h.aligned b (hsub.subset hb)
  · rw [(hrec b).2.1]
    exact h.pos b (hsub.subset hb)
  · refine (h.sorted.sublist hsub).imp fun {b c} hbc => ?_
    rw [hend b, (hrec c).1]
    exact hbc
  · rw [(hrec b).1]
    exact h.lower b (hsub.subset hb)
  · rw [hend b]
    exact h.upper b (hsub.subset hb)
  · rw [hend b]
    exact h.top b (hsub.subset hb)

/-- The range that `vmm_free_area` unmaps ends with the area. -/
theorem AreaList.stop_eq (h : AreaList k v C L) (ha : a ∈ L) :
    pageEnd (u64Sub (u64Add (k.areas a).start (k.areas a).size) 1) = areaEnd k a - 1 ∧
      areaEnd k a + 4096 ≤ u64Size := by
  have h₁ := h.aligned a ha
  have h₂ := h.pos a ha
  have h₃ := h.upper a ha
  have h₄ := h.data_lt
  have h₅ := h.bounds.2.2
  have h₆ := u64Size_eq
  have hle : areaEnd k a + 4096 ≤ u64Size := by omega
  unfold areaEnd at h₃ hle ⊢
  have hlast : ((k.areas a).start + (k.areas a).size - 1) % 4096 = 4095 := by omega
  have hstart : pageStart ((k.areas a).start + (k.areas a).size - 1) =
      (k.areas a).start + (k.areas a).size - 1 - 4095 := by
    rw [pageStart, pageSize_eq, hlast]
  rw [u64Add_eq (by omega), u64Sub_eq (by omega) (by omega), pageEnd_eq (by omega), hstart]
  exact ⟨by omega, hle⟩

/-- **`vmm_free_area` of a listed area** takes its record out and unmaps its pages. -/
theorem Linked.freeArea (h : Linked k v C (L₁ ++ a :: L₂)) :
    k.vmmFreeArea v a = ((k.unlinkArea v a).1.unmappages v.rootPagetable (k.areas a).start
      (k.areas a).size (decide ((k.areas a).isMmio = 0))).map
        fun k' => (k', (k.unlinkArea v a).2, true) := by
  have ha0 : a ≠ 0 := fun e => h.zero_notMem (by simp [e])
  obtain ⟨c, hcC, i, hi, he, -⟩ := h.slots a (by simp)
  have hin : c ≤ a ∧ a ≤ c + areaSize * (itemPerContainer - 1) := by
    rw [he]
    unfold areaSize
    unfold itemPerContainer at hi ⊢
    omega
  obtain ⟨c', hfind, hc'⟩ := findContainer_spec (k := k) (a := a) C u64Size h.containers.length_lt
    h.containers.chain h.containers.pos ⟨c, hcC, hin⟩
  rw [← h.containers.root] at hfind
  obtain ⟨areas, heq, hrec⟩ := unlinkArea_eq k v a
  unfold Kmem.vmmFreeArea
  rw [if_neg ha0, hfind]
  cases c' with
  | zero => exact absurd rfl hc'
  | succ c' =>
    simp only [heq, (hrec a).1, (hrec a).2.1, (hrec a).2.2.1]

/-- **`vmm_free_area` of a listed area** takes it out of the list. -/
theorem AreaList.free (h : AreaList k v C (L₁ ++ a :: L₂)) :
    ∃ k' v', k.vmmFreeArea v a = some (k', v', true) ∧ AreaList k' v' C (L₁ ++ L₂) := by
  have hmem : a ∈ L₁ ++ a :: L₂ := by simp
  obtain ⟨hstop, hlt⟩ := h.stop_eq hmem
  have hpos := h.pos a hmem
  have hunlink := h.unlink
  have hge : 1 ≤ areaEnd k a := by
    unfold areaEnd
    omega
  obtain ⟨fuel, hfuel⟩ : ∃ fuel, u64Size = fuel + 1 := ⟨u64Size - 1, by omega⟩
  have hbound : areaEnd k a - 1 < pageStart (k.areas a).start + 4096 * fuel := by omega
  obtain ⟨k', hk', hareas, hconts, -⟩ := @unmapLoop_areas v.rootPagetable _
    (decide ((k.areas a).isMmio = 0)) fuel (k.unlinkArea v a).1 _ hbound (by omega)
  refine ⟨k', _, ?_, hunlink.congr (fun b _ => by rw [hareas]) fun c _ => by rw [hconts]⟩
  rw [h.linked.freeArea]
  unfold Kmem.unmappages
  rw [hstop, hfuel, hk']
  rfl

end

/-! ## `get_memory_area` -/

section

variable {k : Kmem} {v : Vmm} {C L : List Nat} {va : Nat}

/-- `va` is in the area. -/
def InArea (k : Kmem) (a va : Nat) : Prop := (k.areas a).start ≤ va ∧ va < areaEnd k a

instance (k : Kmem) (a va : Nat) : Decidable (InArea k a va) := inferInstanceAs (Decidable (_ ∧ _))

theorem Linked.next_eq (h : Linked k v C L) {L₁ L₂ : List Nat} {a : Nat}
    (he : L = L₁ ++ a :: L₂) : (k.areas a).next = L₂.headD 0 := by
  have ha0 : a ≠ 0 := fun e => h.zero_notMem (by simp [he, e])
  have hr := h.ring
  rw [he] at hr
  have := hr.neighbours.2
  rwa [areaNext, if_neg ha0] at this

/-- The loop goes along the list and stops at the first area with the address. -/
theorem AreaList.findArea (h : AreaList k v C L) : ∀ (L₂ L₁ : List Nat) (fuel : Nat),
    L = L₁ ++ L₂ → L₂.length < fuel →
    k.findArea va fuel (L₂.headD 0) = some ((L₂.find? fun a => InArea k a va).getD 0)
  | [], _, fuel, _, hf => by
    cases fuel with
    | zero => simp at hf
    | succ fuel => rfl
  | a :: L₂, L₁, fuel, he, hf => by
    cases fuel with
    | zero => simp at hf
    | succ fuel =>
      have hmem : a ∈ L := by simp [he]
      have ha0 : a ≠ 0 := fun e => h.linked.zero_notMem (e ▸ hmem)
      have hsum : u64Add (k.areas a).start (k.areas a).size = areaEnd k a :=
        u64Add_eq (Nat.lt_of_le_of_lt (h.upper a hmem) h.data_lt)
      have hnext : (k.areas a).next = L₂.headD 0 := h.linked.next_eq he
      rw [List.headD_cons, Kmem.findArea, if_neg ha0, hsum]
      by_cases hin : (k.areas a).start ≤ va ∧ va < areaEnd k a
      · have hd : decide (InArea k a va) = true := decide_eq_true hin
        rw [if_pos hin, List.find?_cons, hd, Option.getD_some]
      · have hd : decide (InArea k a va) = false := decide_eq_false hin
        rw [if_neg hin, List.find?_cons, hd, hnext]
        exact h.findArea L₂ (L₁ ++ [a]) fuel (by rw [he]; simp) (by simpa using hf)

/-- **`get_memory_area`** returns the area of the list that contains the address. -/
theorem AreaList.getMemoryArea (h : AreaList k v C L) (va : Nat) :
    k.getMemoryArea v va = some ((L.find? fun a => InArea k a va).getD 0) := by
  unfold Kmem.getMemoryArea
  by_cases hlt : v.currentAddr < va
  · have hnone : L.find? (fun a => InArea k a va) = none := by
      rw [List.find?_eq_none]
      intro a ha hin
      have h₁ := (of_decide_eq_true hin).2
      have h₂ := h.top a ha
      omega
    rw [if_pos hlt, hnone]
    rfl
  · rw [if_neg hlt, h.linked.first_eq]
    exact h.findArea L [] u64Size rfl h.linked.length_lt

/-- The search for a gap goes along the list and ends. -/
theorem Linked.gapLoop (h : Linked k v C L) (base length found : Nat) :
    ∀ (L₂ L₁ : List Nat) (fuel prev : Nat), L = L₁ ++ L₂ → L₂.length < fuel →
    ∃ r, k.gapLoop v base length found fuel prev (L₂.headD 0) = some r
  | [], _, fuel, prev, _, hf => by
    cases fuel with
    | zero => simp at hf
    | succ fuel => exact ⟨_, rfl⟩
  | a :: L₂, L₁, fuel, prev, he, hf => by
    cases fuel with
    | zero => simp at hf
    | succ fuel =>
      have hmem : a ∈ L := by simp [he]
      have ha0 : a ≠ 0 := fun e => h.zero_notMem (e ▸ hmem)
      have hnext : (k.areas a).next = L₂.headD 0 := h.next_eq he
      have ih := fun prev => h.gapLoop base length found L₂ (L₁ ++ [a]) fuel prev
        (by rw [he]; simp) (by simpa using hf)
      obtain ⟨low, hlow⟩ : ∃ low, low =
        if prev = 0 then v.vmmDataStart else u64Add (pageEnd (k.areaLast prev)) 1 := ⟨_, rfl⟩
      rw [List.headD_cons, Kmem.gapLoop, if_neg ha0, hnext]
      simp only [← hlow]
      split
      · exact ih a
      · split
        · exact ⟨_, rfl⟩
        · exact ih a

/-- `vmm_alloc_at` returns. -/
theorem Linked.returns (h : Linked k v C L) (base sz : Nat) (flags : BitVec 8) :
    ∃ r, k.vmmAllocAt base v sz flags = some r := by
  unfold Kmem.vmmAllocAt
  by_cases hhigh : u64Add (Kmem.place v base) (Kmem.areaLength sz) > v.vmmDataEnd
  · obtain ⟨r, hr⟩ := h.gapLoop (pageStart base) (Kmem.areaLength sz) (Kmem.place v base) L [] u64Size
      0 rfl h.length_lt
    simp only [hhigh, if_true, h.first_eq, hr]
    exact ⟨_, rfl⟩
  · simp only [hhigh, if_false]
    split
    · exact ⟨_, rfl⟩
    · exact ⟨_, rfl⟩

/-- No address is in two areas. -/
theorem AreaList.unique (h : AreaList k v C L) {a b : Nat} (ha : a ∈ L) (hb : b ∈ L)
    (hva : InArea k a va) (hvb : InArea k b va) : a = b := by
  obtain ⟨ha₁, ha₂⟩ := hva
  obtain ⟨hb₁, hb₂⟩ := hvb
  obtain ⟨L₁, L₂, rfl⟩ := List.append_of_mem ha
  have hsort := h.sorted
  rw [List.pairwise_append, List.pairwise_cons] at hsort
  rcases List.mem_append.mp hb with hb | hb
  · have := hsort.2.2 b hb a List.mem_cons_self
    omega
  · rcases List.mem_cons.mp hb with rfl | hb
    · rfl
    · have := hsort.2.1.1 b hb
      omega

/-- An address of an area leads to the area. -/
theorem AreaList.getMemoryArea_eq (h : AreaList k v C L) {a : Nat} (ha : a ∈ L)
    (hin : InArea k a va) : k.getMemoryArea v va = some a := by
  rw [h.getMemoryArea]
  cases hf : L.find? fun b => InArea k b va with
  | none => exact absurd (decide_eq_true hin) (List.find?_eq_none.mp hf a ha)
  | some b =>
    have hb : InArea k b va := by simpa using List.find?_some hf
    rw [Option.getD_some, h.unique (List.mem_of_find?_eq_some hf) ha hb hin]

end

/-! ## Runs -/

/-- The kernel's memory with one address space, and the pages that hold its records. -/
structure VmmRun where
  k : Kmem
  v : Vmm
  containers : List Nat

/-- An area that following `next` from `first_area` leads to. -/
inductive Listed (k : Kmem) (v : Vmm) : Nat → Prop
  | first (h : v.firstArea ≠ 0) : Listed k v v.firstArea
  | next {a : Nat} (h : Listed k v a) (hn : (k.areas a).next ≠ 0) : Listed k v (k.areas a).next

/-- One step: a `vmm_alloc_at` whose arithmetic does not wrap, with a page for the container if one
is needed; a `vmm_free_area` of a listed area; or anything that others do to memory other than these
records and containers. -/
inductive VmmStep : VmmRun → VmmRun → Prop
  | alloc {r : VmmRun} {k' : Kmem} {v' : Vmm} {base sz page a : Nat} {flags : BitVec 8}
      (hw : NoWrap r.v base sz) (hp : NeedsContainer r.v → FreshContainer r.k r.containers page)
      (h : r.k.vmmAllocAt base r.v sz flags = some (k', v', a)) :
      VmmStep r ⟨k', v', if a = 0 then r.containers else grownContainers r.v r.containers page⟩
  | free {r : VmmRun} {k' : Kmem} {v' : Vmm} {a : Nat} {b : Bool} (ha : Listed r.k r.v a)
      (h : r.k.vmmFreeArea r.v a = some (k', v', b)) : VmmStep r ⟨k', v', r.containers⟩
  | other {r : VmmRun} (k' : Kmem)
      (ha : ∀ c ∈ r.containers, ∀ i < itemPerContainer, k'.areas (c + areaSize * i) =
        r.k.areas (c + areaSize * i))
      (hc : ∀ c ∈ r.containers, k'.containerNext c = r.k.containerNext c) :
      VmmStep r ⟨k', r.v, r.containers⟩

/-- The runs from `r`. -/
inductive VmmReach (r : VmmRun) : VmmRun → Prop
  | refl : VmmReach r r
  | tail {r₁ r₂ : VmmRun} (h : VmmReach r r₁) (h' : VmmStep r₁ r₂) : VmmReach r r₂

theorem Linked.mem_of_listed {k : Kmem} {v : Vmm} {C L : List Nat} (h : Linked k v C L) {a : Nat}
    (ha : Listed k v a) : a ∈ L := by
  induction ha with
  | first h0 =>
    have he := h.first_eq
    cases L with
    | nil => exact absurd he h0
    | cons b L => rw [he]; exact List.mem_cons_self
  | @next a _ hn ih =>
    obtain ⟨L₁, L₂, rfl⟩ := List.append_of_mem ih
    have ha0 : a ≠ 0 := fun e => h.zero_notMem (e ▸ ih)
    have hnext := h.ring.neighbours.2
    rw [areaNext, if_neg ha0] at hnext
    rw [hnext] at hn ⊢
    cases L₂ with
    | nil => exact absurd rfl hn
    | cons b L₂ => simp

theorem AreaList.init {k : Kmem} {pagetable start stop : Nat} {user : Bool}
    (he : stop < u64Size) : AreaList k (vmmInit pagetable start stop user) [] [] := by
  have hmod := pageStart_mod start
  have hend := pageEnd_mod he
  have hlt := pageEnd_lt he
  have hstart : (vmmInit pagetable start stop user).vmmDataStart % 4096 = 0 ∧
      0 < (vmmInit pagetable start stop user).vmmDataStart := by
    unfold vmmInit
    by_cases h0 : pageStart start = 0
    · simp only [h0, if_true]
      exact ⟨rfl, by decide⟩
    · simp only [h0, if_false]
      exact ⟨hmod, Nat.pos_of_ne_zero h0⟩
  have hdata : (vmmInit pagetable start stop user).vmmDataEnd % 4096 = 0 := by
    have hsize := u64Size_eq
    change u64Add (pageEnd stop) 1 % 4096 = 0
    rcases Nat.lt_or_ge (pageEnd stop + 1) u64Size with h | h
    · rw [u64Add_eq h]
      omega
    · have : pageEnd stop + 1 = u64Size := by omega
      rw [u64Add, this, Nat.mod_self]
  refine ⟨⟨.nil, rfl, rfl, by simp, by simp, by simp, by simp, by simp [vmmInit]⟩,
    ring_nil_iff.mpr ⟨rfl, rfl⟩, by simp, by simp, by simp, by simp, by simp, by simp, by simp,
    fun h => absurd rfl h, ⟨hstart.1, hstart.2, hdata⟩, u64Add_lt _ _, u64Size_pos⟩

/-- **Every step keeps the list.** -/
theorem AreaList.step {r r' : VmmRun} {L : List Nat} (h : AreaList r.k r.v r.containers L)
    (hstep : VmmStep r r') : ∃ L', AreaList r'.k r'.v r'.containers L' := by
  cases hstep with
  | @alloc k' v' base sz page a flags hw hp hrun =>
    rcases h.alloc hw hp hrun with ⟨rfl, rfl, rfl⟩ | ⟨hnew, -⟩
    · exact ⟨L, by simpa using h⟩
    · have ha0 : a ≠ 0 := fun e => hnew.linked.zero_notMem (by simp [e])
      refine ⟨L ++ [a], ?_⟩
      rw [if_neg ha0]
      exact hnew
  | @free k' v' a b ha hrun =>
    obtain ⟨L₁, L₂, rfl⟩ := List.append_of_mem (h.linked.mem_of_listed ha)
    obtain ⟨k'', v'', hrun', hnew⟩ := h.free
    obtain ⟨rfl, rfl, -⟩ : k'' = k' ∧ v'' = v' ∧ true = b := by simpa [hrun'] using hrun
    exact ⟨L₁ ++ L₂, hnew⟩
  | other k' ha hc =>
    refine ⟨L, h.congr (fun a haL => ?_) hc⟩
    obtain ⟨c, hcC, i, hi, rfl, -⟩ := h.slots a haL
    exact ha c hcC i hi

theorem AreaList.reach {r r' : VmmRun} {L : List Nat} (h : AreaList r.k r.v r.containers L)
    (hreach : VmmReach r r') : ∃ L', AreaList r'.k r'.v r'.containers L' := by
  induction hreach with
  | refl => exact ⟨L, h⟩
  | tail _ hstep ih =>
    obtain ⟨L₁, h₁⟩ := ih
    exact h₁.step hstep

/-- What the address space promises in a state: its areas are `L`. -/
structure WellListed (k : Kmem) (v : Vmm) (C L : List Nat) : Prop where
  /-- `next` and `prev` are inverse, `first_area` is the head, `current_area` the tail. -/
  ring : LinkRing (areaNext k v) (areaPrev k v) 0 L
  null_together : v.firstArea = 0 ↔ v.currentArea = 0
  aligned : ∀ a ∈ L, (k.areas a).start % 4096 = 0 ∧ (k.areas a).size % 4096 = 0 ∧
    0 < (k.areas a).size
  increasing : L.Pairwise fun a b => (k.areas a).start < (k.areas b).start
  disjoint : L.Pairwise fun a b => areaEnd k a ≤ (k.areas b).start
  inside : ∀ a ∈ L, v.vmmDataStart ≤ (k.areas a).start ∧ areaEnd k a ≤ v.vmmDataEnd
  top : ∀ a ∈ L, areaEnd k a - 1 ≤ v.currentAddr
  slots : L.Nodup ∧ ∀ a ∈ L, ∃ c ∈ C, ∃ i < itemPerContainer, a = c + areaSize * i
  returns : ∀ base sz flags, ∃ r, k.vmmAllocAt base v sz flags = some r
  found : ∀ va, ∃ a, k.getMemoryArea v va = some a ∧
    (∀ b ∈ L, InArea k b va → a = b) ∧ ((∀ b ∈ L, ¬ InArea k b va) → a = 0)

theorem AreaList.wellListed {k : Kmem} {v : Vmm} {C L : List Nat} (h : AreaList k v C L) :
    WellListed k v C L := by
  constructor
  · exact h.ring
  · rw [h.linked.first_eq, h.linked.current_eq]
    have hz := h.linked.zero_notMem
    cases L with
    | nil => simp
    | cons a L =>
      have ha : (a :: L).headD 0 ∈ a :: L := List.mem_cons_self
      have hl : (a :: L).getLastD 0 ∈ a :: L := by
        rw [List.getLastD_eq_getLast?, List.getLast?_eq_some_getLast (List.cons_ne_nil a L)]
        exact List.getLast_mem _
      exact ⟨fun e => absurd (e ▸ ha) hz, fun e => absurd (e ▸ hl) hz⟩
  · exact fun a ha => ⟨(h.aligned a ha).1, (h.aligned a ha).2, h.pos a ha⟩
  · refine h.sorted.imp_of_mem fun {a b} ha _ hab => ?_
    have := h.pos a ha
    unfold areaEnd at hab
    omega
  · exact h.sorted
  · exact fun a ha => ⟨h.lower a ha, h.upper a ha⟩
  · intro a ha
    have := h.top a ha
    omega
  · refine ⟨(List.nodup_cons.mp h.ring.nodup).2, fun a ha => ?_⟩
    obtain ⟨c, hc, i, hi, he, -⟩ := h.slots a ha
    exact ⟨c, hc, i, hi, he⟩
  · exact fun base sz flags => h.linked.returns base sz flags
  · intro va
    refine ⟨_, h.getMemoryArea va, fun b hb hin => ?_, fun hnone => ?_⟩
    · cases hf : L.find? fun a => InArea k a va with
      | none => exact absurd (decide_eq_true hin) (List.find?_eq_none.mp hf b hb)
      | some a =>
        rw [Option.getD_some]
        have hin' := List.find?_some hf
        exact h.unique (List.mem_of_find?_eq_some hf) hb (by simpa using hin') hin
    · have hf : L.find? (fun a => InArea k a va) = none :=
        List.find?_eq_none.mpr fun a ha hin => hnone a ha (of_decide_eq_true hin)
      rw [hf]
      rfl

/-- **The list of areas is sound along every run** of allocations and frees on an address space set
up by `vmm_init`. -/
theorem vmm_areas_sound {k : Kmem} {pagetable start stop : Nat} {user : Bool} {r : VmmRun}
    (he : stop < u64Size)
    (hr : VmmReach ⟨k, vmmInit pagetable start stop user, []⟩ r) :
    ∃ L, WellListed r.k r.v r.containers L := by
  obtain ⟨L, h⟩ := (AreaList.init (k := k) he).reach hr
  exact ⟨L, h.wellListed⟩

/-- An empty address space. -/
def emptyVmm : Vmm := vmmInit 0x9000 0x200000 0x800000000000 true

/-- An area of one page and one of two pages behind it, of which the first is freed. -/
theorem vmm_areas_sound_two :
    ∃ r L, VmmReach ⟨emptyKmem, emptyVmm, []⟩ r ∧ r.v.firstArea = physToVirt 0x2028 ∧
    r.v.currentArea = physToVirt 0x2028 ∧ r.v.currentAddr = 0x601fff ∧
    WellListed r.k r.v r.containers L := by
  have hany : (emptyKmem.vmmAllocAt 0x400123 emptyVmm 1 1).any fun r₁ =>
      decide (NoWrap r₁.2.1 0x600000 8192 ∧ ¬NeedsContainer r₁.2.1) &&
      (r₁.1.vmmAllocAt 0x600000 r₁.2.1 8192 1).any fun r₂ =>
        decide (r₂.2.1.firstArea = r₁.2.2 ∧ r₁.2.2 ≠ 0) &&
        (r₂.1.vmmFreeArea r₂.2.1 r₁.2.2).any fun r₃ =>
          decide (r₃.2.1.firstArea = physToVirt 0x2028 ∧ r₃.2.1.currentArea = physToVirt 0x2028 ∧
            r₃.2.1.currentAddr = 0x601fff) := by
    decide +kernel
  obtain ⟨⟨k₁, v₁, a₁⟩, h₁, hany⟩ := (Option.any_eq_true _ _).mp hany
  obtain ⟨hsecond, hany⟩ := Bool.and_eq_true_iff.mp hany
  obtain ⟨⟨k₂, v₂, a₂⟩, h₂, hany⟩ := (Option.any_eq_true _ _).mp hany
  obtain ⟨hfirst, hany⟩ := Bool.and_eq_true_iff.mp hany
  obtain ⟨⟨k₃, v₃, b⟩, h₃, hlast⟩ := (Option.any_eq_true _ _).mp hany
  obtain ⟨hwrap, hneeds⟩ := of_decide_eq_true hsecond
  obtain ⟨hlisted, hne⟩ : v₂.firstArea = a₁ ∧ a₁ ≠ 0 := of_decide_eq_true hfirst
  obtain ⟨hf, hc, haddr⟩ := of_decide_eq_true hlast
  have hfresh : FreshContainer emptyKmem [] 0x2000 := ⟨⟨_, rfl⟩, by decide, by decide, by simp⟩
  have hwrap₁ : NoWrap emptyVmm 0x400123 1 := by decide
  obtain ⟨C₁, hreach₁⟩ : ∃ C, VmmReach ⟨emptyKmem, emptyVmm, []⟩ ⟨k₁, v₁, C⟩ :=
    ⟨_, .tail .refl (.alloc hwrap₁ (fun _ => hfresh) h₁)⟩
  have hroom : NeedsContainer v₁ → FreshContainer k₁ C₁ 0x3000 := fun hn => absurd hn hneeds
  obtain ⟨C₂, hreach₂⟩ : ∃ C, VmmReach ⟨emptyKmem, emptyVmm, []⟩ ⟨k₂, v₂, C⟩ :=
    ⟨_, .tail hreach₁ (.alloc hwrap hroom h₂)⟩
  have hfirst₂ : Listed k₂ v₂ a₁ := hlisted ▸ .first (hlisted.symm ▸ hne)
  have hreach₃ : VmmReach ⟨emptyKmem, emptyVmm, []⟩ ⟨k₃, v₃, C₂⟩ :=
    .tail hreach₂ (.free hfirst₂ h₃)
  obtain ⟨L, h⟩ := vmm_areas_sound (by decide) hreach₃
  exact ⟨_, L, hreach₃, hf, hc, haddr, h⟩

end Colibri.Memory

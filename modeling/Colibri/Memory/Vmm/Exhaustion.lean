import Colibri.Memory.Vm.Rollback
import Colibri.Memory.Vmm.Containers

/-!
# When the pages run out

`kalloc` returns 0 when no page is free. `walk` looks at that; the callers above it do not look, or
do not put back what they had taken: `vmm_alloc_at` makes a container of page 0, `on_demand_allocation`
maps page 0, and loses its page when a table is missing, `map_mmio` leaves its area in the list.

`Starved` says that a `kalloc` of the operation returns 0 and `FailsCleanly` what should come of it.

## Results

* `starved_fails_cleanly_iff`: the one case in which it does is a page fault with no page left whose
  tables are missing (or whose page is mapped already).
-/

namespace Colibri.Memory

open Colibri.Lib

/-! ## A mapping of one page -/

section Page

variable {hole root va : Nat} {k k' : Kmem}

/-- The range that is undone when the first page fails is empty. -/
theorem unmappages_empty (hal : va % 4096 = 0) (hpos : 0 < va) (hlt : va < u64Size) :
    k.unmappages root va (u64Sub va va) false = some k := by
  obtain ⟨fuel, hfuel⟩ : ∃ fuel, u64Size = fuel + 1 := ⟨_, (Nat.succ_pred u64Size_pos.ne').symm⟩
  unfold Kmem.unmappages
  rw [rollback_stop hlt hpos hlt hal, pageStart_of_aligned hal, hfuel, Kmem.unmapLoop,
    if_neg (by omega)]

/-- What `mappages` of one page does: the walk, and the descriptor if there is none yet. -/
theorem mappages_page (k : Kmem) (root pa : Nat) (flags : BitVec 8) (hal : va % 4096 = 0) (hpos : 0 < va)
    (hlt : va + 4096 < u64Size) :
    ((k.walk root va true).2 = none ∧
      k.mappages root va pageSize pa flags = some ((k.walk root va true).1, false)) ∨
    ∃ t i, (k.walk root va true).2 = some (t, i) ∧
      ((((k.walk root va true).1.tables t i).present = true ∧
        k.mappages root va pageSize pa flags = some ((k.walk root va true).1, false)) ∨
      (((k.walk root va true).1.tables t i).present = false ∧
        ∃ k', k.mappages root va pageSize pa flags = some (k', true))) := by
  obtain ⟨fuel, hfuel⟩ : ∃ fuel, u64Size = fuel + 2 := ⟨u64Size - 2, by rw [u64Size_eq]⟩
  have hstop : pageEnd (u64Sub (u64Add va pageSize) 1) = va + 4095 := by
    rw [pageSize_eq, u64Add_eq (by omega), u64Sub_eq (by omega) (by omega), pageEnd_eq (by omega),
      pageStart, pageSize_eq]
    omega
  have hundo : ∀ k : Kmem, k.unmappages root va (u64Sub va va) false = some k := fun k =>
    unmappages_empty hal hpos (by omega)
  unfold Kmem.mappages
  rw [hstop, pageStart_of_aligned hal, hfuel]
  generalize vmflagToX86flag k.nxFlagEnabled (flags.setWidth 64) = x86Flags
  have hnext : ∀ (k : Kmem) pa, Kmem.mapLoop root va (va + 4095) x86Flags (fuel + 1) k
      (u64Add va pageSize) pa = some (k, true) := fun k pa => by
    rw [Kmem.mapLoop, pageSize_eq, u64Add_eq (by omega), if_neg (by omega)]
  rw [Kmem.mapLoop, if_pos (by omega)]
  rcases k.walk root va true with ⟨k₁, - | ⟨t, i⟩⟩
  · exact .inl ⟨rfl, by simp only [hundo, Option.map_some]⟩
  · refine .inr ⟨t, i, rfl, ?_⟩
    cases hp : (k₁.tables t i).present with
    | true => exact .inl ⟨rfl, by simp only [hp, if_true, hundo, Option.map_some]⟩
    | false =>
      refine .inr ⟨rfl, k₁.setEntry t i (Entry.ofPage (pageStart pa) x86Flags), ?_⟩
      simp only [hp, Bool.false_eq_true, if_false]
      exact hnext _ _

/-- **A page that is not free stays out of the tables**: `walk` hangs in free pages only. -/
theorem walkFrom_spare {p : Nat} (hva : PagePathOff hole (vaPath va)) :
    ∀ (level : Nat) {k : Kmem} {t : Nat} {r : List Nat},
      ReadyOff hole { k with free := k.free ++ [p] } root →
      descend Entry.child k.tables root r = some t → r ++ pathFrom va level = vaPath va →
      ReadyOff hole { (k.walkFrom va true level t).1 with
        free := (k.walkFrom va true level t).1.free ++ [p] } root
  | 0, k, t, r, h, _, _ => h
  | level + 1, k, t, r, h, hd, hr => by
    obtain ⟨s, hr', hnext⟩ := pathFrom_next hr
    cases hp : (k.tables t (va2Index va (level + 1))).present with
    | true =>
      cases hl : (k.tables t (va2Index va (level + 1))).pageSize with
      | true =>
        rw [walkFrom_large hp hl]
        exact h
      | false =>
        rw [walkFrom_table hp hl]
        exact walkFrom_spare hva level h
          ((descend_concat hd).trans (Entry.child_eq_some hp hl)) hnext
    | false =>
      cases hf : k.free with
      | nil =>
        rw [walkFrom_full hp hf]
        exact h
      | cons x xs =>
        have hx0 : x ≠ 0 := by
          have := h.pos x (by simp [hf])
          omega
        have hfree : ({ k with free := k.free ++ [p] } : Kmem).free = x :: (xs ++ [p]) := by simp [hf]
        obtain ⟨hg, hd'⟩ := h.link hd (hva.concat hr'.symm) hp hfree
        rw [walkFrom_new hp hf hx0]
        exact walkFrom_spare hva level hg.ready hd' hnext

end Page

/-! ## The operations -/

/-- The operations that need pages. -/
inductive PageOp
  | allocAt (base sz : Nat) (flags : BitVec 8)
  | mapMmio (physical sz : Nat) (writable : Bool)
  | onDemand (va : Nat)

/-- The operation, with `false` where it reports that it failed. -/
def PageOp.run (k : Kmem) (v : Vmm) : PageOp → Option (Kmem × Vmm × Bool)
  | .allocAt base sz flags => (k.vmmAllocAt base v sz flags).map fun (k, v, a) => (k, v, a ≠ 0)
  | .mapMmio physical sz writable =>
    (k.mapMmio v physical sz writable).map fun (k, v, addr) => (k, v, addr ≠ 0)
  | .onDemand va => (k.onDemandAllocation v va).map fun (k, ok) => (k, v, ok)

/-- A `walk` of the loop of `mappages` finds no page for a table. -/
def MapStarves (root stop : Nat) (x86Flags : BitVec 64) : Nat → Kmem → Nat → Nat → Prop
  | 0, _, _, _ => False
  | fuel + 1, k, current, currentPa =>
    current < stop ∧
      ((k.walk root current true).2 = none ∨
        ∃ t i, (k.walk root current true).2 = some (t, i) ∧
          ((k.walk root current true).1.tables t i).present = false ∧
          MapStarves root stop x86Flags fuel
            ((k.walk root current true).1.setEntry t i (Entry.ofPage currentPa x86Flags))
            (u64Add current pageSize) (u64Add currentPa pageSize))

/-- `vmm_alloc_at` needs a container and no page is free. -/
def ContainerStarves (k : Kmem) (v : Vmm) (base sz : Nat) : Prop :=
  Adds v base sz ∧ NeedsContainer v ∧ k.free = []

/-- A `kalloc` of the operation returns 0. -/
def PageOp.Starved (k : Kmem) (v : Vmm) : PageOp → Prop
  | .allocAt base sz _ => ContainerStarves k v base sz
  | .mapMmio physical sz _ =>
    ContainerStarves k v 0 sz ∨
      Adds v 0 sz ∧ ∃ k₁ v₁ a flags, k.vmmAllocAt 0 v sz flags = some (k₁, v₁, a) ∧
        MapStarves v.rootPagetable (pageEnd (u64Sub (u64Add (k₁.areas a).start (k₁.areas a).size) 1))
          (vmflagToX86flag k₁.nxFlagEnabled ((k₁.areas a).flags.setWidth 64)) u64Size k₁
          (pageStart (k₁.areas a).start) (pageStart physical)
  | .onDemand va =>
    (∃ a, a ≠ 0 ∧ k.getMemoryArea v va = some a) ∧
      (k.free = [] ∨ (k.kalloc.1.walk v.rootPagetable (pageStart va) true).2 = none)

/-- The list of areas is the same. -/
structure SameAreas (k : Kmem) (v : Vmm) (k' : Kmem) (v' : Vmm) : Prop where
  first : v'.firstArea = v.firstArea
  last : v'.currentArea = v.currentArea
  records : ∀ a, Listed k v a → k'.areas a = k.areas a

/-- The free pages are free, or tables of the page table `root`. -/
def PagesKept (hole root : Nat) (k k' : Kmem) : Prop :=
  (∀ p ∈ k'.free, p ∈ k.free) ∧
    ∀ p ∈ k.free, p ∈ k'.free ∨ ∃ q, TablePathOff hole q ∧
      descend Entry.child k'.tables root q = some (physToVirt p)

/-- What an operation without the pages it needs has to do: report it, and leave the areas, the
translations and the free pages as they were. -/
def PageOp.FailsCleanly (hole : Nat) (k : Kmem) (v : Vmm) (op : PageOp) : Prop :=
  ∃ k' v', op.run k v = some (k', v', false) ∧ SameAreas k v k' v' ∧
    (∀ x, va2Index x 3 ≠ hole →
      translate k'.tables v.rootPagetable x = translate k.tables v.rootPagetable x) ∧
    PagesKept hole v.rootPagetable k k'

/-- The one case: a page fault with no page left, where `walk` stops at a missing table or the page
is mapped already. -/
def PageOp.StopsEarly (k : Kmem) (v : Vmm) : PageOp → Prop
  | .allocAt _ _ _ => False
  | .mapMmio _ _ _ => False
  | .onDemand va => k.free = [] ∧
    ∀ t i, (k.walk v.rootPagetable (pageStart va) false).2 = some (t, i) →
      (k.tables t i).present = true

/-- An address space in order: its areas, its tables, and no container on a page that `kalloc` can
still return. Free pages are in the part of memory that is mapped at `PHYSICAL_OFFSET`. -/
structure InOrder (hole : Nat) (k : Kmem) (v : Vmm) (C L : List Nat) : Prop where
  areas : AreaList k v C L
  ready : ReadyOff hole k v.rootPagetable
  mapped : ∀ p ∈ k.free, p + physicalOffset + 4096 ≤ u64Size
  spare : ∀ p, p = 0 ∨ p ∈ k.free → physToVirt p ∉ C

section Ops

variable {hole root : Nat} {k k' : Kmem} {v v' : Vmm} {C L : List Nat}

theorem kalloc_eq (k : Kmem) : k.kalloc.2 = 0 ∨ k.kalloc.2 ∈ k.free := by
  cases hf : k.free with
  | nil => exact .inl (by rw [Kmem.kalloc_nil hf])
  | cons p ps => exact .inr (by rw [Kmem.kalloc_cons hf]; exact List.mem_cons_self)

/-- The next record is not that of the last area, also when its container is page 0. -/
theorem InOrder.nextSlot_ne (h : InOrder hole k v C L) :
    nextSlot k v ≠ v.currentArea ∧ nextSlot k v ≠ 0 := by
  have hc := h.areas.containers
  have hslot : v.currentArea ≠ 0 → Slot v C v.currentArea := fun h0 =>
    h.areas.slots _ (h.areas.linked.current_mem h0)
  unfold nextSlot
  split
  case isTrue hn =>
    have hpage := h.spare k.kalloc.2 (kalloc_eq k)
    obtain ⟨hpos, hmod⟩ : physToVirt k.kalloc.2 ≠ 0 ∧ physToVirt k.kalloc.2 % 4096 = 0 := by
      have hoff : physicalOffset % 4096 = 0 ∧ 0 < physicalOffset ∧
          physicalOffset + 4096 ≤ u64Size := by decide
      have hpage : k.kalloc.2 % 4096 = 0 ∧ k.kalloc.2 + physicalOffset + 4096 ≤ u64Size := by
        rcases kalloc_eq k with he | he
        · rw [he]
          omega
        · exact ⟨h.ready.aligned _ he, h.mapped _ he⟩
      rw [physToVirt, u64Add_eq (by omega)]
      omega
    refine ⟨fun he => ?_, hpos⟩
    obtain ⟨c, hcC, i, hi, hci, -⟩ := hslot (he ▸ hpos)
    have hal := hc.aligned c hcC
    rw [← he] at hci
    have hi0 : i = 0 := by
      unfold areaSize at hci
      unfold itemPerContainer at hi
      omega
    rw [hi0, Nat.mul_zero, Nat.add_zero] at hci
    exact hpage (hci ▸ hcC)
  case isFalse hn =>
    have hroot : v.rootContainer ≠ 0 := fun h0 => hn (.inr h0)
    have hC : C ≠ [] := fun h0 => hroot (by rw [hc.root, h0]; rfl)
    have hidx : v.currentIndex < itemPerContainer :=
      Nat.lt_of_le_of_ne hc.index fun he => hn (.inl he)
    have hpos := hc.pos _ (hc.current_mem hC)
    have hnew := hc.next_new hC hidx
    refine ⟨fun he => ?_, by omega⟩
    rw [he] at hnew
    exact hnew (hslot (by omega))

/-- `vmm_alloc_at` with a place never reports a failure. -/
theorem InOrder.allocAt_not_clean (h : InOrder hole k v C L) {base sz : Nat} {flags : BitVec 8}
    (hadds : Adds v base sz) : ¬(PageOp.allocAt base sz flags).FailsCleanly hole k v := by
  rintro ⟨k', v', hrun, -⟩
  rw [PageOp.run, Option.map_eq_some_iff] at hrun
  obtain ⟨⟨k₁, v₁, a⟩, halloc, he⟩ := hrun
  have ha := (vmmAllocAt_current hadds halloc).1
  have ha0 : a = 0 := by simpa using (Prod.mk.inj (Prod.mk.inj he).2).2
  exact h.nextSlot_ne.2 (ha.symm.trans ha0)

/-- `map_mmio` with a place leaves its area in the list. -/
theorem InOrder.mapMmio_not_clean (h : InOrder hole k v C L) {physical sz : Nat} {writable : Bool}
    (hadds : Adds v 0 sz) : ¬(PageOp.mapMmio physical sz writable).FailsCleanly hole k v := by
  rintro ⟨k', v', hrun, hsame, -⟩
  rw [PageOp.run, Option.map_eq_some_iff] at hrun
  obtain ⟨⟨k₁, v₁, addr⟩, hmmio, he⟩ := hrun
  obtain ⟨k₂, a, flags, halloc, -⟩ := mapMmio_cases hmmio
  have hv : v₁ = v' := (Prod.mk.inj (Prod.mk.inj he).2).1
  have hcur := (vmmAllocAt_current hadds halloc).2
  rw [hv, hsame.last] at hcur
  exact h.nextSlot_ne.1 hcur.symm

/-- The page of an address in an area. -/
theorem AreaList.page_bounds (h : AreaList k v C L) {a va : Nat} (ha : a ≠ 0)
    (hget : k.getMemoryArea v va = some a) :
    0 < pageStart va ∧ pageStart va + 4096 < u64Size := by
  rw [h.getMemoryArea va] at hget
  have hmem : L.find? (fun a => InArea k a va) = some a := by
    cases hf : L.find? (fun a => InArea k a va) with
    | none => simp [hf] at hget; omega
    | some b => simpa [hf] using hget
  have hL := List.mem_of_find?_eq_some hmem
  have hin : InArea k a va := by simpa using List.find?_some hmem
  have hlo := h.lower a hL
  have hup := h.upper a hL
  have hend := h.data_lt
  have hb := h.bounds
  rw [InArea] at hin
  rw [pageStart, pageSize_eq]
  omega

theorem onDemandAllocation_eq {a va : Nat} (ha : a ≠ 0) (hget : k.getMemoryArea v va = some a) :
    k.onDemandAllocation v va = k.kalloc.1.mappages v.rootPagetable (pageStart va) pageSize
      k.kalloc.2 (k.areas a).flags := by
  unfold Kmem.onDemandAllocation
  rw [hget]
  cases a with
  | zero => exact absurd rfl ha
  | succ a => simp only [(kalloc_sameRecords k).areas]

/-- The page that a walk was not given is neither free nor a table after it. -/
theorem ReadyOff.walk_spare {p va : Nat} {ps : List Nat} (h : ReadyOff hole k root)
    (hva : PagePathOff hole (vaPath va)) (hfree : k.free = p :: ps)
    (hk : (({ k with free := ps } : Kmem).walk root va true).1 = k') :
    p ∉ k'.free ∧ ∀ q, TablePathOff hole q →
      descend Entry.child k'.tables root q ≠ some (physToVirt p) := by
  have hperm : (ps ++ [p]).Perm k.free := by
    rw [hfree]
    exact List.perm_append_singleton p ps
  have hmem : ∀ x, x ∈ ps ++ [p] → x ∈ k.free := fun x hx => hperm.mem_iff.mp hx
  have hready : ReadyOff hole ({ k with free := ps ++ [p] } : Kmem) root :=
    ⟨h.tree, hperm.nodup_iff.mpr h.nodup, fun x hx => h.aligned x (hmem x hx),
      fun x hx => h.pos x (hmem x hx), fun x hx => h.lt x (hmem x hx),
      fun x hx => h.fresh x (hmem x hx)⟩
  have hspare := walkFrom_spare (k := { k with free := ps }) (r := []) hva 3 hready rfl rfl
  rw [← hk]
  refine ⟨fun hp => ?_, fun q hq => hspare.fresh p (by simp) q hq⟩
  exact (List.nodup_append.mp hspare.nodup).2.2 p hp p List.mem_cons_self rfl

/-- **A page fault without the pages it needs** fails cleanly only if it stops before it takes
one. -/
theorem InOrder.onDemand_clean_iff (h : InOrder hole k v C L) {va : Nat}
    (hhole : va2Index va 3 ≠ hole) (hstarved : (PageOp.onDemand va).Starved k v) :
    (PageOp.onDemand va).FailsCleanly hole k v ↔ (PageOp.onDemand va).StopsEarly k v := by
  obtain ⟨⟨a, ha, hget⟩, hpages⟩ := hstarved
  obtain ⟨hpos, hlt⟩ := h.areas.page_bounds ha hget
  have heq := onDemandAllocation_eq ha hget
  have hpage := mappages_page k.kalloc.1 v.rootPagetable k.kalloc.2 (k.areas a).flags
    (pageStart_mod va) hpos hlt
  rw [← heq] at hpage
  rw [PageOp.FailsCleanly, PageOp.StopsEarly]
  cases hf : k.free with
  | nil =>
    -- the walk is a lookup, and the page is 0
    rw [Kmem.kalloc_nil hf] at hpage
    have hlookup : k.walk v.rootPagetable (pageStart va) true =
        k.walk v.rootPagetable (pageStart va) false := walkFrom_of_free_nil hf (pageStart va) 3
    have hsame : (k.walk v.rootPagetable (pageStart va) true).1 = k :=
      hlookup ▸ (walk_lookup k v.rootPagetable (pageStart va)).1
    have hclean : k.onDemandAllocation v va = some (k, false) →
        (PageOp.onDemand va).FailsCleanly hole k v := fun he =>
      ⟨k, v, by rw [PageOp.run, he]; rfl, ⟨rfl, rfl, fun _ _ => rfl⟩, fun _ _ => rfl,
        ⟨fun _ hp => hp, fun _ hp => .inl hp⟩⟩
    rcases hpage with ⟨hnone, he⟩ | ⟨t, i, hslot, ⟨hp, he⟩ | ⟨hp, k₁, he⟩⟩
    · rw [hsame] at he
      refine iff_of_true (hclean he) ⟨rfl, fun t i hti => ?_⟩
      rw [← hlookup, hnone] at hti
      exact nomatch hti
    · rw [hsame] at he hp
      refine iff_of_true (hclean he) ⟨rfl, fun t' i' hti => ?_⟩
      rw [← hlookup, hslot] at hti
      obtain ⟨rfl, rfl⟩ := Prod.mk.inj (Option.some.inj hti)
      exact hp
    · rw [hsame] at hp
      refine iff_of_false ?_ fun hstop => ?_
      · rintro ⟨k', v', hrun, -⟩
        rw [PageOp.run, he] at hrun
        exact absurd hrun (by simp)
      · rw [hlookup] at hslot
        exact absurd (hstop.2 t i hslot) (by simp [hp])
  | cons p ps =>
    refine iff_of_false ?_ fun hstop => List.cons_ne_nil p ps hstop.1
    have hnone := hpages.resolve_left (by simp [hf])
    rw [Kmem.kalloc_cons hf] at hpage hnone
    have hva : PagePathOff hole (vaPath (pageStart va)) := by
      rw [vaPath_of_pageStart (pageStart_of_aligned (pageStart_mod va))]
      exact vaPath_pagePath hhole
    rcases hpage with ⟨-, he⟩ | ⟨t, i, hslot, -⟩
    · rintro ⟨k', v', hrun, -, -, -, hkept⟩
      rw [PageOp.run, he] at hrun
      have hk : (({ k with free := ps } : Kmem).walk v.rootPagetable (pageStart va) true).1 = k' :=
        (Prod.mk.inj (Option.some.inj hrun)).1
      obtain ⟨hnotFree, hnoTable⟩ := h.ready.walk_spare hva hf hk
      rcases hkept p (by rw [hf]; exact List.mem_cons_self) with hp | ⟨q, hq, hd⟩
      · exact hnotFree hp
      · exact hnoTable q hq hd
    · rw [hnone] at hslot
      exact nomatch hslot

end Ops

/-- **Only one kind of operation fails cleanly when the pages run out.** An operation that cannot get
its pages reports that, and leaves areas, translations and free pages as they were, if and only if it
is a page fault with no page left that stops at a missing table, or at a page that is mapped. -/
theorem starved_fails_cleanly_iff {hole : Nat} {k : Kmem} {v : Vmm} {C L : List Nat}
    (h : InOrder hole k v C L) (op : PageOp)
    (hva : ∀ va, op = .onDemand va → va2Index va 3 ≠ hole) :
    (op.Starved k v → op.FailsCleanly hole k v) ↔ (op.Starved k v → op.StopsEarly k v) := by
  refine forall_congr' fun hstarved => ?_
  cases op with
  | allocAt base sz flags => exact iff_of_false (h.allocAt_not_clean hstarved.1) id
  | mapMmio physical sz writable =>
    have hadds : Adds v 0 sz := by
      rcases hstarved with hs | hs
      · exact hs.1
      · exact hs.1
    exact iff_of_false (h.mapMmio_not_clean hadds) id
  | onDemand va => exact h.onDemand_clean_iff (hva va rfl) hstarved

/-! ## One free page, and none -/

theorem emptyKmem_readyOff {free : List Nat} (hmem : ∀ p ∈ free, p = 0x2000) (hnd : free.Nodup) :
    ReadyOff 512 { emptyKmem with free := free } 0x9000 where
  tree := fun p q t _ _ hp hq => by rw [(emptyKmem_descend hp).1, (emptyKmem_descend hq).1]
  nodup := hnd
  aligned := fun p hp => by rw [hmem p hp]
  pos := fun p hp => by rw [hmem p hp]; decide
  lt := fun p hp => by rw [hmem p hp]; decide
  fresh := fun p hp q _ hd => by
    have ht := (emptyKmem_descend hd).2
    rw [hmem p hp] at ht
    exact absurd ht (by decide)

/-- An area needs a container and there is no page: the container is page 0, and `vmm_alloc_at`
returns the area on it. -/
theorem container_on_page_zero : ∃ (k : Kmem) (v : Vmm) (op : PageOp), InOrder 512 k v [] [] ∧ op.Starved k v ∧
    ¬op.FailsCleanly 512 k v ∧ ∃ (k' : Kmem) (v' : Vmm), op.run k v = some (k', v', true) ∧
      v'.rootContainer = physToVirt 0 := by
  let k : Kmem := { emptyKmem with free := [] }
  let v := vmmInit 0x9000 0x200000 0x800000000000 true
  have h : InOrder 512 k v [] [] :=
    ⟨.init (by decide), emptyKmem_readyOff (by simp) (by simp), by simp [k], by simp⟩
  have hadds : Adds v 0x400000 0x1000 := by decide
  have hrun : (k.vmmAllocAt 0x400000 v 0x1000 1).map
      (fun r => (r.2.2, r.2.1.rootContainer)) = some (physToVirt 0, physToVirt 0) := by
    decide +kernel
  obtain ⟨⟨k', v', a⟩, hk, he⟩ := Option.map_eq_some_iff.mp hrun
  obtain ⟨ha, hroot⟩ := Prod.mk.inj he
  have hne : physToVirt 0 ≠ 0 := by decide
  refine ⟨k, v, .allocAt 0x400000 0x1000 1, h, ⟨hadds, by decide, rfl⟩, h.allocAt_not_clean hadds,
    k', v', ?_, hroot⟩
  rw [PageOp.run, hk, Option.map_some]
  simp only [show a = physToVirt 0 from ha, ne_eq, hne, not_false_eq_true, decide_true]

/-- The only page became the container of an area. A fault in that area finds no page, and stops at
the empty root table. -/
theorem fault_without_pages : ∃ k v C L, InOrder 512 k v C L ∧
    (PageOp.onDemand 0x400abc).Starved k v ∧ (PageOp.onDemand 0x400abc).FailsCleanly 512 k v := by
  let v := vmmInit 0x9000 0x200000 0x800000000000 true
  have hrun : (onePage.vmmAllocAt 0x400123 v 1 1).map (fun r =>
      (r.1.free, r.2.1.rootPagetable, r.2.2, r.1.getMemoryArea r.2.1 0x400abc,
        (r.1.walk r.2.1.rootPagetable (pageStart 0x400abc) false).2.isNone)) =
      some ([], 0x9000, physToVirt 0x2000, some (physToVirt 0x2000), true) := by decide +kernel
  obtain ⟨⟨k', v', a⟩, hk, he⟩ := Option.map_eq_some_iff.mp hrun
  obtain ⟨hfree, he⟩ := Prod.mk.inj he
  obtain ⟨hroot, he⟩ := Prod.mk.inj he
  obtain ⟨ha, he⟩ := Prod.mk.inj he
  obtain ⟨hget, hwalk⟩ := Prod.mk.inj he
  have htables := (vmmAllocAt_keepsTables hk).tables
  have hne : physToVirt 0x2000 ≠ 0 := by decide
  have hneeds : NeedsContainer v := by decide
  have hinit : AreaList onePage v [] [] := .init (by decide)
  rcases hinit.alloc ⟨by decide, by decide, by decide⟩
    (fun _ => ⟨⟨_, rfl⟩, by decide, by decide, by simp⟩) hk with ⟨-, -, h0⟩ | ⟨harea, -⟩
  · exact absurd (ha.symm.trans h0) hne
  have hready : ReadyOff 512 k' v'.rootPagetable := by
    have h : ReadyOff 512 { emptyKmem with free := [] } 0x9000 :=
      emptyKmem_readyOff (by simp) (by simp)
    rw [show v'.rootPagetable = 0x9000 from hroot]
    refine ⟨?_, ?_, ?_, ?_, ?_, ?_⟩
    · rw [htables]; exact h.tree
    all_goals simp [show k'.free = [] from hfree]
  have hC : grownContainers v [] 0x2000 = [physToVirt 0x2000] := by
    simp [grownContainers, hneeds]
  rw [hC] at harea
  have h : InOrder 512 k' v' [physToVirt 0x2000] ([] ++ [a]) := by
    refine ⟨harea, hready, by simp [show k'.free = [] from hfree], fun p hp => ?_⟩
    obtain rfl : p = 0 := by simpa [show k'.free = [] from hfree] using hp
    decide
  have hstarved : (PageOp.onDemand 0x400abc).Starved k' v' := ⟨⟨_, hne, hget⟩, .inl hfree⟩
  have hstop : (PageOp.onDemand 0x400abc).StopsEarly k' v' :=
    ⟨hfree, fun t i hti =>
      absurd (hti.symm.trans (Option.isNone_iff_eq_none.mp hwalk)) (Option.some_ne_none _)⟩
  have hclean := (starved_fails_cleanly_iff h (.onDemand 0x400abc)
    fun va _ => Nat.ne_of_lt (Nat.mod_lt _ (by omega))).mpr (fun _ => hstop) hstarved
  exact ⟨k', v', _, _, h, hstarved, hclean⟩

end Colibri.Memory

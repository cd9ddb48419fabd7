import Colibri.Memory.Vmm.Bounds
import Colibri.Memory.Vmm.Create

/-!
# What `vmm_destroy` gives back

The pages of an address space come from four places: `vmm_create` takes the root table, `vmm_alloc_at`
the containers, `on_demand_allocation` a page for each fault, and `walk`, under it, the tables between
the root and that page. `vmm_destroy` unmaps the areas, which frees what their descriptors hold, and
frees the containers and the root. Nothing frees the tables that `walk` took.

Its last two calls, `free(vmm->lock)` and `free(vmm)`, are in `Kernel.vmmDestroy` and not here: they
are `free` of the heap on blocks that `vmm_create` took there, and no page changes hands in them.

So an address space gives back what it took as long as no fault takes a page. The other conditions of
`vmm_destroy_returns` are about pages that nothing clears: descriptors that the root table's page
leads to by what it held before, and the `next` of the last container.
-/

namespace Colibri.Memory

open Colibri.Lib

/-- The free pages are pages of the mapped memory, none of them twice. -/
structure FreeOk (k : Kmem) : Prop where
  nodup : k.free.Nodup
  aligned : ∀ p ∈ k.free, p % 4096 = 0
  pos : ∀ p ∈ k.free, 0 < p
  mapped : ∀ p ∈ k.free, p + physicalOffset + 4096 ≤ u64Size

/-- The free pages of the allocator are. -/
theorem FreePages.freeOk {w : Window} {s : PhysAlloc} {k : Kmem} (h : FreePages w s k) :
    FreeOk k := by
  obtain ⟨L, hL, he⟩ := h
  have hmap := w.mapped
  have hal := w.aligned
  have hpos := w.base_pos
  have hmem : ∀ p ∈ k.free, ∃ i < w.pageCount, p = w.base + 4096 * i := by
    intro p hp
    rw [he] at hp
    obtain ⟨i, hi, rfl⟩ := List.mem_map.mp hp
    exact ⟨i, (hL.range i hi).2, rfl⟩
  have hnd : (L.map w.nodeAddr).Nodup := (List.nodup_cons.mp hL.ring.1.nodup).2
  refine ⟨?_, fun p hp => ?_, fun p hp => ?_, fun p hp => ?_⟩
  · rw [he]
    exact (List.Nodup.of_map _ hnd).map fun i j e => w.page_inj e
  all_goals
    obtain ⟨i, hi, rfl⟩ := hmem p hp
    omega

/-! ## Areas without descriptors -/

/-- `walk` finds no descriptor for the pages of the area. -/
def Bare (k : Kmem) (root a : Nat) : Prop :=
  ∀ va, pageStart (k.areas a).start ≤ va → va ≤ k.areaLast a → (k.walk root va false).2 = none

/-- The area starts with a page that is not the first, and ends with one that is not the last. -/
structure Placed (k : Kmem) (a : Nat) : Prop where
  start : (k.areas a).start % 4096 = 0
  pos : 0 < (k.areas a).start
  last : k.areaLast a % 4096 = 4095
  lt : k.areaLast a + 4096 < u64Size

theorem Placed.congr {k k' : Kmem} {a : Nat} (h : Placed k a)
    (hs : (k'.areas a).start = (k.areas a).start) (hz : (k'.areas a).size = (k.areas a).size) :
    Placed k' a := by
  have hl : k'.areaLast a = k.areaLast a := by rw [Kmem.areaLast, Kmem.areaLast, hs, hz]
  exact ⟨by rw [hs]; exact h.start, by rw [hs]; exact h.pos, by rw [hl]; exact h.last,
    by rw [hl]; exact h.lt⟩

theorem unmapPage_of_none {k : Kmem} {root va : Nat} {free : Bool}
    (h : (k.walk root va false).2 = none) : k.unmapPage root free va = k := by
  obtain ⟨hk, -, -⟩ := walk_lookup k root va
  unfold Kmem.unmapPage
  obtain ⟨k', d, hw⟩ : ∃ k' d, k.walk root va false = (k', d) := ⟨_, _, rfl⟩
  rw [hw] at hk h ⊢
  obtain rfl : k' = k := hk
  obtain rfl : d = none := h
  rfl

theorem unmapLoop_of_none {k : Kmem} {root stop : Nat} {free : Bool} (hlt : stop + 4096 < u64Size)
    (fuel current : Nat) (hf : stop < current + 4096 * fuel)
    (hnone : ∀ va, current ≤ va → va ≤ stop → (k.walk root va false).2 = none) :
    Kmem.unmapLoop root stop free (fuel + 1) k current = some k := by
  obtain ⟨k', hk', rfl⟩ := unmapLoop_rule (P := (· = k)) hlt fuel hf (fun k' x hx hx' he => by
    obtain rfl := he
    exact unmapPage_of_none (hnone x hx (Nat.le_of_lt hx'))) rfl
  exact hk'

/-- **`unmappages` of an area without descriptors** does nothing. -/
theorem unmappages_of_bare {k : Kmem} {root a : Nat} {free : Bool} (hb : Bare k root a)
    (he : Placed k a) :
    k.unmappages root (k.areas a).start (k.areas a).size free = some k := by
  have hmod := he.last
  have hlt := he.lt
  have hstop : pageEnd (k.areaLast a) = k.areaLast a := by
    rw [pageEnd_eq (by omega), pageStart, pageSize_eq]
    omega
  obtain ⟨fuel, hfuel⟩ : ∃ fuel, u64Size = fuel + 1 :=
    ⟨u64Size - 1, by have := u64Size_pos; omega⟩
  have hf : k.areaLast a < pageStart (k.areas a).start + 4096 * fuel := by omega
  have hloop : Kmem.unmapLoop root (k.areaLast a) free (fuel + 1) k _ = some k :=
    unmapLoop_of_none hlt fuel _ hf hb
  unfold Kmem.unmappages
  change Kmem.unmapLoop root (pageEnd (k.areaLast a)) free u64Size k _ = some k
  rw [hstop, hfuel]
  exact hloop

/-- Areas that were accepted lie so, wrapping or not. -/
theorem placed_of_alloc {k k' : Kmem} {v v' : Vmm} {base sz a : Nat} {flags : BitVec 8}
    (hv : Aligned v) (hrun : k.vmmAllocAt base v sz flags = some (k', v', a)) (ha : a ≠ 0) :
    Placed k' a := by
  rcases vmmAllocAt_extent hrun with ⟨-, ha0⟩ | ⟨hpos, hle, hstart, hsize, -, -, -⟩
  · exact absurd ha0 ha
  have hP : Kmem.place v base % 4096 = 0 := hv.place_mod
  have hl : Kmem.areaLength sz % 4096 = 4095 := pageEnd_mod (u64Sub_lt _ _)
  have hE := hv.dataEnd
  have hElt := hv.lt
  obtain ⟨P, hPe⟩ : ∃ P, P = Kmem.place v base := ⟨_, rfl⟩
  obtain ⟨l, hle'⟩ : ∃ l, l = Kmem.areaLength sz := ⟨_, rfl⟩
  rw [← hPe] at hP hpos hstart
  rw [← hle'] at hl hsize
  rw [← hPe, ← hle'] at hle
  have hsize' := u64Size_eq
  have hlast : k'.areaLast a = u64Add P l := by
    rw [Kmem.areaLast, hstart, hsize]
    simp only [u64Sub, u64Add, u64Size_eq]
    omega
  have hmod : u64Add P l % 4096 = 4095 := by
    simp only [u64Add, u64Size_eq]
    omega
  exact ⟨by rw [hstart]; exact hP, by rw [hstart]; exact Nat.pos_of_ne_zero hpos,
    by rw [hlast]; exact hmod, by rw [hlast]; omega⟩

/-! ## Faults without a free page -/

/-- The indexes of an address are those of its page. -/
theorem va2Index_pageStart (va level : Nat) : va2Index (pageStart va) level = va2Index va level := by
  have hpage : pageStart va / 4096 = va / 4096 := by
    rw [pageStart, pageSize_eq]
    omega
  unfold va2Index
  rw [Nat.pow_add, show 2 ^ 12 = 4096 from rfl, ← Nat.div_div_eq_div_mul, hpage,
    Nat.div_div_eq_div_mul]

theorem onDemandAllocation_of_zero {k : Kmem} {v : Vmm} {va : Nat}
    (h : k.getMemoryArea v va = some 0) : k.onDemandAllocation v va = some (k, false) := by
  unfold Kmem.onDemandAllocation
  rw [h]
  rfl

/-- **A fault where there is no descriptor and no free page** changes nothing. -/
theorem onDemandAllocation_of_nil {k : Kmem} {v : Vmm} {va a : Nat} (hva : va < u64Size)
    (harea : k.getMemoryArea v va = some a) (hpos : 4096 ≤ va) (hfree : k.free = [])
    (hnone : (k.walk v.rootPagetable va false).2 = none) :
    k.onDemandAllocation v va = some (k, false) := by
  unfold Kmem.onDemandAllocation
  rw [harea]
  cases a with
  | zero => rfl
  | succ a =>
    obtain ⟨p, hp⟩ : ∃ p, p = pageStart va := ⟨_, rfl⟩
    have hpm : p % 4096 = 0 := hp ▸ pageStart_mod va
    have hple : p ≤ va := hp ▸ pageStart_le va
    have hplt : va < p + 4096 := ((pageStart_eq_iff hpm).mp hp.symm).2
    have hpp : pageStart p = p := pageStart_of_aligned hpm
    have hsize := u64Size_eq
    have hlast : u64Sub (u64Add p pageSize) 1 = p + 4095 := by
      simp only [u64Sub, u64Add, u64Size_eq, pageSize_eq]
      omega
    have hstop : pageEnd (u64Sub (u64Add p pageSize) 1) = p + 4095 := by
      rw [hlast, pageEnd_eq (by omega), pageStart, pageSize_eq]
      omega
    have hback : pageEnd (u64Sub (u64Add p (u64Sub p p)) 1) = p - 1 := by
      have h0 : u64Sub p p = 0 := by
        rw [u64Sub_eq (Nat.le_refl p) (by omega), Nat.sub_self]
      rw [h0, u64Add_eq (by omega), u64Sub_eq (by omega) (by omega), pageEnd_eq (by omega),
        pageStart, pageSize_eq]
      omega
    have hwalk : k.walk v.rootPagetable p true = (k, none) := by
      refine (walkFrom_of_free_nil hfree p 3).trans (Prod.ext (walk_lookup k v.rootPagetable p).1 ?_)
      rw [walkFrom_congr 3 k _ fun l _ => ?_]
      · exact hnone
      · rw [hp]
        exact va2Index_pageStart va l
    obtain ⟨fuel, hfuel⟩ : ∃ fuel, u64Size = fuel + 1 := ⟨u64Size - 1, by omega⟩
    have hun : k.unmappages v.rootPagetable p (u64Sub p p) false = some k := by
      unfold Kmem.unmappages
      rw [hback, hpp, hfuel, Kmem.unmapLoop, if_neg (by omega)]
    rw [Kmem.kalloc_nil hfree, ← hp]
    simp only
    unfold Kmem.mappages
    rw [hstop, hpp, hfuel, Kmem.mapLoop, if_pos (by omega), hwalk]
    simp only [hun, Option.map_some]

/-- What `get_memory_area` returns is listed. -/
theorem Linked.getMemoryArea_mem {k : Kmem} {v : Vmm} {C L : List Nat} {va a : Nat}
    (h : Linked k v C L) (ha : k.getMemoryArea v va = some a) (ha0 : a ≠ 0) :
    a ∈ L ∧ (k.areas a).start ≤ va := by
  have hfind : ∀ (L₂ L₁ : List Nat) (fuel : Nat), L = L₁ ++ L₂ →
      k.findArea va fuel (L₂.headD 0) = some a → a ∈ L ∧ (k.areas a).start ≤ va := by
    intro L₂
    induction L₂ with
    | nil =>
      intro L₁ fuel _ hf
      cases fuel with
      | zero => exact absurd hf (by simp [Kmem.findArea])
      | succ fuel =>
        have : (0 : Nat) = a := by simpa [Kmem.findArea] using hf
        exact absurd this.symm ha0
    | cons b L₂ ih =>
      intro L₁ fuel he hf
      cases fuel with
      | zero => exact absurd hf (by simp [Kmem.findArea])
      | succ fuel =>
        have hb : b ∈ L := by simp [he]
        have hb0 : b ≠ 0 := fun e => h.zero_notMem (e ▸ hb)
        rw [List.headD_cons, Kmem.findArea, if_neg hb0] at hf
        split at hf
        · rename_i hin
          obtain rfl := Option.some.inj hf
          exact ⟨hb, hin.1⟩
        · rw [h.next_eq he] at hf
          exact ih (L₁ ++ [b]) fuel (by rw [he]; simp) hf
  unfold Kmem.getMemoryArea at ha
  split at ha
  · exact absurd (Option.some.inj ha).symm ha0
  · rw [h.first_eq] at ha
    exact hfind L [] _ rfl ha

/-! ## The life of an address space -/

/-- An address space in the kernel's memory. -/
structure Life where
  k : Kmem
  v : Vmm

/-- What happens to it. -/
inductive LifeAction where
  | alloc (base sz : Nat) (flags : BitVec 8)
  | fault (va : Nat)
  | free (area : Nat)

namespace Life

/-- The effect of an action; `none` is a loop that does not end. -/
def step (s : Life) : LifeAction → Option Life
  | .alloc base sz flags => (s.k.vmmAllocAt base s.v sz flags).map fun (k, v, _) => ⟨k, v⟩
  | .fault va => (s.k.onDemandAllocation s.v va).map fun (k, _) => ⟨k, s.v⟩
  | .free area => (s.k.vmmFreeArea s.v area).map fun (k, v, _) => ⟨k, v⟩

/-- What the callers promise: arguments are `u64`s, and areas that are freed are listed. -/
def Promised (s : Life) : LifeAction → Prop
  | .alloc base sz _ => base < u64Size ∧ sz < u64Size
  | .fault va => va < u64Size
  | .free area => area = 0 ∨ Listed s.k s.v area

/-- The condition on the steps: an area gets a record only if there is a page for the container it
needs; a fault takes no page, because no area is there, or no page is free and no table; and what is
unmapped has no descriptor that was left in the table. -/
def Returnable (s : Life) : LifeAction → Prop
  | .alloc base sz _ => Accepted s.v base sz → NeedsContainer s.v → s.k.free ≠ []
  | .fault va => s.k.getMemoryArea s.v va = some 0 ∨
    (s.k.free = [] ∧ (s.k.walk s.v.rootPagetable va false).2 = none)
  | .free area => Listed s.k s.v area → Bare s.k s.v.rootPagetable area

/-- The condition on the end: no listed area has a descriptor, and the last container's page was left
with 0 in the place of its `next`. -/
def Destroyable (s : Life) : Prop :=
  (∀ a, Listed s.k s.v a → Bare s.k s.v.rootPagetable a) ∧
    (s.v.currentContainer ≠ 0 → s.k.containerNext s.v.currentContainer = 0)

end Life

/-- The lives of an address space from its creation on in which every step meets `P`. -/
abbrev LifeRun (P : Life → LifeAction → Prop) : Life → Life → Prop :=
  Run Life.step fun s a => s.Promised a ∧ P s a

/-- **The pages of an address space**: the root, and the containers `P`; all others are free as they
were in `k₀`. -/
structure Accounted (k₀ : Kmem) (root : Nat) (s : Life) (P L : List Nat) : Prop where
  linked : Linked s.k s.v (P.map physToVirt) L
  pages : k₀.free = root :: (P ++ s.k.free)
  rootPagetable : s.v.rootPagetable = physToVirt root
  aligned : Aligned s.v
  placed : ∀ a ∈ L, Placed s.k a

section

variable {k k' k₀ : Kmem} {v v' : Vmm} {root : Nat} {s s' : Life} {P L : List Nat}

theorem FreeOk.virtToPhys (h : FreeOk k) {p : Nat} (hp : p ∈ k.free) :
    virtToPhys (physToVirt p) = p ∧ pageStart p = p := by
  have hm := h.mapped p hp
  have hpos : 0 < physicalOffset := by decide
  refine ⟨?_, pageStart_of_aligned (h.aligned p hp)⟩
  rw [Memory.virtToPhys, physToVirt, u64Add_eq (by omega), u64Sub_eq (by omega) (by omega)]
  omega

theorem FreeOk.physToVirt_inj (h : FreeOk k) {p q : Nat} (hp : p ∈ k.free) (hq : q ∈ k.free)
    (he : physToVirt p = physToVirt q) : p = q := by
  rw [← (h.virtToPhys hp).1, he, (h.virtToPhys hq).1]

/-- A lookup reads the tables only. -/
theorem walkFrom_tables (ht : k'.tables = k.tables) (va : Nat) : ∀ (level t : Nat),
    (Kmem.walkFrom va false level k' t).2 = (Kmem.walkFrom va false level k t).2
  | 0, t => rfl
  | level + 1, t => by
    simp only [Kmem.walkFrom, ht, Bool.not_false, if_true]
    split
    · split
      · rfl
      · exact walkFrom_tables ht va level _
    · rfl

theorem Bare.congr {a : Nat} (h : Bare k root a) (ht : k'.tables = k.tables)
    (hs : (k'.areas a).start = (k.areas a).start) (hz : (k'.areas a).size = (k.areas a).size) :
    Bare k' root a := by
  intro va h₁ h₂
  rw [Kmem.areaLast, hs, hz] at h₂
  rw [hs] at h₁
  exact (walkFrom_tables ht va 3 root).trans (h va h₁ h₂)

/-- A new container is not one of the others. -/
theorem Accounted.fresh (h : Accounted k₀ root s P L) (hok : FreeOk k₀) {page : Nat}
    {free : List Nat} (hfree : s.k.free = page :: free) :
    FreshContainer s.k (P.map physToVirt) page := by
  have hmem : ∀ q, q ∈ P ∨ q = page → q ∈ k₀.free := by
    intro q hq
    rw [h.pages, hfree]
    rcases hq with hq | rfl
    · simp [hq]
    · simp
  have hpage := hmem page (.inr rfl)
  refine ⟨⟨free, hfree⟩, hok.aligned page hpage, hok.mapped page hpage, fun hin => ?_⟩
  obtain ⟨q, hq, he⟩ := List.mem_map.mp hin
  obtain rfl := hok.physToVirt_inj (hmem q (.inl hq)) hpage he
  have hnd := hok.nodup
  rw [h.pages, hfree, List.nodup_cons, List.nodup_append] at hnd
  exact hnd.2.2.2 q hq q (by simp) rfl

theorem Accounted.alloc (h : Accounted k₀ root s P L) (hok : FreeOk k₀) {base sz a : Nat}
    {flags : BitVec 8} (hneeds : Accepted s.v base sz → NeedsContainer s.v → s.k.free ≠ [])
    (hrun : s.k.vmmAllocAt base s.v sz flags = some (k', v', a)) :
    ∃ P' L', Accounted k₀ root ⟨k', v'⟩ P' L' := by
  rcases vmmAllocAt_cases hrun with ⟨rfl, rfl, -⟩ | ⟨hne, hle, -⟩
  · exact ⟨P, L, h⟩
  obtain ⟨page, hpage⟩ : ∃ page, NeedsContainer s.v →
      FreshContainer s.k (P.map physToVirt) page := by
    cases hf : s.k.free with
    | nil => exact ⟨0, fun hn => absurd hf (hneeds ⟨hne, hle⟩ hn)⟩
    | cons page free => exact ⟨page, fun _ => h.fresh hok hf⟩
  rcases h.linked.alloc hpage hrun with ⟨rfl, rfl, -⟩ | ⟨hl, hsame, -, hfree⟩
  · exact ⟨P, L, h⟩
  have ha0 : a ≠ 0 := fun e => hl.zero_notMem (by simp [e])
  refine ⟨P ++ if NeedsContainer s.v then [page] else [], L ++ [a], ?_, ?_, ?_, ?_, fun b hb => ?_⟩
  · have hC : grownContainers s.v (P.map physToVirt) page =
        (P ++ if NeedsContainer s.v then [page] else []).map physToVirt := by
      unfold grownContainers
      by_cases hn : NeedsContainer s.v <;> simp [hn]
    rw [← hC]
    exact hl
  · rw [h.pages, hfree, List.append_assoc]
  · exact (vmmAllocAt_keepsTables hrun).root.trans h.rootPagetable
  · exact h.aligned.alloc hrun
  · rcases List.mem_append.mp hb with hb | hb
    · exact (h.placed b hb).congr (hsame b hb).1 (hsame b hb).2.1
    · rw [List.mem_singleton.mp hb]
      exact placed_of_alloc h.aligned hrun ha0

theorem Accounted.free (h : Accounted k₀ root s P L) {a : Nat} {b : Bool} (ha : Listed s.k s.v a)
    (hb : Bare s.k s.v.rootPagetable a) (hrun : s.k.vmmFreeArea s.v a = some (k', v', b)) :
    ∃ P' L', Accounted k₀ root ⟨k', v'⟩ P' L' := by
  obtain ⟨L₁, L₂, rfl⟩ := List.append_of_mem (h.linked.mem_of_listed ha)
  have hunlink := h.linked.unlink
  have hpl := h.placed a (by simp)
  rw [h.linked.freeArea] at hrun
  obtain ⟨areas, heq, hrec⟩ := unlinkArea_eq s.k s.v a
  rw [heq] at hrun hunlink
  have hbare : Bare { s.k with areas } s.v.rootPagetable a :=
    hb.congr rfl (hrec a).1 (hrec a).2.1
  have hplaced : Placed { s.k with areas } a := hpl.congr (hrec a).1 (hrec a).2.1
  obtain ⟨free, hfree⟩ : ∃ free, free = decide ((s.k.areas a).isMmio = 0) := ⟨_, rfl⟩
  have hun : ({ s.k with areas } : Kmem).unmappages s.v.rootPagetable (areas a).start (areas a).size
      free = some { s.k with areas } := unmappages_of_bare hbare hplaced
  rw [(hrec a).1, (hrec a).2.1, hfree] at hun
  rw [hun] at hrun
  simp only [Option.map_some, Option.some.injEq, Prod.mk.injEq] at hrun
  obtain ⟨rfl, rfl, -⟩ := hrun
  refine ⟨P, L₁ ++ L₂, hunlink, h.pages, h.rootPagetable, h.aligned.congr ⟨rfl, rfl, rfl⟩,
    fun b hb => ?_⟩
  have hsub : (L₁ ++ L₂).Sublist (L₁ ++ a :: L₂) := by simp
  exact (h.placed b (hsub.subset hb)).congr (hrec b).1 (hrec b).2.1

/-- **Every step that meets the condition** keeps the account. -/
theorem Accounted.step (h : Accounted k₀ root s P L) (hok : FreeOk k₀) {a : LifeAction}
    (hp : s.Promised a) (hr : s.Returnable a) (hstep : s.step a = some s') :
    ∃ P' L', Accounted k₀ root s' P' L' := by
  cases a with
  | alloc base sz flags =>
    unfold Life.step at hstep
    obtain ⟨⟨k, v, a⟩, hrun, rfl⟩ := Option.map_eq_some_iff.mp hstep
    exact h.alloc hok hr hrun
  | fault va =>
    unfold Life.step at hstep
    obtain ⟨⟨k, b⟩, hrun, rfl⟩ := Option.map_eq_some_iff.mp hstep
    have hsame : s.k.onDemandAllocation s.v va = some (s.k, false) := by
      rcases hr with h0 | ⟨hfree, hnone⟩
      · exact onDemandAllocation_of_zero h0
      · obtain ⟨a, ha⟩ : ∃ a, s.k.getMemoryArea s.v va = some a := by
          cases hg : s.k.getMemoryArea s.v va with
          | none => simp [Kmem.onDemandAllocation, hg] at hrun
          | some a => exact ⟨a, rfl⟩
        by_cases ha0 : a = 0
        · exact onDemandAllocation_of_zero (ha0 ▸ ha)
        · obtain ⟨hmem, hle⟩ := h.linked.getMemoryArea_mem ha ha0
          have h₁ := (h.placed a hmem).start
          have h₂ := (h.placed a hmem).pos
          exact onDemandAllocation_of_nil hp ha (by omega) hfree hnone
    rw [hsame] at hrun
    obtain ⟨rfl, -⟩ := Prod.mk.inj (Option.some.inj hrun)
    exact ⟨P, L, h⟩
  | free a =>
    unfold Life.step at hstep
    obtain ⟨⟨k, v, b⟩, hrun, rfl⟩ := Option.map_eq_some_iff.mp hstep
    rcases hp with rfl | hlisted
    · obtain ⟨rfl, rfl, -⟩ : s.k = k ∧ s.v = v ∧ false = b := by simpa [Kmem.vmmFreeArea] using hrun
      exact ⟨P, L, h⟩
    · exact h.free hlisted (hr hlisted) hrun

/-! ## `vmm_destroy` -/

theorem Linked.listed_of_mem {C : List Nat} (h : Linked k v C L) {a : Nat} (ha : a ∈ L) :
    Listed k v a := by
  have hall : ∀ L₂ L₁ : List Nat, L = L₁ ++ L₂ → (L₂ ≠ [] → Listed k v (L₂.headD 0)) →
      ∀ a ∈ L₂, Listed k v a := by
    intro L₂
    induction L₂ with
    | nil => simp
    | cons b L₂ ih =>
      intro L₁ he hhead a ha
      have hb : Listed k v b := hhead (List.cons_ne_nil b L₂)
      rcases List.mem_cons.mp ha with rfl | ha
      · exact hb
      · refine ih (L₁ ++ [b]) (by rw [he]; simp) (fun hne => ?_) a ha
        rw [← h.next_eq he]
        refine .next hb ?_
        rw [h.next_eq he]
        intro h0
        cases L₂ with
        | nil => exact hne rfl
        | cons c L₂ => exact h.zero_notMem (by rw [he]; simp_all)
  refine hall L [] rfl (fun hne => ?_) a ha
  rw [← h.first_eq]
  refine .first fun h0 => ?_
  rw [h.first_eq] at h0
  cases L with
  | nil => exact hne rfl
  | cons b L => exact h.zero_notMem (by simp_all)

theorem Linked.destroyAreas {C : List Nat} (h : Linked k v C L) {pagetable : Nat}
    (hb : ∀ a ∈ L, Bare k pagetable a) (hp : ∀ a ∈ L, Placed k a) :
    ∀ (L₂ L₁ : List Nat) (fuel : Nat), L = L₁ ++ L₂ → L₂.length < fuel →
    Kmem.destroyAreas pagetable fuel k (L₂.headD 0) = some k
  | [], _, fuel, _, hf => by
    cases fuel with
    | zero => simp at hf
    | succ fuel => rfl
  | a :: L₂, L₁, fuel, he, hf => by
    cases fuel with
    | zero => simp at hf
    | succ fuel =>
      have hmem : a ∈ L := by simp [he]
      have ha0 : a ≠ 0 := fun e => h.zero_notMem (e ▸ hmem)
      rw [List.headD_cons, Kmem.destroyAreas, if_neg ha0,
        unmappages_of_bare (hb a hmem) (hp a hmem), Option.bind_some, h.next_eq he]
      exact h.destroyAreas hb hp L₂ (L₁ ++ [a]) fuel (by rw [he]; simp) (by simpa using hf)

/-- **The second loop** frees the containers, the last of which ends it. -/
theorem destroyContainers_spec : ∀ (C : List Nat) (k : Kmem) (fuel : Nat), C.length < fuel →
    List.IsChain (fun a b => k.containerNext a = b) C →
    (∀ c ∈ C, c ≠ 0 ∧ pageStart (virtToPhys c) = virtToPhys c) →
    (C.map virtToPhys).Nodup → (∀ p ∈ C.map virtToPhys, p ∉ k.free) →
    (C ≠ [] → k.containerNext (C.getLastD 0) = 0) →
    Kmem.destroyContainers fuel k (C.headD 0) =
      some { k with free := (C.map virtToPhys).reverse ++ k.free }
  | [], k, fuel, hf, _, _, _, _, _ => by
    cases fuel with
    | zero => simp at hf
    | succ fuel => rfl
  | c :: C, k, fuel, hf, hchain, hC, hnd, hfree, hlast => by
    cases fuel with
    | zero => simp at hf
    | succ fuel =>
      obtain ⟨h0, hstart⟩ := hC c List.mem_cons_self
      obtain ⟨p, hp⟩ : ∃ p, p = virtToPhys c := ⟨_, rfl⟩
      rw [List.map_cons, ← hp] at hnd hfree
      rw [← hp] at hstart
      obtain ⟨hpC, hndC⟩ := List.nodup_cons.mp hnd
      have hpfree : p ∉ k.free := hfree p List.mem_cons_self
      have hkfree : k.kfree p = { k with free := p :: k.free } := by
        rw [Kmem.kfree, hstart, if_neg hpfree]
      have hnext : k.containerNext c = C.headD 0 := by
        cases C with
        | nil => exact hlast (List.cons_ne_nil c [])
        | cons d C => exact (List.isChain_cons_cons.mp hchain).1
      have hlast' : C ≠ [] → k.containerNext (C.getLastD 0) = 0 := by
        intro hne
        have h := hlast (List.cons_ne_nil c C)
        cases C with
        | nil => exact absurd rfl hne
        | cons d C =>
          rw [List.getLastD_cons] at h ⊢
          rwa [List.getLastD_cons] at h
      have ih := destroyContainers_spec C { k with free := p :: k.free } fuel (by simpa using hf)
        hchain.tail (fun d hd => hC d (List.mem_cons_of_mem c hd)) hndC (fun q hq hm => ?_) hlast'
      · rw [List.headD_cons, Kmem.destroyContainers, if_neg h0, ← hp, hkfree, hnext]
        simp only
        rw [ih, List.map_cons, List.reverse_cons, ← hp, List.append_assoc, List.singleton_append]
      · rcases List.mem_cons.mp hm with rfl | hm
        · exact hpC hq
        · exact hfree q (List.mem_cons_of_mem p hq) hm

/-- **`vmm_destroy`** of an address space whose pages are accounted for. -/
theorem Accounted.destroy (h : Accounted k₀ root s P L) (hok : FreeOk k₀) (hd : s.Destroyable) :
    ∃ k', s.k.vmmDestroy s.v = some k' ∧ ∀ p, p ∈ k'.free ↔ p ∈ k₀.free := by
  obtain ⟨hbare, hnext⟩ := hd
  have hnd := hok.nodup
  rw [h.pages, List.nodup_cons, List.nodup_append] at hnd
  obtain ⟨hroot, hndP, -, hapart⟩ := hnd
  have hmem : ∀ p, p ∈ P ∨ p = root → p ∈ k₀.free := by
    intro p hp
    rw [h.pages]
    rcases hp with hp | rfl
    · simp [hp]
    · simp
  have hvirt : (P.map physToVirt).map virtToPhys = P := by
    rw [List.map_map]
    exact (List.map_congr_left fun p hp => (hok.virtToPhys (hmem p (.inl hp))).1).trans
      (List.map_id P)
  have hc := h.linked.containers
  have hareas := h.linked.destroyAreas
    (fun a ha => hbare a (h.linked.listed_of_mem ha)) h.placed L [] u64Size rfl h.linked.length_lt
  have hconts := destroyContainers_spec (P.map physToVirt) s.k u64Size hc.length_lt hc.chain
    (fun c hcC => ⟨Nat.ne_of_gt (hc.pos c hcC), ?_⟩) (by rw [hvirt]; exact hndP)
    (by rw [hvirt]; exact fun p hp hm => hapart p hp p hm rfl) fun hne => ?_
  · obtain ⟨hr₁, hr₂⟩ := hok.virtToPhys (hmem root (.inr rfl))
    have hrootP : root ∉ P.reverse ++ s.k.free := by
      simpa using hroot
    rw [hvirt] at hconts
    refine ⟨{ s.k with free := root :: (P.reverse ++ s.k.free) }, ?_, fun p => ?_⟩
    · unfold Kmem.vmmDestroy
      rw [h.linked.first_eq, hareas, hc.root]
      simp only [Option.bind_eq_bind, Option.bind_some, hconts]
      rw [h.rootPagetable, hr₁, Kmem.kfree, hr₂, if_neg hrootP]
      rfl
    · rw [h.pages]
      simp
  · obtain ⟨p, hp, rfl⟩ := List.mem_map.mp hcC
    obtain ⟨h₁, h₂⟩ := hok.virtToPhys (hmem p (.inl hp))
    rw [h₁, h₂]
  · rw [← hc.current]
    exact hnext fun h0 => hne (hc.eq_nil_iff.mp h0)

end

/-- **An address space that meets the conditions gives back the pages it took**: after what
`vmm_destroy` does to the pages the free ones are those before `vmm_create`. Whether the two `free`
of the heap behind it return is not said here. -/
theorem vmm_destroy_returns {k₀ k₁ : Kmem} {start stop : Nat} {user : Bool} {v : Vmm} {s : Life}
    (hok : FreeOk k₀) (hstop : stop < u64Size)
    (hcreate : k₀.vmmCreate true true start stop user = (k₁, some v))
    (hrun : LifeRun Life.Returnable ⟨k₁, v⟩ s) (hd : s.Destroyable) :
    ∃ k', s.k.vmmDestroy s.v = some k' ∧ ∀ p, p ∈ k'.free ↔ p ∈ k₀.free := by
  obtain ⟨root, free, hfree, -, rfl, rfl⟩ := vmmCreate_eq hcreate
  have hinit : Accounted k₀ root ⟨{ k₀ with free }, vmmInit (physToVirt root) start stop user⟩
      [] [] :=
    ⟨(AreaList.init hstop).linked, hfree, rfl, aligned_init hstop, by simp⟩
  obtain ⟨P, L, h⟩ := Run.invariant (fun s => ∃ P L, Accounted k₀ root s P L) ⟨[], [], hinit⟩
    (fun s a s' ⟨P, L, h⟩ ha hstep => h.step hok ha.1 ha.2 hstep) hrun
  exact h.destroy hok hd

/-- An address space with one area of one page. -/
def lifeArea : Life :=
  (Life.step ⟨{ emptyKmem with free := [0x3000, 0x4000] },
    vmmInit (physToVirt 0x2000) lowhalfStart lowhalfEnd true⟩ (.alloc 0x400000 1 1)).get
    (by decide +kernel)

/-- An area that was never touched goes back with its container and the root. -/
theorem vmm_destroy_returns_one : ∃ k₁ v k',
    emptyKmem.vmmCreate true true lowhalfStart lowhalfEnd true = (k₁, some v) ∧
    LifeRun Life.Returnable ⟨k₁, v⟩ lifeArea ∧ lifeArea.v.firstArea = physToVirt 0x3000 ∧
    lifeArea.k.vmmDestroy lifeArea.v = some k' ∧ ∀ p, p ∈ k'.free ↔ p ∈ emptyKmem.free := by
  have hcreate : emptyKmem.vmmCreate true true lowhalfStart lowhalfEnd true =
      ({ emptyKmem with free := [0x3000, 0x4000] },
        some (vmmInit (physToVirt 0x2000) lowhalfStart lowhalfEnd true)) := rfl
  have hrun : LifeRun Life.Returnable ⟨{ emptyKmem with free := [0x3000, 0x4000] },
      vmmInit (physToVirt 0x2000) lowhalfStart lowhalfEnd true⟩ lifeArea :=
    .step (.alloc 0x400000 1 1) .init ⟨⟨by decide, by decide⟩, fun _ _ => by simp⟩
      (Option.some_get _).symm
  have hok : FreeOk emptyKmem := by
    constructor <;> decide
  have htables : lifeArea.k.tables = emptyKmem.tables := rfl
  have hd : lifeArea.Destroyable := by
    refine ⟨fun a _ va _ _ => ?_, fun _ => rfl⟩
    rw [Kmem.walk, walkFrom_tables htables, walkFrom_absent Entry.present_zero]
  obtain ⟨k', hk', hfree⟩ := vmm_destroy_returns hok (by decide) hcreate hrun hd
  exact ⟨_, _, k', hcreate, hrun, by decide +kernel, hk', hfree⟩

/-- Seven free pages. -/
def sevenPages : Kmem :=
  { emptyKmem with free := [0x2000, 0x3000, 0x4000, 0x5000, 0x6000, 0x7000, 0x8000] }

/-- One page of an area is touched before the address space is destroyed: the three tables that
`walk` took for it are lost. -/
theorem vmm_destroy_leaks : ∃ k₁ v s k',
    sevenPages.vmmCreate true true lowhalfStart lowhalfEnd true = (k₁, some v) ∧
    LifeRun (fun _ _ => True) ⟨k₁, v⟩ s ∧ s.k.vmmDestroy s.v = some k' ∧
    k'.free = [0x2000, 0x3000, 0x4000, 0x8000] ∧
    ¬ ∀ p, p ∈ k'.free ↔ p ∈ sevenPages.free := by
  have hcreate : sevenPages.vmmCreate true true lowhalfStart lowhalfEnd true =
      ({ sevenPages with free := [0x3000, 0x4000, 0x5000, 0x6000, 0x7000, 0x8000] },
        some (vmmInit (physToVirt 0x2000) lowhalfStart lowhalfEnd true)) := rfl
  obtain ⟨k₁, hk₁⟩ : ∃ k₁ : Kmem, k₁ =
    { sevenPages with free := [0x3000, 0x4000, 0x5000, 0x6000, 0x7000, 0x8000] } := ⟨_, rfl⟩
  obtain ⟨v, hv⟩ : ∃ v : Vmm, v = vmmInit (physToVirt 0x2000) lowhalfStart lowhalfEnd true :=
    ⟨_, rfl⟩
  rw [← hk₁, ← hv] at hcreate
  have hall : ((Life.step ⟨k₁, v⟩ (.alloc 0x400000 1 1)).bind fun s₁ =>
      (s₁.step (.fault 0x400000)).bind fun s₂ =>
        (s₂.k.vmmDestroy s₂.v).map Kmem.free) = some [0x2000, 0x3000, 0x4000, 0x8000] := by
    rw [hk₁, hv]
    decide +kernel
  obtain ⟨s₁, hs₁, hall⟩ := Option.bind_eq_some_iff.mp hall
  obtain ⟨s₂, hs₂, hall⟩ := Option.bind_eq_some_iff.mp hall
  obtain ⟨k', hk', hfree⟩ := Option.map_eq_some_iff.mp hall
  refine ⟨k₁, v, s₂, k', hcreate, ?_, hk', hfree, fun heq => ?_⟩
  · have hva : 0x400000 < u64Size := by decide
    exact .step (.fault 0x400000) (.step (.alloc 0x400000 1 1) .init
      ⟨⟨hva, by decide⟩, trivial⟩ hs₁) ⟨hva, trivial⟩ hs₂
  · have h5 := (heq 0x5000).mpr (by decide)
    rw [hfree] at h5
    exact absurd h5 (by decide)

end Colibri.Memory

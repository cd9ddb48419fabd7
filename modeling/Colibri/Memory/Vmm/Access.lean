import Colibri.Memory.Vmm.Exhaustion
import Colibri.Memory.Vmm.Isolation

/-!
# The access to an area

`update_area_access` writes the flags into the area's record, which page faults read, and into the
descriptors of its pages. `updatepages` looks up the descriptors one after the other, and returns at
the first that has no page table: an area whose pages are mapped by faults can have holes that large.

## Results

* `updateLoop_leaves`: the pages in front of the first one without a page table get the flags, the
  others keep what they have.
* `update_area_access_iff`: all is as asked for iff what was not reached had the access already.
-/

namespace Colibri.Memory

open Colibri.Lib

/-! ## What flags grant -/

/-- The access that `flags` give to a page. -/
structure Grants (nx : Bool) (flags : BitVec 8) (t : Translation) : Prop where
  writable : t.writable = flags.getLsbD 0
  user : t.user = flags.getLsbD 1
  xd : t.xd = (nx && !flags.getLsbD 2)

theorem grants_setFlags (nx : Bool) (flags : BitVec 8) (e : Entry) (x : Nat) :
    Grants nx flags (Entry.translation x
      (0, e.setFlags (vmflagToX86flag nx (flags.setWidth 64)))) := by
  have hbit : ∀ j < 64, pageFlagMask.getLsbD j = true →
      (e.setFlags (vmflagToX86flag nx (flags.setWidth 64))).raw.getLsbD j =
        (vmflagToX86flag nx (flags.setWidth 64)).getLsbD j := fun j hj hm => by
    rw [Entry.setFlags, BitVec.getLsbD_or, BitVec.getLsbD_and, BitVec.getLsbD_not, hm]
    simp
  refine ⟨?_, ?_, ?_⟩
  · exact (hbit 1 (by omega) (by decide)).trans (getLsbD_vmflag nx flags (by omega))
  · exact (hbit 2 (by omega) (by decide)).trans (getLsbD_vmflag nx flags (by omega))
  · exact (hbit 63 (by omega) (by decide)).trans (getLsbD_vmflag nx flags (by omega))

theorem grants_ofPage {nx : Bool} {flags : BitVec 8} {p x : Nat} (hp : p % 4096 = 0)
    (hlt : p < 2 ^ 52) :
    Grants nx flags (Entry.translation x
      (0, Entry.ofPage p (vmflagToX86flag nx (flags.setWidth 64)))) := by
  rw [translation_ofPage hp hlt]
  exact ⟨rfl, rfl, rfl⟩

/-! ## Pages without a page table -/

/-- `walk` finds no descriptor for the address. -/
def NoTable (k : Kmem) (root va : Nat) : Prop := (k.walk root va false).2 = none

/-- The indexes of the tables on the way to the descriptor, from this level on. -/
def tableIndexes (va : Nat) : Nat → List Nat
  | 0 => []
  | level + 1 => va2Index va (level + 1) :: tableIndexes va level

theorem tableIndexes_three (va : Nat) : tableIndexes va 3 = (vaPath va).dropLast := rfl

theorem walkFrom_none {va : Nat} (level : Nat) {k : Kmem} {t : Nat}
    (h : (k.walkFrom va false level t).2 = none) :
    descend Entry.child k.tables t (tableIndexes va level) = none := by
  induction level generalizing t with
  | zero => exact absurd h (by simp [Kmem.walkFrom])
  | succ level ih =>
    rw [tableIndexes]
    cases hp : (k.tables t (va2Index va (level + 1))).present with
    | false => exact descend_cons_none (Entry.child_of_not_present hp)
    | true =>
      cases hl : (k.tables t (va2Index va (level + 1))).pageSize with
      | true =>
        rw [walkFrom_large hp hl] at h
        exact absurd h (Option.some_ne_none _)
      | false =>
        rw [walkFrom_table hp hl] at h
        rw [descend_cons (Entry.child_eq_some hp hl)]
        exact ih h

section

variable {hole root current stop x y : Nat} {k k' : Kmem} {nx : Bool} {flags : BitVec 8}

/-- Off the large pages, `walk` stops where the tables do. -/
theorem noTable_iff (hsmall : ∀ level e, leafAt k.tables root (vaPath x) ≠ some (level + 1, e)) :
    NoTable k root x ↔ descend Entry.child k.tables root (vaPath x).dropLast = none := by
  refine ⟨fun h => tableIndexes_three x ▸ walkFrom_none 3 h, fun h => ?_⟩
  obtain ⟨-, -, hslot⟩ := walk_lookup k root x
  unfold NoTable
  cases hw : (k.walk root x false).2 with
  | none => rfl
  | some d =>
    obtain ⟨t, i⟩ := d
    rcases hslot t i hw with ⟨r, he, hd⟩ | ⟨level, hl⟩
    · rw [he, List.dropLast_concat, hd] at h
      exact nomatch h
    · exact absurd hl (hsmall level _)

/-- A page descriptor is in a page table. -/
theorem NoTable.not_leafSlot {t i : Nat} (h : NoTable k root x)
    (hsmall : ∀ level e, leafAt k.tables root (vaPath x) ≠ some (level + 1, e)) :
    ¬LeafSlot k root x t i := by
  rintro ⟨r, he, hd⟩
  rw [noTable_iff hsmall, he, List.dropLast_concat, hd] at h
  exact nomatch h

/-! ## `updatepages` -/

/-- The pages from `current` to `stop` after `updatepages`. -/
structure Updated (hole : Nat) (nx : Bool) (flags : BitVec 8) (root current stop : Nat)
    (k k' : Kmem) : Prop where
  ready : ReadyOff hole k' root
  records : SameRecords k k'
  nx_eq : k'.nxFlagEnabled = k.nxFlagEnabled
  outside : ∀ q, OutsideOff hole current stop q →
    leafAt k'.tables root q = leafAt k.tables root q
  reached : ∀ x, current ≤ x → x ≤ stop → (∀ y, current ≤ y → y ≤ x → ¬NoTable k root y) →
    leafAt k'.tables root (vaPath x) = (leafAt k.tables root (vaPath x)).map fun l =>
      (l.1, l.2.setFlags (vmflagToX86flag nx (flags.setWidth 64)))
  behind : ∀ x, current ≤ x → x ≤ stop → (∃ y, current ≤ y ∧ y ≤ x ∧ NoTable k root y) →
    leafAt k'.tables root (vaPath x) = leafAt k.tables root (vaPath x)

theorem Updated.refl (h : ReadyOff hole k root)
    (hfirst : ∀ x, current ≤ x → x ≤ stop → ∃ y, current ≤ y ∧ y ≤ x ∧ NoTable k root y) :
    Updated hole nx flags root current stop k k :=
  ⟨h, .refl k, rfl, fun _ _ => rfl, fun x hx hx' hall => by
    obtain ⟨y, hy, hy', hno⟩ := hfirst x hx hx'
    exact absurd hno (hall y hy hy'), fun _ _ _ _ => rfl⟩

/-- What writing the flags into one descriptor does to the leaf of its page. -/
theorem LeafSlot.setFlags {t i : Nat} (h : ReadyOff hole k root)
    (hva : PagePathOff hole (vaPath current)) (hs : LeafSlot k root current t i)
    (hk' : k' = k.setEntry t i ((k.tables t i).setFlags (vmflagToX86flag nx (flags.setWidth 64)))) :
    ReadyOff hole k' root ∧
      leafAt k'.tables root (vaPath current) = (leafAt k.tables root (vaPath current)).map (fun l =>
        (l.1, l.2.setFlags (vmflagToX86flag nx (flags.setWidth 64)))) ∧
      (∀ q, PagePathOff hole q → q ≠ vaPath current →
        leafAt k'.tables root q = leafAt k.tables root q) ∧
      ∀ q, TablePathOff hole q →
        descend Entry.child k'.tables root q = descend Entry.child k.tables root q := by
  obtain ⟨hr, hpage, hrest⟩ := hs.set h hva
    ((k.tables t i).setFlags (vmflagToX86flag nx (flags.setWidth 64)))
  rw [← hk'] at hr hpage hrest
  refine ⟨hr, ?_, hrest, fun q hq => ?_⟩
  · rw [hpage, hs.leaf_eq, Option.filter_some, Option.filter_some, Entry.present_setFlags]
    split <;> rfl
  · obtain ⟨r, he, hd⟩ := hs
    rw [hk']
    exact h.descend_setLeaf hd (he ▸ hva) _ hq

/-- One round, then the rest of the range. -/
theorem Updated.step {t i : Nat} {k₁ : Kmem} (hrange : PageRangeOff hole current stop)
    (hlt : current < stop) (h : ReadyOff hole k root) (hlarge : NoLarge k root current stop)
    (hs : LeafSlot k root current t i)
    (hk₁ : k₁ = k.setEntry t i ((k.tables t i).setFlags (vmflagToX86flag nx (flags.setWidth 64))))
    (hu : Updated hole nx flags root (current + 4096) stop k₁ k') :
    Updated hole nx flags root current stop k k' := by
  have h₁ := hrange.aligned
  have hva := vaPath_pagePath (hrange.not_recursive current (Nat.le_refl _) (by omega))
  obtain ⟨-, hpage, hother, hdescend⟩ := hs.setFlags h hva hk₁
  have hlater : ∀ x, current + 4096 ≤ x → x ≤ stop →
      leafAt k₁.tables root (vaPath x) = leafAt k.tables root (vaPath x) := fun x hx hx' =>
    hother _ (vaPath_pagePath (hrange.not_recursive x (by omega) hx')) (hrange.outside hx hx')
  have hlarge₁ := hlarge.next hrange hother
  -- the tables are those of before
  have htable : ∀ y, current + 4096 ≤ y → y ≤ stop → (NoTable k₁ root y ↔ NoTable k root y) := by
    intro y hy hy'
    have hpath := vaPath_pagePath (hrange.not_recursive y (by omega) hy')
    rw [noTable_iff (hlarge₁ y hy hy'), noTable_iff (hlarge y (by omega) hy'),
      hdescend _ (hpath.tablePath (List.dropLast_append_getLast (List.ne_nil_of_length_eq_add_one
        hpath.1)).symm)]
  have hfirst : ∀ y, current ≤ y → y < current + 4096 → vaPath y = vaPath current := by
    intro y hy hy'
    refine vaPath_of_pageStart ?_
    rw [pageStart_of_aligned h₁, pageStart_eq_iff h₁]
    omega
  have hhas : ∀ y, current ≤ y → y < current + 4096 → y ≤ stop → ¬NoTable k root y := by
    intro y hy hy' hstop hno
    refine hno.not_leafSlot (hlarge y hy hstop) (t := t) (i := i) ?_
    obtain ⟨r, he, hd⟩ := hs
    exact ⟨r, (hfirst y hy hy').trans he, hd⟩
  have hkept : ∀ x, current ≤ x → x < current + 4096 →
      leafAt k'.tables root (vaPath x) = leafAt k₁.tables root (vaPath current) := by
    intro x hx hx'
    rw [hfirst x hx hx']
    exact hu.outside _ ⟨hva, fun y hy hy' he => hrange.outside hy hy' he.symm⟩
  refine ⟨hu.ready, ?_, ?_, fun q hq => ?_, fun x hx hx' hall => ?_, fun x hx hx' hno => ?_⟩
  · have : SameRecords k k₁ := hk₁ ▸ ⟨rfl, rfl⟩
    exact this.trans hu.records
  · rw [hu.nx_eq, hk₁]
    rfl
  · rw [hu.outside q hq.next, hother q hq.1 (hq.2 current (Nat.le_refl _) (by omega))]
  · rcases Nat.lt_or_ge x (current + 4096) with hnear | hfar
    · rw [hkept x hx hnear, hpage, hfirst x hx hnear]
    · rw [hu.reached x hfar hx' fun y hy hy' hn =>
        hall y (by omega) hy' ((htable y hy (by omega)).mp hn), hlater x hfar hx']
  · obtain ⟨y, hy, hy', hn⟩ := hno
    rcases Nat.lt_or_ge y (current + 4096) with hnear | hfar
    · exact absurd hn (hhas y hy hnear (by omega))
    · rw [hu.behind x (by omega) hx' ⟨y, hfar, hy', (htable y hfar (by omega)).mpr hn⟩,
        hlater x (by omega) hx']

/-- **The loop of `updatepages`** gives the flags to the pages in front of the first one without a
page table. The induction is on the rounds. -/
theorem updateLoop_leaves (fuel : Nat) (hfuel : stop < current + 4096 * fuel)
    (hrange : PageRangeOff hole current stop) (h : ReadyOff hole k root)
    (hlarge : NoLarge k root current stop) :
    ∃ k' b, Kmem.updateLoop root stop (vmflagToX86flag nx (flags.setWidth 64)) (fuel + 1) k current =
      some (k', b) ∧ Updated hole nx flags root current stop k k' := by
  induction fuel generalizing k current with
  | zero =>
    rw [Kmem.updateLoop, if_neg (by omega)]
    exact ⟨k, true, rfl, .refl h fun x hx hx' => absurd hx' (by omega)⟩
  | succ fuel ih =>
    rw [Kmem.updateLoop]
    by_cases hlt : current < stop
    · obtain ⟨hadd, hnext⟩ := hrange.next hlt
      obtain ⟨hk, -, hslot⟩ := walk_lookup k root current
      obtain ⟨k₀, d, hw⟩ : ∃ k₀ d, k.walk root current false = (k₀, d) := ⟨_, _, rfl⟩
      rw [hw] at hk hslot
      obtain rfl : k₀ = k := hk
      rw [if_pos hlt, hw]
      cases d with
      | none =>
        have hno : NoTable k₀ root current := congrArg Prod.snd hw
        exact ⟨k₀, false, rfl, .refl h fun x hx _ => ⟨current, Nat.le_refl _, hx, hno⟩⟩
      | some d =>
        obtain ⟨t, i⟩ := d
        have hs : LeafSlot k₀ root current t i := by
          rcases hslot t i rfl with hs | ⟨level, hl⟩
          · exact hs
          · exact absurd hl (hlarge current (Nat.le_refl _) (by omega) level _)
        obtain ⟨k₁, hk₁⟩ : ∃ k₁, k₁ = k₀.setEntry t i
          ((k₀.tables t i).setFlags (vmflagToX86flag nx (flags.setWidth 64))) := ⟨_, rfl⟩
        simp only [← hk₁, hadd]
        have hva := vaPath_pagePath (hrange.not_recursive current (Nat.le_refl _) (by omega))
        obtain ⟨hr, -, hother, -⟩ := hs.setFlags h hva hk₁
        obtain ⟨k', b, hrun, hu⟩ := ih (by omega) hnext hr (hlarge.next hrange hother)
        exact ⟨k', b, hrun, .step hrange hlt h hlarge hs hk₁ hu⟩
    · rw [if_neg hlt]
      have hmod := hrange.stop_mod
      have hal := hrange.aligned
      exact ⟨k, true, rfl, .refl h fun x hx hx' => absurd hx' (by omega)⟩

end

/-! ## Areas -/

/-- What `update_area_access` makes of its flags. -/
def areaFlags (v : Vmm) (flags : BitVec 8) : BitVec 8 :=
  if v.userVmm then flags ||| memoryFlagUser else flags

/-- The area `a` of an address space: its addresses are canonical, and its pages are small. -/
structure SmallArea (hole : Nat) (k : Kmem) (v : Vmm) (C L : List Nat) (a : Nat) : Prop where
  areas : AreaList k v C L
  ready : ReadyOff hole k v.rootPagetable
  listed : a ∈ L
  canonical : ∀ x, InArea k a x → Canonical x
  not_recursive : ∀ x, InArea k a x → va2Index x 3 ≠ hole
  small : ∀ x, InArea k a x → ∀ level e,
    leafAt k.tables v.rootPagetable (vaPath x) ≠ some (level + 1, e)

/-- A later state of the address space, in which the area is listed and has its record of `k`. -/
structure Later (hole : Nat) (k : Kmem) (v : Vmm) (a : Nat) (k₁ : Kmem) (v₁ : Vmm) (C₁ L₁ : List Nat) :
    Prop where
  areas : AreaList k₁ v₁ C₁ L₁
  ready : ReadyOff hole k₁ v₁.rootPagetable
  listed : a ∈ L₁
  record : (k₁.areas a).start = (k.areas a).start ∧ (k₁.areas a).size = (k.areas a).size ∧
    (k₁.areas a).flags = (k.areas a).flags
  nx : k₁.nxFlagEnabled = k.nxFlagEnabled

/-- **What `update_area_access` should do**: the pages that are present get the access and those that
are mapped later do too, physical addresses stay, and so do the other pages. -/
structure AccessSet (hole : Nat) (k : Kmem) (v : Vmm) (a : Nat) (flags : BitVec 8) (k' : Kmem) :
    Prop where
  present : ∀ x, InArea k a x → ∀ t, translate k'.tables v.rootPagetable x = some t →
    Grants k.nxFlagEnabled (areaFlags v flags) t
  faulted : ∀ k₁ v₁ C₁ L₁, Later hole k' v a k₁ v₁ C₁ L₁ → ∀ va k₂, InArea k a va →
    k₁.onDemandAllocation v₁ va = some (k₂, true) → ∀ x, pageStart x = pageStart va →
    ∃ t, translate k₂.tables v₁.rootPagetable x = some t ∧
      Grants k.nxFlagEnabled (areaFlags v flags) t
  places : ∀ x, Canonical x → va2Index x 3 ≠ hole →
    (translate k'.tables v.rootPagetable x).map Translation.pa =
      (translate k.tables v.rootPagetable x).map Translation.pa
  outside : ∀ x, Canonical x → va2Index x 3 ≠ hole → ¬InArea k a x →
    translate k'.tables v.rootPagetable x = translate k.tables v.rootPagetable x

/-- The address is in or behind a page of the area that has no page table. -/
def BehindHole (k : Kmem) (v : Vmm) (a x : Nat) : Prop :=
  ∃ y, InArea k a y ∧ y ≤ x ∧ NoTable k v.rootPagetable y

/-- What `updatepages` does not reach has the access already. -/
def AccessBehind (k : Kmem) (v : Vmm) (a : Nat) (flags : BitVec 8) : Prop :=
  ∀ x, InArea k a x → BehindHole k v a x → ∀ t, translate k.tables v.rootPagetable x = some t →
    Grants k.nxFlagEnabled (areaFlags v flags) t

section

variable {hole a va : Nat} {k k' : Kmem} {v : Vmm} {C L : List Nat} {flags : BitVec 8}

/-- The pages of an area. -/
theorem AreaList.pageRange (h : AreaList k v C L) (ha : a ∈ L)
    (hcanon : ∀ x, InArea k a x → Canonical x) (hhole : ∀ x, InArea k a x → va2Index x 3 ≠ hole) :
    PageRangeOff hole (k.areas a).start (areaEnd k a - 1) := by
  obtain ⟨hal, hsz⟩ := h.aligned a ha
  have hpos := h.pos a ha
  have hlt := (h.stop_eq ha).2
  have hin : ∀ x, (k.areas a).start ≤ x → x ≤ areaEnd k a - 1 → InArea k a x := fun x hx hx' => by
    refine ⟨hx, ?_⟩
    unfold areaEnd at hx' ⊢
    omega
  refine ⟨hal, ?_, ?_, fun x hx hx' => hcanon x (hin x hx hx'), fun x hx hx' => hhole x (hin x hx hx')⟩
  · unfold areaEnd
    omega
  · unfold areaEnd at hlt ⊢
    omega

/-- **A fault in an area** that is served maps its page with the access of the area. -/
theorem AreaList.fault_grants (h : AreaList k v C L) (hr : ReadyOff hole k v.rootPagetable)
    (ha : a ∈ L) (hcanon : ∀ x, InArea k a x → Canonical x)
    (hhole : ∀ x, InArea k a x → va2Index x 3 ≠ hole) (hin : InArea k a va)
    (hrun : k.onDemandAllocation v va = some (k', true)) {x : Nat} (hx : pageStart x = pageStart va) :
    ∃ t, translate k'.tables v.rootPagetable x = some t ∧
      Grants k.nxFlagEnabled (k.areas a).flags t := by
  have ha0 : a ≠ 0 := fun e => h.linked.zero_notMem (e ▸ ha)
  obtain ⟨hal, hsz⟩ := h.aligned a ha
  have hlt := (h.stop_eq ha).2
  obtain ⟨w, hw⟩ : ∃ w, w = pageStart va := ⟨_, rfl⟩
  have hwm : w % 4096 = 0 := hw ▸ pageStart_mod va
  have hpage : ∀ y, w ≤ y → y < w + 4096 → InArea k a y := by
    intro y hy hy'
    obtain ⟨h₁, h₂⟩ := hin
    rw [pageStart, pageSize_eq] at hw
    unfold InArea areaEnd at *
    omega
  have hend := (hpage (w + 4095) (by omega) (by omega)).2
  have hrequest : RequestOff hole w pageSize := by
    rw [pageSize_eq]
    exact ⟨by omega, by omega, fun y hy hy' => hcanon y (hpage y hy hy'),
      fun y hy hy' => hhole y (hpage y hy hy')⟩
  rw [onDemandAllocation_eq ha0 (h.getMemoryArea_eq ha hin), ← hw] at hrun
  unfold Kmem.mappages at hrun
  obtain ⟨htables, hnx⟩ := kalloc_tables k
  have hready : ReadyOff hole k.kalloc.1 v.rootPagetable := hr.suffix htables (kalloc_suffix k)
  have hp : k.kalloc.2 % 4096 = 0 ∧ k.kalloc.2 < 2 ^ 51 := by
    rcases kalloc_eq k with h0 | hmem
    · rw [h0]
      omega
    · exact ⟨hr.aligned _ hmem, hr.lt _ hmem⟩
  have hstop : pageStart (w + pageSize - 1) + 4095 = w + 4095 := by
    rw [pageStart, pageSize_eq]
    omega
  rw [hrequest.stop, hstop, pageStart_of_aligned hwm, pageStart_of_aligned hp.1, hnx] at hrun
  have hrange := hrequest.pageRange
  rw [hstop, pageStart_of_aligned hwm] at hrange
  have hsize := u64Size_eq
  obtain ⟨-, -, -, hleaf, -⟩ := mapLoop_spec u64Size hrange (by omega) hready hrun
  have hxw := (pageStart_eq_iff hwm).mp (hx.trans hw.symm)
  have hleaf := hleaf x hxw.1 (by omega)
  rw [hx, ← hw, Nat.sub_self, Nat.add_zero] at hleaf
  refine ⟨_, by rw [translate, hleaf, Option.map_some], grants_ofPage hp.1 (by omega)⟩

/-- What `update_area_access` does to the record, and to the pages. -/
theorem SmallArea.update (h : SmallArea hole k v C L a) (flags : BitVec 8) :
    ∃ k' b, k.updateAreaAccess v a flags = some (k', b) ∧
      (k'.areas = Function.update k.areas a { k.areas a with flags := areaFlags v flags }) ∧
      ∃ k₁ : Kmem, k₁.tables = k.tables ∧ k₁.nxFlagEnabled = k.nxFlagEnabled ∧
        Updated hole k.nxFlagEnabled (areaFlags v flags) v.rootPagetable (k.areas a).start
          (areaEnd k a - 1) k₁ k' := by
  obtain ⟨k₁, hk₁⟩ : ∃ k₁, k₁ = k.setArea a fun r => { r with flags := areaFlags v flags } := ⟨_, rfl⟩
  have hself : k₁.areas a = { k.areas a with flags := areaFlags v flags } := by
    rw [hk₁]
    exact Function.update_self _ _ _
  have hrun : k.updateAreaAccess v a flags =
      k₁.updatepages v.rootPagetable (k.areas a).start (k.areas a).size (areaFlags v flags) := by
    unfold Kmem.updateAreaAccess
    simp only [areaFlags] at hk₁ hself ⊢
    rw [← hk₁]
    simp only [hself]
  obtain ⟨hal, -⟩ := h.areas.aligned a h.listed
  obtain ⟨hstop, hlt⟩ := h.areas.stop_eq h.listed
  have hpos := h.areas.pos a h.listed
  have hrange := h.areas.pageRange h.listed h.canonical h.not_recursive
  have hready : ReadyOff hole k₁ v.rootPagetable := by
    rw [hk₁]
    exact h.ready.suffix rfl List.suffix_rfl
  have hlarge : NoLarge k₁ v.rootPagetable (k.areas a).start (areaEnd k a - 1) := by
    intro x hx hx' level e
    rw [hk₁]
    refine h.small x ⟨hx, ?_⟩ level e
    unfold areaEnd at hx' ⊢
    omega
  obtain ⟨fuel, hfuel⟩ : ∃ fuel, u64Size = fuel + 1 := ⟨u64Size - 1, by omega⟩
  obtain ⟨k', b, hloop, hu⟩ : ∃ k' b, Kmem.updateLoop v.rootPagetable (areaEnd k a - 1)
      (vmflagToX86flag k.nxFlagEnabled ((areaFlags v flags).setWidth 64)) (fuel + 1) k₁
        (k.areas a).start = some (k', b) ∧
      Updated hole k.nxFlagEnabled (areaFlags v flags) v.rootPagetable (k.areas a).start
        (areaEnd k a - 1) k₁ k' := updateLoop_leaves fuel (by omega) hrange hready hlarge
  have hnx : k₁.nxFlagEnabled = k.nxFlagEnabled := by rw [hk₁]; rfl
  refine ⟨k', b, ?_, ?_, k₁, by rw [hk₁]; rfl, hnx, hu⟩
  · rw [hrun]
    unfold Kmem.updatepages
    rw [hstop, hfuel, pageStart_of_aligned hal, hnx]
    exact hloop
  · rw [hu.records.areas, hk₁]
    rfl

/-- The leaf of an address of the area afterwards. -/
theorem Updated.area {k₁ : Kmem} {x : Nat}
    (hu : Updated hole k.nxFlagEnabled flags v.rootPagetable (k.areas a).start (areaEnd k a - 1) k₁ k')
    (ht : k₁.tables = k.tables) (hx : InArea k a x) :
    (BehindHole k v a x → leafAt k'.tables v.rootPagetable (vaPath x) =
      leafAt k.tables v.rootPagetable (vaPath x)) ∧
    (¬BehindHole k v a x → leafAt k'.tables v.rootPagetable (vaPath x) =
      (leafAt k.tables v.rootPagetable (vaPath x)).map fun l =>
        (l.1, l.2.setFlags (vmflagToX86flag k.nxFlagEnabled (flags.setWidth 64)))) := by
  obtain ⟨hx₁, hx₂⟩ := hx
  have htable : ∀ y, NoTable k₁ v.rootPagetable y ↔ NoTable k v.rootPagetable y := fun y => by
    unfold NoTable Kmem.walk
    rw [walkFrom_tables ht]
  constructor
  · rintro ⟨y, hy, hyx, hno⟩
    rw [hu.behind x hx₁ (by omega) ⟨y, hy.1, hyx, (htable y).mpr hno⟩, ht]
  · intro hnot
    rw [hu.reached x hx₁ (by omega) fun y hy hyx hno =>
      hnot ⟨y, ⟨hy, by omega⟩, hyx, (htable y).mp hno⟩, ht]

/-- An address off the area is off its pages. -/
theorem SmallArea.outside {x : Nat} (h : SmallArea hole k v C L a) (hc : Canonical x)
    (hr : va2Index x 3 ≠ hole) (hx : ¬InArea k a x) :
    OutsideOff hole (k.areas a).start (areaEnd k a - 1) (vaPath x) := by
  refine ⟨vaPath_pagePath hr, fun y hy hy' he => hx ?_⟩
  obtain ⟨hal, hsz⟩ := h.areas.aligned a h.listed
  have hpos := h.areas.pos a h.listed
  have hy : InArea k a y := by
    unfold InArea areaEnd at *
    omega
  have hpage := vaPath_inj hc (h.canonical y hy) he
  rw [pageStart, pageStart, pageSize_eq] at hpage
  unfold InArea areaEnd at *
  omega

end

/-- **An area has the access that was asked for iff `updatepages` gets to every page that needs it**:
for every listed area of an address space, whichever of its pages are mapped, and all flags. -/
theorem update_area_access_iff {hole a : Nat} {k : Kmem} {v : Vmm} {C L : List Nat}
    (h : SmallArea hole k v C L a) (flags : BitVec 8) :
    (∃ k' b, k.updateAreaAccess v a flags = some (k', b) ∧ AccessSet hole k v a flags k') ↔
      AccessBehind k v a flags := by
  obtain ⟨k', b, hrun, hareas, k₁, ht, hnx, hu⟩ := h.update flags
  constructor
  · rintro ⟨k'', b'', hrun', hset⟩ x hx hbehind t htr
    obtain rfl : k' = k'' := (Prod.mk.inj (Option.some.inj (hrun.symm.trans hrun'))).1
    refine hset.present x hx t ?_
    rw [translate_congr ((hu.area ht hx).1 hbehind), htr]
  · intro hbehind
    have hself : k'.areas a = { k.areas a with flags := areaFlags v flags } := by
      rw [hareas, Function.update_self]
    refine ⟨k', b, hrun, fun x hx t htr => ?_, fun k₂ v₂ C₂ L₂ hl va k₃ hva hrun₃ x hx => ?_,
      fun x hc hr => ?_, fun x hc hr hx => ?_⟩
    · obtain ⟨hkept, hset⟩ := hu.area ht hx
      by_cases hb : BehindHole k v a x
      · rw [translate_congr (hkept hb)] at htr
        exact hbehind x hx hb t htr
      · rw [translate, hset hb, Option.map_map] at htr
        obtain ⟨⟨level, e⟩, hleaf, rfl⟩ := Option.map_eq_some_iff.mp htr
        cases level with
        | zero => exact grants_setFlags _ _ e x
        | succ level => exact absurd hleaf (h.small x hx level e)
    · have hin : ∀ y, InArea k₂ a y ↔ InArea k a y := fun y => by
        rw [InArea, InArea, areaEnd, areaEnd, hl.record.1, hl.record.2.1, hself]
      obtain ⟨t, htr, hg⟩ := hl.areas.fault_grants hl.ready hl.listed
        (fun y hy => h.canonical y ((hin y).mp hy)) (fun y hy => h.not_recursive y ((hin y).mp hy))
        ((hin va).mpr hva) hrun₃ hx
      rw [hl.record.2.2, hself, hl.nx, hu.nx_eq, hnx] at hg
      exact ⟨t, htr, hg⟩
    · by_cases hx : InArea k a x
      · obtain ⟨hkept, hset⟩ := hu.area ht hx
        by_cases hb : BehindHole k v a x
        · rw [translate_congr (hkept hb)]
        · rw [translate, translate, hset hb]
          cases hleaf : leafAt k.tables v.rootPagetable (vaPath x) with
          | none => rfl
          | some l =>
            obtain ⟨level, e⟩ := l
            cases level with
            | zero =>
              simp only [Option.map_some, Entry.translation]
              rw [Entry.frame_setFlags]
            | succ level => exact absurd hleaf (h.small x hx level e)
      · exact congrArg (Option.map Translation.pa)
          (translate_congr ((hu.outside _ (h.outside hc hr hx)).trans (by rw [ht])))
    · exact translate_congr ((hu.outside _ (h.outside hc hr hx)).trans (by rw [ht]))

theorem sevenPages_backed : Backed sevenPages 0x9000 := by
  have hnone : ∀ va, leafAt sevenPages.tables 0x9000 (vaPath va) = none := fun va => by
    have hc : (sevenPages.tables 0x9000 (va2Index va 3)).child = none := Entry.child_zero
    exact leafAt_eq_none (seek_cons_none hc) Entry.present_zero
  refine ⟨sevenPages_ready, fun x _ level e he => ?_, fun va _ e he => ?_,
    fun va _ va' _ e e' he => ?_⟩
  · rw [hnone] at he
    exact nomatch he
  · rw [hnone] at he
    exact nomatch he
  · rw [hnone] at he
    exact nomatch he

/-- `a` is an area of two pages, and there was a fault at the second: they are in different page
tables. -/
def SplitArea (k : Kmem) (v : Vmm) (a : Nat) : Prop :=
  ∃ k₁, sevenPages.vmmAllocAt 0 (vmmInit 0x9000 0x1ff000 0x800000000000 true) 0x2000 1 =
    some (k₁, v, a) ∧ k₁.onDemandAllocation v 0x200000 = some (k, true)

theorem splitArea : ∃ k v C L a, SplitArea k v a ∧ SmallArea 510 k v C L a ∧
    InArea k a 0x1ff000 ∧ InArea k a 0x200000 ∧ NoTable k v.rootPagetable 0x1ff000 ∧
    ∃ t, translate k.tables v.rootPagetable 0x200000 = some t ∧ t.writable = true := by
  obtain ⟨v₀, hv₀⟩ : ∃ v₀, v₀ = vmmInit 0x9000 0x1ff000 0x800000000000 true := ⟨_, rfl⟩
  have hall : ((sevenPages.vmmAllocAt 0 v₀ 0x2000 1).bind fun s₁ =>
      (s₁.1.onDemandAllocation s₁.2.1 0x200000).map fun s₂ => decide (
        (s₁.2.2 ≠ 0 ∧ s₁.2.1.rootPagetable = 0x9000 ∧ s₁.1.free.length = 6 ∧ s₂.2 = true) ∧
        (s₁.1.areas s₁.2.2).start = 0x1ff000 ∧ (s₁.1.areas s₁.2.2).size = 0x2000 ∧
        (s₂.1.walk 0x9000 0x1ff000 false).2 = none ∧
        (translate s₂.1.tables 0x9000 0x200000).map Translation.writable = some true)) =
      some true := by
    rw [hv₀]
    decide +kernel
  obtain ⟨⟨k₁, v₁, a⟩, h₁, hall⟩ := Option.bind_eq_some_iff.mp hall
  obtain ⟨⟨k₂, ok⟩, h₂, hall⟩ := Option.map_eq_some_iff.mp hall
  obtain ⟨⟨ha, hroot, hlength, hok⟩, hstart, hsize, hno, hwritable⟩ := of_decide_eq_true hall
  dsimp only at ha hroot hlength hok hstart hsize hno hwritable h₂
  subst hok
  -- the areas
  have hinit : AreaList sevenPages v₀ [] [] := hv₀ ▸ .init (by decide)
  have hfresh : FreshContainer sevenPages [] 0x2000 := ⟨⟨_, rfl⟩, by decide, by decide, by simp⟩
  have hw : NoWrap v₀ 0 0x2000 := hv₀ ▸ ⟨by decide, by decide, by decide⟩
  rcases hinit.alloc hw (fun _ => hfresh) h₁ with ⟨-, -, ha0⟩ | ⟨hareas, -⟩
  · exact absurd ha0 ha
  obtain ⟨htables, -, hfree, hroot'⟩ := vmmAllocAt_keepsTables h₁
  -- the fault
  have hin : ∀ x, 0x1ff000 ≤ x → x < 0x201000 → InArea k₁ a x := fun x hx hx' => by
    rw [InArea, areaEnd, hstart, hsize]
    omega
  have hmem : a ∈ [] ++ [a] := by simp
  have hget := hareas.getMemoryArea_eq hmem (hin 0x200000 (by decide) (by decide))
  have hdemand := h₂
  rw [onDemandAllocation_eq ha hget] at hdemand
  have hrecords := (kalloc_sameRecords k₁).trans (mappages_sameRecords hdemand)
  obtain ⟨p, ps, hps⟩ : ∃ p ps, k₁.free = p :: ps :=
    List.exists_cons_of_ne_nil fun h => absurd hlength (by rw [h]; decide)
  have hbacked : Backed k₁ v₁.rootPagetable := by
    rw [hroot]
    exact sevenPages_backed.suffix htables hfree
  obtain ⟨-, -, -, hbacked₂, -⟩ := hbacked.fault_area (by decide) hps h₂
  have hin₂ : ∀ x, InArea k₂ a x ↔ 0x1ff000 ≤ x ∧ x < 0x201000 := fun x => by
    rw [InArea, areaEnd, hrecords.areas, hstart, hsize]
  have hlow : ∀ x, InArea k₂ a x → x < lowhalfEnd := fun x hx => by
    have := ((hin₂ x).mp hx).2
    unfold lowhalfEnd
    omega
  obtain ⟨t, ht, htw⟩ := Option.map_eq_some_iff.mp hwritable
  refine ⟨k₂, v₁, _, _, a, ⟨k₁, hv₀ ▸ h₁, h₂⟩, ⟨hareas.congr (fun b _ => by rw [hrecords.areas])
    fun c _ => by rw [hrecords.containers], hbacked₂.ready, hmem, fun x hx => .inl (hlow x hx),
    fun x hx => lowhalf_not_recursive (hlow x hx), fun x hx => hbacked₂.small x (hlow x hx)⟩,
    (hin₂ _).mpr (by decide), (hin₂ _).mpr (by decide), hroot ▸ hno, t, hroot ▸ ht, htw⟩

/-- The access is taken away from the two pages. -/
theorem update_area_access_iff_split : ∃ k v a, SplitArea k v a ∧
    ((∃ k' b, k.updateAreaAccess v a 0 = some (k', b) ∧ AccessSet 510 k v a 0 k') ↔
      AccessBehind k v a 0) := by
  obtain ⟨k, v, C, L, a, hsplit, h, -⟩ := splitArea
  exact ⟨k, v, a, hsplit, update_area_access_iff h 0⟩

/-- It is not taken away from the page that is mapped. -/
theorem page_left_writable : ∃ k v C L a, SplitArea k v a ∧ SmallArea 510 k v C L a ∧
    ¬∃ k' b, k.updateAreaAccess v a 0 = some (k', b) ∧ AccessSet 510 k v a 0 k' := by
  obtain ⟨k, v, C, L, a, hsplit, h, hfirst, hsecond, hno, t, htr, hw⟩ := splitArea
  refine ⟨k, v, C, L, a, hsplit, h, ?_⟩
  rintro ⟨k'', b'', hrun'', hset⟩
  obtain ⟨k', b, hrun, -, k₁, ht, -, hu⟩ := h.update 0
  obtain rfl : k' = k'' := (Prod.mk.inj (Option.some.inj (hrun.symm.trans hrun''))).1
  have hkept := (hu.area ht hsecond).1 ⟨0x1ff000, hfirst, by decide, hno⟩
  have hg := (hset.present 0x200000 hsecond t (by rw [translate_congr hkept, htr])).writable
  have hflag : (areaFlags v 0).getLsbD 0 = false := by
    unfold areaFlags
    cases v.userVmm <;> decide
  rw [hw, hflag] at hg
  exact nomatch hg

end Colibri.Memory

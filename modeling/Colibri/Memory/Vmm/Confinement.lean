import Colibri.Memory.Vmm.Footprint
import Colibri.Memory.Vmm.Records

/-!
# The operations on an address space stay in it

`vmm_alloc_at`, `update_area_access`, `on_demand_allocation`, `vmm_free_area` and the first loop of
`vmm_destroy` are confined to the low half of the page table that they are given. The last two free what
the descriptors of an area hold, present or not; they are confined if each of them is present, `Held`.
-/

namespace Colibri.Memory

open Colibri.Lib

section

variable {k k' : Kmem} {v v' : Vmm} {root : Nat}

/-! ## `vmm_alloc_at` -/

/-- **`vmm_alloc_at`** takes a page at most. -/
theorem vmmAllocAt_confined (h : LowSpace k v.rootPagetable) {base sz a : Nat} {flags : BitVec 8}
    (hrun : k.vmmAllocAt base v sz flags = some (k', v', a)) :
    Confined v.rootPagetable k k' ∧ v'.rootPagetable = v.rootPagetable ∧ k'.tables = k.tables := by
  obtain ⟨ht, -, hf, hroot⟩ := vmmAllocAt_keepsTables hrun
  exact ⟨.take h ht hf, hroot, ht⟩

/-! ## `update_area_access` -/

/-- **A round of `updatepages`** is confined. -/
theorem updatePage_confined (nx : Bool) (flags : BitVec 8) (h : LowSpace k root) {va t i : Nat}
    (hva : va < lowhalfEnd) (hs : LeafSlot k root va t i) :
    Confined root k
      (k.setEntry t i ((k.tables t i).setFlags (vmflagToX86flag nx (flags.setWidth 64)))) := by
  have hpath := vaPath_pagePath (lowhalf_not_recursive hva)
  obtain ⟨e, he⟩ : ∃ e, e = (k.tables t i).setFlags (vmflagToX86flag nx (flags.setWidth 64)) :=
    ⟨_, rfl⟩
  obtain ⟨hr, hpage, hrest⟩ := hs.set h.ready hpath e
  have hplaces : SamePlaces k (k.setEntry t i e) root := by
    intro q hq
    by_cases hqv : q = vaPath va
    · rw [hqv, hpage, hs.leaf_eq, he, Entry.place_setFlags]
    · rw [hrest q hq hqv]
  have hframe : e.present = true → FrameOf k root (e.frame 0) := by
    intro hp
    rw [he, Entry.present_setFlags] at hp
    rw [he, Entry.frame_setFlags]
    refine FrameOf.of_leaf hva ?_
    rw [hs.leaf_eq, Option.filter_some, hp]
    rfl
  rw [← he]
  exact ⟨(Confined.refl h).toWithin.setLeaf h.ready hva hs fun hp => .inr (hframe hp),
    h.setLeaf hva hs (h.toBacked.samePlaces hr hplaces rfl).1 fun hp =>
      ⟨⟨h.frame_pos _ (hframe hp), h.frame_lt _ (hframe hp)⟩, h.noTable _ (hframe hp)⟩⟩

theorem updateLoop_confined {stop : Nat} {nx : Bool} {flags : BitVec 8} (hstop : stop < lowhalfEnd) :
    ∀ (fuel : Nat) {k k' : Kmem} {current : Nat} {b : Bool}, LowSpace k root →
    Kmem.updateLoop root stop (vmflagToX86flag nx (flags.setWidth 64)) fuel k current =
      some (k', b) → Confined root k k'
  | 0, _, _, _, _, _, h => absurd h (by simp [Kmem.updateLoop])
  | fuel + 1, k, k', current, b, hk, h => by
    rw [Kmem.updateLoop] at h
    by_cases hlt : current < stop
    · have hlow : current < lowhalfEnd := Nat.lt_trans hlt hstop
      obtain ⟨hsame, -, hslot⟩ := walk_lookup k root current
      obtain ⟨k₁, d, hw⟩ : ∃ k₁ d, k.walk root current false = (k₁, d) := ⟨_, _, rfl⟩
      rw [hw] at hsame hslot
      obtain rfl : k₁ = k := hsame
      rw [if_pos hlt, hw] at h
      cases d with
      | none =>
        obtain ⟨rfl, -⟩ := Prod.mk.inj (Option.some.inj h)
        exact .refl hk
      | some d =>
        obtain ⟨t, i⟩ := d
        have hl : LeafSlot k₁ root current t i := by
          rcases hslot t i rfl with hl | ⟨level, hl⟩
          · exact hl
          · exact absurd hl (hk.small current hlow level _)
        have hpage := updatePage_confined nx flags hk hlow hl
        exact hpage.trans (updateLoop_confined hstop fuel hpage.space h)
    · rw [if_neg hlt] at h
      obtain ⟨rfl, -⟩ := Prod.mk.inj (Option.some.inj h)
      exact .refl hk

/-- A record does not touch the tables. -/
theorem Confined.setArea (h : LowSpace k root) (a : Nat) (f : MemoryArea → MemoryArea) :
    Confined root k (k.setArea a f) := .take h rfl List.suffix_rfl

/-- **`update_area_access`** moves no page. -/
theorem updateAreaAccess_confined (h : LowSpace k v.rootPagetable) {area : Nat} {flags : BitVec 8}
    {b : Bool} (hlow : k.areaLast area < lowhalfEnd)
    (hrun : k.updateAreaAccess v area flags = some (k', b)) :
    Confined v.rootPagetable k k' ∧ ∀ va < lowhalfEnd,
      (translate k'.tables v.rootPagetable va).map Translation.pa =
        (translate k.tables v.rootPagetable va).map Translation.pa := by
  obtain ⟨k₁, hk₁⟩ : ∃ k₁, k₁ = k.setArea area fun a =>
    { a with flags := if v.userVmm then flags ||| memoryFlagUser else flags } := ⟨_, rfl⟩
  have hc : Confined v.rootPagetable k k₁ := hk₁ ▸ .setArea h area _
  have hlast : k₁.areaLast area = k.areaLast area := by
    simp only [hk₁, Kmem.areaLast, Kmem.setArea, Function.update_self]
  have htables : k₁.tables = k.tables := by rw [hk₁, Kmem.setArea_tables]
  unfold Kmem.updateAreaAccess Kmem.updatepages at hrun
  simp only [← hk₁] at hrun
  rw [show u64Sub (u64Add (k₁.areas area).start (k₁.areas area).size) 1 = k₁.areaLast area from
    rfl] at hrun
  obtain ⟨stop, hstop⟩ : ∃ stop, stop = pageEnd (k₁.areaLast area) := ⟨_, rfl⟩
  have hlow' : stop < lowhalfEnd := by
    rw [hstop, hlast]
    exact pageEnd_lowhalf hlow
  rw [← hstop] at hrun
  obtain ⟨hr, hp, hf⟩ := updateLoop_spec hlow' u64Size hc.space.ready hc.space.small hrun
  obtain ⟨-, hpa⟩ := hc.space.toBacked.samePlaces hr hp hf
  rw [htables] at hpa
  exact ⟨hc.trans (updateLoop_confined hlow' u64Size hc.space hrun), hpa⟩

/-! ## `on_demand_allocation` -/

/-- The loop of `mappages` over one page, when it succeeds. -/
theorem mapLoop_page {w p : Nat} {flags : BitVec 64} (hlt : w + 4096 < u64Size)
    (h : Kmem.mapLoop root w (w + 4095) flags u64Size k w p = some (k', true)) :
    ∃ k₁ t i, k.walk root w true = (k₁, some (t, i)) ∧ (k₁.tables t i).present = false ∧
      k' = k₁.setEntry t i (Entry.ofPage p flags) := by
  obtain ⟨fuel, hfuel⟩ : ∃ fuel, u64Size = fuel + 2 :=
    ⟨u64Size - 2, by have := u64Size_eq; omega⟩
  have hnext : u64Add w pageSize = w + 4096 := by rw [pageSize_eq, u64Add_eq hlt]
  rw [hfuel, Kmem.mapLoop, if_pos (by omega)] at h
  obtain ⟨k₁, d, hw⟩ : ∃ k₁ d, k.walk root w true = (k₁, d) := ⟨_, _, rfl⟩
  rw [hw] at h
  cases d with
  | none =>
    obtain ⟨x, -, he⟩ := Option.map_eq_some_iff.mp h
    exact absurd (Prod.mk.inj he).2 (by simp)
  | some d =>
    obtain ⟨t, i⟩ := d
    simp only at h
    cases hp : (k₁.tables t i).present with
    | true =>
      rw [hp, if_pos rfl] at h
      obtain ⟨x, -, he⟩ := Option.map_eq_some_iff.mp h
      exact absurd (Prod.mk.inj he).2 (by simp)
    | false =>
      rw [hp, if_neg (by simp), hnext, Kmem.mapLoop, if_neg (by omega)] at h
      exact ⟨k₁, t, i, hw, hp, (Prod.mk.inj (Option.some.inj h)).1.symm⟩

/-- **`on_demand_allocation`** hangs in tables and maps a page, all of them free before. -/
theorem onDemandAllocation_confined (h : LowSpace k v.rootPagetable) {va : Nat}
    (hva : va < lowhalfEnd) (hfree : k.free ≠ [])
    (hrun : k.onDemandAllocation v va = some (k', true)) : Confined v.rootPagetable k k' := by
  obtain ⟨p, ps, hps⟩ := List.exists_cons_of_ne_nil hfree
  obtain ⟨-, -, -, hback, -, -, -⟩ := h.toBacked.fault_area hva hps hrun
  have hpm : p ∈ k.free := by rw [hps]; exact List.mem_cons_self
  have hpal := h.ready.aligned p hpm
  have hplt := h.ready.lt p hpm
  have hnot : p ∉ ps := by
    have := h.ready.nodup
    rw [hps] at this
    exact (List.nodup_cons.mp this).1
  obtain ⟨a, -, -, hmap⟩ := onDemandAllocation_mapLoop hva hps hpal hrun
  obtain ⟨root, hroot⟩ : ∃ root, root = v.rootPagetable := ⟨_, rfl⟩
  obtain ⟨w, hw⟩ : ∃ w, w = pageStart va := ⟨_, rfl⟩
  obtain ⟨k₀, hk₀⟩ : ∃ k₀ : Kmem, k₀ = { k with free := ps } := ⟨_, rfl⟩
  have hwlow : w < lowhalfEnd := hw ▸ Nat.lt_of_le_of_lt (pageStart_le va) hva
  have hwlt : w + 4096 < u64Size := by
    rw [u64Size_eq]
    unfold lowhalfEnd at hwlow
    omega
  rw [← hroot] at h hback ⊢
  rw [← hroot, ← hw, ← hk₀] at hmap
  -- the page is taken, and `walk` hangs in tables
  have htake : Confined root k k₀ :=
    .take h (hk₀ ▸ rfl) (by rw [hk₀, hps]; exact List.suffix_cons p ps)
  obtain ⟨k₁, t, i, hwalk, hnp, rfl⟩ := mapLoop_page hwlt hmap
  have hgrow : Confined root k₀ k₁ := by
    have := walkFrom_confined hwlow 3 (r := []) htake.space rfl rfl
    rwa [show Kmem.walkFrom w true 3 k₀ root = (k₁, some (t, i)) from hwalk] at this
  have hslot : LeafSlot k₁ root w t i := by
    have := (walk_alloc (vaPath_pagePath (lowhalf_not_recursive hwlow)) htake.space.ready).2 t i
    rw [hwalk] at this
    rcases this rfl with hs | ⟨level, hl⟩
    · exact hs
    · exact absurd hl (hgrow.space.small w hwlow level _)
  -- the page that was taken is not a table now
  have hframe : ∀ flags : BitVec 8,
      (Entry.ofPage p (vmflagToX86flag k.nxFlagEnabled (flags.setWidth 64))).frame 0 = p :=
    fun flags => Entry.frame_ofPage hpal (by omega) fun j hj hj' => by
      rw [getLsbD_vmflag _ flags (by omega), if_neg (by omega), if_neg (by omega),
        if_neg (by omega)]
  have hnoTable : ¬ TableOf k₁ root (physToVirt p) := by
    intro ht
    rcases hgrow.tableOf ht with ⟨q, hq, hd⟩ | ⟨f, hf, he⟩
    · have htables : k₀.tables = k.tables := hk₀ ▸ rfl
      rw [htables] at hd
      exact h.ready.fresh p hpm q hq hd
    · obtain rfl := physToVirt_inj hplt (htake.space.pageOf_lt hf) he
      rcases hf with hf | ⟨x, hx, e, hl, hf⟩
      · rw [hk₀] at hf
        exact hnot hf
      · have htables : k₀.tables = k.tables := hk₀ ▸ rfl
        rw [htables] at hl
        exact h.notFree x hx e hl (hf ▸ hpm)
  refine ⟨(htake.trans hgrow).toWithin.setLeaf hgrow.space.ready hwlow hslot fun _ => ?_,
    hgrow.space.setLeaf hwlow hslot hback fun _ => ?_⟩
  · rw [hframe]
    exact .inl hpm
  · rw [hframe]
    exact ⟨⟨h.ready.pos p hpm, hplt⟩, hnoTable⟩

/-! ## `vmm_free_area` -/

/-- If the page of `va` has a descriptor, it is present. -/
def Held (k : Kmem) (root va : Nat) : Prop :=
  ∀ e, seek Entry.child k.tables root (vaPath va) = some (0, e) → e.present = true

/-- The address that `unmappages` frees is the frame, for the pages that the allocator has. -/
theorem pdAddr_eq_frame {e : Entry} (h : e.frame 0 < 2 ^ 51) : e.pdAddr * 4096 = e.frame 0 := by
  unfold Entry.frame at h ⊢
  unfold Entry.pdAddr
  simp only [BitVec.extractLsb'_toNat] at h ⊢
  omega

/-- The other descriptors after a write to one. -/
theorem LeafSlot.seek_set {va t i : Nat} (h : Ready k root) (hs : LeafSlot k root va t i)
    (hva : PagePath (vaPath va)) (e : Entry) {q : List Nat} (hq : PagePath q) (hne : q ≠ vaPath va) :
    seek Entry.child (k.setEntry t i e).tables root q = seek Entry.child k.tables root q := by
  obtain ⟨r, hr, hd⟩ := hs
  rw [hr] at hva
  refine h.tree.seek_setEntry hd (hva.tablePath rfl) (fun _ _ _ he => hq.tablePath he) fun hp => ?_
  have hl : (r ++ [i]).length = q.length := by rw [hva.1, hq.1]
  exact hne (hr ▸ (hp.eq_of_length hl).symm)

/-- The page that `unmappages` frees, between freeing and unmapping it. -/
theorem LowSpace.kfree (h : LowSpace k root) {f : Nat} (hf : FrameOf k root f) :
    Within root k (k.kfree f) ∧ Ready (k.kfree f) root ∧ (k.kfree f).free = f :: k.free := by
  have hnot : f ∉ k.free := by
    obtain ⟨va, hva, e, hl, rfl⟩ := hf
    exact h.notFree va hva e hl
  have hal : f % 4096 = 0 := by
    obtain ⟨va, hva, e, hl, rfl⟩ := hf
    exact frame_mod e
  have hk : k.kfree f = { k with free := f :: k.free } := by
    rw [Kmem.kfree, pageStart_of_aligned hal, if_neg hnot]
  rw [hk]
  refine ⟨⟨fun _ _ => rfl, fun _ _ _ hd => .inl hd, fun p hp => ?_⟩,
    ⟨h.ready.tree, List.nodup_cons.mpr ⟨hnot, h.ready.nodup⟩, ?_, ?_, ?_, ?_⟩, rfl⟩
  · rcases hp with hp | hp
    · rcases List.mem_cons.mp hp with rfl | hp
      · exact .inr hf
      · exact .inl hp
    · exact .inr hp
  · exact List.forall_mem_cons.mpr ⟨hal, h.ready.aligned⟩
  · exact List.forall_mem_cons.mpr ⟨h.frame_pos f hf, h.ready.pos⟩
  · exact List.forall_mem_cons.mpr ⟨h.frame_lt f hf, h.ready.lt⟩
  · exact List.forall_mem_cons.mpr
      ⟨fun q hq hd => h.noTable f hf ⟨q, hq, hd⟩, h.ready.fresh⟩

/-- The space after a page was freed and its descriptor cleared. -/
theorem LowSpace.clear (h : LowSpace k root) {k₁ : Kmem} {va t i : Nat} (hva : va < lowhalfEnd)
    (hs : LeafSlot k root va t i) (htab : k₁.tables = k.tables) (hr : Ready k₁ root)
    (hfree : ∀ p ∈ k₁.free, p ∈ k.free ∨
      ∃ e, leafAt k.tables root (vaPath va) = some (0, e) ∧ p = e.frame 0) :
    LowSpace (k₁.setEntry t i ((k.tables t i).setBit 0 false)) root ∧
      leafAt (k₁.setEntry t i ((k.tables t i).setBit 0 false)).tables root (vaPath va) = none := by
  have hpath := vaPath_pagePath (lowhalf_not_recursive hva)
  obtain ⟨r, hr', hd⟩ := hs
  have hs₁ : LeafSlot k₁ root va t i := ⟨r, hr', htab ▸ hd⟩
  obtain ⟨hready, hnone, hrest⟩ := hs₁.set hr hpath ((k.tables t i).setBit 0 false)
  rw [Option.filter_some, Entry.present_clear] at hnone
  obtain ⟨k₂, hk₂⟩ : ∃ k₂, k₂ = k₁.setEntry t i ((k.tables t i).setBit 0 false) := ⟨_, rfl⟩
  have hfree₂ : k₂.free = k₁.free := hk₂ ▸ rfl
  have htable : ∀ u, TableOf k₂ root u → TableOf k root u := by
    rintro u ⟨q, hq, hdu⟩
    rw [hk₂, hr.descend_setLeaf (htab ▸ hd) (hr' ▸ hpath) _ hq, htab] at hdu
    exact ⟨q, hq, hdu⟩
  rw [← hk₂] at hready hnone hrest ⊢
  have hold : ∀ x < lowhalfEnd, ∀ l, leafAt k₂.tables root (vaPath x) = some l →
      vaPath x ≠ vaPath va ∧ leafAt k.tables root (vaPath x) = some l := by
    intro x hx l hl
    by_cases hp : vaPath x = vaPath va
    · rw [hp, hnone] at hl
      exact absurd hl (by simp)
    · rw [hrest _ (vaPath_pagePath (lowhalf_not_recursive hx)) hp, htab] at hl
      exact ⟨hp, hl⟩
  have hframe : ∀ f, FrameOf k₂ root f → FrameOf k root f := by
    rintro f ⟨x, hx, e, hl, hf⟩
    exact ⟨x, hx, e, (hold x hx _ hl).2, hf⟩
  refine ⟨⟨⟨hready, fun x hx level e he => ?_, fun x hx e he hm => ?_,
    fun x hx y hy e e' he he' heq => ?_⟩, fun f hf => h.frame_pos f (hframe f hf),
    fun f hf => h.frame_lt f (hframe f hf), fun f hf ht => h.noTable f (hframe f hf) (htable _ ht)⟩,
    hnone⟩
  · exact h.small x hx level e (hold x hx _ he).2
  · obtain ⟨hne, hl⟩ := hold x hx _ he
    rw [hfree₂] at hm
    rcases hfree _ hm with hm | ⟨e', hl', heq⟩
    · exact h.notFree x hx e hl hm
    · exact hne (vaPath_of_pageStart (h.apart x hx va hva e e' hl hl' heq))
  · exact h.apart x hx y hy e e' (hold x hx _ he).2 (hold y hy _ he').2 heq

/-- **A round of `unmappages`** is confined, and the other descriptors stay. -/
theorem unmapPage_confined (free : Bool) (h : LowSpace k root) {va : Nat} (hva : va < lowhalfEnd)
    (hheld : Held k root va) :
    Confined root k (k.unmapPage root free va) ∧
      leafAt (k.unmapPage root free va).tables root (vaPath va) = none ∧
      ∀ q, PagePath q → q ≠ vaPath va →
        seek Entry.child (k.unmapPage root free va).tables root q =
          seek Entry.child k.tables root q := by
  have hpath := vaPath_pagePath (lowhalf_not_recursive hva)
  obtain ⟨hsame, hnone, hslot⟩ := walk_lookup k root va
  unfold Kmem.unmapPage
  obtain ⟨k₁, d, hw⟩ : ∃ k₁ d, k.walk root va false = (k₁, d) := ⟨_, _, rfl⟩
  rw [hw] at hsame hnone hslot ⊢
  obtain rfl : k₁ = k := hsame
  cases d with
  | none => exact ⟨.refl h, hnone rfl, fun _ _ _ => rfl⟩
  | some d =>
    obtain ⟨t, i⟩ := d
    have hs : LeafSlot k₁ root va t i := by
      rcases hslot t i rfl with hs | ⟨level, hl⟩
      · exact hs
      · exact absurd hl (h.small va hva level _)
    have hleaf : leafAt k₁.tables root (vaPath va) = some (0, k₁.tables t i) := by
      obtain ⟨r, hr, hd⟩ := hs
      have hp := hheld (k₁.tables t i) (by rw [hr, seek_leaf hd])
      rw [LeafSlot.leaf_eq ⟨r, hr, hd⟩, Option.filter_some, hp]
      rfl
    have hframe : FrameOf k₁ root ((k₁.tables t i).frame 0) := .of_leaf hva hleaf
    obtain ⟨hwithin, hready, hfree⟩ := h.kfree hframe
    have hclear : ∀ k₂ : Kmem, k₂.tables = k₁.tables → Ready k₂ root → Within root k₁ k₂ →
        (∀ p ∈ k₂.free, p = (k₁.tables t i).frame 0 ∨ p ∈ k₁.free) →
        Confined root k₁ (k₂.setEntry t i ((k₂.tables t i).setBit 0 false)) ∧
        leafAt (k₂.setEntry t i ((k₂.tables t i).setBit 0 false)).tables root (vaPath va) = none ∧
        ∀ q, PagePath q → q ≠ vaPath va →
          seek Entry.child (k₂.setEntry t i ((k₂.tables t i).setBit 0 false)).tables root q =
            seek Entry.child k₁.tables root q := by
      intro k₂ htab hr hwith hmem
      have hs₂ : LeafSlot k₂ root va t i := by
        obtain ⟨r, hr', hd⟩ := hs
        exact ⟨r, hr', htab ▸ hd⟩
      obtain ⟨hspace, hgone⟩ := h.clear hva hs htab hr fun p hp =>
        (hmem p hp).symm.imp id fun he => ⟨_, hleaf, he⟩
      rw [show k₂.tables t i = k₁.tables t i from congrFun (congrFun htab t) i]
      refine ⟨⟨hwith.setLeaf hr hva hs₂ fun hp => ?_, hspace⟩, hgone, fun q hq hne => ?_⟩
      · rw [Entry.present_clear] at hp
        exact absurd hp (by simp)
      · rw [hs₂.seek_set hr hpath _ hq hne, htab]
    cases free with
    | false =>
      exact hclear k₁ rfl h.ready (Confined.refl h).toWithin fun p hp => .inr hp
    | true =>
      simp only [if_true]
      rw [pdAddr_eq_frame (h.frame_lt _ hframe)]
      refine hclear _ ?_ hready hwithin fun p hp => List.mem_cons.mp (hfree ▸ hp)
      unfold Kmem.kfree
      split <;> rfl

/-- The pages of a range of the low half. -/
theorem lowRange {current stop : Nat} (hc : current % 4096 = 0) (hm : stop % 4096 = 4095)
    (hstop : stop < lowhalfEnd) : PageRange current stop := by
  have hsize := u64Size_eq
  have hend : lowhalfEnd = 2 ^ 47 := rfl
  refine ⟨hc, hm, by omega, fun x _ hx => .inl (by omega), fun x _ hx => ?_⟩
  exact lowhalf_not_recursive (by omega)

/-- A low address beside a range of pages. -/
theorem lowOutside {current stop x : Nat} (hc : current % 4096 = 0) (hm : stop % 4096 = 4095)
    (hstop : stop < lowhalfEnd) (hx : x < lowhalfEnd) (hn : ¬ (current ≤ x ∧ x ≤ stop)) :
    Outside current stop (vaPath x) := by
  refine ⟨vaPath_pagePath (lowhalf_not_recursive hx), fun y hy hy' he => hn ?_⟩
  have hend : lowhalfEnd = 2 ^ 47 := rfl
  have hpage := vaPath_inj (.inl (by omega)) (.inl (by omega)) he
  rw [pageStart, pageStart, pageSize_eq] at hpage
  exact ⟨by omega, by omega⟩

/-- **The loop of `unmappages`** over low pages. -/
theorem unmapLoop_confined {stop : Nat} {free : Bool} (hm : stop % 4096 = 4095)
    (hstop : stop < lowhalfEnd) : ∀ (fuel : Nat) {k k' : Kmem} {current : Nat},
    current % 4096 = 0 → LowSpace k root → (∀ x, current ≤ x → x ≤ stop → Held k root x) →
    Kmem.unmapLoop root stop free fuel k current = some k' →
    Confined root k k' ∧
      (∀ x, current ≤ x → x ≤ stop → leafAt k'.tables root (vaPath x) = none) ∧
      ∀ q, Outside current stop q →
        seek Entry.child k'.tables root q = seek Entry.child k.tables root q
  | 0, _, _, _, _, _, _, h => absurd h (by simp [Kmem.unmapLoop])
  | fuel + 1, k, k', current, hc, hk, hheld, h => by
    have hrange := lowRange hc hm hstop
    rw [Kmem.unmapLoop] at h
    by_cases hlt : current < stop
    · obtain ⟨hadd, hnext⟩ := hrange.next hlt
      obtain ⟨hpage, hnone, hrest⟩ := unmapPage_confined free hk
        (Nat.lt_trans hlt hstop) (hheld current (Nat.le_refl _) (Nat.le_of_lt hlt))
      rw [if_pos hlt, hadd] at h
      obtain ⟨hloop, hin, hout⟩ := unmapLoop_confined hm hstop fuel hnext.aligned hpage.space
        (fun x hx hx' e he => hheld x (by omega) hx' e (by
          rwa [hrest _ (vaPath_pagePath (hrange.not_recursive x (by omega) hx'))
            (hrange.outside hx hx')] at he)) h
      have hleaf : ∀ q, Outside (current + 4096) stop q → leafAt k'.tables root q =
          leafAt (k.unmapPage root free current).tables root q := fun q hq => by
        rw [leafAt, leafAt, hout q hq]
      refine ⟨hpage.trans hloop, fun x hx hx' => ?_, fun q hq => ?_⟩
      · exact leaf_next hrange hlt (Q := fun _ => none) hnone (fun _ _ _ => rfl) hin hleaf hx hx'
      · rw [hout q hq.next, hrest q hq.1 (hq.2 current (Nat.le_refl _) (Nat.le_of_lt hlt))]
    · rw [if_neg hlt] at h
      obtain rfl := Option.some.inj h
      exact ⟨.refl hk, fun x hx hx' => absurd hx' (by omega), fun _ _ => rfl⟩

/-- **`vmm_free_area`** unmaps the pages of the area, or finds that it is not the vmm's. -/
theorem vmmFreeArea_confined (h : LowSpace k v.rootPagetable) {area : Nat} {b : Bool}
    (hlow : k.areaLast area < lowhalfEnd) (hheld : ∀ x, AreaPages k area x → Held k v.rootPagetable x)
    (hrun : k.vmmFreeArea v area = some (k', v', b)) :
    Confined v.rootPagetable k k' ∧ v'.rootPagetable = v.rootPagetable ∧
      ∀ x < lowhalfEnd, translate k'.tables v.rootPagetable x =
        if b = true ∧ AreaPages k area x then none else translate k.tables v.rootPagetable x := by
  unfold Kmem.vmmFreeArea at hrun
  split at hrun
  · obtain ⟨rfl, rfl, rfl⟩ : k = k' ∧ v = v' ∧ false = b := by simpa using hrun
    exact ⟨.refl h, rfl, fun x _ => by simp⟩
  split at hrun
  · exact absurd hrun (by simp)
  · obtain ⟨rfl, rfl, rfl⟩ : k = k' ∧ v = v' ∧ false = b := by simpa using hrun
    exact ⟨.refl h, rfl, fun x _ => by simp⟩
  obtain ⟨areas, heq, hrec⟩ := unlinkArea_eq k v area
  obtain ⟨hstart, hsize, -⟩ := hrec area
  rw [heq] at hrun
  obtain ⟨k₂, hun, he⟩ := Option.map_eq_some_iff.mp hrun
  obtain ⟨rfl, rfl, rfl⟩ : k₂ = k' ∧ _ = v' ∧ true = b := by simpa using he
  obtain ⟨k₁, hk₁⟩ : ∃ k₁ : Kmem, k₁ = { k with areas } := ⟨_, rfl⟩
  have htake : Confined v.rootPagetable k k₁ := .take h (hk₁ ▸ rfl) (hk₁ ▸ List.suffix_rfl)
  have htables : k₁.tables = k.tables := hk₁ ▸ rfl
  have hareas : k₁.areas = areas := hk₁ ▸ rfl
  have hlast : k₁.areaLast area = k.areaLast area := by
    rw [Kmem.areaLast, Kmem.areaLast, hareas, hstart, hsize]
  rw [← hk₁] at hun
  simp only at hun
  rw [unmappages_eq, hlast, hareas, hstart] at hun
  obtain ⟨stop, hstop⟩ : ∃ stop, stop = pageEnd (k.areaLast area) := ⟨_, rfl⟩
  have hsize64 : k.areaLast area < u64Size := u64Sub_lt _ _
  have hmod : stop % 4096 = 4095 := hstop ▸ pageEnd_mod hsize64
  have hslow : stop < lowhalfEnd := hstop ▸ pageEnd_lowhalf hlow
  rw [← hstop] at hun
  obtain ⟨hconf, hin, hout⟩ := unmapLoop_confined hmod hslow u64Size (pageStart_mod _) htake.space
    (fun x hx hx' e he => hheld x ⟨hx, hstop ▸ hx'⟩ e (htables ▸ he)) hun
  refine ⟨htake.trans hconf, rfl, fun x hx => ?_⟩
  by_cases hr : AreaPages k area x
  · rw [if_pos ⟨rfl, hr⟩]
    exact translate_none (hin x hr.1 (hstop ▸ hr.2))
  · have hbeside := lowOutside (pageStart_mod (k.areas area).start) hmod hslow hx
      fun hh => hr ⟨hh.1, hstop ▸ hh.2⟩
    rw [if_neg fun hh => hr hh.2, ← htables]
    refine translate_congr ?_
    rw [leafAt, leafAt, hout _ hbeside]

/-! ## `vmm_destroy` -/

/-- The pages of an area are low, and their descriptors present. -/
def Whole (k : Kmem) (root a : Nat) : Prop :=
  k.areaLast a < lowhalfEnd ∧ ∀ x, AreaPages k a x → Held k root x

/-- **The first loop of `vmm_destroy`**, over the areas `L₂` that are left. -/
theorem destroyAreas_confined {C L : List Nat} : ∀ (L₂ L₁ : List Nat) (fuel : Nat) {k k' : Kmem},
    AreaList k v C L → LowSpace k root → L = L₁ ++ L₂ → (∀ a ∈ L₂, Whole k root a) →
    Kmem.destroyAreas root fuel k (L₂.headD 0) = some k' → Confined root k k' ∧ SameRecords k k'
  | _, _, 0, _, _, _, _, _, _, hrun => absurd hrun (by simp [Kmem.destroyAreas])
  | [], _, fuel + 1, k, k', _, hk, _, _, hrun => by
    obtain rfl : k = k' := Option.some.inj hrun
    exact ⟨.refl hk, .refl k⟩
  | a :: L₂, L₁, fuel + 1, k, k', h, hk, he, hwhole, hrun => by
    have hmem : a ∈ L := by simp [he]
    have ha0 : a ≠ 0 := fun e => h.linked.zero_notMem (e ▸ hmem)
    rw [List.headD_cons, Kmem.destroyAreas, if_neg ha0] at hrun
    obtain ⟨k₁, hun, hrun⟩ := Option.bind_eq_some_iff.mp hrun
    have hs := unmappages_sameRecords hun
    have hnext : (k₁.areas a).next = L₂.headD 0 := by
      rw [hs.areas]
      exact h.linked.next_eq he
    have h₁ : AreaList k₁ v C L :=
      h.congr (fun b _ => by rw [hs.areas]) fun c _ => by rw [hs.containers]
    obtain ⟨hlow, hheld⟩ := hwhole a List.mem_cons_self
    have hsize64 : k.areaLast a < u64Size := u64Sub_lt _ _
    obtain ⟨stop, hstop'⟩ : ∃ stop, stop = pageEnd (k.areaLast a) := ⟨_, rfl⟩
    have hmod : stop % 4096 = 4095 := hstop' ▸ pageEnd_mod hsize64
    have hslow : stop < lowhalfEnd := hstop' ▸ pageEnd_lowhalf hlow
    rw [unmappages_eq, ← hstop'] at hun
    obtain ⟨hconf, -, hout⟩ := unmapLoop_confined hmod hslow u64Size (pageStart_mod _) hk
      (fun x hx hx' => hheld x ⟨hx, hstop' ▸ hx'⟩) hun
    rw [hnext] at hrun
    -- the areas behind this one are beside its pages
    have hrest : ∀ b ∈ L₂, Whole k₁ root b := by
      intro b hb
      have hbL : b ∈ L := by simp [he, hb]
      obtain ⟨hblow, hbheld⟩ := hwhole b (List.mem_cons_of_mem a hb)
      have hlast : k₁.areaLast b = k.areaLast b := by
        rw [Kmem.areaLast, Kmem.areaLast, hs.areas]
      refine ⟨by rw [hlast]; exact hblow, fun x hx e hseek => ?_⟩
      have hxk : AreaPages k b x := by
        unfold AreaPages at hx ⊢
        rwa [hlast, hs.areas] at hx
      have hsorted : areaEnd k a ≤ (k.areas b).start := by
        have := h.sorted
        rw [he, List.pairwise_append, List.pairwise_cons] at this
        exact this.2.1.1 b hb
      have hstop := (h.stop_eq hmem).1
      have hstart := pageStart_of_aligned (h.aligned b hbL).1
      have hpos := h.pos a hmem
      have hxlow : x < lowhalfEnd := Nat.lt_of_le_of_lt hxk.2 (pageEnd_lowhalf hblow)
      have hbeside : ¬ (pageStart (k.areas a).start ≤ x ∧ x ≤ stop) := by
        rintro ⟨-, hle⟩
        rw [hstop', Kmem.areaLast, hstop] at hle
        have hge := hxk.1
        rw [hstart] at hge
        unfold areaEnd at hsorted hle
        omega
      have hsame := hout _ (lowOutside (pageStart_mod _) hmod hslow hxlow hbeside)
      exact hbheld x hxk e (hsame.symm.trans hseek)
    obtain ⟨hconf', hs'⟩ := destroyAreas_confined L₂ (L₁ ++ [a]) fuel h₁ hconf.space
      (by rw [he]; simp) hrest hrun
    exact ⟨hconf.trans hconf', hs.trans hs'⟩

/-! ## `vmm_create` and `map_higher_half` -/

/-- There is a new root in the free page `page`: above it leads where the kernel's does, and below
nowhere. -/
structure NewRoot (k k' : Kmem) (kernelPml4 page : Nat) : Prop where
  same : ∀ t, t ≠ physToVirt page → k'.tables t = k.tables t
  free : k.free = page :: k'.free
  low : ∀ t, LowTable k' (physToVirt page) t → t = physToVirt page
  tables : ∀ t, TableOf k' (physToVirt page) t → t = physToVirt page ∨ TableOf k kernelPml4 t
  empty : ∀ va < lowhalfEnd, leafAt k'.tables (physToVirt page) (vaPath va) = none
  space : LowSpace k' (physToVirt page)

theorem NewRoot.noFrame {kernelPml4 page : Nat} (h : NewRoot k k' kernelPml4 page) (f : Nat) :
    ¬ FrameOf k' (physToVirt page) f := by
  rintro ⟨va, hva, e, hl, -⟩
  rw [h.empty va hva] at hl
  exact absurd hl (by simp)

/-- **A new root table** in a page that held `held`, without present entries below. -/
theorem mapHigherHalf_newRoot {kernelPml4 page : Nat} {free : List Nat} (h : Ready k kernelPml4)
    (hfree : k.free = page :: free) {held : Nat → Entry}
    (hheld : ∀ i < 256, (held i).present = false)
    (hk' : k' = ({ k with tables := Function.update k.tables (physToVirt page) held, free } :
      Kmem).mapHigherHalf kernelPml4 (physToVirt page)) : NewRoot k k' kernelPml4 page := by
  have hpage : page ∈ k.free := by rw [hfree]; exact List.mem_cons_self
  obtain ⟨root, hroot⟩ : ∃ root, root = physToVirt page := ⟨_, rfl⟩
  rw [← hroot] at hk'
  obtain ⟨k₀, hk₀⟩ : ∃ k₀ : Kmem, k₀ = { k with tables := Function.update k.tables root held } :=
    ⟨_, rfl⟩
  have hfree₀ : k₀.free = page :: free := hk₀ ▸ hfree
  have hne₀ : ∀ t, t ≠ root → k₀.tables t = k.tables t := fun t hne => by
    rw [hk₀]
    exact Function.update_of_ne hne _ _
  -- the kernel's tables do not lead to the page
  have hsame₀ : SameTables k k₀ kernelPml4 := fun t ⟨q, hq, hd⟩ => hne₀ t fun e =>
    h.fresh page hpage q hq (hroot ▸ e ▸ hd)
  have hkernel₀ : Ready k₀ kernelPml4 := by
    refine h.sameTables hsame₀ h (hk₀ ▸ List.suffix_rfl) fun p hp => ?_
    rw [hk₀] at hp
    exact fun ⟨q, hq, hd⟩ => h.fresh p hp q hq hd
  have hclean : ∀ i < 256, (k₀.tables (physToVirt page) i).present = false := by
    intro i hi
    rw [hk₀, ← hroot]
    change (Function.update k.tables root held root i).present = false
    rw [Function.update_self]
    exact hheld i hi
  have hk'₀ : k' = ({ k₀ with free } : Kmem).mapHigherHalf kernelPml4 (physToVirt page) := by
    rw [hk', hk₀, ← hroot]
  obtain ⟨hnew, hnone⟩ := hkernel₀.create hfree₀ hclean hk'₀
  have htab' : k'.tables = higherHalf k₀.tables kernelPml4 root := by
    rw [hk'₀, mapHigherHalf_tables, ← hroot]
  have hfree' : k'.free = free := by
    rw [hk'₀]
    exact mapHigherHalf_free _ _ _
  have hlead : ∀ q t, TablePath q → descend Entry.child k'.tables root q = some t →
      (q = [] ∧ t = root) ∨ ∃ i p, q = i :: p ∧ 256 ≤ i ∧ TableOf k kernelPml4 t := by
    intro q t hq hd
    rw [hroot] at htab' hd ⊢
    rcases descend_create hkernel₀ (hfree₀ ▸ List.mem_cons_self) hclean htab' hq hd with
      he | ⟨⟨i, p, he, hi⟩, hd⟩
    · exact .inl he
    · exact .inr ⟨i, p, he, hi, hsame₀.tableOf.mp ⟨q, hq, hd⟩⟩
  have hnoFrame : ∀ f, ¬ FrameOf k' (physToVirt page) f := by
    rintro f ⟨va, hva, e, hl, -⟩
    rw [hnone va hva] at hl
    exact absurd hl (by simp)
  refine ⟨fun t ht => ?_, by rw [hfree', hfree], fun t ht => ?_, fun t ht => ?_, hnone,
    ⟨.of_empty hnew hnone, fun f hf => absurd hf (hnoFrame f), fun f hf => absurd hf (hnoFrame f),
    fun f hf => absurd hf (hnoFrame f)⟩⟩
  · rw [← hroot] at ht
    rw [← hne₀ t ht, htab']
    funext i
    exact if_neg fun he => ht he.1
  · rw [← hroot] at ht ⊢
    obtain ⟨q, hq, hd⟩ := ht
    rcases hlead q t hq.1 hd with ⟨-, he⟩ | ⟨i, p, rfl, hi, -⟩
    · exact he
    · exact absurd (hq.2 i rfl) (by omega)
  · rw [← hroot] at ht ⊢
    obtain ⟨q, hq, hd⟩ := ht
    rcases hlead q t hq hd with ⟨-, he⟩ | ⟨i, p, -, -, ht⟩
    · exact .inl he
    · exact .inr ht

end

end Colibri.Memory

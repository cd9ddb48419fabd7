import Colibri.Memory.Vmm.Exhaustion
import Colibri.Memory.Vmm.Isolation

/-!
# Device memory

`map_mmio` asks `vmm_alloc` for an area of the size of the device's range and maps it with
`mappages`, which rounds the physical address down to its page; the address that is returned is the
start of the area. `unmap_mmio` gives the area back without freeing its pages.

## Results

* `InOrder.device`: where the area is canonical, `v + k` translates to `PAGE_START(physical) + k`.
* `device_iff`: that is what was asked for iff the physical address is the start of a page.
-/

namespace Colibri.Memory

open Colibri.Lib

/-- **What `map_mmio` should come to** in `k'` and `v'`, when it returns `addr`: every byte of the
device has its address, with the access that was asked for; and `unmap_mmio` makes none of them
present, and frees no page. -/
structure Device (k' : Kmem) (v' : Vmm) (physical sz : Nat) (writable : Bool) (addr : Nat) : Prop where
  mapped : ∀ i < sz, Canonical (addr + i) ∧
    ∃ t, translate k'.tables v'.rootPagetable (addr + i) = some t ∧ t.pa = physical + i ∧
      t.writable = writable
  unmapped : ∃ k'' v'', k'.unmapMmio v' addr = some (k'', v'') ∧
    (∀ i < sz, translate k''.tables v''.rootPagetable (addr + i) = none) ∧ k''.free = k'.free

/-- The addresses behind the last area, where a new one is put, are canonical. -/
def CanonicalPlace (v : Vmm) (sz : Nat) : Prop := ∀ i < sz, Canonical (Kmem.place v 0 + i)

section

variable {hole physical sz addr base a : Nat} {k k' : Kmem} {v v' : Vmm} {C L : List Nat}
  {writable : Bool} {flags : BitVec 8}

/-! ## The new area -/

theorem setArea_flags {f : MemoryArea → MemoryArea} (hf : ∀ r, (f r).flags = r.flags) (k : Kmem)
    (a b : Nat) : ((k.setArea a f).areas b).flags = (k.areas b).flags := by
  by_cases hb : b = a
  · simp [hb, Kmem.setArea, hf]
  · simp [hb, Kmem.setArea]

theorem addArea_flags {prev cur found length : Nat}
    (h : k.addArea v prev cur found length flags = (k', v', a)) :
    (k'.areas a).flags = (if v.userVmm then flags ||| memoryFlagUser else flags) ∧
      v'.userVmm = v.userVmm := by
  unfold Kmem.addArea at h
  simp only [Prod.mk.injEq] at h
  obtain ⟨rfl, rfl, rfl⟩ := h
  refine ⟨?_, ?_⟩
  · split <;> split <;> simp only [setArea_flags, implies_true] <;> simp [Kmem.setArea]
  · split <;> split <;> rfl

/-- The flags of a new area. -/
theorem vmmAllocAt_flags (hrun : k.vmmAllocAt base v sz flags = some (k', v', a)) (ha : a ≠ 0) :
    (k'.areas a).flags = (if v.userVmm then flags ||| memoryFlagUser else flags) ∧
      v'.userVmm = v.userVmm := by
  rcases vmmAllocAt_cases hrun with ⟨-, -, ha0⟩ | ⟨-, -, hadd⟩
  · exact absurd ha0 ha
  obtain ⟨k₁, v₁, hg⟩ : ∃ k₁ v₁, k.growContainers v = (k₁, v₁) := ⟨_, _, rfl⟩
  have huser : v₁.userVmm = v.userVmm := by
    unfold Kmem.growContainers at hg
    simp only at hg
    split_ifs at hg <;> obtain ⟨-, rfl⟩ := Prod.mk.inj hg <;> rfl
  rw [← huser]
  exact addArea_flags (hadd k₁ v₁ hg)

/-- The pages that `kalloc` returns can be containers. -/
theorem InOrder.fresh (h : InOrder hole k v C L) (hfree : k.free ≠ []) :
    FreshContainer k C k.kalloc.2 := by
  obtain ⟨p, ps, hf⟩ := List.exists_cons_of_ne_nil hfree
  have hp : p ∈ k.free := hf ▸ List.mem_cons_self
  rw [Kmem.kalloc_cons hf]
  exact ⟨⟨ps, hf⟩, h.ready.aligned p hp, h.mapped p hp, h.spare p (.inr hp)⟩

/-- **A new area** in an address space in order, also when its container is on page 0. -/
theorem InOrder.alloc (h : InOrder hole k v C L) (hw : NoWrap v base sz)
    (hrun : k.vmmAllocAt base v sz flags = some (k', v', a)) (ha : a ≠ 0) :
    ∃ C', AreaList k' v' C' (L ++ [a]) ∧ (k'.areas a).start = Kmem.place v base ∧
      (k'.areas a).size = pageStart (sz - 1) + 4096 := by
  by_cases hpage : NeedsContainer v → k.free ≠ []
  · rcases h.areas.alloc hw (fun hn => h.fresh (hpage hn)) hrun with ⟨-, -, ha0⟩ | hnew
    · exact absurd ha0 ha
    · exact ⟨_, hnew⟩
  · rw [Classical.not_imp, not_not] at hpage
    obtain ⟨hn, hfree⟩ := hpage
    -- `kalloc` returns page 0 as it would if that were the one free page
    obtain ⟨k₀, hk₀⟩ : ∃ k₀ : Kmem, k₀ = { k with free := [0] } := ⟨_, rfl⟩
    have hkalloc : k₀.kalloc = k.kalloc := by
      rw [Kmem.kalloc_nil hfree, Kmem.kalloc_cons (show k₀.free = [0] from hk₀ ▸ rfl), hk₀, ← hfree]
    have hareas : AreaList k₀ v C L := h.areas.congr (fun _ _ => by rw [hk₀]) fun _ _ => by rw [hk₀]
    have hfresh : FreshContainer k₀ C 0 :=
      ⟨⟨[], by rw [hk₀]⟩, by decide, by decide, h.spare 0 (.inl rfl)⟩
    have hgrow : k₀.growContainers v = k.growContainers v := by
      unfold Kmem.growContainers
      rw [if_pos (show v.currentIndex = itemPerContainer ∨ v.rootContainer = 0 from hn),
        if_pos (show v.currentIndex = itemPerContainer ∨ v.rootContainer = 0 from hn), hkalloc]
    have hadds : Adds v base sz := by
      by_contra hnot
      exact ha (vmmAllocAt_of_not_adds hnot hrun).2.2
    obtain ⟨k₁, v₁, hg⟩ : ∃ k₁ v₁, k.growContainers v = (k₁, v₁) := ⟨_, _, rfl⟩
    have hrun₀ : k₀.vmmAllocAt base v sz flags = some (k', v', a) := by
      rw [vmmAllocAt_of_adds hadds (hgrow.trans hg), ← vmmAllocAt_of_adds hadds hg]
      exact hrun
    rcases hareas.alloc hw (fun _ => hfresh) hrun₀ with ⟨-, -, ha0⟩ | hnew
    · exact absurd ha0 ha
    · exact ⟨_, hnew⟩

/-- A request for a range of addresses behind the last area does not wrap. -/
theorem AreaList.noWrap (h : AreaList k v C L) (hadds : Adds v 0 sz) (hsz : 1 ≤ sz)
    (hlt : sz ≤ 2 ^ 52) (hfits : Kmem.place v 0 + sz ≤ u64Size) : NoWrap v 0 sz := by
  have hsize := u64Size_eq
  have hround : pageStart (sz - 1) = sz - 1 - (sz - 1) % 4096 := rfl
  obtain ⟨R, hR⟩ : ∃ R, R = pageStart (sz - 1) + 4096 := ⟨_, rfl⟩
  have hmod : Kmem.place v 0 % 4096 = 0 :=
    Aligned.place_mod ⟨h.bounds.1, h.bounds.2.1, h.bounds.2.2, h.data_lt, h.addr_lt⟩
  obtain ⟨hne, hle⟩ := hadds
  rw [areaLength_eq hsz (by omega), u64Add_eq (by omega)] at hle
  have hdata := h.data_lt
  have hend := h.bounds.2.2
  have hplace : Kmem.place v 0 = Kmem.lowBound v := if_neg (Nat.not_lt_zero _)
  refine ⟨hsz, by omega, ?_⟩
  rw [hplace] at hmod hle hne
  unfold topAddr
  unfold Kmem.lowBound at hne hle hmod
  by_cases h0 : v.currentArea = 0
  · rw [if_pos h0] at hle hmod ⊢
    omega
  · have haddr := h.addr_mod h0
    have haddrlt := h.addr_lt
    have hpage : pageEnd v.currentAddr = v.currentAddr := by
      rw [pageEnd_eq haddrlt, pageStart, pageSize_eq, haddr]
      omega
    rw [if_neg h0, hpage] at hne hle
    rw [if_neg h0]
    rcases Nat.lt_or_ge (v.currentAddr + 1) u64Size with hlast | hlast
    · rw [u64Add_eq hlast] at hle
      omega
    · have hwrap : v.currentAddr + 1 = u64Size := by omega
      rw [u64Add, hwrap, Nat.mod_self] at hne
      exact absurd rfl hne

/-! ## `map_mmio` -/

/-- What a `map_mmio` that succeeds has done: an area, its mark, and its pages. -/
theorem mapMmio_success (hrun : k.mapMmio v physical sz writable = some (k', v', addr))
    (haddr : addr ≠ 0) : ∃ k₁ a, a ≠ 0 ∧
      k.vmmAllocAt 0 v sz ((if writable then memoryFlagWrite else 0) |||
        if v.userVmm then memoryFlagUser else 0) = some (k₁, v', a) ∧
      (k₁.setArea a fun r => { r with isMmio := 1 }).mappages v'.rootPagetable (k₁.areas a).start
        (k₁.areas a).size physical (k₁.areas a).flags = some (k', true) ∧
      addr = (k₁.areas a).start := by
  rw [Kmem.mapMmio, Option.bind_eq_some_iff] at hrun
  obtain ⟨⟨k₁, v₁, a⟩, halloc, hrun⟩ := hrun
  rw [Kmem.vmmAlloc] at halloc
  simp only at hrun
  by_cases ha : a = 0
  · rw [if_pos ha] at hrun
    exact absurd (Prod.mk.inj (Prod.mk.inj (Option.some.inj hrun)).2).2.symm haddr
  · rw [if_neg ha, Kmem.mapDevice, Option.map_eq_some_iff] at hrun
    obtain ⟨⟨k₂, ok⟩, hmap, he⟩ := hrun
    obtain ⟨hk, hvaddr⟩ := Prod.mk.inj he
    obtain ⟨hv, hstart⟩ := Prod.mk.inj hvaddr
    subst hk hv
    have hself : (k₁.setArea a fun r => { r with isMmio := 1 }).areas a =
        { k₁.areas a with isMmio := 1 } := Function.update_self _ _ _
    have hrecords := mappages_sameRecords hmap
    rw [hrecords.areas, hself] at hstart
    simp only [hself] at hmap
    cases ok with
    | false => exact absurd hstart.symm haddr
    | true => exact ⟨k₁, a, ha, halloc, hmap, hstart.symm⟩

/-- The area of a device in its address space, with its pages. -/
structure MmioArea (hole : Nat) (k' : Kmem) (v' : Vmm) (C L : List Nat) (physical sz addr : Nat)
    (writable : Bool) (a : Nat) : Prop where
  areas : AreaList k' v' C (L ++ [a])
  ready : ReadyOff hole k' v'.rootPagetable
  request : RequestOff hole addr (k'.areas a).size
  start : (k'.areas a).start = addr
  aligned : addr % 4096 = 0
  size : sz ≤ (k'.areas a).size
  isMmio : (k'.areas a).isMmio ≠ 0
  leaves : ∀ x, addr ≤ x → x ≤ pageStart (addr + (k'.areas a).size - 1) + 4095 → ∃ p flags,
    leafAt k'.tables v'.rootPagetable (vaPath x) = some (0, Entry.ofPage p flags)
  translations : ∀ i < sz, ∃ t, translate k'.tables v'.rootPagetable (addr + i) = some t ∧
    t.pa = pageStart physical + i ∧ t.writable = writable

theorem le_pageEnd_size {R : Nat} (hal : addr % 4096 = 0) (hR : R % 4096 = 0) (hpos : 0 < R) :
    pageStart (addr + R - 1) + 4095 = addr + R - 1 := by
  rw [pageStart, pageSize_eq]
  omega

theorem writable_flags (writable user : Bool) : ((if user then ((if writable then memoryFlagWrite
    else 0) ||| if user then memoryFlagUser else 0) ||| memoryFlagUser else
    (if writable then memoryFlagWrite else 0) ||| if user then memoryFlagUser else 0).getLsbD 0) =
    writable := by
  cases writable <;> cases user <;> decide

/-- **Where `map_mmio` puts a device**: the start of the area, and behind it the bytes from the start
of the physical page on. -/
theorem InOrder.device (h : InOrder hole k v C L)
    (hhole : ∀ x, v.vmmDataStart ≤ x → x < v.vmmDataEnd → va2Index x 3 ≠ hole) (hsz : 1 ≤ sz)
    (hphys : physical + sz ≤ 2 ^ 52) (hcanon : CanonicalPlace v sz)
    (hrun : k.mapMmio v physical sz writable = some (k', v', addr)) (haddr : addr ≠ 0) :
    addr = Kmem.place v 0 ∧ ∃ C' a, MmioArea hole k' v' C' L physical sz addr writable a := by
  obtain ⟨k₁, a, ha, halloc, hmap, rfl⟩ := mapMmio_success hrun haddr
  have hsize := u64Size_eq
  have hadds : Adds v 0 sz := by
    by_contra hnot
    exact ha (vmmAllocAt_of_not_adds hnot halloc).2.2
  have hlast : Kmem.place v 0 + (sz - 1) < u64Size := by
    have := hcanon (sz - 1) (by omega)
    unfold Canonical at this
    omega
  have hw : NoWrap v 0 sz := h.areas.noWrap hadds hsz (by omega) (by omega)
  obtain ⟨C', hnew, hstart, harea⟩ := h.alloc hw halloc ha
  obtain ⟨hlower, hmod, -, hfits, -⟩ := h.areas.place hw
  obtain ⟨hflags, -⟩ := vmmAllocAt_flags halloc ha
  obtain ⟨htables, hnx, hfree, hroot⟩ := vmmAllocAt_keepsTables halloc
  obtain ⟨P, hP⟩ : ∃ P, P = Kmem.place v 0 := ⟨_, rfl⟩
  obtain ⟨R, hR⟩ : ∃ R, R = pageStart (sz - 1) + 4096 := ⟨_, rfl⟩
  have hround : pageStart (sz - 1) = sz - 1 - (sz - 1) % 4096 := rfl
  rw [← hP] at hstart hlower hmod hfits hlast
  rw [← hR] at harea hfits
  have hmem : a ∈ L ++ [a] := by simp
  have hupper := hnew.upper a hmem
  have hbound : v'.vmmDataEnd = v.vmmDataEnd := by
    rcases vmmAllocAt_extent halloc with ⟨-, ha0⟩ | ⟨-, -, -, -, -, hde, -⟩
    · exact absurd ha0 ha
    · exact hde
  rw [areaEnd, hstart, harea, hbound] at hupper
  have hdata := h.areas.data_lt
  have hend := h.areas.bounds.2.2
  -- the request of `mappages`
  have hrequest : RequestOff hole P R := by
    refine ⟨by omega, by omega, fun x hx hx' => ?_, fun x hx hx' => hhole x (by omega) (by omega)⟩
    have hin : pageStart x < P + sz ∧ P ≤ pageStart x := by
      rw [pageStart, pageSize_eq]
      omega
    refine canonical_of_pageStart (y := pageStart x) ?_ ?_
    · rw [pageStart_of_aligned (pageStart_mod x)]
    · have := hcanon (pageStart x - P) (by omega)
      rwa [← hP, Nat.add_sub_cancel' hin.2] at this
  have hstop : pageStart (P + R - 1) + 4095 = P + R - 1 := le_pageEnd_size hmod (by omega) (by omega)
  obtain ⟨k₂, hk₂⟩ : ∃ k₂, k₂ = k₁.setArea a fun r => { r with isMmio := 1 } := ⟨_, rfl⟩
  have hready : ReadyOff hole k₂ v'.rootPagetable := by
    rw [hroot]
    exact h.ready.suffix (by rw [hk₂]; exact htables) (by rw [hk₂]; exact hfree)
  have hrecords := mappages_sameRecords hmap
  rw [← hk₂, hstart, harea] at hmap
  rw [← hk₂] at hrecords
  unfold Kmem.mappages at hmap
  rw [hrequest.stop, pageStart_of_aligned hmod] at hmap
  have hrange := hrequest.pageRange
  rw [pageStart_of_aligned hmod] at hrange
  have hpale := pageStart_le physical
  have hpamod := pageStart_mod physical
  have hpa : physical = pageStart physical + physical % 4096 := by
    rw [pageStart, pageSize_eq]
    omega
  obtain ⟨hready', -, -, hin, -⟩ := mapLoop_spec u64Size hrange (by omega) hready hmap
  have hself : k'.areas a = { k₁.areas a with isMmio := 1 } := by
    rw [hrecords.areas, hk₂]
    exact Function.update_self _ _ _
  have hother : ∀ b, (k'.areas b).start = (k₁.areas b).start ∧
      (k'.areas b).size = (k₁.areas b).size ∧ (k'.areas b).next = (k₁.areas b).next ∧
      (k'.areas b).prev = (k₁.areas b).prev := fun b => by
    by_cases hb : b = a
    · rw [hb, hself]
      exact ⟨rfl, rfl, rfl, rfl⟩
    · have he : k'.areas b = k₁.areas b := by
        rw [hrecords.areas, hk₂]
        exact Function.update_of_ne hb _ _
      rw [he]
      exact ⟨rfl, rfl, rfl, rfl⟩
  have hsize' : (k'.areas a).size = R := by rw [(hother a).2.1, harea]
  have hstart' : (k'.areas a).start = P := by rw [(hother a).1, hstart]
  rw [hstart]
  refine ⟨hP, C', a, ?_, hready', ?_, hstart', hmod, ?_, ?_, fun x hx hx' => ?_, fun i hi => ?_⟩
  · refine hnew.congr_extent (fun b _ => hother b) fun c _ => ?_
    rw [hrecords.containers, hk₂]
    rfl
  · rw [hsize']
    exact hrequest
  · rw [hsize']
    omega
  · rw [hself]
    exact (by decide : (1 : BitVec 8) ≠ 0)
  · rw [hsize'] at hx'
    exact ⟨_, _, hin x hx hx'⟩
  · have hx : P + i ≤ pageStart (P + R - 1) + 4095 := by omega
    have hpx : pageStart (P + i) = P + i - (P + i) % 4096 := rfl
    have hleaf := hin (P + i) (by omega) hx
    refine ⟨_, by rw [translate, hleaf, Option.map_some,
      translation_ofPage (by omega) (by omega)], ?_, ?_⟩
    · dsimp only
      omega
    · rw [hflags]
      exact writable_flags writable v.userVmm

/-! ## `unmap_mmio` -/

/-- **`unmap_mmio` of a device** makes its pages absent, and frees none. -/
theorem MmioArea.unmap (h : MmioArea hole k' v' C L physical sz addr writable a) :
    ∃ k'' v'', k'.unmapMmio v' addr = some (k'', v'') ∧
      (∀ i < sz, translate k''.tables v''.rootPagetable (addr + i) = none) ∧ k''.free = k'.free := by
  have hmem : a ∈ L ++ [a] := by simp
  have ha0 : a ≠ 0 := fun e => h.areas.linked.zero_notMem (e ▸ hmem)
  have hget : k'.getMemoryArea v' addr = some a := by
    refine h.areas.getMemoryArea_eq hmem ⟨h.start.le, ?_⟩
    have := h.areas.pos a hmem
    rw [areaEnd, h.start]
    omega
  have hlinked : Linked k' v' C (L ++ a :: []) := h.areas.linked
  have hfree := hlinked.freeArea
  have hmmio : decide ((k'.areas a).isMmio = 0) = false := decide_eq_false h.isMmio
  obtain ⟨k₁, v₁, hunlink, htables, hsame, hroot⟩ : ∃ k₁ v₁, k'.unlinkArea v' a = (k₁, v₁) ∧
      k₁.tables = k'.tables ∧ k₁.free = k'.free ∧ v₁.rootPagetable = v'.rootPagetable := by
    obtain ⟨areas, heq, -⟩ := unlinkArea_eq k' v' a
    exact ⟨_, _, heq, rfl, rfl, rfl⟩
  rw [hunlink, h.start, hmmio] at hfree
  -- the pages of the area
  have hready : ReadyOff hole k₁ v'.rootPagetable :=
    h.ready.suffix htables (hsame ▸ List.suffix_rfl)
  have hrange := h.request.pageRange
  rw [pageStart_of_aligned h.aligned] at hrange
  have hsize := u64Size_eq
  have hlt := hrange.lt
  have hsz := h.size
  have hpos := h.areas.pos a hmem
  have hstop : pageStart (addr + (k'.areas a).size - 1) + 4095 = addr + (k'.areas a).size - 1 :=
    le_pageEnd_size h.aligned (h.areas.aligned a hmem).2 hpos
  have hlarge : NoLarge k₁ v'.rootPagetable addr (pageStart (addr + (k'.areas a).size - 1) + 4095) := by
    intro x hx hx' level e he
    obtain ⟨p, flags, hleaf⟩ := h.leaves x hx hx'
    rw [htables, hleaf, Option.some.injEq, Prod.mk.injEq] at he
    omega
  obtain ⟨fuel, hfuel⟩ : ∃ fuel, u64Size = fuel + 1 := ⟨u64Size - 1, by omega⟩
  obtain ⟨k₂, hk₂, -, hin, -⟩ := unmapLoop_spec fuel (by omega) hrange hready hlarge
  have hun : k₁.unmappages v'.rootPagetable addr (k'.areas a).size false = some k₂ := by
    unfold Kmem.unmappages
    rw [h.request.stop, pageStart_of_aligned h.aligned, hfuel]
    exact hk₂
  rw [hun, Option.map_some] at hfree
  have hrun : k'.unmapMmio v' addr = some (k₂, v₁) := by
    unfold Kmem.unmapMmio
    rw [hget]
    cases a with
    | zero => exact absurd rfl ha0
    | succ a =>
      simp only [h.isMmio, if_false, hfree, Option.map_some]
  refine ⟨k₂, v₁, hrun, fun i hi => ?_, by rw [unmapLoop_free _ hk₂, hsame]⟩
  rw [hroot]
  exact translate_none (hin (addr + i) (by omega) (by omega))

end

/-- **A device is mapped byte for byte iff it starts on a page**: for every address space in order, and
every device whose addresses are physical addresses. Where the area is to be, the addresses have to be
canonical: the range of a process ends with a page that is not. -/
theorem device_iff {hole physical sz addr : Nat} {k k' : Kmem} {v v' : Vmm} {C L : List Nat}
    {writable : Bool} (h : InOrder hole k v C L)
    (hhole : ∀ x, v.vmmDataStart ≤ x → x < v.vmmDataEnd → va2Index x 3 ≠ hole) (hsz : 1 ≤ sz)
    (hphys : physical + sz ≤ 2 ^ 52)
    (hrun : k.mapMmio v physical sz writable = some (k', v', addr)) (haddr : addr ≠ 0) :
    Device k' v' physical sz writable addr ↔ physical % 4096 = 0 ∧ CanonicalPlace v sz := by
  have hplace : addr = Kmem.place v 0 := by
    obtain ⟨k₁, a, ha, halloc, -, rfl⟩ := mapMmio_success hrun haddr
    rcases vmmAllocAt_extent halloc with ⟨-, ha0⟩ | ⟨-, -, hstart, -⟩
    · exact absurd ha0 ha
    · exact hstart
  have hpage : physical = pageStart physical + physical % 4096 := by
    have := pageStart_le physical
    rw [pageStart, pageSize_eq] at this ⊢
    omega
  constructor
  · intro hd
    have hcanon : CanonicalPlace v sz := fun i hi => hplace ▸ (hd.mapped i hi).1
    obtain ⟨-, C', a, hmmio⟩ := h.device hhole hsz hphys hcanon hrun haddr
    obtain ⟨t, ht, hpa, -⟩ := (hd.mapped 0 hsz).2
    obtain ⟨t', ht', hpa', -⟩ := hmmio.translations 0 hsz
    rw [ht, Option.some.injEq] at ht'
    rw [← ht', hpa] at hpa'
    exact ⟨by omega, hcanon⟩
  · rintro ⟨hal, hcanon⟩
    obtain ⟨-, C', a, hmmio⟩ := h.device hhole hsz hphys hcanon hrun haddr
    refine ⟨fun i hi => ⟨hplace ▸ hcanon i hi, ?_⟩, hmmio.unmap⟩
    obtain ⟨t, ht, hpa, hw⟩ := hmmio.translations i hi
    rw [pageStart_of_aligned hal] at hpa
    exact ⟨t, ht, hpa, hw⟩

/-- A process with seven free pages and no area. -/
theorem sevenPages_inOrder {v : Vmm} (hv : v = vmmInit 0x9000 0x200000 0x800000000000 true) :
    InOrder 510 sevenPages v [] [] ∧
      ∀ x, v.vmmDataStart ≤ x → x < v.vmmDataEnd → va2Index x 3 ≠ 510 := by
  subst hv
  refine ⟨⟨.init (by decide), sevenPages_ready, by decide, by simp⟩, fun x _ hx => ?_⟩
  have hend : (vmmInit 0x9000 0x200000 0x800000000000 true).vmmDataEnd = 0x800000001000 := by decide
  rw [hend] at hx
  unfold va2Index
  omega

/-- The registers of a timer: a page. -/
theorem device_iff_page : ∃ k' v',
    sevenPages.mapMmio (vmmInit 0x9000 0x200000 0x800000000000 true) 0xfed00000 0x400 true =
      some (k', v', 0x200000) ∧
    (Device k' v' 0xfed00000 0x400 true 0x200000 ↔ 0xfed00000 % 4096 = 0 ∧
      CanonicalPlace (vmmInit 0x9000 0x200000 0x800000000000 true) 0x400) := by
  have hrun : (sevenPages.mapMmio (vmmInit 0x9000 0x200000 0x800000000000 true) 0xfed00000 0x400
      true).map (fun r => r.2.2) = some 0x200000 := by decide +kernel
  obtain ⟨⟨k', v', addr⟩, hk, haddr⟩ := Option.map_eq_some_iff.mp hrun
  dsimp only at haddr
  subst haddr
  obtain ⟨h, hhole⟩ := sevenPages_inOrder rfl
  exact ⟨k', v', hk, device_iff h hhole (by decide) (by decide) hk (by decide)⟩

/-- A register in the middle of a page: its address translates to the start of the page. -/
theorem register_not_mapped : ∃ k' v' addr,
    sevenPages.mapMmio (vmmInit 0x9000 0x200000 0x800000000000 true) 0xfed000f0 8 true =
      some (k', v', addr) ∧ addr ≠ 0 ∧ ¬Device k' v' 0xfed000f0 8 true addr := by
  have hrun : (sevenPages.mapMmio (vmmInit 0x9000 0x200000 0x800000000000 true) 0xfed000f0 8
      true).map (fun r => r.2.2) = some 0x200000 := by decide +kernel
  obtain ⟨⟨k', v', addr⟩, hk, haddr⟩ := Option.map_eq_some_iff.mp hrun
  dsimp only at haddr
  subst haddr
  obtain ⟨h, hhole⟩ := sevenPages_inOrder rfl
  have hplace : Kmem.place (vmmInit 0x9000 0x200000 0x800000000000 true) 0 = 0x200000 := by decide
  have hcanon : CanonicalPlace (vmmInit 0x9000 0x200000 0x800000000000 true) 8 := fun i hi => by
    rw [hplace]
    exact .inl (by omega)
  obtain ⟨-, C', a, hmmio⟩ := h.device hhole (by decide) (by decide) hcanon hk (by decide)
  refine ⟨k', v', _, hk, by decide, fun hd => ?_⟩
  obtain ⟨t, ht, hpa, -⟩ := (hd.mapped 0 (by decide)).2
  obtain ⟨t', ht', hpa', -⟩ := hmmio.translations 0 (by decide)
  rw [ht, Option.some.injEq] at ht'
  rw [← ht', hpa] at hpa'
  exact absurd hpa' (by decide)

end Colibri.Memory

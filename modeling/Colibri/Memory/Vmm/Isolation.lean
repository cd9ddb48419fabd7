import Colibri.Lib.Run
import Colibri.Memory.Vm.Update
import Colibri.Memory.Vmm.Areas
import Colibri.Memory.Vmm.Destroy

/-!
# What a new process can read

A new process and the kernel that loads it touch pages of its areas, and `on_demand_allocation` puts
a page from `kalloc` under each. Neither clears the page. `Proc` is the process's memory with the
bytes of physical memory and two histories: which addresses have been written, and which byte each
address had under it when its page was handed out. Meanwhile the others take pages, give pages back and
write to them, but not to the process's own (`Proc.Spared`).

`unwritten_load`: what is read at an address that has not been written is that byte, in every run. So
two runs read the same there exactly if the pages they were handed held the same
(`fresh_memory_same_iff`).
-/

namespace Colibri.Memory

open Colibri.Lib

/-- The memory of a process. -/
structure Proc where
  k : Kmem
  v : Vmm
  /-- Physical memory, by physical address. -/
  data : Nat → BitVec 8
  /-- The addresses that have been written. -/
  written : List Nat
  /-- What was under an address when its page was handed out. -/
  held : Nat → BitVec 8

/-- What happens to it. Stores and loads are those of the process and of the kernel's `memcpy`; they
are of single bytes, and whether the access allows them is not looked at, so that more runs are
followed than there are. `other` is what everyone else does to the kernel's memory and to the bytes. -/
inductive ProcAction where
  | alloc (base sz : Nat) (flags : BitVec 8)
  | protect (area : Nat) (flags : BitVec 8)
  | touch (va : Nat)
  | store (va : Nat) (b : BitVec 8)
  | other (k : Kmem) (data : Nat → BitVec 8)

/-- The table `t` is in use under `root`. -/
def TableOf (k : Kmem) (root t : Nat) : Prop :=
  ∃ p, TablePath p ∧ descend Entry.child k.tables root p = some t

/-- The page `f` is mapped in the low half. -/
def FrameOf (k : Kmem) (root f : Nat) : Prop :=
  ∃ va < lowhalfEnd, ∃ e, leafAt k.tables root (vaPath va) = some (0, e) ∧ e.frame 0 = f

/-- The tables in use under `root` are the same. -/
def SameTables (k k' : Kmem) (root : Nat) : Prop :=
  ∀ t, TableOf k root t → k'.tables t = k.tables t

namespace Proc

/-- The translation of an address. -/
def translate (s : Proc) (va : Nat) : Option Translation :=
  Memory.translate s.k.tables s.v.rootPagetable va

/-- The byte at an address, if it is mapped. -/
def load (s : Proc) (va : Nat) : Option (BitVec 8) := (s.translate va).map fun t => s.data t.pa

/-- An access: a page fault if the address is not mapped. `none` is a fault that is not served. -/
def touch (s : Proc) (va : Nat) : Option Proc :=
  match s.translate va with
  | some _ => some s
  | none =>
    match s.k.onDemandAllocation s.v va with
    | some (k, true) =>
      let page := s.k.kalloc.2
      some { s with k, held := fun x =>
        if pageStart x = pageStart va then s.data (page + x % 4096) else s.held x }
    | _ => none

/-- The effect of an action. -/
def step (s : Proc) : ProcAction → Option Proc
  | .alloc base sz flags => (s.k.vmmAllocAt base s.v sz flags).map fun (k, v, _) => { s with k, v }
  | .protect area flags => (s.k.updateAreaAccess s.v area flags).map fun (k, _) => { s with k }
  | .touch va => s.touch va
  | .store va b => do
    let s ← s.touch va
    let t ← s.translate va
    return { s with data := Function.update s.data t.pa b, written := va :: s.written }
  | .other k data => some { s with k, data }

/-- What the others leave alone: the tables of the process and the pages under its addresses. Of all
other pages they may take some and give some back, and these they may write. -/
structure Spared (s : Proc) (k : Kmem) (data : Nat → BitVec 8) : Prop where
  tables : SameTables s.k k s.v.rootPagetable
  free : FreeOk k
  noTable : ∀ p ∈ k.free, ¬TableOf s.k s.v.rootPagetable (physToVirt p)
  noFrame : ∀ p ∈ k.free, ¬FrameOf s.k s.v.rootPagetable p
  data : ∀ va < lowhalfEnd, ∀ t, s.translate va = some t → data t.pa = s.data t.pa

/-- A fault at `va` that is served finds a free page. -/
def PageFor (s : Proc) (va : Nat) : Prop := s.translate va = none → s.k.free ≠ []

/-- Accesses are in the low half, and faults find a free page; areas whose access is changed are in
the low half; the others leave the process alone. -/
def Promised (s : Proc) : ProcAction → Prop
  | .alloc _ _ _ => True
  | .protect area _ => s.k.areaLast area < lowhalfEnd
  | .touch va => va < lowhalfEnd ∧ s.PageFor va
  | .store va _ => va < lowhalfEnd ∧ s.PageFor va
  | .other k data => s.Spared k data

end Proc

/-! ## Pages under one address each -/

/-- The low half of the tables under `root`: its pages are small, not free, and each is under one
page of addresses. -/
structure Backed (k : Kmem) (root : Nat) : Prop where
  ready : Ready k root
  small : SmallBelow k root lowhalfEnd
  notFree : ∀ va < lowhalfEnd, ∀ e, leafAt k.tables root (vaPath va) = some (0, e) →
    e.frame 0 ∉ k.free
  apart : ∀ va < lowhalfEnd, ∀ va' < lowhalfEnd, ∀ e e',
    leafAt k.tables root (vaPath va) = some (0, e) →
    leafAt k.tables root (vaPath va') = some (0, e') → e.frame 0 = e'.frame 0 →
    pageStart va = pageStart va'

section

variable {k k' : Kmem} {root va : Nat}

/-- A table under which no page is mapped. -/
theorem Backed.of_empty (h : Ready k root)
    (hnone : ∀ va < lowhalfEnd, leafAt k.tables root (vaPath va) = none) : Backed k root where
  ready := h
  small := fun va hva level e he => by
    rw [hnone va hva] at he
    exact absurd he (by simp)
  notFree := fun va hva e he => by
    rw [hnone va hva] at he
    exact absurd he (by simp)
  apart := fun va hva va' _ e e' he => by
    rw [hnone va hva] at he
    exact absurd he (by simp)

theorem Backed.suffix (h : Backed k root) (ht : k'.tables = k.tables) (hf : k'.free <:+ k.free) :
    Backed k' root := by
  refine ⟨h.ready.suffix ht hf, ?_, ?_, ?_⟩
  · unfold SmallBelow
    rw [ht]
    exact h.small
  · rw [ht]
    exact fun va hva e he hm => h.notFree va hva e he (hf.subset hm)
  · rw [ht]
    exact h.apart

/-- A frame is a page. -/
theorem frame_mod (e : Entry) : e.frame 0 % 4096 = 0 := by
  unfold Entry.frame
  omega

/-- The leaf of a mapped address of the low half. -/
theorem Backed.leaf (h : Backed k root) (hva : va < lowhalfEnd) {t : Translation}
    (ht : translate k.tables root va = some t) :
    ∃ e, leafAt k.tables root (vaPath va) = some (0, e) ∧ t.pa = e.frame 0 + va % 4096 := by
  obtain ⟨⟨level, e⟩, hl, rfl⟩ := Option.map_eq_some_iff.mp ht
  cases level with
  | zero => exact ⟨e, hl, rfl⟩
  | succ level => exact absurd hl (h.small va hva level e)

/-- **No byte is under two addresses.** -/
theorem Backed.inj (h : Backed k root) {va' : Nat} (hva : va < lowhalfEnd) (hva' : va' < lowhalfEnd)
    {t t' : Translation} (ht : translate k.tables root va = some t)
    (ht' : translate k.tables root va' = some t') (he : t.pa = t'.pa) : va = va' := by
  obtain ⟨e, hl, hpa⟩ := h.leaf hva ht
  obtain ⟨e', hl', hpa'⟩ := h.leaf hva' ht'
  have hm := frame_mod e
  have hm' := frame_mod e'
  have hpage := h.apart va hva va' hva' e e' hl hl' (by omega)
  rw [pageStart, pageStart, pageSize_eq] at hpage
  omega

/-- Changing the access keeps this. -/
theorem Backed.samePlaces (h : Backed k root) (hr : Ready k' root) (hp : SamePlaces k k' root)
    (hf : k'.free = k.free) : Backed k' root ∧
      ∀ va < lowhalfEnd, (translate k'.tables root va).map Translation.pa =
        (translate k.tables root va).map Translation.pa := by
  have hback : ∀ va < lowhalfEnd, ∀ e, leafAt k'.tables root (vaPath va) = some (0, e) →
      ∃ e₀, leafAt k.tables root (vaPath va) = some (0, e₀) ∧ e₀.frame 0 = e.frame 0 := by
    intro va hva e he
    have hq := hp _ (vaPath_pagePath (lowhalf_not_recursive hva))
    rw [he] at hq
    obtain ⟨⟨level, e₀⟩, hl, hpl⟩ := Option.map_eq_some_iff.mp hq.symm
    obtain ⟨rfl, hframe⟩ := Prod.mk.inj hpl
    exact ⟨e₀, hl, hframe⟩
  refine ⟨⟨hr, hp.small h.small (Nat.le_refl _), fun va hva e he => ?_,
    fun va hva va' hva' e e' he he' heq => ?_⟩, fun va hva => ?_⟩
  · obtain ⟨e₀, hl, hframe⟩ := hback va hva e he
    rw [← hframe, hf]
    exact h.notFree va hva e₀ hl
  · obtain ⟨e₀, hl, hframe⟩ := hback va hva e he
    obtain ⟨e₀', hl', hframe'⟩ := hback va' hva' e' he'
    exact h.apart va hva va' hva' e₀ e₀' hl hl' (by rw [hframe, hframe', heq])
  · have hq := hp _ (vaPath_pagePath (lowhalf_not_recursive hva))
    have hpa : ∀ l : Nat × Entry, (Entry.translation va l).pa =
        (Entry.place l).2 + va % 2 ^ (12 + 9 * (Entry.place l).1) := fun _ => rfl
    have := congrArg (Option.map fun pl : Nat × Nat => pl.2 + va % 2 ^ (12 + 9 * pl.1)) hq
    simpa only [translate, Option.map_map, Function.comp_def, hpa] using this

/-- The addresses of a page of the low half, and the others. -/
theorem page_cases (hva : va < lowhalfEnd) :
    PageRange (pageStart va) (pageStart va + 4095) ∧
      ∀ x < lowhalfEnd, pageStart x ≠ pageStart va →
        Outside (pageStart va) (pageStart va + 4095) (vaPath x) := by
  have hm := pageStart_mod va
  have hle := pageStart_le va
  have hlow : pageStart va + 4096 ≤ lowhalfEnd := by
    unfold lowhalfEnd at hva ⊢
    omega
  have hsize := u64Size_eq
  have hend : lowhalfEnd = 2 ^ 47 := rfl
  refine ⟨⟨hm, by omega, by omega, fun x _ hx => .inl (by omega), fun x _ hx => ?_⟩,
    fun x hx hne => ⟨vaPath_pagePath (lowhalf_not_recursive hx), fun y hy hy' he => hne ?_⟩⟩
  · exact lowhalf_not_recursive (by omega)
  · rw [vaPath_inj (.inl (by omega)) (.inl (by omega)) he, pageStart_eq_iff hm]
    omega

/-- A fault that is served is a round of `mappages` with the first free page. -/
theorem onDemandAllocation_mapLoop {v : Vmm} (hva : va < lowhalfEnd) {p : Nat} {ps : List Nat}
    (hfree : k.free = p :: ps) (hp : p % 4096 = 0)
    (hrun : k.onDemandAllocation v va = some (k', true)) :
    ∃ a, a ≠ 0 ∧ k.getMemoryArea v va = some a ∧
      Kmem.mapLoop v.rootPagetable (pageStart va) (pageStart va + 4095)
        (vmflagToX86flag k.nxFlagEnabled ((k.areas a).flags.setWidth 64)) u64Size
        { k with free := ps } (pageStart va) p = some (k', true) := by
  have hwm := pageStart_mod va
  have hle := pageStart_le va
  obtain ⟨w, hw⟩ : ∃ w, w = pageStart va := ⟨_, rfl⟩
  rw [← hw] at hwm hle ⊢
  have hsize := u64Size_eq
  have hstop : pageEnd (u64Sub (u64Add w pageSize) 1) = w + 4095 := by
    unfold lowhalfEnd at hva
    rw [pageSize_eq, u64Add_eq (by omega), u64Sub_eq (by omega) (by omega), pageEnd_eq (by omega),
      pageStart, pageSize_eq]
    omega
  unfold Kmem.onDemandAllocation at hrun
  cases hg : k.getMemoryArea v va with
  | none => simp [hg] at hrun
  | some a =>
    rw [hg, Kmem.kalloc_cons hfree, ← hw] at hrun
    cases a with
    | zero => exact absurd hrun (by simp)
    | succ a =>
      simp only at hrun
      unfold Kmem.mappages at hrun
      rw [hstop, pageStart_of_aligned hwm, pageStart_of_aligned hp] at hrun
      exact ⟨a + 1, Nat.succ_ne_zero a, rfl, hrun⟩

/-- **A fault that is served** puts the first free page under its page of addresses, with the access
of the area. -/
theorem Backed.fault_area {v : Vmm} (h : Backed k v.rootPagetable) (hva : va < lowhalfEnd) {p : Nat}
    {ps : List Nat} (hfree : k.free = p :: ps)
    (hrun : k.onDemandAllocation v va = some (k', true)) :
    ∃ a, a ≠ 0 ∧ k.getMemoryArea v va = some a ∧ Backed k' v.rootPagetable ∧ k'.free <:+ ps ∧
      (∀ x < lowhalfEnd, pageStart x = pageStart va → translate k'.tables v.rootPagetable x =
        some ⟨p + x % 4096, (k.areas a).flags.getLsbD 0, (k.areas a).flags.getLsbD 1,
          k.nxFlagEnabled && !(k.areas a).flags.getLsbD 2⟩) ∧
      ∀ x < lowhalfEnd, pageStart x ≠ pageStart va →
        translate k'.tables v.rootPagetable x = translate k.tables v.rootPagetable x := by
  obtain ⟨root, hroot⟩ : ∃ root, root = v.rootPagetable := ⟨_, rfl⟩
  rw [← hroot] at h ⊢
  have hp : p ∈ k.free := by rw [hfree]; exact List.mem_cons_self
  have hpal := h.ready.aligned p hp
  have hplt := h.ready.lt p hp
  have hps : p ∉ ps := by
    have := h.ready.nodup
    rw [hfree] at this
    exact (List.nodup_cons.mp this).1
  obtain ⟨hrange, hother⟩ := page_cases hva
  obtain ⟨w, hw⟩ : ∃ w, w = pageStart va := ⟨_, rfl⟩
  have hwm : w % 4096 = 0 := hw ▸ pageStart_mod va
  have hwlt : w + 4095 < 2 ^ 51 := by
    have := hrange.canonical (w + 4095) (by omega) (by omega)
    have hle := pageStart_le va
    unfold lowhalfEnd at hva
    omega
  rw [← hw] at hrange hother ⊢
  obtain ⟨a, ha, hget, hmap⟩ := onDemandAllocation_mapLoop hva hfree hpal hrun
  obtain ⟨flags, hflags⟩ : ∃ flags, flags = (k.areas a).flags := ⟨_, rfl⟩
  rw [← hw, ← hroot, ← hflags] at hmap
  refine ⟨a, ha, hget, ?_⟩
  rw [← hflags]
  obtain ⟨k₀, hk₀⟩ : ∃ k₀ : Kmem, k₀ = { k with free := ps } := ⟨_, rfl⟩
  rw [← hk₀] at hmap
  have h₀ : Backed k₀ root := h.suffix (hk₀ ▸ rfl) (by rw [hk₀, hfree]; exact List.suffix_cons p ps)
  have hpa : p + (w + 4095 + 1 - w) + 4096 < u64Size := by
    rw [u64Size_eq]
    omega
  obtain ⟨hr', -, -, hin, hout⟩ := mapLoop_spec u64Size hrange hpa h₀.ready hmap
  have hsub : k'.free <:+ ps := by
    have := mapLoop_suffix u64Size hmap
    rwa [hk₀] at this
  have htab : k₀.tables = k.tables := hk₀ ▸ rfl
  have hframe : (Entry.ofPage p (vmflagToX86flag k.nxFlagEnabled (flags.setWidth 64))).frame 0 = p :=
    Entry.frame_ofPage hpal (by omega) fun j hj hj' => by
      rw [getLsbD_vmflag _ flags (by omega), if_neg (by omega), if_neg (by omega),
        if_neg (by omega)]
  -- the leaf of an address in the page, and of another
  have hnew : ∀ x, pageStart x = w → leafAt k'.tables root (vaPath x) =
      some (0, Entry.ofPage p (vmflagToX86flag k.nxFlagEnabled (flags.setWidth 64))) := by
    intro x hx
    obtain ⟨h₁, h₂⟩ := (pageStart_eq_iff hwm).mp hx
    rw [hin x h₁ (by omega), hx, Nat.sub_self, Nat.add_zero]
  have hold : ∀ x < lowhalfEnd, pageStart x ≠ w →
      leafAt k'.tables root (vaPath x) = leafAt k.tables root (vaPath x) := by
    intro x hx hne
    rw [hout _ (hother x hx hne), htab]
  have hfr : ∀ x < lowhalfEnd, ∀ e, leafAt k'.tables root (vaPath x) = some (0, e) →
      (pageStart x = w ∧ e.frame 0 = p) ∨
        (pageStart x ≠ w ∧ e.frame 0 ∉ k.free ∧ leafAt k.tables root (vaPath x) = some (0, e)) := by
    intro x hx e he
    by_cases hpx : pageStart x = w
    · rw [hnew x hpx] at he
      obtain ⟨-, rfl⟩ := Prod.mk.inj (Option.some.inj he)
      exact .inl ⟨hpx, hframe⟩
    · rw [hold x hx hpx] at he
      exact .inr ⟨hpx, h.notFree x hx e he, he⟩
  refine ⟨⟨hr', fun x hx level e he => ?_, fun x hx e he hm => ?_,
    fun x hx y hy e e' he he' heq => ?_⟩, hsub, fun x hx hpx => ?_, fun x hx hne => ?_⟩
  · by_cases hpx : pageStart x = w
    · rw [hnew x hpx] at he
      exact absurd (Prod.mk.inj (Option.some.inj he)).1 (by simp)
    · rw [hold x hx hpx] at he
      exact h.small x hx level e he
  · rcases hfr x hx e he with ⟨-, hf⟩ | ⟨-, hf, -⟩
    · exact hps (hf ▸ hsub.subset hm)
    · exact hf (by rw [hfree]; exact List.mem_cons_of_mem p (hsub.subset hm))
  · rcases hfr x hx e he with ⟨hpx, hf⟩ | ⟨-, hf, hl⟩
    · rcases hfr y hy e' he' with ⟨hpy, -⟩ | ⟨-, hf', -⟩
      · rw [hpx, hpy]
      · exact absurd (by rw [← heq, hf]; exact hp) hf'
    · rcases hfr y hy e' he' with ⟨-, hf'⟩ | ⟨-, -, hl'⟩
      · exact absurd (by rw [heq, hf']; exact hp) hf
      · exact h.apart x hx y hy e e' hl hl' heq
  · rw [translate, hnew x hpx, Option.map_some, translation_ofPage hpal (by omega)]
  · exact translate_congr (hold x hx hne)

theorem Backed.fault {v : Vmm} (h : Backed k v.rootPagetable) (hva : va < lowhalfEnd) {p : Nat}
    {ps : List Nat} (hfree : k.free = p :: ps)
    (hrun : k.onDemandAllocation v va = some (k', true)) :
    Backed k' v.rootPagetable ∧
      (∀ x < lowhalfEnd, pageStart x = pageStart va →
        (translate k'.tables v.rootPagetable x).map Translation.pa = some (p + x % 4096)) ∧
      ∀ x < lowhalfEnd, pageStart x ≠ pageStart va →
        translate k'.tables v.rootPagetable x = translate k.tables v.rootPagetable x := by
  obtain ⟨a, -, -, hb, -, hnew, hold⟩ := h.fault_area hva hfree hrun
  exact ⟨hb, fun x hx hpx => by rw [hnew x hx hpx, Option.map_some], hold⟩

/-! ## Tables that stay -/

theorem SameTables.sameAlong (h : SameTables k k' root) {q : List Nat}
    (hq : ∀ r j s, q = r ++ j :: s → TablePath r) :
    SameAlong Entry.child k.tables k'.tables root q :=
  fun r j s u he hu => congrFun (h u ⟨r, hq r j s he, hu⟩) j

theorem SameTables.descend_eq (h : SameTables k k' root) {q : List Nat} (hq : TablePath q) :
    descend Entry.child k'.tables root q = descend Entry.child k.tables root q :=
  descend_congr q root (h.sameAlong fun _ j s he => TablePathOff.of_prefix ⟨j :: s, he.symm⟩ hq)

theorem SameTables.leafAt_eq (h : SameTables k k' root) {q : List Nat} (hq : PagePath q) :
    leafAt k'.tables root q = leafAt k.tables root q := by
  unfold leafAt
  rw [seek_congr q root (h.sameAlong fun _ _ _ he => hq.tablePath he)]

theorem SameTables.leafAt_va (h : SameTables k k' root) {va : Nat} (hva : va < lowhalfEnd) :
    leafAt k'.tables root (vaPath va) = leafAt k.tables root (vaPath va) :=
  h.leafAt_eq (vaPath_pagePath (lowhalf_not_recursive hva))

/-- A leaf of a low address maps its page. -/
theorem FrameOf.of_leaf {va : Nat} (hva : va < lowhalfEnd) {e : Entry}
    (hl : leafAt k.tables root (vaPath va) = some (0, e)) : FrameOf k root (e.frame 0) :=
  ⟨va, hva, e, hl, rfl⟩

/-- **A tree outside a change** stays one, if the pages that are free now are usable and none of them
is one of its tables. -/
theorem ReadyOff.of_sameTables (h : Ready k root) (hs : SameTables k k' root)
    (hnodup : k'.free.Nodup) (hpage : ∀ p ∈ k'.free, p % 4096 = 0 ∧ 0 < p ∧ p < 2 ^ 51)
    (hfree : ∀ p ∈ k'.free, ¬TableOf k root (physToVirt p)) : Ready k' root where
  tree := fun p q t hp hq hpt hqt => by
    rw [hs.descend_eq hp] at hpt
    rw [hs.descend_eq hq] at hqt
    exact h.tree hp hq hpt hqt
  nodup := hnodup
  aligned := fun p hp => (hpage p hp).1
  pos := fun p hp => (hpage p hp).2.1
  lt := fun p hp => (hpage p hp).2.2
  fresh := fun p hp q hq hd => hfree p hp ⟨q, hq, hs.descend_eq hq ▸ hd⟩

/-- Its pages stay under one address each, if none of them is free now. -/
theorem Backed.sameTables (h : Backed k root) (hs : SameTables k k' root) (hr : Ready k' root)
    (hfree : ∀ p ∈ k'.free, ¬FrameOf k root p) : Backed k' root := by
  refine ⟨hr, fun va hva level e he => ?_, fun va hva e he hm => ?_,
    fun va hva va' hva' e e' he he' heq => ?_⟩
  · rw [hs.leafAt_va hva] at he
    exact h.small va hva level e he
  · rw [hs.leafAt_va hva] at he
    exact hfree _ hm (.of_leaf hva he)
  · rw [hs.leafAt_va hva] at he
    rw [hs.leafAt_va hva'] at he'
    exact h.apart va hva va' hva' e e' he he' heq

/-- The pages of the mapped memory are small enough for a descriptor. -/
theorem FreeOk.lt (h : FreeOk k) {p : Nat} (hp : p ∈ k.free) : p < 2 ^ 51 := by
  have hmapped := h.mapped p hp
  rw [u64Size_eq, show physicalOffset = 18446742424442109952 from rfl] at hmapped
  omega

end

/-! ## Runs -/

/-- **What has not been written is as it was handed out.** -/
structure Kept (s : Proc) : Prop where
  backed : Backed s.k s.v.rootPagetable
  kept : ∀ va < lowhalfEnd, va ∉ s.written → ∀ t, s.translate va = some t →
    s.data t.pa = s.held va

section

variable {s s' : Proc} {va : Nat}

theorem Kept.alloc (h : Kept s) {base sz a : Nat} {flags : BitVec 8} {k' : Kmem} {v' : Vmm}
    (hrun : s.k.vmmAllocAt base s.v sz flags = some (k', v', a)) :
    Kept { s with k := k', v := v' } := by
  obtain ⟨ht, -, hf, hroot⟩ := vmmAllocAt_keepsTables hrun
  constructor
  · change Backed k' v'.rootPagetable
    rw [hroot]
    exact h.backed.suffix ht hf
  · intro va hva hw t htr
    change translate k'.tables v'.rootPagetable va = some t at htr
    rw [ht, hroot] at htr
    exact h.kept va hva hw t htr

theorem pageEnd_lowhalf {a : Nat} (h : a < lowhalfEnd) : pageEnd a < lowhalfEnd := by
  have hm := pageStart_mod a
  have hle := pageStart_le a
  have hsize := u64Size_eq
  unfold lowhalfEnd at h ⊢
  rw [pageEnd_eq (by omega)]
  omega

theorem Kept.protect (h : Kept s) {area : Nat} {flags : BitVec 8} {k' : Kmem} {b : Bool}
    (hlow : s.k.areaLast area < lowhalfEnd)
    (hrun : s.k.updateAreaAccess s.v area flags = some (k', b)) : Kept { s with k := k' } := by
  obtain ⟨areas, hareas⟩ : ∃ areas, areas = Function.update s.k.areas area
    { s.k.areas area with
      flags := if s.v.userVmm then flags ||| memoryFlagUser else flags } := ⟨_, rfl⟩
  have hstart : (areas area).start = (s.k.areas area).start := by rw [hareas, Function.update_self]
  have hsize : (areas area).size = (s.k.areas area).size := by rw [hareas, Function.update_self]
  unfold Kmem.updateAreaAccess Kmem.setArea at hrun
  simp only [← hareas] at hrun
  unfold Kmem.updatepages at hrun
  rw [hstart, hsize] at hrun
  have h₁ : Backed { s.k with areas } s.v.rootPagetable :=
    h.backed.suffix rfl List.suffix_rfl
  obtain ⟨hr, hp, hf⟩ := updateLoop_spec (pageEnd_lowhalf hlow) u64Size h₁.ready h₁.small hrun
  obtain ⟨h₂, hpa⟩ := h₁.samePlaces hr hp hf
  refine ⟨h₂, fun va hva hw t ht => ?_⟩
  have he := hpa va hva
  rw [show translate k'.tables s.v.rootPagetable va = some t from ht] at he
  obtain ⟨t₀, ht₀, hpa₀⟩ := Option.map_eq_some_iff.mp he.symm
  change s.data t.pa = s.held va
  rw [← hpa₀]
  exact h.kept va hva hw t₀ ht₀

/-- **An access** keeps this: the byte under a new page is what the page held. -/
theorem Kept.touch (h : Kept s) (hva : va < lowhalfEnd) (hfree : s.PageFor va)
    (hrun : s.touch va = some s') : Kept s' := by
  unfold Proc.touch at hrun
  cases ht : s.translate va with
  | some t =>
    rw [ht] at hrun
    obtain rfl := Option.some.inj hrun
    exact h
  | none =>
    rw [ht] at hrun
    simp only at hrun
    split at hrun
    · rename_i k' hdem
      obtain rfl := Option.some.inj hrun
      obtain ⟨p, ps, hps⟩ := List.exists_cons_of_ne_nil (hfree ht)
      obtain ⟨hb, hnew, hold⟩ := h.backed.fault hva hps hdem
      refine ⟨hb, fun x hx hw t htr => ?_⟩
      change translate k'.tables s.v.rootPagetable x = some t at htr
      change s.data t.pa =
        if pageStart x = pageStart va then s.data (s.k.kalloc.2 + x % 4096) else s.held x
      by_cases hpx : pageStart x = pageStart va
      · have hpa := hnew x hx hpx
        rw [htr, Option.map_some] at hpa
        rw [if_pos hpx, Kmem.kalloc_cons hps, Option.some.inj hpa]
      · rw [if_neg hpx]
        rw [hold x hx hpx] at htr
        exact h.kept x hx hw t htr
    · exact absurd hrun (by simp)

/-- **A store** changes the byte of its address only. -/
theorem Kept.store (h : Kept s) (hva : va < lowhalfEnd) {t : Translation} (b : BitVec 8)
    (ht : s.translate va = some t) :
    Kept { s with data := Function.update s.data t.pa b, written := va :: s.written } := by
  refine ⟨h.backed, fun x hx hw t' ht' => ?_⟩
  rw [List.mem_cons, not_or] at hw
  have hne : t'.pa ≠ t.pa := fun e => hw.1 (h.backed.inj hx hva ht' ht e)
  change Function.update s.data t.pa b t'.pa = s.held x
  rw [Function.update_of_ne hne]
  exact h.kept x hx hw.2 t' ht'

/-- **What the others do** is not seen. -/
theorem Kept.other (h : Kept s) {k : Kmem} {data : Nat → BitVec 8} (hp : s.Spared k data) :
    Kept { s with k, data } := by
  have hready : Ready k s.v.rootPagetable := h.backed.ready.of_sameTables hp.tables hp.free.nodup
    (fun p hm => ⟨hp.free.aligned p hm, hp.free.pos p hm, hp.free.lt hm⟩) hp.noTable
  refine ⟨h.backed.sameTables hp.tables hready hp.noFrame, fun va hva hw t ht => ?_⟩
  change translate k.tables s.v.rootPagetable va = some t at ht
  rw [translate_congr (hp.tables.leafAt_va hva)] at ht
  exact (hp.data va hva t ht).trans (h.kept va hva hw t ht)

theorem Kept.step (h : Kept s) {a : ProcAction} (hp : s.Promised a) (hstep : s.step a = some s') :
    Kept s' := by
  cases a with
  | alloc base sz flags =>
    unfold Proc.step at hstep
    obtain ⟨⟨k, v, a⟩, hrun, rfl⟩ := Option.map_eq_some_iff.mp hstep
    exact h.alloc hrun
  | protect area flags =>
    unfold Proc.step at hstep
    obtain ⟨⟨k, b⟩, hrun, rfl⟩ := Option.map_eq_some_iff.mp hstep
    exact h.protect hp hrun
  | touch va => exact h.touch hp.1 hp.2 hstep
  | store va b =>
    unfold Proc.step at hstep
    obtain ⟨s₁, hs₁, hstep⟩ := Option.bind_eq_some_iff.mp hstep
    obtain ⟨t, ht, hstep⟩ := Option.bind_eq_some_iff.mp hstep
    obtain rfl := Option.some.inj hstep
    exact (h.touch hp.1 hp.2 hs₁).store hp.1 b ht
  | other k data =>
    obtain rfl := Option.some.inj hstep
    exact h.other hp

end

/-! ## The tables of a new process -/

section

variable {k : Kmem} {kernelPml4 page : Nat}

theorem mapHigherLoop_free (kernelPml4 pagetable : Nat) : ∀ (n : Nat) (k : Kmem) (i : Nat),
    (Kmem.mapHigherLoop kernelPml4 pagetable n k i).free = k.free
  | 0, _, _ => rfl
  | n + 1, k, i => by
    rw [Kmem.mapHigherLoop, mapHigherLoop_free kernelPml4 pagetable n]
    rfl

theorem mapHigherHalf_free (k : Kmem) (kernelPml4 pagetable : Nat) :
    (k.mapHigherHalf kernelPml4 pagetable).free = k.free :=
  mapHigherLoop_free kernelPml4 pagetable 256 k 256

/-- The paths into the upper half lead where the kernel's do, and the others nowhere. -/
theorem descend_higherHalf (h : Ready k kernelPml4) (hpage : page ∈ k.free)
    (hclean : ∀ i < 256, (k.tables (physToVirt page) i).present = false) {i : Nat} {p : List Nat}
    (hp : TablePath (i :: p)) :
    descend Entry.child (higherHalf k.tables kernelPml4 (physToVirt page)) (physToVirt page)
      (i :: p) = if i < 256 then none else descend Entry.child k.tables kernelPml4 (i :: p) := by
  have hi : i < 512 := hp.2.1 i List.mem_cons_self
  obtain ⟨root, hroot⟩ : ∃ root, root = physToVirt page := ⟨_, rfl⟩
  have hfresh := h.fresh page hpage
  rw [← hroot] at hclean hfresh ⊢
  by_cases hlow : i < 256
  · have he : higherHalf k.tables kernelPml4 root root i = k.tables root i := if_neg (by omega)
    rw [if_pos hlow, descend_cons_none]
    rw [he]
    exact Entry.child_of_not_present (hclean i hlow)
  · have he : higherHalf k.tables kernelPml4 root root i = k.tables kernelPml4 i :=
      if_pos ⟨rfl, by omega, hi⟩
    rw [if_neg hlow]
    cases hc : (k.tables kernelPml4 i).child with
    | none => rw [descend_cons_none (he ▸ hc), descend_cons_none hc]
    | some c =>
      rw [descend_cons (he ▸ hc), descend_cons hc]
      refine descend_congr p c fun r j q u hpr hu => if_neg fun hu' => ?_
      -- the kernel's tables do not lead to a free page
      refine hfresh (i :: r) (TablePathOff.of_prefix ⟨j :: q, ?_⟩ hp) ?_
      · rw [hpr]
        rfl
      · rw [descend_cons hc, hu, hu'.1]

/-- A path that leads somewhere is empty, or leads there from the kernel's root. -/
theorem descend_create (h : Ready k kernelPml4) (hpage : page ∈ k.free)
    (hclean : ∀ i < 256, (k.tables (physToVirt page) i).present = false) {k' : Kmem}
    (ht' : k'.tables = higherHalf k.tables kernelPml4 (physToVirt page)) {p : List Nat} {t : Nat}
    (hp : TablePath p) (hpt : descend Entry.child k'.tables (physToVirt page) p = some t) :
    (p = [] ∧ t = physToVirt page) ∨
      ((∃ i q, p = i :: q ∧ 256 ≤ i) ∧ descend Entry.child k.tables kernelPml4 p = some t) := by
  cases p with
  | nil => exact .inl ⟨rfl, (Option.some.inj hpt).symm⟩
  | cons i p =>
    rw [ht', descend_higherHalf h hpage hclean hp] at hpt
    split at hpt
    next => exact absurd hpt (by simp)
    next hi => exact .inr ⟨⟨i, p, rfl, Nat.le_of_not_lt hi⟩, hpt⟩

/-- **The tables of a new process** whose root page was left without present entries below. -/
theorem Ready.create (h : Ready k kernelPml4) {free : List Nat} (hfree : k.free = page :: free)
    (hclean : ∀ i < 256, (k.tables (physToVirt page) i).present = false) {k' : Kmem}
    (hk' : k' = ({ k with free } : Kmem).mapHigherHalf kernelPml4 (physToVirt page)) :
    Ready k' (physToVirt page) ∧
      ∀ va < lowhalfEnd, leafAt k'.tables (physToVirt page) (vaPath va) = none := by
  have hpage : page ∈ k.free := by rw [hfree]; exact List.mem_cons_self
  have hmem : ∀ {x}, x ∈ free → x ∈ k.free := fun hx => by
    rw [hfree]
    exact List.mem_cons_of_mem page hx
  have hnd : page ∉ free ∧ free.Nodup := by
    have := h.nodup
    rwa [hfree, List.nodup_cons] at this
  have hf' : k'.free = free := by
    rw [hk']
    exact mapHigherHalf_free _ _ _
  have ht' : k'.tables = higherHalf k.tables kernelPml4 (physToVirt page) := by
    rw [hk', mapHigherHalf_tables]
  have hlead := fun p t (hp : TablePath p) hpt => descend_create (t := t) h hpage hclean ht' hp hpt
  refine ⟨⟨fun p q t hp hq hpt hqt => ?_, hf' ▸ hnd.2, fun x hx => ?_, fun x hx => ?_,
    fun x hx => ?_, fun x hx q hq hqt => ?_⟩, fun va hva => ?_⟩
  · rcases hlead p t hp hpt with ⟨hpn, htp⟩ | ⟨-, hpk⟩
    · rcases hlead q t hq hqt with ⟨hqn, -⟩ | ⟨-, hqk⟩
      · rw [hpn, hqn]
      · rw [htp] at hqk
        exact absurd hqk (h.fresh page hpage q hq)
    · rcases hlead q t hq hqt with ⟨-, htq⟩ | ⟨-, hqk⟩
      · rw [htq] at hpk
        exact absurd hpk (h.fresh page hpage p hp)
      · exact h.tree hp hq hpk hqk
  · exact h.aligned x (hmem (hf' ▸ hx))
  · exact h.pos x (hmem (hf' ▸ hx))
  · exact h.lt x (hmem (hf' ▸ hx))
  · rw [hf'] at hx
    rcases hlead q _ hq hqt with ⟨-, he⟩ | ⟨-, hqk⟩
    · exact hnd.1 (physToVirt_inj (h.lt x (hmem hx)) (h.lt page hpage) he ▸ hx)
    · exact h.fresh x (hmem hx) q hq hqk
  · have hi : va2Index va 3 < 256 := by
      unfold va2Index
      unfold lowhalfEnd at hva
      omega
    have he : k'.tables (physToVirt page) (va2Index va 3) =
        k.tables (physToVirt page) (va2Index va 3) := by
      rw [ht']
      exact if_neg (by omega)
    have hnp := hclean _ hi
    rw [← he] at hnp
    exact leafAt_eq_none (seek_cons_none (Entry.child_of_not_present hnp)) hnp

end

theorem vmmInit_rootPagetable (pagetable start stop : Nat) (user : Bool) :
    (vmmInit pagetable start stop user).rootPagetable = pagetable := rfl

/-- A process in a run from its creation on, in a kernel with the memory `k` and `data`. The kernel's
own tables form a tree, and the page that is taken for the root table was left without present entries
in its lower half. -/
def FreshRun (k : Kmem) (data : Nat → BitVec 8) (s : Proc) : Prop :=
  ∃ (k₁ : Kmem) (v : Vmm) (kernelPml4 : Nat) (user : Bool),
    Ready k kernelPml4 ∧ k.vmmCreate true true lowhalfStart lowhalfEnd user = (k₁, some v) ∧
    (∀ i < 256, (k.tables v.rootPagetable i).present = false) ∧
    Run Proc.step Proc.Promised
      ⟨k₁.mapHigherHalf kernelPml4 v.rootPagetable, v, data, [], fun _ => 0⟩ s

theorem FreshRun.kept {k : Kmem} {data : Nat → BitVec 8} {s : Proc} (h : FreshRun k data s) :
    Kept s := by
  obtain ⟨k₁, v, kernelPml4, user, hr, hcreate, hclean, hrun⟩ := h
  obtain ⟨page, free, hfree, -, rfl, hv⟩ := vmmCreate_eq hcreate
  have hroot : v.rootPagetable = physToVirt page := by
    rw [hv]
    exact vmmInit_rootPagetable _ _ _ _
  rw [hroot] at hclean hrun
  obtain ⟨k', hk'⟩ : ∃ k', k' = ({ k with free } : Kmem).mapHigherHalf kernelPml4
    (physToVirt page) := ⟨_, rfl⟩
  rw [← hk'] at hrun
  obtain ⟨hready, hnone⟩ := hr.create hfree hclean hk'
  refine Run.invariant Kept ⟨?_, fun va hva _ t ht => ?_⟩
    (fun _ _ _ hs hp hstep => hs.step hp hstep) hrun
  · rw [hroot]
    exact .of_empty hready hnone
  · change translate _ v.rootPagetable va = some t at ht
    rw [hroot, translate_none (hnone va hva)] at ht
    exact absurd ht (by simp)

/-- **What is read before it is written** is what the page held when it was handed out. -/
theorem unwritten_load {k : Kmem} {data : Nat → BitVec 8} {s : Proc} (h : FreshRun k data s)
    {va : Nat} (hva : va < lowhalfEnd)
    (hw : va ∉ s.written) {b : BitVec 8} (hl : s.load va = some b) : b = s.held va := by
  obtain ⟨t, ht, rfl⟩ := Option.map_eq_some_iff.mp hl
  exact h.kept.kept va hva hw t ht

/-- **Two processes read the same at an address neither has written** if and only if the pages they
were handed for it held the same byte. -/
theorem fresh_memory_same_iff {k₁ k₂ : Kmem} {data₁ data₂ : Nat → BitVec 8} {s₁ s₂ : Proc}
    (h₁ : FreshRun k₁ data₁ s₁) (h₂ : FreshRun k₂ data₂ s₂) {va : Nat} (hva : va < lowhalfEnd)
    (hw₁ : va ∉ s₁.written) (hw₂ : va ∉ s₂.written) {b₁ b₂ : BitVec 8}
    (hl₁ : s₁.load va = some b₁) (hl₂ : s₂.load va = some b₂) :
    b₁ = b₂ ↔ s₁.held va = s₂.held va := by
  rw [unwritten_load h₁ hva hw₁ hl₁, unwritten_load h₂ hva hw₂ hl₂]

theorem sevenPages_ready : Ready sevenPages 0x9000 where
  tree := emptyKmem_ready.tree
  nodup := by decide
  aligned := by decide
  pos := by decide
  lt := by decide
  fresh := fun p hp q _ h => by
    have ht := (emptyKmem_descend h).2
    revert hp
    simp only [sevenPages, List.mem_cons, List.not_mem_nil, or_false]
    rintro (rfl | rfl | rfl | rfl | rfl | rfl | rfl) <;> exact absurd ht (by decide)

/-- A new process in the page `0x2000`. -/
def freshProc (data : Nat → BitVec 8) : Proc :=
  let k := { sevenPages with free := [0x3000, 0x4000, 0x5000, 0x6000, 0x7000, 0x8000] }
  let v := vmmInit (physToVirt 0x2000) lowhalfStart lowhalfEnd true
  ⟨k.mapHigherHalf 0x9000 v.rootPagetable, v, data, [], fun _ => 0⟩

/-- It touches one byte of its first page: the pages that are free before, the addresses written and
the byte there. -/
def touchOne (data : Nat → BitVec 8) : Option (List Nat × List Nat × Option (BitVec 8)) :=
  ((freshProc data).step (.alloc 0x400000 1 1)).bind fun s₁ =>
    (s₁.step (.touch 0x400010)).map fun s₂ => (s₁.k.free, s₂.written, s₂.load 0x400010)

theorem freshRun_init {data : Nat → BitVec 8} {s : Proc}
    (h : Run Proc.step Proc.Promised (freshProc data) s) : FreshRun sevenPages data s :=
  ⟨_, _, 0x9000, true, sevenPages_ready, rfl, fun _ _ => Entry.present_zero, h⟩

theorem freshRun_touchOne {data : Nat → BitVec 8} {b : BitVec 8}
    (h : touchOne data = some ([0x4000, 0x5000, 0x6000, 0x7000, 0x8000], [], some b)) :
    ∃ s, FreshRun sevenPages data s ∧ s.written = [] ∧ s.load 0x400010 = some b := by
  unfold touchOne at h
  obtain ⟨s₁, hs₁, h⟩ := Option.bind_eq_some_iff.mp h
  obtain ⟨s₂, hs₂, h⟩ := Option.map_eq_some_iff.mp h
  simp only [Prod.mk.injEq] at h
  obtain ⟨hfree, hwritten, hload⟩ := h
  have hva : 0x400010 < lowhalfEnd := by decide
  have hpage : s₁.PageFor 0x400010 := fun _ => by
    rw [hfree]
    simp
  have h₁ : Run Proc.step Proc.Promised (freshProc data) s₁ :=
    .step (.alloc 0x400000 1 1) .init trivial hs₁
  exact ⟨s₂, freshRun_init (.step (.touch 0x400010) h₁ ⟨hva, hpage⟩ hs₂), hwritten, hload⟩

theorem zeros_touchOne : touchOne (fun _ => 0) =
    some ([0x4000, 0x5000, 0x6000, 0x7000, 0x8000], [], some 0) := by decide +kernel

/-- Its last owner left `0x42` all over the page at `0x4000`. -/
def dirtyPage (a : Nat) : BitVec 8 := if pageStart a = 0x4000 then 0x42 else 0

theorem dirtyPage_touchOne : touchOne dirtyPage =
    some ([0x4000, 0x5000, 0x6000, 0x7000, 0x8000], [], some 0x42) := by decide +kernel

/-- A page of zeros and a page that was left full. -/
theorem fresh_memory_same_iff_dirty : ∃ s₁ s₂, FreshRun sevenPages (fun _ => 0) s₁ ∧
    FreshRun sevenPages dirtyPage s₂ ∧ s₁.load 0x400010 = some 0 ∧ s₂.load 0x400010 = some 0x42 ∧
    ((0 : BitVec 8) = 0x42 ↔ s₁.held 0x400010 = s₂.held 0x400010) := by
  obtain ⟨s₁, hs₁, hw₁, hl₁⟩ := freshRun_touchOne zeros_touchOne
  obtain ⟨s₂, hs₂, hw₂, hl₂⟩ := freshRun_touchOne dirtyPage_touchOne
  have hn₁ : 0x400010 ∉ s₁.written := by rw [hw₁]; simp
  have hn₂ : 0x400010 ∉ s₂.written := by rw [hw₂]; simp
  exact ⟨s₁, s₂, hs₁, hs₂, hl₁, hl₂, fresh_memory_same_iff hs₁ hs₂ (by decide) hn₁ hn₂ hl₁ hl₂⟩

/-- In two kernels that differ in a free page only, a new process reads what is in that page. -/
theorem fresh_memory_exposed : ∃ s₁ s₂,
    (∀ a, pageStart a ∉ sevenPages.free → (0 : BitVec 8) = dirtyPage a) ∧
    FreshRun sevenPages (fun _ => 0) s₁ ∧ FreshRun sevenPages dirtyPage s₂ ∧
    0x400010 ∉ s₁.written ∧ 0x400010 ∉ s₂.written ∧
    s₁.load 0x400010 = some 0 ∧ s₂.load 0x400010 = some 0x42 := by
  obtain ⟨s₁, hs₁, hw₁, hl₁⟩ := freshRun_touchOne zeros_touchOne
  obtain ⟨s₂, hs₂, hw₂, hl₂⟩ := freshRun_touchOne dirtyPage_touchOne
  refine ⟨s₁, s₂, fun a ha => ?_, hs₁, hs₂, by rw [hw₁]; simp, by rw [hw₂]; simp, hl₁, hl₂⟩
  rw [dirtyPage, if_neg]
  rintro h
  rw [h] at ha
  exact ha (by decide)

end Colibri.Memory

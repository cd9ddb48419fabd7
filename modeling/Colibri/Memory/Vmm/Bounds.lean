import Colibri.Lib.Run
import Colibri.Memory.Vmm.Areas

/-!
# Where areas end up

`vmm_alloc_at` takes any base and any size: those of an ELF segment reach it unchecked. The module
follows an address space through runs in which nothing is assumed of the requests, and says for which
of them the area that is returned is the one that was asked for (`alloc_inBounds_iff`) and lies below
the end that `vmm_init` was given (`area_below_stop_iff`).

The results only need the record of the address space. What is in the area records and containers is
left free: a step `other` changes the kernel's memory in any way.
-/

namespace Colibri.Memory

open Colibri.Lib

/-! ## What `vmm_free_area` does to the address space -/

theorem unlinkArea_sameSpace {k k' : Kmem} {v v' : Vmm} {area : Nat}
    (h : k.unlinkArea v area = (k', v')) :
    SameSpace v v' ∧ v'.rootContainer = v.rootContainer := by
  unfold Kmem.unlinkArea at h
  simp only at h
  obtain ⟨-, rfl⟩ := Prod.mk.inj h
  split_ifs <;> exact ⟨⟨rfl, rfl, rfl⟩, rfl⟩

/-- **What `vmm_free_area` does to the address space.** One without containers is not changed. -/
theorem vmmFreeArea_extent {k k' : Kmem} {v v' : Vmm} {area : Nat} {b : Bool}
    (h : k.vmmFreeArea v area = some (k', v', b)) :
    v' = v ∨ (v.rootContainer ≠ 0 ∧ SameSpace v v' ∧ v'.rootContainer = v.rootContainer) := by
  unfold Kmem.vmmFreeArea at h
  split at h
  · obtain ⟨-, rfl, -⟩ : k = k' ∧ v = v' ∧ false = b := by simpa using h
    exact .inl rfl
  split at h
  · exact absurd h (by simp)
  · obtain ⟨-, rfl, -⟩ : k = k' ∧ v = v' ∧ false = b := by simpa using h
    exact .inl rfl
  · rename_i c hc hfind
    have hroot : v.rootContainer ≠ 0 := by
      intro h0
      obtain ⟨fuel, hfuel⟩ : ∃ fuel, u64Size = fuel + 1 := ⟨u64Size - 1, by have := u64Size_pos; omega⟩
      rw [h0, hfuel, Kmem.findContainer, if_pos rfl] at hfind
      exact hc (Option.some.inj hfind).symm
    obtain ⟨k₁, v₁, hkv⟩ : ∃ k₁ v₁, k.unlinkArea v area = (k₁, v₁) := ⟨_, _, rfl⟩
    rw [hkv] at h
    obtain ⟨k₂, -, hk₂⟩ := Option.map_eq_some_iff.mp h
    obtain ⟨-, rfl, -⟩ : k₂ = k' ∧ v₁ = v' ∧ true = b := by simpa using hk₂
    exact .inr ⟨hroot, unlinkArea_sameSpace hkv⟩

/-! ## Runs -/

/-- What happens to an address space, with everything that others do to the kernel's memory. -/
inductive SpaceAction where
  | alloc (base sz : Nat) (flags : BitVec 8)
  | free (area : Nat)
  | other (k' : Kmem)

/-- An address space in the kernel's memory, and the extents of the areas `vmm_alloc_at` has
returned, newest first. -/
structure Space where
  k : Kmem
  v : Vmm
  extents : List (Nat × Nat)

namespace Space

/-- The effect of an action; `none` is a loop that does not end. -/
def step (s : Space) : SpaceAction → Option Space
  | .alloc base sz flags => (s.k.vmmAllocAt base s.v sz flags).map fun (k, v, a) =>
    ⟨k, v, if a = 0 then s.extents else ((k.areas a).start, (k.areas a).size) :: s.extents⟩
  | .free area => (s.k.vmmFreeArea s.v area).map fun (k, v, _) => ⟨k, v, s.extents⟩
  | .other k' => some { s with k := k' }

end Space

/-- The runs of an address space after `vmm_init` in which every request meets `P`. Requests are any
`u64` values. -/
abbrev SpaceRun (P : Vmm → Nat → Nat → Prop) (k : Kmem) (v : Vmm) : Space → Prop :=
  Run Space.step (fun s a => ∀ base sz flags, a = .alloc base sz flags →
    base < u64Size ∧ sz < u64Size ∧ P s.v base sz) ⟨k, v, []⟩

theorem alloc_step {s s' : Space} {base sz : Nat} {flags : BitVec 8}
    (h : s.step (.alloc base sz flags) = some s') : ∃ a,
      s.k.vmmAllocAt base s.v sz flags = some (s'.k, s'.v, a) ∧
      s'.extents = if a = 0 then s.extents else
        ((s'.k.areas a).start, (s'.k.areas a).size) :: s.extents := by
  unfold Space.step at h
  obtain ⟨⟨k, v, a⟩, hrun, rfl⟩ := Option.map_eq_some_iff.mp h
  exact ⟨a, hrun, rfl⟩

theorem free_step {s s' : Space} {area : Nat} (h : s.step (.free area) = some s') :
    ∃ b, s.k.vmmFreeArea s.v area = some (s'.k, s'.v, b) ∧ s'.extents = s.extents := by
  unfold Space.step at h
  obtain ⟨⟨k, v, b⟩, hrun, rfl⟩ := Option.map_eq_some_iff.mp h
  exact ⟨b, hrun, rfl⟩

/-- What holds of the record in every run: its bounds are aligned. -/
structure Aligned (v : Vmm) : Prop where
  dataStart : v.vmmDataStart % 4096 = 0
  pos : 0 < v.vmmDataStart
  dataEnd : v.vmmDataEnd % 4096 = 0
  lt : v.vmmDataEnd < u64Size
  addr : v.currentAddr < u64Size

theorem aligned_init {pagetable start stop : Nat} {user : Bool} (h : stop < u64Size) :
    Aligned (vmmInit pagetable start stop user) := by
  have hl : AreaList emptyKmem (vmmInit pagetable start stop user) [] [] := .init h
  exact ⟨hl.bounds.1, hl.bounds.2.1, hl.bounds.2.2, hl.data_lt, hl.addr_lt⟩

theorem Aligned.congr {v v' : Vmm} (h : Aligned v) (hs : SameSpace v v') : Aligned v' := by
  obtain ⟨h₁, h₂, h₃, h₄, h₅⟩ := h
  exact ⟨by rw [hs.dataStart]; exact h₁, by rw [hs.dataStart]; exact h₂,
    by rw [hs.dataEnd]; exact h₃, by rw [hs.dataEnd]; exact h₄, by rw [hs.addr]; exact h₅⟩

theorem Aligned.alloc {k k' : Kmem} {v v' : Vmm} {base sz a : Nat} {flags : BitVec 8}
    (h : Aligned v) (hrun : k.vmmAllocAt base v sz flags = some (k', v', a)) : Aligned v' := by
  rcases vmmAllocAt_extent hrun with ⟨rfl, -⟩ | ⟨-, -, -, -, hds, hde, haddr⟩
  · exact h
  · exact ⟨by rw [hds]; exact h.dataStart, by rw [hds]; exact h.pos, by rw [hde]; exact h.dataEnd,
      by rw [hde]; exact h.lt, by rw [haddr]; exact u64Sub_lt _ _⟩

theorem Aligned.step {s s' : Space} {a : SpaceAction} (hs : Aligned s.v)
    (hstep : s.step a = some s') : Aligned s'.v := by
  cases a with
  | alloc base sz flags =>
    obtain ⟨x, hrun, -⟩ := alloc_step hstep
    exact hs.alloc hrun
  | free area =>
    obtain ⟨b, hrun, -⟩ := free_step hstep
    rcases vmmFreeArea_extent hrun with he | ⟨-, hsame, -⟩
    · rw [he]
      exact hs
    · exact hs.congr hsame
  | other k' =>
    obtain rfl := Option.some.inj hstep
    exact hs

theorem SpaceRun.aligned {P : Vmm → Nat → Nat → Prop} {k : Kmem} {v : Vmm} {s : Space}
    (hv : Aligned v) (h : SpaceRun P k v s) : Aligned s.v :=
  Run.invariant (fun s : Space => Aligned s.v) hv (fun _ _ _ hs _ hstep => hs.step hstep) h

/-! ## The area that was asked for -/

/-- The size of an area for a request of `sz` bytes. -/
def roundUp (sz : Nat) : Nat := if sz = 0 then 0 else pageStart (sz - 1) + 4096

/-- The end of the area, computed without wrapping, is an address or the end of the address space. -/
def Fits (v : Vmm) (base sz : Nat) : Prop := Kmem.place v base + roundUp sz ≤ u64Size

instance (v : Vmm) (base sz : Nat) : Decidable (Fits v base sz) := inferInstanceAs (Decidable (_ ≤ _))

/-- **The area `a` that `vmm_alloc_at` returned is the one that was asked for**: large enough, not
below the start of the data or the base, not wrapping and not above the end of the data; and
`current_addr` is its last byte. -/
structure InBounds (v : Vmm) (base sz : Nat) (k' : Kmem) (v' : Vmm) (a : Nat) : Prop where
  size : sz ≤ (k'.areas a).size
  dataStart : v.vmmDataStart ≤ (k'.areas a).start
  base : pageStart base ≤ (k'.areas a).start
  noWrap : (k'.areas a).start + (k'.areas a).size < u64Size
  dataEnd : (k'.areas a).start + (k'.areas a).size ≤ v.vmmDataEnd
  last : v'.currentAddr + 1 = (k'.areas a).start + (k'.areas a).size

theorem roundUp_mod (sz : Nat) : roundUp sz % 4096 = 0 := by
  have := pageStart_mod (sz - 1)
  unfold roundUp
  split <;> omega

theorem le_roundUp (sz : Nat) : sz ≤ roundUp sz := by
  unfold roundUp
  split
  · omega
  · rw [pageStart, pageSize_eq]
    omega

theorem areaLength_zero : Kmem.areaLength 0 = u64Size - 1 := by decide

theorem pageEnd_succ_mod {a : Nat} (h : a < u64Size) : u64Add (pageEnd a) 1 % 4096 = 0 := by
  have hmod := pageEnd_mod h
  have hlt := pageEnd_lt h
  have hsize := u64Size_eq
  rcases Nat.lt_or_ge (pageEnd a + 1) u64Size with hl | hg
  · rw [u64Add_eq hl]
    omega
  · have : pageEnd a + 1 = u64Size := by omega
    rw [u64Add, this, Nat.mod_self]

section

variable {k k' : Kmem} {v v' : Vmm} {base sz a : Nat} {flags : BitVec 8}

theorem Aligned.place_mod (h : Aligned v) : Kmem.place v base % 4096 = 0 := by
  unfold Kmem.place
  split
  · exact pageStart_mod base
  · unfold Kmem.lowBound
    split
    · exact h.dataStart
    · exact pageEnd_succ_mod h.addr

theorem base_le_place : pageStart base ≤ Kmem.place v base := by
  unfold Kmem.place
  split
  · exact Nat.le_refl _
  · rename_i hlt
    exact Nat.le_of_not_lt hlt

/-- **An accepted request that fits** gets an area of the rounded size below the end of the data. -/
theorem Aligned.fits (h : Aligned v) (hsz : sz < u64Size) (hpos : Kmem.place v base ≠ 0)
    (hle : u64Add (Kmem.place v base) (Kmem.areaLength sz) ≤ v.vmmDataEnd)
    (hfits : Fits v base sz) :
    u64Add (Kmem.areaLength sz) 1 = roundUp sz ∧
      Kmem.place v base + roundUp sz ≤ v.vmmDataEnd ∧
      u64Sub (u64Add (Kmem.place v base) (u64Add (Kmem.areaLength sz) 1)) 1 + 1 =
        Kmem.place v base + roundUp sz := by
  have hmod : Kmem.place v base % 4096 = 0 := h.place_mod
  have hE := h.dataEnd
  have hlt := h.lt
  unfold Fits at hfits
  obtain ⟨P, hP⟩ : ∃ P, P = Kmem.place v base := ⟨_, rfl⟩
  rw [← hP] at hpos hle hfits hmod ⊢
  by_cases h0 : sz = 0
  · -- the length of an empty area is all ones
    subst h0
    have hround : roundUp 0 = 0 := rfl
    have hPE : u64Add P (u64Size - 1) = P - 1 := by
      rw [u64Add, show P + (u64Size - 1) = P - 1 + u64Size by have := u64Size_pos; omega,
        Nat.add_mod_right, Nat.mod_eq_of_lt (by omega)]
    rw [areaLength_zero, hPE] at hle
    have hone : u64Add (Kmem.areaLength 0) 1 = 0 := by decide
    have hPlt : P + 0 < u64Size := by omega
    rw [hone, hround, u64Add_eq hPlt, u64Sub_eq (by omega) hPlt]
    omega
  · have hround : roundUp sz = pageStart (sz - 1) + 4096 := if_neg h0
    have hR := pageStart_mod (sz - 1)
    rw [hround] at hfits ⊢
    rw [areaLength_eq (Nat.one_le_iff_ne_zero.mpr h0) (Nat.le_of_lt hsz)] at hle ⊢
    obtain ⟨R, hR'⟩ : ∃ R, R = pageStart (sz - 1) := ⟨_, rfl⟩
    rw [← hR'] at hfits hle hR ⊢
    obtain ⟨h₁, h₂, h₃⟩ := place_arith hmod hR hE hlt (Nat.pos_of_ne_zero hpos) hfits hle
    rw [← Nat.add_assoc]
    exact ⟨h₁, h₂, by rw [h₃]⟩

/-- **A request that does not fit** gets an area that is too small or wraps. -/
theorem fits_of_extent (hsz : sz < u64Size) (hsize : sz ≤ u64Add (Kmem.areaLength sz) 1)
    (hlt : Kmem.place v base + u64Add (Kmem.areaLength sz) 1 < u64Size) : Fits v base sz := by
  unfold Fits
  by_cases h0 : sz = 0
  · subst h0
    have hround : roundUp 0 = 0 := rfl
    rw [hround]
    omega
  · have hround : roundUp sz = pageStart (sz - 1) + 4096 := if_neg h0
    rw [areaLength_eq (Nat.one_le_iff_ne_zero.mpr h0) (Nat.le_of_lt hsz)] at hsize hlt
    rw [hround]
    have hR := pageStart_mod (sz - 1)
    have hle := pageStart_le (sz - 1)
    obtain ⟨R, hR'⟩ : ∃ R, R = pageStart (sz - 1) := ⟨_, rfl⟩
    rw [← hR'] at hsize hlt hR hle ⊢
    rcases Nat.lt_or_ge (R + 4095 + 1) u64Size with hl | hg
    · rw [u64Add_eq hl] at hlt
      have : Kmem.place v base + (R + 4096) < u64Size := hlt
      omega
    · have hsize' := u64Size_eq
      have he : R + 4095 + 1 = u64Size := by omega
      rw [u64Add, he, Nat.mod_self] at hsize
      exact absurd (Nat.le_zero.mp hsize) h0

/-- **When the area is the one that was asked for.** -/
theorem Aligned.inBounds_iff (h : Aligned v) (hsz : sz < u64Size)
    (hrun : k.vmmAllocAt base v sz flags = some (k', v', a)) (ha : a ≠ 0) :
    InBounds v base sz k' v' a ↔ v.vmmDataStart ≤ Kmem.place v base ∧ Fits v base sz := by
  rcases vmmAllocAt_extent hrun with ⟨-, ha0⟩ | ⟨hpos, hle, hstart, hsize, -, -, haddr⟩
  · exact absurd ha0 ha
  constructor
  · intro hin
    refine ⟨hstart ▸ hin.dataStart, fits_of_extent hsz (hsize ▸ hin.size) ?_⟩
    rw [← hstart, ← hsize]
    exact hin.noWrap
  · rintro ⟨hds, hfits⟩
    obtain ⟨h₁, h₂, h₃⟩ := h.fits hsz hpos hle hfits
    constructor
    · rw [hsize, h₁]
      exact le_roundUp sz
    · rw [hstart]
      exact hds
    · rw [hstart]
      exact base_le_place
    · rw [hstart, hsize, h₁]
      exact Nat.lt_of_le_of_lt h₂ h.lt
    · rw [hstart, hsize, h₁]
      exact h₂
    · rw [haddr, hstart, hsize, h₃, h₁]

end

/-- The request passes the limit test of `vmm_alloc_at`. -/
def Accepted (v : Vmm) (base sz : Nat) : Prop :=
  Kmem.place v base ≠ 0 ∧ u64Add (Kmem.place v base) (Kmem.areaLength sz) ≤ v.vmmDataEnd

/-- The condition on a request: if it is accepted, its area does not wrap. -/
def FitsIfAccepted (v : Vmm) (base sz : Nat) : Prop := Accepted v base sz → Fits v base sz

/-- Once there was an allocation, the last address is in the range of the address space. -/
def Above (v : Vmm) : Prop :=
  v.currentArea ≠ 0 ∨ v.rootContainer ≠ 0 →
    v.vmmDataStart ≤ v.currentAddr + 1 ∧ v.currentAddr < v.vmmDataEnd

/-- The low bound of an address space whose requests all fitted. -/
theorem Above.le_place {v : Vmm} (h : Above v) (ha : Aligned v) (base : Nat) :
    v.vmmDataStart ≤ Kmem.place v base := by
  have hlow : v.vmmDataStart ≤ Kmem.lowBound v := by
    unfold Kmem.lowBound
    split
    · exact Nat.le_refl _
    · rename_i hne
      obtain ⟨h₁, h₂⟩ := h (.inl hne)
      have hle := le_pageEnd ha.addr
      have hend : pageEnd v.currentAddr + 1 < u64Size := by
        have hmod := pageStart_mod v.currentAddr
        have hle' := pageStart_le v.currentAddr
        have hE := ha.dataEnd
        have hlt := ha.lt
        rw [pageEnd_eq ha.addr]
        omega
      rw [u64Add_eq hend]
      omega
  unfold Kmem.place
  split
  · rename_i hlt
    exact Nat.le_trans hlow (Nat.le_of_lt hlt)
  · exact hlow

theorem Above.alloc {k k' : Kmem} {v v' : Vmm} {base sz a : Nat} {flags : BitVec 8} (h : Above v)
    (ha : Aligned v) (hsz : sz < u64Size) (hfits : FitsIfAccepted v base sz)
    (hrun : k.vmmAllocAt base v sz flags = some (k', v', a)) : Above v' := by
  rcases vmmAllocAt_extent hrun with ⟨rfl, -⟩ | ⟨hpos, hle, -, -, hds, hde, haddr⟩
  · exact h
  · obtain ⟨-, h₂, h₃⟩ := ha.fits hsz hpos hle (hfits ⟨hpos, hle⟩)
    have hplace := h.le_place ha base
    intro _
    rw [hds, hde]
    rw [← haddr] at h₃
    omega

theorem SpaceRun.above {k : Kmem} {v : Vmm} {s : Space} (hv : Aligned v) (hv' : Above v)
    (h : SpaceRun FitsIfAccepted k v s) : Above s.v := by
  refine (Run.invariant (fun s : Space => Aligned s.v ∧ Above s.v) ⟨hv, hv'⟩ ?_ h).2
  intro s a s' ⟨hs, hab⟩ ha hstep
  refine ⟨hs.step hstep, ?_⟩
  cases a with
  | alloc base sz flags =>
    obtain ⟨x, hrun, -⟩ := alloc_step hstep
    obtain ⟨-, hsz, hfits⟩ := ha base sz flags rfl
    exact hab.alloc hs hsz hfits hrun
  | free area =>
    obtain ⟨b, hrun, -⟩ := free_step hstep
    rcases vmmFreeArea_extent hrun with he | ⟨hroot, hsame, -⟩
    · rw [he]
      exact hab
    · intro _
      rw [hsame.dataStart, hsame.dataEnd, hsame.addr]
      exact hab (.inr hroot)
  | other k' =>
    obtain rfl := Option.some.inj hstep
    exact hab

theorem above_init (pagetable start stop : Nat) (user : Bool) :
    Above (vmmInit pagetable start stop user) := by
  rintro (h | h) <;> exact absurd rfl h

/-- **Which requests get what they asked for.** In every state of every run, an area that
`vmm_alloc_at` returns is in bounds if and only if its placement is not below the start of the data
and its end does not wrap. In a run whose accepted requests all fitted, the placement is never below
the start of the data. -/
theorem vmm_alloc_at_bounds {k : Kmem} {pagetable start stop : Nat} {user : Bool}
    (hstop : stop < u64Size) {s : Space} {base sz a : Nat} {flags : BitVec 8} {k' : Kmem} {v' : Vmm}
    (hsz : sz < u64Size) (hrun : s.k.vmmAllocAt base s.v sz flags = some (k', v', a)) (ha : a ≠ 0) :
    (SpaceRun (fun _ _ _ => True) k (vmmInit pagetable start stop user) s →
      (InBounds s.v base sz k' v' a ↔
        s.v.vmmDataStart ≤ Kmem.place s.v base ∧ Fits s.v base sz)) ∧
    (SpaceRun FitsIfAccepted k (vmmInit pagetable start stop user) s →
      (InBounds s.v base sz k' v' a ↔ Fits s.v base sz)) := by
  have hinit : Aligned (vmmInit pagetable start stop user) := aligned_init hstop
  constructor
  · intro hs
    exact (hs.aligned hinit).inBounds_iff hsz hrun ha
  · intro hs
    have hal := hs.aligned hinit
    rw [hal.inBounds_iff hsz hrun ha]
    exact and_iff_right ((hs.above hinit (above_init pagetable start stop user)).le_place hal base)

/-- A segment of one page in the address space of a process. -/
theorem vmm_alloc_at_bounds_one : ∃ k' v' a,
    emptyKmem.vmmAllocAt 0x400000 (vmmInit 0x9000 lowhalfStart lowhalfEnd true) 1 0 =
      some (k', v', a) ∧
    InBounds (vmmInit 0x9000 lowhalfStart lowhalfEnd true) 0x400000 1 k' v' a := by
  have hrun : (emptyKmem.vmmAllocAt 0x400000 (vmmInit 0x9000 lowhalfStart lowhalfEnd true) 1 0).map
      (fun r => r.2.2) = some (physToVirt 0x2000) := by decide +kernel
  obtain ⟨⟨k', v', a⟩, hk, rfl⟩ := Option.map_eq_some_iff.mp hrun
  refine ⟨k', v', _, hk, ?_⟩
  have h := @vmm_alloc_at_bounds emptyKmem 0x9000 lowhalfStart lowhalfEnd true (by decide)
    ⟨emptyKmem, vmmInit 0x9000 lowhalfStart lowhalfEnd true, []⟩ _ _ _ _ _ _ (by decide) hk
    (by decide)
  exact (h.2 .init).mpr (by decide)

/-- A segment of `2 ^ 64 - 1` bytes gets an empty area. -/
theorem vmm_alloc_at_wraps : ∃ k' v' a,
    emptyKmem.vmmAllocAt 0 (vmmInit 0x9000 lowhalfStart lowhalfEnd true) (u64Size - 1) 0 =
      some (k', v', a) ∧ a ≠ 0 ∧ (k'.areas a).size = 0 ∧
    ¬ InBounds (vmmInit 0x9000 lowhalfStart lowhalfEnd true) 0 (u64Size - 1) k' v' a := by
  have hrun : (emptyKmem.vmmAllocAt 0 (vmmInit 0x9000 lowhalfStart lowhalfEnd true)
      (u64Size - 1) 0).map (fun r => (r.2.2, (r.1.areas r.2.2).size)) =
      some (physToVirt 0x2000, 0) := by decide +kernel
  obtain ⟨⟨k', v', a⟩, hk, he⟩ := Option.map_eq_some_iff.mp hrun
  obtain ⟨rfl, hsize⟩ := Prod.mk.inj he
  refine ⟨k', v', _, hk, by decide, hsize, fun h => ?_⟩
  have hle := h.size
  rw [hsize] at hle
  exact absurd hle (by decide)

/-! ## The documented ranges -/

/-- `kernel_vmm`, as `kvminit` initialises it. -/
def kernelVmm (kernelPml4 : Nat) : Vmm := vmmInit kernelPml4 0xFFFF800000000000 physicalOffset false

/-- The vmm of a process, as `create_process` has it made. -/
def processVmm (pagetable : Nat) (user : Bool) : Vmm :=
  vmmInit pagetable lowhalfStart lowhalfEnd user

/-- The request ends in the page that begins at `stop`. -/
def LastPage (stop : Nat) (v : Vmm) (base sz : Nat) : Prop :=
  sz ≠ 0 ∧ Kmem.place v base + roundUp sz = stop + 4096

/-- No address of the area is at or above `stop`. -/
def Below (stop : Nat) (e : Nat × Nat) : Prop := ∀ x, e.1 ≤ x → x < e.1 + e.2 → x < stop

theorem roundUp_pos {sz : Nat} (h : sz ≠ 0) : 4096 ≤ roundUp sz := by
  unfold roundUp
  rw [if_neg h]
  exact Nat.le_add_left _ _

section

variable {k k' : Kmem} {v v' : Vmm} {stop base sz a : Nat} {flags : BitVec 8}

/-- **The end of the data is one page above the end that `vmm_init` was given.** -/
theorem vmmInit_dataEnd {pagetable start : Nat} {user : Bool} (hmod : stop % 4096 = 0)
    (hlt : stop + 4096 < u64Size) :
    (vmmInit pagetable start stop user).vmmDataEnd = stop + 4096 := by
  show u64Add (pageEnd stop) 1 = stop + 4096
  rw [pageEnd_eq (by omega), pageStart_of_aligned hmod, u64Add_eq (by omega)]

/-- **Which areas leave the range.** -/
theorem Aligned.below_iff (h : Aligned v) (hmod : stop % 4096 = 0)
    (hend : v.vmmDataEnd = stop + 4096) (hsz : sz < u64Size) (hfits : FitsIfAccepted v base sz)
    (hrun : k.vmmAllocAt base v sz flags = some (k', v', a)) (ha : a ≠ 0) :
    Below stop ((k'.areas a).start, (k'.areas a).size) ↔ ¬ LastPage stop v base sz := by
  rcases vmmAllocAt_extent hrun with ⟨-, ha0⟩ | ⟨hpos, hle, hstart, hsize, -, -, -⟩
  · exact absurd ha0 ha
  obtain ⟨h₁, h₂, -⟩ := h.fits hsz hpos hle (hfits ⟨hpos, hle⟩)
  have hP : Kmem.place v base % 4096 = 0 := h.place_mod
  have hR := roundUp_mod sz
  rw [hstart, hsize, h₁]
  rw [hend] at h₂
  obtain ⟨P, hP'⟩ : ∃ P, P = Kmem.place v base := ⟨_, rfl⟩
  unfold LastPage
  rw [← hP'] at h₂ hP ⊢
  constructor
  · rintro hbelow ⟨h0, he⟩
    have hpos' := roundUp_pos h0
    exact absurd (hbelow stop (by show P ≤ stop; omega) (by show stop < P + roundUp sz; omega))
      (Nat.lt_irrefl _)
  · intro hlast x hx₁ hx₂
    change P ≤ x at hx₁
    change x < P + roundUp sz at hx₂
    by_cases h0 : sz = 0
    · have hz : roundUp sz = 0 := if_pos h0
      omega
    · have hne : P + roundUp sz ≠ stop + 4096 := fun he => hlast ⟨h0, he⟩
      omega

end

theorem step_dataEnd {s s' : Space} {a : SpaceAction} (hstep : s.step a = some s') :
    s'.v.vmmDataEnd = s.v.vmmDataEnd := by
  cases a with
  | alloc base sz flags =>
    obtain ⟨x, hrun, -⟩ := alloc_step hstep
    rcases vmmAllocAt_extent hrun with ⟨he, -⟩ | ⟨-, -, -, -, -, hde, -⟩
    · rw [he]
    · exact hde
  | free area =>
    obtain ⟨b, hrun, -⟩ := free_step hstep
    rcases vmmFreeArea_extent hrun with he | ⟨-, hsame, -⟩
    · rw [he]
    · exact hsame.dataEnd
  | other k' =>
    obtain rfl := Option.some.inj hstep
    rfl

theorem SpaceRun.dataEnd {P : Vmm → Nat → Nat → Prop} {k : Kmem} {v : Vmm} {s : Space}
    (h : SpaceRun P k v s) : s.v.vmmDataEnd = v.vmmDataEnd :=
  Run.invariant (fun s : Space => s.v.vmmDataEnd = v.vmmDataEnd) rfl
    (fun _ _ _ hs _ hstep => (step_dataEnd hstep).trans hs) h

/-- The condition on a request that keeps its area in the range. -/
def KeepsRange (stop : Nat) (v : Vmm) (base sz : Nat) : Prop :=
  FitsIfAccepted v base sz ∧ ¬ LastPage stop v base sz

theorem SpaceRun.below {k : Kmem} {v : Vmm} {s : Space} {stop : Nat} (hv : Aligned v)
    (hmod : stop % 4096 = 0) (hend : v.vmmDataEnd = stop + 4096)
    (h : SpaceRun (KeepsRange stop) k v s) : ∀ e ∈ s.extents, Below stop e := by
  refine (Run.invariant (fun s : Space => Aligned s.v ∧ s.v.vmmDataEnd = stop + 4096 ∧
    ∀ e ∈ s.extents, Below stop e) ⟨hv, hend, by simp⟩ ?_ h).2.2
  intro s a s' ⟨hs, hde, hb⟩ ha hstep
  refine ⟨hs.step hstep, (step_dataEnd hstep).trans hde, ?_⟩
  cases a with
  | alloc base sz flags =>
    obtain ⟨x, hrun, hext⟩ := alloc_step hstep
    obtain ⟨-, hsz, hfits, hlast⟩ := ha base sz flags rfl
    intro e he
    rw [hext] at he
    split at he
    · exact hb e he
    · rename_i hx
      rcases List.mem_cons.mp he with rfl | he
      · exact (hs.below_iff hmod hde hsz hfits hrun hx).mpr hlast
      · exact hb e he
  | free area =>
    obtain ⟨b, -, hext⟩ := free_step hstep
    rw [hext]
    exact hb
  | other k' =>
    obtain rfl := Option.some.inj hstep
    exact hb

/-- **Areas stay below the end of their range** if and only if no request ends in the page behind it.
The range of the kernel ends where physical memory is mapped, that of a process where addresses stop
being canonical; the requests are those whose addresses do not wrap. -/
theorem areas_below_stop {k : Kmem} {pagetable stop : Nat} {v : Vmm}
    (hv : (v = kernelVmm pagetable ∧ stop = physicalOffset) ∨
      ∃ user, v = processVmm pagetable user ∧ stop = lowhalfEnd) :
    (∀ s, SpaceRun FitsIfAccepted k v s → ∀ base sz flags k' v' a, sz < u64Size →
      FitsIfAccepted s.v base sz → s.k.vmmAllocAt base s.v sz flags = some (k', v', a) → a ≠ 0 →
      (Below stop ((k'.areas a).start, (k'.areas a).size) ↔ ¬ LastPage stop s.v base sz)) ∧
    ∀ s, SpaceRun (KeepsRange stop) k v s → ∀ e ∈ s.extents, Below stop e := by
  have hrange : Aligned v ∧ stop % 4096 = 0 ∧ v.vmmDataEnd = stop + 4096 := by
    rcases hv with ⟨rfl, rfl⟩ | ⟨user, rfl, rfl⟩
    · exact ⟨aligned_init (by decide), by decide, vmmInit_dataEnd (by decide) (by decide)⟩
    · exact ⟨aligned_init (by decide), by decide, vmmInit_dataEnd (by decide) (by decide)⟩
  obtain ⟨hal, hmod, hend⟩ := hrange
  refine ⟨?_, fun s hs => hs.below hal hmod hend⟩
  intro s hs base sz flags k' v' a hsz hfits hrun ha
  exact (hs.aligned hal).below_iff hmod (hs.dataEnd.trans hend) hsz hfits hrun ha

/-- The last page of the range of a process. -/
theorem areas_below_stop_last : ∃ k' v' a,
    emptyKmem.vmmAllocAt 0x7FFFFFFFF000 (processVmm 0x9000 true) 1 0 = some (k', v', a) ∧
    Below lowhalfEnd ((k'.areas a).start, (k'.areas a).size) := by
  have hrun : (emptyKmem.vmmAllocAt 0x7FFFFFFFF000 (processVmm 0x9000 true) 1 0).map
      (fun r => r.2.2) = some (physToVirt 0x2000) := by decide +kernel
  obtain ⟨⟨k', v', a⟩, hk, rfl⟩ := Option.map_eq_some_iff.mp hrun
  have h := (@areas_below_stop emptyKmem 0x9000 lowhalfEnd (processVmm 0x9000 true)
    (.inr ⟨true, rfl, rfl⟩)).1 _ .init 0x7FFFFFFFF000 1 0 k' v' _ (by decide)
    (fun _ => by decide) hk (by decide)
  exact ⟨k', v', _, hk, h.mpr fun hl => absurd hl.2 (by decide)⟩

/-- A segment at `LOWHALF_END` is accepted: its addresses are not canonical. -/
theorem area_at_lowhalfEnd : ∃ k' v' a,
    emptyKmem.vmmAllocAt lowhalfEnd (processVmm 0x9000 true) 1 0 = some (k', v', a) ∧ a ≠ 0 ∧
    (k'.areas a).start = lowhalfEnd ∧ ¬ Below lowhalfEnd ((k'.areas a).start, (k'.areas a).size) := by
  have hrun : (emptyKmem.vmmAllocAt lowhalfEnd (processVmm 0x9000 true) 1 0).map
      (fun r => (r.2.2, (r.1.areas r.2.2).start, (r.1.areas r.2.2).size)) =
      some (physToVirt 0x2000, lowhalfEnd, 0x1000) := by decide +kernel
  obtain ⟨⟨k', v', a⟩, hk, he⟩ := Option.map_eq_some_iff.mp hrun
  obtain ⟨rfl, he⟩ := Prod.mk.inj he
  obtain ⟨hstart, hsize⟩ := Prod.mk.inj he
  refine ⟨k', v', _, hk, by decide, hstart, fun h => ?_⟩
  have hlt := h lowhalfEnd (Nat.le_of_eq hstart) (by
    show lowhalfEnd < _ + _
    rw [hstart, hsize]
    decide)
  exact absurd hlt (Nat.lt_irrefl _)

end Colibri.Memory

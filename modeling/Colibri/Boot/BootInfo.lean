import Colibri.Boot.Multiboot

/-!
# What the caller of `load_multiboot_info` gets

After a well-formed block every variable of the request points to the last tag of its kind, and the
array holds the first modules. The case of the VBE tag does not do that: it overwrites the field of
`boot_info` with the address of the local `header`.

## Results

* `Loaded.loadTag`: what a turn adds to what the caller has.
* `multibootLoads_iff`: the caller gets what it asked for, if and only if it did not ask for the VBE
  tag or there is none.
-/

namespace Colibri.Boot

open Colibri.Lib

/-- The addresses of the tags of a type. -/
def headersOf (ty : Nat) (tags : List (Nat × Tag)) : List Nat :=
  (tags.filter fun p => decide (p.2.type = ty)).map Prod.fst

/-- The number of the modules in the array. -/
def moduleCount (m : Mem) (info : Nat) (tags : List (Nat × Tag)) : Nat :=
  if modulePtr m info = 0 then 0
  else min (headersOf tagModules tags).length (moduleSize m info)

/-- The caller has what it asked for: the first modules and their number, and the last tag of each
other kind, or what its variable held. Nothing else is changed. -/
structure Loads (m : Mem) (info : Nat) (tags : List (Nat × Tag)) (m' : Mem) : Prop where
  modules : ∀ i, (h : i < (headersOf tagModules tags).length) → i < moduleCount m info tags →
    m'.load (modulePtr m info + 8 * i) 8 = (headersOf tagModules tags)[i]
  moduleSize : moduleSize m' info = moduleCount m info tags
  slots : ∀ σ, slotPtr m info σ ≠ 0 → m'.load (slotPtr m info σ) 8 =
    ((headersOf σ.type tags).getLast?).getD (m.load (slotPtr m info σ) 8)
  same : ∀ i, ¬(info + 24 ≤ i ∧ i < info + 32) →
    ¬(modulePtr m info ≤ i ∧ i < modulePtr m info + 8 * moduleCount m info tags) →
    (∀ σ, slotPtr m info σ ≠ 0 → ¬(slotPtr m info σ ≤ i ∧ i < slotPtr m info σ + 8)) → m' i = m i

/-- `load_multiboot_info` returns, and the caller has what it asked for. -/
def MultibootLoads (m : Mem) (addr info headerVar : Nat) (tags : List Tag) : Prop :=
  ∃ fuel m' visited,
    loadMultibootInfo multibootBootloaderMagic addr info headerVar fuel m = some (m', visited) ∧
      Loads m info (placed (addr + 8) tags) m'

/-- A byte that no turn so far has written, where no VBE tag has been stored. -/
def Untouched (m : Mem) (info count i : Nat) : Prop :=
  ¬(modulePtr m info ≤ i ∧ i < modulePtr m info + 8 * count) ∧
    ∀ σ, σ ≠ .vbe → slotPtr m info σ ≠ 0 → ¬(slotPtr m info σ ≤ i ∧ i < slotPtr m info σ + 8)

/-- The state after the tags `done`, where no VBE tag has been stored. -/
structure Loaded (m : Mem) (info : Nat) (done : List (Nat × Tag)) (s : Loading) : Prop where
  index : s.moduleIndex = moduleCount m info done
  modules : ∀ i, (h : i < (headersOf tagModules done).length) → i < moduleCount m info done →
    s.mem.load (modulePtr m info + 8 * i) 8 = (headersOf tagModules done)[i]
  slots : ∀ σ, σ ≠ .vbe → slotPtr m info σ ≠ 0 → s.mem.load (slotPtr m info σ) 8 =
    ((headersOf σ.type done).getLast?).getD (m.load (slotPtr m info σ) 8)
  same : ∀ i, Untouched m info (moduleCount m info done) i → s.mem i = m i

/-! ## The tags of a kind -/

section Headers

variable {m : Mem} {info a ty : Nat} {t : Tag} {done : List (Nat × Tag)}

theorem headersOf_append_of_eq (h : t.type = ty) :
    headersOf ty (done ++ [(a, t)]) = headersOf ty done ++ [a] := by
  simp [headersOf, h]

theorem headersOf_append_of_ne (h : t.type ≠ ty) :
    headersOf ty (done ++ [(a, t)]) = headersOf ty done := by
  simp [headersOf, h]

theorem moduleCount_append_of_ne (h : t.type ≠ tagModules) :
    moduleCount m info (done ++ [(a, t)]) = moduleCount m info done := by
  rw [moduleCount, moduleCount, headersOf_append_of_ne h]

theorem moduleCount_le : moduleCount m info done ≤ moduleSize m info := by
  rw [moduleCount]
  split
  case isTrue => exact Nat.zero_le _
  case isFalse => exact Nat.min_le_right _ _

theorem moduleCount_le_length : moduleCount m info done ≤ done.length := by
  rw [moduleCount]
  split
  case isTrue => exact Nat.zero_le _
  case isFalse =>
    refine Nat.le_trans (Nat.min_le_left _ _) ?_
    rw [headersOf, List.length_map]
    exact List.length_filter_le _ _

end Headers

/-! ## A turn -/

section Turn

variable {m : Mem} {addr n info headerVar a : Nat} {s : Loading} {t : Tag} {done : List (Nat × Tag)}
  {σ : Slot}

/-- **What a turn can do**: nothing, store a module, store another tag, or overwrite the `vbe`
field. -/
theorem loadTag_cases (hr : Request m addr n info headerVar) (hk : Kept m info s)
    (ht : tagType s.mem a = t.type) :
    (loadTag info headerVar a s = s ∧
      (t.type = tagModules → modulePtr m info = 0 ∨ moduleSize m info ≤ s.moduleIndex) ∧
      ∀ σ, t.type = σ.type → slotPtr s.mem info σ = 0) ∨
    (t.type = tagModules ∧ modulePtr m info ≠ 0 ∧ s.moduleIndex < moduleSize m info ∧
      loadTag info headerVar a s = ⟨s.mem.store (modulePtr m info + 8 * s.moduleIndex) 8 a,
        (s.moduleIndex + 1) % 2 ^ 32⟩) ∨
    (∃ σ, σ ≠ .vbe ∧ t.type = σ.type ∧ slotPtr m info σ ≠ 0 ∧
      loadTag info headerVar a s = { s with mem := s.mem.store (slotPtr m info σ) 8 a }) ∨
    (t.type = Slot.vbe.type ∧ slotPtr s.mem info .vbe ≠ 0 ∧
      loadTag info headerVar a s = { s with mem := s.mem.store (info + 56) 8 headerVar }) := by
  rw [loadTag, ht]
  by_cases hmod : t.type = tagModules
  · rw [if_pos hmod, loadModule, hk.modulePtr hr, hk.moduleSize hr]
    by_cases hroom : modulePtr m info ≠ 0 ∧ s.moduleIndex < moduleSize m info
    · obtain ⟨hbound, -⟩ := hr.module hroom.1
      rw [if_pos hroom, u64Add_eq (by omega)]
      exact .inr (.inl ⟨hmod, hroom.1, hroom.2, rfl⟩)
    · rw [if_neg hroom]
      refine .inl ⟨rfl, fun _ => ?_, fun σ hσ => absurd (hσ.symm.trans hmod) σ.type_ne⟩
      by_contra hno
      rw [not_or, Nat.not_le] at hno
      exact hroom hno
  · rw [if_neg hmod]
    cases hslot : slotOf t.type with
    | none =>
      refine .inl ⟨rfl, fun h => absurd h hmod, fun σ hσ => ?_⟩
      rw [slotOf_eq_some.mpr hσ] at hslot
      exact absurd hslot (Option.some_ne_none _)
    | some σ =>
      have hσ := slotOf_eq_some.mp hslot
      rw [Option.elim_some, loadSlot]
      by_cases hptr : slotPtr s.mem info σ = 0
      · rw [if_pos hptr]
        refine .inl ⟨rfl, fun h => absurd h hmod, fun τ hτ => ?_⟩
        rw [← Slot.type_inj (hσ.symm.trans hτ)]
        exact hptr
      · rw [if_neg hptr]
        by_cases hvbe : σ = .vbe
        · subst hvbe
          rw [if_pos rfl]
          exact .inr (.inr (.inr ⟨hσ, hptr, rfl⟩))
        · rw [if_neg hvbe]
          rw [hk.slotPtr hr hvbe] at hptr ⊢
          exact .inr (.inr (.inl ⟨σ, hvbe, hσ, hptr, rfl⟩))

/-- A field of the request is not changed by a write elsewhere. -/
theorem slotPtr_store {mem : Mem} {p v : Nat}
    (hp : Mem.Disjoint p 8 info bootInfoSize) : slotPtr (mem.store p 8 v) info σ = slotPtr mem info σ := by
  have hb := σ.offset_bounds
  rw [Mem.Disjoint] at hp
  exact Mem.load_store_of_disjoint (by rw [Mem.Disjoint]; omega)

/-- An entry of the array of the modules is apart from the request. -/
theorem Request.entry (hr : Request m addr n info headerVar) (hmod : modulePtr m info ≠ 0) {i : Nat}
    (hi : i < moduleSize m info) : Mem.Disjoint (modulePtr m info + 8 * i) 8 info bootInfoSize ∧
      ∀ σ, slotPtr m info σ ≠ 0 → Mem.Disjoint (modulePtr m info + 8 * i) 8 (slotPtr m info σ) 8 := by
  obtain ⟨-, -, hinfo, hvars⟩ := hr.module hmod
  rw [Mem.Disjoint] at hinfo
  refine ⟨by rw [Mem.Disjoint]; omega, fun σ hσ => ?_⟩
  have hvar := hvars σ hσ
  rw [Mem.Disjoint] at hvar ⊢
  omega

/-- The `vbe` field behind a turn. -/
theorem slotPtr_vbe_loadTag (hr : Request m addr n info headerVar) (hk : Kept m info s)
    (ht : tagType s.mem a = t.type) :
    slotPtr (loadTag info headerVar a s).mem info .vbe =
      if t.type = Slot.vbe.type ∧ slotPtr s.mem info .vbe ≠ 0 then headerVar
      else slotPtr s.mem info .vbe := by
  rcases loadTag_cases hr hk ht with ⟨he, -, hnone⟩ | ⟨hmod, hptr, hlt, he⟩ |
    ⟨σ, hσ, htype, hptr, he⟩ | ⟨htype, hptr, he⟩
  · rw [he, if_neg fun h => h.2 (hnone .vbe h.1)]
  · rw [he, if_neg fun h => Slot.vbe.type_ne (h.1.symm.trans hmod),
      slotPtr_store (hr.entry hptr hlt).1]
  · rw [he, if_neg fun h => hσ (Slot.type_inj (htype.symm.trans h.1)),
      slotPtr_store (hr.slot σ hptr).2]
  · rw [he, if_pos ⟨htype, hptr⟩]
    exact (Mem.load_store _ _ _ _).trans (Nat.mod_eq_of_lt hr.header.2.1)

/-- A tag that is not stored adds nothing. -/
theorem Loaded.skip (hl : Loaded m info done s)
    (hfull : t.type = tagModules → modulePtr m info = 0 ∨ moduleSize m info ≤ s.moduleIndex)
    (hnone : ∀ σ, σ ≠ .vbe → t.type = σ.type → slotPtr m info σ = 0) :
    Loaded m info (done ++ [(a, t)]) s := by
  have hcount : moduleCount m info (done ++ [(a, t)]) = moduleCount m info done := by
    by_cases hmod : t.type = tagModules
    · have hfull' := hfull hmod
      rw [hl.index] at hfull'
      rw [moduleCount] at hfull' ⊢
      rw [moduleCount]
      by_cases hptr : modulePtr m info = 0
      · rw [if_pos hptr, if_pos hptr]
      · rw [if_neg hptr] at hfull' ⊢
        rw [if_neg hptr, headersOf_append_of_eq hmod, List.length_append, List.length_singleton]
        omega
    · exact moduleCount_append_of_ne hmod
  refine ⟨hl.index.trans hcount.symm, fun i hi hi' => ?_, fun σ hσ hptr => ?_, fun i hi => ?_⟩
  · rw [hcount] at hi'
    have hin : i < (headersOf tagModules done).length := by
      rw [moduleCount] at hi'
      split at hi'
      case isTrue => exact absurd hi' (Nat.not_lt_zero i)
      case isFalse => exact Nat.lt_of_lt_of_le hi' (Nat.min_le_left _ _)
    rw [hl.modules i hin hi']
    by_cases hmod : t.type = tagModules
    · simp only [headersOf_append_of_eq hmod, List.getElem_append_left hin]
    · simp only [headersOf_append_of_ne hmod]
  · have hne : t.type ≠ σ.type := fun h => hptr (hnone σ hσ h)
    rw [headersOf_append_of_ne hne]
    exact hl.slots σ hσ hptr
  · rw [hcount] at hi
    exact hl.same i hi

/-- A module that is stored is the next entry of the array. -/
theorem Loaded.module (hr : Request m addr n info headerVar) (hl : Loaded m info done s)
    (ha : a < 256 ^ 8) (hlen : done.length < 2 ^ 32 - 1) (hmod : t.type = tagModules)
    (hptr : modulePtr m info ≠ 0) (hlt : s.moduleIndex < moduleSize m info) :
    Loaded m info (done ++ [(a, t)]) ⟨s.mem.store (modulePtr m info + 8 * s.moduleIndex) 8 a,
      (s.moduleIndex + 1) % 2 ^ 32⟩ := by
  have hlength : s.moduleIndex = (headersOf tagModules done).length := by
    have hindex := hl.index
    rw [moduleCount, if_neg hptr] at hindex
    omega
  have hcount : moduleCount m info (done ++ [(a, t)]) = s.moduleIndex + 1 := by
    rw [moduleCount, if_neg hptr, headersOf_append_of_eq hmod, List.length_append,
      List.length_singleton]
    omega
  have hle : moduleCount m info done ≤ done.length := moduleCount_le_length
  rw [← hl.index] at hle
  refine ⟨?_, fun i hi hi' => ?_, fun σ hσ hσ' => ?_, fun i hi => ?_⟩
  · rw [hcount]
    exact Nat.mod_eq_of_lt (by omega)
  · rw [hcount] at hi'
    simp only [headersOf_append_of_eq hmod]
    rcases Nat.lt_or_ge i s.moduleIndex with hin | hge
    · rw [List.getElem_append_left (hlength ▸ hin), ← hl.modules i (hlength ▸ hin) (hl.index ▸ hin),
        Mem.load_store_of_disjoint (.inr (by omega))]
    · obtain rfl : i = s.moduleIndex := by omega
      rw [List.getElem_concat_length hlength, Mem.load_store, Nat.mod_eq_of_lt ha]
  · have hne : t.type ≠ σ.type := fun h => σ.type_ne (h.symm.trans hmod)
    rw [headersOf_append_of_ne hne, ← hl.slots σ hσ hσ',
      Mem.load_store_of_disjoint ((hr.entry hptr hlt).2 σ hσ')]
  · obtain ⟨hout, hvars⟩ := hi
    rw [hcount] at hout
    rw [← hl.same i ⟨by rw [← hl.index]; omega, hvars⟩]
    exact Mem.store_of_notMem (by omega)

/-- A tag of another kind that is stored is the last of its kind. -/
theorem Loaded.slot (hr : Request m addr n info headerVar) (hl : Loaded m info done s)
    (ha : a < 256 ^ 8) (hσ : σ ≠ .vbe) (htype : t.type = σ.type) (hptr : slotPtr m info σ ≠ 0) :
    Loaded m info (done ++ [(a, t)]) { s with mem := s.mem.store (slotPtr m info σ) 8 a } := by
  have hmod : t.type ≠ tagModules := fun h => σ.type_ne (htype.symm.trans h)
  have hcount : moduleCount m info (done ++ [(a, t)]) = moduleCount m info done :=
    moduleCount_append_of_ne hmod
  refine ⟨hl.index.trans hcount.symm, fun i hi hi' => ?_, fun τ hτ hτ' => ?_, fun i hi => ?_⟩
  · rw [hcount] at hi'
    simp only [headersOf_append_of_ne hmod] at hi ⊢
    have hptr' : modulePtr m info ≠ 0 := fun h => by
      rw [moduleCount, if_pos h] at hi'
      exact absurd hi' (Nat.not_lt_zero i)
    have hlt := Nat.lt_of_lt_of_le hi' moduleCount_le
    rw [← hl.modules i hi hi', Mem.load_store_of_disjoint ((hr.entry hptr' hlt).2 σ hptr).symm]
  · by_cases hστ : σ = τ
    · subst hστ
      rw [headersOf_append_of_eq htype, List.getLast?_concat, Option.getD_some, Mem.load_store,
        Nat.mod_eq_of_lt ha]
    · have hne : t.type ≠ τ.type := fun h => hστ (Slot.type_inj (htype.symm.trans h))
      rw [headersOf_append_of_ne hne, ← hl.slots τ hτ hτ',
        Mem.load_store_of_disjoint (hr.slots σ τ hστ hptr hτ')]
  · rw [hcount] at hi
    have hvar := hi.2 σ hσ hptr
    rw [← hl.same i hi]
    exact Mem.store_of_notMem (by omega)

/-- **A turn adds its tag** to what the caller has, if it is no VBE tag that is stored. -/
theorem Loaded.loadTag (hr : Request m addr n info headerVar) (hk : Kept m info s)
    (hl : Loaded m info done s) (ht : tagType s.mem a = t.type) (ha : a < u64Size)
    (hlen : done.length < 2 ^ 32 - 1)
    (hvbe : t.type = Slot.vbe.type → slotPtr s.mem info .vbe = 0) :
    Loaded m info (done ++ [(a, t)]) (loadTag info headerVar a s) := by
  rcases loadTag_cases hr hk ht with ⟨he, hfull, hnone⟩ | ⟨hmod, hptr, hlt, he⟩ |
    ⟨σ, hσ, htype, hptr, he⟩ | ⟨htype, hptr, -⟩
  · rw [he]
    exact hl.skip hfull fun σ hσ h => (hk.slotPtr hr hσ).symm.trans (hnone σ h)
  · rw [he]
    exact hl.module hr ha hlen hmod hptr hlt
  · rw [he]
    exact hl.slot hr ha hσ htype hptr
  · exact absurd (hvbe htype) hptr

end Turn

/-! ## A run -/

section Run

variable {m : Mem} {addr n info headerVar a : Nat} {s : Loading} {tags : List Tag}
  {done : List (Nat × Tag)}

/-- The caller's request for the VBE tag is there, and there is one. -/
def AsksForVbe (m : Mem) (info : Nat) (tags : List Tag) : Prop :=
  slotPtr m info .vbe ≠ 0 ∧ ∃ t ∈ tags, t.type = Slot.vbe.type

/-- All tags have been added, where no VBE tag is stored. -/
theorem Loaded.loadTags (hb : Block addr n) (hr : Request m addr n info headerVar)
    (hk : Kept m info s) (hl : Loaded m info done s) (ht : TagsIn m (addr + n) a tags)
    (ha : addr ≤ a) (hlen : done.length + tags.length < 2 ^ 32)
    (hvbe : slotPtr s.mem info .vbe ≠ 0 → ∀ t ∈ tags, t.type ≠ Slot.vbe.type) :
    Loaded m info (done ++ placed a tags)
      ((placed a tags).foldl (fun s p => Boot.loadTag info headerVar p.1 s) s) := by
  induction tags generalizing a s done with
  | nil => rwa [placed, List.append_nil]
  | cons t tags ih =>
    obtain ⟨hin, htype, -, hrest⟩ := ht
    have hstop := hb.stop_le
    rw [tagHeaderSize] at hin
    rw [List.length_cons] at hlen
    have htype' : tagType s.mem a = t.type := (hk.tag hr ⟨ha, hin⟩).1.trans htype
    have hnot : t.type = Slot.vbe.type → slotPtr s.mem info .vbe = 0 := fun h => by
      by_contra hptr
      exact hvbe hptr t List.mem_cons_self h
    have hl' := hl.loadTag hr hk htype' (by omega) (by omega) hnot
    have hfield := slotPtr_vbe_loadTag hr hk htype'
    rw [if_neg fun h => h.2 (hnot h.1)] at hfield
    rw [placed, List.foldl_cons, List.append_cons]
    refine ih (hk.loadTag hr) hl' hrest (by omega) ?_ fun hptr t' ht' => ?_
    · rw [List.length_append, List.length_singleton]
      omega
    · rw [hfield] at hptr
      exact hvbe hptr t' (List.mem_cons_of_mem t ht')

/-- The `vbe` field has been overwritten, where a VBE tag is stored. -/
theorem slotPtr_vbe_loadTags (hr : Request m addr n info headerVar) (hk : Kept m info s)
    (ht : TagsIn m (addr + n) a tags) (ha : addr ≤ a) (hptr : slotPtr s.mem info .vbe ≠ 0)
    (hvbe : slotPtr s.mem info .vbe = headerVar ∨ ∃ t ∈ tags, t.type = Slot.vbe.type) :
    slotPtr ((placed a tags).foldl (fun s p => loadTag info headerVar p.1 s) s).mem info .vbe =
      headerVar := by
  induction tags generalizing a s with
  | nil =>
    rcases hvbe with h | ⟨t, ht, -⟩
    · exact h
    · exact absurd ht List.not_mem_nil
  | cons t tags ih =>
    obtain ⟨hin, htype, -, hrest⟩ := ht
    have htype' : tagType s.mem a = t.type := (hk.tag hr ⟨ha, hin⟩).1.trans htype
    have hfield := slotPtr_vbe_loadTag hr hk htype'
    have hpos := hr.header.1
    rw [placed, List.foldl_cons]
    by_cases htv : t.type = Slot.vbe.type
    · rw [if_pos ⟨htv, hptr⟩] at hfield
      exact ih (hk.loadTag hr) hrest (by omega) (by rw [hfield]; omega) (.inl hfield)
    · rw [if_neg fun h => htv h.1] at hfield
      rw [← hfield] at hptr hvbe
      refine ih (hk.loadTag hr) hrest (by omega) hptr ?_
      refine hvbe.imp_right ?_
      rintro ⟨t', ht', h⟩
      rcases List.mem_cons.mp ht' with rfl | ht'
      · exact absurd h htv
      · exact ⟨t', ht', h⟩

/-- Nothing has been loaded in the beginning. -/
theorem loaded_nil (m : Mem) (info : Nat) : Loaded m info [] ⟨m, 0⟩ where
  index := by
    rw [moduleCount]
    split
    case isTrue => rfl
    case isFalse => exact (Nat.zero_min _).symm
  modules i hi := absurd hi (Nat.not_lt_zero i)
  slots _ _ _ := rfl
  same _ _ := rfl

/-- What the function returns. -/
theorem loadMultibootInfo_eq {fuel : Nat} (hb : Block addr n) (hr : Request m addr n info headerVar)
    (ht : TagsIn m (addr + n) (addr + 8) tags) :
    loadMultibootInfo multibootBootloaderMagic addr info headerVar fuel m =
      if fuel ≤ tags.length then none
      else
        let s := (placed (addr + 8) tags).foldl (fun s p => loadTag info headerVar p.1 s) ⟨m, 0⟩
        some (s.mem.store (info + 24) 8 s.moduleIndex,
          (placed (addr + 8) tags).map Prod.fst ++ [addr + 8 + (tags.map Tag.length).sum]) := by
  have hle := ht.header_le
  have hstop := hb.stop_le
  rw [tagHeaderSize] at hle
  have hk : Kept m info ⟨m, 0⟩ := fun _ _ => rfl
  rw [loadMultibootInfo, if_neg (not_not.mpr rfl), u64Add_eq (by omega),
    tagLoop_eq hb hr hk ht (Nat.le_add_right addr 8)]
  split
  case isTrue => rfl
  case isFalse => rfl

/-- Neither the fields of the request nor its variables are in the array of the modules. -/
theorem Request.notModule (hr : Request m addr n info headerVar) {i : Nat}
    {done : List (Nat × Tag)} (h : (info ≤ i ∧ i < info + bootInfoSize) ∨
      ∃ σ, slotPtr m info σ ≠ 0 ∧ slotPtr m info σ ≤ i ∧ i < slotPtr m info σ + 8) :
    ¬(modulePtr m info ≤ i ∧ i < modulePtr m info + 8 * moduleCount m info done) := by
  have hle : moduleCount m info done ≤ moduleSize m info := moduleCount_le
  rintro ⟨hge, hlt⟩
  have hptr : modulePtr m info ≠ 0 := fun h => by
    rw [moduleCount, if_pos h] at hlt
    omega
  obtain ⟨-, -, hinfo, hvars⟩ := hr.module hptr
  rw [Mem.Disjoint] at hinfo
  rcases h with h | ⟨σ, hσ, h⟩
  · omega
  · have hvar := hvars σ hσ
    rw [Mem.Disjoint] at hvar
    omega

/-- The request is none of its variables. -/
theorem Request.notSlot (hr : Request m addr n info headerVar) {i : Nat}
    (h : info ≤ i ∧ i < info + bootInfoSize) :
    ∀ σ, slotPtr m info σ ≠ 0 → ¬(slotPtr m info σ ≤ i ∧ i < slotPtr m info σ + 8) := by
  intro σ hσ hin
  have hinfo := (hr.slot σ hσ).2
  rw [Mem.Disjoint] at hinfo
  omega

/-- The `vbe` field is not for the function to change. -/
theorem Loads.slotPtr_vbe {m' : Mem} {done : List (Nat × Tag)}
    (hr : Request m addr n info headerVar) (hl : Loads m info done m') :
    slotPtr m' info .vbe = slotPtr m info .vbe := by
  have hoff : Slot.vbe.offset = 56 := rfl
  refine Mem.load_congr fun i hi hi' => ?_
  rw [hoff] at hi hi'
  have hin : info ≤ i ∧ i < info + bootInfoSize := ⟨by omega, by rw [bootInfoSize]; omega⟩
  exact hl.same i (by omega) (hr.notModule (.inl hin)) (hr.notSlot hin)

/-- What the loop has loaded, with the number of the modules, is what the caller gets. -/
theorem Loaded.loads (hr : Request m addr n info headerVar) (hl : Loaded m info done s)
    (hvbe : slotPtr m info .vbe ≠ 0 → headersOf Slot.vbe.type done = []) :
    Loads m info done (s.mem.store (info + 24) 8 s.moduleIndex) where
  modules i hi hi' := by
    have hptr : modulePtr m info ≠ 0 := fun h => by
      rw [moduleCount, if_pos h] at hi'
      exact absurd hi' (Nat.not_lt_zero i)
    have hentry := (hr.entry hptr (Nat.lt_of_lt_of_le hi' moduleCount_le)).1
    rw [Mem.Disjoint, bootInfoSize] at hentry
    rw [Mem.load_store_of_disjoint (by rw [Mem.Disjoint]; omega), hl.modules i hi hi']
  moduleSize := by
    have hle : moduleCount m info done ≤ moduleSize m info := moduleCount_le
    have hlt : moduleSize m info < 256 ^ 8 := Mem.load_lt m _ 8
    rw [moduleSize, Mem.load_store, hl.index, Nat.mod_eq_of_lt (by omega)]
  slots σ hσ := by
    have hinfo := (hr.slot σ hσ).2
    rw [Mem.Disjoint, bootInfoSize] at hinfo
    rw [Mem.load_store_of_disjoint (by rw [Mem.Disjoint]; omega)]
    by_cases hσvbe : σ = .vbe
    · subst hσvbe
      rw [hvbe hσ, List.getLast?_nil, Option.getD_none]
      refine Mem.load_congr fun i hi hi' => hl.same i ⟨hr.notModule (.inr ⟨_, hσ, hi, hi'⟩), ?_⟩
      intro τ hτ hτ' hin
      have hap := hr.slots τ .vbe hτ hτ' hσ
      rw [Mem.Disjoint] at hap
      omega
    · exact hl.slots σ hσvbe hσ
  same i hsize hmod hvars := by
    rw [Mem.store_of_notMem (by omega)]
    exact hl.same i ⟨hmod, fun σ _ hσ => hvars σ hσ⟩

theorem headersOf_placed_eq_nil {ty : Nat} (h : ∀ t ∈ tags, t.type ≠ ty) :
    headersOf ty (placed a tags) = [] := by
  induction tags generalizing a with
  | nil => rfl
  | cons t tags ih =>
    obtain ⟨ht, hrest⟩ := List.forall_mem_cons.mp h
    have htail := ih (a := a + t.length) hrest
    rw [headersOf] at htail ⊢
    rw [placed, List.filter_cons_of_neg (by simpa using ht), htail]

/-- A request for a VBE tag that is there is not served. -/
theorem not_multibootLoads (hb : Block addr n) (hr : Request m addr n info headerVar)
    (ht : TagsIn m (addr + n) (addr + 8) tags) (hask : AsksForVbe m info tags) :
    ¬MultibootLoads m addr info headerVar tags := by
  rintro ⟨fuel, m', visited, hrun, hloads⟩
  rw [loadMultibootInfo_eq hb hr ht] at hrun
  split at hrun
  case isTrue => exact nomatch hrun
  case isFalse =>
    obtain ⟨rfl, -⟩ := Prod.mk.inj (Option.some.inj hrun)
    have hk : Kept m info ⟨m, 0⟩ := fun _ _ => rfl
    have hfield := slotPtr_vbe_loadTags hr hk ht (Nat.le_add_right addr 8) hask.1 (.inr hask.2)
    have hsame := hloads.slotPtr_vbe hr
    have hoff : Slot.vbe.offset = 56 := rfl
    -- the last write, of the number of the modules, does not touch the field
    rw [slotPtr, Mem.load_store_of_disjoint (by rw [Mem.Disjoint, hoff]; omega)] at hsame
    exact hr.header.2.2 (hfield.symm.trans hsame)

/-- **The caller gets what it asked for** if and only if it does not ask for a VBE tag that is
there. -/
theorem multibootLoads_iff (hb : Block addr n) (hr : Request m addr n info headerVar)
    (ht : TagsIn m (addr + n) (addr + 8) tags) :
    MultibootLoads m addr info headerVar tags ↔ ¬AsksForVbe m info tags := by
  constructor
  · exact fun hloads hask => not_multibootLoads hb hr ht hask hloads
  · intro hno
    have hlength := ht.length_le
    have hsize := hb.size_lt
    have hk : Kept m info ⟨m, 0⟩ := fun _ _ => rfl
    have hnone : slotPtr m info .vbe ≠ 0 → ∀ t ∈ tags, t.type ≠ Slot.vbe.type :=
      fun hptr t htag htype => hno ⟨hptr, t, htag, htype⟩
    have hl := (loaded_nil m info).loadTags hb hr hk ht (Nat.le_add_right addr 8)
      (by rw [List.length_nil]; omega) hnone
    rw [List.nil_append] at hl
    have hrun := @loadMultibootInfo_eq m addr n info headerVar tags (tags.length + 1) hb hr ht
    rw [if_neg (by omega)] at hrun
    exact ⟨_, _, _, hrun, hl.loads hr fun hptr => headersOf_placed_eq_nil (hnone hptr)⟩

end Run

/-! ## Blocks -/

/-- A tag without data. -/
def plainTag (σ : Slot) : Tag where
  type := σ.type
  size := 8
  notEnd := by cases σ <;> decide
  pos := by decide

/-- A block at `0x1000` with one tag, and a request at `0x2000` for it. -/
def plainBlock (σ : Slot) : Mem :=
  ((Mem.store (fun _ => 0) 0x1008 4 σ.type).store 0x100C 4 8).store (0x2000 + σ.offset) 8 0x3000

theorem block_plain : Block 0x1000 0x18 := ⟨by decide, by decide⟩

/-- Where the block and the request are not, there is nothing. -/
theorem load_plainBlock {σ : Slot} {a : Nat} (hblock : 0x1010 ≤ a)
    (h : a + 8 ≤ 0x2000 + σ.offset ∨ 0x2008 + σ.offset ≤ a) : (plainBlock σ).load a 8 = 0 := by
  rw [plainBlock, Mem.load_store_of_disjoint (by rw [Mem.Disjoint]; omega),
    Mem.load_store_of_disjoint (by rw [Mem.Disjoint]; omega),
    Mem.load_store_of_disjoint (by rw [Mem.Disjoint]; omega)]
  exact Mem.load_eq_zero fun _ _ => rfl

theorem slotPtr_plainBlock (σ τ : Slot) :
    slotPtr (plainBlock σ) 0x2000 τ = if τ = σ then 0x3000 else 0 := by
  rw [slotPtr]
  by_cases h : τ = σ
  · rw [h, plainBlock, Mem.load_store, if_pos rfl]
    rfl
  · have hap := Slot.offset_apart h
    rw [Mem.Disjoint] at hap
    rw [if_neg h, load_plainBlock (by omega) (by omega)]

theorem request_plain (σ : Slot) : Request (plainBlock σ) 0x1000 0x18 0x2000 0x4000 where
  apart := .inr (by decide)
  slot τ hτ := by
    rw [slotPtr_plainBlock] at hτ ⊢
    rw [if_pos (by by_contra h; exact hτ (if_neg h))]
    exact ⟨.inr (by decide), .inr (by decide)⟩
  slots τ υ hne hτ hυ := by
    rw [slotPtr_plainBlock] at hτ hυ
    split at hτ
    case isTrue hτσ =>
      split at hυ
      case isTrue hυσ => exact absurd (hτσ.trans hυσ.symm) hne
      case isFalse => exact absurd rfl hυ
    case isFalse => exact absurd rfl hτ
  module h := by
    have hb := σ.offset_bounds
    exact absurd (load_plainBlock (by decide) (.inl (by omega))) h
  header := by
    rw [slotPtr_plainBlock]
    refine ⟨by decide, by decide, ?_⟩
    split <;> decide

theorem tagsIn_plain (σ : Slot) :
    TagsIn (plainBlock σ) 0x1018 0x1008 [plainTag σ] := by
  cases σ <;> decide +kernel

theorem asksForVbe_plain {σ : Slot} :
    AsksForVbe (plainBlock σ) 0x2000 [plainTag σ] ↔ σ = .vbe := by
  rw [AsksForVbe, slotPtr_plainBlock]
  constructor
  · rintro ⟨-, t, ht, htype⟩
    rw [List.mem_singleton.mp ht] at htype
    exact Slot.type_inj htype
  · rintro rfl
    exact ⟨by decide, plainTag .vbe, List.mem_singleton.mpr rfl, rfl⟩

/-- The request for a VBE tag overwrites the pointer to the variable, which stays as it is. -/
theorem vbe_not_loaded : Block 0x1000 0x18 ∧
    Request (plainBlock .vbe) 0x1000 0x18 0x2000 0x4000 ∧
    TagsIn (plainBlock .vbe) 0x1018 0x1008 [plainTag .vbe] ∧
    ¬MultibootLoads (plainBlock .vbe) 0x1000 0x2000 0x4000 [plainTag .vbe] :=
  ⟨block_plain, request_plain .vbe, tagsIn_plain .vbe,
    not_multibootLoads block_plain (request_plain .vbe) (tagsIn_plain .vbe)
      (asksForVbe_plain.mpr rfl)⟩

/-- A module, a memory map, a module, a tag that nobody asks for, and a memory map. -/
def fiveTags : List Tag :=
  [⟨tagModules, 17, by decide, by decide⟩, plainTag .memoryMap,
    ⟨tagModules, 16, by decide, by decide⟩, ⟨Slot.acpiOld.type, 28, by decide, by decide⟩,
    plainTag .memoryMap]

/-- These tags, and a request at `0x2000` for four modules, the memory map and the framebuffer. -/
def fullBlock : Mem :=
  [(0x1008, 4, 3), (0x100C, 4, 17), (0x1020, 4, 6), (0x1024, 4, 8), (0x1028, 4, 3), (0x102C, 4, 16),
    (0x1038, 4, 14), (0x103C, 4, 28), (0x1058, 4, 6), (0x105C, 4, 8), (0x2010, 8, 0x3020),
    (0x2018, 8, 4), (0x2030, 8, 0x3000), (0x2040, 8, 0x3010)].foldl
      (fun m s => m.store s.1 s.2.1 s.2.2) fun _ => 0

theorem block_full : Block 0x1000 0x68 := ⟨by decide, by decide⟩

theorem slotPtr_fullBlock (σ : Slot) : slotPtr fullBlock 0x2000 σ =
    if σ = .memoryMap then 0x3000 else if σ = .framebuffer then 0x3010 else 0 := by
  cases σ <;> decide +kernel

/-- The fields of the request that are not `NULL`. -/
theorem slotPtr_fullBlock_ne {σ : Slot} (h : slotPtr fullBlock 0x2000 σ ≠ 0) :
    (σ = .memoryMap ∧ slotPtr fullBlock 0x2000 σ = 0x3000) ∨
      (σ = .framebuffer ∧ slotPtr fullBlock 0x2000 σ = 0x3010) := by
  rw [slotPtr_fullBlock] at h ⊢
  split_ifs at h ⊢ with hmap hbuffer
  · exact .inl ⟨hmap, rfl⟩
  · exact .inr ⟨hbuffer, rfl⟩
  · exact absurd rfl h

theorem request_full : Request fullBlock 0x1000 0x68 0x2000 0x4000 where
  apart := .inr (by decide)
  slot σ hσ := by
    rcases slotPtr_fullBlock_ne hσ with ⟨-, h⟩ | ⟨-, h⟩ <;>
      exact h ▸ ⟨.inr (by decide), .inr (by decide)⟩
  slots σ τ hne hσ hτ := by
    rcases slotPtr_fullBlock_ne hσ with ⟨rfl, h⟩ | ⟨rfl, h⟩ <;>
      rcases slotPtr_fullBlock_ne hτ with ⟨rfl, h'⟩ | ⟨rfl, h'⟩
    · exact absurd rfl hne
    · rw [h, h']
      decide
    · rw [h, h']
      decide
    · exact absurd rfl hne
  module _ := by
    have hptr : modulePtr fullBlock 0x2000 = 0x3020 := by decide +kernel
    have hsize : moduleSize fullBlock 0x2000 = 4 := by decide +kernel
    rw [hptr, hsize]
    refine ⟨by decide, by decide, by decide, fun σ hσ => ?_⟩
    rcases slotPtr_fullBlock_ne hσ with ⟨-, h⟩ | ⟨-, h⟩ <;>
      exact h ▸ .inr (by decide)
  header := by
    rw [slotPtr_fullBlock]
    decide

theorem tagsIn_full : TagsIn fullBlock 0x1068 0x1008 fiveTags := by decide +kernel

/-- A request for modules and the memory map is served. -/
theorem multibootLoads_fiveTags : MultibootLoads fullBlock 0x1000 0x2000 0x4000 fiveTags :=
  (multibootLoads_iff block_full request_full tagsIn_full).mpr fun h =>
    h.1 (slotPtr_fullBlock .vbe)

end Colibri.Boot

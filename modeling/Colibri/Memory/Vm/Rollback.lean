import Colibri.Memory.Vm.Map

/-!
# Undoing a mapping

`mappages` that fails at a page calls `unmappages` for what it has mapped. The size of that range is
`current - va`, which is 0, or wraps below it when `va` is not aligned and the first page fails; added
to `va` it gives `current` in any case, so that the range ends with the page before `current`.

`Partly` is the state of the loop: the pages before `current` were absent and have leaves of the last
level now, and all others translate as at the start.
-/

namespace Colibri.Memory

open Colibri.Lib

variable {hole root va start stop current : Nat} {k₀ k k' : Kmem}

/-- The loop of `mappages` between two rounds: `k₀` is the memory it started with. -/
structure Partly (hole root start current : Nat) (k₀ k : Kmem) : Prop where
  ready : ReadyOff hole k root
  absent : ∀ x, start ≤ x → x < current → leafAt k₀.tables root (vaPath x) = none
  small : ∀ x, start ≤ x → x < current → ∀ level e,
    leafAt k.tables root (vaPath x) ≠ some (level + 1, e)
  others : ∀ q, PagePathOff hole q → (∀ x, start ≤ x → x < current → q ≠ vaPath x) →
    leafAt k.tables root q = leafAt k₀.tables root q

theorem Partly.init (h : ReadyOff hole k root) (start : Nat) :
    Partly hole root start start k k := by
  refine ⟨h, fun x hx hx' => ?_, fun x hx hx' => ?_, fun _ _ _ => rfl⟩ <;> omega

/-- Tables that `walk` hangs in make no difference. -/
theorem Partly.grown (h : Partly hole root start current k₀ k) (hg : GrownOff hole root k k')
    (hpath : ∀ x, start ≤ x → x < current → PagePathOff hole (vaPath x)) :
    Partly hole root start current k₀ k' := by
  refine ⟨hg.ready, h.absent, fun x hx hx' level e => ?_, fun q hq hn => ?_⟩
  · rw [hg.leaves _ (hpath x hx hx')]
    exact h.small x hx hx' level e
  · rw [hg.leaves q hq]
    exact h.others q hq hn

/-- The range that is undone ends before `current`. -/
theorem rollback_stop (hva : va < u64Size) (hpos : 0 < current) (hlt : current < u64Size)
    (hal : current % 4096 = 0) :
    pageEnd (u64Sub (u64Add va (u64Sub current va)) 1) = current - 1 := by
  have hback : u64Add va (u64Sub current va) = current := by
    simp only [u64Add, u64Sub]
    rw [u64Size_eq] at hva hlt ⊢
    omega
  rw [hback, u64Sub_eq hpos hlt, pageEnd_eq (by omega), pageStart, pageSize_eq]
  omega

/-- **`unmappages` after a failure** restores every leaf. -/
theorem Partly.rollback (h : Partly hole root start current k₀ k)
    (hrange : PageRangeOff hole start stop) (hstart : start = pageStart va) (hva : va < u64Size)
    (hpos : 0 < start) (hle : start ≤ current) (hle' : current ≤ stop + 1)
    (hal : current % 4096 = 0)
    (hrun : k.unmappages root va (u64Sub current va) false = some k') :
    ∀ q, PagePathOff hole q → leafAt k'.tables root q = leafAt k₀.tables root q := by
  have hlt := hrange.lt
  have hsize := u64Size_eq
  have hback : PageRangeOff hole start (current - 1) :=
    ⟨hrange.aligned, by omega, by omega, fun x hx hx' => hrange.canonical x hx (by omega),
      fun x hx hx' => hrange.not_recursive x hx (by omega)⟩
  have hlarge : NoLarge k root start (current - 1) := fun x hx hx' => h.small x hx (by omega)
  obtain ⟨fuel, hfuel⟩ : ∃ fuel, u64Size = fuel + 1 := ⟨u64Size - 1, by omega⟩
  obtain ⟨k₁, hk₁, -, hin, hout⟩ :=
    unmapLoop_spec fuel (show current - 1 < start + 4096 * fuel by omega) hback h.ready hlarge
  unfold Kmem.unmappages at hrun
  rw [rollback_stop hva (by omega) (by omega) hal, ← hstart, hfuel, hk₁] at hrun
  obtain rfl := Option.some.inj hrun
  intro q hq
  by_cases hex : ∃ x, start ≤ x ∧ x < current ∧ q = vaPath x
  · obtain ⟨x, hx, hx', rfl⟩ := hex
    rw [hin x hx (by omega), h.absent x hx hx']
  · have hn : ∀ x, start ≤ x → x < current → q ≠ vaPath x := fun x hx hx' he =>
      hex ⟨x, hx, hx', he⟩
    rw [hout q ⟨hq, fun x hx hx' => hn x hx (by omega)⟩]
    exact h.others q hq hn

/-- **A page that is mapped** joins those before `current`. -/
theorem Partly.map (h : Partly hole root start current k₀ k) (hrange : PageRangeOff hole start stop)
    (hle : start ≤ current) (hlt : current < stop) (hal : current % 4096 = 0) {t i : Nat}
    (hslot : LeafSlot k root current t i) (hp : (k.tables t i).present = false) (e : Entry)
    (hk' : k' = k.setEntry t i e) : Partly hole root start (current + 4096) k₀ k' := by
  have hmod := hrange.stop_mod
  have hpath : ∀ x, start ≤ x → x ≤ stop → PagePathOff hole (vaPath x) := fun x hx hx' =>
    vaPath_pagePath (hrange.not_recursive x hx hx')
  have hva := hpath current hle (Nat.le_of_lt hlt)
  obtain ⟨hr, hleaf, hrest⟩ := hslot.set h.ready hva e
  rw [← hk'] at hr hleaf hrest
  have hpage : ∀ x, current ≤ x → x < current + 4096 → vaPath x = vaPath current := by
    intro x hx hx'
    refine vaPath_of_pageStart ?_
    rw [pageStart_of_aligned hal, pageStart_eq_iff hal]
    exact ⟨hx, hx'⟩
  -- the pages before have other descriptors
  have hne : ∀ x, start ≤ x → x < current → vaPath x ≠ vaPath current := by
    intro x hx hx' he
    have := vaPath_inj (hrange.canonical x hx (by omega))
      (hrange.canonical current hle (by omega)) he
    rw [pageStart_of_aligned hal, pageStart_eq_iff hal] at this
    omega
  have hcur : leafAt k.tables root (vaPath current) = none := by
    rw [hslot.leaf_eq, Option.filter_some, hp]
    rfl
  refine ⟨hr, fun x hx hx' => ?_, fun x hx hx' level d => ?_, fun q hq hn => ?_⟩
  · rcases Nat.lt_or_ge x current with hlt' | hge
    · exact h.absent x hx hlt'
    · rw [hpage x hge hx', ← h.others _ hva fun y hy hy' he => hne y hy hy' he.symm, hcur]
  · rcases Nat.lt_or_ge x current with hlt' | hge
    · rw [hrest _ (hpath x hx (by omega)) (hne x hx hlt')]
      exact h.small x hx hlt' level d
    · rw [hpage x hge hx', hleaf, Option.filter_some]
      split <;> simp
  · rw [hrest q hq (hn current hle (by omega))]
    exact h.others q hq fun x hx hx' => hn x hx (by omega)

/-- **The loop of `mappages`, when it fails**, leaves every leaf as it was at the start. The induction
is on the rounds. -/
theorem mapLoop_rollback {flags : BitVec 64} (hrange : PageRangeOff hole start stop)
    (hstart : start = pageStart va) (hva : va < u64Size) (hpos : 0 < start) :
    ∀ (fuel : Nat) {k k' : Kmem} {current pa : Nat}, Partly hole root start current k₀ k →
    start ≤ current → current ≤ stop + 1 → current % 4096 = 0 →
    Kmem.mapLoop root va stop flags fuel k current pa = some (k', false) →
    ∀ q, PagePathOff hole q → leafAt k'.tables root q = leafAt k₀.tables root q
  | 0, _, _, _, _, _, _, _, _, hmap => absurd hmap (by simp [Kmem.mapLoop])
  | fuel + 1, k, k', current, pa, h, hle, hle', hal, hmap => by
    have hmod := hrange.stop_mod
    have hlt := hrange.lt
    rw [Kmem.mapLoop] at hmap
    by_cases hcur : current < stop
    · have hpath : ∀ x, start ≤ x → x ≤ stop → PagePathOff hole (vaPath x) := fun x hx hx' =>
        vaPath_pagePath (hrange.not_recursive x hx hx')
      obtain ⟨hg, hslot⟩ := walk_alloc (hpath current hle (Nat.le_of_lt hcur)) h.ready
      obtain ⟨k₁, d, hw⟩ : ∃ k₁ d, k.walk root current true = (k₁, d) := ⟨_, _, rfl⟩
      rw [hw] at hg hslot
      rw [if_pos hcur, hw] at hmap
      have h₁ := h.grown hg fun x hx hx' => hpath x hx (by omega)
      have hback : (k₁.unmappages root va (u64Sub current va) false).map (·, false) =
          some (k', false) →
          ∀ q, PagePathOff hole q → leafAt k'.tables root q = leafAt k₀.tables root q := by
        intro hun
        obtain ⟨k₂, hk₂, he⟩ := Option.map_eq_some_iff.mp hun
        obtain ⟨rfl, -⟩ := Prod.mk.inj he
        exact h₁.rollback hrange hstart hva hpos hle hle' hal hk₂
      cases d with
      | none => exact hback hmap
      | some d =>
        obtain ⟨t, i⟩ := d
        simp only at hmap
        cases hp : (k₁.tables t i).present with
        | true =>
          rw [hp, if_pos rfl] at hmap
          exact hback hmap
        | false =>
          have hs : LeafSlot k₁ root current t i := by
            rcases hslot t i rfl with hs | ⟨level, hl⟩
            · exact hs
            · -- a large page is present
              have hpr := (Option.filter_eq_some_iff.mp hl).2
              exact absurd (hp.symm.trans hpr) (by simp)
          have hadd : u64Add current pageSize = current + 4096 := by
            rw [pageSize_eq, u64Add_eq (by omega)]
          rw [hp, if_neg (by simp), hadd] at hmap
          exact mapLoop_rollback hrange hstart hva hpos fuel
            (h₁.map hrange hle hcur hal hs hp _ rfl) (by omega) (by omega) (by omega) hmap
    · rw [if_neg hcur] at hmap
      exact absurd hmap (by simp)

/-- **A `mappages` that returns -1 changes no translation**, wherever and for whatever reason it
fails. -/
theorem mappages_rollback {sz pa : Nat} {flags : BitVec 8} (h : ReadyOff hole k root)
    (hr : RequestOff hole va sz) (hpos : 4096 ≤ va)
    (hmap : k.mappages root va sz pa flags = some (k', false)) (x : Nat)
    (hx : va2Index x 3 ≠ hole) : translate k'.tables root x = translate k.tables root x := by
  have h₁ := hr.pos
  have h₂ := hr.lt
  have h₃ := u64Size_eq
  have hmod := pageStart_mod va
  have hle := pageStart_le va
  have hlast : pageStart va ≤ pageStart (va + sz - 1) := by
    rw [pageStart, pageStart, pageSize_eq]
    omega
  have hgt : 0 < pageStart va := by
    rw [pageStart, pageSize_eq]
    omega
  unfold Kmem.mappages at hmap
  rw [hr.stop] at hmap
  have hleaves := mapLoop_rollback hr.pageRange rfl (by omega) hgt u64Size (.init h _)
    (Nat.le_refl _) (by omega) hmod hmap
  exact translate_congr (hleaves _ (vaPath_pagePath hx))

/-- One free page, which is not enough for the tables on the way to a page. -/
def onePage : Kmem := { emptyKmem with free := [0x2000] }

/-- The pages run out under the first page, whose address is not aligned. -/
theorem mappages_rollback_first : ∃ k', onePage.mappages 0x9000 0x400123 0x2000 0x5678 3 =
    some (k', false) ∧ k'.free = [] ∧
    ∀ x, translate k'.tables 0x9000 x = translate onePage.tables 0x9000 x := by
  have hrun : (onePage.mappages 0x9000 0x400123 0x2000 0x5678 3).map (fun r => (r.1.free, r.2)) =
      some ([], false) := by decide +kernel
  obtain ⟨⟨k', b⟩, hk, he⟩ := Option.map_eq_some_iff.mp hrun
  obtain ⟨hfree, rfl⟩ := Prod.mk.inj he
  have hready : ReadyOff 512 onePage 0x9000 := by
    refine ⟨fun p q t _ _ hp hq => ?_, by decide, by decide, by decide, by decide,
      fun p hp q _ hd => ?_⟩
    · rw [(emptyKmem_descend hp).1, (emptyKmem_descend hq).1]
    · have ht := (emptyKmem_descend hd).2
      obtain rfl : p = 0x2000 := List.mem_singleton.mp hp
      exact absurd ht (by decide)
  have hindex : ∀ x, va2Index x 3 ≠ 512 := fun x => Nat.ne_of_lt (Nat.mod_lt _ (by omega))
  have hr : RequestOff 512 0x400123 0x2000 :=
    ⟨by decide, by decide, fun x hx hx' => .inl (by omega), fun x _ _ => hindex x⟩
  exact ⟨k', hk, hfree, fun x => mappages_rollback hready hr (by decide) hk x (hindex x)⟩

end Colibri.Memory

import Mathlib.Tactic.Ring
import Colibri.Memory.Vm.Map
import Colibri.Memory.Vmm

/-!
# The page table of a new address space

`vmm_create` takes the page of the root table from `kalloc` and does not clear it, and
`map_higher_half` then writes its upper 256 entries. The lower ones are what the last owner of the page
left there.
-/

namespace Colibri.Memory

open Colibri.Lib

/-! ## What a walk finds -/

/-- The descriptor that a walk returned is present. -/
def FindsPresent (k : Kmem) (r : Option (Nat × Nat)) : Prop :=
  ∃ t i, r = some (t, i) ∧ (k.tables t i).present = true

/-- Some entry of the table `t` of this level with an index below `n` is present, and is a leaf or
leads to one. -/
def Leads (tables : Nat → Nat → Entry) : Nat → Nat → Nat → Prop
  | 0, n, t => ∃ i < n, (tables t i).present = true
  | level + 1, n, t => ∃ i < n, (tables t i).present = true ∧
    ((tables t i).pageSize = true ∨ Leads tables level 512 (tables t i).table)

section

variable {k : Kmem} {va level t : Nat}

theorem findsPresent_zero :
    FindsPresent k (Kmem.walkFrom va false 0 k t).2 ↔ (k.tables t (va2Index va 0)).present = true := by
  constructor
  · rintro ⟨t', i, he, hp⟩
    obtain ⟨rfl, rfl⟩ := Prod.mk.inj (Option.some.inj he)
    exact hp
  · exact fun hp => ⟨_, _, rfl, hp⟩

theorem findsPresent_succ :
    FindsPresent k (Kmem.walkFrom va false (level + 1) k t).2 ↔
      (k.tables t (va2Index va (level + 1))).present = true ∧
        ((k.tables t (va2Index va (level + 1))).pageSize = true ∨
          FindsPresent k
            (Kmem.walkFrom va false level k (k.tables t (va2Index va (level + 1))).table).2) := by
  cases hp : (k.tables t (va2Index va (level + 1))).present with
  | false =>
    rw [walkFrom_absent hp]
    exact ⟨fun ⟨_, _, he, _⟩ => absurd he (by simp), fun h => absurd h.1 (by simp)⟩
  | true =>
    cases hl : (k.tables t (va2Index va (level + 1))).pageSize with
    | false =>
      rw [walkFrom_table hp hl]
      simp
    | true =>
      rw [walkFrom_large hp hl]
      exact ⟨fun _ => ⟨rfl, .inl rfl⟩, fun _ => ⟨_, _, rfl, hp⟩⟩

end

/-- The addresses under one entry of a level are those under a table of the level below. -/
theorem pow_level (level : Nat) : 2 ^ (12 + (level + 1) * 9) = 512 * 2 ^ (12 + level * 9) := by
  rw [show 12 + (level + 1) * 9 = 9 + (12 + level * 9) by omega, Nat.pow_add 2 9]

/-- The index at this level, in the digits of the address. -/
theorem va2Index_add {i va level : Nat} (hi : i < 512) (hva : va < 2 ^ (12 + level * 9)) :
    va2Index (i * 2 ^ (12 + level * 9) + va) level = i := by
  unfold va2Index
  rw [Nat.mul_comm, Nat.mul_add_div (Nat.two_pow_pos _), Nat.div_eq_of_lt hva, Nat.add_zero,
    Nat.mod_eq_of_lt hi]

/-- The digits below this level. -/
theorem va2Index_low {i va level l : Nat} (hl : l < level) :
    va2Index (i * 2 ^ (12 + level * 9) + va) l = va2Index va l := by
  unfold va2Index
  have he : 2 ^ (12 + level * 9) = 2 ^ (12 + l * 9) * (512 * 2 ^ ((level - l - 1) * 9)) := by
    rw [show 512 = 2 ^ 9 from rfl, ← Nat.pow_add, ← Nat.pow_add]
    congr 1
    omega
  rw [he, show i * (2 ^ (12 + l * 9) * (512 * 2 ^ ((level - l - 1) * 9))) =
    2 ^ (12 + l * 9) * (512 * (i * 2 ^ ((level - l - 1) * 9))) by ring,
    Nat.mul_add_div (Nat.two_pow_pos _), Nat.mul_add_mod]

theorem walkFrom_congr {va va' : Nat} {alloc : Bool} : ∀ (level : Nat) (k : Kmem) (t : Nat),
    (∀ l ≤ level, va2Index va l = va2Index va' l) →
    Kmem.walkFrom va alloc level k t = Kmem.walkFrom va' alloc level k t
  | 0, k, t, h => by rw [Kmem.walkFrom, Kmem.walkFrom, h 0 (Nat.le_refl 0)]
  | level + 1, k, t, h => by
    have hrec : ∀ k t, Kmem.walkFrom va alloc level k t = Kmem.walkFrom va' alloc level k t :=
      fun k t => walkFrom_congr level k t fun l hl => h l (Nat.le_succ_of_le hl)
    simp only [Kmem.walkFrom, h (level + 1) (Nat.le_refl _), hrec]

/-- **A walk of some address finds a present descriptor** exactly if the table leads to a leaf. -/
theorem leads_iff {k : Kmem} : ∀ (level n t : Nat), n ≤ 512 →
    (Leads k.tables level n t ↔
      ∃ va < n * 2 ^ (12 + level * 9), FindsPresent k (Kmem.walkFrom va false level k t).2)
  | 0, n, t, hn => by
    constructor
    · rintro ⟨i, hi, hp⟩
      refine ⟨i * 2 ^ (12 + 0 * 9) + 0, ?_, findsPresent_zero.mpr ?_⟩
      · rw [Nat.add_zero]
        exact Nat.mul_lt_mul_of_pos_right hi (Nat.two_pow_pos _)
      · rw [va2Index_add (by omega) (Nat.two_pow_pos _)]
        exact hp
    · rintro ⟨va, hva, hp⟩
      have hlt : va / 2 ^ (12 + 0 * 9) < n := Nat.div_lt_of_lt_mul (by rwa [Nat.mul_comm])
      refine ⟨va2Index va 0, ?_, findsPresent_zero.mp hp⟩
      unfold va2Index
      rw [Nat.mod_eq_of_lt (by omega)]
      exact hlt
  | level + 1, n, t, hn => by
    constructor
    · rintro ⟨i, hi, hp, hl⟩
      have hi' : i < 512 := by omega
      rcases hl with hl | hl
      · refine ⟨i * 2 ^ (12 + (level + 1) * 9) + 0, ?_, findsPresent_succ.mpr ?_⟩
        · rw [Nat.add_zero]
          exact Nat.mul_lt_mul_of_pos_right hi (Nat.two_pow_pos _)
        · rw [va2Index_add hi' (Nat.two_pow_pos _)]
          exact ⟨hp, .inl hl⟩
      · obtain ⟨va, hva, hf⟩ := (leads_iff level 512 _ (Nat.le_refl _)).mp hl
        have hva' : va < 2 ^ (12 + (level + 1) * 9) := by
          rw [pow_level]
          exact hva
        refine ⟨i * 2 ^ (12 + (level + 1) * 9) + va, ?_, findsPresent_succ.mpr ?_⟩
        · calc i * 2 ^ (12 + (level + 1) * 9) + va
              < i * 2 ^ (12 + (level + 1) * 9) + 2 ^ (12 + (level + 1) * 9) := by omega
            _ = (i + 1) * 2 ^ (12 + (level + 1) * 9) := (Nat.succ_mul i _).symm
            _ ≤ n * 2 ^ (12 + (level + 1) * 9) := Nat.mul_le_mul_right _ hi
        · rw [va2Index_add hi' hva']
          refine ⟨hp, .inr ?_⟩
          rw [walkFrom_congr level k _ fun l hl => va2Index_low (Nat.lt_succ_of_le hl)]
          exact hf
    · rintro ⟨va, hva, hf⟩
      obtain ⟨hp, hl⟩ := findsPresent_succ.mp hf
      have hlt : va / 2 ^ (12 + (level + 1) * 9) < n :=
        Nat.div_lt_of_lt_mul (by rwa [Nat.mul_comm])
      refine ⟨va2Index va (level + 1), ?_, hp, hl.imp id fun hf => ?_⟩
      · unfold va2Index
        rw [Nat.mod_eq_of_lt (by omega)]
        exact hlt
      · refine (leads_iff level 512 _ (Nat.le_refl _)).mpr
          ⟨va % 2 ^ (12 + (level + 1) * 9), ?_, ?_⟩
        · rw [← pow_level]
          exact Nat.mod_lt _ (Nat.two_pow_pos _)
        · rw [← walkFrom_congr level k _ fun l hl => va2Index_low (Nat.lt_succ_of_le hl)
            (i := va / 2 ^ (12 + (level + 1) * 9)), Nat.div_add_mod']
          exact hf

/-! ## `vmm_create` and `map_higher_half` -/

/-- The tables after `map_higher_half`. -/
def higherHalf (tables : Nat → Nat → Entry) (kernelPml4 pagetable t i : Nat) : Entry :=
  if t = pagetable ∧ 256 ≤ i ∧ i < 512 then tables kernelPml4 i else tables t i

theorem mapHigherLoop_tables (kernelPml4 pagetable : Nat) : ∀ (n : Nat) (k : Kmem) (j t i : Nat),
    (Kmem.mapHigherLoop kernelPml4 pagetable n k j).tables t i =
      if t = pagetable ∧ j ≤ i ∧ i < j + n then k.tables kernelPml4 i else k.tables t i
  | 0, k, j, t, i => by
    rw [if_neg (by omega)]
    rfl
  | n + 1, k, j, t, i => by
    rw [Kmem.mapHigherLoop, mapHigherLoop_tables kernelPml4 pagetable n]
    have hother : ∀ u, u ≠ pagetable ∨ i ≠ j →
        (k.setEntry pagetable j (k.tables kernelPml4 j)).tables u i = k.tables u i :=
      fun u hu => setEntry_of_ne hu
    by_cases ht : t = pagetable
    · by_cases hij : i = j
      · subst ht hij
        rw [if_neg (by omega), if_pos ⟨rfl, Nat.le_refl i, by omega⟩]
        exact setEntry_self
      · rw [hother _ (.inr hij), hother _ (.inr hij)]
        by_cases hin : t = pagetable ∧ j ≤ i ∧ i < j + (n + 1)
        · rw [if_pos hin, if_pos ⟨ht, by omega, by omega⟩]
        · rw [if_neg hin, if_neg fun h => hin ⟨ht, by omega, by omega⟩]
    · rw [if_neg fun h => ht h.1, if_neg fun h => ht h.1, hother _ (.inl ht)]

theorem mapHigherHalf_tables (k : Kmem) (kernelPml4 pagetable : Nat) :
    (k.mapHigherHalf kernelPml4 pagetable).tables = higherHalf k.tables kernelPml4 pagetable := by
  funext t i
  exact mapHigherLoop_tables kernelPml4 pagetable 256 k 256 t i

/-- What `vmm_create` does when it succeeds: the root table is the first free page, as it is. -/
theorem vmmCreate_eq {k k' : Kmem} {vmmBlock lockBlock : Bool} {start stop : Nat} {user : Bool}
    {v : Vmm} (h : k.vmmCreate vmmBlock lockBlock start stop user = (k', some v)) :
    ∃ page free, k.free = page :: free ∧ page ≠ 0 ∧ k' = { k with free } ∧
      v = vmmInit (physToVirt page) start stop user := by
  unfold Kmem.vmmCreate at h
  split at h
  · exact absurd h (by simp)
  cases hf : k.free with
  | nil =>
    rw [Kmem.kalloc_nil hf] at h
    simp at h
  | cons page free =>
    rw [Kmem.kalloc_cons hf] at h
    dsimp only at h
    split_ifs at h with h0 hl
    · exact absurd h (by simp)
    · exact absurd h (by simp)
    · obtain ⟨rfl, hv⟩ := Prod.mk.inj h
      exact ⟨page, free, rfl, h0, rfl, (Option.some.inj hv).symm⟩

/-- **The page table of a new address space.** Its upper half is the kernel's, and it translates no
low-half address if and only if the lower half of the recycled page, read as a table, leads to no
leaf. -/
theorem new_pagetable_low_half {k k' k'' : Kmem} {vmmBlock lockBlock : Bool} {start stop : Nat}
    {user : Bool} {v : Vmm} {kernelPml4 : Nat}
    (h : k.vmmCreate vmmBlock lockBlock start stop user = (k', some v))
    (h' : k'' = k'.mapHigherHalf kernelPml4 v.rootPagetable) :
    (∀ i, 256 ≤ i → i < 512 → k''.tables v.rootPagetable i = k.tables kernelPml4 i) ∧
    ((∀ va, va < lowhalfEnd → ¬ FindsPresent k'' (k''.walk v.rootPagetable va false).2) ↔
      ¬ Leads (higherHalf k.tables kernelPml4 v.rootPagetable) 3 256 v.rootPagetable) := by
  obtain ⟨page, free, -, -, rfl, -⟩ := vmmCreate_eq h
  have htables : k''.tables = higherHalf k.tables kernelPml4 v.rootPagetable := by
    rw [h', mapHigherHalf_tables]
  constructor
  · intro i h₁ h₂
    rw [htables]
    exact if_pos ⟨rfl, h₁, h₂⟩
  · rw [← htables, leads_iff 3 256 v.rootPagetable (by omega),
      show 256 * 2 ^ (12 + 3 * 9) = lowhalfEnd from rfl]
    simp only [not_exists, not_and]
    rfl

/-- A root table in a page of zeros. -/
theorem new_pagetable_low_half_zero : ∃ k' v,
    emptyKmem.vmmCreate true true lowhalfStart lowhalfEnd true = (k', some v) ∧
    ∀ va, va < lowhalfEnd → ¬ FindsPresent (k'.mapHigherHalf 0x9000 v.rootPagetable)
      ((k'.mapHigherHalf 0x9000 v.rootPagetable).walk v.rootPagetable va false).2 := by
  have h : emptyKmem.vmmCreate true true lowhalfStart lowhalfEnd true =
      ({ emptyKmem with free := [0x3000, 0x4000] },
        some (vmmInit (physToVirt 0x2000) lowhalfStart lowhalfEnd true)) := rfl
  refine ⟨_, _, h, (new_pagetable_low_half h rfl).2.mpr ?_⟩
  rintro ⟨i, -, hp, -⟩
  have hzero : ∀ root, higherHalf emptyKmem.tables 0x9000 root root i = ⟨0⟩ := fun root => ite_self _
  rw [hzero, Entry.present_zero] at hp
  exact absurd hp (by decide)

/-- The page at `0x2000` was left with a word that, read as an entry, refers to the page itself. -/
def staleKmem : Kmem :=
  { emptyKmem with tables := setEntry emptyKmem.tables (physToVirt 0x2000) 2 ⟨0x2007⟩ }

/-- A new address space in that page maps the page into the low half, for the user to write. -/
theorem new_pagetable_stale : ∃ k' v,
    staleKmem.vmmCreate true true lowhalfStart lowhalfEnd true = (k', some v) ∧
    FindsPresent (k'.mapHigherHalf 0x9000 v.rootPagetable)
      ((k'.mapHigherHalf 0x9000 v.rootPagetable).walk v.rootPagetable 0x10080402000 false).2 ∧
    translate (k'.mapHigherHalf 0x9000 v.rootPagetable).tables v.rootPagetable 0x10080402000 =
      some ⟨0x2000, true, true, false⟩ := by
  refine ⟨_, _, rfl, ⟨physToVirt 0x2000, 2, ?_, ?_⟩, ?_⟩ <;> decide +kernel

end Colibri.Memory

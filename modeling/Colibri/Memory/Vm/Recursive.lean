import Colibri.Memory.Vm

/-!
# The recursive slot

Entry 510 of every PML4 refers to the PML4 itself. `pdpt_va`, `pd_va` and `pt_va` of
`kernel/include/kernel/arch/x86-64/memory_layout.h` make the addresses that are looked up through it
once, twice or three times, so that the last levels of the lookup end at a table instead of a page.

An entry's table is at the address in its bits 12 to 50. Bit 51 has no name in the layout, but the
processor takes it for a bit of the address.

## Results

* `va2Index_getVa`: `VA2INDEX` undoes `get_va`.
* `recursive_windows`: the addresses of the recursive slot translate to the tables that `walk`
  reaches, if bit 51 is clear in the entries on the way.
-/

namespace Colibri.Memory

open Colibri.Lib

/-- `PML4_RECURSE_ENTRY`. -/
def pml4RecurseEntry : Nat := 510

/-- `get_va`. -/
def getVa (pml4E pdptE pdE ptE offset : Nat) : Nat :=
  let addr := if pml4E &&& 0x100 ≠ 0 then 0xFFFF <<< 48 else 0
  let addr := addr ||| pml4E <<< 39
  let addr := addr ||| pdptE <<< 30
  let addr := addr ||| pdE <<< 21
  let addr := if ptE < 512 then addr ||| ptE <<< 12 else addr
  addr ||| offset

/-- `pdpt_va`. -/
def pdptVa (pml4Offset : Nat) : Nat :=
  getVa pml4RecurseEntry pml4RecurseEntry pml4RecurseEntry pml4Offset 0

/-- `pd_va`. -/
def pdVa (pml4Offset pdptOffset : Nat) : Nat :=
  getVa pml4RecurseEntry pml4RecurseEntry pml4Offset pdptOffset 0

/-- `pt_va`. -/
def ptVa (pml4Offset pdptOffset pdOffset : Nat) : Nat :=
  getVa pml4RecurseEntry pml4Offset pdptOffset pdOffset 0

/-- The entry refers to the table at `t`, and to the same for the processor: it is present and not
large, and bit 51 is clear. -/
structure Entry.Refers (e : Entry) (t : Nat) : Prop where
  child : e.child = some t
  narrow : e.raw.getLsbD 51 = false

instance (e : Entry) (t : Nat) : Decidable (e.Refers t) :=
  decidable_of_iff (e.child = some t ∧ e.raw.getLsbD 51 = false)
    ⟨fun h => ⟨h.1, h.2⟩, fun h => ⟨h.child, h.narrow⟩⟩

/-- The address `va` is one that the processor accepts, and is mapped to the page of the table
`t`. -/
structure Shows (tables : Nat → Nat → Entry) (root va t : Nat) : Prop where
  canonical : Canonical va
  page : ∃ tr, translate tables root va = some tr ∧ tr.pa = virtToPhys t

/-! ## Addresses from indexes -/

section Addresses

variable {a b c d off : Nat}

/-- An index behind those in front of it. -/
theorem or_index (x : Nat) {y : Nat} (hy : y < 512) (n : Nat) :
    x <<< (n + 9) ||| y <<< n = (x * 512 + y) <<< n := by
  have hlt : y <<< n < 2 ^ (n + 9) := by
    rw [Nat.shiftLeft_eq, pow_add, Nat.mul_comm]
    exact Nat.mul_lt_mul_of_pos_left hy (Nat.two_pow_pos n)
  rw [← Nat.shiftLeft_add_eq_or_of_lt hlt, Nat.shiftLeft_eq, Nat.shiftLeft_eq, Nat.shiftLeft_eq,
    pow_add, Nat.add_mul]
  congr 1
  rw [Nat.mul_assoc, Nat.mul_comm (2 ^ n)]
  rfl

/-- The sign extension of `get_va`. -/
theorem and_0x100 (ha : a < 512) : a &&& 0x100 ≠ 0 ↔ 256 ≤ a := by
  have hbit : a.testBit 8 = decide (a / 256 % 2 = 1) := Nat.testBit_eq_decide_div_mod_eq
  have hmask : ∀ j, Nat.testBit 0x100 j = decide (8 = j) := fun j => by
    rw [show (0x100 : Nat) = 2 ^ 8 from rfl, Nat.testBit_two_pow]
  constructor
  · intro h
    by_contra hlt
    refine h (Nat.eq_of_testBit_eq fun j => ?_)
    have hclear : a.testBit 8 = false := by
      rw [hbit]
      exact decide_eq_false (by omega)
    rw [Nat.testBit_and, hmask, Nat.zero_testBit]
    by_cases hj : 8 = j
    · subst hj
      rw [hclear, Bool.false_and]
    · rw [decide_eq_false hj, Bool.and_false]
  · intro h h0
    have hset : (a &&& 0x100).testBit 8 = true := by
      rw [Nat.testBit_and, hmask, hbit, decide_eq_true (by omega)]
      rfl
    rw [h0, Nat.zero_testBit] at hset
    exact absurd hset (by decide)

/-- What `get_va` puts together. -/
theorem getVa_eq (ha : a < 512) (hb : b < 512) (hc : c < 512) (hd : d < 512) (hoff : off < 4096) :
    getVa a b c d off = (if 256 ≤ a then 0xFFFF * 2 ^ 48 else 0) +
      (a * 2 ^ 39 + b * 2 ^ 30 + c * 2 ^ 21 + d * 2 ^ 12 + off) := by
  obtain ⟨s, hs, hsign⟩ : ∃ s, s * 2 ^ 48 = (if 256 ≤ a then 0xFFFF * 2 ^ 48 else 0) ∧
      (if a &&& 0x100 ≠ 0 then 0xFFFF <<< 48 else 0) = s <<< 48 := by
    by_cases h : 256 ≤ a
    · exact ⟨0xFFFF, by rw [if_pos h], by rw [if_pos ((and_0x100 ha).mpr h)]⟩
    · exact ⟨0, by rw [if_neg h, Nat.zero_mul], by rw [if_neg (fun h' => h ((and_0x100 ha).mp h'))]; rfl⟩
  have hlow : ∀ x, x <<< 12 ||| off = x * 4096 + off := fun x => by
    rw [← Nat.shiftLeft_add_eq_or_of_lt hoff, Nat.shiftLeft_eq]
  unfold getVa
  dsimp only
  rw [hsign, if_pos hd, ← hs, or_index s ha 39, or_index _ hb 30, or_index _ hc 21, or_index _ hd 12,
    hlow]
  clear hsign hs
  omega

/-- **`VA2INDEX` undoes `get_va`.** -/
theorem va2Index_getVa (ha : a < 512) (hb : b < 512) (hc : c < 512) (hd : d < 512)
    (hoff : off < 4096) :
    va2Index (getVa a b c d off) 3 = a ∧ va2Index (getVa a b c d off) 2 = b ∧
      va2Index (getVa a b c d off) 1 = c ∧ va2Index (getVa a b c d off) 0 = d := by
  rw [getVa_eq ha hb hc hd hoff]
  simp only [va2Index]
  split <;> omega

theorem canonical_getVa (ha : a < 512) (hb : b < 512) (hc : c < 512) (hd : d < 512)
    (hoff : off < 4096) : Canonical (getVa a b c d off) := by
  have hsize := u64Size_eq
  rw [getVa_eq ha hb hc hd hoff, Canonical]
  split <;> omega

theorem getVa_mod (ha : a < 512) (hb : b < 512) (hc : c < 512) (hd : d < 512) :
    getVa a b c d 0 % 4096 = 0 := by
  rw [getVa_eq ha hb hc hd (by decide)]
  split <;> omega

end Addresses

/-! ## Lookups through the slot -/

section Windows

variable {k : Kmem} {tables : Nat → Nat → Entry} {root t va : Nat} {e : Entry}

theorem virtToPhys_table (e : Entry) : virtToPhys e.table = e.pdAddr * 4096 := by
  have hoff : physicalOffset < u64Size := by decide
  have hlt : e.pdAddr * 4096 < u64Size := by
    have haddr : e.pdAddr < 2 ^ 39 := BitVec.isLt _
    have hsize := u64Size_eq
    omega
  rw [virtToPhys, Entry.table, physToVirt, u64Add, Nat.add_comm]
  exact u64Sub_u64Add hoff hlt

/-- A leaf made of an entry that refers to a table is the table's page. -/
theorem Entry.Refers.frame (h : e.Refers t) : e.frame 0 = virtToPhys t := by
  have ht : e.table = t := (Entry.child_eq_some_iff.mp h.child).2
  have haddr : (e.raw.extractLsb' 12 40).toNat = e.pdAddr := by
    refine Nat.eq_of_testBit_eq fun j => ?_
    rw [Entry.pdAddr, BitVec.testBit_toNat, BitVec.testBit_toNat, BitVec.getLsbD_extractLsb',
      BitVec.getLsbD_extractLsb']
    by_cases hj : j < 39
    · have hj' : j < 40 := by omega
      simp [hj, hj']
    · by_cases hlast : j = 39
      · subst hlast
        exact (Bool.and_eq_false_iff.mpr (.inr h.narrow)).trans (by simp)
      · have hj' : ¬j < 40 := by omega
        simp [hj, hj']
  rw [← ht, virtToPhys_table, ← haddr]
  rfl

theorem Entry.Refers.present (h : e.Refers t) : e.present = true :=
  (Entry.child_eq_some_iff.mp h.child).1.1

/-- A lookup whose last entry refers to a table. -/
theorem Shows.of_seek (hva : Canonical va) (hpage : va % 4096 = 0)
    (hseek : seek Entry.child tables root (vaPath va) = some (0, e)) (h : e.Refers t) :
    Shows tables root va t := by
  refine ⟨hva, Entry.translation va (0, e), ?_, ?_⟩
  · rw [translate, leafAt, hseek, Option.filter_some, if_pos h.present]
    rfl
  · have hoff : va % 2 ^ (12 + 9 * 0) = 0 := hpage
    rw [Entry.translation, hoff, Nat.add_zero, h.frame]

/-- A step of `walk` through an entry that refers to a table. -/
theorem walkFrom_refers {level : Nat} (h : (k.tables root (va2Index va (level + 1))).Refers t) :
    k.walkFrom va false (level + 1) root = k.walkFrom va false level t := by
  obtain ⟨⟨hpresent, hlarge⟩, htable⟩ := Entry.child_eq_some_iff.mp h.child
  rw [Kmem.walkFrom]
  simp only [hpresent, hlarge, if_true, Bool.false_eq_true, if_false, htable]

/-- **The two ways to a table agree.** The tables that `walk` reaches through the entries `i`, `j` and
`l` are the pages that the addresses of the recursive slot are mapped to. -/
theorem recursive_windows (hself : (k.tables root pml4RecurseEntry).Refers root) :
    (∀ i t₁, i < 512 → (k.tables root i).Refers t₁ →
      Shows k.tables root (pdptVa i) t₁ ∧
        ∀ va, va2Index va 3 = i → k.walk root va false = k.walkFrom va false 2 t₁) ∧
    (∀ i j t₁ t₂, i < 512 → j < 512 → (k.tables root i).Refers t₁ → (k.tables t₁ j).Refers t₂ →
      Shows k.tables root (pdVa i j) t₂ ∧
        ∀ va, va2Index va 3 = i → va2Index va 2 = j →
          k.walk root va false = k.walkFrom va false 1 t₂) ∧
    (∀ i j l t₁ t₂ t₃, i < 512 → j < 512 → l < 512 → (k.tables root i).Refers t₁ →
      (k.tables t₁ j).Refers t₂ → (k.tables t₂ l).Refers t₃ →
      Shows k.tables root (ptVa i j l) t₃ ∧
        ∀ va, va2Index va 3 = i → va2Index va 2 = j → va2Index va 1 = l →
          k.walk root va false = (k, some (t₃, va2Index va 0))) ∧
    ∀ a b c d off, a < 512 → b < 512 → c < 512 → d < 512 → off < 4096 →
      va2Index (getVa a b c d off) 3 = a ∧ va2Index (getVa a b c d off) 2 = b ∧
        va2Index (getVa a b c d off) 1 = c ∧ va2Index (getVa a b c d off) 0 = d := by
  have hr : pml4RecurseEntry < 512 := by decide
  have hpath : ∀ {a b c d : Nat}, a < 512 → b < 512 → c < 512 → d < 512 →
      vaPath (getVa a b c d 0) = [a, b, c, d] := fun ha hb hc hd => by
    obtain ⟨h₃, h₂, h₁, h₀⟩ := va2Index_getVa ha hb hc hd (show 0 < 4096 by decide)
    rw [vaPath, h₃, h₂, h₁, h₀]
  refine ⟨fun i t₁ hi h₁ => ⟨?_, fun va hva => ?_⟩, fun i j t₁ t₂ hi hj h₁ h₂ => ⟨?_, fun va hva hva' => ?_⟩,
    fun i j l t₁ t₂ t₃ hi hj hl h₁ h₂ h₃ => ⟨?_, fun va hva hva' hva'' => ?_⟩,
    fun a b c d off ha hb hc hd hoff => va2Index_getVa ha hb hc hd hoff⟩
  · refine .of_seek (canonical_getVa hr hr hr hi (by decide)) (getVa_mod hr hr hr hi) ?_ h₁
    rw [pdptVa, hpath hr hr hr hi, seek_cons hself.child, seek_cons hself.child,
      seek_cons hself.child, seek_singleton]
  · exact walkFrom_refers (hva ▸ h₁)
  · refine .of_seek (canonical_getVa hr hr hi hj (by decide)) (getVa_mod hr hr hi hj) ?_ h₂
    rw [pdVa, hpath hr hr hi hj, seek_cons hself.child, seek_cons hself.child, seek_cons h₁.child,
      seek_singleton]
  · exact (walkFrom_refers (hva ▸ h₁)).trans (walkFrom_refers (hva' ▸ h₂))
  · refine .of_seek (canonical_getVa hr hi hj hl (by decide)) (getVa_mod hr hi hj hl) ?_ h₃
    rw [ptVa, hpath hr hi hj hl, seek_cons hself.child, seek_cons h₁.child, seek_cons h₂.child,
      seek_singleton]
  · exact ((walkFrom_refers (hva ▸ h₁)).trans (walkFrom_refers (hva' ▸ h₂))).trans
      (walkFrom_refers (hva'' ▸ h₃))

end Windows

/-- A PML4 at the physical address 0x1000, with its recursive slot and the entry `e` at 0. -/
def onePml4 (e : Entry) : Kmem where
  free := []
  nxFlagEnabled := true
  tables := fun _ i => if i = pml4RecurseEntry then Entry.ofTable 0x1000 else if i = 0 then e else ⟨0⟩
  areas := fun _ => ⟨0, 0, 0, 0, 0, 0⟩
  containerNext := fun _ => 0

/-- The PDPT at the physical address 0x2000 is seen through the slot. -/
theorem recursive_windows_one :
    Shows (onePml4 (Entry.ofTable 0x2000)).tables (physToVirt 0x1000) (pdptVa 0) (physToVirt 0x2000) :=
  ((recursive_windows (k := onePml4 (Entry.ofTable 0x2000)) (by decide)).1 0 _ (by decide)
    (by decide)).1

/-- With bit 51 set in its entry, the table that `walk` reaches is not at the page that the slot
shows. -/
theorem slot_misses_wide_entry : ¬∀ (k : Kmem) root i t,
    (k.tables root pml4RecurseEntry).child = some root → i < 512 → i ≠ pml4RecurseEntry →
      (k.tables root i).child = some t → Shows k.tables root (pdptVa i) t := by
  intro h
  obtain ⟨-, tr, htr, hpa⟩ := h (onePml4 ⟨0x8000000002003⟩) (physToVirt 0x1000) 0 (physToVirt 0x2000)
    (by decide) (by decide) (by decide) (by decide)
  have htranslate : translate (onePml4 ⟨0x8000000002003⟩).tables (physToVirt 0x1000) (pdptVa 0) =
      some ⟨0x8000000002000, true, false, false⟩ := by decide
  obtain rfl := Option.some.inj (htranslate.symm.trans htr)
  exact absurd hpa (by decide)

end Colibri.Memory

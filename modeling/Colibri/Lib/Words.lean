import Colibri.Lib.Mem

/-!
# Words in memory

`m.HasWords a ws` says that the 64-bit words `ws` are in memory from `a` on. A stack that grows down
is such a list with its top first: a push puts a word in front, and nothing below the stack pointer
is part of it.
-/

namespace Colibri.Lib.Mem

/-- These 64-bit words are at `a`, one after the other. -/
def HasWords (m : Mem) (a : Nat) : List (BitVec 64) → Prop
  | [] => True
  | w :: ws => m.load a 8 = w.toNat ∧ m.HasWords (a + 8) ws

variable {m m' : Mem} {a : Nat} {w : BitVec 64} {ws ws' : List (BitVec 64)}

/-- A word is the value of its eight bytes. -/
theorem ofNat_load_of_eq (h : m.load a 8 = w.toNat) : BitVec.ofNat 64 (m.load a 8) = w := by
  rw [h, BitVec.ofNat_toNat, BitVec.setWidth_eq]

theorem load_store_word : (m.store a 8 w.toNat).load a 8 = w.toNat := by
  rw [load_store]
  exact Nat.mod_eq_of_lt w.isLt

theorem HasWords.head (h : m.HasWords a (w :: ws)) : m.load a 8 = w.toNat := h.1

theorem HasWords.tail (h : m.HasWords a (w :: ws)) : m.HasWords (a + 8) ws := h.2

theorem HasWords.congr (h : m.HasWords a ws)
    (hm : ∀ i, a ≤ i → i < a + 8 * ws.length → m' i = m i) : m'.HasWords a ws := by
  induction ws generalizing a with
  | nil => trivial
  | cons w ws ih =>
    rw [List.length_cons] at hm
    refine ⟨(load_congr fun i hi hi' => hm i hi (by omega)).trans h.1, ih h.2 fun i hi hi' => ?_⟩
    exact hm i (by omega) (by omega)

/-- **A push** puts a word in front. -/
theorem HasWords.push (h : m.HasWords (a + 8) ws) : (m.store a 8 w.toNat).HasWords a (w :: ws) :=
  ⟨load_store_word, h.congr fun _ hi _ => store_of_notMem (.inr hi)⟩

/-- The memory with these words at `a`. -/
def storeWords (m : Mem) (a : Nat) : List (BitVec 64) → Mem
  | [] => m
  | w :: ws => (m.storeWords (a + 8) ws).store a 8 w.toNat

theorem hasWords_storeWords : (m.storeWords a ws).HasWords a ws := by
  induction ws generalizing a with
  | nil => trivial
  | cons w ws ih => exact ih.push

theorem HasWords.append_iff :
    m.HasWords a (ws ++ ws') ↔ m.HasWords a ws ∧ m.HasWords (a + 8 * ws.length) ws' := by
  induction ws generalizing a with
  | nil => simp [HasWords]
  | cons w ws ih =>
    have hlen : a + 8 + 8 * ws.length = a + 8 * (w :: ws).length := by
      rw [List.length_cons]
      omega
    rw [List.cons_append, HasWords, HasWords, ih, and_assoc, hlen]

/-- The word at an index. -/
theorem HasWords.load_getElem (h : m.HasWords a ws) {i : Nat} (hi : i < ws.length) :
    m.load (a + 8 * i) 8 = ws[i].toNat := by
  induction ws generalizing a i with
  | nil => exact absurd hi (Nat.not_lt_zero i)
  | cons w ws ih =>
    cases i with
    | zero => exact h.1
    | succ i =>
      have hrest := ih h.2 (Nat.lt_of_succ_lt_succ hi)
      rwa [Nat.add_assoc, Nat.add_comm 8] at hrest

/-- Memory holds one list of words of each length. -/
theorem HasWords.eq (h : m.HasWords a ws) (h' : m.HasWords a ws') (hlen : ws.length = ws'.length) :
    ws = ws' := by
  induction ws generalizing a ws' with
  | nil => exact (List.length_eq_zero_iff.mp hlen.symm).symm
  | cons w ws ih =>
    cases ws' with
    | nil => exact absurd hlen (Nat.succ_ne_zero _)
    | cons w' ws' =>
      have hw : w = w' := BitVec.eq_of_toNat_eq (h.1.symm.trans h'.1)
      rw [hw, ih h.2 h'.2 (Nat.succ.inj hlen)]

end Colibri.Lib.Mem

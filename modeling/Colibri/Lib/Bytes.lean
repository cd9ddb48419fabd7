import Colibri.Lib.Mem

/-!
# Bytes and strings in memory

`m.write a l` is the memory with the bytes `l` at `a`. A C string (`IsString`) is followed by a zero
and has none in it.
-/

namespace Colibri.Lib.Mem

/-- The memory with these bytes at `a`. -/
def write (m : Mem) (a : Nat) : List (BitVec 8) → Mem
  | [] => m
  | c :: l => write (Function.update m a c) (a + 1) l

/-- These bytes are at `a`. -/
def HasBytes (m : Mem) (a : Nat) (l : List (BitVec 8)) : Prop :=
  ∀ i, (h : i < l.length) → m (a + i) = l[i]

/-- The string `s` is at `a`, with its zero. -/
structure IsString (m : Mem) (a : Nat) (s : List (BitVec 8)) : Prop where
  bytes : m.HasBytes a s
  ends : m (a + s.length) = 0
  inner : ∀ c ∈ s, c ≠ 0

variable {m m' : Mem} {a b i : Nat} {c : BitVec 8} {l l₁ l₂ s : List (BitVec 8)}

theorem write_of_notMem (h : i < a ∨ a + l.length ≤ i) : m.write a l i = m i := by
  induction l generalizing m a with
  | nil => rfl
  | cons c l ih =>
    rw [List.length_cons] at h
    rw [write, ih (by omega), Function.update_of_ne (by omega)]

theorem hasBytes_write : (m.write a l).HasBytes a l := by
  intro i hi
  induction l generalizing m a i with
  | nil => exact absurd hi (Nat.not_lt_zero i)
  | cons c l ih =>
    rw [write]
    cases i with
    | zero => rw [write_of_notMem (.inl (by omega)), Nat.add_zero, Function.update_self]; rfl
    | succ i =>
      have hrest := ih (m := Function.update m a c) (a := a + 1) i (Nat.lt_of_succ_lt_succ hi)
      rwa [Nat.add_assoc, Nat.add_comm 1] at hrest

theorem write_append : m.write a (l₁ ++ l₂) = (m.write a l₁).write (a + l₁.length) l₂ := by
  induction l₁ generalizing m a with
  | nil => rfl
  | cons c l₁ ih => rw [List.cons_append, write, ih, write, List.length_cons, Nat.add_assoc,
      Nat.add_comm 1]

/-- One more byte behind those written. -/
theorem update_write : Function.update (m.write a l) (a + l.length) c = m.write a (l ++ [c]) := by
  rw [write_append]
  rfl

/-- A byte of what was written, or one that was there. -/
theorem write_apply : m.write a l i = if h : a ≤ i ∧ i < a + l.length then l[i - a] else m i := by
  split
  case isTrue h =>
    have hbyte := hasBytes_write (m := m) (a := a) (l := l) (i - a) (by omega)
    rwa [Nat.add_sub_cancel' h.1] at hbyte
  case isFalse h => exact write_of_notMem (by omega)

theorem HasBytes.congr (h : m.HasBytes a l)
    (hm : ∀ i, a ≤ i → i < a + l.length → m' i = m i) : m'.HasBytes a l :=
  fun i hi => (hm (a + i) (Nat.le_add_right a i) (Nat.add_lt_add_left hi a)).trans (h i hi)

theorem IsString.congr (h : m.IsString a s)
    (hm : ∀ i, a ≤ i → i < a + s.length + 1 → m' i = m i) : m'.IsString a s where
  bytes := h.bytes.congr fun i hi hi' => hm i hi (by omega)
  ends := (hm _ (by omega) (by omega)).trans h.ends
  inner := h.inner

theorem HasBytes.append_iff :
    m.HasBytes a (l₁ ++ l₂) ↔ m.HasBytes a l₁ ∧ m.HasBytes (a + l₁.length) l₂ := by
  constructor
  · intro h
    refine ⟨fun i hi => ?_, fun i hi => ?_⟩
    · rw [h i (by rw [List.length_append]; omega), List.getElem_append_left hi]
    · rw [Nat.add_assoc, h (l₁.length + i) (by rw [List.length_append]; omega),
        List.getElem_append_right (by omega)]
      simp only [Nat.add_sub_cancel_left]
  · rintro ⟨h₁, h₂⟩ i hi
    rw [List.length_append] at hi
    rcases Nat.lt_or_ge i l₁.length with h | h
    · rw [List.getElem_append_left h, h₁ i h]
    · rw [List.getElem_append_right h, ← h₂ (i - l₁.length) (by omega)]
      congr 1
      omega

/-- The end of a string is one. -/
theorem IsString.drop (h : m.IsString a (l₁ ++ l₂)) : m.IsString (a + l₁.length) l₂ where
  bytes := (HasBytes.append_iff.mp h.bytes).2
  ends := by
    have hends := h.ends
    rwa [List.length_append, ← Nat.add_assoc] at hends
  inner c hc := h.inner c (List.mem_append_right l₁ hc)

end Colibri.Lib.Mem

import Mathlib.Data.Nat.Digits.Lemmas

/-!
# Numerals

`numeral char b n` is `n` in base `b`, the most significant digit first, with `char v` for the digit
`v`; `readNumeral` reads it back. A numeral has no superfluous zeros in front, and there is only one
for each number if the characters of the digits differ.
-/

namespace Colibri.Lib

/-- The digits of `n`, the least significant first. Zero has one. -/
def digitsOf (b n : Nat) : List Nat := if n = 0 then [0] else Nat.digits b n

/-- `n` in base `b`. -/
def numeral {γ : Type*} (char : Nat → γ) (b n : Nat) : List γ := (digitsOf b n).reverse.map char

section Read

variable {γ : Type*} [DecidableEq γ] (char : Nat → γ) (b : Nat)

/-- The digit that is written as `c`. -/
def digitOf (c : γ) : Option Nat := (List.range b).find? fun v => decide (char v = c)

/-- The number read, where `acc` has been read already. -/
def readFrom : Nat → List γ → Option Nat
  | acc, [] => some acc
  | acc, c :: s => (digitOf char b c).bind fun v => readFrom (v + b * acc) s

/-- The number that a numeral stands for. -/
def readNumeral (s : List γ) : Option Nat := if s = [] then none else readFrom char b 0 s

end Read

/-! ## Digits -/

section Digits

variable {b n k : Nat}

/-- The last digit and the digits of the quotient. -/
theorem digitsOf_eq (hb : 2 ≤ b) :
    digitsOf b n = n % b :: if n / b = 0 then [] else digitsOf b (n / b) := by
  rw [digitsOf]
  by_cases hn : n = 0
  · simp [hn]
  · rw [if_neg hn, Nat.digits_def' hb (Nat.pos_of_ne_zero hn)]
    split
    case isTrue hq => rw [hq, Nat.digits_zero]
    case isFalse hq => rw [digitsOf, if_neg hq]

theorem digitsOf_ne_nil : digitsOf b n ≠ [] := by
  rw [digitsOf]
  split
  case isTrue => exact List.cons_ne_nil _ _
  case isFalse hn => exact Nat.digits_ne_nil_iff_ne_zero.mpr hn

theorem digitsOf_lt (hb : 2 ≤ b) : ∀ v ∈ digitsOf b n, v < b := by
  intro v hv
  rw [digitsOf] at hv
  split at hv
  case isTrue =>
    rw [List.mem_singleton.mp hv]
    omega
  case isFalse => exact Nat.digits_lt_base hb hv

theorem ofDigits_digitsOf : Nat.ofDigits b (digitsOf b n) = n := by
  rw [digitsOf]
  split
  case isTrue hn => simp [hn, Nat.ofDigits]
  case isFalse => exact Nat.ofDigits_digits b n

/-- A number below `b ^ k` has at most `k` digits. -/
theorem length_digitsOf_le (hb : 2 ≤ b) (hk : 0 < k) (h : n < b ^ k) :
    (digitsOf b n).length ≤ k := by
  rw [digitsOf]
  split
  case isTrue => exact hk
  case isFalse => exact (Nat.digits_length_le_iff hb n).mpr h

/-- Digits with no zero in front are those of their number. -/
theorem digitsOf_ofDigits {l : List Nat} (hb : 2 ≤ b) (hl : ∀ v ∈ l, v < b) (hne : l ≠ [])
    (hlast : l.getLast hne ≠ 0) : digitsOf b (Nat.ofDigits b l) = l := by
  have hdigits := Nat.digits_ofDigits b hb l hl fun _ => hlast
  have hpos : Nat.ofDigits b l ≠ 0 := by
    rw [← Nat.digits_ne_nil_iff_ne_zero (b := b), hdigits]
    exact hne
  rw [digitsOf, if_neg hpos, hdigits]

/-- A numeral is that of zero or has no zero in front. -/
theorem numeral_head {γ : Type*} {char : Nat → γ} (hb : 2 ≤ b) (hinj : Set.InjOn char {v | v < b}) :
    numeral char b n = [char 0] ∨ (numeral char b n).head? ≠ some (char 0) := by
  by_cases hn : n = 0
  · exact .inl (by simp [numeral, digitsOf, hn])
  · refine .inr ?_
    have hne := Nat.digits_ne_nil_iff_ne_zero (b := b).mpr hn
    rw [numeral, digitsOf, if_neg hn, List.head?_map, List.head?_reverse,
      List.getLast?_eq_getLast_of_ne_nil hne, Option.map_some]
    intro he
    have hlast := Nat.digits_lt_base hb (List.getLast_mem hne)
    exact Nat.getLast_digit_ne_zero b hn (hinj hlast (Nat.zero_lt_of_lt hb) (Option.some.inj he))

end Digits

/-! ## Reading -/

section Reading

variable {γ : Type*} [DecidableEq γ] {char : Nat → γ} {b n v acc : Nat} {c : γ} {s : List γ}

theorem digitOf_char (hinj : Set.InjOn char {v | v < b}) (hv : v < b) :
    digitOf char b (char v) = some v := by
  rw [digitOf, List.find?_range_eq_some]
  refine ⟨decide_eq_true rfl, List.mem_range.mpr hv, fun w hw => ?_⟩
  have hne : char w ≠ char v := fun he => Nat.ne_of_lt hw (hinj (Nat.lt_trans hw hv) hv he)
  simpa using hne

theorem of_digitOf (h : digitOf char b c = some v) : v < b ∧ c = char v := by
  rw [digitOf, List.find?_range_eq_some] at h
  exact ⟨List.mem_range.mp h.2.1, (of_decide_eq_true h.1).symm⟩

/-- The characters of digits are read as these digits. -/
theorem readFrom_map (hinj : Set.InjOn char {v | v < b}) {l : List Nat} (hl : ∀ v ∈ l, v < b) :
    readFrom char b acc (l.map char) = some (l.foldl (fun acc v => v + b * acc) acc) := by
  induction l generalizing acc with
  | nil => rfl
  | cons v l ih =>
    obtain ⟨hv, hrest⟩ := List.forall_mem_cons.mp hl
    rw [List.map_cons, readFrom, digitOf_char hinj hv, Option.bind_some, ih hrest,
      List.foldl_cons]

/-- What can be read are the characters of digits. -/
theorem of_readFrom (h : readFrom char b acc s = some n) :
    ∃ l : List Nat, (∀ v ∈ l, v < b) ∧ s = l.map char ∧
      n = l.foldl (fun acc v => v + b * acc) acc := by
  induction s generalizing acc with
  | nil => exact ⟨[], by simp, rfl, (Option.some.inj h).symm⟩
  | cons c s ih =>
    obtain ⟨v, hv, hrest⟩ := Option.bind_eq_some_iff.mp h
    obtain ⟨hlt, rfl⟩ := of_digitOf hv
    obtain ⟨l, hl, rfl, hn⟩ := ih hrest
    exact ⟨v :: l, List.forall_mem_cons.mpr ⟨hlt, hl⟩, rfl, hn⟩

theorem foldl_eq_ofDigits (l : List Nat) :
    l.foldl (fun acc v => v + b * acc) 0 = Nat.ofDigits b l.reverse := by
  rw [Nat.ofDigits_eq_foldr, List.foldr_reverse]
  rfl

/-- **A numeral is read back.** -/
theorem readNumeral_numeral (hb : 2 ≤ b) (hinj : Set.InjOn char {v | v < b}) :
    readNumeral char b (numeral char b n) = some n := by
  have hne : numeral char b n ≠ [] := by simpa [numeral] using digitsOf_ne_nil
  have hl : ∀ v ∈ (digitsOf b n).reverse, v < b :=
    fun v hv => digitsOf_lt hb v (List.mem_reverse.mp hv)
  rw [readNumeral, if_neg hne, numeral, readFrom_map hinj hl, foldl_eq_ofDigits, List.reverse_reverse,
    ofDigits_digitsOf]

/-- **There is no other numeral** for a number. -/
theorem numeral_unique (hb : 2 ≤ b) (hinj : Set.InjOn char {v | v < b})
    (hs : readNumeral char b s = some n) (hz : s = [char 0] ∨ s.head? ≠ some (char 0)) :
    s = numeral char b n := by
  rw [readNumeral] at hs
  split at hs
  case isTrue => exact nomatch hs
  case isFalse hne =>
    obtain ⟨l, hl, rfl, hn⟩ := of_readFrom hs
    rw [foldl_eq_ofDigits] at hn
    have hne' : l ≠ [] := fun h => hne (by rw [h, List.map_nil])
    rw [numeral, hn]
    rcases hz with hzero | hhead
    · obtain ⟨v, rfl⟩ : ∃ v, l = [v] := by
        rw [← List.length_eq_one_iff, ← List.length_map (f := char), hzero, List.length_singleton]
      have hv : v = 0 := hinj (hl v List.mem_cons_self) (Nat.zero_lt_of_lt hb)
        (List.cons.inj hzero).1
      simp [hv, digitsOf]
    · have hlast : l.reverse.getLast (List.reverse_ne_nil_iff.mpr hne') ≠ 0 := by
        rw [List.getLast_reverse]
        intro h0
        refine hhead ?_
        rw [List.head?_map, List.head?_eq_some_head hne', h0, Option.map_some]
      rw [digitsOf_ofDigits hb (fun v hv => hl v (List.mem_reverse.mp hv)) _ hlast,
        List.reverse_reverse]

end Reading

end Colibri.Lib

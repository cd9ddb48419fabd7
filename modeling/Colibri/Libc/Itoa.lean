import Colibri.Lib.Bytes
import Colibri.Lib.Numeral

/-!
# `itoa` (`libc/math/itoa.c`)

The digits are written in reverse by a `do` loop and then reversed in place by two pointers. An `int`
is its 32 bits. The buffer does not wrap around the address space, so pointers into it are natural
numbers. A loop gets a bound on its turns (`fuel`) and has no result where that is too low.

## Results

* `itoa_eq`: the string that `itoa` writes, as a numeral; nothing else changes.
* `itoa_writes`: the string has no superfluous zeros, is read as the number, and no other such
  string is. For `printf` it has at most 12 bytes.
-/

namespace Colibri.Libc

open Colibri.Lib

/-- The character of a digit: `'0'` or `a - 10` and the digit, where `a` is `'A'` or `'a'`. -/
def itoaDigit (caps : Bool) (remainder : Nat) : BitVec 8 :=
  BitVec.ofNat 8 (if remainder < 10 then remainder + 48
    else remainder + (if caps then 65 else 97) - 10)

/-- The `do` loop: the memory and `p`. -/
def itoaLoop (base : Nat) (caps : Bool) : Nat → Mem → Nat → Nat → Option (Mem × Nat)
  | 0, _, _, _ => none
  | fuel + 1, m, p, ud =>
    let m := Function.update m p (itoaDigit caps (ud % base))
    if ud / base ≠ 0 then itoaLoop base caps fuel m (p + 1) (ud / base) else some (m, p + 1)

/-- The loop that reverses the buffer. -/
def reverseLoop : Nat → Mem → Nat → Nat → Option Mem
  | 0, _, _, _ => none
  | fuel + 1, m, p1, p2 =>
    if p1 < p2 then
      let tmp := m p1
      let m := Function.update m p1 (m p2)
      reverseLoop fuel (Function.update m p2 tmp) (p1 + 1) (p2 - 1)
    else some m

/-- `itoa`. -/
def itoa (fuel : Nat) (m : Mem) (buf base : Nat) (d : BitVec 32) (caps : Bool) : Option Mem :=
  let negative := base = 10 ∧ d.slt 0
  let ud := if negative then (-d).toNat else d.toNat
  let p := if negative then buf + 1 else buf
  let m := if negative then Function.update m buf 45 else m
  (itoaLoop base caps fuel m p ud).bind fun r =>
    reverseLoop fuel (Function.update r.1 r.2 0) p (r.2 - 1)

/-! ## What the string is to be -/

/-- The string of `itoa`. -/
def itoaString (base : Nat) (d : BitVec 32) (caps : Bool) : List (BitVec 8) :=
  if base = 10 ∧ d.slt 0 then 45 :: numeral (itoaDigit caps) 10 (-d).toNat
  else numeral (itoaDigit caps) base d.toNat

/-- The number to be written: signed in base 10 only. -/
def itoaNumber (base : Nat) (d : BitVec 32) : Int := if base = 10 then d.toInt else d.toNat

/-- The number that a string stands for: a minus sign is one in base 10 only. -/
def parseInt (base : Nat) (caps : Bool) : List (BitVec 8) → Option Int
  | [] => none
  | c :: s =>
    if base = 10 ∧ c = 45 then (readNumeral (itoaDigit caps) base s).map fun n : Nat => -(n : Int)
    else (readNumeral (itoaDigit caps) base (c :: s)).map fun n : Nat => (n : Int)

/-- There is no zero in front, but for the number zero itself. -/
def NoExtraZero (s : List (BitVec 8)) : Prop :=
  s = [48] ∨ s.head? ≠ some 48 ∧ ∀ t, s = 45 :: t → t.head? ≠ some 48

/-- The memory `m'` is `m` with the number written at `buf`: as one string, which stands for the
number and is the only one without superfluous zeros that does. -/
structure ItoaWrites (m m' : Mem) (buf base : Nat) (d : BitVec 32) (caps : Bool)
    (s : List (BitVec 8)) : Prop where
  string : m'.IsString buf s
  parse : parseInt base caps s = some (itoaNumber base d)
  zeros : NoExtraZero s
  unique : ∀ t, parseInt base caps t = some (itoaNumber base d) → NoExtraZero t → t = s
  short : base = 8 ∨ base = 10 ∨ base = 16 → s.length + 1 ≤ 12
  frame : ∀ i, i < buf ∨ buf + (s.length + 1) ≤ i → m' i = m i

/-! ## The loops -/

section Loop

variable {m : Mem} {base fuel p p1 p2 ud : Nat} {caps : Bool}

/-- The `do` loop writes the digits, the least significant first. -/
theorem itoaLoop_eq (hb : 2 ≤ base) (hf : (digitsOf base ud).length ≤ fuel) :
    itoaLoop base caps fuel m p ud =
      some (m.write p ((digitsOf base ud).map (itoaDigit caps)), p + (digitsOf base ud).length) := by
  induction fuel generalizing m p ud with
  | zero =>
    have hnil := List.length_eq_zero_iff.mp (Nat.le_zero.mp hf)
    exact absurd hnil digitsOf_ne_nil
  | succ fuel ih =>
    rw [digitsOf_eq hb] at hf ⊢
    rw [itoaLoop]
    by_cases hq : ud / base = 0
    · rw [if_neg (not_not.mpr hq), if_pos hq]
      rfl
    · rw [if_neg hq, List.length_cons] at hf
      rw [if_pos hq, if_neg hq, ih (by omega), List.map_cons, Mem.write, List.length_cons,
        Nat.add_right_comm, Nat.add_assoc]

/-- The second loop mirrors the bytes from `p1` to `p2`. -/
theorem reverseLoop_eq (hf : p2 ≤ p1 + 2 * fuel) :
    reverseLoop (fuel + 1) m p1 p2 =
      some fun i => if p1 ≤ i ∧ i ≤ p2 then m (p1 + p2 - i) else m i := by
  -- at most one byte is left, which is its own mirror
  have hend : ∀ {m : Mem} {p1 p2 : Nat}, p2 ≤ p1 →
      m = fun i => if p1 ≤ i ∧ i ≤ p2 then m (p1 + p2 - i) else m i := by
    intro m p1 p2 hle
    funext i
    split
    case isTrue h =>
      congr 1
      omega
    case isFalse => rfl
  induction fuel generalizing m p1 p2 with
  | zero =>
    rw [reverseLoop, if_neg (by omega)]
    exact congrArg some (hend (by omega))
  | succ fuel ih =>
    rw [reverseLoop]
    split
    case isTrue hlt =>
      rw [ih (by omega), Option.some.injEq]
      funext i
      -- the two ends have been exchanged, and what is left is inside
      by_cases h1 : i = p1
      · rw [if_neg (by omega), if_pos (by omega), Function.update_of_ne (by omega), h1,
          Function.update_self]
        congr 1
        omega
      · by_cases h2 : i = p2
        · rw [if_neg (by omega), if_pos (by omega), h2, Function.update_self]
          congr 1
          omega
        · by_cases hin : p1 ≤ i ∧ i ≤ p2
          · rw [if_pos (by omega), if_pos hin, Function.update_of_ne (by omega),
              Function.update_of_ne (by omega)]
            congr 1
            omega
          · rw [if_neg (by omega), if_neg hin, Function.update_of_ne h2, Function.update_of_ne h1]
    case isFalse hle => exact congrArg some (hend (Nat.le_of_not_lt hle))

/-- On bytes just written, that is their reverse. -/
theorem reverseLoop_write {l : List (BitVec 8)} (hne : l ≠ []) (hf : l.length ≤ 2 * fuel) :
    reverseLoop (fuel + 1) (m.write p (l ++ [0])) p (p + l.length - 1) =
      some (m.write p (l.reverse ++ [0])) := by
  have hpos := List.length_pos_iff.mpr hne
  rw [reverseLoop_eq (by omega), Option.some.injEq]
  funext i
  rw [Mem.write_apply, Mem.write_apply, Mem.write_apply]
  simp only [List.length_append, List.length_reverse, List.length_singleton]
  by_cases hin : p ≤ i ∧ i < p + l.length
  · rw [if_pos (by omega), dif_pos (by omega), dif_pos (by omega),
      List.getElem_append_left (by omega), List.getElem_append_left (by simp; omega),
      List.getElem_reverse]
    congr 1
    omega
  · rw [if_neg (by omega)]
    split
    case isTrue h =>
      rw [List.getElem_append_right (by omega), List.getElem_append_right (by simp; omega)]
      simp
    case isFalse => rfl

end Loop

/-! ## The digits -/

section Digit

variable {caps : Bool} {base v : Nat}

theorem toNat_itoaDigit (hv : v < 36) :
    (itoaDigit caps v).toNat = if v < 10 then v + 48 else v + (if caps then 65 else 97) - 10 := by
  rw [itoaDigit, BitVec.toNat_ofNat]
  refine Nat.mod_eq_of_lt ?_
  cases caps <;> simp <;> split <;> omega

/-- Digits differ in their characters. -/
theorem itoaDigit_injOn (caps : Bool) (hb : base ≤ 36) : Set.InjOn (itoaDigit caps) {v | v < base} := by
  intro v hv w hw h
  have hv' : v < 36 := Nat.lt_of_lt_of_le hv hb
  have hw' : w < 36 := Nat.lt_of_lt_of_le hw hb
  have hnat := congrArg BitVec.toNat h
  rw [toNat_itoaDigit hv', toNat_itoaDigit hw'] at hnat
  cases caps <;> simp at hnat <;> split at hnat <;> split at hnat <;> omega

/-- No digit is written as the zero byte, nor as a minus sign. -/
theorem itoaDigit_gt (hv : v < 36) : 45 < (itoaDigit caps v).toNat := by
  rw [toNat_itoaDigit hv]
  cases caps <;> simp <;> split <;> omega

/-- The characters of a numeral. -/
theorem numeral_gt {n : Nat} (caps : Bool) (hb : 2 ≤ base) (hb' : base ≤ 36) :
    ∀ c ∈ numeral (itoaDigit caps) base n, 45 < c.toNat := by
  intro c hc
  obtain ⟨v, hv, rfl⟩ := List.mem_map.mp hc
  exact itoaDigit_gt (Nat.lt_of_lt_of_le (digitsOf_lt hb v (List.mem_reverse.mp hv)) hb')

end Digit

/-! ## The function -/

section Itoa

variable {m : Mem} {base fuel buf n : Nat} {d : BitVec 32} {caps : Bool} {s t : List (BitVec 8)}

/-- A 32-bit number has at most 32 digits. -/
theorem length_digitsOf_le_32 (hb : 2 ≤ base) (hn : n < 2 ^ 32) : (digitsOf base n).length ≤ 32 :=
  length_digitsOf_le hb (by decide) (Nat.lt_of_lt_of_le hn (Nat.pow_le_pow_left hb 32))

/-- Both loops together. -/
theorem itoa_loops (caps : Bool) (hb : 2 ≤ base) (hn : n < 2 ^ 32) (hf : 32 < fuel) (m : Mem) (p : Nat) :
    ((itoaLoop base caps fuel m p n).bind fun r =>
      reverseLoop fuel (Function.update r.1 r.2 0) p (r.2 - 1)) =
        some (m.write p (numeral (itoaDigit caps) base n ++ [0])) := by
  have hlen := length_digitsOf_le_32 hb hn
  have hmap : ((digitsOf base n).map (itoaDigit caps)).length = (digitsOf base n).length :=
    List.length_map _
  obtain ⟨fuel, rfl⟩ := Nat.exists_eq_succ_of_ne_zero (Nat.ne_of_gt (Nat.zero_lt_of_lt hf))
  rw [itoaLoop_eq hb (by omega), Option.bind_some]
  simp only
  rw [← hmap, Mem.update_write, reverseLoop_write (by simpa using digitsOf_ne_nil) (by omega), numeral,
    List.map_reverse]

/-- **What `itoa` does**: it writes its string and the zero behind it. -/
theorem itoa_eq (hb : 2 ≤ base) (hf : 32 < fuel) :
    itoa fuel m buf base d caps = some (m.write buf (itoaString base d caps ++ [0])) := by
  rw [itoa, itoaString]
  by_cases hneg : base = 10 ∧ d.slt 0
  · have hloops := itoa_loops caps hb (-d).isLt hf (Function.update m buf 45) (buf + 1)
    simp only [if_pos hneg]
    rw [hloops, hneg.1]
    rfl
  · simp only [if_neg hneg]
    exact itoa_loops caps hb d.isLt hf m buf

/-- The number whose numeral `itoa` writes. -/
theorem itoaNumber_eq : itoaNumber base d =
    if base = 10 ∧ d.slt 0 then -((-d).toNat : Int) else (d.toNat : Int) := by
  have hlt := d.isLt
  have hslt : d.slt 0 = true ↔ d.toInt < 0 := by simp [BitVec.slt]
  rw [itoaNumber]
  by_cases hb : base = 10
  · rw [if_pos hb]
    by_cases hd : d.slt 0
    · have hneg := hslt.mp hd
      rw [if_pos ⟨hb, hd⟩, BitVec.toNat_neg]
      rw [BitVec.toInt_eq_toNat_cond] at hneg ⊢
      split at hneg
      case isTrue => omega
      case isFalse h =>
        rw [if_neg h, Nat.mod_eq_of_lt (by omega)]
        omega
    · have hpos := mt hslt.mpr hd
      rw [if_neg (fun h => hd h.2)]
      rw [BitVec.toInt_eq_toNat_cond] at hpos ⊢
      split at hpos
      case isTrue h => rw [if_pos h]
      case isFalse => omega
  · rw [if_neg hb, if_neg (fun h => hb h.1)]

theorem neg_toNat_pos (hd : d.slt 0) : 0 < (-d).toNat := by
  have hlt := d.isLt
  have hne : d ≠ 0 := fun h => by rw [h] at hd; exact absurd hd (by decide)
  have hpos : d.toNat ≠ 0 := fun h => hne (BitVec.eq_of_toNat_eq h)
  rw [BitVec.toNat_neg]
  omega

/-- Every byte of the string is a digit or a sign. -/
theorem itoaString_ne_zero (hb : 2 ≤ base) (hb' : base ≤ 36) : ∀ c ∈ itoaString base d caps, c ≠ 0 := by
  intro c hc
  rw [itoaString] at hc
  have hdigit : ∀ {base n : Nat}, 2 ≤ base → base ≤ 36 →
      c ∈ numeral (itoaDigit caps) base n → c ≠ 0 := by
    intro base n hb hb' hmem h0
    have hgt := numeral_gt caps hb hb' c hmem
    rw [h0] at hgt
    exact absurd hgt (by decide)
  split at hc
  case isTrue =>
    rcases List.mem_cons.mp hc with rfl | hmem
    · decide
    · exact hdigit (by decide) (by decide) hmem
  case isFalse => exact hdigit hb hb' hc

/-- For `printf` the string has at most eleven bytes. -/
theorem length_itoaString (caps : Bool) (h : base = 8 ∨ base = 10 ∨ base = 16) :
    (itoaString base d caps).length ≤ 11 := by
  have hlen : ∀ base {n k : Nat}, 2 ≤ base → 0 < k → n < base ^ k →
      (numeral (itoaDigit caps) base n).length ≤ k := by
    intro base n k hb hk hn
    rw [numeral, List.length_map, List.length_reverse]
    exact length_digitsOf_le hb hk hn
  have hd := d.isLt
  have hneg := (-d).isLt
  rw [itoaString]
  split
  case isTrue =>
    have hten := hlen 10 (k := 10) (by decide) (by decide) (Nat.lt_trans hneg (by decide))
    exact Nat.succ_le_succ hten
  case isFalse =>
    rcases h with rfl | rfl | rfl
    · exact hlen _ (by decide) (by decide) (Nat.lt_trans hd (by decide))
    · exact hlen _ (by decide) (by decide) (Nat.lt_trans hd (by decide))
    · exact hlen _ (by decide) (by decide) (Nat.lt_trans hd (by decide))

/-- A numeral is parsed as its number. -/
theorem parseInt_numeral (hb : 2 ≤ base) (hb' : base ≤ 36) :
    parseInt base caps (numeral (itoaDigit caps) base n) = some (n : Int) := by
  have hread := readNumeral_numeral (n := n) hb (itoaDigit_injOn caps hb')
  have hgt := numeral_gt (n := n) caps hb hb'
  generalize numeral (itoaDigit caps) base n = s at hread hgt
  cases s with
  | nil => exact nomatch hread
  | cons c s =>
    have hc : c ≠ 45 := fun h => by
      have hlt := hgt c List.mem_cons_self
      rw [h] at hlt
      exact absurd hlt (by decide)
    rw [parseInt, if_neg (fun h => hc h.2), hread]
    rfl

/-- **The string is parsed as the number.** -/
theorem parseInt_itoaString (hb : 2 ≤ base) (hb' : base ≤ 36) :
    parseInt base caps (itoaString base d caps) = some (itoaNumber base d) := by
  rw [itoaString, itoaNumber_eq]
  by_cases hneg : base = 10 ∧ d.slt 0
  · have hread := readNumeral_numeral (n := (-d).toNat) (by decide : 2 ≤ 10)
      (itoaDigit_injOn caps (by decide))
    rw [if_pos hneg, if_pos hneg, parseInt, if_pos ⟨hneg.1, rfl⟩, hneg.1, hread]
    rfl
  · rw [if_neg hneg, if_neg hneg, parseInt_numeral hb hb']

theorem itoaString_noExtraZero (hb : 2 ≤ base) (hb' : base ≤ 36) :
    NoExtraZero (itoaString base d caps) := by
  rw [itoaString]
  split
  case isTrue hneg =>
    refine .inr ⟨by simp, fun t ht => ?_⟩
    obtain rfl := (List.cons.inj ht).2
    rcases numeral_head (n := (-d).toNat) (by decide : 2 ≤ 10)
      (itoaDigit_injOn caps (by decide)) with h | h
    · -- the number is not zero
      have hread := readNumeral_numeral (n := (-d).toNat) (by decide : 2 ≤ 10)
        (itoaDigit_injOn caps (by decide))
      have hzero := readNumeral_numeral (n := 0) (by decide : 2 ≤ 10)
        (itoaDigit_injOn caps (by decide))
      have hpos := neg_toNat_pos hneg.2
      have he : numeral (itoaDigit caps) 10 0 = [itoaDigit caps 0] := rfl
      rw [h, ← he, hzero] at hread
      exact absurd (Option.some.inj hread) (Nat.ne_of_lt hpos)
    · exact h
  case isFalse =>
    rcases numeral_head (n := d.toNat) hb (itoaDigit_injOn caps hb') with h | h
    · exact .inl h
    · refine .inr ⟨h, fun t ht => ?_⟩
      have hgt := numeral_gt (n := d.toNat) caps hb hb' 45 (ht ▸ List.mem_cons_self)
      exact absurd hgt (by decide)

/-- **No other string** without superfluous zeros is parsed as the number. -/
theorem itoaString_unique (hb : 2 ≤ base) (hb' : base ≤ 36)
    (ht : parseInt base caps t = some (itoaNumber base d)) (hz : NoExtraZero t) :
    t = itoaString base d caps := by
  have hinj := itoaDigit_injOn caps hb'
  rw [itoaNumber_eq] at ht
  rw [itoaString]
  cases t with
  | nil => exact nomatch ht
  | cons c u =>
    rw [parseInt] at ht
    split at ht
    case isTrue hsign =>
      obtain ⟨hten, rfl⟩ := hsign
      obtain ⟨k, hk, hv⟩ := Option.map_eq_some_iff.mp ht
      have hhead : u.head? ≠ some 48 := by
        rcases hz with hz | hz
        · exact absurd (List.cons.inj hz).1 (by decide)
        · exact hz.2 u rfl
      have hu := numeral_unique hb hinj hk (.inr hhead)
      by_cases hneg : base = 10 ∧ d.slt 0
      · rw [if_pos hneg] at hv ⊢
        obtain rfl : k = (-d).toNat := by omega
        rw [hu, hten]
      · -- a minus sign in front of zero has a zero behind it
        rw [if_neg hneg] at hv
        obtain rfl : k = 0 := by omega
        rw [hu] at hhead
        exact absurd rfl hhead
    case isFalse hsign =>
      obtain ⟨k, hk, hv⟩ := Option.map_eq_some_iff.mp ht
      have hhead : c :: u = [itoaDigit caps 0] ∨ (c :: u).head? ≠ some (itoaDigit caps 0) :=
        hz.imp_right And.left
      have hu := numeral_unique hb hinj hk hhead
      by_cases hneg : base = 10 ∧ d.slt 0
      · have hpos := neg_toNat_pos hneg.2
        rw [if_pos hneg] at hv
        omega
      · rw [if_neg hneg] at hv ⊢
        obtain rfl : k = d.toNat := by omega
        exact hu

/-- **`itoa` writes the number**, in every base and for every number, the least included. -/
theorem itoa_writes (m : Mem) (buf base : Nat) (d : BitVec 32) (caps : Bool) (hb : 2 ≤ base)
    (hb' : base ≤ 36) :
    ∃ m' s, (∀ fuel, 32 < fuel → itoa fuel m buf base d caps = some m') ∧
      ItoaWrites m m' buf base d caps s := by
  refine ⟨_, itoaString base d caps, fun fuel hf => itoa_eq hb hf, ?_⟩
  have hbytes := Mem.HasBytes.append_iff.mp
    (Mem.hasBytes_write (m := m) (a := buf) (l := itoaString base d caps ++ [0]))
  exact
    { string := ⟨hbytes.1, hbytes.2 0 (by simp), itoaString_ne_zero hb hb'⟩
      parse := parseInt_itoaString hb hb'
      zeros := itoaString_noExtraZero hb hb'
      unique := fun t ht hz => itoaString_unique hb hb' ht hz
      short := fun h => Nat.succ_le_succ (length_itoaString caps h)
      frame := fun i hi => Mem.write_of_notMem (by simpa using hi) }

/-- The least number in base 10. -/
theorem itoa_writes_int_min : ∃ m' s,
    (∀ fuel, 32 < fuel → itoa fuel (fun _ => 0) 0 10 0x80000000 false = some m') ∧
      ItoaWrites (fun _ => 0) m' 0 10 0x80000000 false s :=
  itoa_writes (fun _ => 0) 0 10 0x80000000 false (by decide) (by decide)

end Itoa

end Colibri.Libc

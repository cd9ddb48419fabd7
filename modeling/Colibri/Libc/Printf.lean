import Colibri.Libc.Itoa
import Colibri.Libc.Str
import Mathlib.Data.List.TakeWhile

/-!
# `printf` and `vsprintf` (`libc/stdio/printf.c`)

Both are `format` with a function `dump` that takes the bytes: `print` hands them to `putchar`,
`write_to_buf` copies them to the buffer. The variable arguments are the words of the `va_list`; the
locals of `format` whose address is taken, `buf` and `c`, are at `frame`. An `int` that would pass
`INT_MAX` has no result.

`expand` is the reference: the text that a format stands for with its arguments. A conversion that
is not known makes the rest of the format text, and so does a `%` at its end.

## Results

* `formatTurn_spec`: a turn of the loop emits the expansion of what it takes off the format.
* `formatLoop_eq`: the loop emits the expansion, for every `dump` that is a sink.
* `printf_expands`: `putchar` gets the expansion and the buffer of `vsprintf` holds it, and both
  return its length.
-/

namespace Colibri.Libc

open Colibri.Lib

/-- The code of a character. -/
def ascii (c : Char) : BitVec 8 := BitVec.ofNat 8 c.toNat

/-- `INT_MAX`. -/
def intMax : Nat := 2 ^ 31 - 1

/-- `EOF`. -/
def eof : Int := -1

/-- The memory and what `putchar` has been given. -/
structure Out where
  mem : Mem
  shown : List (BitVec 8)

/-- `putchar`: it returns its argument. -/
def putchar (o : Out) (c : BitVec 8) : Out × Int := ({ o with shown := o.shown ++ [c] }, c.toNat)

/-- The functions that take the bytes: from the state, `buf`, the bytes and their number. -/
abbrev Dump := Out → Nat → Nat → Nat → Out × Bool

/-- The loop of `print`, with `n` turns left. -/
def printLoop (bytes : Nat) : Nat → Nat → Out → Out × Bool
  | 0, _, o => (o, true)
  | n + 1, i, o =>
    let r := putchar o (o.mem (bytes + i))
    if r.2 = eof then (r.1, false) else printLoop bytes n (i + 1) r.1

/-- `print`. -/
def print : Dump := fun o _ data length => printLoop data length 0 o

/-- `write_to_buf`. -/
def writeToBuf : Dump := fun o dst src len => ({ o with mem := memcpy o.mem dst src len }, true)

/-! ## `format` -/

/-- The variables of the loop of `format`. -/
structure Fmt where
  o : Out
  formats : Nat
  written : Nat
  parameters : List Nat

/-- What a turn of the loop comes to: the function returns, or the next turn. -/
inductive Turn
  | done (o : Out) (ret : Int)
  | next (s : Fmt)

/-- `buf`, 13 bytes of `format`. -/
def bufSize : Nat := 13

/-- The locals of `format`: `buf` and `c`. -/
def frameSize : Nat := 14

section Format

variable (dump : Dump) (dest frame fuel : Nat) (s : Fmt)

/-- `if (!dump(dest + written, data, n)) return -1; written += n;` and the next turn. -/
def put (data n formats : Nat) : Turn :=
  let r := dump s.o (dest + s.written) data n
  if r.2 then .next { s with o := r.1, formats, written := s.written + n } else .done r.1 (-1)

/-- The same after `if (maxrem < n) return -1;`. -/
def putChecked (data n formats : Nat) : Turn :=
  if intMax - s.written < n then .done s.o (-1) else put dump dest s data n formats

/-- `while (formats[amount] && formats[amount] != '%') amount++;`. -/
def amountLoop (m : Mem) (formats : Nat) : Nat → Nat → Option Nat
  | 0, _ => none
  | fuel + 1, amount =>
    if m (formats + amount) ≠ 0 ∧ m (formats + amount) ≠ ascii '%' then
      amountLoop m formats fuel (amount + 1)
    else some amount

/-- Text up to the next conversion. Of two `%` the second is part of it. -/
def formatText : Option Turn :=
  let formats := if s.o.mem s.formats = ascii '%' then s.formats + 1 else s.formats
  (amountLoop s.o.mem formats fuel 1).map fun amount =>
    putChecked dump dest s formats amount (formats + amount)

/-- `case 'c'`. -/
def formatChar (formats : Nat) : Option Turn :=
  match s.parameters with
  | [] => none
  | a :: parameters =>
    let mem := Function.update s.o.mem (frame + bufSize) (BitVec.ofNat 8 a)
    some (putChecked dump dest { s with o := { s.o with mem }, parameters } (frame + bufSize) 1
      formats)

/-- `case 's'`. -/
def formatStr (formats : Nat) : Option Turn :=
  match s.parameters with
  | [] => none
  | str :: parameters =>
    (strlen fuel s.o.mem str).map fun len =>
      putChecked dump dest { s with parameters } str len formats

/-- The cases of the integers. `maxrem` is not looked at. -/
def formatInt (base : Nat) (upperCase : Bool) (formats : Nat) : Option Turn :=
  match s.parameters with
  | [] => none
  | a :: parameters =>
    let mem := s.o.mem.fill frame bufSize 0
    (itoa fuel mem frame base (BitVec.ofNat 32 a) upperCase).bind fun mem =>
      (strlen fuel mem frame).bind fun len =>
        if intMax < s.written + len then none
        else some (put dump dest { s with o := { s.o with mem }, parameters } frame len formats)

/-- `default`: the rest of the format, from its `%` on. -/
def formatRest : Option Turn :=
  (strlen fuel s.o.mem s.formats).map fun len =>
    putChecked dump dest s s.formats len (s.formats + len)

/-- `base`. -/
def intBase (k : BitVec 8) : Nat :=
  if k = ascii 'd' ∨ k = ascii 'i' then 10 else if k = ascii 'o' then 8 else 16

/-- `switch (*formats)`, where `k` is `*formats`. -/
def formatConversion (k : BitVec 8) : Option Turn :=
  if k = ascii 'c' then formatChar dump dest frame s (s.formats + 2)
  else if k = ascii 's' then formatStr dump dest fuel s (s.formats + 2)
  else if k ∈ [ascii 'd', ascii 'i', ascii 'o', ascii 'x', ascii 'X'] then
    formatInt dump dest frame fuel s (intBase k) (decide (k = ascii 'X')) (s.formats + 2)
  else formatRest dump dest fuel s

/-- One turn of the loop. -/
def formatTurn : Option Turn :=
  let formats := s.formats
  if s.o.mem formats = 0 then some (.done s.o s.written)
  else if s.o.mem formats ≠ ascii '%' ∨ s.o.mem (formats + 1) = ascii '%' then
    formatText dump dest fuel s
  else formatConversion dump dest frame fuel s (s.o.mem (formats + 1))

end Format

/-- What follows a turn. -/
def Turn.andThen (loop : Fmt → Option (Out × Int)) : Turn → Option (Out × Int)
  | .done o ret => some (o, ret)
  | .next s => loop s

/-- The loop of `format`. -/
def formatLoop (dump : Dump) (dest frame : Nat) : Nat → Fmt → Option (Out × Int)
  | 0, _ => none
  | fuel + 1, s =>
    (formatTurn dump dest frame fuel s).bind (Turn.andThen (formatLoop dump dest frame fuel))

/-- `format`. -/
def format (dump : Dump) (dest frame fuel : Nat) (o : Out) (formats : Nat) (parameters : List Nat) :
    Option (Out × Int) :=
  formatLoop dump dest frame fuel { o, formats, written := 0, parameters }

/-- `printf`. -/
def printf (frame fuel : Nat) (o : Out) (formats : Nat) (parameters : List Nat) :
    Option (Out × Int) :=
  format print 0 frame fuel o formats parameters

/-- `vsprintf`. -/
def vsprintf (frame fuel : Nat) (o : Out) (str formats : Nat) (ap : List Nat) : Option (Out × Int) :=
  format writeToBuf str frame fuel o formats ap

/-! ## The reference -/

/-- An argument. -/
inductive Arg
  | int (v : BitVec 32)
  | str (t : List (BitVec 8))

/-- The conversions. -/
def conversions : List (BitVec 8) :=
  [ascii 'c', ascii 's', ascii 'd', ascii 'i', ascii 'o', ascii 'x', ascii 'X']

/-- What a conversion makes of its argument: the low byte, the string, the number in signed decimal
or in unsigned octal or hexadecimal. -/
def convert (k : BitVec 8) : Arg → Option (List (BitVec 8))
  | .str t => if k = ascii 's' then some t else none
  | .int v =>
    if k = ascii 'c' then some [v.setWidth 8]
    else if k = ascii 'd' ∨ k = ascii 'i' then some (itoaString 10 v false)
    else if k = ascii 'o' then some (itoaString 8 v false)
    else if k = ascii 'x' then some (itoaString 16 v false)
    else if k = ascii 'X' then some (itoaString 16 v true)
    else none

/-- The text of a format; `none` if the arguments do not match. -/
def expand : List (BitVec 8) → List Arg → Option (List (BitVec 8))
  | [], _ => some []
  | [c], _ => some [c]
  | c :: k :: f, args =>
    if c ≠ ascii '%' then (expand (k :: f) args).map (c :: ·)
    else if k = ascii '%' then (expand f args).map (ascii '%' :: ·)
    else if k ∈ conversions then
      (args.head?.bind (convert k)).bind fun t => (expand f args.tail).map (t ++ ·)
    else some (c :: k :: f)

/-! ## Calls -/

/-- No byte of this range is in `W`. -/
def Clear (W : Nat → Prop) (a n : Nat) : Prop := ∀ i, a ≤ i → i < a + n → ¬W i

/-- The word `a` passes the argument; the string is clear of `W`. -/
def Passed (m : Mem) (W : Nat → Prop) : Arg → Nat → Prop
  | .int v, a => BitVec.ofNat 32 a = v
  | .str t, a => m.IsString a t ∧ Clear W a (t.length + 1)

/-- The format `f` at `formats` and its arguments, clear of the bytes `W` that the call writes. -/
structure Call (m : Mem) (W : Nat → Prop) (formats : Nat) (f : List (BitVec 8)) (args : List Arg)
    (parameters : List Nat) : Prop where
  format : m.IsString formats f
  clear : Clear W formats (f.length + 1)
  passed : List.Forall₂ (Passed m W) args parameters

/-- The locals of `format`. -/
def InFrame (frame i : Nat) : Prop := frame ≤ i ∧ i < frame + frameSize

/-- The bytes of a buffer. -/
def InBuffer (str n i : Nat) : Prop := str ≤ i ∧ i < str + n

/-! ## The reference on text -/

section Expand

variable {c k : BitVec 8} {f g t e : List (BitVec 8)} {args : List Arg}

theorem expand_cons (hc : c ≠ ascii '%') : expand (c :: f) args = (expand f args).map (c :: ·) := by
  cases f with
  | nil => rfl
  | cons k f => rw [expand, if_pos hc]

/-- Text is expanded to itself. -/
theorem expand_text (ht : ∀ c ∈ t, c ≠ ascii '%') :
    expand (t ++ g) args = (expand g args).map (t ++ ·) := by
  induction t with
  | nil => simp
  | cons c t ih =>
    obtain ⟨hc, hrest⟩ := List.forall_mem_cons.mp ht
    rw [List.cons_append, expand_cons hc, ih hrest, Option.map_map]
    rfl

theorem expand_percent :
    expand (ascii '%' :: ascii '%' :: f) args = (expand f args).map (ascii '%' :: ·) := by
  rw [expand, if_neg (not_not.mpr rfl), if_pos rfl]

/-- The text in front of the next `%`. -/
def textOf (f : List (BitVec 8)) : List (BitVec 8) := f.takeWhile fun c => decide (c ≠ ascii '%')

/-- What is behind it. -/
def restOf (f : List (BitVec 8)) : List (BitVec 8) := f.dropWhile fun c => decide (c ≠ ascii '%')

theorem textOf_append_restOf (f : List (BitVec 8)) : textOf f ++ restOf f = f :=
  List.takeWhile_append_dropWhile

theorem textOf_ne : ∀ c ∈ textOf f, c ≠ ascii '%' := by
  intro c hc
  have hp := List.mem_takeWhile_imp (p := fun c => decide (c ≠ ascii '%')) hc
  exact of_decide_eq_true hp

end Expand

/-! ## The functions that take the bytes -/

/-- `dump` is a sink for bytes outside `D`: `R l o` says that `o` is the state after the bytes `l`.
It has the memory `m` outside `D` and the locals `F`, which may be changed at will. -/
structure IsSink (dump : Dump) (m : Mem) (F D : Nat → Prop) (dest total : Nat)
    (R : List (BitVec 8) → Out → Prop) : Prop where
  same : ∀ {l o}, R l o → ∀ i, ¬(F i ∨ D i) → o.mem i = m i
  emit : ∀ {l o data t}, R l o → o.mem.HasBytes data t → Clear D data t.length →
    l.length + t.length ≤ total → ∃ o', dump o (dest + l.length) data t.length = (o', true) ∧
      R (l ++ t) o'
  scratch : ∀ {l o mem}, R l o → (∀ i, ¬F i → mem i = o.mem i) → R l { o with mem }

section Sinks

variable {m : Mem} {F : Nat → Prop} {frame dest total data : Nat} {shown t : List (BitVec 8)}

theorem printLoop_eq {n i : Nat} {o : Out} (hb : o.mem.HasBytes data t) (hi : i + n = t.length) :
    printLoop data n i o = ({ o with shown := o.shown ++ t.drop i }, true) := by
  induction n generalizing i o with
  | zero => rw [printLoop, List.drop_eq_nil_of_le (show t.length ≤ i by omega), List.append_nil]
  | succ n ih =>
    have hlt : i < t.length := by omega
    have hne : (putchar o (o.mem (data + i))).2 ≠ eof := by
      rw [putchar, eof]
      omega
    rw [printLoop, if_neg hne, ih (by exact hb) (by omega), putchar, hb i hlt,
      List.drop_eq_getElem_cons hlt]
    simp

/-- The bytes `l` have been given to `putchar`. -/
def Printed (m : Mem) (F : Nat → Prop) (shown l : List (BitVec 8)) (o : Out) : Prop :=
  o.shown = shown ++ l ∧ ∀ i, ¬F i → o.mem i = m i

/-- The bytes `l` are in the buffer. -/
def Stored (m : Mem) (F : Nat → Prop) (str total : Nat) (shown l : List (BitVec 8)) (o : Out) : Prop :=
  o.shown = shown ∧ o.mem.HasBytes str l ∧ l.length ≤ total ∧
    ∀ i, ¬(F i ∨ InBuffer str total i) → o.mem i = m i

/-- `print` is a sink that writes nothing. -/
theorem isSink_print (m : Mem) (F : Nat → Prop) (dest total : Nat) (shown : List (BitVec 8)) :
    IsSink print m F (fun _ => False) dest total (Printed m F shown) where
  same h i hi := h.2 i fun hF => hi (.inl hF)
  emit {l o data t} h hb _ _ := by
    refine ⟨_, printLoop_eq hb (Nat.zero_add _), ?_, h.2⟩
    rw [h.1, List.drop_zero, List.append_assoc]
  scratch h hm := ⟨h.1, fun i hi => (hm i hi).trans (h.2 i hi)⟩

/-- `write_to_buf` is one that fills the buffer. -/
theorem isSink_writeToBuf (m : Mem) (F : Nat → Prop) (str total : Nat) (shown : List (BitVec 8))
    (hF : ∀ i, F i → ¬InBuffer str total i) :
    IsSink writeToBuf m F (InBuffer str total) str total (Stored m F str total shown) where
  same h := h.2.2.2
  emit {l o data t} h hb hclear hfit := by
    obtain ⟨hshown, hbytes, -, hsame⟩ := h
    -- the bytes come from outside the buffer
    have hdis : Mem.Disjoint (str + l.length) t.length data t.length := by
      rcases Nat.eq_zero_or_pos t.length with h0 | hpos
      · rw [h0]
        exact (Nat.le_total (str + l.length) data).imp_right id
      · by_contra hov
        rw [Mem.Disjoint, not_or] at hov
        rcases Nat.le_total data (str + l.length) with hle | hle
        · exact hclear (str + l.length) hle (by omega) ⟨by omega, by omega⟩
        · exact hclear data (Nat.le_refl _) (by omega) ⟨by omega, by omega⟩
    refine ⟨{ o with mem := o.mem.write (str + l.length) t }, ?_, hshown, ?_, ?_, ?_⟩
    · rw [writeToBuf, memcpy_eq hdis, copy_eq_write hb]
    · refine Mem.HasBytes.append_iff.mpr ⟨hbytes.congr fun i _ hi => ?_, Mem.hasBytes_write⟩
      exact Mem.write_of_notMem (.inl hi)
    · rw [List.length_append]
      exact hfit
    · intro i hi
      rw [not_or, InBuffer] at hi
      rw [← hsame i (by rw [InBuffer]; exact not_or.mpr hi)]
      exact Mem.write_of_notMem (by omega)
  scratch {l o mem} h hm := by
    obtain ⟨hshown, hbytes, hle, hsame⟩ := h
    refine ⟨hshown, hbytes.congr fun i hi hi' => ?_, hle, fun i hi => ?_⟩
    · exact hm i fun hFi => hF i hFi ⟨hi, by omega⟩
    · exact (hm i fun hFi => hi (.inl hFi)).trans (hsame i hi)

end Sinks

/-! ## A turn of the loop -/

section Turn

variable {dump : Dump} {m : Mem} {D : Nat → Prop} {R : List (BitVec 8) → Out → Prop}
  {dest frame total fuel formats data : Nat} {s : Fmt} {l f g t e : List (BitVec 8)} {c k : BitVec 8}
  {args : List Arg}

/-- Where the loop is: the bytes `l` have been emitted, and the format `f` and the arguments `args`
are left. -/
structure At (m : Mem) (W : Nat → Prop) (R : List (BitVec 8) → Out → Prop) (s : Fmt)
    (l f : List (BitVec 8)) (args : List Arg) : Prop where
  sink : R l s.o
  written : s.written = l.length
  call : Call m W s.formats f args s.parameters

/-- A string clear of what is written stays. -/
theorem IsSink.string {F : Nat → Prop} {o : Out} {a : Nat} (hs : IsSink dump m F D dest total R)
    (hR : R l o) (h : m.IsString a t) (hc : Clear (fun i => F i ∨ D i) a (t.length + 1)) :
    o.mem.IsString a t :=
  h.congr fun i hi hi' => hs.same hR i (hc i hi hi')

/-- Bytes that can be taken are emitted. -/
theorem put_eq {F : Nat → Prop} (hs : IsSink dump m F D dest total R) (hR : R l s.o)
    (hw : s.written = l.length) (hb : s.o.mem.HasBytes data t) (hc : Clear D data t.length)
    (hfit : l.length + t.length ≤ total) :
    ∃ o', R (l ++ t) o' ∧ put dump dest s data t.length formats =
      .next { s with o := o', formats, written := (l ++ t).length } := by
  obtain ⟨o', ho', hR'⟩ := hs.emit hR hb hc hfit
  refine ⟨o', hR', ?_⟩
  rw [put, hw, ho', List.length_append]
  rfl

theorem putChecked_eq {F : Nat → Prop} (hs : IsSink dump m F D dest total R) (hR : R l s.o)
    (hw : s.written = l.length) (hb : s.o.mem.HasBytes data t) (hc : Clear D data t.length)
    (hfit : l.length + t.length ≤ total) (hmax : total ≤ intMax) :
    ∃ o', R (l ++ t) o' ∧ putChecked dump dest s data t.length formats =
      .next { s with o := o', formats, written := (l ++ t).length } := by
  obtain ⟨o', hR', hput⟩ := put_eq hs hR hw hb hc hfit
  exact ⟨o', hR', by rw [putChecked, if_neg (by omega), hput]⟩

/-- The loop over the text of a format. -/
theorem amountLoop_eq (h : m.IsString formats (t ++ g)) (hf : g.length < fuel) :
    amountLoop m formats fuel t.length = some (t ++ textOf g).length := by
  induction g generalizing t fuel with
  | nil =>
    obtain ⟨fuel, rfl⟩ := Nat.exists_eq_succ_of_ne_zero (Nat.ne_of_gt hf)
    rw [List.append_nil] at h
    rw [amountLoop, if_neg (fun hne => hne.1 h.ends), textOf, List.takeWhile_nil, List.append_nil]
  | cons c g ih =>
    obtain ⟨fuel, rfl⟩ := Nat.exists_eq_succ_of_ne_zero (Nat.ne_of_gt (Nat.zero_lt_of_lt hf))
    have hc : m (formats + t.length) = c := h.drop.bytes 0 (Nat.succ_pos _)
    have hne : c ≠ 0 := h.inner c (List.mem_append_right t List.mem_cons_self)
    rw [amountLoop, hc]
    by_cases hp : c = ascii '%'
    · rw [if_neg (fun h => h.2 hp), textOf, List.takeWhile_cons_of_neg (by simp [hp]),
        List.append_nil]
    · have hrest : m.IsString formats ((t ++ [c]) ++ g) := by
        rwa [List.append_assoc, List.singleton_append]
      have hloop := ih hrest (Nat.lt_of_succ_lt_succ hf)
      rw [List.length_append, List.length_singleton] at hloop
      rw [if_pos ⟨hne, hp⟩, hloop, textOf, textOf, List.takeWhile_cons_of_pos (by simp [hp]),
        List.append_assoc, List.singleton_append]

/-- What is left of a call behind the first characters of its format. -/
theorem Call.drop {W : Nat → Prop} {parameters : List Nat} (h : Call m W formats (t ++ g) args
    parameters) : Call m W (formats + t.length) g args parameters where
  format := h.format.drop
  clear i hi hi' := h.clear i (by omega) (by rw [List.length_append]; omega)
  passed := h.passed

/-- Text up to the next conversion, at `formats`. -/
theorem text_spec {F : Nat → Prop} (hs : IsSink dump m F D dest total R)
    (hR : R l s.o) (hw : s.written = l.length)
    (hcall : Call m (fun i => F i ∨ D i) formats (c :: g) args s.parameters)
    (hfit : l.length + (c :: textOf g).length ≤ total) (hmax : total ≤ intMax) :
    ∃ s', At m (fun i => F i ∨ D i) R s' (l ++ c :: textOf g) (restOf g) args ∧
      ∀ fuel, g.length < fuel →
        (amountLoop s.o.mem formats fuel 1).map (fun amount =>
          putChecked dump dest s formats amount (formats + amount)) = some (.next s') := by
  have hstr := hs.string hR hcall.format hcall.clear
  have hsplit : c :: g = (c :: textOf g) ++ restOf g := by
    rw [List.cons_append, textOf_append_restOf]
  have hbytes : s.o.mem.HasBytes formats (c :: textOf g) := by
    have hall := hstr.bytes
    rw [hsplit] at hall
    exact (Mem.HasBytes.append_iff.mp hall).1
  have hlen : (c :: textOf g).length + (restOf g).length = (c :: g).length := by
    rw [hsplit, List.length_append]
  have hclear : Clear D formats (c :: textOf g).length := fun i hi hi' hD =>
    hcall.clear i hi (by omega) (.inr hD)
  obtain ⟨o', hR', hput⟩ := putChecked_eq hs hR hw
    hbytes hclear hfit hmax
  refine ⟨{ s with
      o := o', formats := formats + (c :: textOf g).length,
      written := (l ++ c :: textOf g).length },
    ⟨hR', rfl, ?_⟩, fun fuel hf => ?_⟩
  · rw [hsplit] at hcall
    exact hcall.drop
  · have hamount : amountLoop s.o.mem formats fuel 1 = some (c :: textOf g).length :=
      amountLoop_eq (t := [c]) hstr hf
    rw [hamount, Option.map_some, hput]

/-- The bytes of `%d` and the others in `buf`. -/
theorem itoa_in_frame {base : Nat} {v : BitVec 32} {caps : Bool} (hb : base = 8 ∨ base = 10 ∨ base = 16)
    (mem : Mem) :
    ∃ mem', (∀ fuel, 32 < fuel → itoa fuel (mem.fill frame bufSize 0) frame base v caps = some mem') ∧
      mem'.IsString frame (itoaString base v caps) ∧ ∀ i, ¬InFrame frame i → mem' i = mem i := by
  have hlen := length_itoaString (d := v) caps hb
  have hbytes := Mem.HasBytes.append_iff.mp (Mem.hasBytes_write (m := mem.fill frame bufSize 0)
    (a := frame) (l := itoaString base v caps ++ [0]))
  refine ⟨_, fun fuel hf => itoa_eq (by omega) hf,
    ⟨hbytes.1, hbytes.2 0 (by simp), itoaString_ne_zero (by omega) (by omega)⟩, fun i hi => ?_⟩
  rw [InFrame, frameSize] at hi
  rw [Mem.write_of_notMem (by rw [List.length_append, List.length_singleton]; omega), Mem.fill, bufSize,
    if_neg (by omega)]

/-- The integers. -/
theorem formatInt_spec {base : Nat} {v : BitVec 32} {caps : Bool} {a : Nat} {words : List Nat}
    (hs : IsSink dump m (InFrame frame) D dest total R) (hF : ∀ i, InFrame frame i → ¬D i)
    (hR : R l s.o) (hw : s.written = l.length) (hp : s.parameters = a :: words)
    (ha : BitVec.ofNat 32 a = v) (hb : base = 8 ∨ base = 10 ∨ base = 16)
    (hfit : l.length + (itoaString base v caps).length ≤ total) (hmax : total ≤ intMax) :
    ∃ o', R (l ++ itoaString base v caps) o' ∧ ∀ fuel, 32 < fuel →
      formatInt dump dest frame fuel s base caps formats =
        some (.next ⟨o', formats, (l ++ itoaString base v caps).length, words⟩) := by
  obtain ⟨mem, hitoa, hstr, hmem⟩ := itoa_in_frame (v := v) hb s.o.mem
  have hlen := length_itoaString (d := v) caps hb
  have hR' : R l { s.o with mem } := hs.scratch hR hmem
  have hclear : Clear D frame (itoaString base v caps).length := fun i hi hi' =>
    hF i ⟨hi, by rw [frameSize]; omega⟩
  obtain ⟨o', ho', hput⟩ := put_eq (s := { s with o := { s.o with mem }, parameters := words })
    hs hR' hw hstr.bytes hclear hfit
  refine ⟨o', ho', fun fuel hf => ?_⟩
  have hstrlen := strlen_eq hstr (Nat.lt_of_le_of_lt hlen (Nat.lt_trans (by decide) hf))
  rw [formatInt, hp]
  simp only
  rw [ha, hitoa fuel hf, Option.bind_some, hstrlen, Option.bind_some, if_neg (by omega), hput]

/-- A character: the low byte of its argument. -/
theorem formatChar_spec {v : BitVec 32} {a : Nat} {words : List Nat}
    (hs : IsSink dump m (InFrame frame) D dest total R) (hF : ∀ i, InFrame frame i → ¬D i)
    (hR : R l s.o) (hw : s.written = l.length) (hp : s.parameters = a :: words)
    (ha : BitVec.ofNat 32 a = v) (hfit : l.length + 1 ≤ total) (hmax : total ≤ intMax) :
    ∃ o', R (l ++ [v.setWidth 8]) o' ∧ formatChar dump dest frame s formats =
      some (.next ⟨o', formats, (l ++ [v.setWidth 8]).length, words⟩) := by
  have hbyte : BitVec.ofNat 8 a = v.setWidth 8 := by
    rw [← ha]
    refine BitVec.eq_of_toNat_eq ?_
    rw [BitVec.toNat_setWidth, BitVec.toNat_ofNat, BitVec.toNat_ofNat]
    omega
  have hin : InFrame frame (frame + bufSize) := ⟨Nat.le_add_right _ _, by rw [bufSize, frameSize]; omega⟩
  obtain ⟨mem, hmem⟩ : ∃ mem : Mem, mem = Function.update s.o.mem (frame + bufSize)
    (v.setWidth 8) := ⟨_, rfl⟩
  have hR' : R l { s.o with mem } := hs.scratch hR fun i hi => by
    have hne : i ≠ frame + bufSize := fun h => hi (by rw [h]; exact hin)
    rw [hmem, Function.update_of_ne hne]
  have hbytes : mem.HasBytes (frame + bufSize) [v.setWidth 8] := by
    intro i hi
    obtain rfl : i = 0 := Nat.lt_one_iff.mp hi
    rw [hmem, Nat.add_zero, Function.update_self]
    rfl
  have hclear : Clear D (frame + bufSize) [v.setWidth 8].length := by
    intro i hi hi'
    obtain rfl : i = frame + bufSize := Nat.le_antisymm (Nat.le_of_lt_succ hi') hi
    exact hF _ hin
  obtain ⟨o', ho', hput⟩ := putChecked_eq (s := { s with o := { s.o with mem }, parameters := words })
    hs hR' hw hbytes hclear hfit hmax
  refine ⟨o', ho', ?_⟩
  rw [formatChar, hp]
  simp only
  rw [hbyte, ← hmem]
  exact congrArg some hput

/-- A string. -/
theorem formatStr_spec {a : Nat} {words : List Nat} {F : Nat → Prop}
    (hs : IsSink dump m F D dest total R) (hR : R l s.o) (hw : s.written = l.length)
    (hp : s.parameters = a :: words) (ha : m.IsString a t)
    (hc : Clear (fun i => F i ∨ D i) a (t.length + 1)) (hfit : l.length + t.length ≤ total)
    (hmax : total ≤ intMax) :
    ∃ o', R (l ++ t) o' ∧ ∀ fuel, t.length < fuel →
      formatStr dump dest fuel s formats = some (.next ⟨o', formats, (l ++ t).length, words⟩) := by
  have hstr := hs.string hR ha hc
  have hclear : Clear D a t.length := fun i hi hi' hD => hc i hi (by omega) (.inr hD)
  obtain ⟨o', ho', hput⟩ := putChecked_eq (s := { s with parameters := words })
    hs hR hw hstr.bytes hclear hfit hmax
  refine ⟨o', ho', fun fuel hf => ?_⟩
  rw [formatStr, hp]
  simp only
  rw [strlen_eq hstr hf, Option.map_some, hput]

/-- The rest of the format. -/
theorem formatRest_spec {F : Nat → Prop} (hs : IsSink dump m F D dest total R)
    (h : At m (fun i => F i ∨ D i) R s l f args) (hfit : l.length + f.length ≤ total)
    (hmax : total ≤ intMax) :
    ∃ s', At m (fun i => F i ∨ D i) R s' (l ++ f) [] args ∧ ∀ fuel, f.length < fuel →
      formatRest dump dest fuel s = some (.next s') := by
  have hstr := hs.string h.sink h.call.format h.call.clear
  have hclear : Clear D s.formats f.length := fun i hi hi' hD =>
    h.call.clear i hi (by omega) (.inr hD)
  obtain ⟨o', ho', hput⟩ := putChecked_eq hs h.sink h.written
    hstr.bytes hclear hfit hmax
  refine ⟨{ s with o := o', formats := s.formats + f.length, written := (l ++ f).length },
    ⟨ho', rfl, ?_⟩, fun fuel hf => ?_⟩
  · have hcall := h.call
    rw [← List.append_nil f] at hcall
    exact hcall.drop
  · rw [formatRest, strlen_eq hstr hf, Option.map_some, hput]

/-- A conversion with its argument. -/
theorem formatConversion_spec {a : Arg} (hs : IsSink dump m (InFrame frame) D dest total R)
    (hF : ∀ i, InFrame frame i → ¬D i)
    (h : At m (fun i => InFrame frame i ∨ D i) R s l (c :: k :: g) (a :: args))
    (hconv : convert k a = some t) (hfit : l.length + t.length ≤ total) (hmax : total ≤ intMax) :
    ∃ s', At m (fun i => InFrame frame i ∨ D i) R s' (l ++ t) g args ∧ ∃ N, ∀ fuel, N ≤ fuel →
      formatConversion dump dest frame fuel s k = some (.next s') := by
  have hcall : Call m _ (s.formats + 2) g (a :: args) s.parameters := Call.drop (t := [c, k]) h.call
  obtain ⟨hformat, hclear, hpassed⟩ := hcall
  obtain ⟨w, words, hw, hwords, hp⟩ := List.forall₂_cons_left_iff.mp hpassed
  have hat : ∀ {o'}, R (l ++ t) o' → At m (fun i => InFrame frame i ∨ D i) R
      ⟨o', s.formats + 2, (l ++ t).length, words⟩ (l ++ t) g args :=
    fun hR => ⟨hR, rfl, hformat, hclear, hwords⟩
  cases a with
  | str u =>
    rw [convert] at hconv
    split at hconv
    case isFalse => exact nomatch hconv
    case isTrue hk =>
      obtain rfl := Option.some.inj hconv
      obtain ⟨o', ho', hturn⟩ := formatStr_spec hs h.sink h.written hp hw.1
        hw.2 hfit hmax
      refine ⟨_, hat ho', u.length + 1, fun fuel hf => ?_⟩
      rw [formatConversion, hk, if_neg (by decide), if_pos rfl]
      exact hturn fuel hf
  | int v =>
    -- the integers differ in their base and in the case of the letters
    have hint : ∀ {base : Nat} {caps : Bool}, base = 8 ∨ base = 10 ∨ base = 16 →
        k ∈ [ascii 'd', ascii 'i', ascii 'o', ascii 'x', ascii 'X'] → intBase k = base →
        decide (k = ascii 'X') = caps → some (itoaString base v caps) = some t →
        ∃ s', At m (fun i => InFrame frame i ∨ D i) R s' (l ++ t) g args ∧ ∃ N, ∀ fuel, N ≤ fuel →
          formatConversion dump dest frame fuel s k = some (.next s') := by
      intro base caps hb hk hbase hcaps ht
      obtain rfl := Option.some.inj ht
      obtain ⟨o', ho', hturn⟩ := formatInt_spec hs hF h.sink h.written hp hw
        hb hfit hmax
      refine ⟨_, hat ho', 33, fun fuel hf => ?_⟩
      have hc : k ≠ ascii 'c' := fun he => absurd (he ▸ hk) (by decide)
      have hs' : k ≠ ascii 's' := fun he => absurd (he ▸ hk) (by decide)
      rw [formatConversion, if_neg hc, if_neg hs', if_pos hk, hbase, hcaps]
      exact hturn fuel hf
    rw [convert] at hconv
    split at hconv
    case isTrue hk =>
      obtain rfl := Option.some.inj hconv
      obtain ⟨o', ho', hturn⟩ := formatChar_spec hs hF h.sink h.written hp hw
        hfit hmax
      refine ⟨_, hat ho', 0, fun fuel _ => ?_⟩
      rw [formatConversion, if_pos hk]
      exact hturn
    case isFalse =>
      split at hconv
      case isTrue hk =>
        rcases hk with rfl | rfl <;> exact hint (by decide) (by decide) rfl rfl hconv
      case isFalse =>
        split at hconv
        case isTrue hk =>
          subst hk
          exact hint (by decide) (by decide) rfl rfl hconv
        case isFalse =>
          split at hconv
          case isTrue hk =>
            subst hk
            exact hint (by decide) (by decide) rfl rfl hconv
          case isFalse =>
            split at hconv
            case isTrue hk =>
              subst hk
              exact hint (by decide) (by decide) rfl rfl hconv
            case isFalse => exact nomatch hconv

/-- What is no conversion is text. -/
theorem formatConversion_rest (hk : k ∉ conversions) :
    formatConversion dump dest frame fuel s k = formatRest dump dest fuel s := by
  simp only [conversions, List.mem_cons, List.not_mem_nil, or_false, not_or] at hk
  obtain ⟨hc, hs, hd, hi, ho, hx, hX⟩ := hk
  rw [formatConversion, if_neg hc, if_neg hs, if_neg]
  simp [hd, hi, ho, hx, hX]

/-- **A turn of the loop** emits the expansion of what it takes off the format. -/
theorem formatTurn_spec (hs : IsSink dump m (InFrame frame) D dest total R)
    (hF : ∀ i, InFrame frame i → ¬D i)
    (h : At m (fun i => InFrame frame i ∨ D i) R s l (c :: f) args)
    (he : expand (c :: f) args = some e) (hfit : l.length + e.length ≤ total)
    (hmax : total ≤ intMax) :
    ∃ s' t f' args' e', At m (fun i => InFrame frame i ∨ D i) R s' (l ++ t) f' args' ∧
      f'.length ≤ f.length ∧ expand f' args' = some e' ∧ e = t ++ e' ∧
      ∃ N, ∀ fuel, N ≤ fuel → formatTurn dump dest frame fuel s = some (.next s') := by
  have hstr := hs.string h.sink h.call.format h.call.clear
  have hc : s.o.mem s.formats = c := hstr.bytes 0 (Nat.succ_pos _)
  have hc0 : c ≠ 0 := hstr.inner c List.mem_cons_self
  -- the text up to the next conversion, from `c` on
  have htext : ∀ {c g formats},
      Call m (fun i => InFrame frame i ∨ D i) formats (c :: g) args s.parameters →
      (expand g args).map (c :: ·) = some e → ∃ s' e',
        At m (fun i => InFrame frame i ∨ D i) R s' (l ++ c :: textOf g) (restOf g) args ∧
        (restOf g).length ≤ g.length ∧ expand (restOf g) args = some e' ∧ e = c :: textOf g ++ e' ∧
        ∀ fuel, g.length < fuel → (amountLoop s.o.mem formats fuel 1).map (fun amount =>
          putChecked dump dest s formats amount (formats + amount)) = some (.next s') := by
    intro c g formats hcall hexp
    obtain ⟨eg, heg, rfl⟩ := Option.map_eq_some_iff.mp hexp
    have hsplit := textOf_append_restOf g
    rw [← hsplit, expand_text textOf_ne] at heg
    obtain ⟨e', he', rfl⟩ := Option.map_eq_some_iff.mp heg
    have hle : (c :: textOf g).length ≤ (c :: (textOf g ++ e')).length := by simp
    obtain ⟨s', hat, hturn⟩ := text_spec hs h.sink h.written hcall (by omega) hmax
    have hlen := congrArg List.length hsplit
    rw [List.length_append] at hlen
    exact ⟨s', e', hat, by omega, he', rfl, hturn⟩
  by_cases hp : c = ascii '%'
  · subst hp
    cases f with
    | nil =>
      -- a `%` at the end
      have hend : s.o.mem (s.formats + 1) = 0 := hstr.ends
      obtain rfl := Option.some.inj he
      obtain ⟨s', hat, hturn⟩ := formatRest_spec hs h hfit hmax
      refine ⟨s', _, [], args, [], hat, Nat.le_refl _, rfl, (List.append_nil _).symm, 2,
        fun fuel hf => ?_⟩
      rw [formatTurn, hc, if_neg hc0, hend, if_neg (by decide), formatConversion_rest (by decide)]
      exact hturn fuel hf
    | cons k g =>
      have hk : s.o.mem (s.formats + 1) = k := hstr.bytes 1 (by simp)
      by_cases hkp : k = ascii '%'
      · subst hkp
        rw [expand_percent] at he
        obtain ⟨s', e', hat, hle, he', hsplit, hturn⟩ :=
          htext (Call.drop (t := [ascii '%']) h.call) he
        refine ⟨s', _, _, args, e', hat, Nat.le_succ_of_le hle, he', hsplit, g.length + 1,
          fun fuel hf => ?_⟩
        rw [formatTurn, hc, if_neg hc0, hk, if_pos (.inr rfl), formatText, hc, if_pos rfl]
        exact hturn fuel hf
      · have hturn_eq : ∀ fuel, formatTurn dump dest frame fuel s =
            formatConversion dump dest frame fuel s k := by
          intro fuel
          rw [formatTurn, hc, if_neg hc0, hk, if_neg (by simp [hkp])]
        rw [expand, if_neg (not_not.mpr rfl), if_neg hkp] at he
        split at he
        case isTrue hconv =>
          obtain ⟨t, ht, hrest⟩ := Option.bind_eq_some_iff.mp he
          obtain ⟨a, ha, hta⟩ := Option.bind_eq_some_iff.mp ht
          obtain ⟨e', he', rfl⟩ := Option.map_eq_some_iff.mp hrest
          obtain ⟨args', rfl⟩ := List.head?_eq_some_iff.mp ha
          rw [List.length_append] at hfit
          obtain ⟨s', hat, N, hturn⟩ := formatConversion_spec hs hF h hta (by omega) hmax
          exact ⟨s', t, g, args', e', hat, by simp, he', rfl, N,
            fun fuel hf => (hturn_eq fuel).trans (hturn fuel hf)⟩
        case isFalse hconv =>
          obtain rfl := Option.some.inj he
          obtain ⟨s', hat, hturn⟩ := formatRest_spec hs h hfit hmax
          refine ⟨s', _, [], args, [], hat, Nat.zero_le _, rfl, (List.append_nil _).symm,
            g.length + 3, fun fuel hf => ?_⟩
          rw [hturn_eq, formatConversion_rest hconv]
          exact hturn fuel hf
  · rw [expand_cons hp] at he
    obtain ⟨s', e', hat, hle, he', hsplit, hturn⟩ := htext h.call he
    refine ⟨s', _, _, args, e', hat, hle, he', hsplit, f.length + 1, fun fuel hf => ?_⟩
    rw [formatTurn, hc, if_neg hc0, if_pos (.inl hp), formatText, hc, if_neg hp]
    exact hturn fuel hf

/-- **The loop** emits the expansion and returns its length. -/
theorem formatLoop_eq (hs : IsSink dump m (InFrame frame) D dest total R)
    (hF : ∀ i, InFrame frame i → ¬D i) (h : At m (fun i => InFrame frame i ∨ D i) R s l f args)
    (he : expand f args = some e) (hfit : l.length + e.length ≤ total) (hmax : total ≤ intMax) :
    ∃ o, R (l ++ e) o ∧ ∃ N, ∀ fuel, N ≤ fuel →
      formatLoop dump dest frame fuel s = some (o, ((l ++ e).length : Int)) := by
  induction hn : f.length using Nat.strongRecOn generalizing s l f args e with
  | _ n ih =>
  cases f with
  | nil =>
    obtain rfl := Option.some.inj he
    have hstr := hs.string h.sink h.call.format h.call.clear
    refine ⟨s.o, by rw [List.append_nil]; exact h.sink, 1, fun fuel hf => ?_⟩
    obtain ⟨fuel, rfl⟩ := Nat.exists_eq_succ_of_ne_zero (Nat.ne_of_gt hf)
    have hend : s.o.mem s.formats = 0 := hstr.ends
    rw [formatLoop, formatTurn, hend, if_pos rfl, h.written, List.append_nil]
    rfl
  | cons c f =>
    obtain ⟨s', t, f', args', e', hat, hle, he', rfl, N, hturn⟩ :=
      formatTurn_spec hs hF h he hfit hmax
    rw [List.length_append] at hfit
    obtain ⟨o, ho, N', hloop⟩ := ih f'.length (by rw [← hn, List.length_cons]; omega) hat he'
      (by rw [List.length_append]; omega) rfl
    rw [List.append_assoc] at ho hloop
    refine ⟨o, ho, max N N' + 1, fun fuel hf => ?_⟩
    obtain ⟨fuel, rfl⟩ := Nat.exists_eq_succ_of_ne_zero (Nat.ne_of_gt (Nat.zero_lt_of_lt hf))
    rw [formatLoop, hturn fuel (by omega), Option.bind_some]
    exact hloop fuel (by omega)

end Turn

/-! ## The functions -/

section Printf

variable {m : Mem} {frame formats : Nat} {parameters : List Nat} {f e : List (BitVec 8)}
  {args : List Arg}

/-- **`printf` and `vsprintf` expand their format**: `putchar` gets the bytes of the expansion in
order, the buffer of `vsprintf` holds them, both return their number, and no other byte but those of
the locals changes. -/
theorem printf_expands (shown : List (BitVec 8))
    (hcall : Call m (InFrame frame) formats f args parameters) (he : expand f args = some e)
    (hlen : e.length < intMax) :
    (∃ o N, (∀ fuel, N ≤ fuel →
        printf frame fuel ⟨m, shown⟩ formats parameters = some (o, (e.length : Int))) ∧
      o.shown = shown ++ e ∧ ∀ i, ¬InFrame frame i → o.mem i = m i) ∧
    ∀ str, (∀ i, InFrame frame i → ¬InBuffer str e.length i) →
      Call m (fun i => InFrame frame i ∨ InBuffer str e.length i) formats f args parameters →
      ∃ o N, (∀ fuel, N ≤ fuel →
          vsprintf frame fuel ⟨m, shown⟩ str formats parameters = some (o, (e.length : Int))) ∧
        o.mem.HasBytes str e ∧ o.shown = shown ∧
        ∀ i, ¬(InFrame frame i ∨ InBuffer str e.length i) → o.mem i = m i := by
  have hmax := Nat.le_of_lt hlen
  constructor
  · have hs := isSink_print m (InFrame frame) 0 e.length shown
    have hat : At m (fun i => InFrame frame i ∨ False) (Printed m (InFrame frame) shown)
        ⟨⟨m, shown⟩, formats, 0, parameters⟩ [] f args :=
      ⟨⟨(List.append_nil _).symm, fun _ _ => rfl⟩, rfl, by simpa using hcall⟩
    obtain ⟨o, ⟨hshown, hsame⟩, N, hloop⟩ := formatLoop_eq hs (fun _ _ h => h) hat he (by simp) hmax
    exact ⟨o, N, hloop, hshown, hsame⟩
  · intro str hF hcall'
    have hs := isSink_writeToBuf m (InFrame frame) str e.length shown hF
    have hat : At m (fun i => InFrame frame i ∨ InBuffer str e.length i)
        (Stored m (InFrame frame) str e.length shown) ⟨⟨m, shown⟩, formats, 0, parameters⟩ [] f args :=
      ⟨⟨rfl, fun i hi => absurd hi (Nat.not_lt_zero i), Nat.zero_le _, fun _ _ => rfl⟩, rfl, hcall'⟩
    obtain ⟨o, ⟨hshown, hbytes, -, hsame⟩, N, hloop⟩ := formatLoop_eq hs hF hat he (by simp) hmax
    exact ⟨o, N, hloop, hbytes, hshown, hsame⟩

/-- The format `%c%%` at 100. -/
def percentMemory : Mem := Mem.write (fun _ => 0) 100 [ascii '%', ascii 'c', ascii '%', ascii '%']

theorem percentMemory_call {W : Nat → Prop} (hW : ∀ i, W i → 200 ≤ i) :
    Call percentMemory W 100 [ascii '%', ascii 'c', ascii '%', ascii '%'] [.int 65] [65] where
  format := ⟨Mem.hasBytes_write, rfl, by decide⟩
  clear i _ hi hWi := by
    have hge := hW i hWi
    have hlt : i < 105 := hi
    omega
  passed := .cons rfl .nil

/-- `printf("%c%%", 65)` and `vsprintf` of it to 300, with the locals at 200. -/
theorem printf_expands_percent :
    (∃ o N, (∀ fuel, N ≤ fuel → printf 200 fuel ⟨percentMemory, []⟩ 100 [65] = some (o, 2)) ∧
      o.shown = [65, 37] ∧ ∀ i, ¬InFrame 200 i → o.mem i = percentMemory i) ∧
    ∃ o N, (∀ fuel, N ≤ fuel → vsprintf 200 fuel ⟨percentMemory, []⟩ 300 100 [65] = some (o, 2)) ∧
      o.mem.HasBytes 300 [65, 37] ∧ o.shown = [] ∧
      ∀ i, ¬(InFrame 200 i ∨ InBuffer 300 2 i) → o.mem i = percentMemory i := by
  have hexp : expand [ascii '%', ascii 'c', ascii '%', ascii '%'] [.int 65] = some [65, 37] := rfl
  have h := printf_expands [] (percentMemory_call fun i hi => hi.1) hexp (by decide)
  refine ⟨h.1, h.2 300 (fun i hi hi' => ?_) (percentMemory_call fun i hi => ?_)⟩
  · rw [InFrame, frameSize] at hi
    rw [InBuffer] at hi'
    omega
  · rcases hi with hi | hi
    · exact hi.1
    · exact Nat.le_trans (by decide) hi.1

end Printf

end Colibri.Libc

import Colibri.Lib.Run
import Mathlib.Logic.Function.Basic
import Mathlib.Tactic.SplitIfs

/-!
# The terminal

Model of `kernel/tty.c`: the text buffer, the cursor, and what of it `terminal_render` draws. A row of
the buffer has `TERMINAL_WIDTH` cells and one more for a newline. The functions are `none` when they
use an index outside the buffer. Pixels, colours and the font are left out; `TERMINAL_HEIGHT *
(TERMINAL_WIDTH + 1)` is the size of an allocation and fits a `u64`, so indexes are `Nat`s.

Every row above the cursor has a newline (`Terminal.Ok.lines`), which the search of `terminal_backspace`
relies on. That search uses a row length of `TERMINAL_WIDTH - 1`, so that only in row 0 it looks at the
row it moved to: `terminal_write_sound` is for the runs that do not go back into another row, and
`terminal_backspace_drifts` is one that does.
-/

namespace Colibri.Tty

open Colibri.Lib

/-- The terminal: its size, the cursor, the buffer with its length, and the characters drawn last. -/
structure Terminal where
  width : Nat
  height : Nat
  row : Nat
  column : Nat
  displayAddr : Nat
  size : Nat
  buffer : Nat → UInt8
  screen : List (List UInt8)

namespace Terminal

/-- `'\n'`. -/
def newline : UInt8 := 10

/-- `'\b'`. -/
def backspace : UInt8 := 8

/-- `terminal_initialize` when the framebuffer is mapped at `displayAddr` and `alloc` has a block;
`terminal_clear` zeroes the buffer and draws nothing. -/
def terminalInitialize (width height displayAddr : Nat) : Terminal where
  width
  height
  row := 0
  column := 0
  displayAddr
  size := height * (width + 1)
  buffer := fun _ => 0
  screen := []

/-- `tty_buffer[i]`. -/
def get (t : Terminal) (i : Nat) : Option UInt8 := if i < t.size then some (t.buffer i) else none

/-- `tty_buffer[i] = c`. -/
def set (t : Terminal) (i : Nat) (c : UInt8) : Option Terminal :=
  if i < t.size then some { t with buffer := Function.update t.buffer i c } else none

/-- `column + row * (TERMINAL_WIDTH + 1)`. -/
def cursor (t : Terminal) : Nat := t.column + t.row * (t.width + 1)

/-- The character that `terminal_render` draws for a cell. -/
def shown (c : UInt8) : UInt8 :=
  if 0x20 ≤ c ∧ c < 0x7F then c else if c = 0 ∨ c = newline then 0x20 else c

/-- The inner loop of `terminal_render`: the first `x` cells of row `y`. -/
def renderRow (t : Terminal) (y : Nat) : Nat → Option (List UInt8)
  | 0 => some []
  | x + 1 => do
    let cs ← renderRow t y x
    let c ← t.get (x + y * (t.width + 1))
    return cs ++ [shown c]

/-- The outer loop of `terminal_render`: the first `y` rows. -/
def renderRows (t : Terminal) : Nat → Option (List (List UInt8))
  | 0 => some []
  | y + 1 => do
    let rows ← renderRows t y
    let row ← t.renderRow y t.width
    return rows ++ [row]

/-- `terminal_render`. -/
def terminalRender (t : Terminal) : Option Terminal := (t.renderRows t.height).map fun screen => { t with screen }

/-- `memcpy` of one row of the buffer onto the row before it. -/
def copyRow (t : Terminal) (y : Nat) : Option Terminal :=
  if (y + 1) * (t.width + 1) ≤ t.size then
    some { t with buffer := fun i =>
      if (y - 1) * (t.width + 1) ≤ i ∧ i < y * (t.width + 1) then t.buffer (i + (t.width + 1))
      else t.buffer i }
  else none

/-- The loop of `terminal_move_up`: the rows 1 to `y`. -/
def copyRows (t : Terminal) : Nat → Option Terminal
  | 0 => some t
  | y + 1 => do
    let t ← copyRows t y
    t.copyRow (y + 1)

/-- `memset` of row `y`. -/
def clearRow (t : Terminal) (y : Nat) : Option Terminal :=
  if (y + 1) * (t.width + 1) ≤ t.size then
    some { t with buffer := fun i =>
      if y * (t.width + 1) ≤ i ∧ i < (y + 1) * (t.width + 1) then 0 else t.buffer i }
  else none

/-- `terminal_move_up`. -/
def terminalMoveUp (t : Terminal) : Option Terminal := do
  let t ← t.copyRows (t.height - 1)
  let t ← t.clearRow (t.height - 1)
  t.terminalRender

/-- `terminal_return`. -/
def terminalReturn (t : Terminal) : Option Terminal := do
  let t ← t.set t.cursor newline
  let t := { t with row := t.row + 1 }
  let t ← (if t.row = t.height then do
      let t ← t.terminalMoveUp
      some { t with row := t.row - 1 }
    else some t)
  return { t with column := 0 }

/-- `terminal_putchar`. -/
def terminalPutchar (t : Terminal) (c : UInt8) : Option Terminal := do
  let t ← (if t.column = t.width then t.terminalReturn else some t)
  let t ← t.set t.cursor c
  return { t with column := t.column + 1 }

/-- The search of `terminal_backspace` for the newline of the row `row`, from `column` on. -/
def findNewline (t : Terminal) (row : Nat) : Nat → Nat → Option Nat
  | 0, _ => none
  | fuel + 1, column => do
    let c ← t.get (column + row * (t.width - 1))
    if c = newline then return column else findNewline t row fuel (column + 1)

/-- `terminal_backspace`. -/
def terminalBackspace (t : Terminal) : Option Terminal :=
  if t.column ≠ 0 then do
    let t := { t with column := t.column - 1 }
    let t ← t.terminalPutchar 0
    return { t with column := t.column - 1 }
  else if t.row ≠ 0 then do
    let row := t.row - 1
    let column ← t.findNewline row (t.size + 1) 0
    return { t with row, column }
  else some t

/-- `terminal_write`. -/
def terminalWrite (t : Terminal) (data : UInt8) : Option Terminal :=
  if t.displayAddr = 0 then some t
  else do
    let t ← (if 0x20 ≤ data ∧ data < 0x7F then t.terminalPutchar data else some t)
    let t ← (if data = backspace then do
        let t ← t.terminalBackspace
        t.set t.cursor 0
      else if data = newline then do
        let t ← t.set t.cursor data
        t.terminalReturn
      else some t)
    t.terminalRender

/-! ## What the operations keep -/

/-- What a cell may hold. -/
def Allowed (c : UInt8) : Prop := (0x20 ≤ c ∧ c < 0x7F) ∨ c = newline ∨ c = 0

/-- **The cursor is in range, and every row above it has a newline.** -/
structure Ok (t : Terminal) : Prop where
  size : t.size = t.height * (t.width + 1)
  width : 2 ≤ t.width
  row : t.row < t.height
  column : t.column ≤ t.width
  chars : ∀ i, Allowed (t.buffer i)
  lines : ∀ r < t.row, ∃ c ≤ t.width, t.buffer (c + r * (t.width + 1)) = newline

/-- The two terminals have the same size and display. -/
structure SameSize (t t' : Terminal) : Prop where
  width : t'.width = t.width
  height : t'.height = t.height
  display : t'.displayAddr = t.displayAddr

variable {t t' : Terminal}

theorem SameSize.trans {t'' : Terminal} (h : SameSize t t') (h' : SameSize t' t'') :
    SameSize t t'' :=
  ⟨h'.width.trans h.width, h'.height.trans h.height, h'.display.trans h.display⟩

/-- The cell of a column and a row. -/
theorem cell_lt {w height c r : Nat} (hc : c ≤ w) (hr : r < height) :
    c + r * (w + 1) < height * (w + 1) := by
  have h := Nat.mul_le_mul_right (w + 1) hr
  rw [Nat.succ_mul] at h
  omega

/-- A cell determines its column and row. -/
theorem cell_inj {w c r c' r' : Nat} (hc : c ≤ w) (hc' : c' ≤ w)
    (h : c + r * (w + 1) = c' + r' * (w + 1)) : c = c' ∧ r = r' := by
  have hr : r = r' := by
    have h₁ := congrArg (· / (w + 1)) h
    simpa [Nat.add_mul_div_right, Nat.div_eq_of_lt (Nat.lt_succ_of_le hc),
      Nat.div_eq_of_lt (Nat.lt_succ_of_le hc')] using h₁
  subst hr
  exact ⟨Nat.add_right_cancel h, rfl⟩

theorem Ok.cursor_lt (h : t.Ok) : t.cursor < t.size := by
  rw [h.size]
  exact cell_lt h.column h.row

theorem renderRow_isSome (hsize : t.size = t.height * (t.width + 1)) {y : Nat} (hy : y < t.height) :
    ∀ x ≤ t.width, ∃ cs, t.renderRow y x = some cs
  | 0, _ => ⟨[], rfl⟩
  | x + 1, hx => by
    obtain ⟨cs, hcs⟩ := renderRow_isSome hsize hy x (by omega)
    have hlt : x + y * (t.width + 1) < t.size := hsize ▸ cell_lt (by omega) hy
    refine ⟨cs ++ [shown (t.buffer (x + y * (t.width + 1)))], ?_⟩
    rw [renderRow, hcs, get, if_pos hlt]
    rfl

theorem renderRows_isSome (hsize : t.size = t.height * (t.width + 1)) :
    ∀ y ≤ t.height, ∃ rows, t.renderRows y = some rows
  | 0, _ => ⟨[], rfl⟩
  | y + 1, hy => by
    obtain ⟨rows, hrows⟩ := renderRows_isSome hsize y (by omega)
    obtain ⟨row, hrow⟩ := renderRow_isSome hsize (y := y) (by omega) t.width (Nat.le_refl _)
    refine ⟨rows ++ [row], ?_⟩
    rw [renderRows, hrows]
    change (t.renderRow y t.width).bind _ = _
    rw [hrow]
    rfl

/-- **`terminal_render`** reads cells of the buffer only, and changes none. -/
theorem terminalRender_spec (hsize : t.size = t.height * (t.width + 1)) :
    ∃ screen, t.terminalRender = some { t with screen } := by
  obtain ⟨rows, hrows⟩ := renderRows_isSome hsize t.height (Nat.le_refl _)
  exact ⟨rows, by rw [terminalRender, hrows]; rfl⟩

theorem Ok.screen (h : t.Ok) (screen : List (List UInt8)) : Ok { t with screen } :=
  ⟨h.size, h.width, h.row, h.column, h.chars, h.lines⟩

/-- The buffer with the first `y` rows replaced by those below them. -/
def shifted (t : Terminal) (y i : Nat) : UInt8 :=
  if i < y * (t.width + 1) then t.buffer (i + (t.width + 1)) else t.buffer i

theorem copyRows_spec (hsize : t.size = t.height * (t.width + 1)) :
    ∀ y < t.height, t.copyRows y = some { t with buffer := t.shifted y }
  | 0, _ => by
    have h0 : t.shifted 0 = t.buffer := by
      funext i
      rw [shifted, if_neg (by omega)]
    rw [copyRows, h0]
  | y + 1, hy => by
    have hle : (y + 1 + 1) * (t.width + 1) ≤ t.size := by
      rw [hsize]
      exact Nat.mul_le_mul_right _ hy
    have hnext : (y + 1) * (t.width + 1) = y * (t.width + 1) + (t.width + 1) := Nat.succ_mul _ _
    rw [copyRows, copyRows_spec hsize y (by omega)]
    change copyRow _ _ = _
    rw [copyRow, if_pos hle]
    simp only [Nat.add_sub_cancel, Option.some.injEq, Terminal.mk.injEq, true_and, and_true]
    funext i
    rw [shifted, shifted, shifted, hnext]
    by_cases h₁ : y * (t.width + 1) ≤ i ∧ i < y * (t.width + 1) + (t.width + 1)
    · rw [if_pos h₁, if_neg (by omega), if_pos (by omega)]
    · rw [if_neg h₁]
      by_cases h₂ : i < y * (t.width + 1)
      · rw [if_pos h₂, if_pos (by omega)]
      · rw [if_neg h₂, if_neg (by omega)]

/-- **`terminal_move_up`** shifts the rows and clears the last one. -/
theorem terminalMoveUp_spec (hsize : t.size = t.height * (t.width + 1)) (hpos : 0 < t.height) :
    ∃ screen, t.terminalMoveUp = some { t with
      buffer := fun i =>
        if (t.height - 1) * (t.width + 1) ≤ i ∧ i < t.height * (t.width + 1) then 0
        else t.shifted (t.height - 1) i
      screen } := by
  have hlast : t.height - 1 + 1 = t.height := by omega
  have hle : (t.height - 1 + 1) * (t.width + 1) ≤ t.size :=
    Nat.le_of_eq (by rw [hlast, hsize])
  obtain ⟨t₁, ht₁⟩ : ∃ t₁ : Terminal, t₁ = { t with
      buffer := fun i =>
        if (t.height - 1) * (t.width + 1) ≤ i ∧ i < t.height * (t.width + 1) then 0
        else t.shifted (t.height - 1) i } := ⟨_, rfl⟩
  obtain ⟨screen, hscreen⟩ : ∃ screen, t₁.terminalRender = some { t₁ with screen } :=
    terminalRender_spec (by rw [ht₁]; exact hsize)
  refine ⟨screen, ?_⟩
  have hclear : clearRow { t with buffer := t.shifted (t.height - 1) } (t.height - 1) = some t₁ := by
    rw [clearRow, if_pos hle, ht₁]
    simp only [hlast]
  unfold terminalMoveUp
  rw [copyRows_spec hsize _ (by omega)]
  simp only [Option.bind_eq_bind, Option.bind_some]
  rw [hclear, Option.bind_some, hscreen, ht₁]

/-- A write to a cell of the buffer. -/
theorem set_eq {i : Nat} (c : UInt8) (h : i < t.size) :
    t.set i c = some { t with buffer := Function.update t.buffer i c } := if_pos h

theorem allowed_newline : Allowed newline := .inr (.inl rfl)

theorem allowed_zero : Allowed 0 := .inr (.inr rfl)

/-- Writing at the cursor, where the row has no newline to lose. -/
theorem Ok.setCursor (h : t.Ok) {c : UInt8} (hc : Allowed c) :
    Ok { t with buffer := Function.update t.buffer t.cursor c } := by
  refine ⟨h.size, h.width, h.row, h.column, fun i => ?_, fun r hr => ?_⟩
  · change Allowed (Function.update t.buffer t.cursor c i)
    by_cases hi : i = t.cursor
    · rw [hi, Function.update_self]
      exact hc
    · rw [Function.update_of_ne hi]
      exact h.chars i
  · obtain ⟨d, hd, hnl⟩ := h.lines r hr
    refine ⟨d, hd, ?_⟩
    change Function.update t.buffer t.cursor c _ = newline
    rw [Function.update_of_ne]
    · exact hnl
    · intro he
      have := (cell_inj hd h.column he).2
      change r < t.row at hr
      omega

/-- **`terminal_return`** ends the row with a newline, and scrolls if it was the last. -/
theorem Ok.terminalReturn (h : t.Ok) : ∃ t', t.terminalReturn = some t' ∧ t'.Ok ∧ SameSize t t' ∧
    t'.column = 0 := by
  have hrow := h.row
  have hlt := h.cursor_lt
  obtain ⟨b, hb⟩ : ∃ b, b = Function.update t.buffer t.cursor newline := ⟨_, rfl⟩
  have hset := h.setCursor allowed_newline
  rw [← hb] at hset
  -- the row that is left has a newline too
  have hlines : ∀ r ≤ t.row, ∃ c ≤ t.width, b (c + r * (t.width + 1)) = newline := by
    intro r hr
    rcases Nat.lt_or_eq_of_le hr with hr | rfl
    · exact hset.lines r hr
    · exact ⟨t.column, h.column, by rw [hb]; exact Function.update_self _ _ _⟩
  unfold Terminal.terminalReturn
  rw [set_eq newline hlt, ← hb]
  simp only [Option.bind_eq_bind, Option.bind_some]
  by_cases hlast : t.row + 1 = t.height
  · obtain ⟨screen, hup⟩ := terminalMoveUp_spec (t := { t with row := t.row + 1, buffer := b }) h.size
      (by change 0 < t.height; omega)
    rw [if_pos hlast, hup]
    refine ⟨_, rfl, ⟨h.size, h.width, ?_, Nat.zero_le _, fun i => ?_, fun r hr => ?_⟩,
      ⟨rfl, rfl, rfl⟩, rfl⟩
    · change t.row + 1 - 1 < t.height
      omega
    · simp only [shifted]
      split_ifs
      · exact allowed_zero
      · exact hset.chars _
      · exact hset.chars _
    · change r < t.row + 1 - 1 at hr
      obtain ⟨c, hc, hnl⟩ := hlines (r + 1) (by omega)
      have hcell := cell_lt hc (show r < t.height - 1 by omega)
      refine ⟨c, hc, ?_⟩
      simp only [shifted]
      rw [if_neg (by omega), if_pos hcell, Nat.add_assoc, ← Nat.succ_mul]
      exact hnl
  · rw [if_neg hlast]
    refine ⟨_, rfl, ⟨h.size, h.width, ?_, Nat.zero_le _, hset.chars, fun r hr => ?_⟩,
      ⟨rfl, rfl, rfl⟩, rfl⟩
    · change t.row + 1 < t.height
      omega
    · exact hlines r (Nat.lt_succ_iff.mp hr)

/-- **`terminal_putchar`** moves the cursor on, in a new row if this one is full. -/
theorem Ok.terminalPutchar (h : t.Ok) {c : UInt8} (hc : Allowed c) :
    ∃ t', t.terminalPutchar c = some t' ∧ t'.Ok ∧ SameSize t t' ∧
      (t.column < t.width → t'.column = t.column + 1 ∧ t'.row = t.row) := by
  obtain ⟨t₁, ht₁, h₁, hs₁, hcol⟩ : ∃ t₁, (if t.column = t.width then t.terminalReturn else some t) =
      some t₁ ∧ t₁.Ok ∧ SameSize t t₁ ∧ t₁.column < t₁.width ∧ (t.column < t.width → t₁ = t) := by
    by_cases hfull : t.column = t.width
    · obtain ⟨t₁, ht₁, h₁, hs₁, h0⟩ := h.terminalReturn
      have := h₁.width
      rw [if_pos hfull]
      exact ⟨t₁, ht₁, h₁, hs₁, by omega, fun hlt => by omega⟩
    · have := h.column
      rw [if_neg hfull]
      exact ⟨t, rfl, h, ⟨rfl, rfl, rfl⟩, by omega, fun _ => rfl⟩
  have h₂ := h₁.setCursor hc
  unfold Terminal.terminalPutchar
  rw [ht₁]
  simp only [Option.bind_eq_bind, Option.bind_some, set_eq c h₁.cursor_lt]
  refine ⟨_, rfl, ⟨h₂.size, h₂.width, h₂.row, hcol.1, h₂.chars, h₂.lines⟩,
    ⟨hs₁.width, hs₁.height, hs₁.display⟩, fun hlt => ?_⟩
  rw [hcol.2 hlt]
  exact ⟨rfl, rfl⟩

/-! ## `terminal_backspace` -/

/-- In row 0 the search ends at the first newline of the row. -/
theorem findNewline_first {c₀ : Nat} (hlt : c₀ < t.size) (hnl : t.buffer c₀ = newline) :
    ∀ (fuel column : Nat), column ≤ c₀ → c₀ < column + fuel →
    ∃ c ≤ c₀, t.findNewline 0 fuel column = some c ∧ t.buffer c = newline
  | 0, column, _, hf => by omega
  | fuel + 1, column, hle, hf => by
    have hget : t.get (column + 0 * (t.width - 1)) = some (t.buffer column) := by
      rw [Nat.zero_mul, Nat.add_zero, get, if_pos (by omega)]
    rw [findNewline, hget]
    simp only [Option.bind_eq_bind, Option.bind_some]
    by_cases hc : t.buffer column = newline
    · rw [if_pos hc]
      exact ⟨column, hle, rfl, hc⟩
    · have hne : column ≠ c₀ := fun e => hc (e ▸ hnl)
      rw [if_neg hc]
      exact findNewline_first hlt hnl fuel (column + 1) (by omega) (by omega)

/-- The newline search of `terminal_backspace`, when there is one, stops at a cell of the row above. -/
def SearchStays (t : Terminal) : Prop :=
  t.column = 0 → t.row ≠ 0 → ∃ c, t.findNewline (t.row - 1) (t.size + 1) 0 = some c ∧
    (t.row - 1) * (t.width + 1) ≤ c + (t.row - 1) * (t.width - 1) ∧
    c + (t.row - 1) * (t.width - 1) < t.row * (t.width + 1)

theorem Ok.search (h : t.Ok) (hrow : t.row = 1) : ∃ c ≤ t.width,
    t.findNewline 0 (t.size + 1) 0 = some c := by
  obtain ⟨c₀, hc₀, hnl⟩ := h.lines 0 (by omega)
  rw [Nat.zero_mul, Nat.add_zero] at hnl
  have hlt : c₀ < t.size := by
    have hcell := cell_lt hc₀ (show 0 < t.height by have := h.row; omega)
    rw [h.size]
    omega
  obtain ⟨c, hc, hfind, -⟩ := findNewline_first hlt hnl (t.size + 1) 0 (by omega) (by omega)
  exact ⟨c, Nat.le_trans hc hc₀, hfind⟩

theorem Ok.searchStays (h : t.Ok) (hrow : t.column = 0 → t.row < 2) : t.SearchStays := by
  intro h0 hr
  have h1 : t.row = 1 := by
    have := hrow h0
    omega
  obtain ⟨c, hc, hfind⟩ := h.search h1
  rw [h1]
  exact ⟨c, hfind, by omega, by omega⟩

/-- **`terminal_backspace`** erases a character, or goes back to the end of row 0. -/
theorem Ok.terminalBackspace (h : t.Ok) (hrow : t.column = 0 → t.row < 2) :
    ∃ t', t.terminalBackspace = some t' ∧ t'.Ok ∧ SameSize t t' := by
  have hcol := h.column
  unfold Terminal.terminalBackspace
  by_cases h0 : t.column = 0
  · rw [if_neg (not_not_intro h0)]
    by_cases hr : t.row = 0
    · rw [if_neg (not_not_intro hr)]
      exact ⟨t, rfl, h, ⟨rfl, rfl, rfl⟩⟩
    · have h1 : t.row = 1 := by
        have := hrow h0
        omega
      obtain ⟨c, hc, hfind⟩ := h.search h1
      rw [if_pos hr, h1]
      simp only [Nat.sub_self, hfind, Option.bind_eq_bind, Option.bind_some]
      refine ⟨_, rfl, ⟨h.size, h.width, ?_, hc, h.chars, fun r hr => ?_⟩, ⟨rfl, rfl, rfl⟩⟩
      · have := h.row
        change 0 < t.height
        omega
      · exact absurd hr (Nat.not_lt_zero r)
  · rw [if_pos h0]
    have h₁ : Ok { t with column := t.column - 1 } :=
      ⟨h.size, h.width, h.row, by change t.column - 1 ≤ t.width; omega, h.chars, h.lines⟩
    obtain ⟨t₂, ht₂, h₂, hs₂, -⟩ := h₁.terminalPutchar allowed_zero
    simp only [ht₂, Option.bind_eq_bind, Option.bind_some]
    have := h₂.column
    exact ⟨_, rfl, ⟨h₂.size, h₂.width, h₂.row, by change t₂.column - 1 ≤ t₂.width; omega, h₂.chars,
      h₂.lines⟩, ⟨hs₂.width, hs₂.height, hs₂.display⟩⟩

/-! ## Runs -/

/-- The condition on the bytes: no `'\b'` at the start of a row other than the first two. -/
def Meets (t : Terminal) (data : UInt8) : Prop := data = backspace → t.column = 0 → t.row < 2

/-- **`terminal_write`** of a byte that meets the condition. -/
theorem Ok.terminalWrite (h : t.Ok) {data : UInt8} (hm : t.Meets data) :
    ∃ t', t.terminalWrite data = some t' ∧ t'.Ok ∧ SameSize t t' := by
  have hrefl : SameSize t t := ⟨rfl, rfl, rfl⟩
  unfold Terminal.terminalWrite
  by_cases haddr : t.displayAddr = 0
  · rw [if_pos haddr]
    exact ⟨t, rfl, h, hrefl⟩
  · rw [if_neg haddr]
    obtain ⟨t₁, ht₁, h₁, hs₁, hsame⟩ : ∃ t₁,
        (if 0x20 ≤ data ∧ data < 0x7F then t.terminalPutchar data else some t) = some t₁ ∧ t₁.Ok ∧
        SameSize t t₁ ∧ (¬ (0x20 ≤ data ∧ data < 0x7F) → t₁ = t) := by
      by_cases hp : 0x20 ≤ data ∧ data < 0x7F
      · obtain ⟨t₁, ht₁, h₁, hs₁, -⟩ := h.terminalPutchar (.inl hp)
        rw [if_pos hp]
        exact ⟨t₁, ht₁, h₁, hs₁, fun hn => absurd hp hn⟩
      · rw [if_neg hp]
        exact ⟨t, rfl, h, hrefl, fun _ => rfl⟩
    obtain ⟨t₂, ht₂, h₂, hs₂⟩ : ∃ t₂, (if data = backspace then
          t₁.terminalBackspace.bind fun t => t.set t.cursor 0
        else if data = newline then (t₁.set t₁.cursor data).bind fun t => t.terminalReturn
        else some t₁) = some t₂ ∧ t₂.Ok ∧ SameSize t₁ t₂ := by
      by_cases hb : data = backspace
      · have heq : t₁ = t := hsame (by rw [hb]; decide)
        obtain ⟨t₂, ht₂, h₂, hs₂⟩ := h₁.terminalBackspace (by rw [heq]; exact hm hb)
        rw [if_pos hb, ht₂]
        refine ⟨_, set_eq 0 h₂.cursor_lt, h₂.setCursor allowed_zero, ?_⟩
        exact ⟨hs₂.width, hs₂.height, hs₂.display⟩
      · rw [if_neg hb]
        by_cases hn : data = newline
        · have hset := h₁.setCursor allowed_newline
          obtain ⟨t₂, ht₂, h₂, hs₂, -⟩ := hset.terminalReturn
          rw [if_pos hn, hn, set_eq newline h₁.cursor_lt]
          exact ⟨t₂, ht₂, h₂, ⟨hs₂.width, hs₂.height, hs₂.display⟩⟩
        · rw [if_neg hn]
          exact ⟨t₁, rfl, h₁, ⟨rfl, rfl, rfl⟩⟩
    obtain ⟨screen, hscreen⟩ := terminalRender_spec h₂.size
    simp only [ht₁, Option.bind_eq_bind, Option.bind_some]
    rw [ht₂, Option.bind_some, hscreen]
    have hs := hs₁.trans hs₂
    exact ⟨_, rfl, h₂.screen screen, ⟨hs.width, hs.height, hs.display⟩⟩

theorem ok_initial {width height displayAddr : Nat} (hw : 2 ≤ width) (hh : 1 ≤ height) :
    Ok (terminalInitialize width height displayAddr) :=
  ⟨rfl, hw, hh, Nat.zero_le _, fun _ => allowed_zero, fun r hr => absurd hr (Nat.not_lt_zero r)⟩

/-- The terminals that sequences of bytes lead to, where each byte meets `P`. -/
abbrev Writes (P : Terminal → UInt8 → Prop) : Terminal → Terminal → Prop := Run terminalWrite P

theorem ok_of_writes {width height displayAddr : Nat} (hw : 2 ≤ width) (hh : 1 ≤ height)
    (h : Writes Meets (terminalInitialize width height displayAddr) t) :
    t.Ok ∧ SameSize (terminalInitialize width height displayAddr) t := by
  refine Run.invariant (fun t => t.Ok ∧ SameSize (terminalInitialize width height displayAddr) t)
    ⟨ok_initial hw hh, rfl, rfl, rfl⟩ (fun t data t' hi hm hstep => ?_) h
  obtain ⟨t₁, ht₁, h₁, hs₁⟩ := hi.1.terminalWrite hm
  obtain rfl : t₁ = t' := Option.some.inj (ht₁.symm.trans hstep)
  exact ⟨h₁, hi.2.trans hs₁⟩

/-- **The terminal is sound along every sequence of bytes that meets the condition**: the cursor is in
range, the buffer holds printable characters, newlines and zeros, and the next byte uses only indexes
of the buffer and searches only the row it goes back to. -/
theorem terminal_write_sound {width height displayAddr : Nat} (hw : 2 ≤ width) (hh : 1 ≤ height)
    (h : Writes Meets (terminalInitialize width height displayAddr) t) :
    t.row < height ∧ t.column ≤ width ∧ t.size = height * (width + 1) ∧
    (∀ i, Allowed (t.buffer i)) ∧
    ∀ data, t.Meets data →
      (∃ t', t.terminalWrite data = some t') ∧ (data = backspace → t.SearchStays) := by
  obtain ⟨hok, hs⟩ := ok_of_writes hw hh h
  have hwidth : t.width = width := hs.width
  have hheight : t.height = height := hs.height
  refine ⟨hheight ▸ hok.row, hwidth ▸ hok.column, ?_, hok.chars, fun data hm => ⟨?_, fun hb => ?_⟩⟩
  · rw [hok.size, hwidth, hheight]
  · obtain ⟨t', ht', -⟩ := hok.terminalWrite hm
    exact ⟨t', ht'⟩
  · exact hok.searchStays (hm hb)

/-- The terminal after these bytes. -/
def writeAll (t : Terminal) : List UInt8 → Option Terminal
  | [] => some t
  | data :: rest => (t.terminalWrite data).bind fun t => writeAll t rest

/-- A newline is taken back in the second row. -/
theorem terminal_write_sound_back : ∃ t t', Writes Meets (terminalInitialize 2 3 0x1000) t ∧
    t.row = 1 ∧ t.terminalWrite backspace = some t' ∧ t'.row = 0 ∧ t.column ≤ 2 := by
  have hrun : ((terminalInitialize 2 3 0x1000).terminalWrite newline).map (fun t => (t.row, t.column)) =
      some (1, 0) := by decide +kernel
  obtain ⟨t, ht, he⟩ := Option.map_eq_some_iff.mp hrun
  obtain ⟨hrow, -⟩ := Prod.mk.inj he
  have hreach : Writes Meets (terminalInitialize 2 3 0x1000) t :=
    .step newline .init (fun hb => absurd hb (by decide)) ht
  have hm : t.Meets backspace := fun _ _ => by omega
  have hsound := terminal_write_sound (by decide) (by decide) hreach
  obtain ⟨t', ht'⟩ := (hsound.2.2.2.2 backspace hm).1
  have hback : ((terminalInitialize 2 3 0x1000).terminalWrite newline).bind
      (fun t => (t.terminalWrite backspace).map fun t => t.row) = some 0 := by decide +kernel
  rw [ht, Option.bind_some, ht', Option.map_some] at hback
  exact ⟨t, t', hreach, hrow, ht', Option.some.inj hback, hsound.2.1⟩

/-- **The cursor drifts**: an empty row, a full one, and back over the wrap. The search in row 1 starts
two cells too early, so that the column it stops at is beyond the row. -/
theorem terminal_backspace_drifts : ∃ t, Writes (fun _ _ => True) (terminalInitialize 2 3 0x1000) t ∧
    t.row = 1 ∧ t.column = 4 ∧ ¬ t.column ≤ 2 := by
  have hrun : ((terminalInitialize 2 3 0x1000).writeAll
      [newline, 97, 97, 97, backspace, backspace]).map (fun t => (t.row, t.column)) =
      some (1, 4) := by decide +kernel
  obtain ⟨t, ht, he⟩ := Option.map_eq_some_iff.mp hrun
  obtain ⟨hrow, hcol⟩ := Prod.mk.inj he
  have hall : ∀ (l : List UInt8) (s : Terminal), Writes (fun _ _ => True)
      (terminalInitialize 2 3 0x1000) s → s.writeAll l = some t →
      Writes (fun _ _ => True) (terminalInitialize 2 3 0x1000) t := by
    intro l
    induction l with
    | nil =>
      intro s hs hl
      exact Option.some.inj hl ▸ hs
    | cons data l ih =>
      intro s hs hl
      obtain ⟨s', hs', hl⟩ := Option.bind_eq_some_iff.mp hl
      exact ih s' (.step data hs trivial hs') hl
  exact ⟨t, hall _ _ .init ht, hrow, hcol, by omega⟩

end Terminal

end Colibri.Tty

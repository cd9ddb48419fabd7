import Colibri.Tty

/-!
# Taking back a newline

`terminal_backspace` at the start of a row goes back to the end of the line above it, and looks for
the newline there. Where the search finds it, the terminal is as it was before the newline. It does so
in row 0. In another row the search starts too early, at `row * (TERMINAL_WIDTH - 1)`, and the column
it stops in is right if there happens to be a newline as far in front of the right one as the search
starts too early.

## Results

* `Tidy.terminalWrite`: what a byte keeps, if it is no backspace that stops in a wrong column.
* `restores_iff`: the states in which a newline and a backspace cancel out.
-/

namespace Colibri.Tty

namespace Terminal

open Colibri.Lib

variable {t t' : Terminal}

/-- Row `r` of the buffer ends in column `c`: the only newline of the row is there, and nothing behind
it. -/
structure LineEnd (b : Nat → UInt8) (w r c : Nat) : Prop where
  le : c ≤ w
  mark : b (c + r * (w + 1)) = newline
  before : ∀ d < c, b (d + r * (w + 1)) ≠ newline
  behind : ∀ d, c < d → d ≤ w → b (d + r * (w + 1)) = 0

/-- **Every row above the cursor is a line**, the row of the cursor has none, and behind the cursor
there is nothing. -/
structure Tidy (t : Terminal) : Prop where
  size : t.size = t.height * (t.width + 1)
  width : 0 < t.width
  row : t.row < t.height
  column : t.column ≤ t.width
  empty : ∀ i, t.cursor ≤ i → t.buffer i = 0
  text : ∀ d < t.column, t.buffer (d + t.row * (t.width + 1)) ≠ newline
  lines : ∀ r < t.row, ∃ c, LineEnd t.buffer t.width r c

/-- From cell `origin` on, the first newline of a buffer is `c` cells on. -/
def NewlineAt (b : Nat → UInt8) (origin c : Nat) : Prop :=
  b (c + origin) = newline ∧ ∀ d < c, b (d + origin) ≠ newline

/-- The search of a backspace stops at the newline of the row it goes back to. -/
def Lands (t : Terminal) : Prop :=
  t.column = 0 → t.row ≠ 0 → ∃ c ≤ t.width,
    t.buffer (c + (t.row - 1) * (t.width + 1)) = newline ∧
      NewlineAt t.buffer ((t.row - 1) * (t.width - 1)) c

/-- The condition on the bytes. -/
def LandsOn (t : Terminal) (data : UInt8) : Prop := data = backspace → t.Lands

/-- A newline scrolls the screen. -/
def Scrolls (t : Terminal) : Prop := t.displayAddr ≠ 0 ∧ t.row + 1 = t.height

instance (t : Terminal) : Decidable t.Scrolls := inferInstanceAs (Decidable (_ ∧ _))

/-- A newline and a backspace put the cursor back in its column of its line, and from there on all
cells are restored. If the newline scrolls the screen, the line is one row higher, and so are the
cells. -/
def Restores (t : Terminal) : Prop :=
  ∃ t₁ t₂, t.terminalWrite newline = some t₁ ∧ t₁.terminalWrite backspace = some t₂ ∧
    t₂.column = t.column ∧
    if t.Scrolls then t₂.row + 1 = t.row ∧ ∀ i, t₂.cursor ≤ i → i < t.size →
      t₂.buffer i = if i + (t.width + 1) < t.size then t.buffer (i + (t.width + 1)) else 0
    else t₂.row = t.row ∧ ∀ i, t.cursor ≤ i → i < t.size → t₂.buffer i = t.buffer i

/-- The line is in row 0, or another newline is where the search takes it for that of the line. If
the newline scrolls the screen, this is about the row above the line. -/
def Found (t : Terminal) : Prop :=
  if t.row + 1 = t.height then
    t.row ≠ 0 ∧ (t.row = 1 ∨
      NewlineAt t.buffer ((t.row - 1) * (t.width - 1) + (t.width + 1)) t.column)
  else t.row = 0 ∨ NewlineAt t.buffer (t.row * (t.width - 1)) t.column

/-! ## Cells and searches -/

theorem LineEnd.congr {b b' : Nat → UInt8} {w r r' c : Nat} (h : LineEnd b w r c)
    (hb : ∀ d ≤ w, b' (d + r' * (w + 1)) = b (d + r * (w + 1))) : LineEnd b' w r' c where
  le := h.le
  mark := (hb c h.le).trans h.mark
  before d hd := by
    rw [hb d (Nat.le_of_lt (Nat.lt_of_lt_of_le hd h.le))]
    exact h.before d hd
  behind d hd hd' := (hb d hd').trans (h.behind d hd hd')

/-- A row has one end. -/
theorem LineEnd.unique {b : Nat → UInt8} {w r c c' : Nat} (h : LineEnd b w r c) (hc : c' ≤ w)
    (hnl : b (c' + r * (w + 1)) = newline) : c' = c := by
  rcases Nat.lt_trichotomy c' c with hlt | heq | hgt
  · exact absurd hnl (h.before c' hlt)
  · exact heq
  · rw [h.behind c' hgt hc] at hnl
    exact absurd hnl (by decide)

theorem findNewline_eq {r c : Nat} (hb : t.buffer (c + r * (t.width - 1)) = newline)
    (hlt : c + r * (t.width - 1) < t.size) {fuel column : Nat} (hle : column ≤ c)
    (hfuel : c < column + fuel)
    (hno : ∀ d, column ≤ d → d < c → t.buffer (d + r * (t.width - 1)) ≠ newline) :
    t.findNewline r fuel column = some c := by
  induction fuel generalizing column with
  | zero => omega
  | succ fuel ih =>
    rw [findNewline, get, if_pos (by omega)]
    simp only [Option.bind_eq_bind, Option.bind_some]
    rcases Nat.lt_or_eq_of_le hle with hlt' | rfl
    · rw [if_neg (hno column (Nat.le_refl _) hlt')]
      exact ih hlt' (by omega) fun d hd => hno d (by omega)
    · rw [if_pos hb]
      rfl

/-- Where the search stops. -/
theorem findNewline_spec {r c fuel column : Nat} (h : t.findNewline r fuel column = some c) :
    column ≤ c ∧ t.buffer (c + r * (t.width - 1)) = newline ∧
      ∀ d, column ≤ d → d < c → t.buffer (d + r * (t.width - 1)) ≠ newline := by
  induction fuel generalizing column with
  | zero => exact nomatch h
  | succ fuel ih =>
    rw [findNewline, get] at h
    split at h
    case isFalse => exact absurd h.symm (Option.some_ne_none _)
    case isTrue =>
      simp only [Option.bind_eq_bind, Option.bind_some] at h
      split at h
      case isTrue hnl =>
        obtain rfl : column = c := Option.some.inj h
        exact ⟨Nat.le_refl _, hnl, fun d hd hd' => by omega⟩
      case isFalse hnl =>
        obtain ⟨hle, hc, hno⟩ := ih h
        refine ⟨by omega, hc, fun d hd hd' => ?_⟩
        rcases Nat.lt_or_eq_of_le hd with hlt | rfl
        · exact hno d hlt hd'
        · exact hnl

theorem findNewline_iff {r c : Nat} (hlt : c + r * (t.width - 1) < t.size) :
    t.findNewline r (t.size + 1) 0 = some c ↔ NewlineAt t.buffer (r * (t.width - 1)) c := by
  constructor
  · intro h
    obtain ⟨-, hc, hno⟩ := findNewline_spec h
    exact ⟨hc, fun d hd => hno d (Nat.zero_le d) hd⟩
  · rintro ⟨hc, hno⟩
    exact findNewline_eq hc hlt (Nat.zero_le c) (by omega) fun d _ hd => hno d hd

/-- A row starts behind the row above it. -/
theorem row_start {r : Nat} (hr : r ≠ 0) (w : Nat) : r * (w + 1) = (r - 1) * (w + 1) + (w + 1) := by
  rw [← Nat.succ_mul]
  congr 1
  omega

theorem Tidy.cursor_lt (h : t.Tidy) : t.cursor < t.size := by
  rw [h.size]
  exact cell_lt h.column h.row

/-- The cell of the search is in the buffer. -/
theorem Tidy.search_lt (h : t.Tidy) {r c : Nat} (hr : r < t.height) (hc : c ≤ t.width) :
    c + r * (t.width - 1) < t.size := by
  have hcell := cell_lt hc hr
  have hle : r * (t.width - 1) ≤ r * (t.width + 1) := Nat.mul_le_mul_left r (by omega)
  rw [h.size]
  omega

/-! ## A newline -/

/-- The buffer behind a newline. -/
def newlineBuffer (t : Terminal) (i : Nat) : UInt8 :=
  let t := { t with buffer := Function.update t.buffer t.cursor newline }
  if t.row + 1 = t.height then
    if (t.height - 1) * (t.width + 1) ≤ i ∧ i < t.height * (t.width + 1) then 0
    else t.shifted (t.height - 1) i
  else t.buffer i

/-- The terminal behind a newline. -/
def newlined (t : Terminal) (screen : List (List UInt8)) : Terminal :=
  { t with
    buffer := t.newlineBuffer
    row := if t.row + 1 = t.height then t.row else t.row + 1
    column := 0
    screen }

/-- What `terminal_return` does. -/
theorem terminalReturn_eq (hsize : t.size = t.height * (t.width + 1)) (hrow : t.row < t.height)
    (hcol : t.column ≤ t.width) : ∃ screen, t.terminalReturn = some (t.newlined screen) := by
  have hlt : t.cursor < t.size := by
    rw [hsize]
    exact cell_lt hcol hrow
  unfold terminalReturn
  rw [set_eq newline hlt]
  simp only [Option.bind_eq_bind, Option.bind_some]
  by_cases hlast : t.row + 1 = t.height
  · obtain ⟨screen, hup⟩ := terminalMoveUp_spec
      (t := { t with row := t.row + 1, buffer := Function.update t.buffer t.cursor newline }) hsize
      (by change 0 < t.height; omega)
    rw [if_pos hlast, hup]
    refine ⟨screen, congrArg some ?_⟩
    rw [newlined, if_pos hlast]
    simp only [Terminal.mk.injEq, true_and, and_true, Nat.add_sub_cancel]
    funext i
    rw [newlineBuffer, if_pos hlast]
    rfl
  · rw [if_neg hlast]
    refine ⟨t.screen, congrArg some ?_⟩
    rw [newlined, if_neg hlast]
    simp only [Terminal.mk.injEq, true_and, and_true]
    funext i
    rw [newlineBuffer, if_neg hlast]

/-- `terminal_write` has written the newline before `terminal_return` does. -/
theorem newlined_update {screen : List (List UInt8)} :
    newlined { t with buffer := Function.update t.buffer t.cursor newline } screen =
      t.newlined screen := by
  have hb : newlineBuffer { t with buffer := Function.update t.buffer t.cursor newline } =
      t.newlineBuffer := by
    funext i
    simp only [newlineBuffer, cursor, shifted, Function.update_idem]
  rw [newlined, newlined, hb]

/-- What `terminal_write` does with a newline. -/
theorem terminalWrite_newline (h : t.Tidy) (hd : t.displayAddr ≠ 0) :
    ∃ screen, t.terminalWrite newline = some (t.newlined screen) := by
  obtain ⟨s, hs⟩ := terminalReturn_eq
    (t := { t with buffer := Function.update t.buffer t.cursor newline }) h.size h.row h.column
  rw [newlined_update] at hs
  obtain ⟨screen, hscreen⟩ := terminalRender_spec (t := t.newlined s) h.size
  refine ⟨screen, ?_⟩
  rw [terminalWrite, if_neg hd, if_neg (by decide)]
  simp only [Option.bind_eq_bind, Option.bind_some]
  rw [if_neg (by decide), if_pos trivial, set_eq newline h.cursor_lt, Option.bind_some, hs, Option.bind_some, hscreen]
  rfl

/-- The row that a newline ends is a line, as those above it. -/
theorem Tidy.lines_update (h : t.Tidy) {r : Nat} (hr : r ≤ t.row) :
    ∃ c, LineEnd (Function.update t.buffer t.cursor newline) t.width r c := by
  have hcol := h.column
  rcases Nat.lt_or_eq_of_le hr with hlt | rfl
  · obtain ⟨c, hc⟩ := h.lines r hlt
    refine ⟨c, hc.congr fun d hd => Function.update_of_ne (fun he => ?_) _ _⟩
    have := (cell_inj hd hcol he).2
    omega
  · refine ⟨t.column, hcol, Function.update_self _ _ _, fun d hd => ?_, fun d hd hd' => ?_⟩
    · rw [Function.update_of_ne (by rw [cursor]; omega)]
      exact h.text d hd
    · rw [Function.update_of_ne (by rw [cursor]; omega)]
      exact h.empty _ (by rw [cursor]; omega)

theorem Tidy.empty_update (h : t.Tidy) {i : Nat} (hi : t.cursor < i) :
    Function.update t.buffer t.cursor newline i = 0 := by
  rw [Function.update_of_ne (Nat.ne_of_gt hi)]
  exact h.empty i (Nat.le_of_lt hi)

/-- Where a newline does not scroll the screen. -/
theorem newlineBuffer_of_ne (h : t.row + 1 ≠ t.height) :
    t.newlineBuffer = Function.update t.buffer t.cursor newline := by
  funext i
  rw [newlineBuffer, if_neg h]

/-- Where it does. -/
theorem newlineBuffer_of_eq (h : t.row + 1 = t.height) (i : Nat) : t.newlineBuffer i =
    if i < t.row * (t.width + 1) then
      Function.update t.buffer t.cursor newline (i + (t.width + 1))
    else if i < t.height * (t.width + 1) then 0
    else Function.update t.buffer t.cursor newline i := by
  have hlast : t.height - 1 = t.row := by omega
  have hle : t.row * (t.width + 1) ≤ t.height * (t.width + 1) := Nat.mul_le_mul_right _ (by omega)
  rw [newlineBuffer, if_pos h]
  simp only [shifted, hlast]
  by_cases hi : i < t.row * (t.width + 1)
  · rw [if_neg (by omega), if_pos hi, if_pos hi]
  · rw [if_neg hi, if_neg hi]
    by_cases hi' : i < t.height * (t.width + 1)
    · rw [if_pos (by omega), if_pos hi']
    · rw [if_neg (by omega), if_neg hi']

/-- **A newline** ends the row of the cursor. -/
theorem Tidy.newlined (h : t.Tidy) (screen : List (List UInt8)) : Tidy (t.newlined screen) := by
  have hrow := h.row
  have hcol := h.column
  have hnext : (t.row + 1) * (t.width + 1) = t.row * (t.width + 1) + (t.width + 1) :=
    Nat.succ_mul _ _
  have hcursor : t.cursor < (t.row + 1) * (t.width + 1) := by
    rw [cursor]
    omega
  by_cases hlast : t.row + 1 = t.height
  · have hrow' : (t.newlined screen).row = t.row := if_pos hlast
    refine ⟨h.size, h.width, by rw [hrow']; exact hrow, Nat.zero_le _, fun i hi => ?_,
      fun d hd => absurd hd (Nat.not_lt_zero d), fun r hr => ?_⟩
    · rw [cursor, hrow'] at hi
      change 0 + t.row * (t.width + 1) ≤ i at hi
      refine (newlineBuffer_of_eq hlast i).trans ?_
      rw [if_neg (by omega)]
      split
      case isTrue => rfl
      case isFalse hout => exact h.empty_update (by rw [← hlast] at hout; omega)
    · rw [hrow'] at hr
      obtain ⟨c, hc⟩ := h.lines_update (Nat.succ_le_of_lt hr)
      refine ⟨c, hc.congr fun d hd => ?_⟩
      have hcell : d + r * (t.width + 1) < t.row * (t.width + 1) := cell_lt hd hr
      refine (newlineBuffer_of_eq hlast _).trans ?_
      rw [if_pos hcell, Nat.add_assoc, ← Nat.succ_mul]
  · have hlt : t.row + 1 < t.height := by omega
    have hrow' : (t.newlined screen).row = t.row + 1 := if_neg hlast
    have hb : (t.newlined screen).buffer = _ := newlineBuffer_of_ne hlast
    refine ⟨h.size, h.width, by rw [hrow']; exact hlt, Nat.zero_le _, fun i hi => ?_,
      fun d hd => absurd hd (Nat.not_lt_zero d), fun r hr => ?_⟩
    · rw [cursor, hrow'] at hi
      change 0 + (t.row + 1) * (t.width + 1) ≤ i at hi
      rw [hb]
      exact h.empty_update (by omega)
    · rw [hrow'] at hr
      rw [hb]
      exact h.lines_update (Nat.le_of_lt_succ hr)

/-! ## The other bytes -/

/-- Writing at the cursor. -/
theorem Tidy.put (h : t.Tidy) (hlt : t.column < t.width) {c : UInt8} (hc : c ≠ newline) :
    Tidy { t with buffer := Function.update t.buffer t.cursor c, column := t.column + 1 } := by
  have hcol := h.column
  refine ⟨h.size, h.width, h.row, hlt, fun i hi => ?_, fun d hd => ?_, fun r hr => ?_⟩
  · change t.column + 1 + t.row * (t.width + 1) ≤ i at hi
    change Function.update t.buffer t.cursor c i = 0
    rw [Function.update_of_ne (by rw [cursor]; omega)]
    exact h.empty i (by rw [cursor]; omega)
  · change d < t.column + 1 at hd
    change Function.update t.buffer t.cursor c (d + t.row * (t.width + 1)) ≠ newline
    rcases Nat.lt_or_eq_of_le (Nat.le_of_lt_succ hd) with hd | rfl
    · rw [Function.update_of_ne (by rw [cursor]; omega)]
      exact h.text d hd
    · rwa [← cursor, Function.update_self]
  · obtain ⟨e, he⟩ := h.lines r hr
    refine ⟨e, he.congr fun d hd => Function.update_of_ne (fun he => ?_) _ _⟩
    have hr' := (cell_inj hd hcol he).2
    change r < t.row at hr
    omega

/-- **`terminal_putchar`** writes a character. -/
theorem Tidy.terminalPutchar (h : t.Tidy) {c : UInt8} (hc : c ≠ newline) :
    ∃ t', t.terminalPutchar c = some t' ∧ t'.Tidy ∧ SameSize t t' := by
  unfold Terminal.terminalPutchar
  by_cases hfull : t.column = t.width
  · obtain ⟨screen, hret⟩ := terminalReturn_eq h.size h.row h.column
    have h₁ := h.newlined screen
    rw [if_pos hfull, hret]
    simp only [Option.bind_eq_bind, Option.bind_some, set_eq c h₁.cursor_lt]
    exact ⟨_, rfl, h₁.put h.width hc, ⟨rfl, rfl, rfl⟩⟩
  · have hlt := Nat.lt_of_le_of_ne h.column hfull
    rw [if_neg hfull]
    simp only [Option.bind_eq_bind, Option.bind_some, set_eq c h.cursor_lt]
    exact ⟨_, rfl, h.put hlt hc, ⟨rfl, rfl, rfl⟩⟩

/-! ## A backspace -/

/-- The terminal behind a backspace that goes back to a cell. -/
def erased (t : Terminal) (row column : Nat) (screen : List (List UInt8)) : Terminal :=
  { t with
    row, column, screen
    buffer := Function.update t.buffer (column + row * (t.width + 1)) 0 }

/-- A cursor that goes back to a cell behind which there is nothing. -/
theorem Tidy.erased (h : t.Tidy) {r c : Nat} (hr : r ≤ t.row) (hc : c ≤ t.width)
    (hempty : ∀ i, c + r * (t.width + 1) < i → t.buffer i = 0)
    (htext : ∀ d < c, t.buffer (d + r * (t.width + 1)) ≠ newline)
    (screen : List (List UInt8)) : Tidy (t.erased r c screen) := by
  refine ⟨h.size, h.width, Nat.lt_of_le_of_lt hr h.row, hc, fun i hi => ?_, fun d hd => ?_,
    fun r' hr' => ?_⟩
  · change c + r * (t.width + 1) ≤ i at hi
    change Function.update t.buffer (c + r * (t.width + 1)) 0 i = 0
    rcases Nat.lt_or_eq_of_le hi with hlt | rfl
    · rw [Function.update_of_ne (Nat.ne_of_gt hlt)]
      exact hempty i hlt
    · exact Function.update_self _ _ _
  · change d < c at hd
    change Function.update t.buffer (c + r * (t.width + 1)) 0 (d + r * (t.width + 1)) ≠ newline
    rw [Function.update_of_ne (by omega)]
    exact htext d hd
  · change r' < r at hr'
    obtain ⟨e, he⟩ := h.lines r' (by omega)
    refine ⟨e, he.congr fun d hd => Function.update_of_ne (fun he => ?_) _ _⟩
    have := (cell_inj hd hc he).2
    omega

/-- What `terminal_write` does with a backspace, when `terminal_backspace` goes back to a cell. -/
theorem terminalWrite_backspace (h : t.Tidy) (hd : t.displayAddr ≠ 0) {r c : Nat} (hr : r ≤ t.row)
    (hc : c ≤ t.width) {b : Nat → UInt8}
    (hb : t.terminalBackspace = some { t with row := r, column := c, buffer := b })
    (hsame : Function.update b (c + r * (t.width + 1)) 0 =
      Function.update t.buffer (c + r * (t.width + 1)) 0) :
    ∃ screen, t.terminalWrite backspace = some (t.erased r c screen) := by
  have hlt : c + r * (t.width + 1) < t.size := by
    rw [h.size]
    exact cell_lt hc (Nat.lt_of_le_of_lt hr h.row)
  obtain ⟨screen, hscreen⟩ := terminalRender_spec (t := t.erased r c t.screen) h.size
  refine ⟨screen, ?_⟩
  rw [terminalWrite, if_neg hd, if_neg (by decide)]
  simp only [Option.bind_eq_bind, Option.bind_some]
  rw [if_pos trivial, hb, Option.bind_some, set_eq 0 (by exact hlt), Option.bind_some, cursor, hsame]
  exact hscreen

/-- The column that the search of a backspace stops in. -/
theorem column_of_terminalWrite (hd : t.displayAddr ≠ 0) (hcol : t.column = 0) (hrow : t.row ≠ 0)
    (h : t.terminalWrite backspace = some t') :
    t.findNewline (t.row - 1) (t.size + 1) 0 = some t'.column := by
  rw [terminalWrite, if_neg hd, if_neg (by decide)] at h
  simp only [Option.bind_eq_bind, Option.bind_some] at h
  rw [if_pos trivial, terminalBackspace, if_neg (not_not.mpr hcol), if_pos hrow] at h
  obtain ⟨t₂, hset, hrender⟩ := Option.bind_eq_some_iff.mp h
  obtain ⟨t₁, hback, hset⟩ := Option.bind_eq_some_iff.mp hset
  obtain ⟨c, hfind, hback⟩ := Option.bind_eq_some_iff.mp hback
  obtain rfl := Option.some.inj hback
  rw [set] at hset
  split at hset
  case isFalse => exact nomatch hset
  case isTrue =>
    obtain rfl := Option.some.inj hset
    obtain ⟨screen, -, rfl⟩ := Option.map_eq_some_iff.mp hrender
    exact hfind

/-- In a row, `terminal_backspace` clears the cell in front of the cursor. -/
theorem terminalBackspace_of_ne (h : t.Tidy) (hcol : t.column ≠ 0) :
    t.terminalBackspace = some { t with
      column := t.column - 1
      buffer := Function.update t.buffer (t.column - 1 + t.row * (t.width + 1)) 0 } := by
  have hle := h.column
  have hlt : t.column - 1 + t.row * (t.width + 1) < t.size := by
    rw [h.size]
    exact cell_lt (by omega) h.row
  have hput : Terminal.terminalPutchar { t with column := t.column - 1 } 0 = some { t with
      column := t.column - 1 + 1
      buffer := Function.update t.buffer (t.column - 1 + t.row * (t.width + 1)) 0 } := by
    unfold Terminal.terminalPutchar
    simp only [Option.bind_eq_bind]
    rw [if_neg (by change t.column - 1 ≠ t.width; omega), Option.bind_some,
      set_eq 0 (by exact hlt)]
    rfl
  rw [terminalBackspace, if_pos hcol]
  simp only [Option.bind_eq_bind]
  rw [hput]
  rfl

/-- **A backspace** whose search stops at the newline of its row goes back to a cell behind which
there is nothing. -/
theorem Tidy.terminalBackspace (h : t.Tidy) (hd : t.displayAddr ≠ 0) (hl : t.Lands) :
    ∃ r c screen, t.terminalWrite backspace = some (t.erased r c screen) ∧
      Tidy (t.erased r c screen) ∧
      (t.column = 0 → t.row ≠ 0 → r = t.row - 1 ∧ LineEnd t.buffer t.width r c) := by
  have hcols := h.column
  by_cases hcol : t.column = 0
  · by_cases hrow : t.row = 0
    · have hb : t.terminalBackspace = some t := by
        rw [Terminal.terminalBackspace, if_neg (not_not.mpr hcol), if_neg (not_not.mpr hrow)]
      obtain ⟨screen, hs⟩ := terminalWrite_backspace h hd (Nat.le_refl _) hcols hb rfl
      exact ⟨_, _, screen, hs, h.erased (Nat.le_refl _) hcols
        (fun i hi => h.empty i (Nat.le_of_lt hi)) h.text screen, fun _ hne => absurd hrow hne⟩
    · obtain ⟨c, hc, hnl, hfirst⟩ := hl hcol hrow
      obtain ⟨e, he⟩ := h.lines (t.row - 1) (by omega)
      obtain rfl := he.unique hc hnl
      have hrows := h.row
      have hfind := (findNewline_iff (h.search_lt (by omega) hc)).mpr hfirst
      have hb : t.terminalBackspace = some { t with row := t.row - 1, column := c } := by
        rw [Terminal.terminalBackspace, if_neg (not_not.mpr hcol), if_pos hrow]
        simp only [Option.bind_eq_bind]
        rw [hfind]
        rfl
      obtain ⟨screen, hs⟩ := terminalWrite_backspace h hd (Nat.sub_le _ 1) hc hb rfl
      refine ⟨_, _, screen, hs, h.erased (Nat.sub_le _ 1) hc (fun i hi => ?_) he.before screen,
        fun _ _ => ⟨rfl, he⟩⟩
      -- the rest of the line, and the rows from the cursor on
      have hnext := row_start hrow t.width
      by_cases hin : i < t.row * (t.width + 1)
      · have hrest := he.behind (i - (t.row - 1) * (t.width + 1)) (by omega) (by omega)
        rwa [Nat.sub_add_cancel (by omega)] at hrest
      · exact h.empty i (by rw [cursor]; omega)
  · obtain ⟨screen, hs⟩ := terminalWrite_backspace h hd (Nat.le_refl _) (by omega)
      (terminalBackspace_of_ne h hcol) (Function.update_idem _ _ _)
    exact ⟨_, _, screen, hs, h.erased (Nat.le_refl _) (by omega)
      (fun i hi => h.empty i (by rw [cursor]; omega)) (fun d hd => h.text d (by omega)) screen,
      fun h0 => absurd h0 hcol⟩

/-! ## Runs -/

theorem Tidy.screen (h : t.Tidy) (screen : List (List UInt8)) : Tidy { t with screen } :=
  ⟨h.size, h.width, h.row, h.column, h.empty, h.text, h.lines⟩

/-- **`terminal_write`** keeps the terminal tidy, if a backspace stops where it should. -/
theorem Tidy.terminalWrite (h : t.Tidy) {data : UInt8} (hl : t.LandsOn data) :
    ∃ t', t.terminalWrite data = some t' ∧ t'.Tidy ∧ SameSize t t' := by
  by_cases hd : t.displayAddr = 0
  · exact ⟨t, if_pos hd, h, ⟨rfl, rfl, rfl⟩⟩
  · by_cases hb : data = backspace
    · obtain ⟨r, c, screen, he, ht, -⟩ := h.terminalBackspace hd (hl hb)
      exact ⟨_, hb ▸ he, ht, ⟨rfl, rfl, rfl⟩⟩
    · by_cases hn : data = newline
      · obtain ⟨screen, he⟩ := terminalWrite_newline h hd
        exact ⟨_, hn ▸ he, h.newlined screen, ⟨rfl, rfl, rfl⟩⟩
      · obtain ⟨t₁, ht₁, h₁, hs⟩ : ∃ t₁,
            (if 0x20 ≤ data ∧ data < 0x7F then t.terminalPutchar data else some t) = some t₁ ∧
              t₁.Tidy ∧ SameSize t t₁ := by
          split
          case isTrue => exact h.terminalPutchar hn
          case isFalse => exact ⟨t, rfl, h, ⟨rfl, rfl, rfl⟩⟩
        obtain ⟨screen, hscreen⟩ := terminalRender_spec h₁.size
        refine ⟨_, ?_, h₁.screen screen, ⟨hs.width, hs.height, hs.display⟩⟩
        rw [Terminal.terminalWrite, if_neg hd, ht₁]
        simp only [Option.bind_eq_bind, Option.bind_some]
        rw [if_neg hb, if_neg hn, Option.bind_some, hscreen]

theorem tidy_initial {width height displayAddr : Nat} (hw : 0 < width) (hh : 0 < height) :
    Tidy (terminalInitialize width height displayAddr) :=
  ⟨rfl, hw, hh, Nat.zero_le _, fun _ _ => rfl, fun d hd => absurd hd (Nat.not_lt_zero d),
    fun r hr => absurd hr (Nat.not_lt_zero r)⟩

theorem tidy_of_writes {width height displayAddr : Nat} (hw : 0 < width) (hh : 0 < height)
    (h : Writes LandsOn (terminalInitialize width height displayAddr) t) : t.Tidy := by
  refine Run.invariant Tidy (tidy_initial hw hh) (fun t data t' hi hl hstep => ?_) h
  obtain ⟨t₁, ht₁, h₁, -⟩ := hi.terminalWrite hl
  rwa [Option.some.inj (ht₁.symm.trans hstep)] at h₁

/-! ## Both -/

theorem newlineAt_congr {b b' : Nat → UInt8} {origin origin' c : Nat}
    (h : ∀ d ≤ c, b (d + origin) = b' (d + origin')) :
    NewlineAt b origin c ↔ NewlineAt b' origin' c := by
  rw [NewlineAt, NewlineAt, h c (Nat.le_refl _)]
  exact and_congr_right fun _ => forall₂_congr fun d hd => by rw [h d (Nat.le_of_lt hd)]

/-- A search that starts in front of the row of the cursor does not see the new newline. -/
theorem newlineAt_update_of_lt {origin : Nat} (hlt : t.column + origin < t.cursor) :
    NewlineAt (Function.update t.buffer t.cursor newline) origin t.column ↔
      NewlineAt t.buffer origin t.column :=
  newlineAt_congr fun _ hd => Function.update_of_ne (by omega) _ _

/-- A search that starts with the row of the cursor finds it. -/
theorem Tidy.newlineAt_update (h : t.Tidy) :
    NewlineAt (Function.update t.buffer t.cursor newline) (t.row * (t.width + 1)) t.column := by
  refine ⟨Function.update_self _ _ _, fun d hd => ?_⟩
  rw [Function.update_of_ne (by rw [cursor]; omega)]
  exact h.text d hd

/-- Scrolling moves the cells in front of the last row. -/
theorem newlineBuffer_of_lt (h : t.row + 1 = t.height) {i : Nat} (hi : i < t.row * (t.width + 1)) :
    t.newlineBuffer i = Function.update t.buffer t.cursor newline (i + (t.width + 1)) := by
  rw [newlineBuffer_of_eq h, if_pos hi]

/-- The search of a backspace behind a newline. -/
theorem Tidy.newlineAt_newlined (h : t.Tidy) (screen : List (List UInt8))
    (hrow : (t.newlined screen).row ≠ 0) :
    NewlineAt (t.newlined screen).buffer (((t.newlined screen).row - 1) * (t.width - 1)) t.column ↔
      t.Found := by
  have hcol := h.column
  have hstride : ∀ r, r * (t.width - 1) ≤ r * (t.width + 1) := fun r =>
    Nat.mul_le_mul_left r (by omega)
  have hstride' : ∀ r, r ≠ 0 → r * (t.width - 1) < r * (t.width + 1) := fun r hr =>
    Nat.mul_lt_mul_of_pos_left (by omega) (Nat.pos_of_ne_zero hr)
  rw [Found]
  by_cases hlast : t.row + 1 = t.height
  · have hrow' : (t.newlined screen).row = t.row := if_pos hlast
    rw [hrow'] at hrow ⊢
    have hnext := row_start hrow t.width
    have hle := hstride (t.row - 1)
    have hshift : NewlineAt (t.newlined screen).buffer ((t.row - 1) * (t.width - 1)) t.column ↔
        NewlineAt (Function.update t.buffer t.cursor newline)
          ((t.row - 1) * (t.width - 1) + (t.width + 1)) t.column :=
      newlineAt_congr fun d hd => by
        rw [← Nat.add_assoc]
        exact newlineBuffer_of_lt hlast (by omega)
    rw [if_pos hlast, hshift, and_iff_right hrow]
    by_cases hone : t.row = 1
    · have hfound := h.newlineAt_update
      rw [hone, Nat.one_mul] at hfound
      rw [hone, Nat.sub_self, Nat.zero_mul, Nat.zero_add]
      exact iff_of_true hfound (.inl rfl)
    · have hlt := hstride' (t.row - 1) (by omega)
      rw [newlineAt_update_of_lt (by rw [cursor]; omega)]
      exact (or_iff_right hone).symm
  · have hrow' : (t.newlined screen).row = t.row + 1 := if_neg hlast
    have hb : (t.newlined screen).buffer = _ := newlineBuffer_of_ne hlast
    rw [if_neg hlast, hrow', hb, Nat.add_sub_cancel]
    by_cases hzero : t.row = 0
    · have hfound := h.newlineAt_update
      rw [hzero, Nat.zero_mul] at hfound ⊢
      exact iff_of_true hfound (.inl rfl)
    · have hlt := hstride' t.row hzero
      rw [newlineAt_update_of_lt (by rw [cursor]; omega)]
      exact (or_iff_right hzero).symm

/-- The newline is in the row above the cursor then, in the column of the old cursor. -/
theorem Tidy.mark_newlined (h : t.Tidy) (screen : List (List UInt8))
    (hrow : (t.newlined screen).row ≠ 0) :
    (t.newlined screen).buffer (t.column + ((t.newlined screen).row - 1) * (t.width + 1)) =
      newline := by
  have hcol := h.column
  by_cases hlast : t.row + 1 = t.height
  · have hrow' : (t.newlined screen).row = t.row := if_pos hlast
    rw [hrow'] at hrow ⊢
    have hnext := row_start hrow t.width
    refine (newlineBuffer_of_lt hlast (by omega)).trans ?_
    rw [Nat.add_assoc, ← hnext]
    exact Function.update_self _ _ _
  · have hrow' : (t.newlined screen).row = t.row + 1 := if_neg hlast
    have hb : (t.newlined screen).buffer = _ := newlineBuffer_of_ne hlast
    rw [hrow', hb, Nat.add_sub_cancel]
    exact Function.update_self _ _ _

/-- **A newline and a backspace cancel out** if and only if the search of the backspace finds the
newline in the column of the cursor. -/
theorem Tidy.restores (h : t.Tidy) : t.Restores ↔ t.displayAddr = 0 ∨ t.Found := by
  by_cases hd : t.displayAddr = 0
  · have hwrite : ∀ data, t.terminalWrite data = some t := fun data => if_pos hd
    refine iff_of_true ⟨t, t, hwrite _, hwrite _, rfl, ?_⟩ (.inl hd)
    rw [if_neg fun hs => hs.1 hd]
    exact ⟨rfl, fun i _ _ => rfl⟩
  · rw [or_iff_right hd]
    obtain ⟨screen, hnl⟩ := terminalWrite_newline h hd
    have h₁ := h.newlined screen
    have hrows := h.row
    by_cases hrow : (t.newlined screen).row = 0
    -- the line was in the only row, and is gone
    · have hlast : t.row + 1 = t.height := by
        by_contra hne
        exact absurd ((if_neg hne).symm.trans hrow) (Nat.succ_ne_zero t.row)
      have hzero : t.row = 0 := (if_pos hlast).symm.trans hrow
      refine iff_of_false ?_ fun hfound => ?_
      · rintro ⟨t₁, t₂, -, -, -, hcells⟩
        rw [if_pos ⟨hd, hlast⟩, hzero] at hcells
        exact absurd hcells.1 (Nat.succ_ne_zero t₂.row)
      · rw [Found, if_pos hlast] at hfound
        exact hfound.1 hzero
    · constructor
      · rintro ⟨t₁, t₂, he, hback, hcol, -⟩
        obtain rfl := Option.some.inj (hnl.symm.trans he)
        have hfind := column_of_terminalWrite (by exact hd) rfl hrow hback
        have hlt := h₁.search_lt (Nat.lt_of_le_of_lt (Nat.sub_le _ 1) h₁.row) h.column
        rw [hcol] at hfind
        exact (h.newlineAt_newlined screen hrow).mp ((findNewline_iff hlt).mp hfind)
      · intro hfound
        have hl : (t.newlined screen).Lands := fun _ _ =>
          ⟨t.column, h.column, h.mark_newlined screen hrow, (h.newlineAt_newlined screen hrow).mpr hfound⟩
        obtain ⟨r, c, screen', hback, h₂, hline⟩ := h₁.terminalBackspace (by exact hd) hl
        obtain ⟨rfl, hend⟩ := hline rfl hrow
        obtain rfl := hend.unique h.column (h.mark_newlined screen hrow)
        refine ⟨_, _, hnl, hback, rfl, ?_⟩
        by_cases hlast : t.row + 1 = t.height
        · have hrow' : (t.newlined screen).row = t.row := if_pos hlast
          rw [hrow'] at hrow
          have hnext := row_start hrow t.width
          rw [if_pos ⟨hd, hlast⟩]
          refine ⟨?_, fun i hi _ => (h₂.empty i hi).trans ?_⟩
          · change (t.newlined screen).row - 1 + 1 = t.row
            omega
          · change t.column + ((t.newlined screen).row - 1) * (t.width + 1) ≤ i at hi
            rw [hrow'] at hi
            split
            case isTrue => exact (h.empty _ (by rw [cursor]; omega)).symm
            case isFalse => rfl
        · have hrow' : (t.newlined screen).row = t.row + 1 := if_neg hlast
          rw [if_neg fun hs => hlast hs.2]
          refine ⟨?_, fun i hi _ => (h₂.empty i ?_).trans (h.empty i hi).symm⟩
          · change (t.newlined screen).row - 1 = t.row
            omega
          · change t.column + ((t.newlined screen).row - 1) * (t.width + 1) ≤ i
            rwa [hrow']

/-- **A newline and a backspace cancel out** in every state that is reached with backspaces whose
searches stop where they should, if and only if this one does. -/
theorem restores_iff {width height displayAddr : Nat} (hw : 0 < width) (hh : 0 < height)
    (h : Writes LandsOn (terminalInitialize width height displayAddr) t) :
    t.Restores ↔ t.displayAddr = 0 ∨ t.Found :=
  (tidy_of_writes hw hh h).restores

/-- A newline in the first row is taken back. -/
theorem restores_first : ∃ t, Writes LandsOn (terminalInitialize 2 3 0x1000) t ∧ t.column = 1 ∧
    t.Restores := by
  have hrun : ((terminalInitialize 2 3 0x1000).terminalWrite 97).map
      (fun t => (t.row, t.column, t.height)) = some (0, 1, 3) := by decide +kernel
  obtain ⟨t, ht, he⟩ := Option.map_eq_some_iff.mp hrun
  obtain ⟨hrow, he⟩ := Prod.mk.inj he
  obtain ⟨hcol, hheight⟩ := Prod.mk.inj he
  have hreach : Writes LandsOn (terminalInitialize 2 3 0x1000) t :=
    .step 97 .init (fun hb => absurd hb (by decide)) ht
  have hfound : t.Found := by
    rw [Found, hrow, hheight, if_neg (by decide)]
    exact .inl rfl
  exact ⟨t, hreach, hcol, (restores_iff (by decide) (by decide) hreach).mpr (.inr hfound)⟩

/-- In the second row the backspace goes to a column behind the newline. -/
theorem newline_not_restored : ∃ t, Writes LandsOn (terminalInitialize 2 3 0x1000) t ∧ t.row = 1 ∧
    t.column = 0 ∧ ¬t.Restores := by
  have hrun : ((terminalInitialize 2 3 0x1000).terminalWrite newline).map
      (fun t => (t.row, t.column)) = some (1, 0) := by decide +kernel
  have hback : ((terminalInitialize 2 3 0x1000).writeAll [newline, newline, backspace]).map
      (fun t => t.column) = some 2 := by decide +kernel
  obtain ⟨t, ht, he⟩ := Option.map_eq_some_iff.mp hrun
  obtain ⟨hrow, hcol⟩ := Prod.mk.inj he
  refine ⟨t, .step newline .init (fun hb => absurd hb (by decide)) ht, hrow, hcol, ?_⟩
  rintro ⟨t₁, t₂, ht₁, ht₂, hcol', -⟩
  simp only [writeAll, ht, ht₁, ht₂, Option.bind_some, Option.map_some, hcol', hcol] at hback
  exact absurd hback (by decide)

end Terminal

end Colibri.Tty

import Mathlib.Data.List.Basic
import Colibri.Lib.Stores
import Colibri.Lib.U64
import Colibri.Tty

/-!
# The pixels of the terminal

`terminal_render` draws every cell of the buffer: `terminal_render_char` sets the pixels of a
character by the bits of its glyph. The font and the buffer are not in the framebuffer, so that what
is drawn is a list of 32-bit writes. The loop over the bytes of a row of a glyph counts in a `u32` in
steps of 8; it gets a bound on its turns (`fuel`).

The pixels are where they should be (`mem_terminalRender`). Their colours are those of the glyph while
the byte offset in it, a `u8`, does not wrap, and while the character, a `char` with a sign, is not
negative.

## Results

* `mem_terminalRender`: the pixels that are drawn.
* `renders_iff`: the colours are right, for all bitmaps of the font, if and only if nothing is drawn,
  or a glyph has at most 256 bytes and no character is 0x80 or above.
-/

namespace Colibri.Tty

open Colibri.Lib

/-- The fields of `font`, and the bytes at `font_start`. -/
structure PcFont where
  bytesperglyph : Nat
  height : Nat
  width : Nat
  start : Nat → BitVec 8

/-- The fields of `display`. -/
structure Framebuffer where
  addr : Nat
  pitch : Nat
  width : Nat
  height : Nat
  bpp : Nat

/-- `fg`. -/
def fg : Nat := 0xFFFF

/-- `bg`. -/
def bg : Nat := 0

/-- `ceildiv`. -/
def ceildiv (x y : Int) : Int := 1 + (x - 1).tdiv y

/-- `(u8)(ceildiv(font->width, 8) * y)`. -/
def bitmapOffset (font : PcFont) (y : Nat) : Nat :=
  (ceildiv (BitVec.ofNat 32 font.width).toInt 8 * y % 256).toNat

/-- The value of a `char`, as a `u32`. -/
def charValue (c : UInt8) : Nat := if c < 0x80 then c.toNat else 2 ^ 32 - 256 + c.toNat

/-- `c * font->bytesperglyph`. -/
def glyphStart (font : PcFont) (c : UInt8) : Nat := charValue c * font.bytesperglyph % 2 ^ 32

/-- `TERMINAL_WIDTH`. -/
def terminalWidth (font : PcFont) (display : Framebuffer) : Nat :=
  display.width / ((font.width + 1) % 2 ^ 32)

/-- `TERMINAL_HEIGHT`. -/
def terminalHeight (font : PcFont) (display : Framebuffer) : Nat :=
  display.height / ((font.height + 1) % 2 ^ 32)

section Render

variable (font : PcFont) (display : Framebuffer)

/-- `index`. -/
def pixelIndex (xOrg yOrg x : Nat) : Nat :=
  u64Add (u64Add (u64Add display.addr yOrg) xOrg) (x * (display.bpp / 8) % 2 ^ 32)

/-- The colour of bit `i` of a byte. -/
def colour (byte : BitVec 8) (i : Nat) : Nat := if byte &&& (0x80#8 >>> i) ≠ 0 then fg else bg

/-- The loop over the bits of a byte of a glyph. -/
def renderByte (xOrg yOrg x : Nat) (byte : BitVec 8) : List (Nat × Nat) :=
  ((List.range 8).takeWhile fun i => decide ((x + i) % 2 ^ 32 < font.width)).map fun i =>
    (pixelIndex display xOrg yOrg ((x + i) % 2 ^ 32), colour byte i)

/-- The loop over the bytes of a row of a glyph. -/
def renderBytes (xOrg yOrg start : Nat) : Nat → Nat → Nat → Option (List (Nat × Nat))
  | 0, _, _ => none
  | fuel + 1, x, offset =>
    if x < font.width then
      (renderBytes xOrg yOrg start fuel ((x + 8) % 2 ^ 32) ((offset + 1) % 256)).map fun ws =>
        renderByte font display xOrg yOrg x (font.start (start + offset)) ++ ws
    else some []

/-- The loop over the rows of a glyph, from row `y` on. -/
def renderLines (fuel xOrg start : Nat) : Nat → Nat → Nat → Option (List (Nat × Nat))
  | 0, _, _ => some []
  | n + 1, y, yOrg =>
    (renderBytes font display xOrg yOrg start fuel 0 (bitmapOffset font y)).bind fun ws =>
      (renderLines fuel xOrg start n (y + 1) (u64Add yOrg display.pitch)).map fun ws' => ws ++ ws'

/-- `terminal_render_char`. -/
def terminalRenderChar (fuel xOrg yOrg : Nat) (c : UInt8) : Option (List (Nat × Nat)) :=
  renderLines font display fuel xOrg (glyphStart font c) font.height 0 yOrg

/-- The character of a cell that is drawn. -/
def displayed (buffer : Nat → UInt8) (x y : Nat) : UInt8 :=
  Terminal.shown (buffer (x + y * (terminalWidth font display + 1)))

/-- A cell of `terminal_render`. -/
def renderCell (buffer : Nat → UInt8) (fuel : Nat) (cell : Nat × Nat) : Option (List (Nat × Nat)) :=
  let y0 := u64Mul (u64Mul cell.2 ((font.height + 1) % 2 ^ 32)) display.pitch
  let x0 := u64Mul (u64Mul cell.1 ((font.width + 1) % 2 ^ 32)) (display.bpp / 8)
  terminalRenderChar font display fuel x0 y0 (displayed font display buffer cell.1 cell.2)

/-- The cells of the terminal, in the order of the loops. -/
def cells : List (Nat × Nat) :=
  (List.range (terminalHeight font display)).flatMap fun y =>
    (List.range (terminalWidth font display)).map fun x => (x, y)

/-- The cells that are still to be drawn. -/
def renderCells (buffer : Nat → UInt8) (fuel : Nat) : List (Nat × Nat) → Option (List (Nat × Nat))
  | [] => some []
  | cell :: rest => (renderCell font display buffer fuel cell).bind fun ws =>
    (renderCells buffer fuel rest).map fun ws' => ws ++ ws'

/-- `terminal_render`: the writes. -/
def terminalRender (buffer : Nat → UInt8) (fuel : Nat) : Option (List (Nat × Nat)) :=
  renderCells font display buffer fuel (cells font display)

end Render

/-! ## What should be drawn -/

/-- The address of a pixel. -/
def pixel (display : Framebuffer) (x y : Nat) : Nat := display.addr + y * display.pitch + 4 * x

/-- A framebuffer of 32-bit pixels, which does not wrap, and the geometry of a font. -/
structure Setup (font : PcFont) (display : Framebuffer) : Prop where
  bpp : display.bpp = 32
  pitch : 4 * display.width ≤ display.pitch
  pitch_lt : display.pitch < 2 ^ 32
  height_lt : display.height < 2 ^ 32
  stop_le : display.addr + display.pitch * display.height ≤ u64Size
  glyph : font.bytesperglyph = (font.width + 7) / 8 * font.height
  glyph_lt : font.bytesperglyph < 2 ^ 32
  /-- `terminal_initialize` divides by what comes next. -/
  fontWidth_lt : font.width + 1 < 2 ^ 32
  fontHeight_lt : font.height + 1 < 2 ^ 32

/-- The index of the byte of a glyph that a pixel is in. -/
def glyphIndex (font : PcFont) (c : UInt8) (px py : Nat) : Nat :=
  c.toNat * font.bytesperglyph + ((font.width + 7) / 8 * py + px / 8)

/-- `terminal_render` writes pixels of the framebuffer only, those of different cells do not overlap,
and the pixels of a cell have the colours of the bits of the glyph. A row of a glyph takes no more
turns than it has pixels, and 8. -/
def Renders (font : PcFont) (display : Framebuffer) (buffer : Nat → UInt8) : Prop :=
  ∃ ws, terminalRender font display buffer (font.width + 8) = some ws ∧
    (∀ w ∈ ws, ∃ x < display.width, ∃ y < display.height, w.1 = pixel display x y) ∧
    (∀ cell ∈ cells font display, ∀ cell' ∈ cells font display, cell ≠ cell' →
      ∀ cs cs', renderCell font display buffer (font.width + 8) cell = some cs →
        renderCell font display buffer (font.width + 8) cell' = some cs' →
          ∀ w ∈ cs, ∀ w' ∈ cs', Mem.Disjoint w.1 4 w'.1 4) ∧
    ∀ m : Mem, ∀ cell ∈ cells font display, ∀ px < font.width, ∀ py < font.height,
      (m.storeAll 4 ws).load (pixel display (cell.1 * (font.width + 1) + px)
          (cell.2 * (font.height + 1) + py)) 4 =
        if (font.start (glyphIndex font (displayed font display buffer cell.1 cell.2) px py)).getLsbD
          (7 - px % 8) then fg else bg

/-- Nothing is drawn, or the glyphs have at most 256 bytes and the characters no sign. -/
def GlyphsFit (font : PcFont) (display : Framebuffer) (buffer : Nat → UInt8) : Prop :=
  cells font display = [] ∨ font.bytesperglyph = 0 ∨ (font.bytesperglyph ≤ 256 ∧
    ∀ cell ∈ cells font display, displayed font display buffer cell.1 cell.2 < 0x80)

/-! ## The pixels of a character -/

section Char

variable {font : PcFont} {display : Framebuffer} {xOrg yOrg x fuel start offset n y : Nat}
  {byte : BitVec 8} {w : Nat × Nat}

/-- The bits that the loop gets to. -/
theorem mem_takeWhile_range' {p : Nat → Bool} {i k s : Nat}
    (hp : ∀ i j, i < s + k → j ≤ i → p i = true → p j = true) :
    i ∈ (List.range' s k).takeWhile p ↔ s ≤ i ∧ i < s + k ∧ p i = true := by
  induction k generalizing s with
  | zero => exact iff_of_false List.not_mem_nil fun h => by omega
  | succ k ih =>
    have ih := @ih (s + 1) fun i j hi => hp i j (by omega)
    rw [List.range'_succ, List.takeWhile_cons]
    cases hs : p s with
    | true =>
      rw [if_pos rfl, List.mem_cons, ih]
      constructor
      · rintro (rfl | ⟨hle, hlt, hpi⟩)
        · exact ⟨Nat.le_refl _, by omega, hs⟩
        · exact ⟨by omega, by omega, hpi⟩
      · rintro ⟨hle, hlt, hpi⟩
        rcases Nat.lt_or_eq_of_le hle with hlt' | rfl
        · exact .inr ⟨hlt', by omega, hpi⟩
        · exact .inl rfl
    | false =>
      rw [if_neg Bool.false_ne_true]
      refine iff_of_false List.not_mem_nil ?_
      rintro ⟨hle, hlt, hpi⟩
      rw [hp i s hlt hle hpi] at hs
      exact nomatch hs

/-- The pixels of a byte. -/
theorem mem_renderByte (hlt : font.width + 8 ≤ 2 ^ 32) (hx : x < font.width) :
    w ∈ renderByte font display xOrg yOrg x byte ↔ ∃ px, x ≤ px ∧ px < x + 8 ∧ px < font.width ∧
      w = (pixelIndex display xOrg yOrg px, colour byte (px - x)) := by
  have hmod : ∀ i < 8, (x + i) % 2 ^ 32 = x + i := fun i hi => Nat.mod_eq_of_lt (by omega)
  have hmem : ∀ i, i ∈ ((List.range 8).takeWhile fun i =>
      decide ((x + i) % 2 ^ 32 < font.width)) ↔ i < 8 ∧ x + i < font.width := fun i => by
    rw [List.range_eq_range', mem_takeWhile_range', decide_eq_true_eq]
    · constructor
      · rintro ⟨-, hi, h⟩
        rw [hmod i (by omega)] at h
        exact ⟨by omega, h⟩
      · rintro ⟨hi, h⟩
        exact ⟨Nat.zero_le i, by omega, by rwa [hmod i hi]⟩
    · intro i j hi hj h
      rw [decide_eq_true_eq, hmod _ (by omega)] at h ⊢
      omega
  rw [renderByte, List.mem_map]
  constructor
  · rintro ⟨i, hi, rfl⟩
    obtain ⟨hi, h⟩ := (hmem i).mp hi
    exact ⟨x + i, by omega, by omega, h, by rw [hmod i hi, Nat.add_sub_cancel_left]⟩
  · rintro ⟨px, hle, hlt, hw, rfl⟩
    refine ⟨px - x, (hmem _).mpr ⟨by omega, by omega⟩, ?_⟩
    rw [hmod _ (by omega), Nat.add_sub_cancel' hle]

/-- **A row of a glyph.** -/
theorem renderBytes_spec (hlt : font.width + 8 ≤ 2 ^ 32) (hoffset : offset < 256)
    (hfuel : font.width + 8 ≤ x + fuel) (hx : x < font.width + 8) :
    ∃ ws, renderBytes font display xOrg yOrg start fuel x offset = some ws ∧
      ∀ w, w ∈ ws ↔ ∃ px, x ≤ px ∧ px < font.width ∧ w = (pixelIndex display xOrg yOrg px,
        colour (font.start (start + (offset + (px - x) / 8) % 256)) ((px - x) % 8)) := by
  induction fuel generalizing x offset with
  | zero => omega
  | succ fuel ih =>
    rw [renderBytes]
    by_cases h : x < font.width
    · have hnext : (x + 8) % 2 ^ 32 = x + 8 := Nat.mod_eq_of_lt (by omega)
      obtain ⟨ws, hws, hmem⟩ := ih (x := x + 8)
        (Nat.mod_lt _ (by decide)) (by omega) (by omega)
      rw [if_pos h, hnext, hws]
      refine ⟨_, rfl, fun w => ?_⟩
      rw [List.mem_append, mem_renderByte hlt h, hmem]
      have hfirst : ∀ px < x + 8, (offset + (px - x) / 8) % 256 = offset ∧ (px - x) % 8 = px - x :=
        fun px hpx => by omega
      have hlater : ∀ px ≥ x + 8, ((offset + 1) % 256 + (px - (x + 8)) / 8) % 256 =
          (offset + (px - x) / 8) % 256 ∧ (px - (x + 8)) % 8 = (px - x) % 8 := fun px hpx => by omega
      constructor
      · rintro (⟨px, hle, hin, hw, rfl⟩ | ⟨px, hle, hw, rfl⟩)
        · exact ⟨px, hle, hw, by rw [(hfirst px hin).1, (hfirst px hin).2]⟩
        · exact ⟨px, by omega, hw, by rw [(hlater px hle).1, (hlater px hle).2]⟩
      · rintro ⟨px, hle, hw, rfl⟩
        rcases Nat.lt_or_ge px (x + 8) with hin | hge
        · exact .inl ⟨px, hle, hin, hw, by rw [(hfirst px hin).1, (hfirst px hin).2]⟩
        · exact .inr ⟨px, hge, hw, by rw [(hlater px hge).1, (hlater px hge).2]⟩
    · rw [if_neg h]
      exact ⟨[], rfl, fun w => iff_of_false List.not_mem_nil fun ⟨px, hle, hlt, _⟩ => by omega⟩

/-- `ceildiv` is the number of the bytes of a row. -/
theorem bitmapOffset_eq (hpos : 0 < font.width) (hlt : font.width < 2 ^ 31) :
    bitmapOffset font y = (font.width + 7) / 8 * y % 256 := by
  have hint : (BitVec.ofNat 32 font.width).toInt = font.width := by
    rw [BitVec.toInt_eq_toNat_of_lt] <;> rw [BitVec.toNat_ofNat] <;> omega
  have hceil : ceildiv font.width 8 = ((font.width + 7) / 8 : Nat) := by
    have hpred : (font.width : Int) - 1 = ((font.width - 1 : Nat) : Int) := by omega
    rw [ceildiv, hpred]
    change 1 + (((font.width - 1) / 8 : Nat) : Int) = _
    omega
  rw [bitmapOffset, hint, hceil]
  omega

theorem bitmapOffset_lt : bitmapOffset font y < 256 := by
  rw [bitmapOffset]
  omega

/-- The byte of a glyph that the code takes for a pixel. -/
def byteOffset (font : PcFont) (px py : Nat) : Nat := ((font.width + 7) / 8 * py + px / 8) % 256

/-- The index of the byte that the code takes. -/
def codeIndex (font : PcFont) (c : UInt8) (px py : Nat) : Nat :=
  glyphStart font c + byteOffset font px py

/-- **The rows of a glyph.** -/
theorem renderLines_spec (hs : Setup font display) (hfit : xOrg + 4 * font.width ≤ display.pitch)
    (hroom : display.addr + yOrg + n * display.pitch ≤ u64Size)
    (hlt : yOrg + n * display.pitch < u64Size) (hfuel : font.width + 8 ≤ fuel) :
    ∃ ws, renderLines font display fuel xOrg start n y yOrg = some ws ∧
      ∀ w, w ∈ ws ↔ ∃ px < font.width, ∃ py, y ≤ py ∧ py < y + n ∧
        w = (display.addr + (yOrg + (py - y) * display.pitch) + xOrg + 4 * px,
          colour (font.start (start + byteOffset font px py)) (px % 8)) := by
  induction n generalizing y yOrg with
  | zero => exact ⟨[], rfl, fun w => iff_of_false List.not_mem_nil fun ⟨_, _, _, _, _, _⟩ => by omega⟩
  | succ n ih =>
    have hbpp := hs.bpp
    have hpitch := hs.pitch_lt
    have hsucc : (n + 1) * display.pitch = n * display.pitch + display.pitch := Nat.succ_mul _ _
    obtain ⟨row, hrow, hmem⟩ := @renderBytes_spec font display xOrg yOrg 0 fuel start
      (bitmapOffset font y) (by omega) bitmapOffset_lt (by omega) (by omega)
    obtain ⟨rest, hrest, hmem'⟩ := @ih (yOrg + display.pitch) (y + 1) (by omega) (by omega)
    rw [renderLines, hrow, u64Add_eq (by omega), Option.bind_some, hrest]
    refine ⟨_, rfl, fun w => ?_⟩
    rw [List.mem_append, hmem, hmem']
    have hindex : ∀ px < font.width,
        pixelIndex display xOrg yOrg px = display.addr + yOrg + xOrg + 4 * px := fun px hpx => by
      have hscale : px * (32 / 8) % 2 ^ 32 = 4 * px := by omega
      have hy : u64Add display.addr yOrg = display.addr + yOrg := u64Add_eq (by omega)
      have hx : u64Add (display.addr + yOrg) xOrg = display.addr + yOrg + xOrg :=
        u64Add_eq (by omega)
      rw [pixelIndex, hbpp, hscale, hy, hx, u64Add_eq (by omega)]
    have hbyte : ∀ px < font.width,
        (bitmapOffset font y + (px - 0) / 8) % 256 = byteOffset font px y := fun px hpx => by
      rw [bitmapOffset_eq (by omega) (by omega), Nat.mod_add_mod, Nat.sub_zero]
      rfl
    have hline : ∀ py ≥ y + 1, yOrg + display.pitch + (py - (y + 1)) * display.pitch =
        yOrg + (py - y) * display.pitch := fun py hpy => by
      have hdiff : py - y = py - (y + 1) + 1 := by omega
      rw [hdiff, Nat.succ_mul]
      omega
    constructor
    · rintro (⟨px, -, hpx, rfl⟩ | ⟨px, hpx, py, hle, hlt, rfl⟩)
      · refine ⟨px, hpx, y, Nat.le_refl y, by omega, ?_⟩
        rw [hindex px hpx, hbyte px hpx, Nat.sub_self, Nat.zero_mul, Nat.add_zero, Nat.sub_zero]
      · exact ⟨px, hpx, py, by omega, by omega, by rw [hline py hle]⟩
    · rintro ⟨px, hpx, py, hle, hlt, rfl⟩
      rcases Nat.lt_or_eq_of_le hle with hgt | rfl
      · exact .inr ⟨px, hpx, py, hgt, by omega, by rw [hline py hgt]⟩
      · refine .inl ⟨px, Nat.zero_le px, hpx, ?_⟩
        rw [hindex px hpx, hbyte px hpx, Nat.sub_self, Nat.zero_mul, Nat.add_zero, Nat.sub_zero]

end Char

/-! ## The pixels of the terminal -/

section Cells

variable {font : PcFont} {display : Framebuffer} {buffer : Nat → UInt8} {fuel x y px py : Nat}
  {w : Nat × Nat}

/-- The write is one of those of a cell: a pixel, with the colour that the code takes. -/
def Draws (font : PcFont) (display : Framebuffer) (buffer : Nat → UInt8) (cell w : Nat × Nat) : Prop :=
  ∃ px < font.width, ∃ py < font.height,
    w = (pixel display (cell.1 * (font.width + 1) + px) (cell.2 * (font.height + 1) + py),
      colour (font.start (codeIndex font (displayed font display buffer cell.1 cell.2) px py))
        (px % 8))

theorem Setup.width_eq (hs : Setup font display) :
    terminalWidth font display = display.width / (font.width + 1) := by
  rw [terminalWidth, Nat.mod_eq_of_lt hs.fontWidth_lt]

theorem Setup.height_eq (hs : Setup font display) :
    terminalHeight font display = display.height / (font.height + 1) := by
  rw [terminalHeight, Nat.mod_eq_of_lt hs.fontHeight_lt]

/-- A cell is in the display with the gap behind it. -/
theorem cell_fits {size k step : Nat} (h : k < size / (step + 1)) :
    k * (step + 1) + (step + 1) ≤ size := by
  rw [← Nat.succ_mul]
  exact (Nat.le_div_iff_mul_le (Nat.succ_pos step)).mp h

theorem Setup.x_fits (hs : Setup font display) (hx : x < terminalWidth font display) :
    x * (font.width + 1) + (font.width + 1) ≤ display.width := by
  rw [hs.width_eq] at hx
  exact cell_fits hx

theorem Setup.y_fits (hs : Setup font display) (hy : y < terminalHeight font display) :
    y * (font.height + 1) + (font.height + 1) ≤ display.height := by
  rw [hs.height_eq] at hy
  exact cell_fits hy

theorem Setup.size_lt (hs : Setup font display) : display.pitch * display.height < u64Size := by
  have h := Nat.mul_lt_mul'' hs.pitch_lt hs.height_lt
  exact h

/-- **The writes of a cell.** -/
theorem renderCell_spec (hs : Setup font display) (hx : x < terminalWidth font display)
    (hy : y < terminalHeight font display) (hfuel : font.width + 8 ≤ fuel) :
    ∃ ws, renderCell font display buffer fuel (x, y) = some ws ∧
      ∀ w, w ∈ ws ↔ Draws font display buffer (x, y) w := by
  have hxs := hs.x_fits hx
  have hys := hs.y_fits hy
  have hpitch := hs.pitch
  have hstop := hs.stop_le
  have hsize := hs.size_lt
  have hpitch32 := hs.pitch_lt
  have hheight := hs.height_lt
  have hu64 := u64Size_eq
  have hrows : y * (font.height + 1) * display.pitch + font.height * display.pitch ≤
      display.pitch * display.height := by
    rw [← Nat.add_mul, Nat.mul_comm]
    exact Nat.mul_le_mul_left _ (by omega)
  have hy0 : u64Mul (u64Mul y ((font.height + 1) % 2 ^ 32)) display.pitch =
      y * (font.height + 1) * display.pitch := by
    have hin : u64Mul y (font.height + 1) = y * (font.height + 1) := u64Mul_eq (by omega)
    rw [Nat.mod_eq_of_lt hs.fontHeight_lt, hin, u64Mul_eq (by omega)]
  have hx0 : u64Mul (u64Mul x ((font.width + 1) % 2 ^ 32)) (display.bpp / 8) =
      x * (font.width + 1) * 4 := by
    have hin : u64Mul x (font.width + 1) = x * (font.width + 1) := u64Mul_eq (by omega)
    rw [Nat.mod_eq_of_lt hs.fontWidth_lt, hin, hs.bpp, u64Mul_eq (by omega)]
  obtain ⟨ws, hws, hmem⟩ := @renderLines_spec font display (x * (font.width + 1) * 4)
    (y * (font.height + 1) * display.pitch) fuel
    (glyphStart font (displayed font display buffer x y)) font.height 0 hs (by omega) (by omega)
    (by omega) hfuel
  refine ⟨ws, ?_, fun w => ?_⟩
  · rw [renderCell]
    simp only [hy0, hx0]
    exact hws
  · have haddr : ∀ px py, display.addr + (y * (font.height + 1) * display.pitch +
        (py - 0) * display.pitch) + x * (font.width + 1) * 4 + 4 * px =
          pixel display (x * (font.width + 1) + px) (y * (font.height + 1) + py) := fun px py => by
      rw [pixel, Nat.sub_zero, Nat.add_mul, Nat.mul_add]
      omega
    rw [hmem, Draws]
    simp only [haddr, Nat.zero_le, Nat.zero_add, true_and, codeIndex]

/-- **The writes of cells.** -/
theorem renderCells_spec (hs : Setup font display) {l : List (Nat × Nat)}
    (hl : ∀ cell ∈ l, cell.1 < terminalWidth font display ∧ cell.2 < terminalHeight font display)
    (hfuel : font.width + 8 ≤ fuel) :
    ∃ ws, renderCells font display buffer fuel l = some ws ∧
      ∀ w, w ∈ ws ↔ ∃ cell ∈ l, Draws font display buffer cell w := by
  induction l with
  | nil => exact ⟨[], rfl, fun w => iff_of_false List.not_mem_nil fun ⟨_, h, _⟩ => nomatch h⟩
  | cons cell l ih =>
    obtain ⟨hcell, hrest⟩ := List.forall_mem_cons.mp hl
    obtain ⟨ws, hws, hmem⟩ := renderCell_spec hs hcell.1 hcell.2 hfuel
    obtain ⟨ws', hws', hmem'⟩ := ih hrest
    rw [renderCells, hws, Option.bind_some, hws']
    refine ⟨_, rfl, fun w => ?_⟩
    rw [List.mem_append, hmem, hmem']
    exact (List.exists_mem_cons_iff (Draws font display buffer · w) cell l).symm

theorem mem_cells {cell : Nat × Nat} : cell ∈ cells font display ↔
    cell.1 < terminalWidth font display ∧ cell.2 < terminalHeight font display := by
  rw [cells, List.mem_flatMap]
  constructor
  · rintro ⟨y, hy, hcell⟩
    obtain ⟨x, hx, rfl⟩ := List.mem_map.mp hcell
    exact ⟨List.mem_range.mp hx, List.mem_range.mp hy⟩
  · rintro ⟨hx, hy⟩
    exact ⟨cell.2, List.mem_range.mpr hy, List.mem_map.mpr ⟨cell.1, List.mem_range.mpr hx, rfl⟩⟩

/-- **The pixels that `terminal_render` draws.** -/
theorem mem_terminalRender (hs : Setup font display) (hfuel : font.width + 8 ≤ fuel) :
    ∃ ws, terminalRender font display buffer fuel = some ws ∧
      ∀ w, w ∈ ws ↔ ∃ cell ∈ cells font display, Draws font display buffer cell w :=
  renderCells_spec hs (fun _ h => mem_cells.mp h) hfuel

/-- Different pixels do not overlap. -/
theorem pixel_disjoint {display : Framebuffer} (hp : 4 * display.width ≤ display.pitch)
    {x y x' y' : Nat} (hx : x < display.width) (hx' : x' < display.width) (h : (x, y) ≠ (x', y')) :
    Mem.Disjoint (pixel display x y) 4 (pixel display x' y') 4 := by
  have hrow : ∀ {a b : Nat}, a < b → a * display.pitch + display.pitch ≤ b * display.pitch :=
    fun hab => by
      rw [← Nat.succ_mul]
      exact Nat.mul_le_mul_right _ hab
  rw [Mem.Disjoint, pixel, pixel]
  rcases Nat.lt_trichotomy y y' with hlt | rfl | hgt
  · have := hrow hlt
    omega
  · have hne : x ≠ x' := fun he => h (he ▸ rfl)
    omega
  · have := hrow hgt
    omega


/-- The cell and the pixel in it determine each other. -/
theorem cell_pixel_inj {k k' p p' step : Nat} (hp : p < step) (hp' : p' < step)
    (h : k * (step + 1) + p = k' * (step + 1) + p') : k = k' ∧ p = p' := by
  obtain ⟨he, hk⟩ := @Terminal.cell_inj step p k p' k' (by omega) (by omega) (by omega)
  exact ⟨hk, he⟩

/-- A pixel of a cell. -/
theorem Setup.pixel_lt (hs : Setup font display) (hx : x < terminalWidth font display)
    (hy : y < terminalHeight font display) (hpx : px < font.width) (hpy : py < font.height) :
    x * (font.width + 1) + px < display.width ∧ y * (font.height + 1) + py < display.height := by
  have hxs := hs.x_fits hx
  have hys := hs.y_fits hy
  exact ⟨by omega, by omega⟩

/-- Writes of cells are the same, or do not overlap. -/
theorem Draws.disjoint (hs : Setup font display) {cell cell' w' : Nat × Nat}
    (hcell : cell ∈ cells font display) (hcell' : cell' ∈ cells font display)
    (h : Draws font display buffer cell w) (h' : Draws font display buffer cell' w') :
    (cell = cell' ∧ w = w') ∨ Mem.Disjoint w.1 4 w'.1 4 := by
  obtain ⟨px, hpx, py, hpy, rfl⟩ := h
  obtain ⟨px', hpx', py', hpy', rfl⟩ := h'
  obtain ⟨hx, hy⟩ := mem_cells.mp hcell
  obtain ⟨hx', hy'⟩ := mem_cells.mp hcell'
  by_cases he : (cell.1 * (font.width + 1) + px, cell.2 * (font.height + 1) + py) =
      (cell'.1 * (font.width + 1) + px', cell'.2 * (font.height + 1) + py')
  · obtain ⟨hxe, hye⟩ := Prod.mk.inj he
    obtain ⟨hcx, rfl⟩ := cell_pixel_inj hpx hpx' hxe
    obtain ⟨hcy, rfl⟩ := cell_pixel_inj hpy hpy' hye
    obtain rfl : cell = cell' := Prod.ext hcx hcy
    exact .inl ⟨rfl, rfl⟩
  · exact .inr (pixel_disjoint hs.pitch (hs.pixel_lt hx hy hpx hpy).1
      (hs.pixel_lt hx' hy' hpx' hpy').1 he)

theorem colour_eq {byte : BitVec 8} {i : Nat} (hi : i < 8) :
    colour byte i = if byte.getLsbD (7 - i) then fg else bg := by
  have hmask : ∀ i < 8, 0x80#8 >>> i = BitVec.twoPow 8 (7 - i) := by decide
  have hne : ∀ i < 8, BitVec.twoPow 8 (7 - i) ≠ 0 := by decide
  rw [colour, hmask i hi, BitVec.and_twoPow]
  cases byte.getLsbD (7 - i) with
  | true => rw [if_pos rfl, if_pos (hne i hi), if_pos rfl]
  | false => rfl

theorem colour_mod {byte : BitVec 8} {i : Nat} : colour byte i % 256 ^ 4 = colour byte i := by
  rw [colour]
  split <;> rfl

/-- **What `terminal_render` does**: all is as it should be, but for the byte that is taken. -/
theorem terminalRender_spec (hs : Setup font display) : ∃ ws,
    terminalRender font display buffer (font.width + 8) = some ws ∧
    (∀ w ∈ ws, ∃ x < display.width, ∃ y < display.height, w.1 = pixel display x y) ∧
    (∀ cell ∈ cells font display, ∀ cell' ∈ cells font display, cell ≠ cell' →
      ∀ cs cs', renderCell font display buffer (font.width + 8) cell = some cs →
        renderCell font display buffer (font.width + 8) cell' = some cs' →
          ∀ w ∈ cs, ∀ w' ∈ cs', Mem.Disjoint w.1 4 w'.1 4) ∧
    ∀ m : Mem, ∀ cell ∈ cells font display, ∀ px < font.width, ∀ py < font.height,
      (m.storeAll 4 ws).load (pixel display (cell.1 * (font.width + 1) + px)
          (cell.2 * (font.height + 1) + py)) 4 =
        if (font.start (codeIndex font (displayed font display buffer cell.1 cell.2) px py)).getLsbD
          (7 - px % 8) then fg else bg := by
  obtain ⟨ws, hws, hmem⟩ := mem_terminalRender hs (Nat.le_refl _)
  refine ⟨ws, hws, fun w hw => ?_, fun cell hcell cell' hcell' hne cs cs' hcs hcs' w hw w' hw' => ?_,
    fun m cell hcell px hpx py hpy => ?_⟩
  · obtain ⟨cell, hcell, px, hpx, py, hpy, rfl⟩ := (hmem w).mp hw
    obtain ⟨hx, hy⟩ := mem_cells.mp hcell
    obtain ⟨hxlt, hylt⟩ := hs.pixel_lt hx hy hpx hpy
    exact ⟨_, hxlt, _, hylt, rfl⟩
  · obtain ⟨hx, hy⟩ := mem_cells.mp hcell
    obtain ⟨hx', hy'⟩ := mem_cells.mp hcell'
    obtain ⟨ds, hds, hmem⟩ := renderCell_spec hs hx hy (Nat.le_refl _)
    obtain ⟨ds', hds', hmem'⟩ := renderCell_spec hs hx' hy' (Nat.le_refl _)
    obtain rfl := Option.some.inj (hcs.symm.trans hds)
    obtain rfl := Option.some.inj (hcs'.symm.trans hds')
    exact (((hmem w).mp hw).disjoint hs hcell hcell' ((hmem' w').mp hw')).resolve_left
      fun h => hne h.1
  · have hdraws : Draws font display buffer cell (_, _) := ⟨px, hpx, py, hpy, rfl⟩
    have hload := Mem.load_storeAll (m := m) (k := 4) ((hmem _).mpr ⟨cell, hcell, hdraws⟩)
      fun w hw => by
        obtain ⟨cell', hcell', hdraws'⟩ := (hmem w).mp hw
        exact (hdraws'.disjoint hs hcell' hcell hdraws).imp_left fun h => h.2
    rw [hload, colour_mod, colour_eq (Nat.mod_lt _ (by decide))]

/-- The geometry does not depend on the bitmaps. -/
theorem Setup.withStart (hs : Setup font display) (start : Nat → BitVec 8) :
    Setup { font with start } display :=
  ⟨hs.bpp, hs.pitch, hs.pitch_lt, hs.height_lt, hs.stop_le, hs.glyph, hs.glyph_lt, hs.fontWidth_lt,
    hs.fontHeight_lt⟩

/-- Where the code takes the right bytes. -/
theorem renders_of_index (hs : Setup font display)
    (h : ∀ cell ∈ cells font display, ∀ px < font.width, ∀ py < font.height,
      codeIndex font (displayed font display buffer cell.1 cell.2) px py =
        glyphIndex font (displayed font display buffer cell.1 cell.2) px py) :
    Renders font display buffer := by
  obtain ⟨ws, hws, hin, hapart, hload⟩ := terminalRender_spec hs
  refine ⟨ws, hws, hin, hapart, fun m cell hcell px hpx py hpy => ?_⟩
  rw [hload m cell hcell px hpx py hpy, h cell hcell px hpx py hpy]

/-- Where the code takes a byte without the bit. -/
theorem not_renders (hs : Setup font display) (cell : Nat × Nat) (px py : Nat)
    (hcell : cell ∈ cells font display) (hpx : px < font.width) (hpy : py < font.height)
    (hright : (font.start (glyphIndex font (displayed font display buffer cell.1 cell.2)
      px py)).getLsbD (7 - px % 8) = true)
    (hcode : (font.start (codeIndex font (displayed font display buffer cell.1 cell.2)
      px py)).getLsbD (7 - px % 8) = false) : ¬Renders font display buffer := by
  rintro ⟨ws, hws, -, -, hload⟩
  obtain ⟨ws', hws', -, -, hload'⟩ := terminalRender_spec hs
  obtain rfl := Option.some.inj (hws.symm.trans hws')
  have hsame := (hload (fun _ => 0) cell hcell px hpx py hpy).symm.trans
    (hload' (fun _ => 0) cell hcell px hpx py hpy)
  rw [hright, hcode] at hsame
  exact absurd hsame (by decide)

/-- The bytes are the right ones, if the colours are for all bitmaps. -/
theorem index_of_renders (hs : Setup font display)
    (h : ∀ start, Renders { font with start } display buffer) {cell : Nat × Nat}
    (hcell : cell ∈ cells font display) (hpx : px < font.width) (hpy : py < font.height) :
    codeIndex font (displayed font display buffer cell.1 cell.2) px py =
      glyphIndex font (displayed font display buffer cell.1 cell.2) px py := by
  by_contra hne
  -- a font whose only bits are in the right byte
  obtain ⟨start, hstart⟩ : ∃ start : Nat → BitVec 8, start = fun j =>
      if j = glyphIndex font (displayed font display buffer cell.1 cell.2) px py then 0xFF#8
      else 0#8 := ⟨_, rfl⟩
  have hones : ∀ i < 8, (0xFF#8).getLsbD (7 - i) = true := by decide
  have hright : start (glyphIndex font (displayed font display buffer cell.1 cell.2) px py) =
      0xFF#8 := by
    rw [hstart]
    exact if_pos rfl
  have hcode : start (codeIndex font (displayed font display buffer cell.1 cell.2) px py) = 0#8 := by
    rw [hstart]
    exact if_neg hne
  refine not_renders (hs.withStart start) cell px py hcell hpx hpy ?_ ?_ (h start)
  · exact (congrArg (BitVec.getLsbD · (7 - px % 8)) hright).trans
      (hones _ (Nat.mod_lt _ (by decide)))
  · exact (congrArg (BitVec.getLsbD · (7 - px % 8)) hcode).trans BitVec.getLsbD_zero

theorem Setup.bytes_lt (hs : Setup font display) (hpx : px < font.width) (hpy : py < font.height) :
    (font.width + 7) / 8 * py + px / 8 < font.bytesperglyph := by
  have hle : (font.width + 7) / 8 * py + (font.width + 7) / 8 ≤ font.bytesperglyph := by
    rw [hs.glyph, ← Nat.mul_succ]
    exact Nat.mul_le_mul_left _ hpy
  omega

/-- A character without a sign, and a glyph of at most 256 bytes. -/
theorem codeIndex_eq (hs : Setup font display) {c : UInt8} (hc : c < 0x80)
    (hsmall : font.bytesperglyph ≤ 256) (hpx : px < font.width) (hpy : py < font.height) :
    codeIndex font c px py = glyphIndex font c px py := by
  have hlt := hs.bytes_lt hpx hpy
  have hn : c.toNat < 128 := hc
  have hprod : c.toNat * font.bytesperglyph ≤ 128 * 256 := Nat.mul_le_mul (by omega) hsmall
  rw [codeIndex, glyphStart, charValue, if_pos hc, byteOffset, Nat.mod_eq_of_lt (by omega),
    Nat.mod_eq_of_lt (by omega), glyphIndex]

/-- A character with a sign. -/
theorem glyphStart_ne {c : UInt8} (hc : ¬c < 0x80) (hpos : 0 < font.bytesperglyph)
    (hsmall : font.bytesperglyph ≤ 256) : glyphStart font c ≠ c.toNat * font.bytesperglyph := by
  have hn : 128 ≤ c.toNat := Nat.le_of_not_lt hc
  have hn' : c.toNat < 256 := c.toNat_lt
  have hback : (2 ^ 32 - 256 + c.toNat) * font.bytesperglyph +
      (256 - c.toNat) * font.bytesperglyph = 2 ^ 32 * font.bytesperglyph := by
    rw [← Nat.add_mul]
    congr 1
    omega
  have hsum : c.toNat * font.bytesperglyph + (256 - c.toNat) * font.bytesperglyph =
      256 * font.bytesperglyph := by
    rw [← Nat.add_mul]
    congr 1
    omega
  have hle : (256 - c.toNat) * font.bytesperglyph ≤ 128 * 256 := Nat.mul_le_mul (by omega) hsmall
  have hgap : 0 < (256 - c.toNat) * font.bytesperglyph := Nat.mul_pos (by omega) hpos
  rw [glyphStart, charValue, if_neg hc]
  omega

/-- Byte 256 of a glyph is taken for byte 0. -/
theorem exists_byteOffset_ne (hs : Setup font display) (hbig : 256 < font.bytesperglyph) :
    ∃ px < font.width, ∃ py < font.height, byteOffset font px py = 0 ∧
      (font.width + 7) / 8 * py + px / 8 = 256 := by
  have hwidth : 0 < (font.width + 7) / 8 := by
    refine Nat.pos_of_ne_zero fun h => ?_
    rw [hs.glyph, h, Nat.zero_mul] at hbig
    omega
  have hlast := Nat.mod_lt 256 hwidth
  have hbyte : (font.width + 7) / 8 * (256 / ((font.width + 7) / 8)) +
      8 * (256 % ((font.width + 7) / 8)) / 8 = 256 := by
    rw [Nat.mul_div_cancel_left _ (by decide)]
    exact Nat.div_add_mod 256 _
  refine ⟨8 * (256 % ((font.width + 7) / 8)), by omega, 256 / ((font.width + 7) / 8), ?_, ?_, hbyte⟩
  · rw [Nat.div_lt_iff_lt_mul hwidth, Nat.mul_comm, ← hs.glyph]
    exact hbig
  · rw [byteOffset, hbyte]

/-- **The colours are right** for all bitmaps if and only if nothing is drawn, or the glyphs have at
most 256 bytes and the characters no sign. -/
theorem renders_iff (hs : Setup font display) :
    (∀ start, Renders { font with start } display buffer) ↔ GlyphsFit font display buffer := by
  constructor
  · intro h
    by_contra hno
    rw [GlyphsFit, not_or, not_or] at hno
    obtain ⟨hcells, hbytes, hfit⟩ := hno
    have hpos := Nat.pos_of_ne_zero hbytes
    have hglyph := hs.glyph
    have hwidth : 0 < font.width := Nat.pos_of_ne_zero fun h => hbytes (by rw [hglyph, h]; simp)
    have hheight : 0 < font.height := Nat.pos_of_ne_zero fun h => hbytes (by rw [hglyph, h]; simp)
    -- the first byte of every glyph is the right one
    have hfirst : ∀ cell ∈ cells font display,
        glyphStart font (displayed font display buffer cell.1 cell.2) =
          (displayed font display buffer cell.1 cell.2).toNat * font.bytesperglyph :=
      fun cell hcell => by
        have hindex := index_of_renders hs h hcell hwidth hheight
        rwa [codeIndex, glyphIndex, byteOffset, Nat.mul_zero] at hindex
    have hsmall : font.bytesperglyph ≤ 256 := by
      by_contra hbig
      obtain ⟨cell, hcell⟩ := List.exists_mem_of_ne_nil _ hcells
      obtain ⟨px, hpx, py, hpy, hzero, hbyte⟩ := exists_byteOffset_ne hs (Nat.lt_of_not_le hbig)
      have hindex := index_of_renders hs h hcell hpx hpy
      rw [codeIndex, glyphIndex, hzero, hbyte, hfirst cell hcell] at hindex
      omega
    refine hfit ⟨hsmall, fun cell hcell => ?_⟩
    by_contra hc
    exact glyphStart_ne hc hpos hsmall (hfirst cell hcell)
  · intro hfit start
    refine renders_of_index (hs.withStart start) fun cell hcell px hpx py hpy => ?_
    rcases hfit with hnil | hzero | ⟨hsmall, hchars⟩
    · have hin : cell ∈ cells font display := hcell
      rw [hnil] at hin
      exact absurd hin List.not_mem_nil
    · have hlt := hs.bytes_lt hpx hpy
      omega
    · exact codeIndex_eq (hs.withStart start) (hchars cell hcell) hsmall hpx hpy

end Cells

/-! ## Fonts -/

/-- A font 8 pixels wide, with bits in one byte only. -/
def thinFont (height byte : Nat) : PcFont where
  bytesperglyph := height
  height
  width := 8
  start j := if j = byte then 0xFF else 0

/-- A framebuffer for one character. -/
def oneCell (height : Nat) : Framebuffer where
  addr := 0x1000
  pitch := 36
  width := 9
  height := height + 1
  bpp := 32

theorem setup_thin {height : Nat} (byte : Nat) (h : height < 2 ^ 16) :
    Setup (thinFont height byte) (oneCell height) where
  bpp := rfl
  pitch := by
    change 4 * 9 ≤ 36
    decide
  pitch_lt := by
    change 36 < 2 ^ 32
    decide
  height_lt := by
    change height + 1 < 2 ^ 32
    omega
  stop_le := by
    change 0x1000 + 36 * (height + 1) ≤ 2 ^ 64
    omega
  glyph := by
    change height = (8 + 7) / 8 * height
    omega
  glyph_lt := by
    change height < 2 ^ 32
    omega
  fontWidth_lt := by
    change 8 + 1 < 2 ^ 32
    decide
  fontHeight_lt := by
    change height + 1 < 2 ^ 32
    omega

/-- The last row of a glyph of 257 rows is not drawn, and neither is the glyph of 0x80. -/
theorem glyphs_not_rendered :
    Setup (thinFont 257 8480) (oneCell 257) ∧
    ¬Renders (thinFont 257 8480) (oneCell 257) (fun _ => 0) ∧
    Setup (thinFont 8 1024) (oneCell 8) ∧
    ¬Renders (thinFont 8 1024) (oneCell 8) (fun _ => 0x80) := by
  have hs := setup_thin 8480 (show 257 < 2 ^ 16 by decide)
  have hs' := setup_thin 1024 (show 8 < 2 ^ 16 by decide)
  refine ⟨hs, ?_, hs', ?_⟩
  · exact not_renders hs (0, 0) 0 256 (by decide) (by decide) (by decide) (by decide) (by decide)
  · exact not_renders hs' (0, 0) 0 0 (by decide) (by decide) (by decide) (by decide) (by decide)

/-- A framebuffer for three characters by two, with some bytes behind each row of pixels. -/
def sixCells : Framebuffer where
  addr := 0x1000
  pitch := 128
  width := 27
  height := 18
  bpp := 32

theorem setup_sixCells : Setup (thinFont 8 256) sixCells where
  bpp := rfl
  pitch := by decide
  pitch_lt := by decide
  height_lt := by decide
  stop_le := by decide
  glyph := by decide
  glyph_lt := by decide
  fontWidth_lt := by decide
  fontHeight_lt := by decide

/-- Six letters of a small font are drawn. -/
theorem renders_small : cells (thinFont 8 256) sixCells = [(0, 0), (1, 0), (2, 0), (0, 1), (1, 1), (2, 1)] ∧
    Renders { thinFont 8 256 with start := BitVec.ofNat 8 } sixCells fun i => UInt8.ofNat (0x41 + i) :=
  ⟨by decide, (renders_iff setup_sixCells).mpr (.inr (.inr ⟨by decide, by decide⟩)) _⟩

end Colibri.Tty

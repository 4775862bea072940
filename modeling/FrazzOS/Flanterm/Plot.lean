import FrazzOS.Flanterm.Fb
import FrazzOS.Support.Paint

/-!
# Flanterm — Plot

The pixels of a cell.  `plot_char` and `plot_char_fast` are two loops over them, the second one only
over those that differ between two glyphs.

* `pixel_inj`: different pixels of the cells are different words of the framebuffer.
* `plotChar_eq`, `plotCharFast_eq`: where the cells are on the framebuffer no access goes outside of
  it, or of the font or the canvas.
* `plotted_pixel`: what the loops leave in each pixel of each cell.
* `plottedFast_pixel`: over a character in the same colours the fast one is as good as the other one.
* `plotted_outside`: nothing but pixels of the cell is written.
-/

namespace FrazzOS.Flanterm

open Loops Paint Function

/-- The cells are on the framebuffer. -/
structure FbConfig.Fits (rows cols : Nat) (cfg : FbConfig) : Prop where
  glyphWidth_eq : cfg.glyphWidth = cfg.fontWidth * cfg.fontScaleX
  glyphHeight_eq : cfg.glyphHeight = cfg.fontHeight * cfg.fontScaleY
  columns : cfg.offsetX + cols * cfg.glyphWidth ≤ cfg.width
  lines : cfg.offsetY + rows * cfg.glyphHeight ≤ cfg.height
  width_le : cfg.width ≤ cfg.pitch / 4

/-- The index of the pixel `(gx, gy)` of the cell `(x, y)` in the framebuffer. -/
def FbConfig.pixel (cfg : FbConfig) (x y gx gy : Nat) : Nat :=
  cfg.offsetX + x * cfg.glyphWidth + (cfg.offsetY + y * cfg.glyphHeight + gy) * (cfg.pitch / 4) + gx

/-- Its index in the canvas. -/
def FbConfig.canvasPixel (cfg : FbConfig) (x y gx gy : Nat) : Nat :=
  cfg.offsetX + x * cfg.glyphWidth + (cfg.offsetY + y * cfg.glyphHeight + gy) * cfg.width + gx

/-- The dot of the glyph of `c` in the row `fy` and the column `fx`. -/
def FbConfig.glyph (cfg : FbConfig) (c : FbChar) (fy fx : Nat) : Bool :=
  cfg.fontBool (c.c.toNat * cfg.fontHeight * cfg.fontWidth + fy * cfg.fontWidth + fx)

/-- The colour of a pixel: `0xffffffff` is that of the canvas. -/
def shade (draw : Bool) (c : FbChar) (canvas : BitVec 32) : BitVec 32 :=
  let bg := if c.bg = 0xffffffff then canvas else c.bg
  let fg := if c.fg = 0xffffffff then canvas else c.fg
  if draw then fg else bg

/-- Whether the pixel belongs to the glyph of `c`. -/
def FbConfig.drawn (cfg : FbConfig) (c : FbChar) (gx gy : Nat) : Bool :=
  cfg.glyph c (gy / cfg.fontScaleY % 256) (gx / cfg.fontScaleX)

/-- The colour of the pixel, where the cell shows `c`. -/
def FbConfig.render (cfg : FbConfig) (c : FbChar) (x y gx gy : Nat) : BitVec 32 :=
  shade (cfg.drawn c gx gy) c (cfg.canvas (cfg.canvasPixel x y gx gy))

/-- The colour that belongs into a word of the cell, where the cell shows `c`. -/
def FbConfig.cellColour (cfg : FbConfig) (c : FbChar) (x y a : Nat) : BitVec 32 :=
  cfg.render c x y ((a - cfg.pixel x y 0 0) % (cfg.pitch / 4))
    ((a - cfg.pixel x y 0 0) / (cfg.pitch / 4))

/-- The word is no pixel of a cell. -/
def FbConfig.Margin (rows cols : Nat) (cfg : FbConfig) (a : Nat) : Prop :=
  ∀ x y gx gy, x < cols → y < rows → gx < cfg.glyphWidth → gy < cfg.glyphHeight →
    a ≠ cfg.pixel x y gx gy

/-- The pixels that belong to one of the font, in a row of the cell: the innermost loop. -/
def plotDot (cfg : FbConfig) (c : FbChar) (mask : Nat → Nat → Bool) (x y gy fx : Nat)
    (fb : Nat → BitVec 32) : Nat → BitVec 32 :=
  if mask (gy / cfg.fontScaleY % 256) fx then
    countUp (fun i fb =>
      update fb (cfg.pixel x y (cfg.fontScaleX * fx + i) gy)
        (shade (cfg.glyph c (gy / cfg.fontScaleY % 256) fx) c
          (cfg.canvas (cfg.canvasPixel x y (cfg.fontScaleX * fx + i) gy))))
      0 cfg.fontScaleX fb
  else fb

/-- The loops of `plot_char` and `plot_char_fast`, over the pixels of the font in `mask`. -/
def plotMasked (cfg : FbConfig) (c : FbChar) (mask : Nat → Nat → Bool) (x y : Nat) :
    (Nat → BitVec 32) → Nat → BitVec 32 :=
  countUp (fun gy => countUp (fun fx fb => plotDot cfg c mask x y gy fx fb) 0 cfg.fontWidth) 0
    cfg.glyphHeight

/-- What `plot_char` leaves. -/
def FbConfig.plotted (cfg : FbConfig) (c : FbChar) (x y : Nat) :
    (Nat → BitVec 32) → Nat → BitVec 32 :=
  plotMasked cfg c (fun _ _ => true) x y

/-- What `plot_char_fast` leaves: the pixels that differ are new. -/
def FbConfig.plottedFast (cfg : FbConfig) (old c : FbChar) (x y : Nat) :
    (Nat → BitVec 32) → Nat → BitVec 32 :=
  plotMasked cfg c (fun fy fx => cfg.glyph old fy fx != cfg.glyph c fy fx) x y

section Geometry

variable {cfg : FbConfig} {rows cols x x' y y' gx gx' gy gy' : Nat}

theorem mul_add_div_self {n q r : Nat} (hr : r < n) : (n * q + r) / n = q := by
  rw [Nat.mul_add_div (by omega), Nat.div_eq_of_lt hr, Nat.add_zero]

/-- A quotient and a remainder. -/
theorem mul_add_inj {n q q' r r' : Nat} (hr : r < n) (hr' : r' < n) (h : q * n + r = q' * n + r') :
    q = q' ∧ r = r' := by
  have hq : q = q' := by
    rw [← @mul_add_div_self n q r hr, Nat.mul_comm, h, Nat.mul_comm, mul_add_div_self hr']
  subst hq
  exact ⟨rfl, Nat.add_left_cancel h⟩

/-- A pixel of a cell is in the columns of the framebuffer. -/
theorem FbConfig.Fits.column_lt (h : cfg.Fits rows cols) (hx : x < cols) (hgx : gx < cfg.glyphWidth) :
    cfg.offsetX + x * cfg.glyphWidth + gx < cfg.width := by
  have hcol : (x + 1) * cfg.glyphWidth ≤ cols * cfg.glyphWidth := Nat.mul_le_mul_right _ hx
  have hcolumns := h.columns
  rw [Nat.add_mul, Nat.one_mul] at hcol
  omega

/-- And in its rows. -/
theorem FbConfig.Fits.row_lt (h : cfg.Fits rows cols) (hy : y < rows) (hgy : gy < cfg.glyphHeight) :
    cfg.offsetY + y * cfg.glyphHeight + gy < cfg.height := by
  have hrow : (y + 1) * cfg.glyphHeight ≤ rows * cfg.glyphHeight := Nat.mul_le_mul_right _ hy
  have hlines := h.lines
  rw [Nat.add_mul, Nat.one_mul] at hrow
  omega

/-- The index of a place in a grid with lines of `n`. -/
theorem place_lt {n m line column : Nat} (hline : line < m) (hcolumn : column < n) :
    column + line * n < m * n := by
  have hle : (line + 1) * n ≤ m * n := Nat.mul_le_mul_right n hline
  rw [Nat.add_mul, Nat.one_mul] at hle
  omega

/-- **A pixel of a cell is a word of the framebuffer.** -/
theorem pixel_lt (h : cfg.Fits rows cols) (hx : x < cols) (hy : y < rows)
    (hgx : gx < cfg.glyphWidth) (hgy : gy < cfg.glyphHeight) :
    cfg.pixel x y gx gy < cfg.height * (cfg.pitch / 4) := by
  have hplace := place_lt (h.row_lt hy hgy) (Nat.lt_of_lt_of_le (h.column_lt hx hgx) h.width_le)
  rwa [Nat.add_right_comm] at hplace

/-- And one of the canvas. -/
theorem canvasPixel_lt (h : cfg.Fits rows cols) (hx : x < cols) (hy : y < rows)
    (hgx : gx < cfg.glyphWidth) (hgy : gy < cfg.glyphHeight) :
    cfg.canvasPixel x y gx gy < cfg.width * cfg.height := by
  have hplace := place_lt (h.row_lt hy hgy) (h.column_lt hx hgx)
  rwa [Nat.add_right_comm, Nat.mul_comm cfg.height] at hplace

/-- **Different pixels are different words.** -/
theorem pixel_inj (h : cfg.Fits rows cols) (hx : x < cols) (hx' : x' < cols)
    (hgx : gx < cfg.glyphWidth) (hgx' : gx' < cfg.glyphWidth) (hgy : gy < cfg.glyphHeight)
    (hgy' : gy' < cfg.glyphHeight) (heq : cfg.pixel x y gx gy = cfg.pixel x' y' gx' gy') :
    x = x' ∧ y = y' ∧ gx = gx' ∧ gy = gy' := by
  have hcol := h.column_lt hx hgx
  have hcol' := h.column_lt hx' hgx'
  have hw := h.width_le
  have hword : (cfg.offsetY + y * cfg.glyphHeight + gy) * (cfg.pitch / 4) +
      (cfg.offsetX + x * cfg.glyphWidth + gx) =
      (cfg.offsetY + y' * cfg.glyphHeight + gy') * (cfg.pitch / 4) +
      (cfg.offsetX + x' * cfg.glyphWidth + gx') := by
    simp only [FbConfig.pixel] at heq
    omega
  obtain ⟨hrow, hcolumn⟩ := mul_add_inj (by omega) (by omega) hword
  obtain ⟨hy, hgy⟩ := @mul_add_inj cfg.glyphHeight y y' gy gy' hgy hgy' (by omega)
  obtain ⟨hx, hgx⟩ := @mul_add_inj cfg.glyphWidth x x' gx gx' hgx hgx' (by omega)
  exact ⟨hx, hy, hgx, hgy⟩

theorem cellColour_pixel {c : FbChar} (h : cfg.Fits rows cols) (hx : x < cols)
    (hgx : gx < cfg.glyphWidth) :
    cfg.cellColour c x y (cfg.pixel x y gx gy) = cfg.render c x y gx gy := by
  have hcol := h.column_lt hx hgx
  have hw := h.width_le
  have hsub : cfg.pixel x y gx gy - cfg.pixel x y 0 0 = cfg.pitch / 4 * gy + gx := by
    simp only [FbConfig.pixel, Nat.add_mul, Nat.add_zero,
      Nat.mul_comm (cfg.pitch / 4) gy]
    omega
  have hlt : gx < cfg.pitch / 4 := by omega
  rw [FbConfig.cellColour, hsub, Nat.mul_add_mod, Nat.mod_eq_of_lt hlt, Nat.mul_add_div (by omega),
    Nat.div_eq_of_lt hlt, Nat.add_zero]

end Geometry

section Loops

variable {cfg : FbConfig} {ctx : Context} {rows cols x x' y y' gx gy fx i a : Nat} {c old : FbChar}
  {mask : Nat → Nat → Bool} {fb : Nat → BitVec 32}

/-- The pixels of one of the font are in the cell. -/
theorem FbConfig.Fits.dot_lt (h : cfg.Fits rows cols) (hfx : fx < cfg.fontWidth)
    (hi : i < cfg.fontScaleX) : cfg.fontScaleX * fx + i < cfg.glyphWidth := by
  have hle : cfg.fontScaleX * (fx + 1) ≤ cfg.fontScaleX * cfg.fontWidth :=
    Nat.mul_le_mul_left _ hfx
  rw [h.glyphWidth_eq, Nat.mul_comm cfg.fontWidth]
  rw [Nat.mul_add, Nat.mul_one] at hle
  omega

theorem paints_plotDot (h : cfg.Fits rows cols) (hx : x < cols) (hfx : fx < cfg.fontWidth) :
    Paints (plotDot cfg c mask x y gy fx)
      {a | mask (gy / cfg.fontScaleY % 256) fx = true ∧ ∃ i, 0 ≤ i ∧ i < 0 + cfg.fontScaleX ∧
        a ∈ ({cfg.pixel x y (cfg.fontScaleX * fx + i) gy} : Set Nat)}
      (cfg.cellColour c x y) := by
  unfold plotDot
  by_cases hmask : mask (gy / cfg.fontScaleY % 256) fx = true
  · simp only [hmask, if_true, true_and]
    refine paints_countUp fun i _ hi => paints_update ?_
    rw [Nat.zero_add] at hi
    rw [cellColour_pixel h hx (h.dot_lt hfx hi), FbConfig.render, FbConfig.drawn,
      mul_add_div_self hi]
  · simp only [hmask, Bool.false_eq_true, if_false, false_and, Set.ofPred_false]
    exact paints_none

/-- **The loops** paint the pixels of the cell that are in the mask. -/
theorem paints_plotMasked (h : cfg.Fits rows cols) (hx : x < cols) :
    Paints (plotMasked cfg c mask x y)
      {a | ∃ gx gy, gx < cfg.glyphWidth ∧ gy < cfg.glyphHeight ∧
        mask (gy / cfg.fontScaleY % 256) (gx / cfg.fontScaleX) = true ∧ a = cfg.pixel x y gx gy}
      (cfg.cellColour c x y) := by
  have hrow : ∀ gy, 0 ≤ gy → gy < 0 + cfg.glyphHeight → Paints
      (countUp (plotDot cfg c mask x y gy) 0 cfg.fontWidth) _ (cfg.cellColour c x y) :=
    fun gy _ _ => paints_countUp fun fx _ hfx => paints_plotDot h hx (by omega)
  intro fb a
  obtain ⟨hin, hout⟩ := paints_countUp hrow fb a
  constructor
  · rintro ⟨gx, gy, hgx, hgy, hmask, rfl⟩
    rw [h.glyphWidth_eq, Nat.mul_comm] at hgx
    have hpos : 0 < cfg.fontScaleX := Nat.pos_of_mul_pos_right (Nat.zero_lt_of_lt hgx)
    refine hin ⟨gy, Nat.zero_le _, by omega, gx / cfg.fontScaleX, Nat.zero_le _, ?_, hmask,
      gx % cfg.fontScaleX, Nat.zero_le _, ?_, ?_⟩
    · rw [Nat.zero_add]
      exact Nat.div_lt_of_lt_mul hgx
    · rw [Nat.zero_add]
      exact Nat.mod_lt _ hpos
    · rw [Nat.div_add_mod]
      rfl
  · intro hno
    refine hout ?_
    rintro ⟨gy, -, hgy, fx, -, hfx, hmask, i, -, hi, rfl⟩
    rw [Nat.zero_add] at hgy hfx hi
    refine hno ⟨cfg.fontScaleX * fx + i, gy, h.dot_lt hfx hi, hgy, ?_, rfl⟩
    rw [mul_add_div_self hi]
    exact hmask

/-- What the loops leave in a pixel of a cell. -/
theorem plotMasked_pixel (h : cfg.Fits rows cols) (hx : x < cols) (hx' : x' < cols)
    (hgx : gx < cfg.glyphWidth) (hgy : gy < cfg.glyphHeight) :
    plotMasked cfg c mask x y fb (cfg.pixel x' y' gx gy) =
      if (x' = x ∧ y' = y) ∧ mask (gy / cfg.fontScaleY % 256) (gx / cfg.fontScaleX) = true then
        cfg.render c x y gx gy
      else fb (cfg.pixel x' y' gx gy) := by
  have hpaints : Paints (plotMasked cfg c mask x y) _ _ := paints_plotMasked h hx
  obtain ⟨hin, hout⟩ := hpaints fb (cfg.pixel x' y' gx gy)
  split
  · rename_i hcond
    obtain ⟨⟨rfl, rfl⟩, hmask⟩ := hcond
    rw [hin ⟨gx, gy, hgx, hgy, hmask, rfl⟩, cellColour_pixel h hx hgx]
  · rename_i hno
    refine hout ?_
    rintro ⟨gx', gy', hgx', hgy', hmask, heq⟩
    obtain ⟨rfl, rfl, rfl, rfl⟩ := pixel_inj h hx' hx hgx hgx' hgy hgy' heq
    exact hno ⟨⟨rfl, rfl⟩, hmask⟩

theorem plotMasked_outside (h : cfg.Fits rows cols) (hx : x < cols) (hy : y < rows)
    (ha : cfg.Margin rows cols a) : plotMasked cfg c mask x y fb a = fb a := by
  refine (paints_plotMasked h hx fb a).2 ?_
  rintro ⟨gx, gy, hgx, hgy, -, rfl⟩
  exact ha x y gx gy hx hy hgx hgy rfl

/-- A dot of a row of a cell is one of the font. -/
theorem FbConfig.Fits.dot_eq (h : cfg.Fits rows cols) (hgy : gy < cfg.glyphHeight)
    (hfx : fx < cfg.fontWidth) (c : FbChar) :
    cfg.dot (c.c.toNat * cfg.fontHeight * cfg.fontWidth +
      gy / cfg.fontScaleY % 256 * cfg.fontWidth + fx) =
        some (cfg.glyph c (gy / cfg.fontScaleY % 256) fx) := by
  have hrow : gy / cfg.fontScaleY % 256 < cfg.fontHeight := by
    rw [h.glyphHeight_eq, Nat.mul_comm] at hgy
    exact Nat.lt_of_le_of_lt (Nat.mod_le _ _) (Nat.div_lt_of_lt_mul hgy)
  have hline := place_lt c.c_lt hrow
  have hplace := place_lt hline hfx
  rw [FbConfig.dot, FbConfig.glyph, ← Nat.add_mul, Nat.add_comm _ fx,
    Nat.add_comm (c.c.toNat * cfg.fontHeight), if_pos hplace]

/-- A pixel is plotted. -/
theorem FbConfig.Fits.plotPixel_eq (h : cfg.Fits rows cols) (hx : x < cols) (hy : y < rows)
    (hgx : gx < cfg.glyphWidth) (hgy : gy < cfg.glyphHeight) (draw : Bool) (c : FbChar)
    (fb : Nat → BitVec 32) :
    cfg.plotPixel draw c
      (cfg.offsetX + x * cfg.glyphWidth +
        (cfg.offsetY + y * cfg.glyphHeight + gy) * (cfg.pitch / 4))
      (cfg.offsetX + x * cfg.glyphWidth + (cfg.offsetY + y * cfg.glyphHeight + gy) * cfg.width)
      gx fb = some (update fb (cfg.pixel x y gx gy)
        (shade draw c (cfg.canvas (cfg.canvasPixel x y gx gy)))) := by
  have hcolour : ∀ colour : BitVec 32, cfg.colour colour (cfg.canvasPixel x y gx gy) =
      some (if colour = 0xffffffff then cfg.canvas (cfg.canvasPixel x y gx gy) else colour) := by
    intro colour
    rw [FbConfig.colour, FbConfig.canvasAt, if_pos (canvasPixel_lt h hx hy hgx hgy)]
    split <;> rfl
  have hbg := hcolour c.bg
  have hfg := hcolour c.fg
  have hstore := pixel_lt h hx hy hgx hgy
  rw [FbConfig.canvasPixel] at hbg hfg
  rw [FbConfig.pixel] at hstore
  rw [FbConfig.plotPixel, hbg, hfg]
  exact if_pos hstore

/-- **On the grid `plot_char` is the loops over all pixels**: no access goes outside of an array. -/
theorem plotChar_eq (h : cfg.Fits ctx.rows ctx.cols) (hx : x < ctx.cols) (hy : y < ctx.rows) :
    plotChar cfg ctx c x y fb = some (cfg.plotted c x y fb) := by
  rw [plotChar, if_neg (by omega)]
  refine foldlM_eq_countUp 0 _ fb fun gy fb _ hgy => ?_
  refine foldlM_eq_countUp 0 _ fb fun fx fb _ hfx => ?_
  rw [Nat.zero_add] at hgy hfx
  rw [h.dot_eq hgy hfx c]
  exact foldlM_eq_countUp 0 _ fb fun i fb _ hi =>
    h.plotPixel_eq hx hy (h.dot_lt hfx (by omega)) hgy _ c fb

/-- And `plot_char_fast` the loops over those that differ. -/
theorem plotCharFast_eq (h : cfg.Fits ctx.rows ctx.cols) (hx : x < ctx.cols) (hy : y < ctx.rows) :
    plotCharFast cfg ctx old c x y fb = some (cfg.plottedFast old c x y fb) := by
  rw [plotCharFast, if_neg (by omega)]
  refine foldlM_eq_countUp 0 _ fb fun gy fb _ hgy => ?_
  refine foldlM_eq_countUp 0 _ fb fun fx fb _ hfx => ?_
  rw [Nat.zero_add] at hgy hfx
  rw [h.dot_eq hgy hfx c, h.dot_eq hgy hfx old, Option.bind_eq_bind, Option.bind_some,
    Option.bind_some, plotDot]
  by_cases hsame : cfg.glyph old (gy / cfg.fontScaleY % 256) fx =
      cfg.glyph c (gy / cfg.fontScaleY % 256) fx
  · rw [if_pos hsame, if_neg (by rwa [bne_iff_ne, not_not])]
  · rw [if_neg hsame, if_pos (by rwa [bne_iff_ne])]
    exact foldlM_eq_countUp 0 _ fb fun i fb _ hi =>
      h.plotPixel_eq hx hy (h.dot_lt hfx (by omega)) hgy _ c fb

/-- **`plot_char`** leaves the character in the pixels of the cell. -/
theorem plotted_pixel (h : cfg.Fits rows cols) (hx : x < cols) (hx' : x' < cols)
    (hgx : gx < cfg.glyphWidth) (hgy : gy < cfg.glyphHeight) :
    cfg.plotted c x y fb (cfg.pixel x' y' gx gy) =
      if x' = x ∧ y' = y then cfg.render c x y gx gy else fb (cfg.pixel x' y' gx gy) := by
  rw [FbConfig.plotted, plotMasked_pixel h hx hx' hgx hgy]
  simp only [and_true]

/-- **Nothing else is written.** -/
theorem plotted_outside (h : cfg.Fits rows cols) (hx : x < cols) (hy : y < rows)
    (ha : cfg.Margin rows cols a) : cfg.plotted c x y fb a = fb a :=
  plotMasked_outside h hx hy ha

theorem plottedFast_outside (h : cfg.Fits rows cols) (hx : x < cols) (hy : y < rows)
    (ha : cfg.Margin rows cols a) : cfg.plottedFast old c x y fb a = fb a :=
  plotMasked_outside h hx hy ha

/-- Outside of its cell `plot_char_fast` leaves the pixels. -/
theorem plottedFast_other (h : cfg.Fits rows cols) (hx : x < cols) (hx' : x' < cols)
    (hgx : gx < cfg.glyphWidth) (hgy : gy < cfg.glyphHeight) (hne : ¬ (x' = x ∧ y' = y)) :
    cfg.plottedFast old c x y fb (cfg.pixel x' y' gx gy) = fb (cfg.pixel x' y' gx gy) := by
  rw [FbConfig.plottedFast, plotMasked_pixel h hx hx' hgx hgy]
  exact if_neg fun hcond => hne hcond.1

/-- **The fast path is right**: over a character in the same colours it leaves the new one. -/
theorem plottedFast_pixel (h : cfg.Fits rows cols) (hx : x < cols) (hgx : gx < cfg.glyphWidth)
    (hgy : gy < cfg.glyphHeight) (hfg : c.fg = old.fg) (hbg : c.bg = old.bg)
    (hold : fb (cfg.pixel x y gx gy) = cfg.render old x y gx gy) :
    cfg.plottedFast old c x y fb (cfg.pixel x y gx gy) = cfg.render c x y gx gy := by
  rw [FbConfig.plottedFast, plotMasked_pixel h hx hx hgx hgy]
  simp only [and_self, true_and, bne_iff_ne, ne_eq]
  split
  · rfl
  · rename_i hsame
    have hdrawn : cfg.drawn old gx gy = cfg.drawn c gx gy := not_not.mp hsame
    rw [hold, FbConfig.render, FbConfig.render, shade, shade, hdrawn, hfg, hbg]

end Loops

end FrazzOS.Flanterm

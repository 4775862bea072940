import FrazzOS.Flanterm.Pieces

/-!
# Flanterm — Init

`flanterm_fb_init` and `flanterm_fb_simple_init`, where every allocation succeeds.

The bits of the font become one `bool` for each pixel of each glyph.  An access to `font_bits` or to
`font_bool` gives `none` where the index is outside of it, and so does a division by zero.  The bits
of `builtin_font` are a parameter, `builtin`.

* `fontBool_yields`: the loops of the font, pixel by pixel.
* `flantermFbInit_yields`: a font that is eight dots wide at least, and a framebuffer with room for
  one cell, give a terminal with a blank screen that is to be seen.
-/

namespace FrazzOS.Flanterm

open Faults Loops Function

/-- A font: its bits, its size and the room between two of its glyphs. -/
structure Font where
  bits : Nat → BitVec 8
  width : Nat
  height : Nat
  spacing : Nat

/-- The arguments of `flanterm_fb_init`, but for the allocator; `none` is `NULL`. -/
structure FbInit where
  framebuffer : Nat → BitVec 32
  width : Nat
  height : Nat
  pitch : Nat
  canvas : Option (Nat → BitVec 32)
  ansiColours : Option (Vector (BitVec 32) 8)
  ansiBrightColours : Option (Vector (BitVec 32) 8)
  defaultBg : Option (BitVec 32)
  defaultFg : Option (BitVec 32)
  defaultBgBright : Option (BitVec 32)
  defaultFgBright : Option (BitVec 32)
  font : Option Font
  fontScaleX : Nat
  fontScaleY : Nat
  margin : Nat

/-- `flanterm_fb_simple_init`: what it calls `flanterm_fb_init` with. -/
def simpleInit (framebuffer : Nat → BitVec 32) (width height pitch : Nat) : FbInit where
  framebuffer := framebuffer
  width := width
  height := height
  pitch := pitch
  canvas := none
  ansiColours := none
  ansiBrightColours := none
  defaultBg := none
  defaultFg := none
  defaultBgBright := none
  defaultFgBright := none
  font := none
  fontScaleX := 1
  fontScaleY := 1
  margin := 0

/-! ### The font -/

/-- `ctx->font_width`, behind `ctx->font_width += font_spacing`. -/
def Font.dots (f : Font) : Nat := f.width + f.spacing

/-- `font_bits[i]`. -/
def Font.byte (f : Font) (i : Nat) : Option (BitVec 8) :=
  if i < f.width * f.height * 256 / 8 then some (f.bits i) else none

/-- `font_bool[offset] = b`. -/
def Font.store (f : Font) (offset : Nat) (b : Bool) (bools : Nat → Bool) : Option (Nat → Bool) :=
  if offset < 256 * f.height * f.dots then some (update bools offset b) else none

/-- The row `y` of the glyph `i`: eight dots, and the columns above. -/
def Font.row (f : Font) (i y : Nat) (bools : Nat → Bool) : Option (Nat → Bool) := do
  let offset := i * f.height * f.dots + y * f.dots
  let bools ← (List.range' 0 8).foldlM (fun bools x => do
    f.store (offset + x) ((← f.byte (i * f.height + y)).getMsbD x) bools) bools
  (List.range' 8 (f.dots - 8)).foldlM (fun bools x => do
    let last ← f.byte (i * f.height + y)
    f.store (offset + x) (decide (0xc0 ≤ i ∧ i ≤ 0xdf) && last.getLsbD 0) bools) bools

/-- The loop over the glyphs, from the `bool`s that `malloc` gives. -/
def Font.fontBool (f : Font) (bools : Nat → Bool) : Option (Nat → Bool) :=
  (List.range' 0 256).foldlM (fun bools i =>
    (List.range' 0 f.height).foldlM (fun bools y => f.row i y bools) bools) bools

/-- Whether the dot `x` of the row `y` of the glyph `i` is set. -/
def Font.dot (f : Font) (i y x : Nat) : Bool :=
  let byte := f.bits (i * f.height + y)
  if x < 8 then byte.getMsbD x else decide (0xc0 ≤ i ∧ i ≤ 0xdf) && byte.getLsbD 0

/-! ### The terminal -/

/-- A context of zeros, with the size of the screen. -/
def zeroContext (rows cols : Nat) : Context where
  tabSize := 0
  autoflush := false
  cursorEnabled := false
  scrollEnabled := false
  controlSequence := false
  csi := false
  escape := false
  osc := false
  oscEscape := false
  rrr := false
  discardNext := false
  bold := false
  bgBold := false
  reverseVideo := false
  decPrivate := false
  insertMode := false
  codePoint := 0
  unicodeRemaining := 0
  gSelect := 0
  charsets := #v[.default, .default]
  currentCharset := 0
  escapeOffset := 0
  escValuesI := 0
  savedCursorX := 0
  savedCursorY := 0
  currentPrimary := some 0
  currentBg := some 0
  scrollTopMargin := 0
  scrollBottomMargin := 0
  escValues := Vector.replicate 16 0
  oobOutput := 0
  savedStateBold := false
  savedStateBgBold := false
  savedStateReverseVideo := false
  savedStateCurrentCharset := 0
  savedStateCurrentPrimary := some 0
  savedStateCurrentBg := some 0
  rows := rows
  cols := cols
  callback := false

/-- The colours that `flanterm_fb_init` has for `NULL`. -/
def defaultAnsiColours : Vector (BitVec 32) 8 := #v[
  0x00000000, 0x00aa0000, 0x0000aa00, 0x00aa5500, 0x000000aa, 0x00aa00aa, 0x0000aaaa, 0x00aaaaaa]

/-- The bright ones. -/
def defaultAnsiBrightColours : Vector (BitVec 32) 8 := #v[
  0x00555555, 0x00ff5555, 0x0055ff55, 0x00ffff55, 0x005555ff, 0x00ff55ff, 0x0055ffff, 0x00ffffff]

/-- The font that is used. -/
def FbInit.fontOf (builtin : Nat → BitVec 8) (a : FbInit) : Font := a.font.getD ⟨builtin, 8, 16, 1⟩

/-- The fields of the context that nothing changes afterwards. -/
def FbInit.config (f : Font) (fontBool : Nat → Bool) (a : FbInit) : FbConfig :=
  let glyphWidth := f.dots * a.fontScaleX
  let glyphHeight := f.height * a.fontScaleY
  let defaultBg := a.defaultBg.getD 0x00000000
  { fontWidth := f.dots
    fontHeight := f.height
    glyphWidth := glyphWidth
    glyphHeight := glyphHeight
    fontScaleX := a.fontScaleX
    fontScaleY := a.fontScaleY
    offsetX := a.margin + sub64 a.width (a.margin * 2) % glyphWidth / 2
    offsetY := a.margin + sub64 a.height (a.margin * 2) % glyphHeight / 2
    pitch := a.pitch
    width := a.width
    height := a.height
    fontBool := fontBool
    canvas := a.canvas.getD fun _ => defaultBg
    ansiColours := a.ansiColours.getD defaultAnsiColours
    ansiBrightColours := a.ansiBrightColours.getD defaultAnsiBrightColours
    defaultFg := a.defaultFg.getD 0x00aaaaaa
    defaultBg := defaultBg
    defaultFgBright := a.defaultFgBright.getD 0x00ffffff
    defaultBgBright := a.defaultBgBright.getD 0x00555555 }

/-- The backend before anything is plotted: blanks in the default colours, and no queue. -/
def FbInit.blank (fg : BitVec 32) (a : FbInit) : FbContext where
  grid := fun _ => .ofByte 0x20 fg 0xffffffff
  queue := fun _ => ⟨0, 0, .ofByte 0 0 0⟩
  queueI := 0
  map := fun _ => none
  textFg := fg
  textBg := 0xffffffff
  cursorX := 0
  cursorY := 0
  savedStateTextFg := 0
  savedStateTextBg := 0
  savedStateCursorX := 0
  savedStateCursorY := 0
  oldCursorX := 0
  oldCursorY := 0
  framebuffer := a.framebuffer

/-- `flanterm_fb_init`. -/
def flantermFbInit (builtin : Nat → BitVec 8) (bools : Nat → Bool) (a : FbInit) :
    Option (FbConfig × Terminal FbContext) := do
  let f := a.fontOf builtin
  let cfg := a.config f (← f.fontBool bools)
  if cfg.glyphWidth = 0 ∨ cfg.glyphHeight = 0 then none
  else
    let rows := sub64 a.height (a.margin * 2) / cfg.glyphHeight
    let cols := sub64 a.width (a.margin * 2) / cfg.glyphWidth
    let ctx := flantermContextReinit (zeroContext rows cols)
    return (cfg, ⟨ctx, ← flantermFbFullRefresh cfg ctx (a.blank cfg.defaultFg)⟩)

section Font

variable {f : Font} {i y x n : Nat} {bools : Nat → Bool}

/-- The index of a dot in `font_bool`. -/
def Font.index (f : Font) (i y x : Nat) : Nat := i * f.height * f.dots + y * f.dots + x

/-- The dots in front of the index `n` are right. -/
def Font.Filled (f : Font) (n : Nat) (bools : Nat → Bool) : Prop :=
  ∀ i y x, y < f.height → x < f.dots → f.index i y x < n → bools (f.index i y x) = f.dot i y x

/-- Different dots have different indices. -/
theorem Font.index_inj {i' y' x' : Nat} (hy : y < f.height) (hy' : y' < f.height) (hx : x < f.dots)
    (hx' : x' < f.dots) (h : f.index i y x = f.index i' y' x') : i = i' ∧ y = y' ∧ x = x' := by
  simp only [Font.index, ← Nat.add_mul] at h
  obtain ⟨hrow, hx⟩ := mul_add_inj hx hx' h
  obtain ⟨hi, hy⟩ := mul_add_inj hy hy' hrow
  exact ⟨hi, hy, hx⟩

/-- The index of a dot of one of the 256 glyphs is one of `font_bool`. -/
theorem Font.index_lt (hi : i < 256) (hy : y < f.height) (hx : x < f.dots) :
    f.index i y x < 256 * f.height * f.dots := by
  rw [Font.index, ← Nat.add_mul]
  exact Flanterm.index_lt hx (Flanterm.index_lt hy hi)

/-- The eight dots of a row have a byte, where the font is eight dots wide. -/
theorem Font.byte_eq (hw : 8 ≤ f.width) (hi : i < 256) (hy : y < f.height) :
    f.byte (i * f.height + y) = some (f.bits (i * f.height + y)) := by
  have hlt := Flanterm.index_lt hy hi
  have hsize : 8 * (256 * f.height) ≤ f.width * (256 * f.height) := Nat.mul_le_mul_right _ hw
  refine if_pos ?_
  rw [Nat.mul_assoc, Nat.mul_comm f.height]
  omega

/-- **A dot** is stored. -/
theorem Font.store_yields (hi : i < 256) (hy : y < f.height) (hx : x < f.dots)
    (h : f.Filled (f.index i y x) bools) :
    Yields (f.Filled (f.index i y x + 1)) (f.store (f.index i y x) (f.dot i y x) bools) := by
  rw [Font.store, if_pos (Font.index_lt hi hy hx)]
  refine yields_some fun i' y' x' hy' hx' hlt => ?_
  by_cases heq : f.index i' y' x' = f.index i y x
  · obtain ⟨rfl, rfl, rfl⟩ := Font.index_inj hy' hy hx' hx heq
    exact update_self ..
  · rw [update_of_ne heq]
    exact h i' y' x' hy' hx' (by omega)

/-- **A row**: first the eight dots of the byte, then the columns above. -/
theorem Font.row_yields (hw : 8 ≤ f.width) (hi : i < 256) (hy : y < f.height)
    (h : f.Filled (f.index i y 0) bools) :
    Yields (f.Filled (f.index i (y + 1) 0)) (f.row i y bools) := by
  have hdots : 8 ≤ f.dots := Nat.le_add_right_of_le hw
  have hend : f.index i (y + 1) 0 = f.index i y (8 + (f.dots - 8)) := by
    rw [Nat.add_sub_of_le hdots, Font.index, Nat.add_mul, Nat.one_mul, Font.index]
    omega
  rw [Font.row, hend, Font.byte_eq hw hi hy]
  refine (yields_up (P := fun x => f.Filled (f.index i y x)) 0 8 h fun x s _ hx hs => ?_).bind
    fun s hs => yields_up (P := fun x => f.Filled (f.index i y x)) 8 (f.dots - 8) hs
      fun x s hle hx hs => ?_
  · have hdot : f.dot i y x = (f.bits (i * f.height + y)).getMsbD x := if_pos (by omega)
    rw [Option.bind_eq_bind, Option.bind_some, ← hdot]
    exact Font.store_yields hi hy (by omega) hs
  · have hdot : f.dot i y x = (decide (0xc0 ≤ i ∧ i ≤ 0xdf) &&
        (f.bits (i * f.height + y)).getLsbD 0) := if_neg (by omega)
    rw [Option.bind_eq_bind, Option.bind_some, ← hdot]
    exact Font.store_yields hi hy (by omega) hs

/-- **The font**: every dot of every glyph, where it is eight dots wide at least. -/
theorem fontBool_yields (hw : 8 ≤ f.width) (bools : Nat → Bool) :
    Yields (fun bools => ∀ i y x, i < 256 → y < f.height → x < f.dots →
      bools (f.index i y x) = f.dot i y x) (f.fontBool bools) := by
  have hstart : f.Filled (f.index 0 0 0) bools := fun i y x _ _ h => by
    simp only [Font.index, Nat.zero_mul, Nat.add_zero, Nat.not_lt_zero] at h
  have hglyph : ∀ i, f.index i (0 + f.height) 0 = f.index (i + 1) 0 0 := fun i => by
    simp only [Font.index, Nat.zero_add, Nat.add_mul, Nat.one_mul, Nat.zero_mul, Nat.add_zero]
  refine (yields_up (P := fun i => f.Filled (f.index i 0 0)) 0 256 hstart
    fun i s _ hi hs => ?_).mono fun s hs i y x hi hy hx => hs i y x hy hx ?_
  · rw [← hglyph]
    exact yields_up (P := fun y => f.Filled (f.index i y 0)) 0 f.height hs
      fun y s _ hy hs => Font.row_yields hw (by omega) (by omega) hs
  · have hlt := Font.index_lt hi hy hx
    simpa only [Font.index, Nat.zero_mul, Nat.add_zero, Nat.zero_add] using hlt

end Font

/-! ### The first picture -/

/-- What `flanterm_fb_full_refresh` leaves outside of the cells: the canvas, and on the right of it
and below it what was there. -/
def FbConfig.backdrop (cfg : FbConfig) (fb : Nat → BitVec 32) (a : Nat) : BitVec 32 :=
  let x := a % (cfg.pitch / 4)
  let y := a / (cfg.pitch / 4)
  if x < cfg.width ∧ y < cfg.height then cfg.canvas (y * cfg.width + x) else fb a

section Refresh

variable {cfg : FbConfig} {ctx : Context} {s : FbContext} {t : Screen} {fb : Nat → BitVec 32}

/-- The row and the column of a word. -/
theorem split_word {n x y : Nat} (hx : x < n) : (y * n + x) / n = y ∧ (y * n + x) % n = x :=
  ⟨by rw [Nat.mul_comm, mul_add_div_self hx], Nat.mul_add_mod_of_lt hx⟩

/-- **The loops over the canvas**: no access goes outside of it or of the framebuffer. -/
theorem copyCanvas_eq (hwidth : cfg.width ≤ cfg.pitch / 4) :
    copyCanvas cfg fb = some (cfg.backdrop fb) := by
  have hloops : copyCanvas cfg fb = some (countUp (fun y => countUp (fun x fb =>
      update fb (y * (cfg.pitch / 4) + x) (cfg.canvas (y * cfg.width + x))) 0 cfg.width) 0
      cfg.height fb) := by
    refine foldlM_eq_countUp 0 _ fb fun y fb _ hy => foldlM_eq_countUp 0 _ fb fun x fb _ hx => ?_
    rw [Nat.zero_add] at hy hx
    have hread := place_lt hy hx
    have hwrite := place_lt hy (Nat.lt_of_lt_of_le hx hwidth)
    rw [Nat.add_comm x, Nat.mul_comm cfg.height] at hread
    rw [Nat.add_comm x] at hwrite
    rw [FbConfig.canvasAt, if_pos hread]
    exact if_pos hwrite
  have hpaints : Paint.Paints (countUp (fun y => countUp (fun x fb =>
      update fb (y * (cfg.pitch / 4) + x) (cfg.canvas (y * cfg.width + x))) 0 cfg.width) 0
      cfg.height) _ (fun a => cfg.canvas (a / (cfg.pitch / 4) * cfg.width + a % (cfg.pitch / 4))) :=
    Paint.paints_countUp fun y _ _ => Paint.paints_countUp fun x _ hx => Paint.paints_update <| by
      obtain ⟨hdiv, hmod⟩ := @split_word (cfg.pitch / 4) x y (by omega)
      rw [hdiv, hmod]
  rw [hloops]
  refine congrArg some (funext fun a => ?_)
  obtain ⟨hin, hout⟩ := hpaints fb a
  rw [FbConfig.backdrop]
  split
  · rename_i h
    exact hin ⟨a / (cfg.pitch / 4), Nat.zero_le _, (Nat.zero_add _).symm ▸ h.2, a % (cfg.pitch / 4),
      Nat.zero_le _, (Nat.zero_add _).symm ▸ h.1, (Nat.div_add_mod' a _).symm⟩
  · rename_i hno
    refine hout ?_
    rintro ⟨y, -, hy, x, -, hx, rfl⟩
    obtain ⟨hdiv, hmod⟩ := @split_word (cfg.pitch / 4) x y (by omega)
    rw [hdiv, hmod] at hno
    omega

/-- **Everything is plotted**: the backend shows the screen that it holds. -/
theorem fullRefresh_yields (hfits : cfg.Fits ctx.rows ctx.cols) (hcols : 0 < ctx.cols)
    (hgrid : ∀ x y, x < ctx.cols → y < ctx.rows → s.grid (y * ctx.cols + x) = t.cells x y)
    (hmap : ∀ i, s.map i = none) (hqueue : s.queueI = 0) (hpen : s.toPen = t.toPen)
    (hold : s.oldCursorX = s.cursorX ∧ s.oldCursorY = s.cursorY) :
    Yields (Refines cfg (cfg.backdrop s.framebuffer) ctx.rows ctx.cols · (t.flush ctx))
      (flantermFbFullRefresh cfg ctx s) := by
  obtain ⟨f, hf, hdisplays, hmargin⟩ := fullRefresh_eq hfits hcols hgrid hmap hpen
    (copyCanvas_eq hfits.width_le)
  refine ⟨_, hf, hpen, ⟨Overlay.coherent_empty hqueue hmap, fun q hq => ?_, fun x y hx hy => ?_⟩,
    fun x y hx hy hno => ?_, hdisplays, hmargin⟩
  · exact absurd hq (by rw [hqueue]; exact Nat.not_lt_zero q)
  · rw [Overlay.view_of_none (hmap _)]
    exact hgrid x y hx hy
  · have hat : ¬ AtCursor ctx t.toPen x y := fun hat => hno
      ⟨hat.2.1.trans ((congrArg Pen.cursorX hpen).symm.trans hold.1.symm),
        hat.2.2.trans ((congrArg Pen.cursorY hpen).symm.trans hold.2.symm)⟩
    exact (if_neg hat).trans (hgrid x y hx hy).symm

end Refresh

/-! ### The start -/

/-- What `flanterm_fb_init` relies on: a font that is eight dots wide at least, a framebuffer with
room for one cell inside of the margin, and lines that are not longer than the pitch. -/
structure FbInit.Ready (builtin : Nat → BitVec 8) (a : FbInit) : Prop where
  font : 8 ≤ (a.fontOf builtin).width
  glyphWidth_pos : 0 < (a.fontOf builtin).dots * a.fontScaleX
  glyphHeight_pos : 0 < (a.fontOf builtin).height * a.fontScaleY
  columns : a.margin * 2 + (a.fontOf builtin).dots * a.fontScaleX ≤ a.width
  lines : a.margin * 2 + (a.fontOf builtin).height * a.fontScaleY ≤ a.height
  width_le : a.width ≤ a.pitch / 4
  width_lt : a.width < 18446744073709551616
  height_lt : a.height < 18446744073709551616

/-- The screen is blank, and the cursor is in its corner. -/
def blankScreen (cfg : FbConfig) : Screen where
  textFg := cfg.defaultFg
  textBg := 0xffffffff
  cursorX := 0
  cursorY := 0
  savedStateTextFg := 0
  savedStateTextBg := 0
  savedStateCursorX := 0
  savedStateCursorY := 0
  cells := fun _ _ => .ofByte 0x20 cfg.defaultFg 0xffffffff
  shown := fun _ _ => .ofByte 0x20 cfg.defaultFg 0xffffffff

/-- The terminal on a screen that is blank. -/
def blankTerminal (cfg : FbConfig) (rows cols : Nat) : Terminal Screen :=
  let ctx := flantermContextReinit (zeroContext rows cols)
  ⟨ctx, (blankScreen cfg).flush ctx⟩

section Start

variable {builtin : Nat → BitVec 8} {bools : Nat → Bool} {a : FbInit}

/-- The columns, or the lines, are in the middle of the framebuffer. -/
theorem centred_le {size margin glyph : Nat} (h : margin * 2 + glyph ≤ size)
    (hlt : size < 18446744073709551616) :
    margin + sub64 size (margin * 2) % glyph / 2 + sub64 size (margin * 2) / glyph * glyph ≤ size ∧
      sub64 size (margin * 2) = size - margin * 2 := by
  have hsub : sub64 size (margin * 2) = size - margin * 2 := by
    unfold sub64
    omega
  have hdiv := Nat.div_add_mod' (size - margin * 2) glyph
  rw [hsub]
  omega

/-- There is room for one of them. -/
theorem cells_pos {size margin glyph : Nat} (hpos : 0 < glyph) (h : margin * 2 + glyph ≤ size)
    (hlt : size < 18446744073709551616) :
    0 < sub64 size (margin * 2) / glyph ∧
      sub64 size (margin * 2) / glyph < 18446744073709551616 := by
  have hle := Nat.div_le_self (size - margin * 2) glyph
  rw [(centred_le h hlt).2]
  exact ⟨Nat.div_pos (by omega) hpos, by omega⟩

/-- The font of `flanterm_fb_simple_init` is ready on every framebuffer with room for one cell. -/
theorem ready_simpleInit {framebuffer : Nat → BitVec 32} {width height pitch : Nat}
    (hcol : 9 ≤ width) (hline : 16 ≤ height) (hpitch : width ≤ pitch / 4)
    (hwidth : width < 18446744073709551616) (hheight : height < 18446744073709551616) :
    (simpleInit framebuffer width height pitch).Ready builtin :=
  ⟨Nat.le_refl 8, Nat.succ_pos 8, Nat.succ_pos 15, (Nat.zero_add 9).le.trans hcol,
    (Nat.zero_add 16).le.trans hline, hpitch, hwidth, hheight⟩

/-- **The start**: the terminal shows a blank screen. -/
theorem flantermFbInit_yields (h : a.Ready builtin) (bools : Nat → Bool) :
    Yields (fun r =>
        r.1.Fits r.2.ctx.rows r.2.ctx.cols ∧
        Agree r.1 (r.1.backdrop a.framebuffer) r.2.ctx.rows r.2.ctx.cols r.2
          (blankTerminal r.1 r.2.ctx.rows r.2.ctx.cols) ∧
        ∀ c fy fx, fy < (a.fontOf builtin).height → fx < (a.fontOf builtin).dots →
          r.1.glyph c fy fx = (a.fontOf builtin).dot c.c.toNat fy fx)
      (flantermFbInit builtin bools a) := by
  refine (fontBool_yields h.font bools).bind fun bools hbools => ?_
  obtain ⟨hcpos, hclt⟩ := cells_pos h.glyphWidth_pos h.columns h.width_lt
  obtain ⟨hrpos, hrlt⟩ := cells_pos h.glyphHeight_pos h.lines h.height_lt
  have hwidth := h.glyphWidth_pos
  have hheight := h.glyphHeight_pos
  have hglyph : ¬ ((a.config (a.fontOf builtin) bools).glyphWidth = 0 ∨
      (a.config (a.fontOf builtin) bools).glyphHeight = 0) := by
    dsimp only [FbInit.config]
    omega
  have hfits : (a.config (a.fontOf builtin) bools).Fits
      (sub64 a.height (a.margin * 2) / ((a.fontOf builtin).height * a.fontScaleY))
      (sub64 a.width (a.margin * 2) / ((a.fontOf builtin).dots * a.fontScaleX)) :=
    ⟨rfl, rfl, (centred_le h.columns h.width_lt).1, (centred_le h.lines h.height_lt).1, h.width_le⟩
  rw [if_neg hglyph]
  refine (fullRefresh_yields (s := a.blank _) (t := blankScreen _) hfits hcpos
    (fun _ _ _ _ => rfl) (fun _ => rfl) rfl rfl ⟨rfl, rfl⟩).bind fun s hs =>
      yields_some ⟨hfits, ⟨rfl, ?_, hs⟩, fun c fy fx hfy hfx => hbools _ fy fx c.c_lt hfy hfx⟩
  exact ok_reinit rfl rfl hrpos hcpos hrlt hclt Nat.zero_lt_two (colour_some (by decide))
    (colour_some (by decide))

end Start

end FrazzOS.Flanterm

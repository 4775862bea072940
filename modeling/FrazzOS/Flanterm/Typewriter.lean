import FrazzOS.Flanterm.Show
import FrazzOS.Flanterm.Text
import Mathlib.Data.List.GetD

/-!
# Flanterm — Typewriter

Glyphs on a blank screen, without margins: they fill its rows, and at the end of the last one the
screen goes up.

`flanterm_fb_raw_putchar` has the number of the columns for that of the rows, in the bound for the
row of the cursor.

* `typed_rawPutchar`: one glyph more; `typed_putGlyphs`: the text stands in its rows, as long as no
  row has the number of the columns.
* `typed_iff`: so it does for every text exactly on a screen that is not higher than it is wide.
* `text_shows`: what a text in UTF-8 looks like on the framebuffer.
-/

namespace FrazzOS.Flanterm

open Faults Utf8

/-- A context without margins. -/
structure Plain (ctx : Context) : Prop where
  top : ctx.scrollTopMargin = 0
  bottom : ctx.scrollBottomMargin = ctx.rows
  scrollEnabled : ctx.scrollEnabled = true
  rows_pos : 0 < ctx.rows
  cols_pos : 0 < ctx.cols

/-- The line of the last one of `n` glyphs. -/
def lastLine (cols n : Nat) : Nat := (n - 1) / cols

/-- The lines that have left the screen. -/
def linesAbove (rows cols n : Nat) : Nat := lastLine cols n + 1 - rows

/-- The glyphs `gs` stand in the rows of the screen, `above` of their lines have left it, and the
cursor is behind the last one, in the line `line`. -/
structure Stands (ctx : Context) (fg bg : BitVec 32) (gs : List (BitVec 8)) (line above : Nat)
    (s : Screen) : Prop where
  textFg : s.textFg = fg
  textBg : s.textBg = bg
  cursorX : s.cursorX + line * ctx.cols = gs.length
  cursorY : s.cursorY + above = line
  cells : ∀ x y, x < ctx.cols → y < ctx.rows →
    s.cells x y = .ofByte (gs.getD ((y + above) * ctx.cols + x) 0x20) fg bg

/-- The glyphs fill the rows, one after the other. -/
def Typed (ctx : Context) (fg bg : BitVec 32) (gs : List (BitVec 8)) : Screen → Prop :=
  Stands ctx fg bg gs (lastLine ctx.cols gs.length) (linesAbove ctx.rows ctx.cols gs.length)

section Lines

variable {cols n : Nat}

/-- The last glyph is in its line. -/
theorem lastLine_bounds (hpos : 0 < cols) (n : Nat) :
    lastLine cols n * cols ≤ n ∧ n ≤ lastLine cols n * cols + cols := by
  have hdiv := Nat.div_add_mod' (n - 1) cols
  have hmod := Nat.mod_lt (n - 1) hpos
  unfold lastLine
  omega

/-- Behind a line that is full the next one begins. -/
theorem lastLine_succ_of_full (hpos : 0 < cols) (hfull : n = lastLine cols n * cols + cols) :
    lastLine cols (n + 1) = lastLine cols n + 1 := by
  have heq : n = (lastLine cols n + 1) * cols := by rw [Nat.succ_mul, ← hfull]
  generalize lastLine cols n = line at heq
  subst heq
  exact Nat.mul_div_cancel _ hpos

/-- In a line with room the next glyph is in the same one. -/
theorem lastLine_succ_of_room (hpos : 0 < cols) (hroom : n < lastLine cols n * cols + cols) :
    lastLine cols (n + 1) = lastLine cols n :=
  Nat.div_eq_of_lt_le (lastLine_bounds hpos n).1 (by rwa [Nat.succ_mul])

/-- A square of glyphs. -/
theorem lastLine_square (hpos : 0 < cols) : lastLine cols (cols * cols) = cols - 1 := by
  have hend := (lastLine_bounds hpos (cols * cols)).2
  have hle : cols ≤ lastLine cols (cols * cols) + 1 :=
    Nat.le_of_mul_le_mul_right (by rwa [Nat.succ_mul]) hpos
  have hlt : lastLine cols (cols * cols) < cols :=
    Nat.div_lt_of_lt_mul (Nat.sub_one_lt_of_lt (Nat.mul_pos hpos hpos))
  omega

end Lines

section Rows

variable {ctx : Context} {fg bg : BitVec 32} {gs : List (BitVec 8)} {s : Screen} {g : BitVec 8}
  {line above : Nat}

theorem getD_concat (gs : List (BitVec 8)) (g d : BitVec 8) (i : Nat) :
    (gs ++ [g]).getD i d = if i = gs.length then g else gs.getD i d := by
  grind

/-- The cursor is in a cell: a glyph is put there. -/
theorem Stands.put (h : Stands ctx fg bg gs line above s) (hx : s.cursorX < ctx.cols) :
    Stands ctx fg bg (gs ++ [g]) line above
      { s with
        cells := s.cells.put (.ofByte g s.textFg s.textBg) s.cursorX s.cursorY
        cursorX := s.cursorX + 1 } := by
  have hlength := h.cursorX
  refine ⟨h.textFg, h.textBg, ?_, h.cursorY, fun x y hx' hy => ?_⟩
  · rw [List.length_append, List.length_singleton]
    dsimp only
    omega
  · have hplace : (y + above) * ctx.cols + x = gs.length ↔ x = s.cursorX ∧ y = s.cursorY := by
      rw [← hlength, ← h.cursorY, Nat.add_comm s.cursorX]
      constructor
      · intro heq
        obtain ⟨hline, hcol⟩ := mul_add_inj hx' hx heq
        exact ⟨hcol, Nat.add_right_cancel hline⟩
      · rintro ⟨rfl, rfl⟩
        rfl
    show s.cells.put _ s.cursorX s.cursorY x y = _
    rw [Cells.put, h.textFg, h.textBg, h.cells x y hx' hy, getD_concat]
    simp only [← hplace]
    split
    · rfl
    · rfl

/-- Behind the end of a line the cursor goes to the start of the next one, or the screen goes up. -/
theorem Stands.newLine (hctx : Plain ctx) (h : Stands ctx fg bg gs line above s)
    (hfull : gs.length = line * ctx.cols + ctx.cols) :
    Stands ctx fg bg gs (line + 1) (if s.cursorY + 1 = ctx.rows then above + 1 else above)
      (Screen.wrapLine ctx { s with cursorX := 0, cursorY := s.cursorY + 1 }) := by
  have hline := h.cursorY
  have hlength : 0 + (line + 1) * ctx.cols = gs.length := by
    rw [hfull, Nat.succ_mul, Nat.zero_add]
  rw [Screen.wrapLine, hctx.bottom]
  dsimp only
  split
  · rename_i hend
    refine ⟨h.textFg, h.textBg, hlength, ?_, fun x y hx hy => ?_⟩
    · show s.cursorY + 1 - 1 + (above + 1) = line + 1
      omega
    · show s.cells.up ctx.scrollTopMargin ctx.scrollBottomMargin s.empty x y = _
      rw [Cells.up, hctx.top, hctx.bottom, show y + (above + 1) = y + 1 + above by omega]
      split
      · -- the last line is blank, and no glyph is as far as that
        have hend' : y + 1 + above = line + 1 := by omega
        have hnone : gs.length ≤ (y + 1 + above) * ctx.cols + x := by
          rw [hend']
          omega
        rw [List.getD_eq_default _ _ hnone, Pen.empty, h.textFg, h.textBg]
      · rw [if_pos (by omega), h.cells x (y + 1) hx (by omega)]
  · rename_i hroom
    refine ⟨h.textFg, h.textBg, hlength, ?_, h.cells⟩
    show s.cursorY + 1 + above = line + 1
    omega

/-- **The cursor** goes to the next cell. -/
theorem Typed.nextLine (hctx : Plain ctx) (h : Typed ctx fg bg gs s)
    (hin : ctx.rows ≤ ctx.cols ∨ lastLine ctx.cols (gs.length + 1) < ctx.cols) :
    (s.nextLine ctx).cursorX < ctx.cols ∧
      Stands ctx fg bg gs (lastLine ctx.cols (gs.length + 1))
        (linesAbove ctx.rows ctx.cols (gs.length + 1)) (s.nextLine ctx) := by
  obtain ⟨hstart, hend⟩ := lastLine_bounds hctx.cols_pos gs.length
  have hcursorX := h.cursorX
  have hcursorY := h.cursorY
  have hrows := hctx.rows_pos
  have hy : s.cursorY < ctx.rows := by
    unfold linesAbove at hcursorY
    omega
  rw [Screen.nextLine]
  by_cases hx : s.cursorX ≥ ctx.cols
  · have hfull : gs.length = lastLine ctx.cols gs.length * ctx.cols + ctx.cols := by omega
    have hline := lastLine_succ_of_full hctx.cols_pos hfull
    have habove : linesAbove ctx.rows ctx.cols (gs.length + 1) =
        if s.cursorY + 1 = ctx.rows then linesAbove ctx.rows ctx.cols gs.length + 1
        else linesAbove ctx.rows ctx.cols gs.length := by
      unfold linesAbove at hcursorY ⊢
      split <;> omega
    have hnew := Stands.newLine hctx h hfull
    rw [← habove, ← hline] at hnew
    have hclamp : ∀ s' : Screen, s'.cursorY < ctx.cols →
        { s' with toPen := clampLine ctx s'.toPen } = s' := fun s' hlt => by
      rw [clampLine, if_neg (Nat.not_le.mpr hlt)]
    have hcol := hnew.cursorX
    have hrow := hnew.cursorY
    rw [if_pos ⟨hx, .inr hctx.scrollEnabled⟩, hclamp _ (by unfold linesAbove at hrow; omega)]
    refine ⟨?_, hnew⟩
    rw [hline, Nat.succ_mul] at hcol
    have hpos := hctx.cols_pos
    omega
  · rw [if_neg fun hfull => hx hfull.1, linesAbove,
      lastLine_succ_of_room hctx.cols_pos (by omega)]
    exact ⟨Nat.lt_of_not_le hx, h⟩

/-- **One glyph more.** -/
theorem typed_rawPutchar (hctx : Plain ctx) (h : Typed ctx fg bg gs s)
    (hin : ctx.rows ≤ ctx.cols ∨ lastLine ctx.cols (gs.length + 1) < ctx.cols) :
    Typed ctx fg bg (gs ++ [g]) (s.rawPutchar ctx g) := by
  obtain ⟨hx, hnext⟩ := Typed.nextLine hctx h hin
  rw [Typed, List.length_append, List.length_singleton]
  exact hnext.put hx

/-- **A text** stands in its rows. -/
theorem typed_putGlyphs (hctx : Plain ctx) (gs' : List (BitVec 8)) (h : Typed ctx fg bg gs s)
    (hin : ctx.rows ≤ ctx.cols ∨ lastLine ctx.cols (gs.length + gs'.length) < ctx.cols) :
    Typed ctx fg bg (gs ++ gs') (s.putGlyphs ctx gs') := by
  induction gs' generalizing gs s with
  | nil => rwa [List.append_nil]
  | cons g gs' ih =>
      rw [List.append_cons]
      have hmono : lastLine ctx.cols (gs.length + 1) ≤
          lastLine ctx.cols (gs.length + (g :: gs').length) :=
        Nat.div_le_div_right (by rw [List.length_cons]; omega)
      refine ih (typed_rawPutchar hctx h (hin.imp_right hmono.trans_lt)) ?_
      rwa [List.length_append, List.length_singleton, Nat.add_assoc, Nat.add_comm 1]

/-- Behind a line that is full the cursor is in no row from `cols` on. -/
theorem rawPutchar_cursorY_lt (hctx : Plain ctx) (hx : ctx.cols ≤ s.cursorX) (g : BitVec 8) :
    (s.rawPutchar ctx g).cursorY < ctx.cols := by
  have hpos := hctx.cols_pos
  have hclamp : ∀ p : Pen, (clampLine ctx p).cursorY < ctx.cols := fun p => by
    unfold clampLine
    split
    · exact Nat.sub_one_lt_of_lt hpos
    · exact Nat.lt_of_not_le ‹_›
  rw [Screen.rawPutchar, Screen.nextLine, if_pos ⟨hx, .inr hctx.scrollEnabled⟩]
  exact hclamp _

/-- **Every text stands in its rows** exactly on a screen that is not higher than it is wide. -/
theorem typed_iff (hctx : Plain ctx) (h : Typed ctx fg bg [] s) :
    (∀ gs, Typed ctx fg bg gs (s.putGlyphs ctx gs)) ↔ ctx.rows ≤ ctx.cols := by
  constructor
  · intro hall
    by_contra hhigh
    have hpos := hctx.cols_pos
    -- as many glyphs as fill the square, and the next one belongs into the row `cols`
    have hsquare := lastLine_square hpos
    have hnext : lastLine ctx.cols (ctx.cols * ctx.cols + 1) = ctx.cols := Nat.mul_div_cancel _ hpos
    have hfull := (hall (List.replicate (ctx.cols * ctx.cols) 0x20)).cursorX
    have hone := (hall (List.replicate (ctx.cols * ctx.cols) 0x20 ++ [0x20])).cursorY
    rw [List.length_replicate, hsquare] at hfull
    rw [List.length_append, List.length_replicate, List.length_singleton, linesAbove, hnext,
      putGlyphs_append] at hone
    have hx : ctx.cols ≤ (s.putGlyphs ctx (List.replicate (ctx.cols * ctx.cols) 0x20)).cursorX := by
      rw [Nat.sub_mul, Nat.one_mul] at hfull
      have hle := Nat.le_mul_of_pos_left ctx.cols hpos
      omega
    have hlt := rawPutchar_cursorY_lt hctx hx 0x20
    have hrow : (Screen.rawPutchar ctx 0x20
        (s.putGlyphs ctx (List.replicate (ctx.cols * ctx.cols) 0x20))).cursorY +
        (ctx.cols + 1 - ctx.rows) = ctx.cols := hone
    omega
  · exact fun hle gs => typed_putGlyphs hctx gs h (.inl hle)

end Rows

/-! ### On the framebuffer -/

/-- What is to be seen in a cell: the glyph that stands there or a blank, exchanged at the cursor,
which is behind the last one. -/
def typedCell (rows cols : Nat) (fg : BitVec 32) (gs : List (BitVec 8)) (x y : Nat) : FbChar :=
  let line := lastLine cols gs.length
  let above := linesAbove rows cols gs.length
  let c := FbChar.ofByte (gs.getD ((y + above) * cols + x) 0x20) fg 0xffffffff
  if x + line * cols = gs.length ∧ y + above = line then c.inverse else c

section Shown

variable {builtin : Nat → BitVec 8} {a : FbInit} {cfg : FbConfig} {rows cols : Nat}

theorem plain_blank (hrows : 0 < rows) (hcols : 0 < cols) : Plain (blankTerminal cfg rows cols).ctx :=
  ⟨rfl, rfl, rfl, hrows, hcols⟩

theorem ground_blank : Ground (blankTerminal cfg rows cols).ctx := ⟨rfl, rfl, rfl, rfl, rfl⟩

theorem typed_blank (hrows : 0 < rows) :
    Typed (blankTerminal cfg rows cols).ctx cfg.defaultFg 0xffffffff []
      (blankTerminal cfg rows cols).state := by
  have hline : lastLine cols 0 = 0 := Nat.zero_div cols
  have habove : linesAbove rows cols 0 = 0 := by
    rw [linesAbove, hline]
    omega
  refine ⟨rfl, rfl, ?_, ?_, fun _ _ _ _ => rfl⟩
  · show 0 + lastLine cols 0 * cols = 0
    rw [hline, Nat.zero_mul]
  · show 0 + linesAbove rows cols 0 = lastLine cols 0
    rw [habove, hline]

/-- What the pictures show of a text that stands in its rows. -/
theorem Typed.cell {ctx : Context} {fg : BitVec 32} {gs : List (BitVec 8)} {s : Screen} {x y : Nat}
    (h : Typed ctx fg 0xffffffff gs s) (henabled : ctx.cursorEnabled = true) (hx : x < ctx.cols)
    (hy : y < ctx.rows) :
    (if AtCursor ctx s.toPen x y then (s.cells x y).inverse else s.cells x y) =
      typedCell ctx.rows ctx.cols fg gs x y := by
  have hcursorX := h.cursorX
  have hcursorY := h.cursorY
  have hat : AtCursor ctx s.toPen x y ↔ x + lastLine ctx.cols gs.length * ctx.cols = gs.length ∧
      y + linesAbove ctx.rows ctx.cols gs.length = lastLine ctx.cols gs.length := by
    simp only [AtCursor, henabled, true_and]
    omega
  rw [h.cells x y hx hy, typedCell]
  simp only [hat]

/-- On two columns and three rows the cursor does not get to the last row. -/
theorem typed_iff_high :
    let cfg := (simpleInit (fun _ => 0) 18 48 72).config ⟨fun _ => 0, 8, 16, 1⟩ fun _ => false
    let u := blankTerminal cfg 3 2
    ¬ ∀ gs, Typed u.ctx cfg.defaultFg 0xffffffff gs (u.state.putGlyphs u.ctx gs) :=
  (typed_iff (plain_blank (by decide) (by decide)) (typed_blank (by decide))).not.mpr (by decide)

/-- **A text in UTF-8**, on the framebuffer. -/
theorem text_shows (h : a.Ready builtin) (bools : Nat → Bool) (beyond : Nat → BitVec 32)
    (text : List Char) (htext : ∀ c ∈ text, Printing c) :
    ∃ cfg t₀ t, flantermFbInit builtin bools a = some (cfg, t₀) ∧
      (fbBackend cfg).flantermWrite beyond t₀ (text.flatMap encode) = some t ∧
      (t₀.ctx.rows ≤ t₀.ctx.cols → ∀ x y gx gy, x < t₀.ctx.cols → y < t₀.ctx.rows →
        gx < cfg.glyphWidth → gy < cfg.glyphHeight →
        t.state.framebuffer (cfg.pixel x y gx gy) =
          cfg.render (typedCell t₀.ctx.rows t₀.ctx.cols cfg.defaultFg (text.flatMap glyphs) x y)
            x y gx gy) := by
  obtain ⟨⟨cfg, t₀⟩, hinit, hfits, hagree, -⟩ := flantermFbInit_yields h bools
  obtain ⟨u, hu, hflushed, t, ht, hshows⟩ := @flantermWrite_yields _ _ _ _ beyond _ _ hfits hagree
    (text.flatMap encode)
  refine ⟨cfg, t₀, t, hinit, ht, fun hle x y gx gy hx hy hgx hgy => ?_⟩
  obtain ⟨n, v, -, htyped⟩ := @putchar_chars cfg beyond
    (blankTerminal cfg t₀.ctx.rows t₀.ctx.cols) ground_blank text htext
  have hwrite := hu
  rw [Backend.flantermWrite, htyped] at hwrite
  obtain rfl := Option.some.inj hwrite
  have hstands := typed_putGlyphs (plain_blank hagree.ok.rows_pos hagree.ok.cols_pos)
    (text.flatMap glyphs) (@typed_blank cfg _ _ hagree.ok.rows_pos) (.inl hle)
  rw [(hshows.pictures hflushed).cells x y gx gy hx hy hgx hgy]
  have hcell := Typed.cell hstands rfl hx hy
  exact congrArg (fun c => cfg.render c x y gx gy) hcell

theorem text_shows_letters : ∃ cfg t₀ t,
    flantermFbInit (fun _ => 0) (fun _ => false) (simpleInit (fun _ => 0) 18 16 72) =
      some (cfg, t₀) ∧
    (fbBackend cfg).flantermWrite (fun _ => 0) t₀ (['A', 'é'].flatMap encode) = some t ∧
    (t₀.ctx.rows ≤ t₀.ctx.cols → ∀ x y gx gy, x < t₀.ctx.cols → y < t₀.ctx.rows →
      gx < cfg.glyphWidth → gy < cfg.glyphHeight →
      t.state.framebuffer (cfg.pixel x y gx gy) =
        cfg.render (typedCell t₀.ctx.rows t₀.ctx.cols cfg.defaultFg (['A', 'é'].flatMap glyphs) x y)
          x y gx gy) :=
  text_shows (ready_simpleInit (by decide) (by decide) (by decide) (by decide) (by decide))
    (fun _ => false) (fun _ => 0) ['A', 'é']
    (List.forall_mem_cons.mpr ⟨by decide, List.forall_mem_singleton.mpr (by decide)⟩)

end Shown

end FrazzOS.Flanterm

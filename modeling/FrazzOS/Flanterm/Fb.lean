import FrazzOS.Flanterm.Context
import FrazzOS.Support.Overlay

/-!
# Flanterm — Fb

The backend of `backends/fb.c`: a grid of characters on a framebuffer, behind a queue.

A character is not put into the grid but into the queue (`pushToQueue`), where `map` finds it;
`flantermFbDoubleBufferFlush` plots what is in the queue, and only then is it in the grid.  The
functions that read or write an array of the context at an index give `none` where the index is
outside of it and the code has not just made sure that it is not: the arrays are the grid, the queue
and `map`, the font and the canvas that a pixel is plotted from, and the framebuffer, which is never
read.
-/

namespace FrazzOS.Flanterm

/-- `struct flanterm_fb_char`. -/
structure FbChar where
  c : BitVec 32
  fg : BitVec 32
  bg : BitVec 32
  /-- What is stored is a byte: it has a glyph in the font. -/
  c_lt : c.toNat < 256
deriving DecidableEq

theorem byte_lt (c : BitVec 8) : (c.setWidth 32).toNat < 256 := by
  rw [BitVec.toNat_setWidth_of_le (by decide)]
  exact c.isLt

/-- A byte in two colours, as `flanterm_fb_raw_putchar` stores it. -/
def FbChar.ofByte (c : BitVec 8) (fg bg : BitVec 32) : FbChar := ⟨c.setWidth 32, fg, bg, byte_lt c⟩

/-- `struct flanterm_fb_queue_item`. -/
structure FbQueueItem where
  x : Nat
  y : Nat
  c : FbChar

/-- The fields of `struct flanterm_fb_context` for the colours and the cursor. -/
structure Pen where
  textFg : BitVec 32
  textBg : BitVec 32
  cursorX : Nat
  cursorY : Nat
  savedStateTextFg : BitVec 32
  savedStateTextBg : BitVec 32
  savedStateCursorX : Nat
  savedStateCursorY : Nat

/-- The fields of `struct flanterm_fb_context` that `flanterm_fb_init` sets and that nothing
changes afterwards. -/
structure FbConfig where
  fontWidth : Nat
  fontHeight : Nat
  glyphWidth : Nat
  glyphHeight : Nat
  fontScaleX : Nat
  fontScaleY : Nat
  offsetX : Nat
  offsetY : Nat
  pitch : Nat
  width : Nat
  height : Nat
  fontBool : Nat → Bool
  canvas : Nat → BitVec 32
  ansiColours : Vector (BitVec 32) 8
  ansiBrightColours : Vector (BitVec 32) 8
  defaultFg : BitVec 32
  defaultBg : BitVec 32
  defaultFgBright : BitVec 32
  defaultBgBright : BitVec 32

/-- `struct flanterm_fb_context`: the grid, the queue and `map` are those of the overlay, with a
place in the queue for a pointer into it. -/
structure FbContext extends Overlay FbChar FbQueueItem, Pen where
  oldCursorX : Nat
  oldCursorY : Nat
  framebuffer : Nat → BitVec 32

/-! ### The colours and the cursor -/

/-- `flanterm_fb_save_state`. -/
def flantermFbSaveState (p : Pen) : Pen :=
  { p with
    savedStateTextFg := p.textFg
    savedStateTextBg := p.textBg
    savedStateCursorX := p.cursorX
    savedStateCursorY := p.cursorY }

/-- `flanterm_fb_restore_state`. -/
def flantermFbRestoreState (p : Pen) : Pen :=
  { p with
    textFg := p.savedStateTextFg
    textBg := p.savedStateTextBg
    cursorX := p.savedStateCursorX
    cursorY := p.savedStateCursorY }

/-- `flanterm_fb_swap_palette`. -/
def flantermFbSwapPalette (p : Pen) : Pen :=
  { p with textFg := p.textBg, textBg := p.textFg }

/-- A coordinate that is not below `n`, in `flanterm_fb_set_cursor_pos`: `0` where it is negative as
an `int`, and the last one elsewhere. -/
def clampPos (x n : Nat) : Nat :=
  if x ≥ n then if x % 4294967296 ≥ 2147483648 then 0 else n - 1 else x

/-- `flanterm_fb_set_cursor_pos`. -/
def flantermFbSetCursorPos (ctx : Context) (x y : Nat) (p : Pen) : Pen :=
  { p with cursorX := clampPos x ctx.cols, cursorY := clampPos y ctx.rows }

/-- `flanterm_fb_get_cursor_pos`. -/
def flantermFbGetCursorPos (ctx : Context) (p : Pen) : Nat × Nat :=
  (if p.cursorX ≥ ctx.cols then ctx.cols - 1 else p.cursorX,
    if p.cursorY ≥ ctx.rows then ctx.rows - 1 else p.cursorY)

/-- `flanterm_fb_set_text_fg` and the other functions that set a colour: `text_fg` or `text_bg`
gets a colour of the palette, the one it is called with, or a default. -/
def setColour (cfg : FbConfig) : Call → Pen → Option Pen
  | .setTextFg fg, p => do return { p with textFg := ← cfg.ansiColours[fg]? }
  | .setTextBg bg, p => do return { p with textBg := ← cfg.ansiColours[bg]? }
  | .setTextFgBright fg, p => do return { p with textFg := ← cfg.ansiBrightColours[fg]? }
  | .setTextBgBright bg, p => do return { p with textBg := ← cfg.ansiBrightColours[bg]? }
  | .setTextFgRgb fg, p => some { p with textFg := fg }
  | .setTextBgRgb bg, p => some { p with textBg := bg }
  | .setTextFgDefault, p => some { p with textFg := cfg.defaultFg }
  | .setTextBgDefault, p => some { p with textBg := 0xffffffff }
  | .setTextFgDefaultBright, p => some { p with textFg := cfg.defaultFgBright }
  | .setTextBgDefaultBright, p => some { p with textBg := cfg.defaultBgBright }
  | _, p => some p

/-- The calls that concern the colours and the cursor only. -/
def penCall (cfg : FbConfig) (ctx : Context) : Call → Pen → Option Pen
  | .setCursorPos x y, p => some (flantermFbSetCursorPos ctx x y p)
  | .swapPalette, p => some (flantermFbSwapPalette p)
  | .saveState, p => some (flantermFbSaveState p)
  | .restoreState, p => some (flantermFbRestoreState p)
  | k, p => setColour cfg k p

/-- A blank in the colours of the pen: `empty` of the functions that clear a line. -/
def Pen.empty (p : Pen) : FbChar := .ofByte 0x20 p.textFg p.textBg

/-! ### The queue -/

/-- The index of the cell of an item of the queue. -/
def FbQueueItem.key (cols : Nat) (q : FbQueueItem) : Nat := q.y * cols + q.x

/-- `compare_char`. -/
def compareChar (a b : FbChar) : Bool := !(a.c != b.c || a.bg != b.bg || a.fg != b.fg)

/-- `push_to_queue`; the queue has as many places as the grid has cells. -/
def pushToQueue (ctx : Context) (c : FbChar) (x y : Nat) (s : FbContext) : Option FbContext :=
  if x ≥ ctx.cols ∨ y ≥ ctx.rows then some s
  else
    let i := y * ctx.cols + x
    match s.map i with
    | some q => some { s with toOverlay := s.amend q { s.queue q with c := c } }
    | none =>
      if compareChar (s.grid i) c then some s
      else if s.queueI < ctx.rows * ctx.cols then
        some { s with toOverlay := s.enqueue i ⟨x, y, c⟩ }
      else none

/-- The character of the cell `i`: in the queue where it is there, else in the grid. -/
def charAt (ctx : Context) (i : Nat) (s : FbContext) : Option FbChar :=
  if i < ctx.rows * ctx.cols then some (s.view FbQueueItem.c i) else none

/-- `flanterm_fb_revscroll`. -/
def flantermFbRevscroll (ctx : Context) (s : FbContext) : Option FbContext := do
  let lo := ctx.scrollTopMargin * ctx.cols
  let s ← (List.range' lo ((ctx.scrollBottomMargin - 1) * ctx.cols - lo)).reverse.foldlM
    (fun s i => do
      pushToQueue ctx (← charAt ctx i s) ((i + ctx.cols) % ctx.cols) ((i + ctx.cols) / ctx.cols) s) s
  -- the first line
  (List.range' 0 ctx.cols).foldlM (fun s i => pushToQueue ctx s.empty i ctx.scrollTopMargin s) s

/-- `flanterm_fb_scroll`. -/
def flantermFbScroll (ctx : Context) (s : FbContext) : Option FbContext := do
  let lo := (ctx.scrollTopMargin + 1) * ctx.cols
  let s ← (List.range' lo (ctx.scrollBottomMargin * ctx.cols - lo)).foldlM
    (fun s i => do
      pushToQueue ctx (← charAt ctx i s) ((i - ctx.cols) % ctx.cols) ((i - ctx.cols) / ctx.cols) s) s
  -- the last line
  (List.range' 0 ctx.cols).foldlM
    (fun s i => pushToQueue ctx s.empty i (sub64 ctx.scrollBottomMargin 1) s) s

/-- `flanterm_fb_clear`. -/
def flantermFbClear (ctx : Context) (move : Bool) (s : FbContext) : Option FbContext := do
  let s ← (List.range' 0 (ctx.rows * ctx.cols)).foldlM
    (fun s i => pushToQueue ctx s.empty (i % ctx.cols) (i / ctx.cols) s) s
  return if move then { s with cursorX := 0, cursorY := 0 } else s

/-- `flanterm_fb_move_character`. -/
def flantermFbMoveCharacter (ctx : Context) (newX newY oldX oldY : Nat) (s : FbContext) :
    Option FbContext := do
  if oldX ≥ ctx.cols ∨ oldY ≥ ctx.rows ∨ newX ≥ ctx.cols ∨ newY ≥ ctx.rows then some s
  else pushToQueue ctx (← charAt ctx (oldX + oldY * ctx.cols) s) newX newY s

/-- At the end of the region the lines go up. -/
def wrapLine (ctx : Context) (s : FbContext) : Option FbContext :=
  if s.cursorY = ctx.scrollBottomMargin then
    flantermFbScroll ctx { s with cursorY := s.cursorY - 1 }
  else some s

/-- `if (ctx->cursor_y >= _ctx->cols)`: it is the number of the columns that bounds the row. -/
def clampLine (ctx : Context) (p : Pen) : Pen :=
  if p.cursorY ≥ ctx.cols then { p with cursorY := ctx.cols - 1 } else p

/-- The first `if` of `flanterm_fb_raw_putchar`: behind the end of a line the cursor goes to the
next one. -/
def nextLine (ctx : Context) (s : FbContext) : Option FbContext :=
  if s.cursorX ≥ ctx.cols ∧
      (s.cursorY < sub64 ctx.scrollBottomMargin 1 ∨ ctx.scrollEnabled = true) then do
    let s ← wrapLine ctx { s with cursorX := 0, cursorY := s.cursorY + 1 }
    return { s with toPen := clampLine ctx s.toPen }
  else some s

/-- `flanterm_fb_raw_putchar`. -/
def flantermFbRawPutchar (ctx : Context) (c : BitVec 8) (s : FbContext) : Option FbContext := do
  let s ← nextLine ctx s
  let ch := FbChar.ofByte c s.textFg s.textBg
  let s ← pushToQueue ctx ch s.cursorX s.cursorY s
  return { s with cursorX := s.cursorX + 1 }

/-! ### The framebuffer -/

/-- `font_bool[i]`. -/
def FbConfig.dot (cfg : FbConfig) (i : Nat) : Option Bool :=
  if i < 256 * cfg.fontHeight * cfg.fontWidth then some (cfg.fontBool i) else none

/-- `canvas[i]`. -/
def FbConfig.canvasAt (cfg : FbConfig) (i : Nat) : Option (BitVec 32) :=
  if i < cfg.width * cfg.height then some (cfg.canvas i) else none

/-- `framebuffer[i] = colour`. -/
def FbConfig.store (cfg : FbConfig) (i : Nat) (colour : BitVec 32) (fb : Nat → BitVec 32) :
    Option (Nat → BitVec 32) :=
  if i < cfg.height * (cfg.pitch / 4) then some (Function.update fb i colour) else none

/-- `colour == 0xffffffff ? canvas[i] : colour`. -/
def FbConfig.colour (cfg : FbConfig) (colour : BitVec 32) (i : Nat) : Option (BitVec 32) :=
  if colour = 0xffffffff then cfg.canvasAt i else some colour

/-- The body of the innermost loops of `plot_char` and `plot_char_fast`. -/
def FbConfig.plotPixel (cfg : FbConfig) (draw : Bool) (c : FbChar) (fbLine canvasLine gx : Nat)
    (fb : Nat → BitVec 32) : Option (Nat → BitVec 32) := do
  let bg ← cfg.colour c.bg (canvasLine + gx)
  let fg ← cfg.colour c.fg (canvasLine + gx)
  cfg.store (fbLine + gx) (if draw then fg else bg) fb

/-- `plot_char`. -/
def plotChar (cfg : FbConfig) (ctx : Context) (c : FbChar) (x y : Nat) (fb : Nat → BitVec 32) :
    Option (Nat → BitVec 32) :=
  if x ≥ ctx.cols ∨ y ≥ ctx.rows then some fb
  else
    let x := cfg.offsetX + x * cfg.glyphWidth
    let y := cfg.offsetY + y * cfg.glyphHeight
    let glyph := c.c.toNat * cfg.fontHeight * cfg.fontWidth
    (List.range' 0 cfg.glyphHeight).foldlM (fun fb gy =>
      let fy := gy / cfg.fontScaleY % 256
      let fbLine := x + (y + gy) * (cfg.pitch / 4)
      let canvasLine := x + (y + gy) * cfg.width
      (List.range' 0 cfg.fontWidth).foldlM (fun fb fx => do
        let draw ← cfg.dot (glyph + fy * cfg.fontWidth + fx)
        (List.range' 0 cfg.fontScaleX).foldlM (fun fb i =>
          cfg.plotPixel draw c fbLine canvasLine (cfg.fontScaleX * fx + i) fb) fb) fb) fb

/-- `plot_char_fast`: only where the glyph of `c` is not that of `old`. -/
def plotCharFast (cfg : FbConfig) (ctx : Context) (old c : FbChar) (x y : Nat)
    (fb : Nat → BitVec 32) : Option (Nat → BitVec 32) :=
  if x ≥ ctx.cols ∨ y ≥ ctx.rows then some fb
  else
    let x := cfg.offsetX + x * cfg.glyphWidth
    let y := cfg.offsetY + y * cfg.glyphHeight
    let newGlyph := c.c.toNat * cfg.fontHeight * cfg.fontWidth
    let oldGlyph := old.c.toNat * cfg.fontHeight * cfg.fontWidth
    (List.range' 0 cfg.glyphHeight).foldlM (fun fb gy =>
      let fy := gy / cfg.fontScaleY % 256
      let fbLine := x + (y + gy) * (cfg.pitch / 4)
      let canvasLine := x + (y + gy) * cfg.width
      (List.range' 0 cfg.fontWidth).foldlM (fun fb fx => do
        let oldDraw ← cfg.dot (oldGlyph + fy * cfg.fontWidth + fx)
        let newDraw ← cfg.dot (newGlyph + fy * cfg.fontWidth + fx)
        if oldDraw = newDraw then some fb
        else
          (List.range' 0 cfg.fontScaleX).foldlM (fun fb i =>
            cfg.plotPixel newDraw c fbLine canvasLine (cfg.fontScaleX * fx + i) fb) fb) fb) fb

/-- The character with its colours exchanged. -/
def FbChar.inverse (c : FbChar) : FbChar := { c with fg := c.bg, bg := c.fg }

/-- `draw_cursor`. -/
def drawCursor (cfg : FbConfig) (ctx : Context) (s : FbContext) : Option FbContext :=
  if s.cursorX ≥ ctx.cols ∨ s.cursorY ≥ ctx.rows then some s
  else do
    let i := s.cursorX + s.cursorY * ctx.cols
    let c := (← charAt ctx i s).inverse
    let fb ← plotChar cfg ctx c s.cursorX s.cursorY s.framebuffer
    let s := { s with framebuffer := fb }
    match s.map i with
    | some q =>
      return { s with
        grid := Function.update s.grid i (s.queue q).c
        map := Function.update s.map i none }
    | none => return s

/-- `if (_ctx->cursor_enabled) draw_cursor(_ctx);`. -/
def showCursor (cfg : FbConfig) (ctx : Context) (s : FbContext) : Option FbContext :=
  if ctx.cursorEnabled = true then drawCursor cfg ctx s else some s

/-- The round of the loop of `flanterm_fb_double_buffer_flush` for the place `i` of the queue. -/
def flushItem (cfg : FbConfig) (ctx : Context) (s : FbContext) (i : Nat) : Option FbContext :=
  let q := s.queue i
  let offset := q.y * ctx.cols + q.x
  if ctx.rows * ctx.cols ≤ i ∨ ctx.rows * ctx.cols ≤ offset then none
  else if s.map offset = none then some s
  else
    let old := s.grid offset
    let plotted :=
      if q.c.bg = old.bg ∧ q.c.fg = old.fg then plotCharFast cfg ctx old q.c q.x q.y s.framebuffer
      else plotChar cfg ctx q.c q.x q.y s.framebuffer
    plotted.map fun fb =>
      { s with
        framebuffer := fb
        grid := Function.update s.grid offset q.c
        map := Function.update s.map offset none }

/-- The cell where the cursor was, at the end of `flanterm_fb_double_buffer_flush`. -/
def hideCursor (cfg : FbConfig) (ctx : Context) (s : FbContext) : Option FbContext :=
  if (s.oldCursorX ≠ s.cursorX ∨ s.oldCursorY ≠ s.cursorY ∨ ctx.cursorEnabled = false) ∧
      s.oldCursorX < ctx.cols ∧ s.oldCursorY < ctx.rows then
    (plotChar cfg ctx (s.grid (s.oldCursorX + s.oldCursorY * ctx.cols)) s.oldCursorX s.oldCursorY
      s.framebuffer).map fun fb => { s with framebuffer := fb }
  else some s

/-- `flanterm_fb_double_buffer_flush`. -/
def flantermFbDoubleBufferFlush (cfg : FbConfig) (ctx : Context) (s : FbContext) :
    Option FbContext := do
  let s ← showCursor cfg ctx s
  let s ← (List.range' 0 s.queueI).foldlM (flushItem cfg ctx) s
  let s ← hideCursor cfg ctx s
  return { s with oldCursorX := s.cursorX, oldCursorY := s.cursorY, queueI := 0 }

/-- The canvas, in `flanterm_fb_full_refresh`. -/
def copyCanvas (cfg : FbConfig) (fb : Nat → BitVec 32) : Option (Nat → BitVec 32) :=
  (List.range' 0 cfg.height).foldlM (fun fb y =>
    (List.range' 0 cfg.width).foldlM (fun fb x => do
      cfg.store (y * (cfg.pitch / 4) + x) (← cfg.canvasAt (y * cfg.width + x)) fb) fb) fb

/-- `flanterm_fb_full_refresh`. -/
def flantermFbFullRefresh (cfg : FbConfig) (ctx : Context) (s : FbContext) : Option FbContext := do
  let fb ← copyCanvas cfg s.framebuffer
  let fb ← (List.range' 0 (ctx.rows * ctx.cols)).foldlM (fun fb i =>
    plotChar cfg ctx (s.grid i) (i % ctx.cols) (i / ctx.cols) fb) fb
  showCursor cfg ctx { s with framebuffer := fb }

/-- A call of the context, to this backend. -/
def fbCall (cfg : FbConfig) (ctx : Context) : Call → FbContext → Option FbContext
  | .rawPutchar c, s => flantermFbRawPutchar ctx c s
  | .clear move, s => flantermFbClear ctx move s
  | .moveCharacter newX newY oldX oldY, s => flantermFbMoveCharacter ctx newX newY oldX oldY s
  | .scroll, s => flantermFbScroll ctx s
  | .revscroll, s => flantermFbRevscroll ctx s
  | .doubleBufferFlush, s => flantermFbDoubleBufferFlush cfg ctx s
  | k, s => do return { s with toPen := ← penCall cfg ctx k s.toPen }

end FrazzOS.Flanterm

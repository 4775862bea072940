import Mathlib.Tactic.Common

/-!
# Flanterm — Context

The state of the terminal of `flanterm.c`, `struct flanterm_context`, and its calls to a backend.

A `size_t` is a natural number, below `2⁶⁴`.  `current_primary` and `current_bg` are `none` for
`(size_t)-1`.  The function pointers of the context are not fields of it: a call through one of them
is a `Call`.

* `Ok`: what holds of a context between two bytes; `ok_reinit`: it holds after
  `flanterm_context_reinit`.
* `Frame`: what the backend relies on, at every call; `Call.Legal`: and of the arguments.
-/

namespace FrazzOS.Flanterm

/-- `CHARSET_DEFAULT` and `CHARSET_DEC_SPECIAL`. -/
inductive Charset where
  | default
  | decSpecial
deriving DecidableEq

/-- `struct flanterm_context`, without its function pointers; `callback` says if that one is set. -/
structure Context where
  tabSize : Nat
  autoflush : Bool
  cursorEnabled : Bool
  scrollEnabled : Bool
  controlSequence : Bool
  csi : Bool
  escape : Bool
  osc : Bool
  oscEscape : Bool
  rrr : Bool
  discardNext : Bool
  bold : Bool
  bgBold : Bool
  reverseVideo : Bool
  decPrivate : Bool
  insertMode : Bool
  codePoint : Nat
  unicodeRemaining : Nat
  gSelect : Nat
  charsets : Vector Charset 2
  currentCharset : Nat
  escapeOffset : Nat
  escValuesI : Nat
  savedCursorX : Nat
  savedCursorY : Nat
  currentPrimary : Option Nat
  currentBg : Option Nat
  scrollTopMargin : Nat
  scrollBottomMargin : Nat
  escValues : Vector (BitVec 32) 16
  oobOutput : BitVec 64
  savedStateBold : Bool
  savedStateBgBold : Bool
  savedStateReverseVideo : Bool
  savedStateCurrentCharset : Nat
  savedStateCurrentPrimary : Option Nat
  savedStateCurrentBg : Option Nat
  rows : Nat
  cols : Nat
  callback : Bool

/-- What the callback of the client is told: the `FLANTERM_CB_…` it is called with, and the values
that come with it. -/
inductive Report where
  | dec (escValues : List (BitVec 32)) (c : BitVec 8)
  | bell
  | privateId
  | statusReport
  | posReport (x y : Nat)
  | kbdLeds (leds : BitVec 32)
  | mode (escValues : List (BitVec 32)) (c : BitVec 8)
  | linux (escValues : List (BitVec 32))

/-- A call through a function pointer of the context. -/
inductive Call where
  | rawPutchar (c : BitVec 8)
  | clear (move : Bool)
  | setCursorPos (x y : Nat)
  | setTextFg (fg : Nat)
  | setTextBg (bg : Nat)
  | setTextFgBright (fg : Nat)
  | setTextBgBright (bg : Nat)
  | setTextFgRgb (fg : BitVec 32)
  | setTextBgRgb (bg : BitVec 32)
  | setTextFgDefault
  | setTextBgDefault
  | setTextFgDefaultBright
  | setTextBgDefaultBright
  | moveCharacter (newX newY oldX oldY : Nat)
  | scroll
  | revscroll
  | swapPalette
  | saveState
  | restoreState
  | doubleBufferFlush
  | callback (report : Report)

/-- `a - b` in 64 bits. -/
def sub64 (a b : Nat) : Nat := (a + 18446744073709551616 - b) % 18446744073709551616

/-- `flanterm_context_reinit`. -/
def flantermContextReinit (ctx : Context) : Context :=
  { ctx with
    tabSize := 8
    autoflush := true
    cursorEnabled := true
    scrollEnabled := true
    controlSequence := false
    csi := false
    escape := false
    osc := false
    oscEscape := false
    rrr := false
    discardNext := false
    bold := false
    bgBold := false
    reverseVideo := false
    decPrivate := false
    insertMode := false
    unicodeRemaining := 0
    gSelect := 0
    charsets := #v[.default, .decSpecial]
    currentCharset := 0
    escapeOffset := 0
    escValuesI := 0
    savedCursorX := 0
    savedCursorY := 0
    currentPrimary := none
    currentBg := none
    scrollTopMargin := 0
    scrollBottomMargin := ctx.rows
    oobOutput := 16 }

/-- What the backend relies on: there is a screen, and the margins are on it. -/
structure Context.Frame (rows cols : Nat) (ctx : Context) : Prop where
  rows_eq : ctx.rows = rows
  cols_eq : ctx.cols = cols
  rows_pos : 0 < rows
  cols_pos : 0 < cols
  rows_lt : rows < 18446744073709551616
  cols_lt : cols < 18446744073709551616
  top_lt : ctx.scrollTopMargin < rows
  bottom_pos : 0 < ctx.scrollBottomMargin
  bottom_le : ctx.scrollBottomMargin ≤ rows

/-- The index of a colour, where there is one, is that of one of the eight. -/
def Colour (c : Option Nat) : Prop := ∀ n, c = some n → n < 8

/-- What holds of a context between two bytes. -/
structure Context.Ok (rows cols : Nat) (ctx : Context) : Prop extends Context.Frame rows cols ctx where
  margins_lt : ctx.scrollTopMargin < ctx.scrollBottomMargin
  escValuesI_le : ctx.escValuesI ≤ 16
  /-- A value that is being read has a place. -/
  rrr_lt : ctx.rrr = true → ctx.escValuesI < 16
  gSelect_le : ctx.gSelect ≤ 2
  charset_lt : ctx.currentCharset < 2
  savedCharset_lt : ctx.savedStateCurrentCharset < 2
  primary : Colour ctx.currentPrimary
  bg : Colour ctx.currentBg
  savedPrimary : Colour ctx.savedStateCurrentPrimary
  savedBg : Colour ctx.savedStateCurrentBg
  tabSize_pos : 0 < ctx.tabSize
  autoflush : ctx.autoflush = true
  remaining_le : ctx.unicodeRemaining ≤ 3

/-- A call names one of the eight colours, where it names one. -/
def Call.Legal : Call → Prop
  | .setTextFg c | .setTextBg c | .setTextFgBright c | .setTextBgBright c => c < 8
  | _ => True

theorem colour_none : Colour none := fun _ h => by cases h

theorem colour_some {n : Nat} (h : n < 8) : Colour (some n) := by
  rintro _ ⟨⟩
  exact h

theorem Context.Frame.sub64_bottom {rows cols : Nat} {ctx : Context} (h : ctx.Frame rows cols) :
    sub64 ctx.scrollBottomMargin 1 = ctx.scrollBottomMargin - 1 := by
  have hpos := h.bottom_pos
  have hle := h.bottom_le
  have hlt := h.rows_lt
  unfold sub64
  omega

/-- **A context that has been reset** is in order, where there is a screen and where what was saved
is. -/
theorem ok_reinit {rows cols : Nat} {ctx : Context} (hrows : ctx.rows = rows)
    (hcols : ctx.cols = cols) (hr : 0 < rows) (hc : 0 < cols)
    (hrlt : rows < 18446744073709551616) (hclt : cols < 18446744073709551616)
    (hcharset : ctx.savedStateCurrentCharset < 2) (hprimary : Colour ctx.savedStateCurrentPrimary)
    (hbg : Colour ctx.savedStateCurrentBg) : (flantermContextReinit ctx).Ok rows cols where
  rows_eq := hrows
  cols_eq := hcols
  rows_pos := hr
  cols_pos := hc
  rows_lt := hrlt
  cols_lt := hclt
  top_lt := hr
  bottom_pos := Nat.lt_of_lt_of_eq hr hrows.symm
  bottom_le := Nat.le_of_eq hrows
  margins_lt := Nat.lt_of_lt_of_eq hr hrows.symm
  escValuesI_le := Nat.zero_le 16
  rrr_lt h := by cases h
  gSelect_le := Nat.zero_le 2
  charset_lt := Nat.zero_lt_two
  savedCharset_lt := hcharset
  primary := colour_none
  bg := colour_none
  savedPrimary := hprimary
  savedBg := hbg
  tabSize_pos := Nat.zero_lt_succ 7
  autoflush := rfl
  remaining_le := Nat.zero_le 3

end FrazzOS.Flanterm

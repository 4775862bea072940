import FrazzOS.Flanterm.Sgr

/-!
# Flanterm — Control

The escape sequences: `escape_parse`, `control_sequence_parse` and what they call, in `flanterm.c`.

`(x, y)` is the cursor that `get_cursor_pos` gives before the first call for the byte.  A loop that
makes calls is the list of them (`Out.emitAll`).  An access to `esc_values` gives `none` where the
index is not below 16.

* `good_command`: a control sequence keeps the context in order and makes legal calls, whatever its
  values are.
* `good_controlSequenceParse`, `good_escapeParse`: so does every byte of an escape sequence, and none
  goes outside of `esc_values`.
-/

namespace FrazzOS.Flanterm

/-- A character of the source, as a byte. -/
def ch (c : Char) : BitVec 8 := BitVec.ofNat 8 c.toNat

/-- Calls, one after the other. -/
def Out.emitAll (ks : List Call) (o : Out) : Out :=
  { o with calls := o.calls ++ ks.map fun k => (o.ctx, k) }

/-- `if (ctx->callback != NULL) ctx->callback(…)`. -/
def Out.report (r : Report) (o : Out) : Out :=
  if o.ctx.callback then o.emit (.callback r) else o

/-- `esc_values[0]`. -/
def Context.esc0 (ctx : Context) : Nat := ctx.escValues[0].toNat

/-- `esc_values[1]`. -/
def Context.esc1 (ctx : Context) : Nat := ctx.escValues[1].toNat

/-- `ctx->esc_values[0] = v`. -/
def Out.setEsc0 (v : Nat) (o : Out) : Out :=
  { o with ctx.escValues := o.ctx.escValues.set 0 (BitVec.ofNat 32 v) }

/-- `ctx->esc_values[1] = v`. -/
def Out.setEsc1 (v : Nat) (o : Out) : Out :=
  { o with ctx.escValues := o.ctx.escValues.set 1 (BitVec.ofNat 32 v) }

/-- What the `switch` of `control_sequence_parse` makes of the byte that ends a control sequence.
The commands that differ only in the column that they start from have a flag for it. -/
inductive Command where
  | up (start : Bool)
  | down (start : Bool)
  | right
  | left
  | privateId
  | row
  | column
  | position
  | deleteLines
  | insertLines
  | report
  | leds
  | eraseDisplay
  | insertChars
  | deleteChars
  | eraseChars
  | sgr
  | saveCursor
  | restoreCursor
  | eraseLine
  | margins
  | mode
  | linux
  | none

/-- The labels of the `switch`. -/
def Command.ofByte (c : BitVec 8) : Command :=
  match Char.ofNat c.toNat with
  | 'F' => .up true
  | 'A' => .up false
  | 'E' => .down true
  | 'e' | 'B' => .down false
  | 'a' | 'C' => .right
  | 'D' => .left
  | 'c' => .privateId
  | 'd' => .row
  | 'G' | '`' => .column
  | 'H' | 'f' => .position
  | 'M' => .deleteLines
  | 'L' => .insertLines
  | 'n' => .report
  | 'q' => .leds
  | 'J' => .eraseDisplay
  | '@' => .insertChars
  | 'P' => .deleteChars
  | 'X' => .eraseChars
  | 'm' => .sgr
  | 's' => .saveCursor
  | 'u' => .restoreCursor
  | 'K' => .eraseLine
  | 'r' => .margins
  | 'l' | 'h' => .mode
  | ']' => .linux
  | _ => .none

/-! ### The commands -/

/-- `F` and `A`. -/
def cursorUp (x y : Nat) (o : Out) : Out :=
  let o := if o.ctx.esc0 > y then o.setEsc0 y else o
  let dest := y - o.ctx.esc0
  let top := o.ctx.scrollTopMargin
  let bottom := o.ctx.scrollBottomMargin
  let inRegion := (dest ≤ top ∧ top ≤ y) ∨ (dest ≤ bottom ∧ bottom ≤ y)
  o.emit (.setCursorPos x (if inRegion ∧ dest < top then top else dest))

/-- `E`, `e` and `B`. -/
def cursorDown (x y : Nat) (o : Out) : Out :=
  let o := if y + o.ctx.esc0 > o.ctx.rows - 1 then o.setEsc0 (o.ctx.rows - 1 - y) else o
  let dest := y + o.ctx.esc0
  let top := o.ctx.scrollTopMargin
  let bottom := o.ctx.scrollBottomMargin
  let inRegion := (y ≤ top ∧ top ≤ dest) ∨ (y ≤ bottom ∧ bottom ≤ dest)
  o.emit (.setCursorPos x (if inRegion ∧ bottom ≤ dest then sub64 bottom 1 else dest))

/-- `a` and `C`. -/
def cursorRight (x y : Nat) (o : Out) : Out :=
  let o := if x + o.ctx.esc0 > o.ctx.cols - 1 then o.setEsc0 (o.ctx.cols - 1 - x) else o
  o.emit (.setCursorPos (x + o.ctx.esc0) y)

/-- `D`. -/
def cursorLeft (x y : Nat) (o : Out) : Out :=
  let o := if o.ctx.esc0 > x then o.setEsc0 x else o
  o.emit (.setCursorPos (x - o.ctx.esc0) y)

/-- `ctx->esc_values[0] -= 1`, and not beyond the last one of `n`: of `d` and of `G`. -/
def oneBased (n : Nat) (o : Out) : Out :=
  let o := { o with ctx.escValues := o.ctx.escValues.set 0 (o.ctx.escValues[0] - 1) }
  if o.ctx.esc0 ≥ n then o.setEsc0 (n - 1) else o

/-- `H` and `f`. -/
def cursorPosition (o : Out) : Out :=
  let o := if o.ctx.esc0 ≠ 0 then o.setEsc0 (o.ctx.esc0 - 1) else o
  let o := if o.ctx.esc1 ≠ 0 then o.setEsc1 (o.ctx.esc1 - 1) else o
  let o := if o.ctx.esc1 ≥ o.ctx.cols then o.setEsc1 (o.ctx.cols - 1) else o
  let o := if o.ctx.esc0 ≥ o.ctx.rows then o.setEsc0 (o.ctx.rows - 1) else o
  o.emit (.setCursorPos o.ctx.esc1 o.ctx.esc0)

/-- `L`: the top margin is the row of the cursor meanwhile. -/
def insertLines (y : Nat) (o : Out) : Out :=
  let top := o.ctx.scrollTopMargin
  let o := { o with ctx.scrollTopMargin := y }
  let o := o.emitAll (List.replicate o.ctx.esc0 .revscroll)
  { o with ctx.scrollTopMargin := top }

/-- `n`. -/
def reportStatus (x y : Nat) (o : Out) : Out :=
  if o.ctx.esc0 = 5 then o.report .statusReport
  else if o.ctx.esc0 = 6 then o.report (.posReport (x + 1) (y + 1))
  else o

/-- `raw_putchar(ctx, ' ')`, `n` times. -/
def blanks (n : Nat) : List Call := List.replicate n (.rawPutchar (ch ' '))

/-- `J`.  The loops of `1` end behind the blank for the cursor, where it is on the screen. -/
def eraseDisplay (x y : Nat) (o : Out) : Out :=
  let rows := o.ctx.rows
  let cols := o.ctx.cols
  if o.ctx.esc0 = 0 then
    let toClear := (rows - (y + 1)) * cols + (cols - (x + 1)) + 1
    o.emitAll (blanks toClear ++ [.setCursorPos x y])
  else if o.ctx.esc0 = 1 then
    if x < cols ∧ y < rows then
      o.emitAll (.setCursorPos 0 0 :: blanks (y * cols + x + 1) ++ [.setCursorPos x y])
    else o.emitAll (.setCursorPos 0 0 :: blanks (rows * cols))
  else if o.ctx.esc0 = 2 ∨ o.ctx.esc0 = 3 then o.emit (.clear false)
  else o

/-- `@`: from the last column to that of the cursor. -/
def insertChars (x y : Nat) (o : Out) : Out :=
  let n := o.ctx.esc0
  o.emitAll ((List.range' x (o.ctx.cols - x)).reverse.flatMap (fun i =>
    [.moveCharacter (i + n) y i y, .setCursorPos i y, .rawPutchar (ch ' ')]) ++ [.setCursorPos x y])

/-- `X`. -/
def eraseChars (x y : Nat) (o : Out) : Out :=
  o.emitAll (blanks o.ctx.esc0 ++ [.setCursorPos x y])

/-- `P`, which goes on as `X`. -/
def deleteChars (x y : Nat) (o : Out) : Out :=
  let n := o.ctx.esc0
  let o := o.emitAll ((List.range' (x + n) (o.ctx.cols - (x + n))).map fun i =>
    .moveCharacter (i - n) y i y)
  eraseChars x y (o.emit (.setCursorPos (sub64 o.ctx.cols n) y))

/-- `K`. -/
def eraseLine (x y : Nat) (o : Out) : Out :=
  let cols := o.ctx.cols
  if o.ctx.esc0 = 0 then o.emitAll (blanks (cols - x) ++ [.setCursorPos x y])
  else if o.ctx.esc0 = 1 then o.emitAll (.setCursorPos 0 y :: blanks x)
  else if o.ctx.esc0 = 2 then
    o.emitAll (.setCursorPos 0 y :: blanks cols ++ [.setCursorPos x y])
  else o

/-- `r`: a margin that is `0` is `1`. -/
def oneMargins (o : Out) : Out :=
  let o := if o.ctx.esc0 = 0 then o.setEsc0 1 else o
  if o.ctx.esc1 = 0 then o.setEsc1 1 else o

/-- `r`: the margins, or the whole screen where they are none. -/
def setMargins (o : Out) : Out :=
  let o := oneMargins o
  let top := if o.ctx.escValuesI > 0 then o.ctx.esc0 - 1 else 0
  let bottom := if o.ctx.escValuesI > 1 then o.ctx.esc1 else o.ctx.rows
  let o :=
    if top ≥ o.ctx.rows ∨ bottom > o.ctx.rows ∨ top ≥ sub64 bottom 1 then
      { o with ctx.scrollTopMargin := 0, ctx.scrollBottomMargin := o.ctx.rows }
    else { o with ctx.scrollTopMargin := top, ctx.scrollBottomMargin := bottom }
  o.emit (.setCursorPos 0 0)

/-- `mode_toggle`. -/
def modeToggle (c : BitVec 8) (o : Out) : Option Out := do
  if o.ctx.escValuesI = 0 ∨ (c ≠ ch 'h' ∧ c ≠ ch 'l') then some o
  else if o.ctx.esc0 = 4 then some { o with ctx.insertMode := c = ch 'h' }
  else return o.report (.mode (← o.ctx.params) c)

/-- `linux_private_parse`. -/
def linuxPrivateParse (o : Out) : Option Out := do
  if o.ctx.escValuesI = 0 then some o else return o.report (.linux (← o.ctx.params))

/-- `dec_private_parse`. -/
def decPrivateParse (c : BitVec 8) (o : Out) : Option Out := do
  let o := { o with ctx.decPrivate := false }
  if o.ctx.escValuesI = 0 ∨ (c ≠ ch 'h' ∧ c ≠ ch 'l') then some o
  else if o.ctx.esc0 = 25 then some { o with ctx.cursorEnabled := c = ch 'h' }
  else return o.report (.dec (← o.ctx.params) c)

/-- The `switch` of `control_sequence_parse`. -/
def command (beyond : Nat → BitVec 32) (x y : Nat) (c : BitVec 8) (o : Out) : Option Out :=
  match Command.ofByte c with
  | .up start => some (cursorUp (if start then 0 else x) y o)
  | .down start => some (cursorDown (if start then 0 else x) y o)
  | .right => some (cursorRight x y o)
  | .left => some (cursorLeft x y o)
  | .privateId => some (o.report .privateId)
  | .row =>
    let o := oneBased o.ctx.rows o
    some (o.emit (.setCursorPos x o.ctx.esc0))
  | .column =>
    let o := oneBased o.ctx.cols o
    some (o.emit (.setCursorPos o.ctx.esc0 y))
  | .position => some (cursorPosition o)
  | .deleteLines => some (o.emitAll (List.replicate o.ctx.esc0 .scroll))
  | .insertLines => some (insertLines y o)
  | .report => some (reportStatus x y o)
  | .leds => some (o.report (.kbdLeds o.ctx.escValues[0]))
  | .eraseDisplay => some (eraseDisplay x y o)
  | .insertChars => some (insertChars x y o)
  | .deleteChars => some (deleteChars x y o)
  | .eraseChars => some (eraseChars x y o)
  | .sgr => sgr beyond o
  | .saveCursor => some { o with ctx.savedCursorX := x, ctx.savedCursorY := y }
  | .restoreCursor => some (o.emit (.setCursorPos o.ctx.savedCursorX o.ctx.savedCursorY))
  | .eraseLine => some (eraseLine x y o)
  | .margins => some (setMargins o)
  | .mode => modeToggle c o
  | .linux => linuxPrivateParse o
  | .none => some o

/-! ### The bytes of a sequence -/

/-- The label `cleanup` of `control_sequence_parse`. -/
def endSequence (o : Out) : Out :=
  { o with ctx.controlSequence := false, ctx.escape := false }

/-- The values that have not been given are those of the default. -/
def fillDefaults (c : BitVec 8) (o : Out) : Out :=
  let escDefault : BitVec 32 := if c = ch 'J' ∨ c = ch 'K' ∨ c = ch 'q' then 0 else 1
  { o with ctx.escValues :=
      o.ctx.escValues.mapIdx fun i v => if i < o.ctx.escValuesI then v else escDefault }

/-- The end of `control_sequence_parse`, from `size_t esc_default` on. -/
def finishSequence (beyond : Nat → BitVec 32) (x y : Nat) (c : BitVec 8) (o : Out) : Option Out := do
  let o := fillDefaults c o
  if o.ctx.decPrivate then return endSequence (← decPrivateParse c o)
  else
    let r := o.ctx.scrollEnabled
    let o ← command beyond x y c { o with ctx.scrollEnabled := false }
    return endSequence { o with ctx.scrollEnabled := r }

/-- A digit: the value at `esc_values_i` gets one more. -/
def addDigit (c : BitVec 8) (o : Out) : Option Out :=
  if o.ctx.escValuesI = 16 then some o
  else if h : o.ctx.escValuesI < 16 then
    let v := o.ctx.escValues[o.ctx.escValuesI] * 10 + (c - ch '0').setWidth 32
    some { o with ctx.rrr := true, ctx.escValues := o.ctx.escValues.set o.ctx.escValuesI v }
  else none

/-- A `;` with no digit in front of it: the value is `0`. -/
def skipValue (o : Out) : Option Out :=
  if o.ctx.escValuesI = 16 then some o
  else if h : o.ctx.escValuesI < 16 then
    some { o with
      ctx.escValues := o.ctx.escValues.set o.ctx.escValuesI 0
      ctx.escValuesI := o.ctx.escValuesI + 1 }
  else none

/-- `control_sequence_parse`. -/
def controlSequenceParse (beyond : Nat → BitVec 32) (x y : Nat) (c : BitVec 8) (o : Out) :
    Option Out :=
  if o.ctx.escapeOffset = 2 ∧ c = ch '[' then some (endSequence { o with ctx.discardNext := true })
  else if o.ctx.escapeOffset = 2 ∧ c = ch '?' then some { o with ctx.decPrivate := true }
  else if ch '0' ≤ c ∧ c ≤ ch '9' then addDigit c o
  else if o.ctx.rrr then
    let o := { o with ctx.escValuesI := o.ctx.escValuesI + 1, ctx.rrr := false }
    if c = ch ';' then some o else finishSequence beyond x y c o
  else if c = ch ';' then skipValue o
  else finishSequence beyond x y c o

/-- `osc_parse`. -/
def oscParse (c : BitVec 8) (o : Out) : Out :=
  let cleanup := { o with ctx.oscEscape := false, ctx.osc := false, ctx.escape := false }
  if o.ctx.oscEscape ∧ c = ch '\\' then cleanup
  else if c = 0x07 then cleanup
  else { o with ctx.oscEscape := c = 0x1b }

/-- `restore_state`. -/
def restoreState (o : Out) : Out :=
  { o with
    ctx.bold := o.ctx.savedStateBold
    ctx.bgBold := o.ctx.savedStateBgBold
    ctx.reverseVideo := o.ctx.savedStateReverseVideo
    ctx.currentCharset := o.ctx.savedStateCurrentCharset
    ctx.currentPrimary := o.ctx.savedStateCurrentPrimary
    ctx.currentBg := o.ctx.savedStateCurrentBg }.emit .restoreState

/-- `save_state`. -/
def saveState (o : Out) : Out :=
  let o := o.emit .saveState
  { o with
    ctx.savedStateBold := o.ctx.bold
    ctx.savedStateBgBold := o.ctx.bgBold
    ctx.savedStateReverseVideo := o.ctx.reverseVideo
    ctx.savedStateCurrentCharset := o.ctx.currentCharset
    ctx.savedStateCurrentPrimary := o.ctx.currentPrimary
    ctx.savedStateCurrentBg := o.ctx.currentBg }

/-- The label `is_csi` of `escape_parse`. -/
def beginSequence (o : Out) : Out :=
  { o with
    ctx.escValues := Vector.replicate 16 0
    ctx.escValuesI := 0
    ctx.rrr := false
    ctx.controlSequence := true }

/-- The `switch` of `escape_parse`, but for `]` and `[`. -/
def escapeCommand (x y : Nat) (c : BitVec 8) (o : Out) : Out :=
  match Char.ofNat c.toNat with
  | '7' => saveState o
  | '8' => restoreState o
  | 'c' => Out.emit (.clear true) { o with ctx := flantermContextReinit o.ctx }
  | 'D' =>
    if y = sub64 o.ctx.scrollBottomMargin 1 then o.emitAll [.scroll, .setCursorPos x y]
    else o.emit (.setCursorPos x (y + 1))
  | 'E' =>
    if y = sub64 o.ctx.scrollBottomMargin 1 then o.emitAll [.scroll, .setCursorPos 0 y]
    else o.emit (.setCursorPos 0 (y + 1))
  | 'M' =>
    if y = o.ctx.scrollTopMargin then o.emitAll [.revscroll, .setCursorPos 0 y]
    else o.emit (.setCursorPos 0 (sub64 y 1))
  | 'Z' => o.report .privateId
  | '(' => { o with ctx.gSelect := 1 }
  | ')' => { o with ctx.gSelect := 2 }
  | _ => o

/-- `escape_parse`. -/
def escapeParse (beyond : Nat → BitVec 32) (x y : Nat) (c : BitVec 8) (o : Out) : Option Out :=
  let o := { o with ctx.escapeOffset := o.ctx.escapeOffset + 1 }
  if o.ctx.osc then some (oscParse c o)
  else if o.ctx.controlSequence then controlSequenceParse beyond x y c o
  else if o.ctx.csi then some (beginSequence { o with ctx.csi := false })
  else if c = ch ']' then some { o with ctx.oscEscape := false, ctx.osc := true }
  else if c = ch '[' then some (beginSequence o)
  else
    let o := escapeCommand x y c o
    some { o with ctx.escape := false }

/-! ### In order -/

section Good

variable {rows cols x y : Nat} {o : Out} {ks : List Call} {beyond : Nat → BitVec 32} {c : BitVec 8}

/-- The calls are made in a context that has a screen, and they are legal. -/
theorem calls_emitAll (h : ∀ p ∈ o.calls, p.1.Frame rows cols ∧ p.2.Legal)
    (hframe : o.ctx.Frame rows cols) (hks : ∀ k ∈ ks, k.Legal) :
    ∀ p ∈ (o.emitAll ks).calls, p.1.Frame rows cols ∧ p.2.Legal := by
  intro p hp
  rw [Out.emitAll, List.mem_append, List.mem_map] at hp
  rcases hp with hp | ⟨k, hk, rfl⟩
  · exact h p hp
  · exact ⟨hframe, hks k hk⟩

/-- **The rule for calls**, one after the other. -/
theorem Out.Good.emitAll (h : o.Good rows cols) (hks : ∀ k ∈ ks, k.Legal) :
    (o.emitAll ks).Good rows cols :=
  ⟨h.ok, calls_emitAll h.calls h.ok.toFrame hks⟩

theorem Out.Good.report (h : o.Good rows cols) (r : Report) : (o.report r).Good rows cols :=
  good_ite (fun _ => h.emit trivial) fun _ => h

theorem Out.Good.setEsc0 (h : o.Good rows cols) (v : Nat) : (o.setEsc0 v).Good rows cols :=
  h.withCtx { h.ok with }

theorem Out.Good.setEsc1 (h : o.Good rows cols) (v : Nat) : (o.setEsc1 v).Good rows cols :=
  h.withCtx { h.ok with }

theorem legal_blanks (n : Nat) : ∀ k ∈ blanks n, k.Legal := by
  intro k hk
  rw [List.eq_of_mem_replicate hk]
  trivial

/-- Blanks, and a place for the cursor behind them. -/
theorem legal_blanks_concat (n x y : Nat) : ∀ k ∈ blanks n ++ [.setCursorPos x y], k.Legal := by
  rw [List.forall_mem_append]
  exact ⟨legal_blanks n, List.forall_mem_singleton.mpr trivial⟩

theorem good_oneBased (h : o.Good rows cols) (n : Nat) : (oneBased n o).Good rows cols := by
  have hone : Out.Good rows cols
      { o with ctx.escValues := o.ctx.escValues.set 0 (o.ctx.escValues[0] - 1) } :=
    h.withCtx { h.ok with }
  exact good_ite (fun _ => hone.setEsc0 _) fun _ => hone

theorem good_cursorPosition (h : o.Good rows cols) : (cursorPosition o).Good rows cols := by
  unfold cursorPosition
  have hset : ∀ {o : Out} {c : Prop} [Decidable c] (v : Nat), o.Good rows cols →
      (if c then o.setEsc0 v else o).Good rows cols :=
    fun v h => good_ite (fun _ => h.setEsc0 v) fun _ => h
  have hset' : ∀ {o : Out} {c : Prop} [Decidable c] (v : Nat), o.Good rows cols →
      (if c then o.setEsc1 v else o).Good rows cols :=
    fun v h => good_ite (fun _ => h.setEsc1 v) fun _ => h
  exact Out.Good.emit (hset _ (hset' _ (hset' _ (hset _ h)))) trivial

/-- While the top margin is that of the cursor there still is a screen. -/
theorem good_insertLines (h : o.Good rows cols) (hy : y < rows) :
    (insertLines y o).Good rows cols := by
  refine ⟨{ h.ok with }, calls_emitAll h.calls ?_ fun k hk => ?_⟩
  · exact { h.ok.toFrame with top_lt := hy }
  · rw [List.eq_of_mem_replicate hk]
    trivial

theorem good_eraseDisplay (h : o.Good rows cols) : (eraseDisplay x y o).Good rows cols := by
  refine good_ite (fun _ => h.emitAll (legal_blanks_concat _ x y)) fun _ => ?_
  refine good_ite (fun _ => good_ite (fun _ => h.emitAll ?_) fun _ => h.emitAll ?_) fun _ => ?_
  · exact List.forall_mem_cons.mpr ⟨trivial, legal_blanks_concat _ x y⟩
  · exact List.forall_mem_cons.mpr ⟨trivial, legal_blanks _⟩
  · exact good_ite (fun _ => h.emit trivial) fun _ => h

theorem good_insertChars (h : o.Good rows cols) : (insertChars x y o).Good rows cols := by
  refine h.emitAll (List.forall_mem_append.mpr ⟨fun k hk => ?_, List.forall_mem_singleton.mpr trivial⟩)
  obtain ⟨i, -, hk⟩ := List.mem_flatMap.mp hk
  simp only [List.mem_cons, List.not_mem_nil, or_false] at hk
  rcases hk with rfl | rfl | rfl <;> trivial

theorem good_deleteChars (h : o.Good rows cols) : (deleteChars x y o).Good rows cols := by
  refine Out.Good.emitAll (Out.Good.emit (h.emitAll fun k hk => ?_) trivial)
    (legal_blanks_concat _ x y)
  obtain ⟨i, -, rfl⟩ := List.mem_map.mp hk
  trivial

theorem good_eraseLine (h : o.Good rows cols) : (eraseLine x y o).Good rows cols := by
  refine good_ite (fun _ => h.emitAll (legal_blanks_concat _ x y)) fun _ => ?_
  refine good_ite (fun _ => h.emitAll (List.forall_mem_cons.mpr ⟨trivial, legal_blanks _⟩))
    fun _ => ?_
  exact good_ite (fun _ => h.emitAll (List.forall_mem_cons.mpr
    ⟨trivial, legal_blanks_concat _ x y⟩)) fun _ => h

theorem good_oneMargins (h : o.Good rows cols) : (oneMargins o).Good rows cols := by
  have h₁ : (if o.ctx.esc0 = 0 then o.setEsc0 1 else o).Good rows cols :=
    good_ite (fun _ => h.setEsc0 1) fun _ => h
  exact good_ite (fun _ => h₁.setEsc1 1) fun _ => h₁

theorem oneMargins_esc1 (o : Out) : 0 < (oneMargins o).ctx.esc1 := by
  unfold oneMargins
  extract_lets o₁
  split
  · simp [Out.setEsc1, Context.esc1]
  · exact Nat.pos_of_ne_zero ‹_›

theorem good_margins (h : o.Good rows cols) {top bottom : Nat} (hbottom : 0 < bottom)
    (hlt : bottom < 18446744073709551616) :
    Out.Good rows cols
      (if top ≥ o.ctx.rows ∨ bottom > o.ctx.rows ∨ top ≥ sub64 bottom 1 then
        { o with ctx.scrollTopMargin := 0, ctx.scrollBottomMargin := o.ctx.rows }
      else { o with ctx.scrollTopMargin := top, ctx.scrollBottomMargin := bottom }) := by
  have hrows := h.ok.rows_eq
  have hpos := h.ok.rows_pos
  refine good_ite (fun _ => h.withCtx ?_) fun hin => h.withCtx ?_
  · exact { h.ok with
      top_lt := hpos
      bottom_pos := hrows ▸ hpos
      bottom_le := Nat.le_of_eq hrows
      margins_lt := hrows ▸ hpos }
  · have hsub : sub64 bottom 1 = bottom - 1 := by
      unfold sub64
      omega
    rw [hsub, hrows] at hin
    refine { h.ok with top_lt := ?_, bottom_pos := hbottom, bottom_le := ?_, margins_lt := ?_ }
    · show top < rows
      omega
    · show bottom ≤ rows
      omega
    · show top < bottom
      omega

/-- **The margins** are a region of two lines at least, or the whole screen. -/
theorem good_setMargins (h : o.Good rows cols) : (setMargins o).Good rows cols := by
  have h₁ := good_oneMargins h
  have hpos := oneMargins_esc1 o
  have hrows := h₁.ok.rows_eq
  have hrpos := h₁.ok.rows_pos
  have hrlt := h₁.ok.rows_lt
  have hesc : (oneMargins o).ctx.esc1 < 2 ^ 32 := BitVec.isLt _
  refine Out.Good.emit (good_margins h₁ ?_ ?_) trivial
  · split <;> omega
  · split <;> omega

theorem params_eq (h : o.Good rows cols) :
    o.ctx.params = some (o.ctx.escValues.toList.take o.ctx.escValuesI) :=
  if_pos h.ok.escValuesI_le

theorem good_modeToggle (h : o.Good rows cols) :
    ∃ o', modeToggle c o = some o' ∧ o'.Good rows cols := by
  rw [modeToggle, params_eq h]
  split
  · exact ⟨o, rfl, h⟩
  split
  · exact ⟨_, rfl, h.withCtx { h.ok with }⟩
  · exact ⟨_, rfl, h.report _⟩

theorem good_linuxPrivateParse (h : o.Good rows cols) :
    ∃ o', linuxPrivateParse o = some o' ∧ o'.Good rows cols := by
  rw [linuxPrivateParse, params_eq h]
  split
  · exact ⟨o, rfl, h⟩
  · exact ⟨_, rfl, h.report _⟩

theorem good_decPrivateParse (h : o.Good rows cols) :
    ∃ o', decPrivateParse c o = some o' ∧ o'.Good rows cols := by
  have hoff : Out.Good rows cols { o with ctx.decPrivate := false } := h.withCtx { h.ok with }
  have hparams := params_eq hoff
  rw [decPrivateParse]
  dsimp only at hparams ⊢
  rw [hparams]
  split
  · exact ⟨_, rfl, hoff⟩
  split
  · exact ⟨_, rfl, h.withCtx { h.ok with }⟩
  · exact ⟨_, rfl, hoff.report _⟩

/-- **A control sequence** keeps the context in order and makes legal calls. -/
theorem good_command (h : o.Good rows cols) (hy : y < rows) :
    ∃ o', command beyond x y c o = some o' ∧ o'.Good rows cols := by
  rw [command]
  have hset : ∀ {c : Prop} [Decidable c] (v : Nat), (if c then o.setEsc0 v else o).Good rows cols :=
    fun v => good_ite (fun _ => h.setEsc0 v) fun _ => h
  cases Command.ofByte c with
  | up start => exact ⟨_, rfl, Out.Good.emit (hset _) trivial⟩
  | down start => exact ⟨_, rfl, Out.Good.emit (hset _) trivial⟩
  | right => exact ⟨_, rfl, Out.Good.emit (hset _) trivial⟩
  | left => exact ⟨_, rfl, Out.Good.emit (hset _) trivial⟩
  | privateId => exact ⟨_, rfl, h.report _⟩
  | row => exact ⟨_, rfl, (good_oneBased h _).emit trivial⟩
  | column => exact ⟨_, rfl, (good_oneBased h _).emit trivial⟩
  | position => exact ⟨_, rfl, good_cursorPosition h⟩
  | deleteLines =>
      refine ⟨_, rfl, h.emitAll fun k hk => ?_⟩
      rw [List.eq_of_mem_replicate hk]
      trivial
  | insertLines => exact ⟨_, rfl, good_insertLines h hy⟩
  | report =>
      exact ⟨_, rfl, good_ite (fun _ => h.report _) fun _ => good_ite (fun _ => h.report _)
        fun _ => h⟩
  | leds => exact ⟨_, rfl, h.report _⟩
  | eraseDisplay => exact ⟨_, rfl, good_eraseDisplay h⟩
  | insertChars => exact ⟨_, rfl, good_insertChars h⟩
  | deleteChars => exact ⟨_, rfl, good_deleteChars h⟩
  | eraseChars => exact ⟨_, rfl, h.emitAll (legal_blanks_concat _ x y)⟩
  | sgr => exact good_sgr beyond h
  | saveCursor => exact ⟨_, rfl, h.withCtx { h.ok with }⟩
  | restoreCursor => exact ⟨_, rfl, h.emit trivial⟩
  | eraseLine => exact ⟨_, rfl, good_eraseLine h⟩
  | margins => exact ⟨_, rfl, good_setMargins h⟩
  | mode => exact good_modeToggle h
  | linux => exact good_linuxPrivateParse h
  | none => exact ⟨_, rfl, h⟩

/-! ### The bytes of a sequence -/

theorem good_endSequence (h : o.Good rows cols) : (endSequence o).Good rows cols :=
  h.withCtx { h.ok with }

theorem good_finishSequence (h : o.Good rows cols) (hy : y < rows) :
    ∃ o', finishSequence beyond x y c o = some o' ∧ o'.Good rows cols := by
  have hfill : (fillDefaults c o).Good rows cols := h.withCtx { h.ok with }
  rw [finishSequence]
  generalize fillDefaults c o = o₁ at hfill
  dsimp only
  split
  · obtain ⟨o', ho', h'⟩ := good_decPrivateParse (c := c) hfill
    rw [ho']
    exact ⟨_, rfl, good_endSequence h'⟩
  · have hoff : Out.Good rows cols { o₁ with ctx.scrollEnabled := false } :=
      hfill.withCtx { hfill.ok with }
    obtain ⟨o', ho', h'⟩ := @good_command rows cols x y _ beyond c hoff hy
    rw [ho']
    exact ⟨_, rfl, h'.withCtx { h'.ok with }⟩

/-- A digit has a place. -/
theorem good_addDigit (h : o.Good rows cols) :
    ∃ o', addDigit c o = some o' ∧ o'.Good rows cols := by
  have hle := h.ok.escValuesI_le
  rw [addDigit]
  split
  · exact ⟨o, rfl, h⟩
  · rw [dif_pos (by omega)]
    exact ⟨_, rfl, h.withCtx { h.ok with rrr_lt := fun _ => by show o.ctx.escValuesI < 16; omega }⟩

theorem good_skipValue (h : o.Good rows cols) (hrrr : ¬ o.ctx.rrr = true) :
    ∃ o', skipValue o = some o' ∧ o'.Good rows cols := by
  have hle := h.ok.escValuesI_le
  rw [skipValue]
  split
  · exact ⟨o, rfl, h⟩
  · rw [dif_pos (by omega)]
    exact ⟨_, rfl, h.withCtx { h.ok with
      escValuesI_le := by show o.ctx.escValuesI + 1 ≤ 16; omega
      rrr_lt := fun hr => absurd hr hrrr }⟩

/-- **A byte of a control sequence.** -/
theorem good_controlSequenceParse (h : o.Good rows cols) (hy : y < rows) :
    ∃ o', controlSequenceParse beyond x y c o = some o' ∧ o'.Good rows cols := by
  rw [controlSequenceParse]
  split
  · exact ⟨_, rfl, h.withCtx { h.ok with }⟩
  split
  · exact ⟨_, rfl, h.withCtx { h.ok with }⟩
  split
  · exact good_addDigit h
  split
  · rename_i hrrr
    -- the value that was being read is there
    have hlt := h.ok.rrr_lt hrrr
    have hnext : Out.Good rows cols
        { o with ctx.escValuesI := o.ctx.escValuesI + 1, ctx.rrr := false } :=
      h.withCtx { h.ok with escValuesI_le := hlt, rrr_lt := fun hr => by cases hr }
    dsimp only
    split
    · exact ⟨_, rfl, hnext⟩
    · exact good_finishSequence hnext hy
  · rename_i hrrr
    split
    · exact good_skipValue h hrrr
    · exact good_finishSequence h hy

theorem good_oscParse (h : o.Good rows cols) : (oscParse c o).Good rows cols :=
  good_ite (fun _ => h.withCtx { h.ok with }) fun _ =>
    good_ite (fun _ => h.withCtx { h.ok with }) fun _ => h.withCtx { h.ok with }

theorem good_beginSequence (h : o.Good rows cols) : (beginSequence o).Good rows cols :=
  h.withCtx { h.ok with escValuesI_le := Nat.zero_le 16, rrr_lt := fun hr => by cases hr }

/-- A reset keeps what has been saved. -/
theorem good_reset (h : o.Good rows cols) :
    Out.Good rows cols { o with ctx := flantermContextReinit o.ctx } :=
  h.withCtx (ok_reinit h.ok.rows_eq h.ok.cols_eq h.ok.rows_pos h.ok.cols_pos h.ok.rows_lt
    h.ok.cols_lt h.ok.savedCharset_lt h.ok.savedPrimary h.ok.savedBg)

theorem good_escapeCommand (h : o.Good rows cols) : (escapeCommand x y c o).Good rows cols := by
  rw [escapeCommand]
  split
  · have hsave := h.emit (k := .saveState) trivial
    exact hsave.withCtx { hsave.ok with
      savedCharset_lt := h.ok.charset_lt
      savedPrimary := h.ok.primary
      savedBg := h.ok.bg }
  · exact Out.Good.emit (h.withCtx { h.ok with
      charset_lt := h.ok.savedCharset_lt
      primary := h.ok.savedPrimary
      bg := h.ok.savedBg }) trivial
  · exact (good_reset h).emit trivial
  · refine good_ite (fun _ => h.emitAll ?_) fun _ => h.emit trivial
    exact List.forall_mem_cons.mpr ⟨trivial, List.forall_mem_singleton.mpr trivial⟩
  · refine good_ite (fun _ => h.emitAll ?_) fun _ => h.emit trivial
    exact List.forall_mem_cons.mpr ⟨trivial, List.forall_mem_singleton.mpr trivial⟩
  · refine good_ite (fun _ => h.emitAll ?_) fun _ => h.emit trivial
    exact List.forall_mem_cons.mpr ⟨trivial, List.forall_mem_singleton.mpr trivial⟩
  · exact h.report _
  · exact h.withCtx { h.ok with gSelect_le := Nat.le_succ 1 }
  · exact h.withCtx { h.ok with gSelect_le := Nat.le_refl 2 }
  · exact h

/-- **A byte of an escape sequence.** -/
theorem good_escapeParse (h : o.Good rows cols) (hy : y < rows) :
    ∃ o', escapeParse beyond x y c o = some o' ∧ o'.Good rows cols := by
  have hnext : Out.Good rows cols { o with ctx.escapeOffset := o.ctx.escapeOffset + 1 } :=
    h.withCtx { h.ok with }
  rw [escapeParse]
  generalize ({ o with ctx.escapeOffset := o.ctx.escapeOffset + 1 } : Out) = o₁ at hnext
  dsimp only
  split
  · exact ⟨_, rfl, good_oscParse hnext⟩
  split
  · exact good_controlSequenceParse hnext hy
  split
  · exact ⟨_, rfl, good_beginSequence (hnext.withCtx { hnext.ok with })⟩
  split
  · exact ⟨_, rfl, hnext.withCtx { hnext.ok with }⟩
  split
  · exact ⟨_, rfl, good_beginSequence hnext⟩
  · have hcommand := good_escapeCommand (x := x) (y := y) (c := c) hnext
    exact ⟨_, rfl, hcommand.withCtx { hcommand.ok with }⟩

end Good

end FrazzOS.Flanterm

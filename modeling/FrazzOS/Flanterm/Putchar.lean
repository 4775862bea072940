import FrazzOS.Flanterm.Control
import FrazzOS.Flanterm.Unicode

/-!
# Flanterm — Putchar

`flanterm_putchar`: a byte of what is written to the terminal.

`(x, y)` is the cursor that `get_cursor_pos` gives, on the screen.  A `return` in the middle of the
function is the end of one of the definitions.

* `good_flantermPutchar`: a byte keeps the context in order and makes legal calls, whatever came
  before it; no index goes outside of a table, and nothing is divided by zero.
-/

namespace FrazzOS.Flanterm

/-- The first `if` of `flanterm_putchar`: what has been read of a sequence is dropped. -/
def dropSequence (o : Out) : Out :=
  { o with
    ctx.discardNext := false
    ctx.escape := false
    ctx.csi := false
    ctx.controlSequence := false
    ctx.unicodeRemaining := 0
    ctx.osc := false
    ctx.oscEscape := false
    ctx.gSelect := 0 }

/-- The calls for a code point: its glyph, or a square and blanks in its width. -/
def glyphCalls (codePoint : Nat) : Option (List Call) :=
  match unicodeToCp437 codePoint with
  | some cc => some [.rawPutchar cc]
  | none => do
    let width ← mkWcwidth (codePoint % 4294967296)
    return (if width > 0 then [.rawPutchar 0xfe] else []) ++ blanks (width - 1)

/-- The six bits of a byte behind the first one of a code point. -/
def addBits (c : BitVec 8) (o : Out) : Out :=
  let n := o.ctx.unicodeRemaining - 1
  { o with
    ctx.unicodeRemaining := n
    ctx.codePoint := o.ctx.codePoint ||| (c &&& 0x3f).toNat <<< (6 * n) }

/-- A byte behind the first one of a code point: the last one puts it. -/
def continueCodePoint (c : BitVec 8) (o : Out) : Option Out := do
  let o := addBits c o
  if o.ctx.unicodeRemaining ≠ 0 then return o
  else return o.emitAll (← glyphCalls o.ctx.codePoint)

/-- The first byte of a code point, with `n` of them behind it. -/
def startCodePoint (c mask : BitVec 8) (n : Nat) (o : Out) : Out :=
  { o with ctx.unicodeRemaining := n, ctx.codePoint := (c &&& mask).toNat <<< (6 * n) }

/-- `if (ctx->g_select)`: the character set is chosen. -/
def selectCharset (c : BitVec 8) (o : Out) : Option Out :=
  let g := o.ctx.gSelect - 1
  let o := { o with ctx.gSelect := 0 }
  if c = ch 'B' then
    if h : g < 2 then some { o with ctx.charsets := o.ctx.charsets.set g .default } else none
  else if c = ch '0' then
    if h : g < 2 then some { o with ctx.charsets := o.ctx.charsets.set g .decSpecial } else none
  else some o

/-- The place for the cursor behind a line feed. -/
def lineFeed (x y : Nat) (o : Out) : Out :=
  let x := if o.ctx.oobOutput &&& 16 ≠ 0 then 0 else x
  if y = sub64 o.ctx.scrollBottomMargin 1 then o.emitAll [.scroll, .setCursorPos x y]
  else o.emit (.setCursorPos x (y + 1))

/-- `'\t'`. -/
def tabulate (x y : Nat) (o : Out) : Option Out :=
  if o.ctx.tabSize = 0 then none
  else
    let stop := x / o.ctx.tabSize + 1
    if stop ≥ o.ctx.cols then some (o.emit (.setCursorPos (o.ctx.cols - 1) y))
    else some (o.emit (.setCursorPos (stop * o.ctx.tabSize) y))

/-- `if (ctx->insert_mode == true)`: what is at the cursor and behind it goes to the right. -/
def makeRoom (x y : Nat) (o : Out) : Out :=
  if o.ctx.insertMode then
    o.emitAll ((List.range' x (o.ctx.cols - x)).reverse.map fun i => .moveCharacter (i + 1) y i y)
  else o

/-- The end of `flanterm_putchar`, for a byte that is no control character. -/
def printByte (x y : Nat) (c : BitVec 8) (o : Out) : Option Out := do
  let o := makeRoom x y o
  let charset ← o.ctx.charsets[o.ctx.currentCharset]?
  match charset, decSpecial.lookup (Char.ofNat c.toNat) with
  | .decSpecial, some g => return o.emit (.rawPutchar g)
  | _, _ => return if 0x20 ≤ c ∧ c ≤ 0x7e then o.emit (.rawPutchar c) else o

/-- `0x1b`: an escape sequence. -/
def beginEscape (o : Out) : Out := { o with ctx.escapeOffset := 0, ctx.escape := true }

/-- `flanterm_putchar`, for a byte outside of all sequences. -/
def plainByte (x y : Nat) (c : BitVec 8) (o : Out) : Option Out :=
  match c.toNat with
  | 0x00 | 0x7f => some o
  | 0x9b => some (beginEscape { o with ctx.csi := true })
  | 0x1b => some (beginEscape o)
  | 0x09 => tabulate x y o
  | 0x0a | 0x0b | 0x0c => some (lineFeed x y o)
  | 0x08 => some (o.emit (.setCursorPos (sub64 x 1) y))
  | 0x0d => some (o.emit (.setCursorPos 0 y))
  | 0x07 => some (o.report .bell)
  | 14 => some { o with ctx.currentCharset := 1 }
  | 15 => some { o with ctx.currentCharset := 0 }
  | _ => printByte x y c o

/-- The label `unicode_error` of `flanterm_putchar`. -/
def freshByte (beyond : Nat → BitVec 32) (x y : Nat) (c : BitVec 8) (o : Out) : Option Out :=
  if 0xc0 ≤ c ∧ c ≤ 0xdf then some (startCodePoint c 0x1f 1 o)
  else if 0xe0 ≤ c ∧ c ≤ 0xef then some (startCodePoint c 0x0f 2 o)
  else if 0xf0 ≤ c ∧ c ≤ 0xf7 then some (startCodePoint c 0x07 3 o)
  else if o.ctx.escape then escapeParse beyond x y c o
  else if o.ctx.gSelect ≠ 0 then selectCharset c o
  else plainByte x y c o

/-- `flanterm_putchar`. -/
def flantermPutchar (beyond : Nat → BitVec 32) (x y : Nat) (c : BitVec 8) (o : Out) : Option Out :=
  if o.ctx.discardNext ∨ c = 0x18 ∨ c = 0x1a then some (dropSequence o)
  else if o.ctx.unicodeRemaining = 0 then freshByte beyond x y c o
  else if c &&& 0xc0 = 0x80 then continueCodePoint c o
  else freshByte beyond x y c { o with ctx.unicodeRemaining := 0 }

section Good

variable {rows cols x y : Nat} {o : Out} {beyond : Nat → BitVec 32} {c : BitVec 8}

/-- A code point of up to 21 bits has its calls, and they put characters only. -/
theorem glyphCalls_yields (codePoint : Nat) :
    ∃ ks, glyphCalls codePoint = some ks ∧ ∀ k ∈ ks, k.Legal := by
  rw [glyphCalls]
  split
  · refine ⟨_, rfl, fun k hk => ?_⟩
    rw [List.mem_singleton.mp hk]
    trivial
  · obtain ⟨width, hwidth⟩ : ∃ n, mkWcwidth (codePoint % 4294967296) = some n :=
      ⟨_, mkWcwidth_eq _⟩
    rw [hwidth]
    refine ⟨_, rfl, List.forall_mem_append.mpr ⟨?_, legal_blanks _⟩⟩
    intro k hk
    split at hk
    · rw [List.mem_singleton.mp hk]
      trivial
    · cases hk

theorem good_continueCodePoint (h : o.Good rows cols) :
    ∃ o', continueCodePoint c o = some o' ∧ o'.Good rows cols := by
  have hle := h.ok.remaining_le
  have hnext : (addBits c o).Good rows cols := h.withCtx { h.ok with
    remaining_le := Nat.le_trans (Nat.sub_le _ 1) hle }
  rw [continueCodePoint]
  split
  · exact ⟨_, rfl, hnext⟩
  · obtain ⟨ks, hks, hlegal⟩ := glyphCalls_yields (addBits c o).ctx.codePoint
    rw [hks]
    exact ⟨_, rfl, hnext.emitAll hlegal⟩

theorem good_startCodePoint (h : o.Good rows cols) (mask : BitVec 8) {n : Nat} (hn : n ≤ 3) :
    (startCodePoint c mask n o).Good rows cols :=
  h.withCtx { h.ok with remaining_le := hn }

theorem good_selectCharset (h : o.Good rows cols) :
    ∃ o', selectCharset c o = some o' ∧ o'.Good rows cols := by
  have hle := h.ok.gSelect_le
  have hlt : o.ctx.gSelect - 1 < 2 := by omega
  rw [selectCharset]
  dsimp only
  rw [dif_pos hlt, dif_pos hlt]
  split
  · exact ⟨_, rfl, h.withCtx { h.ok with gSelect_le := Nat.zero_le 2 }⟩
  split
  · exact ⟨_, rfl, h.withCtx { h.ok with gSelect_le := Nat.zero_le 2 }⟩
  · exact ⟨_, rfl, h.withCtx { h.ok with gSelect_le := Nat.zero_le 2 }⟩

theorem good_lineFeed (h : o.Good rows cols) : (lineFeed x y o).Good rows cols := by
  refine good_ite (fun _ => h.emitAll ?_) fun _ => h.emit trivial
  exact List.forall_mem_cons.mpr ⟨trivial, List.forall_mem_singleton.mpr trivial⟩

theorem good_tabulate (h : o.Good rows cols) :
    ∃ o', tabulate x y o = some o' ∧ o'.Good rows cols := by
  rw [tabulate, if_neg (Nat.ne_of_gt h.ok.tabSize_pos)]
  dsimp only
  split
  · exact ⟨_, rfl, h.emit trivial⟩
  · exact ⟨_, rfl, h.emit trivial⟩

theorem good_makeRoom (h : o.Good rows cols) : (makeRoom x y o).Good rows cols := by
  refine good_ite (fun _ => h.emitAll fun k hk => ?_) fun _ => h
  obtain ⟨i, -, rfl⟩ := List.mem_map.mp hk
  trivial

theorem good_printByte (h : o.Good rows cols) :
    ∃ o', printByte x y c o = some o' ∧ o'.Good rows cols := by
  have hroom := good_makeRoom (x := x) (y := y) h
  rw [printByte, Vector.getElem?_eq_getElem hroom.ok.charset_lt, Option.bind_eq_bind, Option.bind_some]
  split
  · exact ⟨_, rfl, hroom.emit trivial⟩
  · exact ⟨_, rfl, good_ite (fun _ => hroom.emit trivial) fun _ => hroom⟩

theorem good_plainByte (h : o.Good rows cols) :
    ∃ o', plainByte x y c o = some o' ∧ o'.Good rows cols := by
  have hescape : ∀ {o : Out}, o.Good rows cols → (beginEscape o).Good rows cols :=
    fun h => h.withCtx { h.ok with }
  rw [plainByte]
  split
  · exact ⟨_, rfl, h⟩
  · exact ⟨_, rfl, h⟩
  · exact ⟨_, rfl, hescape (h.withCtx { h.ok with })⟩
  · exact ⟨_, rfl, hescape h⟩
  · exact good_tabulate h
  · exact ⟨_, rfl, good_lineFeed h⟩
  · exact ⟨_, rfl, good_lineFeed h⟩
  · exact ⟨_, rfl, good_lineFeed h⟩
  · exact ⟨_, rfl, h.emit trivial⟩
  · exact ⟨_, rfl, h.emit trivial⟩
  · exact ⟨_, rfl, h.report _⟩
  · exact ⟨_, rfl, h.withCtx { h.ok with charset_lt := Nat.one_lt_two }⟩
  · exact ⟨_, rfl, h.withCtx { h.ok with charset_lt := Nat.zero_lt_two }⟩
  · exact good_printByte h

theorem good_freshByte (h : o.Good rows cols) (hy : y < rows) :
    ∃ o', freshByte beyond x y c o = some o' ∧ o'.Good rows cols := by
  rw [freshByte]
  split
  · exact ⟨_, rfl, good_startCodePoint h _ (by decide)⟩
  split
  · exact ⟨_, rfl, good_startCodePoint h _ (by decide)⟩
  split
  · exact ⟨_, rfl, good_startCodePoint h _ (by decide)⟩
  split
  · exact good_escapeParse h hy
  split
  · exact good_selectCharset h
  · exact good_plainByte h

/-- **A byte** keeps the context in order, and makes legal calls. -/
theorem good_flantermPutchar (h : o.Good rows cols) (hy : y < rows) :
    ∃ o', flantermPutchar beyond x y c o = some o' ∧ o'.Good rows cols := by
  rw [flantermPutchar]
  split
  · exact ⟨_, rfl, h.withCtx { h.ok with
      gSelect_le := Nat.zero_le 2, remaining_le := Nat.zero_le 3 }⟩
  split
  · exact good_freshByte h hy
  split
  · exact good_continueCodePoint h
  · exact good_freshByte (h.withCtx { h.ok with remaining_le := Nat.zero_le 3 }) hy

end Good

end FrazzOS.Flanterm

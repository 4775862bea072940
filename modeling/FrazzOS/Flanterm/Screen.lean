import FrazzOS.Flanterm.Fb
import FrazzOS.Support.Faults

/-!
# Flanterm — Screen

What the backend is for: a screen of characters, with a cursor.  There is no queue here, and no
framebuffer; `cells` is what has been written, and `shown` what is to be seen since the last flush.
A call changes the characters of a whole line or of the whole screen at once.

* `screenCall`: a call of the context, to the screen.
* `penCall_yields`: the colours and the cursor, which the backend has in common with it.
-/

namespace FrazzOS.Flanterm

open Faults

/-- The characters of a screen, by column and row. -/
abbrev Cells := Nat → Nat → FbChar

/-- The pen, what has been written, and what is to be seen. -/
structure Screen extends Pen where
  cells : Cells
  shown : Cells

/-- A character is written. -/
def Cells.put (cells : Cells) (c : FbChar) (x y : Nat) : Cells :=
  fun x' y' => if x' = x ∧ y' = y then c else cells x' y'

/-- The lines of the region go up, and its last one is blank. -/
def Cells.up (cells : Cells) (top bottom : Nat) (empty : FbChar) : Cells :=
  fun x y =>
    if y + 1 = bottom then empty
    else if top ≤ y ∧ y + 1 < bottom then cells x (y + 1)
    else cells x y

/-- The lines of the region go down, and its first one is blank. -/
def Cells.down (cells : Cells) (top bottom : Nat) (empty : FbChar) : Cells :=
  fun x y =>
    if y = top then empty
    else if top < y ∧ y < bottom then cells x (y - 1)
    else cells x y

/-- The lines of the screen go up. -/
def Screen.scroll (ctx : Context) (s : Screen) : Screen :=
  { s with cells := s.cells.up ctx.scrollTopMargin ctx.scrollBottomMargin s.empty }

/-- The lines of the screen go down. -/
def Screen.revscroll (ctx : Context) (s : Screen) : Screen :=
  { s with cells := s.cells.down ctx.scrollTopMargin ctx.scrollBottomMargin s.empty }

/-- The screen is blank. -/
def Screen.clear (move : Bool) (s : Screen) : Screen :=
  let s := { s with cells := fun _ _ => s.empty }
  if move then { s with cursorX := 0, cursorY := 0 } else s

/-- A character is written in a second place. -/
def Screen.moveCharacter (ctx : Context) (newX newY oldX oldY : Nat) (s : Screen) : Screen :=
  if oldX ≥ ctx.cols ∨ oldY ≥ ctx.rows ∨ newX ≥ ctx.cols ∨ newY ≥ ctx.rows then s
  else { s with cells := s.cells.put (s.cells oldX oldY) newX newY }

/-- At the end of the region the lines go up. -/
def Screen.wrapLine (ctx : Context) (s : Screen) : Screen :=
  if s.cursorY = ctx.scrollBottomMargin then
    Screen.scroll ctx { s with cursorY := s.cursorY - 1 }
  else s

/-- Behind the end of a line the cursor goes to the next one. -/
def Screen.nextLine (ctx : Context) (s : Screen) : Screen :=
  if s.cursorX ≥ ctx.cols ∧
      (s.cursorY < sub64 ctx.scrollBottomMargin 1 ∨ ctx.scrollEnabled = true) then
    let s := Screen.wrapLine ctx { s with cursorX := 0, cursorY := s.cursorY + 1 }
    { s with toPen := clampLine ctx s.toPen }
  else s

/-- A character is written at the cursor, which goes to the right of it. -/
def Screen.rawPutchar (ctx : Context) (c : BitVec 8) (s : Screen) : Screen :=
  let s := s.nextLine ctx
  { s with
    cells := s.cells.put (.ofByte c s.textFg s.textBg) s.cursorX s.cursorY
    cursorX := s.cursorX + 1 }

/-- The cell is to be seen with its colours exchanged. -/
def AtCursor (ctx : Context) (p : Pen) (x y : Nat) : Prop :=
  ctx.cursorEnabled = true ∧ x = p.cursorX ∧ y = p.cursorY

instance (ctx : Context) (p : Pen) (x y : Nat) : Decidable (AtCursor ctx p x y) :=
  inferInstanceAs (Decidable (_ ∧ _ ∧ _))

/-- What has been written is to be seen, with the colours exchanged at the cursor where it is
enabled. -/
def Screen.flush (ctx : Context) (s : Screen) : Screen :=
  { s with
    shown := fun x y =>
      if AtCursor ctx s.toPen x y then (s.cells x y).inverse else s.cells x y }

/-- A call of the context, to the screen. -/
def screenCall (cfg : FbConfig) (ctx : Context) : Call → Screen → Option Screen
  | .rawPutchar c, s => some (s.rawPutchar ctx c)
  | .clear move, s => some (s.clear move)
  | .moveCharacter newX newY oldX oldY, s => some (s.moveCharacter ctx newX newY oldX oldY)
  | .scroll, s => some (s.scroll ctx)
  | .revscroll, s => some (s.revscroll ctx)
  | .doubleBufferFlush, s => some (s.flush ctx)
  | k, s => do return { s with toPen := ← penCall cfg ctx k s.toPen }

/-- A call that names one of the eight colours finds it. -/
theorem penCall_yields {cfg : FbConfig} {ctx : Context} {k : Call} (hk : k.Legal) (p : Pen) :
    Yields (fun _ => True) (penCall cfg ctx k p) := by
  have hcolour : ∀ (v : Vector (BitVec 32) 8) (c : Nat) (f : BitVec 32 → Pen), c < 8 →
      Yields (fun _ => True) (v[c]? >>= fun x => some (f x)) := by
    intro v c f hc
    rw [Vector.getElem?_eq_getElem hc]
    exact yields_some trivial
  cases k with
  | setTextFg c => exact hcolour _ _ _ hk
  | setTextBg c => exact hcolour _ _ _ hk
  | setTextFgBright c => exact hcolour _ _ _ hk
  | setTextBgBright c => exact hcolour _ _ _ hk
  | _ => exact yields_some trivial

end FrazzOS.Flanterm

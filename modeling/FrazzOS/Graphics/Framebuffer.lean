import FrazzOS.Support.CInt
import Mathlib.Tactic.Common

/-!
# Graphics — Framebuffer

The console of `drivers/graphics/framebuffer.c`: the cursor of `ssfn_dst` and what
`term_print_char` does to it.  `ssfn_putc` draws a cell of 8 by 16 pixels at the cursor and moves it
to the right of the cell; the cells drawn are kept beside the cursor, and the pixels themselves are
left to the shift of the lines, in `Scroll`.

* `termPrintChar_inv`: on a framebuffer of whole cells a character keeps the cursor on the grid
  (`Inv`), and draws inside the framebuffer.
* `onScreen_iff`: all cells ever drawn lie inside the framebuffer, for every text, exactly when its
  width and height are multiples of the glyph's and the cursor's `int`s do not overflow.
-/

namespace FrazzOS.Graphics

/-- The fields of `struct graphic_buffer` that the cursor depends on. -/
structure GraphicBuffer where
  framebufferWidth : Nat
  framebufferHeight : Nat
  glyphWidth : Int
  glyphHeight : Int

/-- The cursor, and the places where `ssfn_putc` was called, the last one first. -/
structure Console where
  x : Int
  y : Int
  cells : List (Int × Int)

/-- A sum of two `int`s; it is undefined where it overflows. -/
def addInt (a b : Int) : Option Int :=
  if -2147483648 ≤ a + b ∧ a + b < 2147483648 then some (a + b) else none

/-- The buffer that `framebuffer_init` sets up. -/
def framebufferInit (width height : Nat) : GraphicBuffer where
  framebufferWidth := width
  framebufferHeight := height
  glyphWidth := 8
  glyphHeight := 16

/-- The console that `framebuffer_init` starts with. -/
def bootConsole : Console := ⟨0, 0, []⟩

/-- `ssfn_putc`: a cell is drawn at the cursor, which goes 8 pixels to the right. -/
def ssfnPutc (s : Console) : Option Console := do
  let x ← addInt s.x 8
  return ⟨x, s.y, (s.x, s.y) :: s.cells⟩

/-- The cursor goes to the start of the next line. -/
def newLine (g : GraphicBuffer) (s : Console) : Option Console := do
  let y ← addInt s.y g.glyphHeight
  return { s with x := 0, y := y }

/-- The second `if` of `term_print_char`: below the last line the screen is shifted up. -/
def scroll (g : GraphicBuffer) (s : Console) : Console :=
  if CInt.toUInt64 s.y ≥ g.framebufferHeight then
    { s with x := 0, y := CInt.toInt32 (g.framebufferHeight - g.glyphHeight) }
  else s

/-- The first two `if`s of `term_print_char`. -/
def place (g : GraphicBuffer) (s : Console) : Option Console := do
  let right ← addInt s.x g.glyphWidth
  let s ← if CInt.toUInt64 right > g.framebufferWidth then newLine g s else some s
  return scroll g s

/-- `x -= glyph_width` around a blank. -/
def blankLeft (g : GraphicBuffer) (s : Console) : Option Console := do
  let s ← ssfnPutc s
  let x ← addInt s.x (-g.glyphWidth)
  return { s with x := x }

/-- The branch of `term_print_char` for a backspace. -/
def backspace (g : GraphicBuffer) (s : Console) : Option Console :=
  if s.x = 0 then
    if s.y = 0 then some s
    else do
      let y ← addInt s.y (-g.glyphHeight)
      blankLeft g { s with x := CInt.toInt32 (g.framebufferWidth - g.glyphWidth), y := y }
  else do
    let x ← addInt s.x (-g.glyphWidth)
    blankLeft g { s with x := x }

/-- What `term_print_char` does for a character that it hands on to `ssfn_putc`. -/
def printGlyph (g : GraphicBuffer) (s : Console) : Option Console := do
  ssfnPutc (← place g s)

/-- `term_print_char`, at the cursor.  For a tab it calls itself with a blank, four times. -/
def termPrintChar (g : GraphicBuffer) (s : Console) (unicode : Nat) : Option Console :=
  match unicode with
  | 0 => place g s
  | 10 => do newLine g (← place g s)
  | 9 => do (List.range 4).foldlM (fun s _ => printGlyph g s) (← place g s)
  | 8 => do backspace g (← place g s)
  | _ => printGlyph g s

/-- A text printed from `(0, 0)` on. -/
def printText (width height : Nat) (text : List Nat) : Option Console :=
  text.foldlM (termPrintChar (framebufferInit width height)) bootConsole

/-- A cell of 8 by 16 pixels lies inside the framebuffer. -/
def Inside (width height : Nat) (c : Int × Int) : Prop :=
  0 ≤ c.1 ∧ c.1 + 8 ≤ width ∧ 0 ≤ c.2 ∧ c.2 + 16 ≤ height

/-- The text is printed, without overflow, and each of its cells inside the framebuffer. -/
def OnScreen (width height : Nat) (text : List Nat) : Prop :=
  ∃ s, printText width height text = some s ∧ ∀ c ∈ s.cells, Inside width height c

/-- The framebuffer has whole cells, and the cursor beside its last column and below its last line
fits an `int`. -/
structure WholeCells (width height : Nat) : Prop where
  columns : 8 ∣ width
  lines : 16 ∣ height
  width_lt : width + 8 < 2147483648
  height_lt : height < 2147483648

/-! ### A framebuffer of whole cells -/

/-- Between two characters: the cursor is on the grid, at most one cell beside a line, or at the
start of the line below the last one. -/
structure Inv (width height : Nat) (s : Console) : Prop where
  x_dvd : 8 ∣ s.x
  y_dvd : 16 ∣ s.y
  x_nonneg : 0 ≤ s.x
  y_nonneg : 0 ≤ s.y
  x_le : s.x ≤ width
  y_le : s.y ≤ height
  below : s.y = height → s.x = 0
  cells : ∀ c ∈ s.cells, Inside width height c

/-- Where a cell can be drawn: on the grid, inside the framebuffer. -/
structure Placed (width height : Nat) (s : Console) : Prop where
  x_dvd : 8 ∣ s.x
  y_dvd : 16 ∣ s.y
  inside : Inside width height (s.x, s.y)
  cells : ∀ c ∈ s.cells, Inside width height c

theorem addInt_eq {a b : Int} (h₀ : -2147483648 ≤ a + b) (h₁ : a + b < 2147483648) :
    addInt a b = some (a + b) := if_pos ⟨h₀, h₁⟩

theorem toUInt64_eq {a : Int} (h₀ : 0 ≤ a) (h₁ : a < 2147483648) : (CInt.toUInt64 a : Int) = a := by
  unfold CInt.toUInt64
  omega

section WholeCells

variable {width height : Nat} {s : Console}

theorem scroll_placed (hw : WholeCells width height) (hh : 16 ≤ height) (hx : 8 ∣ s.x)
    (hx₀ : 0 ≤ s.x) (hx₁ : s.x + 8 ≤ width) (hy : 16 ∣ s.y) (hy₀ : 0 ≤ s.y) (hy₁ : s.y ≤ height)
    (hcells : ∀ c ∈ s.cells, Inside width height c) :
    Placed width height (scroll (framebufferInit width height) s) := by
  have hlines := hw.lines
  have hlt := hw.height_lt
  have hu := toUInt64_eq hy₀ (by omega)
  rw [scroll]
  split
  · rename_i hge
    have hge : height ≤ CInt.toUInt64 s.y := hge
    have hlast : CInt.toInt32 ((height : Int) - 16) = height - 16 :=
      CInt.toInt32_of_range (by omega) (by omega)
    refine ⟨Int.dvd_zero 8, ?_, ?_, hcells⟩
    · show 16 ∣ CInt.toInt32 ((height : Int) - 16)
      rw [hlast]
      omega
    · show Inside width height (0, CInt.toInt32 ((height : Int) - 16))
      rw [hlast]
      exact ⟨Int.le_refl 0, by omega, by omega, by omega⟩
  · rename_i hlt'
    have hlt' : ¬ height ≤ CInt.toUInt64 s.y := hlt'
    exact ⟨hx, hy, ⟨hx₀, hx₁, hy₀, by omega⟩, hcells⟩

theorem Placed.inv (h : Placed width height s) : Inv width height s := by
  obtain ⟨hx, hy, ⟨hx₀, hx₁, hy₀, hy₁⟩, hcells⟩ := h
  simp only at hx₀ hx₁ hy₀ hy₁
  exact ⟨hx, hy, hx₀, hy₀, by omega, by omega, fun he => by omega, hcells⟩

/-- The first two `if`s find a place for a cell. -/
theorem place_placed (hw : WholeCells width height) (hwidth : 8 ≤ width) (hheight : 16 ≤ height)
    (h : Inv width height s) : ∃ s', place (framebufferInit width height) s = some s' ∧
      Placed width height s' := by
  have hx := h.x_dvd
  have hy := h.y_dvd
  have hx₀ := h.x_nonneg
  have hy₀ := h.y_nonneg
  have hx₁ := h.x_le
  have hy₁ := h.y_le
  have hcolumns := hw.columns
  have hlines := hw.lines
  have hwlt := hw.width_lt
  have hhlt := hw.height_lt
  have hright : addInt s.x (framebufferInit width height).glyphWidth = some (s.x + 8) :=
    @addInt_eq s.x 8 (by omega) (by omega)
  have hu := toUInt64_eq (a := s.x + 8) (by omega) (by omega)
  rw [place, hright]
  by_cases hfits : s.x + 8 ≤ width
  · have hno : ¬ CInt.toUInt64 (s.x + 8) > (framebufferInit width height).framebufferWidth := by
      show ¬ CInt.toUInt64 (s.x + 8) > width
      omega
    refine ⟨_, ?_, scroll_placed hw hheight hx hx₀ hfits hy hy₀ hy₁ h.cells⟩
    simp only [Option.bind_eq_bind, Option.bind_some, if_neg hno]
    rfl
  · -- beside the last column the cursor is above the last line
    have hyes : CInt.toUInt64 (s.x + 8) > (framebufferInit width height).framebufferWidth := by
      show CInt.toUInt64 (s.x + 8) > width
      omega
    have hne : s.y ≠ height := fun he => by
      have := h.below he
      omega
    have hdown : addInt s.y (framebufferInit width height).glyphHeight = some (s.y + 16) :=
      @addInt_eq s.y 16 (by omega) (by omega)
    refine ⟨_, ?_, @scroll_placed width height ⟨0, s.y + 16, s.cells⟩ hw hheight (Int.dvd_zero 8)
      (Int.le_refl 0) ?_ ?_ ?_ ?_ h.cells⟩
    · simp only [Option.bind_eq_bind, Option.bind_some, if_pos hyes, newLine, hdown]
      rfl
    · show (0 : Int) + 8 ≤ width
      omega
    · show 16 ∣ s.y + 16
      omega
    · show 0 ≤ s.y + 16
      omega
    · show s.y + 16 ≤ height
      omega

/-- A glyph at a place for it. -/
theorem ssfnPutc_inv (hw : WholeCells width height) (h : Placed width height s) :
    ∃ s', ssfnPutc s = some s' ∧ Inv width height s' ∧ s'.x = s.x + 8 ∧ s'.y = s.y := by
  obtain ⟨hx, hy, ⟨hx₀, hx₁, hy₀, hy₁⟩, hcells⟩ := h
  have hwlt := hw.width_lt
  simp only at hx₀ hx₁ hy₀ hy₁
  have hright : addInt s.x 8 = some (s.x + 8) := addInt_eq (by omega) (by omega)
  refine ⟨⟨s.x + 8, s.y, (s.x, s.y) :: s.cells⟩, ?_, ?_, rfl, rfl⟩
  · rw [ssfnPutc, hright]
    rfl
  · refine ⟨?_, hy, ?_, hy₀, hx₁, ?_, ?_, ?_⟩
    · show 8 ∣ s.x + 8
      omega
    · show 0 ≤ s.x + 8
      omega
    · show s.y ≤ height
      omega
    · intro he
      have he : s.y = height := he
      omega
    · rw [List.forall_mem_cons]
      exact ⟨⟨hx₀, hx₁, hy₀, hy₁⟩, hcells⟩

theorem printGlyph_inv (hw : WholeCells width height) (hwidth : 8 ≤ width) (hheight : 16 ≤ height)
    (h : Inv width height s) : ∃ s', printGlyph (framebufferInit width height) s = some s' ∧
      Inv width height s' := by
  obtain ⟨s₁, hs₁, hplaced⟩ := place_placed hw hwidth hheight h
  obtain ⟨s₂, hs₂, hinv, -, -⟩ := ssfnPutc_inv hw hplaced
  exact ⟨s₂, by rw [printGlyph, hs₁]; exact hs₂, hinv⟩

/-- A newline at a place for a cell. -/
theorem newLine_inv (hw : WholeCells width height) (h : Placed width height s) :
    ∃ s', newLine (framebufferInit width height) s = some s' ∧ Inv width height s' := by
  obtain ⟨hx, hy, ⟨hx₀, hx₁, hy₀, hy₁⟩, hcells⟩ := h
  have hhlt := hw.height_lt
  simp only at hx₀ hx₁ hy₀ hy₁
  have hdown : addInt s.y (framebufferInit width height).glyphHeight = some (s.y + 16) :=
    @addInt_eq s.y 16 (by omega) (by omega)
  refine ⟨⟨0, s.y + 16, s.cells⟩, ?_, ?_⟩
  · rw [newLine, hdown]
    rfl
  · refine ⟨Int.dvd_zero 8, ?_, Int.le_refl 0, ?_, Int.natCast_nonneg width, hy₁, fun _ => rfl,
      hcells⟩
    · show 16 ∣ s.y + 16
      omega
    · show 0 ≤ s.y + 16
      omega

/-- Blanking the place of a cell: the cursor stays at it. -/
theorem blankLeft_inv (hw : WholeCells width height) (h : Placed width height s) :
    ∃ s', blankLeft (framebufferInit width height) s = some s' ∧ Inv width height s' := by
  obtain ⟨s₁, hs₁, hinv, hx, hy⟩ := ssfnPutc_inv hw h
  have hwlt := hw.width_lt
  have hx₀ := h.inside.1
  have hx₁ := h.inside.2.1
  have hy₁ := h.inside.2.2.2
  simp only at hx₀ hx₁ hy₁
  have hleft : addInt s₁.x (-(framebufferInit width height).glyphWidth) = some s.x := by
    have hsum : s₁.x + -8 = s.x := by omega
    exact hsum ▸ @addInt_eq s₁.x (-8) (by omega) (by omega)
  refine ⟨{ s₁ with x := s.x }, ?_, ⟨h.x_dvd, hinv.y_dvd, hx₀, hinv.y_nonneg, ?_, hinv.y_le, ?_,
    hinv.cells⟩⟩
  · rw [blankLeft, hs₁]
    simp only [Option.bind_eq_bind, Option.bind_some, hleft]
    rfl
  · show s.x ≤ width
    omega
  · intro he
    have he : s₁.y = height := he
    omega

/-- The place at the end of the line above. -/
theorem Placed.up (hw : WholeCells width height) (hwidth : 8 ≤ width) (h : Placed width height s)
    (hy : s.y ≠ 0) :
    addInt s.y (-(framebufferInit width height).glyphHeight) = some (s.y - 16) ∧
      CInt.toInt32 ((width : Int) - 8) = width - 8 ∧
      Placed width height ⟨width - 8, s.y - 16, s.cells⟩ := by
  obtain ⟨hx, hlines, ⟨hx₀, hx₁, hy₀, hy₁⟩, hcells⟩ := h
  have hwlt := hw.width_lt
  have hhlt := hw.height_lt
  have hcolumns := hw.columns
  simp only at hx₀ hx₁ hy₀ hy₁
  refine ⟨@addInt_eq s.y (-16) (by omega) (by omega), CInt.toInt32_of_range (by omega) (by omega),
    ?_⟩
  refine ⟨?_, ?_, ⟨?_, ?_, ?_, ?_⟩, hcells⟩ <;> dsimp only <;> omega

/-- The place to the left. -/
theorem Placed.left (hw : WholeCells width height) (h : Placed width height s) (hzero : s.x ≠ 0) :
    addInt s.x (-(framebufferInit width height).glyphWidth) = some (s.x - 8) ∧
      Placed width height ⟨s.x - 8, s.y, s.cells⟩ := by
  obtain ⟨hx, hy, ⟨hx₀, hx₁, hy₀, hy₁⟩, hcells⟩ := h
  have hwlt := hw.width_lt
  simp only at hx₀ hx₁ hy₀ hy₁
  refine ⟨@addInt_eq s.x (-8) (by omega) (by omega), ?_⟩
  refine ⟨?_, hy, ⟨?_, ?_, ?_, ?_⟩, hcells⟩ <;> dsimp only <;> omega

theorem backspace_inv (hw : WholeCells width height) (hwidth : 8 ≤ width)
    (h : Placed width height s) :
    ∃ s', backspace (framebufferInit width height) s = some s' ∧ Inv width height s' := by
  rw [backspace]
  by_cases hzero : s.x = 0
  · rw [if_pos hzero]
    by_cases hyzero : s.y = 0
    · rw [if_pos hyzero]
      exact ⟨s, rfl, h.inv⟩
    · obtain ⟨hup, hlast, hplaced⟩ := h.up hw hwidth hyzero
      rw [if_neg hyzero, hup]
      show ∃ s', blankLeft _ ⟨CInt.toInt32 ((width : Int) - 8), _, _⟩ = some s' ∧ _
      rw [hlast]
      exact blankLeft_inv hw hplaced
  · obtain ⟨hleft, hplaced⟩ := h.left hw hzero
    rw [if_neg hzero, hleft]
    exact blankLeft_inv hw hplaced

/-- Four glyphs, as for a tab. -/
theorem printGlyphs_inv (hw : WholeCells width height) (hwidth : 8 ≤ width)
    (hheight : 16 ≤ height) (l : List Nat) : ∀ s, Inv width height s →
    ∃ s', l.foldlM (fun s _ => printGlyph (framebufferInit width height) s) s = some s' ∧
      Inv width height s' := by
  induction l with
  | nil => exact fun s h => ⟨s, rfl, h⟩
  | cons i l ih =>
      intro s h
      obtain ⟨s₁, hs₁, h₁⟩ := printGlyph_inv hw hwidth hheight h
      obtain ⟨s₂, hs₂, h₂⟩ := ih s₁ h₁
      exact ⟨s₂, by rw [List.foldlM_cons, hs₁]; exact hs₂, h₂⟩

/-- **A character** keeps the invariant. -/
theorem termPrintChar_inv (hw : WholeCells width height) (hwidth : 8 ≤ width)
    (hheight : 16 ≤ height) (h : Inv width height s) (unicode : Nat) :
    ∃ s', termPrintChar (framebufferInit width height) s unicode = some s' ∧
      Inv width height s' := by
  obtain ⟨s₁, hs₁, hplaced⟩ := place_placed hw hwidth hheight h
  unfold termPrintChar
  split
  · exact ⟨s₁, hs₁, hplaced.inv⟩
  · obtain ⟨s₂, hs₂, h₂⟩ := newLine_inv hw hplaced
    exact ⟨s₂, by rw [hs₁]; exact hs₂, h₂⟩
  · obtain ⟨s₂, hs₂, h₂⟩ := printGlyphs_inv hw hwidth hheight (List.range 4) s₁ hplaced.inv
    exact ⟨s₂, by rw [hs₁]; exact hs₂, h₂⟩
  · obtain ⟨s₂, hs₂, h₂⟩ := backspace_inv hw hwidth hplaced
    exact ⟨s₂, by rw [hs₁]; exact hs₂, h₂⟩
  · exact printGlyph_inv hw hwidth hheight h

/-- **A text** keeps it, from the console of `framebuffer_init` on. -/
theorem printText_inv (hw : WholeCells width height) (hwidth : 8 ≤ width) (hheight : 16 ≤ height)
    (text : List Nat) : ∀ s, Inv width height s →
    ∃ s', text.foldlM (termPrintChar (framebufferInit width height)) s = some s' ∧
      Inv width height s' := by
  induction text with
  | nil => exact fun s h => ⟨s, rfl, h⟩
  | cons unicode text ih =>
      intro s h
      obtain ⟨s₁, hs₁, h₁⟩ := termPrintChar_inv hw hwidth hheight h unicode
      obtain ⟨s₂, hs₂, h₂⟩ := ih s₁ h₁
      exact ⟨s₂, by rw [List.foldlM_cons, hs₁]; exact hs₂, h₂⟩

theorem bootConsole_inv (width height : Nat) : Inv width height bootConsole := by
  refine ⟨Int.dvd_zero 8, Int.dvd_zero 16, Int.le_refl 0, Int.le_refl 0, Int.natCast_nonneg width,
    Int.natCast_nonneg height, fun _ => rfl, fun c hc => ?_⟩
  cases hc

theorem onScreen_of_wholeCells (hw : WholeCells width height) (hwidth : 8 ≤ width)
    (hheight : 16 ≤ height) (text : List Nat) : OnScreen width height text := by
  obtain ⟨s, hs, hinv⟩ :=
    printText_inv hw hwidth hheight text bootConsole (bootConsole_inv width height)
  exact ⟨s, hs, hinv.cells⟩

end WholeCells

/-! ### Texts that leave the screen -/

section Leaving

variable {width height : Nat}

/-- A text and one more character. -/
theorem printText_concat {text : List Nat} {s : Console} (unicode : Nat)
    (h : printText width height text = some s) :
    printText width height (text ++ [unicode]) =
      termPrintChar (framebufferInit width height) s unicode := by
  rw [printText] at h
  rw [printText, List.foldlM_append, h]
  cases hc : termPrintChar (framebufferInit width height) s unicode <;>
    simp [List.foldlM_cons, hc]

/-- At a place where the cell fits, nothing is moved. -/
theorem place_eq {s : Console} (hx₀ : 0 ≤ s.x) (hx₁ : s.x + 8 ≤ width)
    (hx : s.x + 8 < 2147483648) (hy₀ : 0 ≤ s.y) (hy : s.y < height) (hy₁ : s.y < 2147483648) :
    place (framebufferInit width height) s = some s := by
  have hright : addInt s.x (framebufferInit width height).glyphWidth = some (s.x + 8) :=
    @addInt_eq s.x 8 (by omega) (by omega)
  have hux := toUInt64_eq (a := s.x + 8) (by omega) hx
  have huy := toUInt64_eq hy₀ hy₁
  have hno : ¬ CInt.toUInt64 (s.x + 8) > (framebufferInit width height).framebufferWidth := by
    show ¬ CInt.toUInt64 (s.x + 8) > width
    omega
  have hno' : ¬ CInt.toUInt64 s.y ≥ (framebufferInit width height).framebufferHeight := by
    show ¬ CInt.toUInt64 s.y ≥ height
    omega
  rw [place, hright]
  simp only [Option.bind_eq_bind, Option.bind_some, if_neg hno, scroll, if_neg hno']
  rfl

theorem newLine_eq {x y y' : Int} {cells : List (Int × Int)} (h : addInt y 16 = some y') :
    newLine (framebufferInit width height) ⟨x, y, cells⟩ = some ⟨0, y', cells⟩ := by
  have hdown : addInt y (framebufferInit width height).glyphHeight = some y' := h
  simp only [newLine, hdown, Option.bind_eq_bind, Option.bind_some]
  rfl

theorem newLine_none {x y : Int} {cells : List (Int × Int)} (h : addInt y 16 = none) :
    newLine (framebufferInit width height) ⟨x, y, cells⟩ = none := by
  have hdown : addInt y (framebufferInit width height).glyphHeight = none := h
  simp only [newLine, hdown, Option.bind_eq_bind, Option.bind_none]

section Placed

variable {g : GraphicBuffer} {s : Console} (h : place g s = some s)

include h

theorem termPrintChar_newLine : termPrintChar g s 10 = newLine g s := by
  simp only [termPrintChar, h, Option.bind_eq_bind, Option.bind_some]

theorem termPrintChar_backspace : termPrintChar g s 8 = backspace g s := by
  simp only [termPrintChar, h, Option.bind_eq_bind, Option.bind_some]

/-- The letter `A`. -/
theorem termPrintChar_glyph : termPrintChar g s 65 = ssfnPutc s := by
  simp only [termPrintChar, printGlyph, h, Option.bind_eq_bind, Option.bind_some]

end Placed

/-- Lines of nothing: the cursor goes down the left edge. -/
theorem printText_newLines (hwidth : 8 ≤ width) (k : Nat) (hk : 16 * k < height + 16)
    (hlt : 16 * k < 2147483648) :
    printText width height (List.replicate k 10) = some ⟨0, (16 * k : Nat), []⟩ := by
  induction k with
  | zero => rfl
  | succ k ih =>
      have hplace : place (framebufferInit width height) ⟨0, (16 * k : Nat), []⟩ =
          some ⟨0, (16 * k : Nat), []⟩ := by
        refine place_eq (Int.le_refl 0) ?_ ?_ ?_ ?_ ?_ <;> dsimp only <;> omega
      have hdown : addInt (16 * k : Nat) 16 = some (16 * (k + 1) : Nat) := by
        rw [addInt_eq (by omega) (by omega)]
        congr 1
      rw [List.replicate_succ', printText_concat 10 (ih (by omega) (by omega)),
        termPrintChar_newLine hplace, newLine_eq hdown]

/-- Where every text stays on screen, a line fits the cursor's `int`. -/
theorem height_lt_of_onScreen (hwidth : 8 ≤ width)
    (h : OnScreen width height (List.replicate (134217727 + 1) 10)) : height < 2147483648 := by
  by_contra hge
  obtain ⟨s, hs, -⟩ := h
  have hlast := @printText_newLines width height hwidth 134217727
    (by omega) (by omega)
  have hplace : place (framebufferInit width height) ⟨0, (16 * 134217727 : Nat), []⟩ =
      some ⟨0, (16 * 134217727 : Nat), []⟩ := by
    refine place_eq (Int.le_refl 0) ?_ ?_ ?_ ?_ ?_ <;> dsimp only <;> omega
  have hover : addInt (16 * 134217727 : Nat) 16 = none := if_neg (by omega)
  rw [List.replicate_succ', printText_concat 10 hlast, termPrintChar_newLine hplace,
    newLine_none hover] at hs
  cases hs

/-- A line of letters: the cursor goes along the upper edge. -/
theorem printText_line (hheight : 0 < height) (k : Nat) (hk : 8 * k ≤ width)
    (hlt : 8 * k < 2147483648) :
    ∃ cells, printText width height (List.replicate k 65) = some ⟨(8 * k : Nat), 0, cells⟩ := by
  induction k with
  | zero => exact ⟨[], rfl⟩
  | succ k ih =>
      obtain ⟨cells, hcells⟩ := ih (by omega) (by omega)
      have hplace : place (framebufferInit width height) ⟨(8 * k : Nat), 0, cells⟩ =
          some ⟨(8 * k : Nat), 0, cells⟩ := by
        refine place_eq ?_ ?_ ?_ (Int.le_refl 0) ?_ ?_ <;> dsimp only <;> omega
      have hright : addInt (8 * k : Nat) 8 = some (8 * (k + 1) : Nat) := by
        rw [addInt_eq (by omega) (by omega)]
        congr 1
      refine ⟨((8 * k : Nat), 0) :: cells, ?_⟩
      rw [List.replicate_succ', printText_concat 65 hcells, termPrintChar_glyph hplace]
      simp only [ssfnPutc, hright, Option.bind_eq_bind, Option.bind_some]
      rfl

theorem width_lt_of_onScreen (hheight : 0 < height)
    (h : OnScreen width height (List.replicate (268435455 + 1) 65)) :
    width + 8 < 2147483648 := by
  by_contra hge
  obtain ⟨s, hs, -⟩ := h
  obtain ⟨cells, hlast⟩ := @printText_line width height hheight 268435455 (by omega)
    (by omega)
  have hover : addInt (8 * 268435455 : Nat) 8 = none := if_neg (by omega)
  have hnone : place (framebufferInit width height) ⟨(8 * 268435455 : Nat), 0, cells⟩ = none := by
    have hright : addInt (8 * 268435455 : Nat) (framebufferInit width height).glyphWidth = none :=
      hover
    simp only [place, hright, Option.bind_eq_bind, Option.bind_none]
  rw [List.replicate_succ', printText_concat 65 hlast] at hs
  simp only [termPrintChar, printGlyph, hnone, Option.bind_eq_bind, Option.bind_none] at hs
  cases hs

/-- A letter on the last line begun, when it is not a whole one. -/
theorem lines_of_onScreen (hwidth : 8 ≤ width) (hhlt : height < 2147483648)
    (h : OnScreen width height (List.replicate (height / 16) 10 ++ [65])) : 16 ∣ height := by
  by_contra hno
  have hlines := @printText_newLines width height hwidth (height / 16)
    (by omega) (by omega)
  have hplace : place (framebufferInit width height) ⟨0, (16 * (height / 16) : Nat), []⟩ =
      some ⟨0, (16 * (height / 16) : Nat), []⟩ := by
    refine place_eq (Int.le_refl 0) ?_ ?_ ?_ ?_ ?_ <;> dsimp only <;> omega
  obtain ⟨s, hs, hcells⟩ := h
  rw [printText_concat 65 hlines, termPrintChar_glyph hplace] at hs
  have hs : some (⟨8, (16 * (height / 16) : Nat), [(0, (16 * (height / 16) : Nat))]⟩ : Console) =
      some s := hs
  cases hs
  have hin := (hcells _ List.mem_cons_self).2.2.2
  dsimp only at hin
  omega

theorem blankLeft_eq {x y : Int} {cells : List (Int × Int)} (h₀ : -2147483648 ≤ x)
    (h₁ : x + 8 < 2147483648) : blankLeft (framebufferInit width height) ⟨x, y, cells⟩ =
      some ⟨x, y, (x, y) :: cells⟩ := by
  have hright : addInt x 8 = some (x + 8) := addInt_eq (by omega) h₁
  have hleft : addInt (x + 8) (-(framebufferInit width height).glyphWidth) = some x := by
    have hsum := @addInt_eq (x + 8) (-8) (by omega) (by omega)
    rw [show x + 8 + -8 = x by omega] at hsum
    exact hsum
  simp only [blankLeft, ssfnPutc, hright, Option.bind_eq_bind, Option.bind_some]
  rw [show (pure (⟨x + 8, y, (x, y) :: cells⟩ : Console) : Option Console) = some _ from rfl,
    Option.bind_some, hleft]
  rfl

/-- A backspace in a line goes back by one glyph, wherever that is. -/
theorem backspace_eq {x y : Int} {cells : List (Int × Int)} (hne : x ≠ 0) (h₀ : 0 ≤ x)
    (h₁ : x < 2147483648) : backspace (framebufferInit width height) ⟨x, y, cells⟩ =
      some ⟨x - 8, y, (x - 8, y) :: cells⟩ := by
  have hleft : addInt x (-(framebufferInit width height).glyphWidth) = some (x - 8) :=
    @addInt_eq x (-8) (by omega) (by omega)
  rw [backspace, if_neg hne]
  simp only [hleft, Option.bind_eq_bind, Option.bind_some]
  exact blankLeft_eq (by omega) (by omega)

/-- Backspaces from the start of the second line: over the end of the first, and along it. -/
theorem printText_backspaces (hwlt : width < 2147483648) (hheight : 16 < height) (k : Nat)
    (hk : 8 * k + 8 ≤ width) :
    ∃ cells, printText width height (10 :: List.replicate (k + 1) 8) =
      some ⟨(width - 8 - 8 * k : Nat), 0, cells⟩ := by
  induction k with
  | zero =>
      have hdown := @printText_newLines width height (by omega) 1 (by omega)
        (by omega)
      have hplace : place (framebufferInit width height) ⟨0, 16, []⟩ = some ⟨0, 16, []⟩ := by
        refine place_eq (Int.le_refl 0) ?_ ?_ ?_ ?_ ?_ <;> dsimp only <;> omega
      have hlast : CInt.toInt32 ((width : Int) - 8) = (width - 8 : Nat) := by
        rw [CInt.toInt32_of_range (by omega) (by omega)]
        omega
      have hback : backspace (framebufferInit width height) ⟨0, 16, []⟩ =
          blankLeft (framebufferInit width height) ⟨CInt.toInt32 ((width : Int) - 8), 0, []⟩ := rfl
      refine ⟨[((width - 8 : Nat), 0)], ?_⟩
      have hone := @printText_concat width height [10] _ 8 hdown
      rw [show (10 :: List.replicate (0 + 1) 8 : List Nat) = [10] ++ [8] from rfl, hone]
      have hcast : ((16 * 1 : Nat) : Int) = 16 := rfl
      rw [hcast, termPrintChar_backspace hplace, hback, hlast, blankLeft_eq (by omega) (by omega)]
      rfl
  | succ k ih =>
      obtain ⟨cells, hcells⟩ := ih (by omega)
      have hplace : place (framebufferInit width height) ⟨(width - 8 - 8 * k : Nat), 0, cells⟩ =
          some ⟨(width - 8 - 8 * k : Nat), 0, cells⟩ := by
        refine place_eq ?_ ?_ ?_ (Int.le_refl 0) ?_ ?_ <;> dsimp only <;> omega
      have hx : ((width - 8 - 8 * k : Nat) : Int) - 8 = (width - 8 - 8 * (k + 1) : Nat) := by omega
      refine ⟨((width - 8 - 8 * (k + 1) : Nat), 0) :: cells, ?_⟩
      rw [List.replicate_succ', ← List.cons_append, printText_concat 8 hcells,
        termPrintChar_backspace hplace, backspace_eq (by omega) (by omega) (by omega), hx]

/-- Backspaces go past the left edge, when the line is not a whole one. -/
theorem columns_of_onScreen (hwidth : 8 ≤ width) (hwlt : width + 8 < 2147483648)
    (hheight : 16 < height)
    (h : OnScreen width height (10 :: List.replicate (width / 8 - 1 + 1) 8 ++ [8])) :
    8 ∣ width := by
  by_contra hno
  obtain ⟨cells, hcells⟩ := @printText_backspaces width height (by omega) hheight (width / 8 - 1)
    (by omega)
  have hplace : place (framebufferInit width height)
      ⟨(width - 8 - 8 * (width / 8 - 1) : Nat), 0, cells⟩ =
        some ⟨(width - 8 - 8 * (width / 8 - 1) : Nat), 0, cells⟩ := by
    refine place_eq ?_ ?_ ?_ (Int.le_refl 0) ?_ ?_ <;> dsimp only <;> omega
  obtain ⟨s, hs, hin⟩ := h
  rw [printText_concat 8 hcells, termPrintChar_backspace hplace,
    backspace_eq (by omega) (by omega) (by omega)] at hs
  cases hs
  have hleft := (hin _ List.mem_cons_self).1
  dsimp only at hleft
  omega

end Leaving

/-- **Console glyphs stay on screen**: for every text, exactly on a framebuffer of whole cells. -/
theorem onScreen_iff {width height : Nat} (hwidth : 8 ≤ width) (hheight : 32 ≤ height) :
    (∀ text, OnScreen width height text) ↔ WholeCells width height := by
  constructor
  · intro h
    have hwlt := width_lt_of_onScreen (by omega) (h _)
    have hhlt := height_lt_of_onScreen hwidth (h _)
    exact ⟨columns_of_onScreen hwidth hwlt (by omega) (h _), lines_of_onScreen hwidth hhlt (h _),
      hwlt, hhlt⟩
  · exact fun hw => onScreen_of_wholeCells hw hwidth (by omega)

theorem onScreen_1024_768 : WholeCells 1024 768 ∧ ∀ text, OnScreen 1024 768 text :=
  have hcells : WholeCells 1024 768 := ⟨by decide, by decide, by decide, by decide⟩
  ⟨hcells, (onScreen_iff (by decide) (by decide)).mpr hcells⟩

/-- 1920 by 1080 pixels are 67 lines and a half: the letter behind 67 newlines is cut off. -/
theorem not_onScreen_1920_1080 : ¬ OnScreen 1920 1080 (List.replicate 67 10 ++ [65]) := by
  intro h
  have hlines : 16 ∣ 1080 := @lines_of_onScreen 1920 1080 (by decide) (by decide) h
  exact absurd hlines (by decide)

end FrazzOS.Graphics

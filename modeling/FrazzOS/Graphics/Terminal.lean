import FrazzOS.Graphics.Framebuffer
import FrazzOS.Ssfn.Font
import FrazzOS.Support.Paint

/-!
# Graphics — Terminal

The console of `drivers/graphics/framebuffer.c` with its pixels, and with the `ssfn_putc` that the
kernel is linked with.

The cursor is that of `Framebuffer`, where `ssfn_putc` is assumed to go 8 pixels to the right.

* `paints_termSetBg`: `framebuffer_init` blanks the screen.
* `Follows`: what a step does to the cursor is what the one of `Framebuffer` does, and nothing but
  pixels of the screen changes.
* `cursor_text`: so it is over a text that the font has, and whose characters do go 8 pixels to the
  right.
-/

namespace FrazzOS.Graphics

open Ssfn Loops Paint Faults

def defaultBg : BitVec 32 := 0x0b060f

/-- The framebuffer that Limine has set up. -/
structure Video where
  width : Nat
  height : Nat
  pitch : Nat
  fits : height * pitch ≤ 18446744073709551616

/-- `gtx_buffer`, for the cursor. -/
def Video.buffer (v : Video) : GraphicBuffer := framebufferInit v.width v.height

/-- `gtx_buffer`, for the pixels. -/
def Video.screen (v : Video) : Screen where
  framebufferWidth := v.width
  framebufferHeight := v.height
  pitch := v.pitch
  glyphHeight := 16
  glyph_lt := glyphHeight_lt
  fits := v.fits

/-- The cursor in `ssfn_dst`, and the framebuffer. -/
structure Terminal where
  cursor : Console
  fb : Pixels

/-- `ssfn_dst`; its `p` is an `uint16_t`. -/
def Terminal.dst (v : Video) (t : Terminal) (color : BitVec 32) : Dst where
  w := CInt.toInt32 v.width
  h := CInt.toInt32 v.height
  p := v.pitch % 65536
  x := t.cursor.x
  y := t.cursor.y
  fg := color
  bg := defaultBg

/-- `draw_pixel`. -/
def drawPixel (v : Video) (x y : Nat) (color : BitVec 32) (fb : Pixels) : Pixels :=
  Function.update fb (v.screen.index y x) color

/-- `term_set_bg`. -/
def termSetBg (v : Video) (fb : Pixels) : Pixels :=
  countUp (fun i => countUp (fun j => drawPixel v i j defaultBg) 0 v.height) 0 v.width fb

/-- `ssfn_putc`. -/
def Terminal.putc (src : Bytes) (v : Video) (color : BitVec 32) (t : Terminal) (unicode : Nat) :
    Option Terminal := do
  let (error, d, fb) ← Ssfn.ssfnPutc src (t.dst v color) unicode t.fb
  let cells := if error = none then (t.cursor.x, t.cursor.y) :: t.cursor.cells else t.cursor.cells
  return ⟨⟨d.x, d.y, cells⟩, fb⟩

/-- The second `if` of `term_print_char`. -/
def Terminal.scroll (v : Video) (t : Terminal) : Terminal where
  cursor := Graphics.scroll v.buffer t.cursor
  fb :=
    if CInt.toUInt64 t.cursor.y ≥ v.height then termLineShiftUp v.screen defaultBg t.fb else t.fb

/-- The first two `if`s of `term_print_char`. -/
def Terminal.place (v : Video) (t : Terminal) : Option Terminal := do
  let right ← addInt t.cursor.x v.buffer.glyphWidth
  let cursor ← if CInt.toUInt64 right > v.width then newLine v.buffer t.cursor else some t.cursor
  return Terminal.scroll v { t with cursor := cursor }

/-- `x -= glyph_width` around a blank. -/
def Terminal.blankLeft (src : Bytes) (v : Video) (color : BitVec 32) (t : Terminal) :
    Option Terminal := do
  let t ← t.putc src v color 32
  let x ← addInt t.cursor.x (-v.buffer.glyphWidth)
  return { t with cursor := { t.cursor with x := x } }

/-- The branch of `term_print_char` for a backspace. -/
def Terminal.backspace (src : Bytes) (v : Video) (color : BitVec 32) (t : Terminal) :
    Option Terminal :=
  if t.cursor.x = 0 then
    if t.cursor.y = 0 then some t
    else do
      let y ← addInt t.cursor.y (-v.buffer.glyphHeight)
      let x := CInt.toInt32 (v.width - v.buffer.glyphWidth)
      Terminal.blankLeft src v color { t with cursor := { t.cursor with x := x, y := y } }
  else do
    let x ← addInt t.cursor.x (-v.buffer.glyphWidth)
    Terminal.blankLeft src v color { t with cursor := { t.cursor with x := x } }

/-- What `term_print_char` does for a character that it hands on to `ssfn_putc`. -/
def Terminal.printGlyph (src : Bytes) (v : Video) (color : BitVec 32) (t : Terminal)
    (unicode : Nat) : Option Terminal := do
  (← t.place v).putc src v color unicode

/-- `term_print_char`, at the cursor. -/
def Terminal.printChar (src : Bytes) (v : Video) (color : BitVec 32) (t : Terminal)
    (unicode : Nat) : Option Terminal :=
  match unicode with
  | 0 => t.place v
  | 10 => do
    let t ← t.place v
    let cursor ← newLine v.buffer t.cursor
    return { t with cursor := cursor }
  | 9 => do (List.range 4).foldlM (fun t _ => Terminal.printGlyph src v color t 32) (← t.place v)
  | 8 => do Terminal.backspace src v color (← t.place v)
  | _ => t.printGlyph src v color unicode

/-- The terminal that `framebuffer_init` starts with. -/
def bootTerminal (v : Video) (fb : Pixels) : Terminal := ⟨bootConsole, termSetBg v fb⟩

/-- The screen has whole lines, two or more, in rows of whole pixels, and numbers that an `int` has
room for. -/
structure Video.Ok (v : Video) : Prop where
  width : 8 ≤ v.width
  height : 32 ≤ v.height
  lines : 16 ∣ v.height
  width_lt : v.width + 512 < 2147483648
  height_lt : v.height + 16 < 2147483648
  pitch : v.width ≤ v.pitch / 4
  pitch_dvd : 4 ∣ v.pitch
  pitch_lt : v.pitch < 65536
  bytes_lt : v.height * v.pitch < 2147483648

section Dst

variable {v : Video} {t : Terminal} {color : BitVec 32}

theorem Video.Ok.index_eq (hv : v.Ok) {r c : Nat} (hr : r < v.height) (hc : c < v.width) :
    v.screen.index r c = r * (v.pitch / 4) + c :=
  Screen.index_eq (g := v.screen) hr (Nat.lt_of_lt_of_le hc hv.pitch)

theorem Video.Ok.p_eq (hv : v.Ok) : (t.dst v color).p = v.pitch := by
  rw [Terminal.dst]
  exact Nat.mod_eq_of_lt hv.pitch_lt

theorem Video.Ok.s_eq (hv : v.Ok) : (t.dst v color).s = v.pitch / 4 := by
  rw [Dst.s, hv.p_eq]

theorem dst_w : (t.dst v color).w = CInt.toInt32 v.width := by rw [Terminal.dst]

theorem dst_h : (t.dst v color).h = CInt.toInt32 v.height := by rw [Terminal.dst]

/-- `ssfn_dst`, where the cursor is on the screen, or below or beside it by a cell. -/
theorem dst_at (hv : v.Ok) {X Y : Nat} (hx : t.cursor.x = X) (hy : t.cursor.y = Y)
    (hX : X < v.width + 256) (hY : Y ≤ v.height) : (t.dst v color).At v.width v.height X Y := by
  have hwidth := hv.width
  have hwlt := hv.width_lt
  have hheight := hv.height
  have hhlt := hv.height_lt
  refine ⟨?_, ?_, hx, hy, by omega, by omega, ?_, ?_, ?_, by omega, hY, ?_⟩
  · rw [dst_w, CInt.toInt32_of_range (by omega) (by omega)]
    exact Int.natAbs_natCast _
  · rw [dst_h, CInt.toInt32_of_range (by omega) (by omega)]
  · rw [hv.s_eq]
    exact hv.pitch
  · rw [hv.p_eq]
    exact hv.pitch_dvd
  · rw [hv.p_eq]
    exact hv.bytes_lt
  · show defaultBg ≠ 0
    decide

end Dst

theorem scroll_below {v : Video} {t : Terminal} (h : CInt.toUInt64 t.cursor.y ≥ v.height) :
    t.scroll v = ⟨{ t.cursor with x := 0, y := CInt.toInt32 ((v.height : Int) - 16) },
      termLineShiftUp v.screen defaultBg t.fb⟩ := by
  have h' : CInt.toUInt64 t.cursor.y ≥ v.buffer.framebufferHeight := h
  rw [Terminal.scroll, Graphics.scroll, if_pos h, if_pos h']
  rfl

theorem scroll_inside {v : Video} {t : Terminal} (h : ¬ CInt.toUInt64 t.cursor.y ≥ v.height) :
    t.scroll v = t := by
  have h' : ¬ CInt.toUInt64 t.cursor.y ≥ v.buffer.framebufferHeight := h
  rw [Terminal.scroll, Graphics.scroll, if_neg h, if_neg h']

/-! ### The background -/

section Background

variable {v : Video} {fb : Pixels}

/-- `term_set_bg` gives the pixels of the screen the background. -/
theorem paints_termSetBg (v : Video) : Paints (termSetBg v)
    {a | ∃ x y, x < v.width ∧ y < v.height ∧ a = v.screen.index y x} fun _ => defaultBg := by
  have hcolumn := fun i (_ : 0 ≤ i) (_ : i < 0 + v.width) =>
    @paints_countUp _ _ (fun _ => defaultBg) (fun j => drawPixel v i j defaultBg) _ 0 v.height
      fun j _ _ => paints_update rfl
  intro m a
  obtain ⟨hin, hout⟩ := paints_countUp hcolumn m a
  refine ⟨fun ha => hin ?_, fun ha => hout fun hmem => ha ?_⟩
  · obtain ⟨x, y, hx, hy, rfl⟩ := ha
    exact ⟨x, Nat.zero_le x, by omega, y, Nat.zero_le y, by omega, rfl⟩
  · obtain ⟨x, -, hx, y, -, hy, rfl⟩ := hmem
    exact ⟨x, y, by omega, by omega, rfl⟩

end Background

/-! ### The frame -/

/-- Nothing but pixels of the screen differs. -/
def Framed (v : Video) (fb fb' : Pixels) : Prop :=
  ∀ i, (∀ r c, r < v.height → c < v.width → i ≠ v.screen.index r c) → fb' i = fb i

section Frame

variable {v : Video} {t t' : Terminal} {color : BitVec 32} {fb fb₁ fb₂ : Pixels}

theorem Framed.refl (v : Video) (fb : Pixels) : Framed v fb fb := fun _ _ => rfl

theorem Framed.trans (h : Framed v fb fb₁) (h₁ : Framed v fb₁ fb₂) : Framed v fb fb₂ :=
  fun i hi => (h₁ i hi).trans (h i hi)

/-- What is drawn is cut off at the edges of the screen. -/
theorem framed_painted (hv : v.Ok) (X Y y : Nat) (pic : Picture) :
    Framed v fb ((t.dst v color).painted v.width v.height X Y pic fb y) := by
  intro i hi
  unfold Dst.painted
  refine if_neg fun hin => ?_
  rw [hv.s_eq] at hin
  refine hi (i / (v.pitch / 4)) (i % (v.pitch / 4)) hin.1.2.2 hin.2.2 ?_
  rw [hv.index_eq hin.1.2.2 hin.2.2, Nat.div_add_mod']

theorem framed_scroll (hv : v.Ok) : Framed v t.fb (t.scroll v).fb := by
  by_cases hbelow : CInt.toUInt64 t.cursor.y ≥ v.height
  · have hheight := hv.height
    rw [scroll_below hbelow]
    exact (scrolled_termLineShiftUp (g := v.screen) defaultBg t.fb hv.pitch
      (show 16 ≤ v.height by omega)).frame
  · rw [scroll_inside hbelow]
    exact Framed.refl v t.fb

theorem framed_place (hv : v.Ok) (h : t.place v = some t') : Framed v t.fb t'.fb := by
  obtain ⟨right, -, h⟩ := Option.bind_eq_some_iff.mp h
  have hscroll : ∀ cursor, Framed v t.fb (Terminal.scroll v { t with cursor := cursor }).fb :=
    fun cursor => framed_scroll hv
  dsimp only at h
  split at h
  · obtain ⟨cursor, -, h⟩ := Option.bind_eq_some_iff.mp h
    obtain rfl := Option.some.inj h
    exact hscroll cursor
  · obtain rfl := Option.some.inj h
    exact hscroll t.cursor

end Frame

/-! ### The cursor -/

/-- The font has the character, and goes 8 pixels to the right behind it. -/
def EightWide (src : Bytes) (unicode : Nat) : Prop :=
  hasMagic src ∧ ∃ chr, findChar src unicode (charactersOffs src) 0 = some chr ∧
    src (chr + 4) = 8 ∧ src (chr + 5) = 0

/-- A step gets the terminal to a cursor as in `Framebuffer`, and only changes pixels of the
screen. -/
def Follows (v : Video) (t : Terminal) (c : Option Console) (o : Option Terminal) : Prop :=
  Yields (fun t' => c = some t'.cursor ∧ Framed v t.fb t'.fb) o

section Cursor

variable {src : Bytes} {v : Video} {color : BitVec 32} {t : Terminal} {unicode : Nat}
  {c : Option Console} {o : Option Terminal}

theorem Follows.refl (v : Video) (t : Terminal) : Follows v t (some t.cursor) (some t) :=
  yields_some ⟨rfl, Framed.refl v t.fb⟩

/-- One step after the other. -/
theorem Follows.bind {f : Terminal → Option Terminal} {g : Console → Option Console}
    (h : Follows v t c o) (hf : ∀ t', c = some t'.cursor → Follows v t' (g t'.cursor) (f t')) :
    Follows v t (c >>= g) (o >>= f) := by
  refine Yields.bind h fun t₁ h₁ => ?_
  rw [h₁.1]
  exact (hf t₁ h₁.1).mono fun t₂ h₂ => ⟨h₂.1, h₁.2.trans h₂.2⟩

theorem putc_of_find {chr X Y : Nat} (hat : (t.dst v color).At v.width v.height X Y)
    (hmagic : hasMagic src) (hchr : findChar src unicode (charactersOffs src) 0 = some chr)
    (hdown : src (chr + 5) = 0) : t.putc src v color unicode = some
      ⟨⟨t.cursor.x + (src (chr + 4)).toNat, t.cursor.y, (t.cursor.x, t.cursor.y) :: t.cursor.cells⟩,
        (t.dst v color).painted v.width v.height X Y (glyph src chr) t.fb v.height⟩ := by
  rw [Terminal.putc, ssfnPutc_of_find hat hmagic hchr hdown]
  rfl

theorem putc_of_none {X Y : Nat} (hat : (t.dst v color).At v.width v.height X Y)
    (hmagic : hasMagic src) (hchr : findChar src unicode (charactersOffs src) 0 = none) :
    t.putc src v color unicode = some t := by
  rw [Terminal.putc, ssfnPutc_of_none hat hmagic hchr]
  rfl

/-- **A glyph** at a place for it. -/
theorem follows_putc (hv : v.Ok) (hchar : EightWide src unicode)
    (h : Placed v.width v.height t.cursor) :
    Follows v t (ssfnPutc t.cursor) (t.putc src v color unicode) := by
  obtain ⟨hmagic, chr, hchr, hx, hy⟩ := hchar
  obtain ⟨hx₀, hx₁, hy₀, hy₁⟩ := h.inside
  simp only at hx₀ hx₁ hy₀ hy₁
  have hwlt := hv.width_lt
  have hat : (t.dst v color).At v.width v.height t.cursor.x.toNat t.cursor.y.toNat :=
    dst_at hv (by omega) (by omega) (by omega) (by omega)
  have hright : addInt t.cursor.x 8 = some (t.cursor.x + 8) := addInt_eq (by omega) (by omega)
  rw [putc_of_find hat hmagic hchr hy, hx, ssfnPutc, hright]
  exact yields_some ⟨rfl, framed_painted hv _ _ _ _⟩

theorem cursor_place (t : Terminal) :
    (t.place v).map Terminal.cursor = place v.buffer t.cursor := by
  rw [Terminal.place, place]
  cases addInt t.cursor.x v.buffer.glyphWidth with
  | none => rfl
  | some right =>
      by_cases hwide : CInt.toUInt64 right > v.width
      · have hwide' : CInt.toUInt64 right > v.buffer.framebufferWidth := hwide
        simp only [Option.bind_eq_bind, Option.bind_some, if_pos hwide, if_pos hwide']
        cases newLine v.buffer t.cursor with
        | none => rfl
        | some cursor => rfl
      · have hwide' : ¬ CInt.toUInt64 right > v.buffer.framebufferWidth := hwide
        simp only [Option.bind_eq_bind, Option.bind_some, if_neg hwide, if_neg hwide']
        rfl

section WholeCells

variable (hv : v.Ok) (hw : WholeCells v.width v.height)

include hv hw

/-- **The first two `if`s.** -/
theorem follows_place (h : Inv v.width v.height t.cursor) :
    Follows v t (place v.buffer t.cursor) (t.place v) ∧
      ∀ s, place v.buffer t.cursor = some s → Placed v.width v.height s := by
  have hheight := hv.height
  obtain ⟨s, hs, hplaced⟩ := place_placed hw hv.width (by omega) h
  have hplace : place v.buffer t.cursor = some s := hs
  rw [hplace]
  refine ⟨?_, fun s' hs' => Option.some.inj hs' ▸ hplaced⟩
  obtain ⟨t', ht', rfl⟩ := Option.map_eq_some_iff.mp ((cursor_place t).trans hplace)
  exact ⟨t', ht', rfl, framed_place hv ht'⟩

theorem follows_printGlyph (hchar : EightWide src unicode) (h : Inv v.width v.height t.cursor) :
    Follows v t (printGlyph v.buffer t.cursor) (t.printGlyph src v color unicode) := by
  obtain ⟨hplace, hplaced⟩ := follows_place hv hw h
  exact hplace.bind fun t' ht' => follows_putc hv hchar (hplaced _ ht')

theorem follows_blankLeft (hblank : EightWide src 32) (h : Placed v.width v.height t.cursor) :
    Follows v t (blankLeft v.buffer t.cursor) (Terminal.blankLeft src v color t) := by
  refine (follows_putc hv hblank h).bind fun t' ht' => ?_
  obtain ⟨s, hs, -, hx, -⟩ := ssfnPutc_inv hw h
  obtain rfl := Option.some.inj (hs.symm.trans ht')
  obtain ⟨hx₀, hx₁, -, -⟩ := h.inside
  simp only at hx₀ hx₁
  have hwlt := hv.width_lt
  have hleft : addInt t'.cursor.x (-v.buffer.glyphWidth) = some (t'.cursor.x - 8) :=
    @addInt_eq t'.cursor.x (-8) (by omega) (by omega)
  rw [hleft]
  exact yields_some ⟨rfl, Framed.refl v t'.fb⟩

/-- **A backspace** at a place for a cell. -/
theorem follows_backspace (hblank : EightWide src 32) (h : Placed v.width v.height t.cursor) :
    Follows v t (backspace v.buffer t.cursor) (Terminal.backspace src v color t) := by
  rw [Terminal.backspace, backspace]
  by_cases hx : t.cursor.x = 0
  · rw [if_pos hx, if_pos hx]
    by_cases hy : t.cursor.y = 0
    · rw [if_pos hy, if_pos hy]
      exact Follows.refl v t
    · obtain ⟨hup, hlast, hplaced⟩ := h.up hw hv.width hy
      have hup' : addInt t.cursor.y (-v.buffer.glyphHeight) = some (t.cursor.y - 16) := hup
      rw [if_neg hy, if_neg hy, hup']
      refine follows_blankLeft (t := ⟨⟨CInt.toInt32 ((v.width : Int) - 8), _, _⟩, t.fb⟩) hv hw
        hblank ?_
      rw [hlast]
      exact hplaced
  · obtain ⟨hleft, hplaced⟩ := h.left hw hx
    have hleft' : addInt t.cursor.x (-v.buffer.glyphWidth) = some (t.cursor.x - 8) := hleft
    rw [if_neg hx, if_neg hx, hleft']
    exact follows_blankLeft (t := ⟨⟨_, _, _⟩, t.fb⟩) hv hw hblank hplaced

/-- The four blanks of a tab. -/
theorem follows_blanks (hblank : EightWide src 32) (l : List Nat)
    (h : Inv v.width v.height t.cursor) :
    Follows v t (l.foldlM (fun s _ => printGlyph v.buffer s) t.cursor)
      (l.foldlM (fun t _ => Terminal.printGlyph src v color t 32) t) := by
  induction l generalizing t with
  | nil => exact Follows.refl v t
  | cons i l ih =>
      have hheight := hv.height
      obtain ⟨s, hs, hinv⟩ := printGlyph_inv hw hv.width (by omega) h
      rw [List.foldlM_cons, List.foldlM_cons]
      refine (follows_printGlyph hv hw hblank h).bind fun t' ht' => ih ?_
      exact Option.some.inj (hs.symm.trans ht') ▸ hinv

end WholeCells

/-- A character that `term_print_char` hands on to `ssfn_putc`. -/
theorem printChar_plain (h : unicode ∉ [0, 8, 9, 10]) (t : Terminal) :
    t.printChar src v color unicode = t.printGlyph src v color unicode := by
  simp only [List.mem_cons, List.not_mem_nil, or_false, not_or] at h
  obtain ⟨h₀, h₈, h₉, h₁₀⟩ := h
  unfold Terminal.printChar
  split
  · exact absurd rfl h₀
  · exact absurd rfl h₁₀
  · exact absurd rfl h₉
  · exact absurd rfl h₈
  · rfl

theorem termPrintChar_plain (h : unicode ∉ [0, 8, 9, 10]) (g : GraphicBuffer) (s : Console) :
    termPrintChar g s unicode = printGlyph g s := by
  simp only [List.mem_cons, List.not_mem_nil, or_false, not_or] at h
  obtain ⟨h₀, h₈, h₉, h₁₀⟩ := h
  unfold termPrintChar
  split
  · exact absurd rfl h₀
  · exact absurd rfl h₁₀
  · exact absurd rfl h₉
  · exact absurd rfl h₈
  · rfl

/-- **A character** of `term_print_char`. -/
theorem follows_printChar (hv : v.Ok) (hw : WholeCells v.width v.height) (hblank : EightWide src 32)
    (hchar : unicode ∈ [0, 8, 9, 10] ∨ EightWide src unicode)
    (h : Inv v.width v.height t.cursor) :
    Follows v t (termPrintChar v.buffer t.cursor unicode) (t.printChar src v color unicode) := by
  obtain ⟨hplace, hplaced⟩ := follows_place hv hw h
  by_cases hcontrol : unicode ∈ [0, 8, 9, 10]
  · simp only [List.mem_cons, List.not_mem_nil, or_false] at hcontrol
    rcases hcontrol with rfl | rfl | rfl | rfl
    · exact hplace
    · exact hplace.bind fun t' ht' => follows_backspace hv hw hblank (hplaced _ ht')
    · exact hplace.bind fun t' ht' =>
        follows_blanks hv hw hblank (List.range 4) (hplaced _ ht').inv
    · refine hplace.bind fun t' ht' => ?_
      obtain ⟨s, hs, -⟩ := newLine_inv hw (hplaced _ ht')
      have hline : newLine v.buffer t'.cursor = some s := hs
      rw [hline]
      exact yields_some ⟨rfl, Framed.refl v t'.fb⟩
  · rw [printChar_plain hcontrol, termPrintChar_plain hcontrol]
    exact follows_printGlyph hv hw (hchar.resolve_left hcontrol) h

/-- **A text**, character by character. -/
theorem follows_text (hv : v.Ok) (hw : WholeCells v.width v.height) (hblank : EightWide src 32)
    (text : List Nat) (htext : ∀ unicode ∈ text, unicode ∈ [0, 8, 9, 10] ∨ EightWide src unicode)
    (h : Inv v.width v.height t.cursor) :
    Follows v t (text.foldlM (termPrintChar v.buffer) t.cursor)
      (text.foldlM (Terminal.printChar src v color) t) := by
  induction text generalizing t with
  | nil => exact Follows.refl v t
  | cons unicode text ih =>
      have hheight := hv.height
      rw [List.forall_mem_cons] at htext
      obtain ⟨s, hs, hinv⟩ := termPrintChar_inv hw hv.width (by omega) h unicode
      rw [List.foldlM_cons, List.foldlM_cons]
      refine (follows_printChar hv hw hblank htext.1 h).bind fun t' ht' => ih htext.2 ?_
      exact Option.some.inj (hs.symm.trans ht') ▸ hinv

/-- **The console with its pixels follows the cursor** of `Framebuffer` over every text whose
characters the font has, where it goes 8 pixels to the right behind each of them: the text is
printed, the cursor and the places of the glyphs are as there, inside of the screen, and nothing but
pixels of the screen is written. -/
theorem cursor_text (hv : v.Ok) (hcolumns : 8 ∣ v.width) (hblank : EightWide src 32)
    (text : List Nat) (htext : ∀ unicode ∈ text, unicode ∈ [0, 8, 9, 10] ∨ EightWide src unicode)
    (h : Inv v.width v.height t.cursor) : ∃ t',
      text.foldlM (Terminal.printChar src v color) t = some t' ∧
      text.foldlM (termPrintChar v.buffer) t.cursor = some t'.cursor ∧
      (∀ cell ∈ t'.cursor.cells, Inside v.width v.height cell) ∧
      ∀ i, (∀ r c, r < v.height → c < v.width → i ≠ v.screen.index r c) → t'.fb i = t.fb i := by
  have hwlt := hv.width_lt
  have hhlt := hv.height_lt
  have hheight := hv.height
  have hw : WholeCells v.width v.height := ⟨hcolumns, hv.lines, by omega, by omega⟩
  obtain ⟨t', ht', hcursor, hframe⟩ := @follows_text src v color t hv hw hblank text htext h
  obtain ⟨s, hs, hinv⟩ := printText_inv hw hv.width (by omega) text t.cursor h
  obtain rfl := Option.some.inj (hs.symm.trans hcursor)
  exact ⟨t', ht', hcursor, hinv.cells, hframe⟩

end Cursor

/-- A blank, and one that stands for the letter `A`, both 8 pixels wide. -/
def eightWideTable : List (Nat × Record) :=
  [(0x20, ⟨0, 0, [8, 16, 8, 0], blankRecord.flags_lt, by decide⟩),
    (0x41, ⟨0, 0, [8, 16, 8, 0], blankRecord.flags_lt, by decide⟩)]

/-- The font with that table. -/
def eightWideFont : Bytes := fun i => (fontHeader ++ table 0 eightWideTable).getD i 0

theorem eightWide_eightWideFont {unicode : Nat} (h : unicode ∈ [0x20, 0x41]) :
    EightWide eightWideFont unicode := by
  have htable : Holds eightWideFont (charactersOffs eightWideFont) (table 0 eightWideTable) :=
    holds_behind fontHeader _
  have horder : InOrder 0 eightWideTable :=
    ⟨by decide, by decide, (by decide : 0x41 + 1 ≤ 0x110000)⟩
  have hmem : (unicode, ⟨0, 0, [8, 16, 8, 0], by decide, by decide⟩) ∈ eightWideTable := by
    rcases List.mem_cons.mp h with rfl | h
    · exact List.mem_cons_self
    · rw [List.mem_singleton.mp h]
      exact List.mem_cons_of_mem _ List.mem_cons_self
  obtain ⟨chr, hchr, hrecord⟩ := (findChar_from _ horder htable).1 _ hmem
  exact ⟨by decide, chr, hchr, hrecord 4 8 rfl, hrecord 5 0 rfl⟩

def smallVideo : Video := ⟨640, 480, 2560, by decide⟩

theorem ok_smallVideo : smallVideo.Ok :=
  ⟨by decide, by decide, by decide, by decide, by decide, by decide, by decide, by decide,
    by decide⟩

theorem cursor_text_letters : ∃ t',
    [0x41, 9, 0x41, 10, 8].foldlM (Terminal.printChar eightWideFont smallVideo 0)
      ⟨bootConsole, fun _ => 0⟩ = some t' ∧
    [0x41, 9, 0x41, 10, 8].foldlM (termPrintChar smallVideo.buffer) bootConsole =
      some t'.cursor ∧
    (∀ cell ∈ t'.cursor.cells, Inside 640 480 cell) ∧
    ∀ i, (∀ r c, r < 480 → c < 640 → i ≠ smallVideo.screen.index r c) → t'.fb i = 0 :=
  cursor_text ok_smallVideo (by decide) (eightWide_eightWideFont (by decide))
    [0x41, 9, 0x41, 10, 8]
    (by
      intro unicode hmem
      by_cases h : unicode = 0x41
      · rw [h]
        exact .inr (eightWide_eightWideFont (by decide))
      · left
        simp only [List.mem_cons, List.not_mem_nil, or_false] at hmem ⊢
        omega)
    (bootConsole_inv 640 480)

end FrazzOS.Graphics

import FrazzOS.Graphics.Terminal

/-!
# Graphics — Page

What the console shows of a text.

A text is set on a page that has no end: line below line, a glyph behind the other one, over what is
there already.  The console of `drivers/graphics/framebuffer.c`, which draws on the framebuffer and
moves its pixels up in place, shows the last lines of it, from `top` on.

* `shows_place`, `shows_putc`: the steps of `term_print_char`.
* `shows_printChar`: a character.
* `shows_text`: a text without backspaces.
-/

namespace FrazzOS.Graphics

open Ssfn

/-- What counts of a font: how far a character moves the cursor, and what it looks like. -/
structure Face where
  advance : Nat → Nat
  picture : Nat → Picture

/-- A glyph on the page. -/
structure Mark where
  line : Nat
  x : Nat
  unicode : Nat
  color : BitVec 32

/-- The place of the cursor, the last line that is in use, and the glyphs, the last one first. -/
structure Page where
  line : Nat
  x : Nat
  bottom : Nat
  marks : List Mark

namespace Page

def blank : Page := ⟨0, 0, 0, []⟩

def newLine (p : Page) : Page := { p with line := p.line + 1, x := 0 }

/-- A place for a cell: where it has no room in the line, the next line is begun. -/
def place (width : Nat) (p : Page) : Page :=
  let p := if p.x + 8 > width then p.newLine else p
  { p with bottom := p.line }

def put (face : Face) (color : BitVec 32) (p : Page) (unicode : Nat) : Page :=
  { p with x := p.x + face.advance unicode, marks := ⟨p.line, p.x, unicode, color⟩ :: p.marks }

def printGlyph (face : Face) (width : Nat) (color : BitVec 32) (p : Page) (unicode : Nat) : Page :=
  (p.place width).put face color unicode

/-- A character; a tab is four blanks. -/
def printChar (face : Face) (width : Nat) (color : BitVec 32) (p : Page) (unicode : Nat) : Page :=
  match unicode with
  | 0 => p.place width
  | 10 => (p.place width).newLine
  | 9 => (List.range 4).foldl (fun p _ => p.printGlyph face width color 32) (p.place width)
  | _ => p.printGlyph face width color unicode

/-- The page that a text is set on. -/
def ofText (face : Face) (width : Nat) (color : BitVec 32) (text : List Nat) : Page :=
  text.foldl (printChar face width color) blank

/-- What a glyph has at the row `y` of the line `line`, in the column `x` of the page. -/
def ink (face : Face) (line y x : Nat) (m : Mark) : Option (BitVec 32) :=
  if m.line = line ∧ m.x ≤ x then
    (face.picture m.unicode y (x - m.x)).map fun b => if b then m.color else defaultBg
  else none

/-- The colour there: the one of the last glyph that has any. -/
def pixel (face : Face) (p : Page) (line y x : Nat) : BitVec 32 :=
  (p.marks.findSome? (ink face line y x)).getD defaultBg

/-- The first one of `lines` lines on the screen. -/
def top (lines : Nat) (p : Page) : Nat := p.bottom + 1 - lines

end Page

/-- The face of a font. -/
def face (src : Bytes) : Face where
  advance unicode :=
    match findChar src unicode (charactersOffs src) 0 with
    | none => 0
    | some chr => (src (chr + 4)).toNat
  picture unicode :=
    match findChar src unicode (charactersOffs src) 0 with
    | none => fun _ _ => none
    | some chr => glyph src chr

/-- A font whose characters go to the right, and are at most 16 pixels high. -/
structure Upright (src : Bytes) : Prop where
  magic : hasMagic src
  right : ∀ unicode chr, findChar src unicode (charactersOffs src) 0 = some chr →
    src (chr + 5) = 0
  height : ∀ unicode y x, 16 ≤ y → (face src).picture unicode y x = none

/-- The lines of the screen. -/
def Video.lines (v : Video) : Nat := v.height / 16

/-- The terminal shows the page: its cursor is at that of the page, and its pixels are those of the
last lines. -/
structure Shows (src : Bytes) (v : Video) (t : Terminal) (p : Page) : Prop where
  x : t.cursor.x = p.x
  y : t.cursor.y + 16 * p.top v.lines = 16 * p.line
  bottom_le : p.bottom ≤ p.line
  line_le : p.line ≤ p.bottom + 1
  start : p.line = p.bottom + 1 → p.x = 0
  x_lt : p.x < v.width + 256
  marks : ∀ m ∈ p.marks, m.line ≤ p.bottom
  pixels : ∀ r c, r < v.height → c < v.width →
    t.fb (v.screen.index r c) = p.pixel (face src) (p.top v.lines + r / 16) (r % 16) c

section Page

variable {src : Bytes} {v : Video} {t : Terminal} {p : Page} {color : BitVec 32}

/-- A line below all glyphs is blank. -/
theorem pixel_blank {f : Face} {line y x : Nat} (h : ∀ m ∈ p.marks, m.line < line) :
    p.pixel f line y x = defaultBg := by
  have hnone : p.marks.findSome? (Page.ink f line y x) = none := by
    rw [List.findSome?_eq_none_iff]
    intro m hm
    exact if_neg fun hin => absurd hin.1 (Nat.ne_of_lt (h m hm))
  rw [Page.pixel, hnone]
  rfl

theorem pixel_put {f : Face} {unicode line y x : Nat} :
    (p.put f color unicode).pixel f line y x =
      (Page.ink f line y x ⟨p.line, p.x, unicode, color⟩).getD (p.pixel f line y x) := by
  rw [Page.pixel, Page.put, List.findSome?_cons]
  cases Page.ink f line y x ⟨p.line, p.x, unicode, color⟩ with
  | none => rfl
  | some c => rfl

theorem shows_boot (hv : v.Ok) (fb : Pixels) : Shows src v (bootTerminal v fb) Page.blank := by
  have htop : Page.blank.top v.lines = 0 := by
    have hheight := hv.height
    show 0 + 1 - v.height / 16 = 0
    omega
  refine ⟨rfl, ?_, Nat.le_refl 0, Nat.zero_le 1, fun _ => rfl,
    Nat.lt_of_lt_of_le (by decide) (Nat.le_add_left ..), fun m hm => absurd hm List.not_mem_nil, ?_⟩
  · rw [htop]
    rfl
  · intro r c hr hc
    rw [pixel_blank fun m hm => absurd hm List.not_mem_nil]
    exact (paints_termSetBg v fb _).1 ⟨c, r, hc, hr, rfl⟩

/-- The row of the cursor. -/
theorem Shows.cursor_y (hv : v.Ok) (h : Shows src v t p) :
    0 ≤ t.cursor.y ∧ t.cursor.y ≤ v.height := by
  have hy := h.y
  have hbottom := h.bottom_le
  have hline := h.line_le
  have hlines := hv.lines
  have hheight := hv.height
  unfold Page.top Video.lines at hy
  omega

/-- The cursor goes to the next line. -/
theorem shows_newLine (hv : v.Ok) (h : Shows src v t p) (hline : p.line = p.bottom) :
    ∃ cursor, newLine v.buffer t.cursor = some cursor ∧
      Shows src v { t with cursor := cursor } p.newLine := by
  have hy := h.y
  have hheight := hv.height_lt
  obtain ⟨hlo, hhi⟩ := h.cursor_y hv
  have hdown : addInt t.cursor.y v.buffer.glyphHeight = some (t.cursor.y + 16) :=
    @addInt_eq t.cursor.y 16 (by omega) (by omega)
  refine ⟨{ t.cursor with x := 0, y := t.cursor.y + 16 }, ?_, ?_⟩
  · rw [newLine, hdown]
    rfl
  · refine ⟨rfl, ?_, Nat.le_succ_of_le h.bottom_le, ?_, fun _ => rfl,
      Nat.add_pos_right v.width (by decide), h.marks, h.pixels⟩
    · show t.cursor.y + 16 + 16 * (p.top v.lines : Int) = 16 * (p.line + 1 : Nat)
      push_cast
      omega
    · show p.line + 1 ≤ p.bottom + 1
      omega

/-- Where the cursor is below the screen, the screen goes up. -/
theorem shows_scroll (hv : v.Ok) (h : Shows src v t p) :
    Shows src v (t.scroll v) { p with bottom := p.line } := by
  have hy := h.y
  have hbottom := h.bottom_le
  have hline := h.line_le
  have hheight := hv.height
  have hhlt := hv.height_lt
  have hlines := hv.lines
  obtain ⟨hlo, hhi⟩ := h.cursor_y hv
  have hu : (CInt.toUInt64 t.cursor.y : Int) = t.cursor.y := toUInt64_eq hlo (by omega)
  have hmarks : ∀ m ∈ p.marks, m.line ≤ p.line := fun m hm => (h.marks m hm).trans hbottom
  by_cases hbelow : CInt.toUInt64 t.cursor.y ≥ v.height
  · have hlast : CInt.toInt32 ((v.height : Int) - 16) = v.height - 16 :=
      CInt.toInt32_of_range (by omega) (by omega)
    have htop : p.line + 1 - v.lines = p.top v.lines + 1 := by
      unfold Page.top Video.lines at hy ⊢
      omega
    have hstart : p.line = p.bottom + 1 := by
      unfold Page.top Video.lines at hy
      omega
    rw [scroll_below hbelow, hlast]
    refine ⟨?_, ?_, Nat.le_refl _, Nat.le_succ _, fun hne => absurd hne (Nat.ne_of_lt ?_), h.x_lt,
      hmarks, fun r c hr hc => ?_⟩
    · show (0 : Int) = p.x
      rw [h.start hstart]
      rfl
    · show (v.height : Int) - 16 + 16 * ((p.line + 1 - v.lines : Nat) : Int) = 16 * (p.line : Int)
      rw [htop]
      push_cast
      omega
    · exact Nat.lt_succ_self _
    · have hshift := scrolled_termLineShiftUp (g := v.screen) defaultBg t.fb hv.pitch
        (show 16 ≤ v.height by omega)
      show termLineShiftUp v.screen defaultBg t.fb (v.screen.index r c) =
        p.pixel (face src) (p.line + 1 - v.lines + r / 16) (r % 16) c
      rw [hshift.pixels r c hr hc, shifted, htop]
      show (if r + 16 < v.height then t.fb (v.screen.index (r + 16) c)
        else if 16 ≤ r ∧ r < v.height then defaultBg else _) = _
      by_cases hup : r + 16 < v.height
      · rw [if_pos hup, h.pixels _ c hup hc, Nat.add_mod_right, Nat.add_div_right r (by decide)]
        congr 1
        omega
      · rw [if_neg hup, if_pos (by omega), pixel_blank fun m hm => ?_]
        have hmark := h.marks m hm
        unfold Page.top Video.lines at htop ⊢
        omega
  · have htop : p.line + 1 - v.lines = p.top v.lines := by
      unfold Page.top Video.lines at hy ⊢
      omega
    rw [scroll_inside hbelow]
    refine ⟨h.x, ?_, Nat.le_refl _, Nat.le_succ _, fun hne => absurd hne (Nat.ne_of_lt ?_), h.x_lt,
      hmarks, fun r c hr hc => ?_⟩
    · show t.cursor.y + 16 * ((p.line + 1 - v.lines : Nat) : Int) = 16 * (p.line : Int)
      rw [htop]
      exact hy
    · exact Nat.lt_succ_self _
    · show _ = p.pixel (face src) (p.line + 1 - v.lines + r / 16) (r % 16) c
      rw [htop]
      exact h.pixels r c hr hc

/-- **The first two `if`s** find a place for a cell. -/
theorem shows_place (hv : v.Ok) (h : Shows src v t p) :
    ∃ t', t.place v = some t' ∧ Shows src v t' (p.place v.width) ∧
      (p.place v.width).line = (p.place v.width).bottom ∧ (p.place v.width).x + 8 ≤ v.width := by
  have hx := h.x
  have hxlt := h.x_lt
  have hwidth := hv.width
  have hwlt := hv.width_lt
  have hright : addInt t.cursor.x v.buffer.glyphWidth = some (t.cursor.x + 8) :=
    @addInt_eq t.cursor.x 8 (by omega) (by omega)
  have hu : (CInt.toUInt64 (t.cursor.x + 8) : Int) = t.cursor.x + 8 :=
    toUInt64_eq (by omega) (by omega)
  rw [Terminal.place, hright, Page.place]
  by_cases hwide : p.x + 8 > v.width
  · have hwide' : CInt.toUInt64 (t.cursor.x + 8) > v.width := by omega
    have hline : p.line = p.bottom := by
      have hle := h.line_le
      have hbottom := h.bottom_le
      by_contra hne
      have hstart := h.start (by omega)
      omega
    obtain ⟨cursor, hcursor, hshows⟩ := shows_newLine hv h hline
    simp only [Option.bind_eq_bind, Option.bind_some, if_pos hwide, if_pos hwide', hcursor]
    exact ⟨_, rfl, shows_scroll hv hshows, trivial, by show 0 + 8 ≤ v.width; omega⟩
  · have hwide' : ¬ CInt.toUInt64 (t.cursor.x + 8) > v.width := by omega
    simp only [Option.bind_eq_bind, Option.bind_some, if_neg hwide, if_neg hwide']
    exact ⟨_, rfl, shows_scroll hv h, trivial, by omega⟩

/-- `ssfn_dst`, where the terminal shows a page. -/
theorem Shows.dst_at (hv : v.Ok) (h : Shows src v t p) :
    (t.dst v color).At v.width v.height p.x (16 * (p.line - p.top v.lines)) := by
  have hy := h.y
  have hbottom := h.bottom_le
  obtain ⟨-, hhi⟩ := h.cursor_y hv
  have hlines : 1 ≤ v.lines := by
    have hheight := hv.height
    unfold Video.lines
    omega
  have hrow : t.cursor.y = (16 * (p.line - p.top v.lines) : Nat) := by
    unfold Page.top at hy ⊢
    omega
  exact Graphics.dst_at hv h.x hrow h.x_lt (by omega)

/-- What a glyph leaves of a pixel. -/
theorem Shows.painted (hv : v.Ok) (h : Shows src v t p) (hline : p.line = p.bottom)
    {unicode chr : Nat} (hpic : (face src).picture unicode = glyph src chr)
    (hheight : ∀ y x, 16 ≤ y → glyph src chr y x = none) {r c : Nat} (hr : r < v.height)
    (hc : c < v.width) :
    (t.dst v color).painted v.width v.height p.x (16 * (p.line - p.top v.lines)) (glyph src chr)
        t.fb v.height (v.screen.index r c) =
      (p.put (face src) color unicode).pixel (face src) (p.top v.lines + r / 16) (r % 16) c := by
  have hy := h.y
  have hs : (t.dst v color).s = v.pitch / 4 := hv.s_eq
  have hcs : c < v.pitch / 4 := Nat.lt_of_lt_of_le hc hv.pitch
  have hdiv : v.screen.index r c / (v.pitch / 4) = r := by
    rw [hv.index_eq hr hc, Nat.mul_comm, Nat.mul_add_div (by omega), Nat.div_eq_of_lt hcs,
      Nat.add_zero]
  have hmod : v.screen.index r c % (v.pitch / 4) = c := by
    rw [hv.index_eq hr hc, Nat.mul_comm, Nat.mul_add_mod, Nat.mod_eq_of_lt hcs]
  have htop : p.top v.lines ≤ p.line := by
    have hbottom := h.bottom_le
    have hlines : 32 ≤ v.height := hv.height
    unfold Page.top Video.lines
    omega
  rw [pixel_put, ← h.pixels r c hr hc, Dst.painted, hs, hdiv, hmod, Page.ink]
  dsimp only
  rw [hpic]
  by_cases hrow : p.line = p.top v.lines + r / 16
  · have hin : 16 * (p.line - p.top v.lines) ≤ r ∧
        r < 16 * (p.line - p.top v.lines) + v.height ∧ r < v.height := by omega
    have hsub : r - 16 * (p.line - p.top v.lines) = r % 16 := by omega
    simp only [hin, hsub, ← hrow, hc, and_true, true_and]
    split
    · rfl
    · rfl
  · rw [if_neg (fun hin => hrow hin.1 : ¬ (p.line = p.top v.lines + r / 16 ∧ p.x ≤ c))]
    split
    · rename_i hin
      rw [hheight _ _ (by omega)]
      rfl
    · rfl

/-- `ssfn_putc`, where there is a place for the glyph. -/
theorem Shows.putc_eq (hsrc : Upright src) (hv : v.Ok) (h : Shows src v t p)
    (hline : p.line = p.bottom) (unicode : Nat) :
    ∃ cells fb, t.putc src v color unicode = some
        ⟨⟨((p.x + (face src).advance unicode : Nat) : Int), t.cursor.y, cells⟩, fb⟩ ∧
      (face src).advance unicode < 256 ∧
      ∀ r c, r < v.height → c < v.width → fb (v.screen.index r c) =
        (p.put (face src) color unicode).pixel (face src) (p.top v.lines + r / 16) (r % 16) c := by
  have hat := @Shows.dst_at src v t p color hv h
  cases hchr : findChar src unicode (charactersOffs src) 0 with
  | none =>
      have hpic : (face src).picture unicode = fun _ _ => none := by
        simp only [face, hchr]
      have hadvance : (face src).advance unicode = 0 := by
        simp only [face, hchr]
      rw [putc_of_none hat hsrc.magic hchr, hadvance, Nat.add_zero, ← h.x]
      refine ⟨_, _, rfl, by decide, fun r c hr hc => ?_⟩
      rw [pixel_put, ← h.pixels r c hr hc, Page.ink]
      dsimp only
      rw [hpic]
      split
      · rfl
      · rfl
  | some chr =>
      have hpic : (face src).picture unicode = glyph src chr := by
        simp only [face, hchr]
      have hadvance : (face src).advance unicode = (src (chr + 4)).toNat := by
        simp only [face, hchr]
      have hheight := hsrc.height unicode
      rw [hpic] at hheight
      rw [putc_of_find hat hsrc.magic hchr (hsrc.right unicode chr hchr), hadvance, h.x,
        ← Int.natCast_add]
      exact ⟨_, _, rfl, (src (chr + 4)).isLt,
        fun r c hr hc => h.painted hv hline hpic hheight hr hc⟩

/-- **A glyph**, where there is a place for it. -/
theorem shows_putc (hsrc : Upright src) (hv : v.Ok) (h : Shows src v t p)
    (hline : p.line = p.bottom) (hx : p.x + 8 ≤ v.width) (unicode : Nat) :
    ∃ t', t.putc src v color unicode = some t' ∧
      Shows src v t' (p.put (face src) color unicode) := by
  obtain ⟨cells, fb, hput, hadvance, hpixels⟩ := h.putc_eq hsrc hv hline unicode
  refine ⟨_, hput, rfl, h.y, h.bottom_le, h.line_le, fun hstart => ?_, ?_, ?_, hpixels⟩
  · have hstart : p.line = p.bottom + 1 := hstart
    omega
  · show p.x + (face src).advance unicode < v.width + 256
    omega
  · show ∀ m ∈ _ :: p.marks, m.line ≤ p.bottom
    rw [List.forall_mem_cons]
    exact ⟨Nat.le_of_eq hline, h.marks⟩

theorem shows_printGlyph (hsrc : Upright src) (hv : v.Ok) (h : Shows src v t p) (unicode : Nat) :
    ∃ t', t.printGlyph src v color unicode = some t' ∧
      Shows src v t' (p.printGlyph (face src) v.width color unicode) := by
  obtain ⟨t₁, ht₁, h₁, hline, hx⟩ := shows_place hv h
  rw [Terminal.printGlyph, ht₁]
  exact shows_putc hsrc hv h₁ hline hx unicode

/-- Blanks, as for a tab. -/
theorem shows_blanks (hsrc : Upright src) (hv : v.Ok) (l : List Nat) (h : Shows src v t p) :
    ∃ t', l.foldlM (fun t _ => Terminal.printGlyph src v color t 32) t = some t' ∧
      Shows src v t' (l.foldl (fun p _ => p.printGlyph (face src) v.width color 32) p) := by
  induction l generalizing t p with
  | nil => exact ⟨t, rfl, h⟩
  | cons i l ih =>
      obtain ⟨t₁, ht₁, h₁⟩ := @shows_printGlyph src v t p color hsrc hv h 32
      rw [List.foldlM_cons, ht₁]
      exact ih h₁

/-- A character that is not a control character of the page. -/
theorem Page.printChar_plain {f : Face} {width unicode : Nat} (h : unicode ∉ [0, 9, 10]) (p : Page) :
    p.printChar f width color unicode = p.printGlyph f width color unicode := by
  simp only [List.mem_cons, List.not_mem_nil, or_false, not_or] at h
  obtain ⟨h₀, h₉, h₁₀⟩ := h
  unfold Page.printChar
  split
  · exact absurd rfl h₀
  · exact absurd rfl h₁₀
  · exact absurd rfl h₉
  · rfl

/-- **A character.** -/
theorem shows_printChar (hsrc : Upright src) (hv : v.Ok) (h : Shows src v t p) {unicode : Nat}
    (hback : unicode ≠ 8) : ∃ t', t.printChar src v color unicode = some t' ∧
      Shows src v t' (p.printChar (face src) v.width color unicode) := by
  obtain ⟨t₁, ht₁, h₁, hline, hx⟩ := shows_place hv h
  by_cases hcontrol : unicode ∈ [0, 9, 10]
  · simp only [List.mem_cons, List.not_mem_nil, or_false] at hcontrol
    rcases hcontrol with rfl | rfl | rfl
    · exact ⟨t₁, ht₁, h₁⟩
    · obtain ⟨t₂, ht₂, h₂⟩ := @shows_blanks src v t₁ _ color hsrc hv (List.range 4) h₁
      refine ⟨t₂, ?_, h₂⟩
      show Option.bind (t.place v) _ = _
      rw [ht₁]
      exact ht₂
    · obtain ⟨cursor, hcursor, h₂⟩ := shows_newLine hv h₁ hline
      refine ⟨_, ?_, h₂⟩
      show Option.bind (t.place v) _ = _
      rw [ht₁]
      show Option.bind (newLine v.buffer t₁.cursor) _ = _
      rw [hcursor]
      rfl
  · have hglyph : unicode ∉ [0, 8, 9, 10] := by
      simp only [List.mem_cons, List.not_mem_nil, or_false, not_or] at hcontrol ⊢
      exact ⟨hcontrol.1, hback, hcontrol.2⟩
    rw [printChar_plain hglyph, Page.printChar_plain hcontrol]
    exact shows_printGlyph hsrc hv h unicode

/-- **A text**, character by character. -/
theorem shows_text (hsrc : Upright src) (hv : v.Ok) (text : List Nat) (hback : 8 ∉ text)
    (h : Shows src v t p) : ∃ t', text.foldlM (Terminal.printChar src v color) t = some t' ∧
      Shows src v t' (text.foldl (Page.printChar (face src) v.width color) p) := by
  induction text generalizing t p with
  | nil => exact ⟨t, rfl, h⟩
  | cons unicode text ih =>
      rw [List.mem_cons, not_or] at hback
      obtain ⟨t₁, ht₁, h₁⟩ := @shows_printChar src v t p color hsrc hv h _ (Ne.symm hback.1)
      rw [List.foldlM_cons, ht₁]
      exact ih hback.2 h₁

end Page

end FrazzOS.Graphics

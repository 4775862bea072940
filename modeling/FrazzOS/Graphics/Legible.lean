import FrazzOS.Graphics.Text
import Mathlib.Data.List.Pairwise

/-!
# Graphics — Legible

The characters of a text on its page.

Where no glyph is wider than the way to the next one, none is drawn over another one, so each of
them can be read.

* `apart_printChar`: the glyphs of a line stand beside each other.
* `pixel_of_mem`: a glyph on the page is as in the font.
* `unicodes_text`: the glyphs are those of the text, in its order.
* `strings_legible`: so on the screen, for strings that are printed one after the other.
-/

namespace FrazzOS.Graphics

open Memory Klibc Utf8 Ssfn

/-- No glyph is wider than the way to the next one. -/
def Face.Narrow (f : Face) : Prop :=
  ∀ unicode y x, f.advance unicode ≤ x → f.picture unicode y x = none

/-- `m'` is in a line above `m`, or to its left. -/
def Mark.Before (f : Face) (m m' : Mark) : Prop :=
  m'.line < m.line ∨ m'.line = m.line ∧ m'.x + f.advance m'.unicode ≤ m.x

/-- The glyphs stand behind one another, and the cursor behind the last one. -/
structure Page.Apart (f : Face) (p : Page) : Prop where
  marks : p.marks.Pairwise (Mark.Before f)
  cursor : ∀ m ∈ p.marks, m.line < p.line ∨ m.line = p.line ∧ m.x + f.advance m.unicode ≤ p.x

/-- The characters that are drawn for one of the text. -/
def drawn (unicode : Nat) : List Nat :=
  match unicode with
  | 0 => []
  | 10 => []
  | 9 => List.replicate 4 32
  | _ => [unicode]

section Apart

variable {f : Face} {p : Page} {width unicode : Nat} {color : BitVec 32}

theorem Page.Apart.newLine (h : p.Apart f) : p.newLine.Apart f :=
  ⟨h.marks, fun m hm => .inl ((h.cursor m hm).elim Nat.lt_succ_of_lt fun heq =>
    heq.1 ▸ Nat.lt_succ_self _)⟩

theorem Page.Apart.place (h : p.Apart f) : (p.place width).Apart f := by
  rw [Page.place]
  by_cases hwide : p.x + 8 > width
  · rw [if_pos hwide]
    exact ⟨h.newLine.marks, h.newLine.cursor⟩
  · rw [if_neg hwide]
    exact ⟨h.marks, h.cursor⟩

theorem Page.Apart.put (h : p.Apart f) : (p.put f color unicode).Apart f := by
  refine ⟨List.pairwise_cons.mpr ⟨h.cursor, h.marks⟩, ?_⟩
  show ∀ m ∈ _ :: p.marks, _
  rw [List.forall_mem_cons]
  refine ⟨.inr ⟨rfl, Nat.le_refl _⟩, fun m hm => (h.cursor m hm).imp_right fun heq => ?_⟩
  exact ⟨heq.1, Nat.le_add_right_of_le heq.2⟩

theorem Page.Apart.printGlyph (h : p.Apart f) :
    (p.printGlyph f width color unicode).Apart f := h.place.put

/-- **A character** is drawn behind those that are there. -/
theorem apart_printChar (h : p.Apart f) : (p.printChar f width color unicode).Apart f := by
  unfold Page.printChar
  split
  · exact h.place
  · exact h.place.newLine
  · generalize List.range 4 = l
    have hplace : (p.place width).Apart f := h.place
    generalize p.place width = p₁ at hplace
    induction l generalizing p₁ with
    | nil => exact hplace
    | cons i l ih => exact ih _ hplace.printGlyph
  · exact h.printGlyph

/-- A glyph behind `m` has nothing in its place. -/
theorem ink_behind {m m' : Mark} (h : m'.Before f m) {y x : Nat} (hx : x < f.advance m.unicode) :
    Page.ink f m.line y (m.x + x) m' = none := by
  refine if_neg fun hin => ?_
  rcases h with hline | ⟨-, hleft⟩
  · exact Nat.ne_of_gt hline hin.1
  · have hright := hin.2
    omega

/-- Nor has one in front of it. -/
theorem ink_before (hf : f.Narrow) {m m' : Mark} (h : m.Before f m') {y x : Nat} :
    Page.ink f m.line y (m.x + x) m' = none := by
  rcases h with hline | ⟨-, hleft⟩
  · exact if_neg fun hin => Nat.ne_of_lt hline hin.1
  · unfold Page.ink
    split
    · rw [hf _ _ _ (by omega)]
      rfl
    · rfl

/-- **A glyph on the page** is as in the font. -/
theorem pixel_of_mem (hf : f.Narrow) (h : p.Apart f) {m : Mark} (hm : m ∈ p.marks) {y x : Nat}
    (hx : x < f.advance m.unicode) : p.pixel f m.line y (m.x + x) =
      ((f.picture m.unicode y x).map fun b => if b then m.color else defaultBg).getD defaultBg := by
  obtain ⟨behind, before, hsplit⟩ := List.append_of_mem hm
  have hmarks := h.marks
  rw [hsplit, List.pairwise_append, List.pairwise_cons] at hmarks
  obtain ⟨-, ⟨hbefore, -⟩, hbehind⟩ := hmarks
  have hnone : behind.findSome? (Page.ink f m.line y (m.x + x)) = none :=
    List.findSome?_eq_none_iff.mpr fun m' hm' =>
      ink_behind (hbehind m' hm' m List.mem_cons_self) hx
  have hnone' : before.findSome? (Page.ink f m.line y (m.x + x)) = none :=
    List.findSome?_eq_none_iff.mpr fun m' hm' => ink_before hf (hbefore m' hm')
  have hink : Page.ink f m.line y (m.x + x) m =
      (f.picture m.unicode y x).map fun b => if b then m.color else defaultBg := by
    rw [Page.ink, if_pos ⟨rfl, Nat.le_add_right _ _⟩, Nat.add_sub_cancel_left]
  rw [Page.pixel, hsplit, List.findSome?_append, hnone, List.findSome?_cons, hink, hnone']
  cases f.picture m.unicode y x with
  | none => rfl
  | some b => rfl

theorem drawn_plain (h : unicode ∉ [0, 9, 10]) : drawn unicode = [unicode] := by
  simp only [List.mem_cons, List.not_mem_nil, or_false, not_or] at h
  obtain ⟨h₀, h₉, h₁₀⟩ := h
  unfold drawn
  split
  · exact absurd rfl h₀
  · exact absurd rfl h₁₀
  · exact absurd rfl h₉
  · rfl

/-- **The glyphs of a character.** -/
theorem unicodes_printChar : (p.printChar f width color unicode).marks.map Mark.unicode =
    (drawn unicode).reverse ++ p.marks.map Mark.unicode := by
  have hplace : ∀ p : Page, (p.place width).marks = p.marks := fun p => by
    rw [Page.place]
    split <;> rfl
  have hglyph : ∀ (p : Page) (unicode : Nat),
      (p.printGlyph f width color unicode).marks.map Mark.unicode =
        unicode :: p.marks.map Mark.unicode := fun p unicode => by
    rw [Page.printGlyph, Page.put, List.map_cons, hplace]
  by_cases hcontrol : unicode ∈ [0, 9, 10]
  · simp only [List.mem_cons, List.not_mem_nil, or_false] at hcontrol
    rcases hcontrol with rfl | rfl | rfl
    · show (p.place width).marks.map Mark.unicode = _
      rw [hplace]
      rfl
    · show (((List.range 4).foldl (fun p _ => p.printGlyph f width color 32)
        (p.place width)).marks.map Mark.unicode) = _
      simp only [List.range_succ, List.range_zero, List.nil_append, List.cons_append,
        List.foldl_cons, List.foldl_nil, hglyph, hplace]
      rfl
    · show (p.place width).newLine.marks.map Mark.unicode = _
      rw [Page.newLine, hplace]
      rfl
  · rw [Page.printChar_plain hcontrol, drawn_plain hcontrol, hglyph]
    rfl

/-- **The glyphs of a text**, behind those that are there. -/
theorem unicodes_text (text : List Nat) :
    (text.foldl (Page.printChar f width color) p).marks.map Mark.unicode =
      (text.flatMap drawn).reverse ++ p.marks.map Mark.unicode := by
  induction text generalizing p with
  | nil => rfl
  | cons unicode text ih =>
      rw [List.foldl_cons, ih, unicodes_printChar, List.flatMap_cons, List.reverse_append,
        List.append_assoc]

theorem apart_text (text : List Nat) (h : p.Apart f) :
    (text.foldl (Page.printChar f width color) p).Apart f := by
  induction text generalizing p with
  | nil => exact h
  | cons unicode text ih => exact ih (apart_printChar h)

end Apart

theorem apart_blank (f : Face) : Page.blank.Apart f :=
  ⟨List.Pairwise.nil, fun _ hm => absurd hm List.not_mem_nil⟩

/-- **What is printed can be read**: after strings in UTF-8 without backspaces, the glyphs on the
page are those of their characters, in order, and each of them is on the screen as it is in the
font, as far as its line has not left it and it is not cut off at the right edge. -/
theorem strings_legible {src : Bytes} {v : Video} {mem : Mem} (hsrc : Upright src)
    (hnarrow : (face src).Narrow) (hv : v.Ok) (color : BitVec 32) (fb : Pixels)
    (strs : List (BitVec 64 × List Char))
    (hstrs : ∀ q ∈ strs, StringAt mem q.1 (q.2.flatMap encode) ∧ ∀ c ∈ q.2, c.toNat ≠ 8)
    (fuel : Nat) (hfuel : ∀ q ∈ strs, q.2.length < fuel) :
    let p := Page.ofText (face src) v.width color (codes strs)
    p.marks.reverse.map Mark.unicode = (codes strs).flatMap drawn ∧
    ∃ t, strs.foldlM (fun t q => termPrintString mem (Terminal.printChar src v color) fuel q.1 t)
        (bootTerminal v fb) = some t ∧
      ∀ m ∈ p.marks, p.top v.lines ≤ m.line → ∀ y x, y < 16 →
        x < (face src).advance m.unicode → m.x + x < v.width →
        t.fb (v.screen.index (16 * (m.line - p.top v.lines) + y) (m.x + x)) =
          (((face src).picture m.unicode y x).map fun b => if b then m.color else defaultBg).getD
            defaultBg := by
  intro p
  obtain ⟨t, ht, hshows⟩ := @shows_strings src v mem color _ _ hsrc hv strs hstrs fuel hfuel
    (shows_boot hv fb)
  refine ⟨?_, t, ht, fun m hm htop y x hy hx hright => ?_⟩
  · have hmarks := @unicodes_text (face src) Page.blank v.width color (codes strs)
    rw [List.map_reverse]
    show (List.map Mark.unicode ((codes strs).foldl _ Page.blank).marks).reverse = _
    rw [hmarks, List.reverse_append, List.reverse_reverse]
    exact List.nil_append _
  · have hline := hshows.marks m hm
    have hheight := hv.height
    have hlines := hv.lines
    have happart := @apart_text (face src) Page.blank v.width color (codes strs)
      (apart_blank (face src))
    have hrow : 16 * (m.line - p.top v.lines) + y < v.height := by
      have hbottom : m.line ≤ p.bottom := hline
      unfold Page.top Video.lines
      omega
    have hpixel := hshows.pixels _ _ hrow hright
    have hdiv : p.top v.lines + (16 * (m.line - p.top v.lines) + y) / 16 = m.line := by omega
    have hmod : (16 * (m.line - p.top v.lines) + y) % 16 = y := by omega
    rw [hpixel, hmod]
    exact (congrArg (fun line => p.pixel (face src) line y (m.x + x)) hdiv).trans
      (pixel_of_mem hnarrow happart hm hx)

theorem narrow_smallFont : (face smallFont).Narrow := by
  intro unicode y x hx
  simp only [face, findChar_smallFont] at hx ⊢
  by_cases hchr : 65 = unicode
  · rw [if_pos hchr] at hx ⊢
    have hright : 9 ≤ x := hx
    show strips smallFont 25 1 31 0 y x = none
    have hbitmap : ¬ skipped smallFont 25 31 := by decide
    have htop : max 0 (smallFont (31 + 1)).toNat = 0 := by decide
    have hcols : fragCols smallFont (fragOffset smallFont 25 31) = 8 := by decide
    have hwidth : (smallFont (25 + 2)).toNat = 8 := by decide
    have hblank : blankRow 8 x = none := if_neg (by omega)
    rw [strips, if_neg hbitmap]
    dsimp only
    rw [htop, if_neg (Nat.not_lt_zero y)]
    split
    · rw [bitmap, hcols]
      exact if_neg (by omega)
    · rw [strips, hwidth, hblank]
      exact ite_self _
  · rw [if_neg hchr]

/-- Two `A`s on a screen of 640 by 480 pixels. -/
theorem strings_legible_letters :
    let p := Page.ofText (face smallFont) smallVideo.width 0x734ab9 [65, 65]
    p.marks.reverse.map Mark.unicode = [65, 65] ∧
    ∃ t, [((0x1000 : BitVec 64), ['A', 'A'])].foldlM (fun t q =>
        termPrintString (withBytes (fun _ => 0) 0x1000 [65, 65, 0])
          (Terminal.printChar smallFont smallVideo 0x734ab9) 3 q.1 t)
        (bootTerminal smallVideo fun _ => 0) = some t ∧
      ∀ m ∈ p.marks, p.top smallVideo.lines ≤ m.line → ∀ y x, y < 16 →
        x < (face smallFont).advance m.unicode → m.x + x < smallVideo.width →
        t.fb (smallVideo.screen.index (16 * (m.line - p.top smallVideo.lines) + y) (m.x + x)) =
          (((face smallFont).picture m.unicode y x).map
            fun b => if b then m.color else defaultBg).getD defaultBg := by
  have hletters : ['A', 'A'].flatMap encode = [65, 65] := by decide
  have hstring : StringAt (withBytes (fun _ => 0) 0x1000 [65, 65, 0]) 0x1000
      (['A', 'A'].flatMap encode) := by
    rw [hletters]
    exact stringAt_withBytes (s := [65, 65]) (by decide) (by decide)
  refine strings_legible upright_smallFont narrow_smallFont ok_smallVideo 0x734ab9 (fun _ => 0)
    [(0x1000, ['A', 'A'])] ?_ 3 (by decide)
  rw [List.forall_mem_singleton]
  exact ⟨hstring, List.forall_mem_cons.mpr
    ⟨by decide, List.forall_mem_singleton.mpr (by decide)⟩⟩

end FrazzOS.Graphics

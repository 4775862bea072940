import FrazzOS.Support.Loops
import Mathlib.Algebra.Order.Ring.Nat
import Mathlib.Tactic.Common

/-!
# Graphics — Scroll

The pixels of `drivers/graphics/framebuffer.c`, as 32-bit words behind `framebuffer_addr`, and the
loop over them, `term_line_shift_up`.

`term_line_shift_up` moves the rows in place.  Before the row `i` the rows above `i - glyph_height`
have been moved, those from there to `i` are blank where they are below the first `glyph_height`
ones, and the rest are untouched (`shifted`, `Scrolled`).

* `scrolled_shiftPixel`: what moving one pixel keeps.
* `termLineShiftUp_pixel`: scrolling shifts the rows up and leaves what is beside them.
-/

namespace FrazzOS.Graphics

open Loops

/-- The words of the framebuffer, by index. -/
abbrev Pixels := Nat → BitVec 32

/-- The fields of `struct graphic_buffer` that the pixels depend on, for a framebuffer that fits the
address space: so no two indices of it name the same word. -/
structure Screen where
  framebufferWidth : Nat
  framebufferHeight : Nat
  pitch : Nat
  /-- An `int` that is not negative. -/
  glyphHeight : Nat
  glyph_lt : glyphHeight < 2147483648
  fits : framebufferHeight * pitch ≤ 18446744073709551616

/-- The `glyph_height` that `framebuffer_init` sets. -/
theorem glyphHeight_lt : 16 < 2147483648 := by decide

/-- `y * (pitch / sizeof(int)) + x`, in 64 bits. -/
def Screen.index (g : Screen) (y x : Nat) : Nat :=
  (y * (g.pitch / 4) + x) % 18446744073709551616

/-- The body of the loops of `term_line_shift_up`. -/
def shiftPixel (g : Screen) (bg : BitVec 32) (i j : Nat) (fb : Pixels) : Pixels :=
  let currentColor := fb (g.index i j)
  let blanked := Function.update fb (g.index i j) bg
  let above := (i + 18446744073709551616 - g.glyphHeight) % 18446744073709551616
  Function.update blanked (g.index above j) currentColor

/-- `term_line_shift_up`. -/
def termLineShiftUp (g : Screen) (bg : BitVec 32) (fb : Pixels) : Pixels :=
  countUp (fun i => countUp (shiftPixel g bg i) 0 g.framebufferWidth) g.glyphHeight
    (g.framebufferHeight - g.glyphHeight) fb

/-- The pixel `(r, c)` once the rows below `i` have been dealt with. -/
def shifted (g : Screen) (bg : BitVec 32) (fb : Pixels) (i r c : Nat) : BitVec 32 :=
  if r + g.glyphHeight < i then fb (g.index (r + g.glyphHeight) c)
  else if g.glyphHeight ≤ r ∧ r < i then bg
  else fb (g.index r c)

/-- Column `c` has been dealt with above the row `limit c`, in every column of the screen; nothing
else has changed. -/
structure Scrolled (g : Screen) (bg : BitVec 32) (fb : Pixels) (limit : Nat → Nat)
    (fb' : Pixels) : Prop where
  pixels : ∀ r c, r < g.framebufferHeight → c < g.framebufferWidth →
    fb' (g.index r c) = shifted g bg fb (limit c) r c
  frame : ∀ x, (∀ r c, r < g.framebufferHeight → c < g.framebufferWidth → x ≠ g.index r c) →
    fb' x = fb x

/-! ### The index of a pixel -/

section Index

variable {g : Screen} {r r' c c' : Nat}

/-- Inside the framebuffer the index does not wrap. -/
theorem Screen.index_eq (hr : r < g.framebufferHeight) (hc : c < g.pitch / 4) :
    g.index r c = r * (g.pitch / 4) + c := by
  have hrow : (r + 1) * (g.pitch / 4) ≤ g.framebufferHeight * g.pitch :=
    Nat.mul_le_mul hr (Nat.div_le_self _ _)
  have hfits := g.fits
  rw [Nat.add_mul, Nat.one_mul] at hrow
  exact Nat.mod_eq_of_lt (by omega)

/-- Different pixels have different indices. -/
theorem Screen.index_inj (hr : r < g.framebufferHeight) (hr' : r' < g.framebufferHeight)
    (hc : c < g.pitch / 4) (hc' : c' < g.pitch / 4) :
    g.index r c = g.index r' c' ↔ r = r' ∧ c = c' := by
  rw [Screen.index_eq hr hc, Screen.index_eq hr' hc']
  constructor
  · intro h
    have hdiv : ∀ r c, c < g.pitch / 4 → (r * (g.pitch / 4) + c) / (g.pitch / 4) = r := by
      intro r c hc
      rw [Nat.mul_comm, Nat.mul_add_div (by omega), Nat.div_eq_of_lt hc, Nat.add_zero]
    have hrow : r = r' := by rw [← hdiv r c hc, h, hdiv r' c' hc']
    subst hrow
    exact ⟨rfl, Nat.add_left_cancel h⟩
  · rintro ⟨rfl, rfl⟩
    rfl

end Index

section Scroll

variable {g : Screen} {bg : BitVec 32} {fb fb' : Pixels} {limit : Nat → Nat} {i j r c : Nat}

/-- The row that a pixel moves to. -/
theorem Screen.above_eq (hi : g.glyphHeight ≤ i) (hlt : i < g.framebufferHeight)
    (hj : j < g.pitch / 4) :
    (i + 18446744073709551616 - g.glyphHeight) % 18446744073709551616 = i - g.glyphHeight := by
  have hrow : (i + 1) * 1 ≤ g.framebufferHeight * g.pitch :=
    Nat.mul_le_mul hlt (by omega)
  have hfits := g.fits
  omega

/-- One more row. -/
theorem shifted_succ (hi : g.glyphHeight ≤ i) :
    shifted g bg fb (i + 1) r c =
      if r = i - g.glyphHeight then fb (g.index i c)
      else if r = i then bg
      else shifted g bg fb i r c := by
  unfold shifted
  by_cases htop : r = i - g.glyphHeight
  · rw [if_pos htop, if_pos (by omega), htop, Nat.sub_add_cancel hi]
  · rw [if_neg htop]
    by_cases hri : r = i
    · rw [if_pos hri, if_neg (by omega), if_pos (by omega)]
    · have hmoved : r + g.glyphHeight < i + 1 ↔ r + g.glyphHeight < i := by omega
      have hblank : r < i + 1 ↔ r < i := by omega
      rw [if_neg hri]
      simp only [hmoved, hblank]

/-- **Moving one pixel**: the pixel is still there, it goes up, and its place is blank. -/
theorem scrolled_shiftPixel (hw : g.framebufferWidth ≤ g.pitch / 4) (hi : g.glyphHeight ≤ i)
    (hlt : i < g.framebufferHeight) (hj : j < g.framebufferWidth) (hlim : limit j = i)
    (h : Scrolled g bg fb limit fb') :
    Scrolled g bg fb (Function.update limit j (i + 1)) (shiftPixel g bg i j fb') := by
  have hcur : fb' (g.index i j) = fb (g.index i j) := by
    rw [h.pixels i j hlt hj, hlim, shifted, if_neg (by omega), if_neg (by omega)]
  have habove := Screen.above_eq hi hlt (Nat.lt_of_lt_of_le hj hw)
  constructor
  · intro r c hr hc
    have htop : g.index r c = g.index (i - g.glyphHeight) j ↔ r = i - g.glyphHeight ∧ c = j :=
      Screen.index_inj hr (by omega) (Nat.lt_of_lt_of_le hc hw) (Nat.lt_of_lt_of_le hj hw)
    have hrow : g.index r c = g.index i j ↔ r = i ∧ c = j :=
      Screen.index_inj hr hlt (Nat.lt_of_lt_of_le hc hw) (Nat.lt_of_lt_of_le hj hw)
    simp only [shiftPixel, habove, hcur, Function.update_apply, htop, hrow]
    by_cases hcj : c = j
    · subst hcj
      simp only [and_true, if_true]
      rw [shifted_succ hi, h.pixels r c hr hc, hlim]
    · simp only [hcj, and_false, if_false]
      exact h.pixels r c hr hc
  · intro x hx
    simp only [shiftPixel, habove]
    rw [Function.update_of_ne (hx _ j (by omega) hj), Function.update_of_ne (hx i j hlt hj)]
    exact h.frame x hx

/-- What counts of a limit is its value at the columns of the screen. -/
theorem Scrolled.congr {limit' : Nat → Nat} (h : Scrolled g bg fb limit fb')
    (heq : ∀ c, c < g.framebufferWidth → limit' c = limit c) : Scrolled g bg fb limit' fb' :=
  ⟨fun r c hr hc => by rw [h.pixels r c hr hc, heq c hc], h.frame⟩

/-- **Moving a row**: column by column. -/
theorem scrolled_row (hw : g.framebufferWidth ≤ g.pitch / 4) (hi : g.glyphHeight ≤ i)
    (hlt : i < g.framebufferHeight) (h : Scrolled g bg fb (fun _ => i) fb') :
    Scrolled g bg fb (fun _ => i + 1)
      (countUp (shiftPixel g bg i) 0 g.framebufferWidth fb') := by
  have hrow := countUp_zero_inv (shiftPixel g bg i)
    (fun j => Scrolled g bg fb fun c => if c < j then i + 1 else i) g.framebufferWidth
    (s := fb') (by simpa using h)
    fun j s hj hs => by
      have hstep := scrolled_shiftPixel (i := i) (j := j) hw hi hlt hj
        (if_neg (Nat.lt_irrefl j)) hs
      refine hstep.congr fun c _ => ?_
      by_cases hcj : c = j
      · rw [hcj, Function.update_self, if_pos (Nat.lt_succ_self j)]
      · have hlt : c < j + 1 ↔ c < j := by omega
        rw [Function.update_of_ne hcj]
        simp only [hlt]
  exact hrow.congr fun c hc => (if_pos hc).symm

/-- **Moving all rows**, from the first one below the top line. -/
theorem scrolled_termLineShiftUp (bg : BitVec 32) (fb : Pixels)
    (hw : g.framebufferWidth ≤ g.pitch / 4)
    (hh : g.glyphHeight ≤ g.framebufferHeight) :
    Scrolled g bg fb (fun _ => g.framebufferHeight) (termLineShiftUp g bg fb) := by
  have hstart : Scrolled g bg fb (fun _ => g.glyphHeight) fb := by
    refine ⟨fun r c _ _ => ?_, fun _ _ => rfl⟩
    rw [shifted, if_neg (by omega), if_neg (by omega)]
  have hrows := countUp_inv (fun i => countUp (shiftPixel g bg i) 0 g.framebufferWidth)
    (fun i => Scrolled g bg fb fun _ => i) g.glyphHeight (g.framebufferHeight - g.glyphHeight)
    hstart fun i s hi hlt hs => scrolled_row hw hi (by omega) hs
  rw [Nat.add_sub_cancel' hh] at hrows
  exact hrows

/-- **Scrolling is a shift of the rows**: a pixel is the one `glyph_height` rows below it, or blank
where there is none; what is beside the screen in a row is unchanged. -/
theorem termLineShiftUp_pixel (g : Screen) (bg : BitVec 32) (fb : Pixels) (r c : Nat)
    (hh : 2 * g.glyphHeight ≤ g.framebufferHeight) (hw : g.framebufferWidth ≤ g.pitch / 4)
    (hr : r < g.framebufferHeight) (hc : c < g.pitch / 4) :
    termLineShiftUp g bg fb (g.index r c) =
      if c < g.framebufferWidth then
        if r + g.glyphHeight < g.framebufferHeight then fb (g.index (r + g.glyphHeight) c) else bg
      else fb (g.index r c) := by
  have h := scrolled_termLineShiftUp bg fb hw (by omega)
  split
  · rename_i hcw
    rw [h.pixels r c hr hcw, shifted]
    split
    · rfl
    · exact if_pos (by omega)
  · rename_i hcw
    refine h.frame _ fun r' c' hr' hc' he => hcw ?_
    obtain ⟨-, rfl⟩ := (Screen.index_inj hr hr' hc (by omega)).mp he
    exact hc'

/-- A screen of two lines, one cell wide, in rows of nine words. -/
def twoLines : Screen where
  framebufferWidth := 8
  framebufferHeight := 32
  pitch := 36
  glyphHeight := 16
  glyph_lt := glyphHeight_lt
  fits := by decide

/-- The upper line becomes the lower one, whose place is blank, and the word beside it stays. -/
theorem termLineShiftUp_twoLines :
    (termLineShiftUp twoLines 0 fun x => BitVec.ofNat 32 (x + 1)) (twoLines.index 5 7) = 197 ∧
    (termLineShiftUp twoLines 0 fun x => BitVec.ofNat 32 (x + 1)) (twoLines.index 20 7) = 0 ∧
    (termLineShiftUp twoLines 0 fun x => BitVec.ofNat 32 (x + 1)) (twoLines.index 5 8) = 54 :=
  ⟨termLineShiftUp_pixel twoLines 0 _ 5 7 (by decide) (by decide) (by decide) (by decide),
    termLineShiftUp_pixel twoLines 0 _ 20 7 (by decide) (by decide) (by decide) (by decide),
    termLineShiftUp_pixel twoLines 0 _ 5 8 (by decide) (by decide) (by decide) (by decide)⟩

end Scroll

end FrazzOS.Graphics

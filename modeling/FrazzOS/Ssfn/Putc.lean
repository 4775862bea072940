import FrazzOS.Graphics.Framebuffer
import FrazzOS.Graphics.Scroll
import FrazzOS.Support.Faults
import Mathlib.Data.Nat.Bitwise

/-!
# Ssfn — Putc

`ssfn_putc` of `ssfn.h`, as the console is compiled: for pixels of 32 bits, with the font's bytes
behind `ssfn_src`.

A character of the font has a record: its size, how far it moves the cursor, and descriptors of its
fragments, bitmaps that lie over each other.  They are drawn row by row, from the upper one to the
lower one, and the rows between them and below them are filled.

Sums and products of `int`s fault where they overflow, and so does a pointer between two pixels.

* `glyph`: the picture of a character.
* `draw_eq`: what is drawn is that picture, cut off at the edges of the framebuffer.
-/

namespace FrazzOS.Ssfn

open Graphics (Pixels addInt addInt_eq)
open Faults

/-- The bytes of the font, by their place behind `ssfn_src`. -/
abbrev Bytes := Nat → BitVec 8

/-- `ssfn_dst`, but for its pointer. -/
structure Dst where
  w : Int
  h : Int
  /-- The bytes of a row. -/
  p : Nat
  x : Int
  y : Int
  fg : BitVec 32
  bg : BitVec 32

/-- `p / sizeof(SSFN_PIXEL)`. -/
def Dst.s (d : Dst) : Nat := d.p / 4

/-! ### The characters table -/

/-- `magic` is `"SFN2"`. -/
def hasMagic (src : Bytes) : Prop := src 0 = 0x53 ∧ src 1 = 0x46 ∧ src 2 = 0x4e ∧ src 3 = 0x32

instance (src : Bytes) : Decidable (hasMagic src) := inferInstanceAs (Decidable (_ ∧ _))

def charactersOffs (src : Bytes) : Nat := (src 19 ++ src 18 ++ src 17 ++ src 16).toNat

/-- The bytes of a fragment's descriptor, in the record at `chr`. -/
def descriptorSize (src : Bytes) (chr : Nat) : Nat := if src chr &&& 0x40 ≠ 0 then 6 else 5

/-- The record of `unicode`, in the table from `ptr` on, which goes on with the character `i`. -/
def findChar (src : Bytes) (unicode ptr i : Nat) : Option Nat :=
  if i < 0x110000 then
    if src ptr = 0xff then findChar src unicode (ptr + 1) (i + 65535 + 1)
    else if src ptr &&& 0xc0 = 0xc0 then
      findChar src unicode (ptr + 2) (i + ((src ptr &&& 0x3f) ++ src (ptr + 1)).toNat + 1)
    else if src ptr &&& 0xc0 = 0x80 then
      findChar src unicode (ptr + 1) (i + (src ptr &&& 0x3f).toNat + 1)
    else if i = unicode then some ptr
    else findChar src unicode (ptr + (6 + (src (ptr + 1)).toNat * descriptorSize src ptr)) (i + 1)
  else none
termination_by 0x110000 - i

/-! ### Drawing -/

/-- A product of two `int`s; it is undefined where it overflows. -/
def mulInt (a b : Int) : Option Int :=
  if -2147483648 ≤ a * b ∧ a * b < 2147483648 then some (a * b) else none

/-- `ssfn_dst.ptr + ssfn_dst.y * ssfn_dst.p + ssfn_dst.x * sizeof(SSFN_PIXEL)`, in pixels. -/
def Dst.start (d : Dst) : Option Int := do
  let row ← mulInt d.y d.p
  if row % 4 = 0 then some (row / 4 + d.x) else none

/-- `ssfn_dst.w < 0 ? -ssfn_dst.w : ssfn_dst.w`. -/
def Dst.absW (d : Dst) : Option Int := if d.w < 0 then addInt 0 (-d.w) else some d.w

/-- `!w || ssfn_dst.x + j < w`. -/
def Dst.column (d : Dst) (j : Nat) : Option Bool :=
  if d.w = 0 then some true else (addInt d.x j).map fun x : Int => decide (x < d.w.natAbs)

/-- `!ssfn_dst.h || ssfn_dst.y + y < ssfn_dst.h`. -/
def Dst.row (d : Dst) (y : Nat) : Option Bool :=
  if d.h = 0 then some true else (addInt d.y y).map fun y : Int => decide (y < d.h)

/-- `*p = color`. -/
def putPixel (fb : Pixels) (p : Int) (color : BitVec 32) : Pixels :=
  Function.update fb (CInt.toUInt64 p) color

/-- The `o`, the `y` and the framebuffer of `ssfn_putc`. -/
structure Drawing where
  o : Int
  y : Nat
  fb : Pixels

/-- A row of the background, from the pixel `j` on. -/
def Dst.fillRow (d : Dst) (o : Int) (n j : Nat) (fb : Pixels) : Option Pixels :=
  if j < n then do
    if ← d.column j then d.fillRow o n (j + 1) (putPixel fb (o + j) d.bg) else some fb
  else some fb
termination_by n - j

/-- Rows of the background, down to `bottom`. -/
def Dst.fillRows (d : Dst) (bottom n : Nat) (r : Drawing) : Option Drawing :=
  if r.y < bottom then do
    if ← d.row r.y then
      let fb ← d.fillRow r.o n 0 r.fb
      d.fillRows bottom n ⟨r.o + d.s, r.y + 1, fb⟩
    else some r
  else some r
termination_by bottom - r.y

/-- The byte and the bit of a fragment that are to be read next, and the framebuffer. -/
structure Pen where
  frg : Nat
  m : Nat
  fb : Pixels

/-- `if (m > 0x80) { frg++; m = 1; }`. -/
def Pen.nextByte (q : Pen) : Pen := if q.m > 0x80 then { q with frg := q.frg + 1, m := 1 } else q

/-- The pixel `l` in a row of a fragment. -/
def Dst.bitPixel (d : Dst) (src : Bytes) (o : Int) (q : Pen) (l : Nat) : Option Pen := do
  let q := q.nextByte
  let x ← addInt d.x l
  let visible ← if 0 ≤ x then d.column l else some false
  let fb :=
    if visible then
      if (src q.frg).toNat &&& q.m ≠ 0 then putPixel q.fb (o + l) d.fg
      else if d.bg ≠ 0 then putPixel q.fb (o + l) d.bg
      else q.fb
    else q.fb
  return ⟨q.frg, q.m <<< 1, fb⟩

/-- Rows of a fragment, of `k` pixels each. -/
def Dst.bitRows (d : Dst) (src : Bytes) (k : Nat) : Nat → Nat → Nat → Drawing → Option Drawing
  | 0, _, _, r => some r
  | j + 1, frg, m, r => do
    if ← d.row r.y then
      let q ← (List.range' 0 k).foldlM (d.bitPixel src r.o) ⟨frg, m, r.fb⟩
      d.bitRows src k j q.frg q.m ⟨r.o + d.s, r.y + 1, q.fb⟩
    else some r

/-- The place of a fragment, in a font of less than 2 GB. -/
def fragOffset (src : Bytes) (chr ptr : Nat) : Nat :=
  if src chr &&& 0x40 ≠ 0 then
    (src (ptr + 5) ++ src (ptr + 4) ++ src (ptr + 3) ++ src (ptr + 2)).toNat
  else (src (ptr + 4) ++ src (ptr + 3) ++ src (ptr + 2)).toNat

/-- The descriptor at `ptr` is of no bitmap. -/
def skipped (src : Bytes) (chr ptr : Nat) : Prop :=
  src ptr = 255 ∧ src (ptr + 1) = 255 ∨ src (fragOffset src chr ptr) &&& 0xe0 ≠ 0x80

instance (src : Bytes) (chr ptr : Nat) : Decidable (skipped src chr ptr) :=
  inferInstanceAs (Decidable (_ ∨ _))

/-- The width of a fragment. -/
def fragCols (src : Bytes) (frg : Nat) : Nat := ((src frg &&& 0x1f).toNat + 1) <<< 3

/-- The height of a fragment. -/
def fragRows (src : Bytes) (frg : Nat) : Nat := (src (frg + 1)).toNat + 1

/-- The fragment whose descriptor is at `ptr`. -/
def Dst.fragment (d : Dst) (src : Bytes) (chr ptr : Nat) (r : Drawing) : Option Drawing :=
  if skipped src chr ptr then some r
  else do
    let frg := fragOffset src chr ptr
    let top := (src (ptr + 1)).toNat
    let r ←
      if d.bg ≠ 0 then d.fillRows top (src (chr + 2)).toNat r
      else some { r with o := r.o + (top - r.y) * d.s, y := top }
    d.bitRows src (fragCols src frg) (fragRows src frg) (frg + 2) 1 r

/-- The fragments of a character. -/
def Dst.fragments (d : Dst) (src : Bytes) (chr : Nat) : Nat → Nat → Drawing → Option Drawing
  | 0, _, r => some r
  | n + 1, ptr, r => do
    d.fragments src chr n (ptr + descriptorSize src chr) (← d.fragment src chr ptr r)

/-- The character whose record is at `chr`. -/
def Dst.draw (d : Dst) (src : Bytes) (chr : Nat) (fb : Pixels) : Option Pixels := do
  let o ← d.start
  let r ← d.fragments src chr (src (chr + 1)).toNat (chr + 6) ⟨o, 0, fb⟩
  let r ←
    if d.bg ≠ 0 then d.fillRows (src (chr + 3)).toNat (src (chr + 2)).toNat r else some r
  return r.fb

inductive SsfnError where
  | invinp
  | noglyph
  deriving DecidableEq

/-- `ssfn_putc`: its error, and the cursor and the framebuffer after it. -/
def ssfnPutc (src : Bytes) (d : Dst) (unicode : Nat) (fb : Pixels) :
    Option (Option SsfnError × Dst × Pixels) :=
  if ¬ hasMagic src ∨ d.p = 0 then some (some .invinp, d, fb)
  else do
    let _ ← d.absW
    match findChar src unicode (charactersOffs src) 0 with
    | none => some (some .noglyph, d, fb)
    | some chr =>
      let fb ← d.draw src chr fb
      let x ← addInt d.x (src (chr + 4)).toNat
      let y ← addInt d.y (src (chr + 5)).toNat
      return (none, { d with x := x, y := y }, fb)

/-! ### The picture of a character -/

/-- What a character has at a place: the foreground, the background or nothing. -/
abbrev Picture := Nat → Nat → Option Bool

/-- A row of the background. -/
def blankRow (n : Nat) (x : Nat) : Option Bool := if x < n then some false else none

/-- The pixel `x` in the row `y` of the fragment at `frg`. -/
def bitmap (src : Bytes) (frg : Nat) (y x : Nat) : Option Bool :=
  let i := y * fragCols src frg + x
  if x < fragCols src frg then some ((src (frg + 2 + i / 8)).getLsbD (i % 8)) else none

/-- The rows from `above` on: those of `n` fragments, with blank rows between them, and the blank
ones below. -/
def strips (src : Bytes) (chr : Nat) : Nat → Nat → Nat → Picture
  | 0, _, _, y, x => if y < (src (chr + 3)).toNat then blankRow (src (chr + 2)).toNat x else none
  | n + 1, ptr, above, y, x =>
    if skipped src chr ptr then strips src chr n (ptr + descriptorSize src chr) above y x
    else
      let frg := fragOffset src chr ptr
      let top := max above (src (ptr + 1)).toNat
      if y < top then blankRow (src (chr + 2)).toNat x
      else if y < top + fragRows src frg then bitmap src frg (y - top) x
      else strips src chr n (ptr + descriptorSize src chr) (top + fragRows src frg) y x

/-- The picture of the character whose record is at `chr`. -/
def glyph (src : Bytes) (chr : Nat) : Picture := strips src chr (src (chr + 1)).toNat (chr + 6) 0

/-! ### What is drawn -/

/-- The framebuffer has `W` by `H` pixels, in rows of whole pixels and with less than 2 GB in all,
and the cursor is at `(X, Y)`; the background is not transparent. -/
structure Dst.At (d : Dst) (W H X Y : Nat) : Prop where
  w : d.w.natAbs = W
  h : d.h = H
  x : d.x = X
  y : d.y = Y
  w_pos : 0 < W
  h_pos : 0 < H
  w_le : W ≤ d.s
  p_dvd : 4 ∣ d.p
  fits : H * d.p < 2147483648
  x_lt : X + 256 ≤ 2147483648
  y_le : Y ≤ H
  bg : d.bg ≠ 0

def Dst.color (d : Dst) (b : Bool) : BitVec 32 := if b then d.fg else d.bg

/-- The `n` pixels from `o` on, with what `row` has for them. -/
def Dst.overlay (d : Dst) (o n : Nat) (row : Nat → Option Bool) (fb : Pixels) : Pixels := fun i =>
  if o ≤ i ∧ i - o < n then ((row (i - o)).map d.color).getD (fb i) else fb i

/-- The upper `y` rows of a picture at `(X, Y)`, cut off at the edges of the framebuffer. -/
def Dst.painted (d : Dst) (W H X Y : Nat) (pic : Picture) (fb : Pixels) (y : Nat) : Pixels :=
  fun i =>
    if (Y ≤ i / d.s ∧ i / d.s < Y + y ∧ i / d.s < H) ∧ X ≤ i % d.s ∧ i % d.s < W then
      ((pic (i / d.s - Y) (i % d.s - X)).map d.color).getD (fb i)
    else fb i

section Draw

variable {d : Dst} {W H X Y : Nat} {src : Bytes} {chr : Nat} {pic : Picture} {fb : Pixels}
  {o n y : Nat}

theorem Dst.At.p_eq (h : d.At W H X Y) : d.p = 4 * d.s := (Nat.mul_div_cancel' h.p_dvd).symm

theorem Dst.At.s_lt (h : d.At W H X Y) : H * d.s < 2147483648 :=
  Nat.lt_of_le_of_lt (Nat.mul_le_mul_left H (Nat.div_le_self d.p 4)) h.fits

theorem Dst.At.w_lt (h : d.At W H X Y) : W < 2147483648 :=
  Nat.lt_of_le_of_lt (h.w_le.trans (Nat.le_mul_of_pos_left d.s h.h_pos)) h.s_lt

theorem Dst.At.absW_eq (h : d.At W H X Y) : d.absW = some (W : Int) := by
  have hw := h.w
  have hlt := h.w_lt
  unfold Dst.absW
  split
  · rw [addInt_eq (by omega) (by omega)]
    exact congrArg some (by omega)
  · exact congrArg some (by omega)

theorem Dst.At.valid (h : d.At W H X Y) (hmagic : hasMagic src) : ¬ (¬ hasMagic src ∨ d.p = 0) := by
  have hs : 0 < d.s := h.w_pos.trans_le h.w_le
  have hp := h.p_eq
  exact not_or.mpr ⟨not_not.mpr hmagic, by omega⟩

theorem Dst.At.h_lt (h : d.At W H X Y) : H < 2147483648 := by
  have hs : 1 ≤ d.s := h.w_pos.trans_le h.w_le
  exact Nat.lt_of_le_of_lt (Nat.le_mul_of_pos_right H hs) h.s_lt

theorem Dst.At.column_eq (h : d.At W H X Y) {j : Nat} (hj : j < 256) :
    d.column j = some (decide (j < W - X)) := by
  have hw := h.w
  have hpos := h.w_pos
  have hlt := h.x_lt
  have hsum : addInt d.x j = some (X + j : Int) := by
    rw [h.x]
    exact addInt_eq (by omega) (by omega)
  rw [Dst.column, if_neg (by omega), hsum, Option.map_some, hw]
  congr 2
  rw [eq_iff_iff]
  omega

theorem Dst.At.row_eq (h : d.At W H X Y) (hy : y ≤ H - Y) :
    d.row y = some (decide (Y + y < H)) := by
  have hpos := h.h_pos
  have hlt := h.h_lt
  have hle := h.y_le
  have hsum : addInt d.y y = some (Y + y : Int) := by
    rw [h.y]
    exact addInt_eq (by omega) (by omega)
  rw [Dst.row, h.h, if_neg (by omega), hsum, Option.map_some]
  congr 2
  rw [eq_iff_iff]
  omega

theorem putPixel_eq {x : Nat} {color : BitVec 32} (hx : o + x < 18446744073709551616) :
    putPixel fb (o + x) color = Function.update fb (o + x) color := by
  have haddr : CInt.toUInt64 (o + x : Int) = o + x := CInt.toUInt64_natCast hx
  rw [putPixel, haddr]

/-- A pixel more of a row. -/
theorem overlay_put {row row' : Nat → Option Bool} {x : Nat} {b : Bool} (hx : x < n)
    (hput : row' x = some b) (hother : ∀ x', x' ≠ x → row' x' = row x') :
    d.overlay o n row' fb = Function.update (d.overlay o n row fb) (o + x) (d.color b) := by
  funext i
  by_cases hi : i = o + x
  · subst hi
    rw [Function.update_self, Dst.overlay, Nat.add_sub_cancel_left, if_pos ⟨by omega, hx⟩, hput]
    rfl
  · rw [Function.update_of_ne hi]
    unfold Dst.overlay
    split
    · rw [hother _ (by omega)]
    · rfl

theorem overlay_congr {row row' : Nat → Option Bool} (h : ∀ x < n, row x = row' x) :
    d.overlay o n row fb = d.overlay o n row' fb := by
  funext i
  unfold Dst.overlay
  split
  · rename_i hi
    rw [h _ hi.2]
  · rfl

theorem overlay_none {row : Nat → Option Bool} (h : ∀ x < n, row x = none) :
    d.overlay o n row fb = fb := by
  funext i
  unfold Dst.overlay
  split
  · rename_i hi
    rw [h _ hi.2]
    rfl
  · rfl

/-- **A row of the background**, from the pixel `j` on. -/
theorem fillRow_from (h : d.At W H X Y) (hn : n < 256)
    (ho : ∀ x < W - X, o + x < 18446744073709551616) (j : Nat) :
    d.fillRow o n j (d.overlay o (W - X) (fun x => if x < j then blankRow n x else none) fb) =
      some (d.overlay o (W - X) (blankRow n) fb) := by
  induction hk : n - j generalizing j with
  | zero =>
      rw [Dst.fillRow, if_neg (by omega)]
      refine congrArg some (overlay_congr fun x _ => ?_)
      split
      · rfl
      · exact (if_neg (by omega)).symm
  | succ k ih =>
      have hcolumn : d.column j = some (decide (j < W - X)) := h.column_eq (by omega)
      rw [Dst.fillRow, if_pos (by omega), hcolumn, Option.bind_eq_bind, Option.bind_some]
      by_cases hin : j < W - X
      · rw [if_pos (decide_eq_true hin), putPixel_eq (ho j hin), ← ih (j + 1) (by omega)]
        congr 1
        refine (overlay_put (b := false) hin ?_ fun x hx => ?_).symm
        · rw [if_pos (Nat.lt_succ_self j), blankRow, if_pos (by omega)]
        · have hlt : x < j + 1 ↔ x < j := by omega
          simp only [hlt]
      · rw [if_neg (by rwa [decide_eq_true_eq])]
        refine congrArg some (overlay_congr fun x hx => ?_)
        rw [if_pos (by omega)]

theorem fillRow_eq (h : d.At W H X Y) (hn : n < 256)
    (ho : ∀ x < W - X, o + x < 18446744073709551616) :
    d.fillRow o n 0 fb = some (d.overlay o (W - X) (blankRow n) fb) := by
  have hfill := @fillRow_from d W H X Y fb o n h hn ho 0
  rwa [overlay_none fun x _ => if_neg (Nat.not_lt_zero x)] at hfill

/-- The pixel `i` of a fragment is to be read next. -/
def Pen.Reads (q : Pen) (base i : Nat) : Prop :=
  q.nextByte.frg = base + i / 8 ∧ q.nextByte.m = 2 ^ (i % 8)

theorem reads_start (base : Nat) : Pen.Reads ⟨base, 1, fb⟩ base 0 := ⟨rfl, rfl⟩

/-- The next pixel is in the same byte, or in the next one. -/
theorem Pen.Reads.next {q : Pen} {base i : Nat} (h : q.Reads base i) (fb : Pixels) :
    Pen.Reads ⟨q.nextByte.frg, q.nextByte.m <<< 1, fb⟩ base (i + 1) := by
  obtain ⟨hfrg, hm⟩ := h
  rw [Pen.Reads, hfrg, hm]
  have hbit : i % 8 < 8 := Nat.mod_lt _ (by decide)
  rcases Nat.lt_or_ge (i % 8) 7 with hlt | hge
  · have hall : ∀ b < 7, 2 ^ b <<< 1 ≤ 0x80 ∧ 2 ^ b <<< 1 = 2 ^ (b + 1) := by decide
    obtain ⟨hle, heq⟩ := hall _ hlt
    rw [Pen.nextByte, if_neg (Nat.not_lt.mpr hle), heq]
    exact ⟨by dsimp only; omega, congrArg (2 ^ ·) (by omega)⟩
  · have h7 : i % 8 = 7 := by omega
    rw [h7, Pen.nextByte, if_pos (show 2 ^ 7 <<< 1 > 0x80 by decide)]
    have hzero : (i + 1) % 8 = 0 := by omega
    rw [hzero]
    exact ⟨by dsimp only; omega, rfl⟩

theorem and_two_pow_ne_zero (b : BitVec 8) (i : Nat) :
    b.toNat &&& 2 ^ i ≠ 0 ↔ b.getLsbD i = true := by
  rw [BitVec.getLsbD, Nat.and_two_pow]
  cases b.toNat.testBit i with
  | false => simp
  | true => simp

/-- **A pixel of a fragment.** -/
theorem bitPixel_yields (h : d.At W H X Y) (ho : ∀ x < W - X, o + x < 18446744073709551616)
    {q : Pen} {base i l : Nat} {row row' : Nat → Option Bool} (hl : l < 256) (hq : q.Reads base i)
    (hfb : q.fb = d.overlay o (W - X) row fb)
    (hput : row' l = some ((src (base + i / 8)).getLsbD (i % 8)))
    (hother : ∀ x, x ≠ l → row' x = row x) :
    Yields (fun q => q.Reads base (i + 1) ∧ q.fb = d.overlay o (W - X) row' fb)
      (d.bitPixel src o q l) := by
  have hnext := hq.next
  obtain ⟨hfrg, hm⟩ := hq
  have hsame : q.nextByte.fb = q.fb := by
    unfold Pen.nextByte
    split <;> rfl
  have hlt := h.x_lt
  have hsum : addInt d.x l = some (X + l : Int) := by
    rw [h.x]
    exact addInt_eq (by omega) (by omega)
  have hvisible : (0 : Int) ≤ X + l := by omega
  simp only [Dst.bitPixel, hsum, h.column_eq hl, hvisible, if_true, Option.bind_eq_bind,
    Option.bind_some]
  refine yields_some ⟨hnext _, ?_⟩
  show (if decide (l < W - X) = true then _ else _) = _
  simp only [hfrg, hm, hsame, hfb, and_two_pow_ne_zero, decide_eq_true_eq]
  split
  · rename_i hin
    rw [overlay_put hin hput hother, putPixel_eq (ho l hin), putPixel_eq (ho l hin), Dst.color]
    split
    · rfl
    · rw [if_pos h.bg]
  · rename_i hout
    exact overlay_congr fun x hx => (hother x (by omega)).symm

/-- **A row of a fragment.** -/
theorem bitRow_yields (h : d.At W H X Y) (ho : ∀ x < W - X, o + x < 18446744073709551616)
    {base i frg m k : Nat} (hk : k ≤ 256) (hq : Pen.Reads ⟨frg, m, fb⟩ base i) :
    Yields (fun q => q.Reads base (i + k) ∧ q.fb = d.overlay o (W - X)
        (fun x => if x < k then some ((src (base + (i + x) / 8)).getLsbD ((i + x) % 8)) else none)
        fb)
      ((List.range' 0 k).foldlM (d.bitPixel src o) ⟨frg, m, fb⟩) := by
  have hrow := @yields_up Pen ⟨frg, m, fb⟩ (d.bitPixel src o)
    (fun l q => q.Reads base (i + l) ∧ q.fb = d.overlay o (W - X)
      (fun x => if x < l then some ((src (base + (i + x) / 8)).getLsbD ((i + x) % 8)) else none)
      fb) 0 k ⟨hq, (overlay_none fun x _ => if_neg (Nat.not_lt_zero x)).symm⟩
    fun l q _ hl hq => by
      refine bitPixel_yields h ho (by omega) hq.1 hq.2 (if_pos (Nat.lt_succ_self l)) fun x hx => ?_
      have hlt : x < l + 1 ↔ x < l := by omega
      simp only [hlt]
  rwa [Nat.zero_add] at hrow

/-! ### Row by row -/

/-- **A row more** of a picture. -/
theorem painted_succ (h : d.At W H X Y) (hin : Y + y < H) :
    d.overlay ((Y + y) * d.s + X) (W - X) (pic y) (d.painted W H X Y pic fb y) =
      d.painted W H X Y pic fb (y + 1) := by
  have hw := h.w_le
  have hpos := h.w_pos
  funext i
  have hdiv := Nat.div_add_mod' i d.s
  have hmod := Nat.mod_lt i (show 0 < d.s by omega)
  unfold Dst.overlay Dst.painted
  by_cases hrow : i / d.s = Y + y
  · rw [hrow] at hdiv
    rw [hrow, if_neg (show ¬ ((Y ≤ Y + y ∧ Y + y < Y + y ∧ Y + y < H) ∧ _) by omega)]
    by_cases hcol : X ≤ i % d.s ∧ i % d.s < W
    · rw [if_pos (by omega), if_pos (by omega), Nat.add_sub_cancel_left,
        show i - ((Y + y) * d.s + X) = i % d.s - X by omega]
    · rw [if_neg (by omega), if_neg (by omega)]
  · have hout : ¬ ((Y + y) * d.s + X ≤ i ∧ i - ((Y + y) * d.s + X) < W - X) := by
      rintro ⟨hlo, hhi⟩
      refine hrow (Nat.div_eq_of_lt_le (by omega) ?_)
      rw [Nat.succ_mul]
      omega
    rw [if_neg hout]
    have hiff : i / d.s < Y + (y + 1) ↔ i / d.s < Y + y := by omega
    simp only [hiff]

/-- The upper `y` rows of the picture have been drawn, as far as they are in the framebuffer. -/
structure Drawn (d : Dst) (W H X Y : Nat) (pic : Picture) (fb : Pixels) (r : Drawing) (y : Nat) :
    Prop where
  rows : r.y = min y (H - Y)
  place : r.o = ((Y + r.y) * d.s + X : Nat)
  pixels : r.fb = d.painted W H X Y pic fb y

/-- The place of the pixel at the cursor. -/
theorem Dst.At.start_eq (h : d.At W H X Y) : d.start = some ((Y * d.s + X : Nat) : Int) := by
  have hrow : Y * d.p < 2147483648 :=
    Nat.lt_of_le_of_lt (Nat.mul_le_mul_right d.p h.y_le) h.fits
  have hbytes : Y * d.p = 4 * (Y * d.s) := by
    rw [h.p_eq]
    exact Nat.mul_left_comm Y 4 d.s
  have hmul : mulInt d.y d.p = some (4 * (Y * d.s : Nat) : Int) := by
    rw [mulInt, h.y, ← Int.natCast_mul, if_pos (by omega), hbytes]
    rfl
  rw [Dst.start, hmul, h.x, Option.bind_eq_bind, Option.bind_some, if_pos (by omega)]
  congr 1
  omega

theorem drawn_start : Drawn d W H X Y pic fb ⟨(Y * d.s + X : Nat), 0, fb⟩ 0 := by
  refine ⟨(Nat.zero_min _).symm, rfl, ?_⟩
  funext i
  exact (if_neg (by omega)).symm

variable {r : Drawing}

/-- The addresses of a row do not wrap. -/
theorem Dst.At.row_fits (h : d.At W H X Y) (hin : Y + y < H) :
    ∀ x < W - X, (Y + y) * d.s + X + x < 18446744073709551616 := by
  intro x hx
  have hrow := Nat.mul_le_mul_right d.s (Nat.succ_le_of_lt hin)
  have hfits := h.s_lt
  have hw := h.w_le
  rw [Nat.succ_mul] at hrow
  omega

theorem Drawn.row_eq (h : d.At W H X Y) (hr : Drawn d W H X Y pic fb r y) :
    d.row r.y = some (decide (Y + r.y < H)) :=
  h.row_eq (hr.rows ▸ Nat.min_le_right y (H - Y))

theorem Drawn.visible (hr : Drawn d W H X Y pic fb r y) (hin : Y + r.y < H) : r.y = y := by
  have hrows := hr.rows
  omega

/-- A row more, where it is in the framebuffer. -/
theorem Drawn.next (h : d.At W H X Y) (hr : Drawn d W H X Y pic fb r y) (hin : Y + r.y < H)
    {fb' : Pixels} (hfb : fb' = d.overlay ((Y + y) * d.s + X) (W - X) (pic y) r.fb) :
    Drawn d W H X Y pic fb ⟨r.o + d.s, r.y + 1, fb'⟩ (y + 1) := by
  have hy := hr.visible hin
  refine ⟨?_, ?_, ?_⟩
  · show r.y + 1 = _
    omega
  · show r.o + d.s = _
    rw [hr.place, ← Nat.add_assoc, Nat.succ_mul]
    push_cast
    omega
  · show fb' = _
    rw [hfb, hr.pixels]
    exact painted_succ h (by omega)

/-- Below the framebuffer there is nothing to draw. -/
theorem Drawn.clip (hr : Drawn d W H X Y pic fb r y) (hout : ¬ Y + r.y < H) {y' : Nat}
    (hle : y ≤ y') : Drawn d W H X Y pic fb r y' := by
  have hrows := hr.rows
  refine ⟨by omega, hr.place, ?_⟩
  rw [hr.pixels]
  funext i
  unfold Dst.painted
  have hiff : (Y ≤ i / d.s ∧ i / d.s < Y + y ∧ i / d.s < H) ↔
      Y ≤ i / d.s ∧ i / d.s < Y + y' ∧ i / d.s < H := by omega
  simp only [hiff]

/-- **Rows of the background.** -/
theorem Drawn.fillRows (h : d.At W H X Y) (hn : n < 256) {bottom : Nat}
    (hr : Drawn d W H X Y pic fb r y)
    (hpic : ∀ y', y ≤ y' → y' < bottom → pic y' = blankRow n) :
    Yields (fun r => Drawn d W H X Y pic fb r (max y bottom)) (d.fillRows bottom n r) := by
  induction hk : bottom - r.y generalizing y r with
  | zero =>
      have hrows := hr.rows
      rw [Dst.fillRows, if_neg (by omega)]
      refine yields_some ?_
      rcases Nat.le_total bottom y with hle | hle
      · rwa [Nat.max_eq_left hle]
      · by_cases hin : Y + r.y < H
        · have hy := hr.visible hin
          rwa [Nat.max_eq_right hle, show bottom = y by omega]
        · exact hr.clip hin (Nat.le_max_left y bottom)
  | succ k ih =>
      rw [Dst.fillRows, if_pos (by omega), hr.row_eq h, Option.bind_eq_bind, Option.bind_some]
      by_cases hin : Y + r.y < H
      · have hy := hr.visible hin
        have hfill := @fillRow_eq d W H X Y r.fb _ n h hn (h.row_fits (y := y) (by omega))
        have hplace : r.o = (((Y + y) * d.s + X : Nat) : Int) := by rw [hr.place, hy]
        rw [← hplace, ← hpic y (Nat.le_refl y) (by omega)] at hfill
        rw [if_pos (decide_eq_true hin), hfill, Option.bind_eq_bind, Option.bind_some,
          show max y bottom = max (y + 1) bottom by omega]
        refine ih (hr.next h hin rfl) (fun y' hy' => hpic y' (by omega)) ?_
        show bottom - (r.y + 1) = k
        omega
      · rw [if_neg (by rwa [decide_eq_true_eq])]
        exact yields_some (hr.clip hin (Nat.le_max_left y bottom))

/-- **Rows of a fragment.** -/
theorem Drawn.bitRows (h : d.At W H X Y) {base i frg m k : Nat} (hk : k ≤ 256) (j : Nat)
    (hr : Drawn d W H X Y pic fb r y) (hq : Pen.Reads ⟨frg, m, r.fb⟩ base i)
    (hpic : ∀ y' < j, pic (y + y') = fun x => if x < k then
      some ((src (base + (i + y' * k + x) / 8)).getLsbD ((i + y' * k + x) % 8)) else none) :
    Yields (fun r => Drawn d W H X Y pic fb r (y + j)) (d.bitRows src k j frg m r) := by
  induction j generalizing y r i frg m with
  | zero => exact yields_some hr
  | succ j ih =>
      rw [Dst.bitRows, hr.row_eq h, Option.bind_eq_bind, Option.bind_some]
      by_cases hin : Y + r.y < H
      · have hy := hr.visible hin
        have hplace : r.o = (((Y + y) * d.s + X : Nat) : Int) := by rw [hr.place, hy]
        have hfirst := hpic 0 (Nat.succ_pos j)
        rw [Nat.zero_mul, Nat.add_zero, Nat.add_zero] at hfirst
        rw [if_pos (decide_eq_true hin), hplace]
        refine (bitRow_yields h (h.row_fits (y := y) (by omega)) hk hq).bind fun q hbits => ?_
        rw [← hplace, Nat.add_comm j, ← Nat.add_assoc]
        rw [← hfirst] at hbits
        refine ih (hr.next h hin hbits.2) hbits.1 fun y' hy' => ?_
        rw [Nat.add_assoc, Nat.add_comm 1, hpic (y' + 1) (by omega), Nat.succ_mul,
          Nat.add_comm (y' * k), ← Nat.add_assoc]
      · rw [if_neg (by rwa [decide_eq_true_eq])]
        exact yields_some (hr.clip hin (Nat.le_add_right y _))

theorem fragCols_le (src : Bytes) (frg : Nat) : fragCols src frg ≤ 256 := by
  have hbits : (src frg &&& 0x1f).toNat < 32 := by
    rw [BitVec.toNat_and]
    exact Nat.and_lt_two_pow (n := 5) _ (by decide)
  rw [fragCols, Nat.shiftLeft_eq]
  omega

theorem fragment_eq (hbg : d.bg ≠ 0) {ptr : Nat} (hbitmap : ¬ skipped src chr ptr) :
    d.fragment src chr ptr r = (d.fillRows (src (ptr + 1)).toNat (src (chr + 2)).toNat r).bind
      (d.bitRows src (fragCols src (fragOffset src chr ptr))
        (fragRows src (fragOffset src chr ptr)) (fragOffset src chr ptr + 2) 1) := by
  rw [Dst.fragment, if_neg hbitmap]
  dsimp only
  rw [if_pos hbg]
  rfl

/-- **The fragments**, from the one at `ptr` on, and the rows below them. -/
theorem Drawn.fragments (h : d.At W H X Y) (k ptr : Nat) (hr : Drawn d W H X Y pic fb r y)
    (hpic : ∀ y', y ≤ y' → pic y' = strips src chr k ptr y y') :
    Yields (fun r => ∃ y', Drawn d W H X Y pic fb r y' ∧ ∀ y'', y' ≤ y'' → ∀ x, pic y'' x = none)
      ((d.fragments src chr k ptr r).bind
        (d.fillRows (src (chr + 3)).toNat (src (chr + 2)).toNat)) := by
  have hwidth : (src (chr + 2)).toNat < 256 := (src (chr + 2)).isLt
  induction k generalizing ptr y r with
  | zero =>
      refine (hr.fillRows h hwidth fun y' hy' hlt => ?_).mono fun r' hr' =>
        ⟨_, hr', fun y'' hy'' x => ?_⟩
      · rw [hpic y' hy']
        funext x
        exact if_pos hlt
      · rw [hpic y'' (by omega)]
        exact if_neg (by omega)
  | succ k ih =>
      rw [Dst.fragments]
      by_cases hskip : skipped src chr ptr
      · rw [Dst.fragment, if_pos hskip]
        refine ih _ hr fun y' hy' => ?_
        rw [hpic y' hy']
        funext x
        exact if_pos hskip
      · have hfill := hr.fillRows h hwidth fun y' hy' (hlt : y' < (src (ptr + 1)).toNat) =>
          show pic y' = blankRow (src (chr + 2)).toNat by
            rw [hpic y' hy']
            funext x
            rw [strips, if_neg hskip]
            exact if_pos (by omega)
        rw [fragment_eq h.bg hskip]
        obtain ⟨r₁, hr₁, hfill⟩ := hfill
        rw [hr₁, Option.bind_some]
        obtain ⟨r₂, hr₂, hbits⟩ := @Drawn.bitRows d W H X Y src pic fb _ r₁ h
          (fragOffset src chr ptr + 2) 0 _ 1 _ (fragCols_le src (fragOffset src chr ptr))
          (fragRows src (fragOffset src chr ptr)) hfill (reads_start _) fun y' hy' => by
            rw [hpic _ (by omega)]
            funext x
            rw [strips, if_neg hskip]
            dsimp only
            rw [if_neg (by omega), if_pos (by omega), Nat.add_sub_cancel_left, bitmap, Nat.zero_add]
        rw [hr₂]
        refine ih _ hbits fun y' hy' => ?_
        rw [hpic y' (by omega)]
        funext x
        rw [strips, if_neg hskip]
        dsimp only
        rw [if_neg (by omega), if_neg (by omega)]

/-- **What is drawn is the picture** of the character, cut off at the edges of the framebuffer. -/
theorem draw_eq (h : d.At W H X Y) (fb : Pixels) :
    d.draw src chr fb = some (d.painted W H X Y (glyph src chr) fb H) := by
  have hstart : Drawn d W H X Y (glyph src chr) fb _ 0 := drawn_start
  obtain ⟨r, hr, y, hdrawn, hnone⟩ :=
    hstart.fragments h (src (chr + 1)).toNat (chr + 6) fun _ _ => rfl
  have hdraw : d.draw src chr fb = some r.fb := by
    rw [Dst.draw, h.start_eq]
    simp only [Option.bind_eq_bind, Option.bind_some, if_pos h.bg]
    rw [← Option.bind_assoc, hr]
    rfl
  rw [hdraw, hdrawn.pixels]
  refine congrArg some (funext fun i => ?_)
  unfold Dst.painted
  by_cases hrow : i / d.s < Y + y
  · have hiff : (Y ≤ i / d.s ∧ i / d.s < Y + y ∧ i / d.s < H) ↔
        Y ≤ i / d.s ∧ i / d.s < Y + H ∧ i / d.s < H := by omega
    simp only [hiff]
  · rw [if_neg fun hin => hrow hin.1.2.1]
    split
    · rename_i hin
      rw [hnone _ (by omega)]
      rfl
    · rfl

/-- **`ssfn_putc`**, for a character that the font has. -/
theorem ssfnPutc_of_find (h : d.At W H X Y) (hmagic : hasMagic src) {unicode : Nat}
    (hchr : findChar src unicode (charactersOffs src) 0 = some chr) (hdown : src (chr + 5) = 0) :
    ssfnPutc src d unicode fb = some (none, { d with x := d.x + (src (chr + 4)).toNat },
      d.painted W H X Y (glyph src chr) fb H) := by
  have hright : addInt d.x (src (chr + 4)).toNat = some (d.x + (src (chr + 4)).toNat) := by
    have hlt := h.x_lt
    have hadvance : (src (chr + 4)).toNat < 256 := (src (chr + 4)).isLt
    rw [h.x]
    exact addInt_eq (by omega) (by omega)
  have hstay : addInt d.y (src (chr + 5)).toNat = some d.y := by
    have hlt := h.h_lt
    have hle := h.y_le
    have hy := h.y
    have hzero : ((src (chr + 5)).toNat : Int) = 0 := by
      rw [hdown]
      rfl
    rw [hzero, addInt_eq (by omega) (by omega), add_zero]
  rw [ssfnPutc, if_neg (h.valid hmagic), hchr]
  simp only [h.absW_eq, draw_eq h, hright, hstay, Option.bind_eq_bind, Option.bind_some]
  rfl

/-- For another one there is nothing to draw. -/
theorem ssfnPutc_of_none (h : d.At W H X Y) (hmagic : hasMagic src) {unicode : Nat}
    (hchr : findChar src unicode (charactersOffs src) 0 = none) :
    ssfnPutc src d unicode fb = some (some .noglyph, d, fb) := by
  rw [ssfnPutc, if_neg (h.valid hmagic), hchr]
  simp only [h.absW_eq, Option.bind_eq_bind, Option.bind_some]

end Draw

end FrazzOS.Ssfn

import FrazzOS.Flanterm.Terminal
import FrazzOS.Support.Utf8

/-!
# Flanterm — Text

Text in UTF-8.

* `glyphs`: what a character looks like in code page 437: its glyph, or a square and blanks that are
  as wide as it is.
* `putchar_char`: the bytes of a character put its glyphs, in whatever state a code point that has
  been cut off has left the decoder.
* `putchar_chars`: so a text puts the glyphs of its characters, one after the other.
-/

namespace FrazzOS.Flanterm

open Utf8

/-- The columns that `mk_wcwidth` gives a code point. -/
def width (v : Nat) : Nat :=
  if v = 0 then 0 else if v < 32 ∨ (v ≥ 0x7f ∧ v < 0xa0) then 1
  else if Listed v combining then 0 else if Wide v then 2 else 1

/-- What a character looks like. -/
def glyphs (c : Char) : List (BitVec 8) :=
  if c.toNat < 0x80 then [BitVec.ofNat 8 c.toNat]
  else
    match unicodeToCp437 c.toNat with
    | some g => [g]
    | none => if width c.toNat = 0 then [] else 0xfe :: List.replicate (width c.toNat - 1) 0x20

/-- A character of a text: not a control character of ASCII. -/
def Printing (c : Char) : Prop := 0x20 ≤ c.toNat ∧ c.toNat ≠ 0x7f

instance (c : Char) : Decidable (Printing c) := inferInstanceAs (Decidable (_ ∧ _))

/-- Outside of all sequences, with the characters of ASCII, and not in insert mode.  A code point may
have been cut off. -/
structure Ground (ctx : Context) : Prop where
  discardNext : ctx.discardNext = false
  escape : ctx.escape = false
  gSelect : ctx.gSelect = 0
  insertMode : ctx.insertMode = false
  charset : ctx.charsets[ctx.currentCharset]? = some .default

/-- Glyphs, one after the other. -/
def Screen.putGlyphs (ctx : Context) (gs : List (BitVec 8)) (s : Screen) : Screen :=
  gs.foldl (fun s g => s.rawPutchar ctx g) s

/-- In the middle of the code point `v`, with `k` bytes to come. -/
def Context.reading (v k : Nat) (ctx : Context) : Context :=
  { ctx with unicodeRemaining := k, codePoint := upper v k }

section Decode

variable {cfg : FbConfig} {beyond : Nat → BitVec 32} {u : Terminal Screen} {ctx : Context}
  {s : Screen} {v n k x y : Nat} {b : BitVec 8} {c : Char} {o : Out}

/-- The calls for a code point are those for its glyphs. -/
theorem glyphCalls_eq (h : 0x80 ≤ c.toNat) :
    glyphCalls c.toNat = some ((glyphs c).map .rawPutchar) := by
  have hmod : c.toNat % 4294967296 = c.toNat :=
    Nat.mod_eq_of_lt (Nat.lt_trans (toNat_lt c) (by decide))
  have hwidth : mkWcwidth c.toNat = some (width c.toNat) := mkWcwidth_eq _
  rw [glyphCalls, glyphs, if_neg (Nat.not_lt.mpr h)]
  cases unicodeToCp437 c.toNat with
  | some g => rfl
  | none =>
      dsimp only
      rw [hmod, hwidth, Option.bind_eq_bind, Option.bind_some]
      by_cases hzero : width c.toNat = 0
      · rw [if_pos hzero, hzero]
        rfl
      · rw [if_neg hzero, if_pos (Nat.pos_of_ne_zero hzero), List.map_cons, List.map_replicate]
        rfl

/-- A first byte: what it says is to come. -/
theorem freshByte_lead (h : Lead v n b) :
    freshByte beyond x y b o = some { o with ctx := o.ctx.reading v n } := by
  cases h with
  | one h =>
      have hall : ∀ a < 32, 0xc0 ≤ BitVec.ofNat 8 (0xc0 + a) ∧ BitVec.ofNat 8 (0xc0 + a) ≤ 0xdf ∧
          (BitVec.ofNat 8 (0xc0 + a) &&& 0x1f).toNat = a := by decide
      obtain ⟨hlo, hhi, hbits⟩ := hall _ h
      rw [freshByte, if_pos ⟨hlo, hhi⟩, startCodePoint, hbits, Nat.shiftLeft_eq]
      rfl
  | two h =>
      have hall : ∀ a < 16, ¬ (BitVec.ofNat 8 (0xe0 + a) ≤ 0xdf) ∧ 0xe0 ≤ BitVec.ofNat 8 (0xe0 + a) ∧
          BitVec.ofNat 8 (0xe0 + a) ≤ 0xef ∧ (BitVec.ofNat 8 (0xe0 + a) &&& 0x0f).toNat = a := by
        decide
      obtain ⟨hno, hlo, hhi, hbits⟩ := hall _ h
      rw [freshByte, if_neg fun h => hno h.2, if_pos ⟨hlo, hhi⟩, startCodePoint, hbits,
        Nat.shiftLeft_eq]
      rfl
  | three h =>
      have hall : ∀ a < 8, ¬ (BitVec.ofNat 8 (0xf0 + a) ≤ 0xdf) ∧
          ¬ (BitVec.ofNat 8 (0xf0 + a) ≤ 0xef) ∧ 0xf0 ≤ BitVec.ofNat 8 (0xf0 + a) ∧
          BitVec.ofNat 8 (0xf0 + a) ≤ 0xf7 ∧ (BitVec.ofNat 8 (0xf0 + a) &&& 0x07).toNat = a := by
        decide
      obtain ⟨hno, hno', hlo, hhi, hbits⟩ := hall _ h
      rw [freshByte, if_neg fun h => hno h.2, if_neg fun h => hno' h.2, if_pos ⟨hlo, hhi⟩,
        startCodePoint, hbits, Nat.shiftLeft_eq]
      rfl

/-- The marks of a first byte are not those of one behind it, nor those of a control character. -/
theorem lead_marks (h : Lead v n b) : b &&& 0xc0 ≠ 0x80 ∧ b ≠ 0x18 ∧ b ≠ 0x1a := by
  have hall : ∀ a < 0xf8, 0xc0 ≤ a → BitVec.ofNat 8 a &&& 0xc0 ≠ 0x80 ∧ BitVec.ofNat 8 a ≠ 0x18 ∧
      BitVec.ofNat 8 a ≠ 0x1a := by decide +kernel
  cases h with
  | one h => exact hall _ (by omega) (by omega)
  | two h => exact hall _ (by omega) (by omega)
  | three h => exact hall _ (by omega) (by omega)

/-- **The first byte** of a code point drops one that has been cut off. -/
theorem flantermPutchar_lead (hdiscard : o.ctx.discardNext = false) (h : Lead v n b) :
    flantermPutchar beyond x y b o = some { o with ctx := o.ctx.reading v n } := by
  obtain ⟨hmarks, hno, hno'⟩ := lead_marks h
  have hctl : ¬ (o.ctx.discardNext = true ∨ b = 0x18 ∨ b = 0x1a) := by
    simp only [hdiscard, hno, hno', Bool.false_eq_true, or_self, not_false_eq_true]
  rw [flantermPutchar, if_neg hctl, if_neg hmarks, freshByte_lead h, freshByte_lead h]
  exact ite_self _

/-- **A byte behind it** gives six bits more. -/
theorem flantermPutchar_cont (hdiscard : ctx.discardNext = false) :
    flantermPutchar beyond x y (cont v k) ⟨ctx.reading v (k + 1), []⟩ =
      if k = 0 then do return Out.emitAll (← glyphCalls v) ⟨ctx.reading v 0, []⟩
      else some ⟨ctx.reading v k, []⟩ := by
  obtain ⟨hmarks, hbits⟩ := cont_bits v k
  have hno : cont v k ≠ 0x18 := fun h => absurd (h ▸ hmarks) (by decide)
  have hno' : cont v k ≠ 0x1a := fun h => absurd (h ▸ hmarks) (by decide)
  have hctl : ¬ ((ctx.reading v (k + 1)).discardNext = true ∨ cont v k = 0x18 ∨
      cont v k = 0x1a) := by
    simp only [Context.reading, hdiscard, hno, hno', Bool.false_eq_true, or_self, not_false_eq_true]
  have hbyte : addBits (cont v k) ⟨ctx.reading v (k + 1), []⟩ = ⟨ctx.reading v k, []⟩ := by
    simp only [addBits, Context.reading, hbits, Nat.add_sub_cancel, upper_step]
  have hleft : (ctx.reading v (k + 1)).unicodeRemaining ≠ 0 := Nat.succ_ne_zero k
  have hpoint : (ctx.reading v 0).codePoint = v := upper_zero v
  rw [flantermPutchar, if_neg hctl, if_neg hleft, if_pos hmarks, continueCodePoint, hbyte]
  cases k with
  | zero =>
      have hdone : ¬ (ctx.reading v 0).unicodeRemaining ≠ 0 := not_not.mpr rfl
      rw [if_neg hdone, if_pos rfl, hpoint]
  | succ k => exact if_pos (Nat.succ_ne_zero k)

/-- Calls that put glyphs, on the screen. -/
theorem perform_putGlyphs (gs : List (BitVec 8)) :
    (screenBackend cfg).perform ((gs.map Call.rawPutchar).map fun k => (ctx, k)) s =
      some (s.putGlyphs ctx gs) := by
  induction gs generalizing s with
  | nil => rfl
  | cons g gs ih => exact ih

/-- The bytes behind the first one, up to the last one, which puts the glyphs. -/
theorem putchar_tails (hdiscard : ctx.discardNext = false) (hc : 0x80 ≤ c.toNat) (n : Nat) :
    (tails c.toNat (n + 1)).foldlM ((screenBackend cfg).putchar beyond)
        ⟨ctx.reading c.toNat (n + 1), s⟩ =
      some ⟨ctx.reading c.toNat 0, s.putGlyphs ctx (glyphs c)⟩ := by
  induction n with
  | zero =>
      have hout : (screenBackend cfg).out beyond ⟨ctx.reading c.toNat 1, s⟩ (cont c.toNat 0) =
          some (Out.emitAll ((glyphs c).map .rawPutchar) ⟨ctx.reading c.toNat 0, []⟩) := by
        rw [Backend.out, flantermPutchar_cont hdiscard, if_pos rfl, glyphCalls_eq hc]
        rfl
      rw [tails, tails, List.foldlM_cons, Backend.putchar_eq hout (perform_putGlyphs _)]
      rfl
  | succ n ih =>
      have hout : (screenBackend cfg).out beyond ⟨ctx.reading c.toNat (n + 2), s⟩
          (cont c.toNat (n + 1)) = some ⟨ctx.reading c.toNat (n + 1), []⟩ := by
        rw [Backend.out, flantermPutchar_cont hdiscard, if_neg (Nat.succ_ne_zero n)]
      rw [tails, List.foldlM_cons, Backend.putchar_eq hout rfl]
      exact ih

/-- **A character above `U+007F`**. -/
theorem putchar_encode (hdiscard : u.ctx.discardNext = false) (hc : 0x80 ≤ c.toNat) :
    (encode c).foldlM ((screenBackend cfg).putchar beyond) u =
      some ⟨u.ctx.reading c.toNat 0, u.state.putGlyphs u.ctx (glyphs c)⟩ := by
  obtain ⟨n, b, hlead, hbytes⟩ := encode_eq hc
  have hout : (screenBackend cfg).out beyond u b = some ⟨u.ctx.reading c.toNat n, []⟩ :=
    flantermPutchar_lead hdiscard hlead
  rw [hbytes, List.foldlM_cons, Backend.putchar_eq hout rfl]
  cases hlead with
  | one _ => exact putchar_tails hdiscard hc 0
  | two _ => exact putchar_tails hdiscard hc 1
  | three _ => exact putchar_tails hdiscard hc 2

/-- A printing character of ASCII, outside of all sequences. -/
theorem plainByte_printing (hground : Ground o.ctx) (hlo : 0x20 ≤ b.toNat) (hhi : b.toNat ≤ 0x7e) :
    plainByte x y b o = some (o.emit (.rawPutchar b)) := by
  have hroom : makeRoom x y o = o := if_neg (by rw [hground.insertMode]; exact Bool.false_ne_true)
  have hprint : printByte x y b o = some (o.emit (.rawPutchar b)) := by
    have hrange : 0x20 ≤ b ∧ b ≤ 0x7e := ⟨hlo, hhi⟩
    rw [printByte, hroom, hground.charset]
    exact congrArg some (if_pos hrange)
  rw [plainByte]
  split
  all_goals first | exact hprint | omega

/-- **A printing character of ASCII**. -/
theorem flantermPutchar_printing (hground : Ground ctx) (hlo : 0x20 ≤ b.toNat)
    (hhi : b.toNat ≤ 0x7e) :
    flantermPutchar beyond x y b ⟨ctx, []⟩ =
      some (Out.emit (.rawPutchar b) ⟨{ ctx with unicodeRemaining := 0 }, []⟩) := by
  have hrange : ∀ {lo hi : BitVec 8}, 0x7e < lo.toNat → ¬ (lo ≤ b ∧ b ≤ hi) :=
    fun hlt h => absurd (Nat.lt_of_lt_of_le hlt h.1) (Nat.not_lt.mpr hhi)
  have hfresh : ∀ {ctx : Context}, Ground ctx →
      freshByte beyond x y b ⟨ctx, []⟩ = some (Out.emit (.rawPutchar b) ⟨ctx, []⟩) := by
    intro ctx h
    rw [freshByte, if_neg (hrange (by decide)), if_neg (hrange (by decide)),
      if_neg (hrange (by decide)), h.escape, if_neg Bool.false_ne_true, h.gSelect,
      if_neg (not_not.mpr rfl)]
    exact plainByte_printing h hlo hhi
  have hctl : ¬ (ctx.discardNext = true ∨ b = 0x18 ∨ b = 0x1a) := by
    rw [hground.discardNext]
    rintro (h | rfl | rfl)
    · cases h
    · exact absurd hlo (by decide)
    · exact absurd hlo (by decide)
  have hmarks : b &&& 0xc0 ≠ 0x80 := by
    have hall : ∀ n ≤ 0x7e, BitVec.ofNat 8 n &&& 0xc0 ≠ 0x80 := by decide +kernel
    have hb := hall b.toNat hhi
    rwa [BitVec.ofNat_toNat, BitVec.setWidth_eq] at hb
  rw [flantermPutchar, if_neg hctl, if_neg hmarks]
  split
  · rename_i hzero
    have hsame : ctx = { ctx with unicodeRemaining := 0 } :=
      congrArg (fun n => { ctx with unicodeRemaining := n }) hzero
    rw [← hsame]
    exact hfresh hground
  · exact hfresh { hground with }

/-- **A character** puts its glyphs. -/
theorem putchar_char (hground : Ground u.ctx) (hc : Printing c) :
    ∃ v, (encode c).foldlM ((screenBackend cfg).putchar beyond) u =
      some ⟨{ u.ctx with unicodeRemaining := 0, codePoint := v },
        u.state.putGlyphs u.ctx (glyphs c)⟩ := by
  by_cases hascii : c.toNat < 0x80
  · obtain ⟨hlo, hne⟩ := hc
    have hbyte : (BitVec.ofNat 8 c.toNat).toNat = c.toNat := Nat.mod_eq_of_lt (by omega)
    have hout : (screenBackend cfg).out beyond u (BitVec.ofNat 8 c.toNat) =
        some (Out.emit (.rawPutchar (BitVec.ofNat 8 c.toNat))
          ⟨{ u.ctx with unicodeRemaining := 0 }, []⟩) :=
      flantermPutchar_printing hground (by omega) (by omega)
    rw [encode_of_lt hascii, List.foldlM_cons, Backend.putchar_eq hout rfl, glyphs, if_pos hascii]
    exact ⟨u.ctx.codePoint, rfl⟩
  · rw [putchar_encode hground.discardNext (Nat.le_of_not_lt hascii)]
    exact ⟨_, rfl⟩

theorem putGlyphs_append (gs gs' : List (BitVec 8)) :
    s.putGlyphs ctx (gs ++ gs') = (s.putGlyphs ctx gs).putGlyphs ctx gs' :=
  List.foldl_append

/-- **A text** puts the glyphs of its characters, and leaves the decoder at the end of one. -/
theorem putchar_chars (hground : Ground u.ctx) (text : List Char) (htext : ∀ c ∈ text, Printing c) :
    ∃ n v, (n = 0 ∨ text = [] ∧ n = u.ctx.unicodeRemaining) ∧
      (text.flatMap encode).foldlM ((screenBackend cfg).putchar beyond) u =
        some ⟨{ u.ctx with unicodeRemaining := n, codePoint := v },
          u.state.putGlyphs u.ctx (text.flatMap glyphs)⟩ := by
  induction text generalizing u with
  | nil => exact ⟨u.ctx.unicodeRemaining, u.ctx.codePoint, .inr ⟨rfl, rfl⟩, rfl⟩
  | cons c text ih =>
      obtain ⟨v, hchar⟩ := @putchar_char cfg beyond u c hground (htext c List.mem_cons_self)
      have hground' : Ground { u.ctx with unicodeRemaining := 0, codePoint := v } := { hground with }
      obtain ⟨n', v', hn, hrest⟩ := @ih ⟨_, u.state.putGlyphs u.ctx (glyphs c)⟩ hground'
        fun c' hc' => htext c' (List.mem_cons_of_mem c hc')
      refine ⟨n', v', .inl (hn.elim id And.right), ?_⟩
      rw [List.flatMap_cons, List.foldlM_append, hchar, List.flatMap_cons, putGlyphs_append]
      exact hrest

end Decode

end FrazzOS.Flanterm

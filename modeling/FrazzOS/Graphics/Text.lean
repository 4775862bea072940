import FrazzOS.Graphics.Page
import FrazzOS.Klibc.String
import FrazzOS.Support.Utf8

/-!
# Graphics — Text

Strings in UTF-8 on the console: `ssfn_utf8` of `ssfn.h`, and `term_print_string`.

* `ssfnUtf8_encode`: what `ssfn_utf8` reads of the bytes of a character.
* `termPrintString_eq`: the characters of a string are printed, and nothing behind its `NUL` is.
* `strings_show`: what the screen shows after strings that are printed one after the other.
-/

namespace FrazzOS.Graphics

open Memory Klibc Utf8 Ssfn

/-- `ssfn_utf8`: the character at `s`, and the string behind it. -/
def ssfnUtf8 (m : Mem) (s : BitVec 64) : Nat × BitVec 64 :=
  let bits (i : Nat) : Nat := (m (s + BitVec.ofNat 64 i) &&& 0x3f).toNat
  if m s &&& 128 ≠ 0 then
    if m s &&& 32 = 0 then ((m s &&& 0x1f).toNat <<< 6 ||| bits 1, s + 1 + 1)
    else if m s &&& 16 = 0 then
      ((m s &&& 0xf).toNat <<< 12 ||| bits 1 <<< 6 ||| bits 2, s + 2 + 1)
    else if m s &&& 8 = 0 then
      ((m s &&& 0x7).toNat <<< 18 ||| bits 1 <<< 12 ||| bits 2 <<< 6 ||| bits 3, s + 3 + 1)
    else (0, s + 1)
  else ((m s).toNat, s + 1)

/-- `term_print_string`, for `fuel` characters at most. -/
def termPrintString {T : Type*} (m : Mem) (print : T → Nat → Option T) :
    Nat → BitVec 64 → T → Option T
  | 0, _, _ => none
  | fuel + 1, s, t =>
    if m s ≠ 0 then do
      termPrintString m print fuel (ssfnUtf8 m s).2 (← print t (ssfnUtf8 m s).1)
    else some t

section Utf8

variable {m : Mem} {s : BitVec 64} {c : Char} {T : Type*} {print : T → Nat → Option T}

/-- The bytes `l` are at `s`. -/
def BytesAt (m : Mem) (s : BitVec 64) (l : List (BitVec 8)) : Prop :=
  ∀ i (h : i < l.length), m (s + BitVec.ofNat 64 i) = l[i]

theorem BytesAt.head {b : BitVec 8} {l : List (BitVec 8)} (h : BytesAt m s (b :: l)) : m s = b := by
  have hb := h 0 (Nat.succ_pos _)
  rwa [BitVec.add_zero] at hb

/-- The bytes behind the first one of a character. -/
theorem bytesAt_tails {b : BitVec 8} {v n : Nat} (h : BytesAt m s (b :: tails v n)) {i k : Nat}
    (hk : i + k + 1 = n) : (m (s + BitVec.ofNat 64 (i + 1)) &&& 0x3f).toNat = v / 64 ^ k % 64 := by
  have hget : ∀ n i k, i + k + 1 = n →
      ∃ hi : i < (tails v n).length, (tails v n)[i] = cont v k := by
    intro n
    induction n with
    | zero =>
        intro i k hk
        cases hk
    | succ n ih =>
        intro i k hk
        cases i with
        | zero =>
            obtain rfl : k = n := by omega
            exact ⟨Nat.succ_pos _, rfl⟩
        | succ i =>
            obtain ⟨hi, heq⟩ := ih i k (by omega)
            exact ⟨Nat.succ_lt_succ hi, heq⟩
  obtain ⟨hi, heq⟩ := hget n i k hk
  rw [h (i + 1) (Nat.succ_lt_succ hi), List.getElem_cons_succ, heq]
  exact (cont_bits v k).2

theorem upper_eq_shiftLeft (v k : Nat) : upper v k = (v / 64 ^ k) <<< (6 * k) := by
  rw [upper, Nat.shiftLeft_eq, Nat.pow_mul]

theorem length_tails (v n : Nat) : (tails v n).length = n := by
  induction n with
  | zero => rfl
  | succ n ih => exact congrArg Nat.succ ih

/-- **`ssfn_utf8` reads a character** from its bytes. -/
theorem ssfnUtf8_encode (h : BytesAt m s (encode c)) :
    ssfnUtf8 m s = (c.toNat, s + BitVec.ofNat 64 (encode c).length) := by
  by_cases hascii : c.toNat < 0x80
  · rw [encode_of_lt hascii] at h ⊢
    have hall : ∀ v < 0x80, BitVec.ofNat 8 v &&& 128 = 0 ∧ (BitVec.ofNat 8 v).toNat = v := by decide
    obtain ⟨hmark, hvalue⟩ := hall _ hascii
    simp only [ssfnUtf8, h.head, hmark, hvalue]
    rfl
  · obtain ⟨n, b, hlead, hbytes⟩ := encode_eq (Nat.not_lt.mp hascii)
    rw [hbytes] at h ⊢
    rw [List.length_cons, length_tails]
    have hb := h.head
    have hzero := upper_zero c.toNat
    cases hlead with
    | one hlt =>
        have hall : ∀ q < 32, BitVec.ofNat 8 (0xc0 + q) &&& 128 ≠ 0 ∧
            BitVec.ofNat 8 (0xc0 + q) &&& 32 = 0 ∧
            (BitVec.ofNat 8 (0xc0 + q) &&& 0x1f).toNat = q := by decide
        obtain ⟨hmark, hone, hvalue⟩ := hall _ hlt
        rw [ssfnUtf8]
        dsimp only
        rw [hb, if_pos hmark, if_pos hone, hvalue, bytesAt_tails h (i := 0) (k := 0) rfl]
        refine Prod.ext ?_ (BitVec.add_assoc ..)
        have hlast := upper_step c.toNat 0
        rwa [upper_eq_shiftLeft, hzero] at hlast
    | two hlt =>
        have hall : ∀ q < 16, BitVec.ofNat 8 (0xe0 + q) &&& 128 ≠ 0 ∧
            ¬ BitVec.ofNat 8 (0xe0 + q) &&& 32 = 0 ∧ BitVec.ofNat 8 (0xe0 + q) &&& 16 = 0 ∧
            (BitVec.ofNat 8 (0xe0 + q) &&& 0xf).toNat = q := by decide
        obtain ⟨hmark, hone, htwo, hvalue⟩ := hall _ hlt
        rw [ssfnUtf8]
        dsimp only
        rw [hb, if_pos hmark, if_neg hone, if_pos htwo, hvalue,
          bytesAt_tails h (i := 0) (k := 1) rfl, bytesAt_tails h (i := 1) (k := 0) rfl]
        refine Prod.ext ?_ (BitVec.add_assoc ..)
        have hnext := upper_step c.toNat 1
        have hlast := upper_step c.toNat 0
        rw [upper_eq_shiftLeft] at hnext
        rwa [← hnext, hzero] at hlast
    | three hlt =>
        have hall : ∀ q < 8, BitVec.ofNat 8 (0xf0 + q) &&& 128 ≠ 0 ∧
            ¬ BitVec.ofNat 8 (0xf0 + q) &&& 32 = 0 ∧ ¬ BitVec.ofNat 8 (0xf0 + q) &&& 16 = 0 ∧
            BitVec.ofNat 8 (0xf0 + q) &&& 8 = 0 ∧
            (BitVec.ofNat 8 (0xf0 + q) &&& 0x7).toNat = q := by decide
        obtain ⟨hmark, hone, htwo, hthree, hvalue⟩ := hall _ hlt
        rw [ssfnUtf8]
        dsimp only
        rw [hb, if_pos hmark, if_neg hone, if_neg htwo, if_pos hthree, hvalue,
          bytesAt_tails h (i := 0) (k := 2) rfl, bytesAt_tails h (i := 1) (k := 1) rfl,
          bytesAt_tails h (i := 2) (k := 0) rfl]
        refine Prod.ext ?_ (BitVec.add_assoc ..)
        have hfirst := upper_step c.toNat 2
        have hnext := upper_step c.toNat 1
        have hlast := upper_step c.toNat 0
        rw [upper_eq_shiftLeft] at hfirst
        rw [← hfirst] at hnext
        rwa [← hnext, hzero] at hlast

theorem encode_ne_nil (c : Char) : ∃ b l, encode c = b :: l := by
  by_cases hascii : c.toNat < 0x80
  · exact ⟨_, _, encode_of_lt hascii⟩
  · obtain ⟨n, b, -, hbytes⟩ := encode_eq (Nat.not_lt.mp hascii)
    exact ⟨_, _, hbytes⟩

/-- A string in two parts. -/
theorem stringAt_append {l l' : List (BitVec 8)} (h : StringAt m s (l ++ l')) :
    BytesAt m s l ∧ StringAt m (s + BitVec.ofNat 64 l.length) l' := by
  have haddr : ∀ i, s + BitVec.ofNat 64 l.length + BitVec.ofNat 64 i =
      s + BitVec.ofNat 64 (l.length + i) := fun i => by
    rw [BitVec.ofNat_add, BitVec.add_assoc]
  refine ⟨fun i hi => ?_, fun i hi => ?_, fun b hb => h.ne_nul b (List.mem_append_right l hb), ?_⟩
  · rw [h.bytes i (by rw [List.length_append]; omega), List.getElem_append_left hi]
  · rw [haddr, h.bytes _ (by rw [List.length_append]; omega),
      List.getElem_append_right (Nat.le_add_right _ _)]
    simp only [Nat.add_sub_cancel_left]
  · rw [haddr, ← List.length_append]
    exact h.nul

/-- **A string is printed**, character by character, up to its `NUL`. -/
theorem termPrintString_eq (text : List Char) (h : StringAt m s (text.flatMap encode)) {fuel : Nat}
    (hfuel : text.length < fuel) (t : T) :
    termPrintString m print fuel s t = (text.map Char.toNat).foldlM print t := by
  induction text generalizing s fuel t with
  | nil =>
      obtain ⟨fuel, rfl⟩ := Nat.exists_eq_succ_of_ne_zero (Nat.ne_of_gt hfuel)
      have hnul := h.nul
      rw [List.flatMap_nil, List.length_nil, BitVec.add_zero] at hnul
      rw [termPrintString, hnul]
      exact if_neg (not_not.mpr rfl)
  | cons c text ih =>
      obtain ⟨fuel, rfl⟩ := Nat.exists_eq_succ_of_ne_zero (Nat.ne_of_gt (Nat.zero_lt_of_lt hfuel))
      rw [List.flatMap_cons] at h
      obtain ⟨hbytes, hrest⟩ := stringAt_append h
      have hne : m s ≠ 0 := by
        obtain ⟨b, l, hb⟩ := encode_ne_nil c
        rw [hb] at hbytes
        rw [hbytes.head]
        exact h.ne_nul b (List.mem_append_left _ (by rw [hb]; exact List.mem_cons_self))
      rw [termPrintString, if_pos hne, ssfnUtf8_encode hbytes, List.map_cons, List.foldlM_cons]
      cases print t c.toNat with
      | none => rfl
      | some t' => exact ih hrest (Nat.lt_of_succ_lt_succ hfuel) t'

end Utf8

/-- The characters of strings that are printed one after the other. -/
def codes (strs : List (BitVec 64 × List Char)) : List Nat :=
  strs.flatMap fun q => q.2.map Char.toNat

section Shown

variable {src : Bytes} {v : Video} {m : Mem} {color : BitVec 32} {t : Terminal} {p : Page}

/-- Strings, one after the other. -/
theorem shows_strings (hsrc : Upright src) (hv : v.Ok) (strs : List (BitVec 64 × List Char))
    (hstrs : ∀ q ∈ strs, StringAt m q.1 (q.2.flatMap encode) ∧ ∀ c ∈ q.2, c.toNat ≠ 8)
    (fuel : Nat)
    (hfuel : ∀ q ∈ strs, q.2.length < fuel) (h : Shows src v t p) :
    ∃ t', strs.foldlM
        (fun t q => termPrintString m (Terminal.printChar src v color) fuel q.1 t) t = some t' ∧
      Shows src v t' ((codes strs).foldl (Page.printChar (face src) v.width color) p) := by
  induction strs generalizing t p with
  | nil => exact ⟨t, rfl, h⟩
  | cons q strs ih =>
      rw [List.forall_mem_cons] at hstrs hfuel
      have hback : 8 ∉ q.2.map Char.toNat := by
        rw [List.mem_map]
        rintro ⟨c, hc, heq⟩
        exact hstrs.1.2 c hc heq
      obtain ⟨t₁, ht₁, h₁⟩ := @shows_text src v t p color hsrc hv _ hback h
      rw [List.foldlM_cons, termPrintString_eq q.2 hstrs.1.1 hfuel.1, ht₁, codes,
        List.flatMap_cons, List.foldl_append]
      exact ih hstrs.2 hfuel.2 h₁

/-- **The screen shows the last lines of what is printed**: after strings in UTF-8 without
backspaces, each pixel of it is that of the page they are set on, whatever was on the framebuffer
before `framebuffer_init`. -/
theorem strings_show (hsrc : Upright src) (hv : v.Ok) (color : BitVec 32) (fb : Pixels)
    (strs : List (BitVec 64 × List Char))
    (hstrs : ∀ q ∈ strs, StringAt m q.1 (q.2.flatMap encode) ∧ ∀ c ∈ q.2, c.toNat ≠ 8)
    (fuel : Nat) (hfuel : ∀ q ∈ strs, q.2.length < fuel) :
    ∃ t, strs.foldlM (fun t q => termPrintString m (Terminal.printChar src v color) fuel q.1 t)
        (bootTerminal v fb) = some t ∧
      ∀ r c, r < v.height → c < v.width →
        let p := Page.ofText (face src) v.width color (codes strs)
        t.fb (v.screen.index r c) = p.pixel (face src) (p.top v.lines + r / 16) (r % 16) c := by
  obtain ⟨t, ht, hshows⟩ := @shows_strings src v m color _ _ hsrc hv strs hstrs fuel hfuel
    (shows_boot hv fb)
  exact ⟨t, ht, hshows.pixels⟩

end Shown

/-! ### A font of one character -/

/-- A font that has the letter `A`: one row, 8 pixels wide, half of it ink; 9 pixels to the next
character. -/
def smallFont : Bytes := fun i =>
  [0x53, 0x46, 0x4e, 0x32, 0, 0, 0, 0, 0, 0, 0, 0, 0, 0, 0, 0, 23, 0, 0, 0, 0x80, 0, 0x0f,
    0xc0, 64, 0, 1, 8, 16, 9, 0, 0, 0, 20, 0, 0].getD i 0xff

theorem findChar_behind (unicode : Nat) : ∀ k ptr i, 36 ≤ ptr → 0x110000 - i = k →
    findChar smallFont unicode ptr i = none := by
  intro k
  induction k using Nat.strong_induction_on with
  | _ k ih =>
      intro ptr i hptr hk
      rw [findChar]
      split
      · have hfill : smallFont ptr = 0xff := List.getD_eq_default _ _ hptr
        rw [if_pos hfill]
        exact ih _ (by omega) _ _ (by omega) rfl
      · rfl

theorem findChar_smallFont (unicode : Nat) :
    findChar smallFont unicode (charactersOffs smallFont) 0 =
      if 65 = unicode then some 25 else none := by
  have hoffs : charactersOffs smallFont = 23 := by decide
  rw [hoffs, findChar, if_pos (by decide), if_neg (by decide), if_pos (by decide)]
  have hnext : 0 + ((smallFont 23 &&& 0x3f) ++ smallFont (23 + 1)).toNat + 1 = 65 := by decide
  rw [hnext, findChar, if_pos (by decide), if_neg (by decide), if_neg (by decide),
    if_neg (by decide), findChar_behind unicode _ _ _ (by decide) rfl]

theorem upright_smallFont : Upright smallFont := by
  refine ⟨by decide, ?_, ?_⟩
  · intro unicode chr hchr
    rw [findChar_smallFont] at hchr
    split at hchr
    · obtain rfl := Option.some.inj hchr
      decide
    · cases hchr
  · intro unicode y x hy
    simp only [face, findChar_smallFont]
    by_cases hchr : 65 = unicode
    · rw [if_pos hchr]
      show strips smallFont 25 1 31 0 y x = none
      have hbitmap : ¬ skipped smallFont 25 31 := by decide
      have htop : max 0 (smallFont (31 + 1)).toNat = 0 := by decide
      have hrows : fragRows smallFont (fragOffset smallFont 25 31) = 1 := by decide
      have hheight : (smallFont (25 + 3)).toNat = 16 := by decide
      rw [strips, if_neg hbitmap]
      dsimp only
      rw [htop, hrows, if_neg (by omega), if_neg (by omega), strips, hheight, if_neg (by omega)]
    · rw [if_neg hchr]

/-- Two `A`s on a screen of 640 by 480 pixels. -/
theorem strings_show_letters : ∃ t,
    [((0x1000 : BitVec 64), ['A']), (0x1000, ['A'])].foldlM (fun t q =>
      termPrintString (withBytes (fun _ => 0) 0x1000 [65, 0])
        (Terminal.printChar smallFont smallVideo 0x734ab9) 2 q.1 t)
      (bootTerminal smallVideo fun _ => 0) = some t ∧
    ∀ r c, r < smallVideo.height → c < smallVideo.width →
      let p := Page.ofText (face smallFont) smallVideo.width 0x734ab9 [65, 65]
      t.fb (smallVideo.screen.index r c) =
        p.pixel (face smallFont) (p.top smallVideo.lines + r / 16) (r % 16) c := by
  have hletter : ['A'].flatMap encode = [65] := by decide
  have hstring : StringAt (withBytes (fun _ => 0) 0x1000 [65, 0]) 0x1000
      (['A'].flatMap encode) := by
    rw [hletter]
    exact stringAt_withBytes (s := [65]) (by decide) (by decide)
  refine strings_show upright_smallFont ok_smallVideo 0x734ab9 (fun _ => 0)
    [(0x1000, ['A']), (0x1000, ['A'])] ?_ 2 ?_
  · intro q hq
    obtain rfl : q = (0x1000, ['A']) := by
      rcases List.mem_cons.mp hq with h | h
      · exact h
      · exact List.mem_singleton.mp h
    exact ⟨hstring, List.forall_mem_singleton.mpr (by decide)⟩
  · decide

end FrazzOS.Graphics

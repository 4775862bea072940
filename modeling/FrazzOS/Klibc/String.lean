import FrazzOS.Klibc.Memory
import Mathlib.Data.Nat.Digits.Lemmas
import Mathlib.Tactic.Common
import Mathlib.Tactic.IntervalCases

/-!
# Klibc — String

`itoa` of `klibc/string.c`: a number printed backwards, digit by digit, from a place in a buffer.

The digits end at the last byte of the buffer its callers declare, the `NUL` goes one byte behind
it.  So the string has an end in the buffer only where its last byte was `0` before, and the `NUL`
is written outside of it.

* `putDigits_eq`: the loop writes the digits of the number in front of the place it starts from.
* `prints_iff`: what `itoa` returns is the number in decimal just where the last byte was `0`.
* `itoa_not_decimalPrinting`: `itoa` keeps inside the buffer for no number and no buffer.
-/

namespace FrazzOS.Klibc

open Memory

/-- `while (num) { *--str = table[num % base]; num /= base; }`, and `str` after it. -/
def putDigits (table : List (BitVec 8)) (base : Nat) (hb : 1 < base) (num : Nat)
    (str : BitVec 64) (s : Stored) : BitVec 64 × Stored :=
  if num = 0 then (str, s)
  else putDigits table base hb (num / base) (str - 1)
    (s.put (str - 1) (table.getD (num % base) 0))
termination_by num
decreasing_by exact Nat.div_lt_self (Nat.pos_of_ne_zero ‹_›) hb

def maxNumStringLen : Nat := 50

/-- `"0123456789"`. -/
def numeric : List (BitVec 8) := [48, 49, 50, 51, 52, 53, 54, 55, 56, 57]

/-- `itoa`: the pointer it returns, the memory after it and where it stored. -/
def itoa (buf num : BitVec 64) (m : Mem) : BitVec 64 × Stored :=
  putDigits numeric 10 (by decide) num.toNat (buf + BitVec.ofNat 64 (maxNumStringLen - 1))
    (Stored.put ⟨m, []⟩ (buf + BitVec.ofNat 64 maxNumStringLen) 0)

/-- The string at `a` is `s`, with a `NUL` behind it. -/
structure StringAt (m : Mem) (a : BitVec 64) (s : List (BitVec 8)) : Prop where
  bytes : ∀ i (h : i < s.length), m (a + BitVec.ofNat 64 i) = s[i]
  ne_nul : ∀ b ∈ s, b ≠ 0
  nul : m (a + BitVec.ofNat 64 s.length) = 0

def IsDigit (b : BitVec 8) : Prop := 48 ≤ b.toNat ∧ b.toNat ≤ 57

/-- The value of a string of decimal digits. -/
def decimalValue (s : List (BitVec 8)) : Nat :=
  Nat.ofDigits 10 (s.reverse.map fun b => b.toNat - 48)

/-- What `itoa` returns is, with its `NUL`, a string in the buffer of `maxNumStringLen` bytes, of
decimal digits, for the number. -/
def Prints (buf num : BitVec 64) (m : Mem) : Prop :=
  ∃ s, StringAt (itoa buf num m).2.mem (itoa buf num m).1 s ∧
    ((itoa buf num m).1 - buf).toNat + s.length < maxNumStringLen ∧
    (∀ b ∈ s, IsDigit b) ∧ decimalValue s = num.toNat

/-- All that `itoa` stores lies in the buffer, and it prints the number. -/
structure DecimalPrinting (buf num : BitVec 64) (m : Mem) : Prop where
  inside : ∀ a ∈ (itoa buf num m).2.stores, a ∈ span buf maxNumStringLen
  prints : Prints buf num m

/-- A string is where it was put, with its `NUL`. -/
theorem stringAt_withBytes {m : Mem} {a : BitVec 64} {s : List (BitVec 8)}
    (hne : ∀ b ∈ s, b ≠ 0) (hlen : s.length < 18446744073709551616) :
    StringAt (withBytes m a (s ++ [0])) a s := by
  have hlen' : (s ++ [0]).length ≤ 18446744073709551616 := by
    rw [List.length_append]
    exact hlen
  refine ⟨fun i hi => ?_, hne, ?_⟩
  · rw [withBytes_at (by rw [List.length_append]; exact Nat.lt_add_right 1 hi) hlen',
      List.getD_append _ _ _ _ hi, List.getD_eq_getElem _ _ hi]
  · rw [withBytes_at (by rw [List.length_append]; exact Nat.lt_succ_self _) hlen',
      List.getD_append_right _ _ _ _ (Nat.le_refl _), Nat.sub_self]
    rfl

/-! ### The loop -/

section Digits

variable {table : List (BitVec 8)} {base num : Nat} {hb : 1 < base} {str a : BitVec 64}
  {s : Stored}

theorem sub_one_sub (str : BitVec 64) (n : Nat) :
    str - 1 - BitVec.ofNat 64 n = str - BitVec.ofNat 64 (n + 1) := by
  rw [BitVec.sub_sub, BitVec.ofNat_add, BitVec.add_comm]
  rfl

/-- **The digits**, the most significant one first, end in front of `str`. -/
theorem putDigits_eq (h : (Nat.digits base num).length < 18446744073709551616) :
    (putDigits table base hb num str s).1 =
      str - BitVec.ofNat 64 (Nat.digits base num).length ∧
    (putDigits table base hb num str s).2.mem =
      withBytes s.mem (str - BitVec.ofNat 64 (Nat.digits base num).length)
        ((Nat.digits base num).reverse.map (table.getD · 0)) := by
  induction num using Nat.strong_induction_on generalizing str s with
  | _ num ih =>
      rw [putDigits]
      split
      · rename_i hzero
        subst hzero
        rw [Nat.digits_zero, List.length_nil, BitVec.sub_zero]
        exact ⟨rfl, (withBytes_nil _ _).symm⟩
      · rename_i hne
        have hdigits := Nat.digits_def' hb (Nat.pos_of_ne_zero hne)
        rw [hdigits, List.length_cons] at h ⊢
        obtain ⟨hret, hmem⟩ := @ih _ (Nat.div_lt_self (Nat.pos_of_ne_zero hne) hb)
          (str - 1) (s.put (str - 1) (table.getD (num % base) 0)) (by omega)
        have hlen : ((Nat.digits base (num / base)).reverse.map (table.getD · 0)).length =
            (Nat.digits base (num / base)).length := by
          rw [List.length_map, List.length_reverse]
        rw [← sub_one_sub, List.reverse_cons, List.map_append, List.map_singleton,
          ← withBytes_front (by rw [List.length_append, hlen]; exact h), hlen,
          BitVec.sub_add_cancel, ← update_eq_withBytes]
        exact ⟨hret, hmem⟩

/-- **Where the digits are stored**: in front of `str`, one byte for each. -/
theorem mem_stores_putDigits (h : (Nat.digits base num).length < 18446744073709551616) :
    a ∈ (putDigits table base hb num str s).2.stores ↔ a ∈ s.stores ∨
      a ∈ span (str - BitVec.ofNat 64 (Nat.digits base num).length)
        (Nat.digits base num).length := by
  induction num using Nat.strong_induction_on generalizing str s with
  | _ num ih =>
      rw [putDigits]
      split
      · rename_i hzero
        subst hzero
        rw [Nat.digits_zero, List.length_nil, mem_span, or_iff_left (Nat.not_lt_zero _)]
      · rename_i hne
        have hdigits := Nat.digits_def' hb (Nat.pos_of_ne_zero hne)
        rw [hdigits, List.length_cons] at h ⊢
        rw [ih _ (Nat.div_lt_self (Nat.pos_of_ne_zero hne) hb) (by omega), ← sub_one_sub,
          mem_span_succ (by omega), BitVec.sub_add_cancel]
        show a ∈ (str - 1) :: s.stores ∨ _ ↔ _
        rw [List.mem_cons, or_assoc, or_left_comm, or_comm (a := a = str - 1)]

/-- The characters of the digits all have what those of the table have. -/
theorem of_mem_digits {P : BitVec 8 → Prop} (hb : 1 < base)
    (h : ∀ d, d < base → P (table.getD d 0)) {b : BitVec 8}
    (hmem : b ∈ (Nat.digits base num).reverse.map (table.getD · 0)) : P b := by
  obtain ⟨d, hd, rfl⟩ := List.mem_map.mp hmem
  exact h d (Nat.digits_lt_base hb (List.mem_reverse.mp hd))

/-- The digits, read back with what each character of the table stands for. -/
theorem ofDigits_digits_map {value : BitVec 8 → Nat} (hb : 1 < base)
    (h : ∀ d, d < base → value (table.getD d 0) = d) :
    Nat.ofDigits base (((Nat.digits base num).reverse.map (table.getD · 0)).reverse.map value) =
      num := by
  have hmap : (Nat.digits base num).map (fun d => value (table.getD d 0)) =
      Nat.digits base num := by
    refine List.map_congr_left (g := id) (fun d hd => ?_) |>.trans (List.map_id _)
    exact h d (Nat.digits_lt_base hb hd)
  rw [← List.map_reverse, List.reverse_reverse, List.map_map]
  exact (congrArg _ hmap).trans (Nat.ofDigits_digits base num)

end Digits

section Itoa

variable {buf num : BitVec 64} {m : Mem}

/-- A 64-bit number has 20 digits at most. -/
theorem digits_length_le (num : BitVec 64) : (Nat.digits 10 num.toNat).length ≤ 20 := by
  rw [Nat.digits_length_le_iff (by decide)]
  have := num.isLt
  omega

/-- The `NUL` goes to the byte behind the buffer. -/
theorem nul_stored : buf + BitVec.ofNat 64 maxNumStringLen ∈ (itoa buf num m).2.stores :=
  (mem_stores_putDigits (Nat.lt_of_le_of_lt (digits_length_le num) (by decide))).mpr
    (Or.inl List.mem_cons_self)

theorem not_inside : ¬ ∀ a ∈ (itoa buf num m).2.stores, a ∈ span buf maxNumStringLen :=
  fun h => notMem_span_behind buf (by decide) (h _ nul_stored)

/-- The digit characters, and what they stand for. -/
theorem numeric_digit {d : Nat} (hd : d < 10) :
    IsDigit (numeric.getD d 0) ∧ (numeric.getD d 0).toNat - 48 = d := by
  unfold IsDigit
  interval_cases d <;> decide

/-- The digits of the number, the most significant one first. -/
def decimalDigits (num : BitVec 64) : List (BitVec 8) :=
  (Nat.digits 10 num.toNat).reverse.map (numeric.getD · 0)

theorem decimalDigits_isDigit {b : BitVec 8} (hb : b ∈ decimalDigits num) : IsDigit b :=
  of_mem_digits (by decide) (fun d hd => (numeric_digit hd).1) hb

/-- The digits have the value of the number. -/
theorem decimalValue_decimalDigits (num : BitVec 64) :
    decimalValue (decimalDigits num) = num.toNat :=
  ofDigits_digits_map (by decide) fun d hd => (numeric_digit hd).2

theorem length_decimalDigits (num : BitVec 64) :
    (decimalDigits num).length = (Nat.digits 10 num.toNat).length := by
  rw [decimalDigits, List.length_map, List.length_reverse]

/-- Where the string starts. -/
def offset (num : BitVec 64) : Nat := 49 - (decimalDigits num).length

theorem decimalDigits_length_le (num : BitVec 64) : (decimalDigits num).length ≤ 20 := by
  rw [length_decimalDigits]
  exact digits_length_le num

/-- **What `itoa` does**: the digits end in front of the last byte of the buffer. -/
theorem itoa_eq (buf num : BitVec 64) (m : Mem) :
    (itoa buf num m).1 = buf + BitVec.ofNat 64 (offset num) ∧
    (itoa buf num m).2.mem =
      withBytes (Function.update m (buf + BitVec.ofNat 64 maxNumStringLen) 0)
        (buf + BitVec.ofNat 64 (offset num)) (decimalDigits num) := by
  have hlen := digits_length_le num
  have hoff : buf + BitVec.ofNat 64 (maxNumStringLen - 1) -
      BitVec.ofNat 64 (Nat.digits 10 num.toNat).length = buf + BitVec.ofNat 64 (offset num) := by
    rw [add_ofNat_sub buf (Nat.le_trans hlen (by decide)), offset,
      length_decimalDigits]
    rfl
  rw [← hoff]
  exact putDigits_eq (by omega)

/-- The bytes of the digits. -/
theorem itoa_digit {i : Nat} (hi : i < (decimalDigits num).length) :
    (itoa buf num m).2.mem ((itoa buf num m).1 + BitVec.ofNat 64 i) = (decimalDigits num)[i] := by
  have hlen := decimalDigits_length_le num
  obtain ⟨hret, hmem⟩ := itoa_eq buf num m
  rw [hmem, hret, withBytes_at hi (by omega), List.getD_eq_getElem _ _ hi]

/-- The byte behind the digits is left as it was. -/
theorem itoa_last :
    (itoa buf num m).2.mem ((itoa buf num m).1 + BitVec.ofNat 64 (decimalDigits num).length) =
      m (buf + BitVec.ofNat 64 49) := by
  have hlen := decimalDigits_length_le num
  obtain ⟨hret, hmem⟩ := itoa_eq buf num m
  have hlast : (itoa buf num m).1 + BitVec.ofNat 64 (decimalDigits num).length =
      buf + BitVec.ofNat 64 49 := by
    rw [hret, BitVec.add_assoc, ← BitVec.ofNat_add, offset, Nat.sub_add_cancel (by omega)]
  rw [hmem, ← hret, withBytes_of_notMem (notMem_span_behind _ (by omega)), hlast,
    Function.update_of_ne]
  intro he
  have hoff := congrArg (fun x => (x - buf).toNat) he
  rw [toNat_sub_add buf (by decide), toNat_sub_add buf (by decide)] at hoff
  exact absurd hoff (by decide)

theorem IsDigit.ne_zero {b : BitVec 8} (h : IsDigit b) : b ≠ 0 := by
  rintro rfl
  exact absurd h.1 (by decide)

/-- **Where the string is right**: just where the last byte of the buffer was `0` before. -/
theorem prints_iff (buf num : BitVec 64) (m : Mem) :
    Prints buf num m ↔ m (buf + BitVec.ofNat 64 49) = 0 := by
  have hlen := decimalDigits_length_le num
  have hret : ((itoa buf num m).1 - buf).toNat = 49 - (decimalDigits num).length := by
    rw [(itoa_eq buf num m).1, toNat_sub_add buf (by unfold offset; omega)]
    rfl
  constructor
  · rintro ⟨s, hs, hin, -, -⟩
    rw [hret, maxNumStringLen] at hin
    -- a `NUL` in front of the last byte would be a digit
    have hge : ¬ s.length < (decimalDigits num).length := by
      intro hlt
      have hnul := hs.nul
      rw [itoa_digit hlt] at hnul
      exact (decimalDigits_isDigit (List.getElem_mem hlt)).ne_zero hnul
    have hnul := hs.nul
    rwa [show s.length = (decimalDigits num).length by omega, itoa_last] at hnul
  · intro hlast
    refine ⟨decimalDigits num, ⟨fun i hi => itoa_digit hi, fun b hb => ?_, ?_⟩, ?_, fun b hb => ?_,
      decimalValue_decimalDigits num⟩
    · exact (decimalDigits_isDigit hb).ne_zero
    · rw [itoa_last, hlast]
    · rw [hret, maxNumStringLen]
      omega
    · exact decimalDigits_isDigit hb

/-- **`itoa` never keeps inside the buffer of its callers**, whatever the number and the buffer. -/
theorem itoa_not_decimalPrinting (buf num : BitVec 64) (m : Mem) :
    ¬ DecimalPrinting buf num m := fun h => not_inside h.inside

/-- The number 7 in a buffer of blanks: a byte behind the buffer is written, and no `NUL` is in
it. -/
theorem itoa_seven_blanks :
    ¬ DecimalPrinting 4096 7 (fun _ => 32) ∧ ¬ Prints 4096 7 (fun _ => 32) :=
  ⟨fun h => not_inside h.inside, by rw [prints_iff]; decide⟩

end Itoa

end FrazzOS.Klibc

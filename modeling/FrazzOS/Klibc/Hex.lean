import FrazzOS.Klibc.String

/-!
# Klibc — Hex

`ull_to_hex` of `klibc/string.c`: a number in hexadecimal, behind `0x`, in a buffer that is filled
with zeros first.

The prefix and sixteen digits take all of the buffer its callers declare, so the `NUL` goes one byte
behind it.  The digits of the number end at the last byte of the buffer, and the zeros in front of
them are those that the buffer was filled with.

* `mem_ullToHex`: the string that is in memory afterwards.
* `prints_ullToHex`: it is that of the number, for every number.
* `mem_stores_ullToHex`: what is written, the buffer and the byte behind it.
* `ullToHex_not_hexPrinting`: so `ull_to_hex` keeps inside the buffer for no number.
-/

namespace FrazzOS.Klibc

open Memory

def hexStringMax : Nat := 18

def hexBase : Nat := 16

/-- `"0123456789abcdefghijklmnopqrstuvwxyz"`. -/
def alphaNumeric : List (BitVec 8) :=
  numeric ++ [97, 98, 99, 100, 101, 102, 103, 104, 105, 106, 107, 108, 109, 110, 111, 112, 113, 114,
    115, 116, 117, 118, 119, 120, 121, 122]

/-- `ull_to_hex` up to its loop. -/
def hexFrame (buf : BitVec 64) (m : Mem) : Stored :=
  let s := (memset buf 48 (BitVec.ofNat 64 hexStringMax) ⟨m, []⟩).2
  let s := s.put buf 48
  let s := s.put (buf + 1) 120
  s.put (buf + BitVec.ofNat 64 hexStringMax) 0

/-- `ull_to_hex`: the pointer it returns, the memory after it and where it stored. -/
def ullToHex (buf num : BitVec 64) (m : Mem) : BitVec 64 × Stored :=
  (buf, (putDigits alphaNumeric hexBase (by decide) num.toNat
    (buf + BitVec.ofNat 64 hexStringMax) (hexFrame buf m)).2)

def IsHexDigit (b : BitVec 8) : Prop := IsDigit b ∨ 97 ≤ b.toNat ∧ b.toNat ≤ 102

/-- What a hex digit stands for. -/
def hexDigitValue (b : BitVec 8) : Nat := if b.toNat ≤ 57 then b.toNat - 48 else b.toNat - 87

/-- The value of a string of hex digits. -/
def hexValue (s : List (BitVec 8)) : Nat := Nat.ofDigits 16 (s.reverse.map hexDigitValue)

/-- What `ull_to_hex` returns is, with its `NUL`, the string of `0x` and hex digits for the
number. -/
def HexPrints (buf num : BitVec 64) (m : Mem) : Prop :=
  ∃ digits, StringAt (ullToHex buf num m).2.mem (ullToHex buf num m).1 (48 :: 120 :: digits) ∧
    (∀ b ∈ digits, IsHexDigit b) ∧ hexValue digits = num.toNat

/-- All that `ull_to_hex` stores lies in the buffer, and it prints the number. -/
structure HexPrinting (buf num : BitVec 64) (m : Mem) : Prop where
  inside : ∀ a ∈ (ullToHex buf num m).2.stores, a ∈ span buf hexStringMax
  prints : HexPrints buf num m

variable {buf num a : BitVec 64} {m : Mem}

/-! ### The buffer before the loop -/

/-- The string in the buffer before the loop. -/
theorem mem_hexFrame (buf : BitVec 64) (m : Mem) :
    (hexFrame buf m).mem = withBytes m buf ([48, 120] ++ List.replicate 16 48 ++ [0]) := by
  have hfilled : _ = withBytes m buf (List.replicate 18 48) :=
    (filled_memset buf 48 (BitVec.ofNat 64 hexStringMax) ⟨m, []⟩).mem
  have hzero : withBytes (withBytes m buf (List.replicate 18 48)) buf [48] =
      withBytes m buf (List.replicate 18 48) := by
    have h := @withBytes_over m buf [] [48] (List.replicate 17 48) [48] rfl (by decide)
    rw [List.length_nil, BitVec.add_zero] at h
    exact h
  have hprefix : withBytes (withBytes m buf (List.replicate 18 48)) (buf + 1) [120] =
      withBytes m buf ([48, 120] ++ List.replicate 16 48) :=
    @withBytes_over m buf [48] [48] (List.replicate 16 48) [120] rfl (by decide)
  show Function.update (Function.update (Function.update
    (memset buf 48 (BitVec.ofNat 64 hexStringMax) ⟨m, []⟩).2.mem buf 48) (buf + 1) 120)
    (buf + BitVec.ofNat 64 hexStringMax) 0 = _
  rw [hfilled, update_eq_withBytes _ buf, hzero, update_eq_withBytes _ (buf + 1), hprefix,
    update_eq_withBytes]
  exact withBytes_behind (by decide)

/-- The bytes written before the loop. -/
theorem mem_stores_hexFrame (buf : BitVec 64) (m : Mem) :
    a ∈ (hexFrame buf m).stores ↔ a ∈ span buf (hexStringMax + 1) := by
  have hfilled := (filled_memset buf 48 (BitVec.ofNat 64 hexStringMax) ⟨m, []⟩).stores a
  show a ∈ (buf + BitVec.ofNat 64 hexStringMax) :: (buf + 1) :: buf ::
    (memset buf 48 (BitVec.ofNat 64 hexStringMax) ⟨m, []⟩).2.stores ↔ _
  rw [List.mem_cons, List.mem_cons, List.mem_cons, hfilled, mem_span_succ (by decide)]
  constructor
  · rintro (h | rfl | rfl | h | h)
    · exact Or.inr h
    · refine Or.inl ?_
      show (buf + BitVec.ofNat 64 1 - buf).toNat < hexStringMax
      rw [toNat_sub_add buf (by decide)]
      decide
    · refine Or.inl ?_
      rw [mem_span, BitVec.sub_self]
      decide
    · exact absurd h List.not_mem_nil
    · exact Or.inl h
  · rintro (h | h)
    · exact Or.inr (Or.inr (Or.inr (Or.inr h)))
    · exact Or.inl h

/-! ### The digits -/

theorem hexDigits_length_le (num : BitVec 64) : (Nat.digits hexBase num.toNat).length ≤ 16 := by
  rw [hexBase, Nat.digits_length_le_iff (by decide)]
  exact num.isLt

/-- The characters of hex digits, and what they stand for. -/
theorem alphaNumeric_digit {d : Nat} (hd : d < hexBase) :
    IsHexDigit (alphaNumeric.getD d 0) ∧ hexDigitValue (alphaNumeric.getD d 0) = d := by
  unfold hexBase at hd
  unfold IsHexDigit IsDigit
  interval_cases d <;> decide

/-- The sixteen digits in the buffer: those of the number, with zeros in front of them. -/
def hexDigits (num : BitVec 64) : List (BitVec 8) :=
  List.replicate (16 - (Nat.digits hexBase num.toNat).length) 48 ++
    (Nat.digits hexBase num.toNat).reverse.map (alphaNumeric.getD · 0)

theorem length_hexDigits (num : BitVec 64) : (hexDigits num).length = 16 := by
  have hlen := hexDigits_length_le num
  rw [hexDigits, List.length_append, List.length_replicate, List.length_map, List.length_reverse]
  omega

theorem hexDigits_isHexDigit {b : BitVec 8} (hb : b ∈ hexDigits num) : IsHexDigit b := by
  rcases List.mem_append.mp hb with h | h
  · rw [List.eq_of_mem_replicate h]
    exact Or.inl (by unfold IsDigit; decide)
  · exact of_mem_digits (by decide) (fun d hd => (alphaNumeric_digit hd).1) h

theorem hexValue_hexDigits (num : BitVec 64) : hexValue (hexDigits num) = num.toNat := by
  rw [hexValue, hexDigits, List.reverse_append, List.reverse_replicate, List.map_append,
    List.map_replicate, show hexDigitValue 48 = 0 by decide, Nat.ofDigits_append_replicate_zero]
  exact ofDigits_digits_map (by decide) fun d hd => (alphaNumeric_digit hd).2

/-! ### The whole -/

/-- Where the digits of the number start. -/
theorem digits_start (buf num : BitVec 64) :
    buf + BitVec.ofNat 64 hexStringMax - BitVec.ofNat 64 (Nat.digits hexBase num.toNat).length =
      buf + BitVec.ofNat 64 (18 - (Nat.digits hexBase num.toNat).length) :=
  add_ofNat_sub buf (Nat.le_trans (hexDigits_length_le num) (by decide))

/-- **The string in memory**: the prefix, the digits and the `NUL`. -/
theorem mem_ullToHex (buf num : BitVec 64) (m : Mem) :
    (ullToHex buf num m).2.mem = withBytes m buf (48 :: 120 :: hexDigits num ++ [0]) := by
  have hlen := hexDigits_length_le num
  obtain ⟨-, hmem⟩ := @putDigits_eq alphaNumeric hexBase num.toNat (by decide)
    (buf + BitVec.ofNat 64 hexStringMax) (hexFrame buf m) (by omega)
  rw [digits_start, mem_hexFrame] at hmem
  rw [ullToHex, hmem, hexDigits]
  generalize hdigits : Nat.digits hexBase num.toNat = digits at hlen ⊢
  -- the zeros that the digits are put over, and those in front of them
  have hzeros : ([48, 120] ++ List.replicate 16 48 : List (BitVec 8)) =
      [48, 120] ++ List.replicate (16 - digits.length) 48 ++ List.replicate digits.length 48 := by
    rw [List.append_assoc, List.replicate_append_replicate, Nat.sub_add_cancel hlen]
  have hstart : 18 - digits.length =
      ([48, 120] ++ List.replicate (16 - digits.length) 48 : List (BitVec 8)).length := by
    rw [List.length_append, List.length_replicate]
    show 18 - digits.length = 2 + (16 - digits.length)
    omega
  rw [hzeros, hstart, withBytes_over]
  · simp only [List.append_assoc, List.cons_append, List.nil_append]
  · simp only [List.length_replicate, List.length_map, List.length_reverse]
  · simp only [List.length_append, List.length_replicate, List.length_cons, List.length_nil]
    omega

/-- **What is written**: the buffer, and the byte behind it. -/
theorem mem_stores_ullToHex (buf num : BitVec 64) (m : Mem) :
    a ∈ (ullToHex buf num m).2.stores ↔ a ∈ span buf (hexStringMax + 1) := by
  have hlen := hexDigits_length_le num
  rw [ullToHex, mem_stores_putDigits (by omega), mem_stores_hexFrame, digits_start,
    mem_span_offset (by omega) (by omega), mem_span]
  unfold hexStringMax
  omega

theorem IsHexDigit.ne_zero {b : BitVec 8} (h : IsHexDigit b) : b ≠ 0 := by
  rcases h with h | h
  · exact h.ne_zero
  · rintro rfl
    exact absurd h.1 (by decide)

/-- **The string is right**, for every number and every buffer. -/
theorem prints_ullToHex (buf num : BitVec 64) (m : Mem) : HexPrints buf num m := by
  have hne : ∀ b ∈ 48 :: 120 :: hexDigits num, b ≠ 0 :=
    List.forall_mem_cons.mpr ⟨by decide, List.forall_mem_cons.mpr ⟨by decide,
      fun b hb => (hexDigits_isHexDigit hb).ne_zero⟩⟩
  refine ⟨hexDigits num, ?_, fun b hb => hexDigits_isHexDigit hb, hexValue_hexDigits num⟩
  rw [mem_ullToHex]
  refine stringAt_withBytes hne ?_
  rw [List.length_cons, List.length_cons, length_hexDigits]
  decide

/-- The byte behind the buffer is among those written. -/
theorem ullToHex_not_inside (buf num : BitVec 64) (m : Mem) :
    ¬ ∀ a ∈ (ullToHex buf num m).2.stores, a ∈ span buf hexStringMax := by
  intro h
  have hbehind : buf + BitVec.ofNat 64 hexStringMax ∈ (ullToHex buf num m).2.stores :=
    (mem_stores_ullToHex buf num m).mpr ((mem_span_succ (by decide)).mpr (Or.inr rfl))
  exact notMem_span_behind buf (by decide) (h _ hbehind)

/-- **`ull_to_hex` never keeps inside the buffer of its callers**, whatever the number and the
buffer. -/
theorem ullToHex_not_hexPrinting (buf num : BitVec 64) (m : Mem) : ¬ HexPrinting buf num m :=
  fun h => ullToHex_not_inside buf num m h.inside

/-- The number 255 in a buffer of 18 bytes at `4096`: the `NUL` is written at `4114`. -/
theorem ullToHex_byte_behind : (4114 : BitVec 64) ∈ (ullToHex 4096 255 fun _ => 0).2.stores ∧
    (4114 : BitVec 64) ∉ span 4096 hexStringMax ∧ ¬ HexPrinting 4096 255 fun _ => 0 := by
  refine ⟨(mem_stores_ullToHex 4096 255 _).mpr ?_, notMem_span_behind 4096 (by decide),
    fun h => ullToHex_not_inside _ _ _ h.inside⟩
  rw [mem_span]
  decide

end FrazzOS.Klibc

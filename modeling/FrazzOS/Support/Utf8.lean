import Mathlib.Algebra.Group.Nat.Defs
import Mathlib.Tactic.Common

/-!
# Support — Utf8

The bytes of a character in UTF-8, for the proofs about decoders.

A character above `U+007F` is a first byte and `n` bytes of six bits behind it (`encode_eq`).  A
decoder that goes from the first byte to the last one has the upper part of the code point after
each of them, `upper v k` where `k` bytes are left (`upper_step`).
-/

namespace Utf8

/-- The bytes of a character. -/
def encode (c : Char) : List (BitVec 8) := (String.utf8EncodeChar c).map UInt8.toBitVec

/-- The byte with the bits from `6 * k` on. -/
def cont (v k : Nat) : BitVec 8 := BitVec.ofNat 8 (0x80 + v / 64 ^ k % 64)

/-- The last `n` bytes. -/
def tails (v : Nat) : Nat → List (BitVec 8)
  | 0 => []
  | n + 1 => cont v n :: tails v n

/-- The first byte, with the bits that `n` bytes have no room for. -/
inductive Lead (v : Nat) : Nat → BitVec 8 → Prop
  | one (h : v / 64 ^ 1 < 32) : Lead v 1 (BitVec.ofNat 8 (0xc0 + v / 64 ^ 1))
  | two (h : v / 64 ^ 2 < 16) : Lead v 2 (BitVec.ofNat 8 (0xe0 + v / 64 ^ 2))
  | three (h : v / 64 ^ 3 < 8) : Lead v 3 (BitVec.ofNat 8 (0xf0 + v / 64 ^ 3))

/-- The bits from `6 * k` on. -/
def upper (v k : Nat) : Nat := v / 64 ^ k * 64 ^ k

/-! ### The bytes -/

theorem toBitVec_ofNat {a b : Nat} (h : a = b) : (UInt8.ofNat a).toBitVec = BitVec.ofNat 8 b :=
  congrArg (BitVec.ofNat 8) h

theorem toNat_lt (c : Char) : c.toNat < 0x110000 := by
  have hvalid : c.toNat < 0xd800 ∨ 0xdfff < c.toNat ∧ c.toNat < 0x110000 := c.valid
  omega

theorem encode_of_lt {c : Char} (h : c.toNat < 0x80) : encode c = [BitVec.ofNat 8 c.toNat] := by
  have hle : c.val.toNat ≤ 0x7f := Nat.le_of_lt_succ h
  rw [encode, String.utf8EncodeChar, if_pos hle]
  rfl

/-- **A character above `U+007F`** has a first byte, and the others behind it. -/
theorem encode_eq {c : Char} (h : 0x80 ≤ c.toNat) :
    ∃ n b, Lead c.toNat n b ∧ encode c = b :: tails c.toNat n := by
  have hlt := toNat_lt c
  have hval : c.val.toNat = c.toNat := rfl
  rw [encode, String.utf8EncodeChar, hval]
  generalize c.toNat = v at h hlt
  rw [if_neg (by omega)]
  split
  · refine ⟨1, _, .one (by omega), ?_⟩
    simp only [List.map_cons, List.map_nil, tails, cont, List.cons.injEq, and_true]
    exact ⟨toBitVec_ofNat (by omega), toBitVec_ofNat (by omega)⟩
  split
  · refine ⟨2, _, .two (by omega), ?_⟩
    simp only [List.map_cons, List.map_nil, tails, cont, List.cons.injEq, and_true]
    exact ⟨toBitVec_ofNat (by omega), toBitVec_ofNat (by omega), toBitVec_ofNat (by omega)⟩
  · refine ⟨3, _, .three (by omega), ?_⟩
    simp only [List.map_cons, List.map_nil, tails, cont, List.cons.injEq, and_true]
    exact ⟨toBitVec_ofNat (by omega), toBitVec_ofNat (by omega), toBitVec_ofNat (by omega),
      toBitVec_ofNat (by omega)⟩

/-- A byte behind the first one: its two marks, and its six bits. -/
theorem cont_bits (v k : Nat) :
    cont v k &&& 0xc0 = 0x80 ∧ (cont v k &&& 0x3f).toNat = v / 64 ^ k % 64 := by
  have hall : ∀ r < 64, BitVec.ofNat 8 (0x80 + r) &&& 0xc0 = 0x80 ∧
      (BitVec.ofNat 8 (0x80 + r) &&& 0x3f).toNat = r := by decide
  exact hall _ (Nat.mod_lt _ (by decide))

/-! ### The code point -/

theorem upper_zero (v : Nat) : upper v 0 = v := by
  rw [upper, Nat.pow_zero, Nat.div_one, Nat.mul_one]

/-- **A byte more**: it has the next bits of the code point. -/
theorem upper_step (v k : Nat) :
    upper v (k + 1) ||| (v / 64 ^ k % 64) <<< (6 * k) = upper v k := by
  have hshift : ∀ q : Nat, q * 64 ^ k = q <<< (6 * k) := fun q => by
    rw [Nat.shiftLeft_eq, Nat.pow_mul]
  have hlt : v / 64 ^ k % 64 < 2 ^ 6 := Nat.mod_lt _ (by decide)
  have hnext : upper v (k + 1) = (v / 64 ^ k / 64) <<< 6 <<< (6 * k) := by
    rw [upper, Nat.pow_succ, ← Nat.div_div_eq_div_mul, Nat.mul_comm (64 ^ k), ← Nat.mul_assoc,
      hshift, Nat.shiftLeft_eq _ 6]
  rw [hnext, ← Nat.shiftLeft_or_distrib, ← Nat.shiftLeft_add_eq_or_of_lt hlt, Nat.shiftLeft_eq _ 6,
    Nat.div_add_mod', ← hshift, upper]

end Utf8

import FrazzOS.Support.Memory

/-!
# Support — Fields

The fields of a packed record in memory, little-endian and one behind the other, and words that are
cut into fields.

* `append_setWidth`, `mask_setWidth`: the parts of a word put together again, and a part masked out
  before it is shifted down.
* `withBytes_field`: a byte of a field, in the run of the record.
* `read16_le16`, `read32_le32`: a field is read back, wherever it lies in the run.
-/

namespace Fields

open Memory

def le16 (v : BitVec 16) : List (BitVec 8) := [v.setWidth 8, (v >>> 8).setWidth 8]

def le32 (v : BitVec 32) : List (BitVec 8) :=
  [v.setWidth 8, (v >>> 8).setWidth 8, (v >>> 16).setWidth 8, (v >>> 24).setWidth 8]

@[simp] theorem length_le16 (v : BitVec 16) : (le16 v).length = 2 := rfl

@[simp] theorem length_le32 (v : BitVec 32) : (le32 v).length = 4 := rfl

/-- The 16-bit word at `a`. -/
def read16 (m : Mem) (a : BitVec 64) : BitVec 16 := m (a + 1) ++ m a

/-! ### Parts of a word -/

/-- A part of a word in front of the part below it. -/
theorem append_setWidth {w : Nat} (x : BitVec w) (k n : Nat) :
    (x >>> k).setWidth n ++ x.setWidth k = x.setWidth (n + k) := by
  apply BitVec.eq_of_getLsbD_eq
  intro i hi
  rw [BitVec.getLsbD_append, BitVec.getLsbD_setWidth, BitVec.getLsbD_setWidth,
    BitVec.getLsbD_setWidth, decide_eq_true hi, Bool.true_and]
  split
  · rename_i hlow
    rw [decide_eq_true hlow, Bool.true_and]
  · rename_i hhigh
    rw [decide_eq_true (by omega), Bool.true_and, BitVec.getLsbD_ushiftRight,
      Nat.add_sub_cancel' (by omega)]

/-- A part of a word, masked out before it is shifted down. -/
theorem mask_setWidth (x : BitVec 64) {lo n : Nat} (h : lo + n ≤ 64) :
    ((x &&& (BitVec.allOnes n).setWidth 64 <<< lo) >>> lo).setWidth n = (x >>> lo).setWidth n := by
  apply BitVec.eq_of_getLsbD_eq
  intro i hi
  have h₀ : lo + i < 64 := by omega
  have h₁ : i < 64 := by omega
  simp [hi, h₀, h₁]

/-- An address cut into the fields of a descriptor. -/
theorem mask_low (x : BitVec 64) : (x &&& 0xFFFF).setWidth 16 = x.setWidth 16 := by
  have h := mask_setWidth x (show 0 + 16 ≤ 64 by decide)
  rw [BitVec.ushiftRight_zero, BitVec.ushiftRight_zero] at h
  exact h

theorem mask_mid (x : BitVec 64) :
    ((x &&& 0xFFFF0000) >>> 16).setWidth 16 = (x >>> 16).setWidth 16 := by
  rw [show (0xFFFF0000 : BitVec 64) = (BitVec.allOnes 16).setWidth 64 <<< 16 by decide]
  exact mask_setWidth x (by decide)

theorem mask_high (x : BitVec 64) :
    ((x &&& 0xFFFFFFFF00000000) >>> 32).setWidth 32 = (x >>> 32).setWidth 32 := by
  rw [show (0xFFFFFFFF00000000 : BitVec 64) = (BitVec.allOnes 32).setWidth 64 <<< 32 by decide]
  exact mask_setWidth x (by decide)

/-- The fields of an address put together again. -/
theorem append_parts (x : BitVec 64) :
    (x >>> 32).setWidth 32 ++ (x >>> 16).setWidth 16 ++ x.setWidth 16 = x := by
  have h := append_setWidth (x >>> 16) 16 32
  rw [← BitVec.shiftRight_add] at h
  rw [h, append_setWidth]
  exact BitVec.setWidth_eq x

/-- Nothing is left of a part: it was cast before it was shifted. -/
theorem setWidth_ushiftRight_eq_zero {w n k : Nat} (x : BitVec w) (h : n ≤ k) :
    x.setWidth n >>> k = 0#n := by
  apply BitVec.eq_of_getLsbD_eq
  intro i hi
  rw [BitVec.getLsbD_ushiftRight, BitVec.getLsbD_setWidth, decide_eq_false (by omega)]
  simp

theorem le16_append (v : BitVec 16) : (v >>> 8).setWidth 8 ++ v.setWidth 8 = v :=
  (append_setWidth v 8 8).trans (BitVec.setWidth_eq v)

theorem le32_append (v : BitVec 32) :
    (v >>> 24).setWidth 8 ++ (v >>> 16).setWidth 8 ++ (v >>> 8).setWidth 8 ++ v.setWidth 8 = v := by
  have h₁ := append_setWidth (v >>> 16) 8 8
  have h₂ := append_setWidth (v >>> 8) 8 16
  rw [← BitVec.shiftRight_add] at h₁ h₂
  rw [h₁, h₂, append_setWidth]
  exact BitVec.setWidth_eq v

/-! ### Fields of a record -/

variable {m : Mem} {a : BitVec 64} {bytes front back : List (BitVec 8)} {i : Nat}

/-- A byte of a field, behind the fields in front of it. -/
theorem withBytes_field (hi : i < bytes.length)
    (hlen : (front ++ bytes ++ back).length ≤ 18446744073709551616) :
    withBytes m a (front ++ bytes ++ back) (a + BitVec.ofNat 64 (front.length + i)) =
      bytes.getD i 0 := by
  rw [withBytes_at (by simp only [List.length_append]; omega) hlen, List.append_assoc,
    List.getD_append_right _ _ _ _ (Nat.le_add_right _ _), Nat.add_sub_cancel_left,
    List.getD_append _ _ _ _ hi]

/-- The address of a byte of a field. -/
theorem add_ofNat_add (a : BitVec 64) (n i : Nat) :
    a + BitVec.ofNat 64 n + BitVec.ofNat 64 i = a + BitVec.ofNat 64 (n + i) := by
  rw [BitVec.add_assoc, ← BitVec.ofNat_add]

/-- Memories with the same bytes at two places have the same words there. -/
theorem read16_congr {m' : Mem} {a' : BitVec 64}
    (h : ∀ i, i < 2 → m (a + BitVec.ofNat 64 i) = m' (a' + BitVec.ofNat 64 i)) :
    read16 m a = read16 m' a' := by
  have h₀ := h 0 (by decide)
  rw [BitVec.add_zero, BitVec.add_zero] at h₀
  exact congrArg₂ (· ++ ·) (h 1 (by decide)) h₀

theorem read32_congr {m' : Mem} {a' : BitVec 64}
    (h : ∀ i, i < 4 → m (a + BitVec.ofNat 64 i) = m' (a' + BitVec.ofNat 64 i)) :
    read32 m a = read32 m' a' := by
  have h₀ := h 0 (by decide)
  rw [BitVec.add_zero, BitVec.add_zero] at h₀
  exact congrArg₂ (· ++ ·) (congrArg₂ (· ++ ·) (congrArg₂ (· ++ ·) (h 3 (by decide))
    (h 2 (by decide))) (h 1 (by decide))) h₀

/-- **A field of two bytes is read back.** -/
theorem read16_le16 (m : Mem) (a : BitVec 64) (front : List (BitVec 8)) (v : BitVec 16)
    (back : List (BitVec 8))
    (hlen : (front ++ le16 v ++ back).length ≤ 18446744073709551616) :
    read16 (withBytes m a (front ++ le16 v ++ back)) (a + BitVec.ofNat 64 front.length) = v := by
  have h₀ := withBytes_field (m := m) (a := a) (i := 0) (by simp) hlen
  have h₁ := withBytes_field (m := m) (a := a) (i := 1) (by simp) hlen
  rw [← add_ofNat_add] at h₁
  rw [Nat.add_zero] at h₀
  exact (congrArg₂ (· ++ ·) h₁ h₀).trans (le16_append v)

/-- **A field of four bytes is read back.** -/
theorem read32_le32 (m : Mem) (a : BitVec 64) (front : List (BitVec 8)) (v : BitVec 32)
    (back : List (BitVec 8))
    (hlen : (front ++ le32 v ++ back).length ≤ 18446744073709551616) :
    read32 (withBytes m a (front ++ le32 v ++ back)) (a + BitVec.ofNat 64 front.length) = v := by
  have h₀ := withBytes_field (m := m) (a := a) (i := 0) (by simp) hlen
  have h₁ := withBytes_field (m := m) (a := a) (i := 1) (by simp) hlen
  have h₂ := withBytes_field (m := m) (a := a) (i := 2) (by simp) hlen
  have h₃ := withBytes_field (m := m) (a := a) (i := 3) (by simp) hlen
  rw [← add_ofNat_add] at h₁ h₂ h₃
  rw [Nat.add_zero] at h₀
  exact (congrArg₂ (· ++ ·) (congrArg₂ (· ++ ·) (congrArg₂ (· ++ ·) h₃ h₂) h₁) h₀).trans
    (le32_append v)

end Fields

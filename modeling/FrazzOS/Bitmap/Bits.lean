import Mathlib.Logic.Function.Basic
import Mathlib.Tactic.Common

/-!
# Bitmap — Bits

The bitmap of `mm/pmm.c` and its copy in `klibc/bitmap.c`: an array of 64-bit words, one bit an
index.  Both build the mask of an index as `1 << (idx % BITS_PER_BLOCK)`, a shift of an `int`:
x86-64 takes its count modulo 32, and the `int` is sign-extended when it meets the 64-bit word.
So the mask of `idx` depends only on `idx % 32`, and that of `31` covers the bits `31 … 63`.

* `Shares i j`: `i` and `j` have one mask in one word.
* `testBit_setBit`, `testBit_clearBit`: setting or clearing `i` does to `j` what it does to `i`
  exactly when they share.
-/

namespace FrazzOS.Bitmap

/-- `BITS_PER_BLOCK` of `mm/mm.h`. -/
def bitsPerBlock : Nat := 64

/-- The words that a `uint64_t *` reaches, by their distance from it. -/
abbrev Words := Int → BitVec 64

/-- `1 << (idx % BITS_PER_BLOCK)`, as the 64-bit operand it becomes. -/
def bitMask (idx : Nat) : BitVec 64 :=
  (1#32 <<< (idx % bitsPerBlock % 32)).signExtend 64

/-- `~(1 << (idx % BITS_PER_BLOCK))`: the complement is taken on the `int`. -/
def clearMask (idx : Nat) : BitVec 64 :=
  (~~~(1#32 <<< (idx % bitsPerBlock % 32))).signExtend 64

/-- `map[idx / BITS_PER_BLOCK] |= (1 << (idx % BITS_PER_BLOCK))`. -/
def setBit (map : Words) (idx : Nat) : Words :=
  Function.update map (idx / bitsPerBlock : Nat) (map (idx / bitsPerBlock : Nat) ||| bitMask idx)

/-- `map[idx / BITS_PER_BLOCK] &= ~(1 << (idx % BITS_PER_BLOCK))`. -/
def clearBit (map : Words) (idx : Nat) : Words :=
  Function.update map (idx / bitsPerBlock : Nat) (map (idx / bitsPerBlock : Nat) &&& clearMask idx)

/-- `map[idx / BITS_PER_BLOCK] & (1 << (idx % BITS_PER_BLOCK))`, as a `bool`. -/
def testBit (map : Words) (idx : Nat) : Bool :=
  map (idx / bitsPerBlock : Nat) &&& bitMask idx != 0

/-- `idx` tests free. -/
abbrev Free (map : Words) (idx : Nat) : Prop := testBit map idx = false

/-- `i` and `j` have the same mask in the same word. -/
def Shares (i j : Nat) : Prop := i / bitsPerBlock = j / bitsPerBlock ∧ i % 32 = j % 32

instance (i j : Nat) : Decidable (Shares i j) := inferInstanceAs (Decidable (_ ∧ _))

theorem Shares.refl (i : Nat) : Shares i i := ⟨rfl, rfl⟩

theorem Shares.symm {i j : Nat} (h : Shares i j) : Shares j i := ⟨h.1.symm, h.2.symm⟩

/-- The other index with the mask of `i` in its word. -/
def partner (i : Nat) : Nat := if i % bitsPerBlock < 32 then i + 32 else i - 32

theorem shares_iff_partner (i j : Nat) : Shares i j ↔ j = i ∨ j = partner i := by
  unfold Shares partner bitsPerBlock
  split <;> omega

theorem partner_ne (i : Nat) : i ≠ partner i := by
  unfold partner bitsPerBlock
  split <;> omega

theorem partner_low {i : Nat} (h : i % bitsPerBlock < 32) : partner i = i + 32 := if_pos h
theorem partner_high {i : Nat} (h : 32 ≤ i % bitsPerBlock) : partner i = i - 32 :=
  if_neg (Nat.not_lt.mpr h)

/-- A range that is not made of whole words has an index whose partner lies outside. -/
theorem exists_partner_outside {start count : Nat} (hcount : 0 < count)
    (h : ¬ (start % bitsPerBlock = 0 ∧ count % bitsPerBlock = 0)) :
    ∃ i, start ≤ i ∧ i < start + count ∧ (partner i < start ∨ start + count ≤ partner i) := by
  have hle := Nat.mod_le start bitsPerBlock
  by_cases hs : start % bitsPerBlock = 0
  · -- the range ends inside a word: its last index, or the one whose partner comes next
    by_cases hlast : (start + count - 1) % bitsPerBlock < 32
    · refine ⟨start + count - 1, by omega, by omega, Or.inr ?_⟩
      rw [partner_low hlast]
      omega
    · have hmid : (start + count - 32) % bitsPerBlock < 32 := by unfold bitsPerBlock at *; omega
      refine ⟨start + count - 32, by unfold bitsPerBlock at *; omega, by omega, Or.inr ?_⟩
      rw [partner_low hmid]
      omega
  · -- it starts inside a word: its first index, or the one whose partner starts the word
    by_cases hfirst : 32 ≤ start % bitsPerBlock
    · refine ⟨start, Nat.le_refl _, by omega, Or.inl ?_⟩
      rw [partner_high hfirst]
      omega
    · by_cases hc : count ≤ 32
      · refine ⟨start, Nat.le_refl _, by omega, Or.inr ?_⟩
        rw [partner_low (by omega)]
        omega
      · have hmid : 32 ≤ (start - start % bitsPerBlock + 32) % bitsPerBlock := by
          unfold bitsPerBlock at *; omega
        refine ⟨start - start % bitsPerBlock + 32, by omega, by omega, Or.inl ?_⟩
        rw [partner_high hmid]
        omega

/-! ### The masks -/

/-- The mask by the residue of its index modulo 32. -/
def residueMask (r : Fin 32) : BitVec 64 := (1#32 <<< r.val).signExtend 64

theorem residueMask_ne_zero : ∀ r : Fin 32, residueMask r ≠ 0 := by decide +kernel

theorem residueMask_disjoint : ∀ r s : Fin 32, r ≠ s → residueMask r &&& residueMask s = 0 := by
  decide +kernel

theorem residueMask_compl : ∀ r : Fin 32,
    (~~~(1#32 <<< r.val)).signExtend 64 = ~~~residueMask r := by decide +kernel

theorem bitMask_eq (idx : Nat) :
    bitMask idx = residueMask ⟨idx % 32, Nat.mod_lt _ (by decide)⟩ := by
  simp only [bitMask, residueMask, bitsPerBlock, Nat.mod_mod_of_dvd idx (show 32 ∣ 64 by decide)]

theorem clearMask_eq (idx : Nat) : clearMask idx = ~~~bitMask idx := by
  rw [bitMask_eq, ← residueMask_compl]
  simp only [clearMask, bitsPerBlock, Nat.mod_mod_of_dvd idx (show 32 ∣ 64 by decide)]

theorem bitMask_ne_zero (idx : Nat) : bitMask idx ≠ 0 := by
  rw [bitMask_eq]; exact residueMask_ne_zero _

theorem bitMask_congr {i j : Nat} (h : i % 32 = j % 32) : bitMask i = bitMask j := by
  simp only [bitMask_eq, h]

theorem bitMask_disjoint {i j : Nat} (h : i % 32 ≠ j % 32) : bitMask i &&& bitMask j = 0 := by
  rw [bitMask_eq, bitMask_eq]
  exact residueMask_disjoint _ _ fun e => h (congrArg Fin.val e)

/-- Every mask meets the full word. -/
theorem allOnes_and_bitMask (idx : Nat) : BitVec.allOnes 64 &&& bitMask idx ≠ 0 := by
  rw [BitVec.allOnes_and]; exact bitMask_ne_zero idx

theorem or_bitMask_and {i j : Nat} (w : BitVec 64) :
    (w ||| bitMask i) &&& bitMask j ≠ 0 ↔ i % 32 = j % 32 ∨ w &&& bitMask j ≠ 0 := by
  rw [BitVec.and_or_distrib_right]
  by_cases h : i % 32 = j % 32
  · rw [bitMask_congr h, BitVec.and_self]
    simp only [h, true_or, iff_true]
    exact fun hz => bitMask_ne_zero j (BitVec.or_eq_zero_iff.mp hz).2
  · simp [h, bitMask_disjoint h]

theorem and_clearMask_and {i j : Nat} (w : BitVec 64) :
    (w &&& clearMask i) &&& bitMask j ≠ 0 ↔ i % 32 ≠ j % 32 ∧ w &&& bitMask j ≠ 0 := by
  rw [clearMask_eq, BitVec.and_assoc]
  by_cases h : i % 32 = j % 32
  · rw [bitMask_congr h, BitVec.and_comm (~~~_), BitVec.and_not_self]
    simp [h]
  · have : ~~~bitMask i &&& bitMask j = bitMask j := by
      calc ~~~bitMask i &&& bitMask j
          = (~~~bitMask i &&& bitMask j) ||| (bitMask i &&& bitMask j) := by
            rw [bitMask_disjoint h]; exact BitVec.or_zero.symm
        _ = bitMask j := by
            rw [← BitVec.and_or_distrib_right, BitVec.or_comm, BitVec.or_not_self]
            exact BitVec.allOnes_and
    simp [h, this]

/-! ### The three operations -/

theorem testBit_iff (map : Words) (idx : Nat) :
    testBit map idx = true ↔ map (idx / bitsPerBlock : Nat) &&& bitMask idx ≠ 0 := by
  simp [testBit]

/-- **Setting a bit**: `j` tests used after it if it shares with `i` or did before. -/
theorem testBit_setBit (map : Words) (i j : Nat) :
    testBit (setBit map i) j = true ↔ Shares i j ∨ testBit map j = true := by
  rw [testBit_iff, testBit_iff, setBit]
  by_cases h : i / bitsPerBlock = j / bitsPerBlock
  · rw [h, Function.update_self, or_bitMask_and]
    simp [Shares, h]
  · rw [Function.update_of_ne (fun e => h (Int.natCast_inj.mp e).symm)]
    simp [Shares, h]

/-- **Clearing a bit**: `j` tests used after it if it did before and does not share with `i`. -/
theorem testBit_clearBit (map : Words) (i j : Nat) :
    testBit (clearBit map i) j = true ↔ ¬ Shares i j ∧ testBit map j = true := by
  rw [testBit_iff, testBit_iff, clearBit]
  by_cases h : i / bitsPerBlock = j / bitsPerBlock
  · rw [h, Function.update_self, and_clearMask_and]
    simp [Shares, h]
  · rw [Function.update_of_ne (fun e => h (Int.natCast_inj.mp e).symm)]
    simp [Shares, h]

/-- Indices with one mask test the same. -/
theorem testBit_of_shares {i j : Nat} (h : Shares i j) (map : Words) :
    testBit map i = testBit map j := by
  obtain ⟨hw, hm⟩ := h
  simp only [testBit, hw, bitMask_congr hm]

/-! ### Ranges of bits -/

/-- `for (uint64_t i = start; …; i++) set_bit(i)`, `count` rounds. -/
def setBits (map : Words) (start : Nat) : Nat → Words
  | 0 => map
  | count + 1 => setBits (setBit map start) (start + 1) count

/-- `for (uint64_t i = start; …; i++) clear_bit(i)`, `count` rounds. -/
def clearBits (map : Words) (start : Nat) : Nat → Words
  | 0 => map
  | count + 1 => clearBits (clearBit map start) (start + 1) count

theorem testBit_setBits (count : Nat) : ∀ (map : Words) (start j : Nat),
    testBit (setBits map start count) j = true ↔
      (∃ i, start ≤ i ∧ i < start + count ∧ Shares i j) ∨ testBit map j = true := by
  induction count with
  | zero => intro map start j; simp only [setBits]; constructor
            · exact Or.inr
            · rintro (⟨i, h₀, h₁, -⟩ | h)
              · omega
              · exact h
  | succ count ih =>
      intro map start j
      rw [setBits, ih, testBit_setBit]
      constructor
      · rintro (⟨i, h₀, h₁, hs⟩ | hs | h)
        · exact Or.inl ⟨i, by omega, by omega, hs⟩
        · exact Or.inl ⟨start, by omega, by omega, hs⟩
        · exact Or.inr h
      · rintro (⟨i, h₀, h₁, hs⟩ | h)
        · by_cases e : i = start
          · exact Or.inr (Or.inl (e ▸ hs))
          · exact Or.inl ⟨i, by omega, by omega, hs⟩
        · exact Or.inr (Or.inr h)

theorem testBit_clearBits (count : Nat) : ∀ (map : Words) (start j : Nat),
    testBit (clearBits map start count) j = true ↔
      (¬ ∃ i, start ≤ i ∧ i < start + count ∧ Shares i j) ∧ testBit map j = true := by
  induction count with
  | zero =>
      intro map start j
      simp only [clearBits]
      refine ⟨fun h => ⟨?_, h⟩, And.right⟩
      rintro ⟨i, h₀, h₁, -⟩
      omega
  | succ count ih =>
      intro map start j
      rw [clearBits, ih, testBit_clearBit]
      constructor
      · rintro ⟨hno, hs, h⟩
        refine ⟨?_, h⟩
        rintro ⟨i, h₀, h₁, hi⟩
        by_cases e : i = start
        · exact hs (e ▸ hi)
        · exact hno ⟨i, by omega, by omega, hi⟩
      · rintro ⟨hno, h⟩
        refine ⟨?_, fun hi => hno ⟨start, by omega, by omega, hi⟩, h⟩
        rintro ⟨i, h₀, h₁, hi⟩
        exact hno ⟨i, by omega, by omega, hi⟩

/-! ### The bits of word `0` -/

theorem residueMask_getLsbD : ∀ (r : Fin 32) (k : Fin 64),
    (~~~residueMask r).getLsbD k = decide (r.val ≠ min k.val 31) := by decide +kernel

/-- The bits that a mask leaves: those of other residues, where `31` stands for all of
`31 … 63`. -/
theorem getLsbD_clearMask (idx : Nat) (k : Fin 64) :
    (clearMask idx).getLsbD k = decide (idx % 32 ≠ min k.val 31) := by
  rw [clearMask_eq, bitMask_eq, residueMask_getLsbD]

theorem getLsbD_clearBits (k : Fin 64) (count : Nat) : ∀ (map : Words) (start : Nat),
    (clearBits map start count 0).getLsbD k = true ↔
      (¬ ∃ p, start ≤ p ∧ p < start + count ∧ p < 64 ∧ p % 32 = min k.val 31) ∧
        (map 0).getLsbD k = true := by
  induction count with
  | zero =>
      intro map start
      simp only [clearBits]
      refine ⟨fun h => ⟨?_, h⟩, And.right⟩
      rintro ⟨p, h₀, h₁, -⟩
      omega
  | succ count ih =>
      intro map start
      have hone : (clearBit map start 0).getLsbD k = true ↔
          ¬ (start < 64 ∧ start % 32 = min k.val 31) ∧ (map 0).getLsbD k = true := by
        by_cases hw : start < 64
        · have hz : start / bitsPerBlock = 0 := Nat.div_eq_of_lt hw
          rw [clearBit, hz, Int.natCast_zero, Function.update_self, BitVec.getLsbD_and,
            getLsbD_clearMask]
          simp [hw, and_comm]
        · have hz : (0 : Int) ≠ (start / bitsPerBlock : Nat) := by unfold bitsPerBlock; omega
          rw [clearBit, Function.update_of_ne hz]
          simp [hw]
      rw [clearBits, ih, hone]
      constructor
      · rintro ⟨hno, hs, h⟩
        refine ⟨?_, h⟩
        rintro ⟨p, h₀, h₁, hp⟩
        by_cases e : p = start
        · exact hs (e ▸ hp)
        · exact hno ⟨p, by omega, by omega, hp⟩
      · rintro ⟨hno, h⟩
        refine ⟨?_, fun hp => hno ⟨start, by omega, by omega, hp⟩, h⟩
        rintro ⟨p, h₀, h₁, hp⟩
        exact hno ⟨p, by omega, by omega, hp⟩

end FrazzOS.Bitmap

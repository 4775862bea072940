import FrazzOS.Bitmap.Short
import FrazzOS.Heap.Malloc

/-!
# Heap — fresh blocks

What holds of `malloc` whatever memory holds behind `heap.bitmap`.

* `malloc_keeps`: a call leaves every used block used, and the arena where it is.
* `malloc_two_blocks`: a call for two blocks returns the pointer of a block that tested free and
  now tests used.
* `mallocBlock_enomem_mono`: where there is no memory for a request, there is none for a larger one.
-/

namespace FrazzOS.Heap
open Bitmap CInt FirstFit

variable {h h' : HeapState} {size size' ptr : BitVec 64}

/-- A call leaves every used block used. -/
theorem malloc_keeps (hm : malloc h size = some (ptr, h')) :
    h'.heapAddr = h.heapAddr ∧ ∀ b, testBit h.bitmap b = true → testBit h'.bitmap b = true := by
  rcases malloc_cases hm with ⟨-, -, rfl⟩ | ⟨start, -, -, -, -, -, rfl⟩
  · exact ⟨rfl, fun _ hb => hb⟩
  · refine ⟨rfl, fun b hb => ?_⟩
    rw [takeBlocks, testBit_setBits]
    exact Or.inr hb

/-- The blocks that the search can return for two blocks: those of `buffer_long_size` words, and
of one word more. -/
def searchedBlocks : Nat := bufferLongSize * bitsPerBlock + 64

/-- The block, with the pointer that stands for it, of a request for two blocks. -/
theorem malloc_two_blocks (hsize : (blockCount size).toNat = 2)
    (hm : malloc h size = some (ptr, h')) :
    (mallocBlock h size = some none ∧ ptr = enomemPtr ∧ h' = h) ∨
    ∃ start : Nat, start < searchedBlocks ∧ ptr = h.heapAddr + BitVec.ofNat 64 (128 * start) ∧
      Free h.bitmap start ∧ testBit h'.bitmap start = true := by
  have hwords : bufferLongSize * bitsPerBlock + 128 ≤ 2147483648 := by decide
  have hsearched : searchedBlocks < 134217728 := by decide
  rcases malloc_cases hm with hno | ⟨r, -, -, hr, hr₁, rfl, rfl⟩
  · exact Or.inl hno
  · rw [mallocStart, hsize] at hr
    rcases findFit_pair hwords (by decide) hr with rfl | ⟨w, rfl, hw⟩
    · exact absurd rfl hr₁
    · have hw : w < searchedBlocks := hw
      refine Or.inr ⟨w, hw, blockPtr_eq h (by omega), ?_, ?_⟩
      · have hf := findFit_free (by omega) (Int.natCast_nonneg w) (by omega) hr
        exact hf 0 (by decide)
      · rw [takeBlocks, markedRange_eq (by omega), testBit_setBits, hsize]
        exact Or.inl ⟨w, Nat.le_refl w, by omega, Shares.refl w⟩

/-- **Where there is no memory for a request, there is none for a larger one.** -/
theorem mallocBlock_enomem_mono (hle : blockCount size ≤ blockCount size')
    (hb : mallocBlock h size = some none) : mallocBlock h size' = some none := by
  rw [mallocBlock] at hb ⊢
  by_cases hlt : h.freeBlocks < blockCount size'
  · rw [if_pos hlt]
  · have hlt' : ¬ h.freeBlocks < blockCount size := fun hl =>
      hlt (BitVec.lt_def.mpr (Nat.lt_of_lt_of_le (BitVec.lt_def.mp hl) (BitVec.le_def.mp hle)))
    rw [if_neg hlt'] at hb
    rw [if_neg hlt]
    cases hs : mallocStart h size with
    | none => rw [hs] at hb; cases hb
    | some r =>
        rw [hs] at hb
        simp only at hb
        split at hb
        · rename_i hr
          subst hr
          have := findFit_enomem_mono (by decide) (BitVec.le_def.mp hle) (by decide) hs
          rw [mallocStart, this]
          rfl
        · cases hb

end FrazzOS.Heap

import FrazzOS.Bitmap.Outcome
import FrazzOS.Heap.Malloc

/-!
# Heap — bounds

The words of `heap.bitmap` that one call of `malloc` reads and writes (`Bounded`), and what it
returns where no run of free blocks is long enough (`Exhausts`).

The search runs over `bufferLongSize` words, eight times the array: with no run inside the array
it does not end with `ENOMEM` there but reads the word behind it.  So a call stays in the array,
and keeps to the rule for a full heap, exactly when the count of free blocks turns it away or the
array has a run for it (`heap_bounds_iff`).
-/

namespace FrazzOS.Heap
open Bitmap CInt FirstFit Runs

/-- Every word of `heap.bitmap` that `malloc` reads or writes lies in the array: the reads of its
search, and the words of the blocks it marks. -/
structure Bounded (h : HeapState) (size : BitVec 64) : Prop where
  reads : h.freeBlocks < blockCount size ∨
    findFit (within heapWords h.bitmap) bufferLongSize (blockCount size).toNat ≠ none
  writes : ∀ start, mallocBlock h size = some (some start) → ∀ b,
    (markedRange size start).1 ≤ b → b < (markedRange size start).1 + (markedRange size start).2 →
    b / bitsPerBlock < heapWords

/-- The blocks `p … p + size / BLOCK_SIZE - 1` lie in the array and are free. -/
def FreeRun (h : HeapState) (size : BitVec 64) (p : Nat) : Prop :=
  p + (blockCount size).toNat ≤ heapBlocks ∧ Fits (Free h.bitmap) (blockCount size).toNat p

/-- With no run of `size / BLOCK_SIZE` free blocks in the array, `malloc` returns `ENOMEM` and
changes nothing. -/
def Exhausts (h : HeapState) (size : BitVec 64) : Prop :=
  (∀ p, ¬ FreeRun h size p) → malloc h size = some (enomemPtr, h)

/-- The search of `malloc`, its reads answered only in the array: the start of a free run, or a
read outside. -/
theorem mallocStart_outcome (h : HeapState) (size : BitVec 64) :
    (∃ w : Nat, findFit (within heapWords h.bitmap) bufferLongSize (blockCount size).toNat =
        some (some (w : Int)) ∧ w < heapBlocks ∧ Free h.bitmap w ∧ FreeRun h size w) ∨
    ((∀ p, p < heapBlocks → Free h.bitmap p → ¬ FreeRun h size p) ∧
      findFit (within heapWords h.bitmap) bufferLongSize (blockCount size).toNat = none) := by
  have hblocks : heapWords * bitsPerBlock = heapBlocks := by decide
  have hwords : heapWords < bufferLongSize := by decide
  rcases findFit_outcome h.bitmap (blockCount size).toNat
      (Nat.le_of_lt hwords) (by decide) (Nat.le_refl (heapWords * bitsPerBlock)) (by decide)
      (fun y _ _ => by omega) with
    ⟨w, hw, hfree, hf, hlt, hend⟩ | ⟨hfull, hr⟩ | ⟨-, hno, hr⟩
  · rw [hblocks] at hlt hend
    exact Or.inl ⟨w, hw, hlt, hfree, hend, hf⟩
  · rw [hblocks] at hfull
    rw [if_pos (Or.inl hwords)] at hr
    exact Or.inr ⟨fun p hp hfree => absurd hfree (hfull p hp), hr⟩
  · rw [if_pos (Or.inr hwords)] at hr
    exact Or.inr ⟨fun p _ _ hrun => hno p (hblocks ▸ hrun.1) hrun.2, hr⟩

/-- A request past the count of free blocks reads and writes no word, and changes nothing. -/
theorem mallocBlock_of_lt {h : HeapState} {size : BitVec 64} (hlt : h.freeBlocks < blockCount size) :
    mallocBlock h size = some none := if_pos hlt

/-- The blocks marked are those of the run that the search found in the array. -/
theorem marked_of_run {h : HeapState} {size : BitVec 64} {w : Nat}
    (hw : findFit (within heapWords h.bitmap) bufferLongSize (blockCount size).toNat =
      some (some (w : Int))) (hlt : w < heapBlocks) (hrun : FreeRun h size w) {start : Int}
    (hstart : mallocBlock h size = some (some start)) {b : Nat}
    (h₀ : (markedRange size start).1 ≤ b)
    (h₁ : b < (markedRange size start).1 + (markedRange size start).2) :
    b / bitsPerBlock < heapWords := by
  have hblocks : heapWords * bitsPerBlock = heapBlocks := by decide
  have hint : heapBlocks < 2147483648 := by decide
  by_cases hn : (blockCount size).toNat = 0
  · have : toUInt64 start < 18446744073709551616 := toUInt64_lt start
    simp only [markedRange, hn] at h₀ h₁
    omega
  · have hs : mallocStart h size = some (w : Int) := findFit_run hw
    have he : start = w := by
      rw [mallocBlock] at hstart
      split at hstart
      · cases hstart
      · rw [hs] at hstart
        simp only [show (w : Int) ≠ -1 by omega, if_false] at hstart
        exact (Option.some.inj (Option.some.inj hstart)).symm
    subst he
    rw [markedRange_eq (by omega)] at h₀ h₁
    have := hrun.1
    unfold bitsPerBlock at *; omega

/-- **Heap search bounds and exhaustion**: a call of `malloc` stays in the array and keeps to the
rule for a full heap exactly when there are fewer free blocks counted than it asks for, or the
array has a run of free blocks for it, which for a request below `BLOCK_SIZE` is any free block. -/
theorem heap_bounds_iff (h : HeapState) (size : BitVec 64) :
    (Bounded h size ∧ Exhausts h size) ↔
      h.freeBlocks < blockCount size ∨
        ∃ p, p < heapBlocks ∧ Free h.bitmap p ∧ FreeRun h size p := by
  constructor
  · rintro ⟨⟨hreads, -⟩, -⟩
    rcases hreads with hlt | hreads
    · exact Or.inl hlt
    · rcases mallocStart_outcome h size with ⟨w, -, hw⟩ | ⟨-, hr⟩
      · exact Or.inr ⟨w, hw⟩
      · exact absurd hr hreads
  · rintro (hlt | ⟨p, hp, hfree, hrun⟩)
    · refine ⟨⟨Or.inl hlt, fun start hs => ?_⟩, fun _ => ?_⟩
      · rw [mallocBlock_of_lt hlt] at hs
        cases hs
      · rw [malloc, mallocBlock_of_lt hlt]
    · rcases mallocStart_outcome h size with ⟨w, hw, hlt, -, hwrun⟩ | ⟨hno, -⟩
      · exact ⟨⟨Or.inr (by rw [hw]; exact Option.some_ne_none _),
          fun start hs b h₀ h₁ => marked_of_run hw hlt hwrun hs h₀ h₁⟩,
          fun hnone => absurd hrun (hnone p)⟩
      · exact absurd hrun (hno p hp hfree)

/-- After one request for one block, a request for all the blocks still counted free: the blocks
`0` and `32` test used, and the search for a run reads behind `heap.bitmap`. -/
theorem heap_bounds_torn :
    Reachable (takeBlocks (heapInit (fun _ => 0) 0x1000000) 16 0) ∧
      ¬ Bounded (takeBlocks (heapInit (fun _ => 0) 0x1000000) 16 0) 104857584 := by
  refine ⟨⟨fun _ => 0, 0x1000000, [16], .one ⟨_, malloc_of_start (r := 0) (by decide)
    (by decide +kernel) (by decide)⟩⟩, ?_⟩
  rintro ⟨hreads, -⟩
  rcases hreads with hlt | hreads
  · exact absurd hlt (by decide)
  · rcases mallocStart_outcome (takeBlocks (heapInit (fun _ => 0) 0x1000000) 16 0) 104857584 with
      ⟨w, -, -, -, hend, hfit⟩ | ⟨-, hr⟩
    · -- every run of so many blocks of the array contains block `0` or block `32`
      have hused : ∀ b, Shares 0 b →
          ¬ Free (takeBlocks (heapInit (fun _ => 0) 0x1000000) 16 0).bitmap b := by
        intro b hb hfree
        have : testBit (takeBlocks (heapInit (fun _ => 0) 0x1000000) 16 0).bitmap b = true := by
          rw [takeBlocks, testBit_setBits]
          exact Or.inl ⟨0, by decide, by decide, hb⟩
        rw [Free, this] at hfree
        cases hfree
      have hn : (blockCount 104857584).toNat = 6553599 := by decide
      have hb : heapBlocks = 6553600 := by decide
      rw [hn] at hend hfit
      by_cases hw : w = 0
      · exact hused 0 (by decide) (hfit.free_of_mem (by omega) (by omega))
      · exact hused 32 (by decide) (hfit.free_of_mem (by omega) (by omega))
    · exact hreads hr

end FrazzOS.Heap

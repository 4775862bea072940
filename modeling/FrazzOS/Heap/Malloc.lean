import FrazzOS.Bitmap.Within
import FrazzOS.Mm
import FrazzOS.Support.Runs

/-!
# Heap — Malloc

The kernel heap of `mm/heap.c` and `klibc/alloc.c`: `FRAZZOS_HEAP_SIZE` bytes in blocks of
`BLOCK_SIZE`, one bit of `heap.bitmap` a block.  `malloc` marks `size / BLOCK_SIZE` blocks; there
is no `free`.

The words of `Heap.bitmap` from `heapWords` on are what memory holds behind `struct heap`: the
search runs over `bufferLongSize` words, which is the array's length in bytes.
-/

namespace FrazzOS.Heap
open Bitmap CInt FirstFit Runs

/-- `FRAZZOS_HEAP_SIZE`. -/
def frazzosHeapSize : Nat := 104857600

/-- `BLOCK_SIZE`. -/
def blockSize : Nat := 16

/-- `FRAZZOS_HEAP_SIZE / BLOCK_SIZE`. -/
def heapBlocks : Nat := frazzosHeapSize / blockSize

/-- The length of `heap.bitmap`. -/
def heapWords : Nat := heapBlocks / bitsPerBlock

/-- `buffer_long_size` of `malloc`. -/
def bufferLongSize : Nat := heapBlocks / bitsPerBlock * 8

/-- `struct heap`. -/
structure HeapState where
  heapAddr : BitVec 64
  usedBlocks : BitVec 64
  freeBlocks : BitVec 64
  bitmap : Words

/-- `heap_init`, where `pmm_alloc` returned `frame` and the words from `heap.bitmap` on were
`words`. -/
def heapInit (words : Words) (frame : BitVec 64) : HeapState where
  heapAddr := physToHh frame
  usedBlocks := 0
  freeBlocks := BitVec.ofNat 64 heapBlocks
  bitmap := fun i => if 0 ≤ i ∧ i < heapWords then 0 else words i

/-- `size / BLOCK_SIZE`. -/
def blockCount (size : BitVec 64) : BitVec 64 := size / BitVec.ofNat 64 blockSize

/-- The search of `malloc`: `start` where its loop ends. -/
def mallocStart (h : HeapState) (size : BitVec 64) : Option Int :=
  (findFit (peek h.bitmap) bufferLongSize (blockCount size).toNat).run

/-- `heap.heap_addr + (start * BLOCK_SIZE)`, where `heap_addr` is a `uint64_t *`. -/
def blockPtr (h : HeapState) (start : Int) : BitVec 64 :=
  h.heapAddr + BitVec.ofInt 64 (8 * toInt32 (start * blockSize))

/-- The blocks that the last loop of `malloc` marks: the first, and how many. -/
def markedRange (size : BitVec 64) (start : Int) : Nat × Nat :=
  let first := toUInt64 start
  (first, (first + (blockCount size).toNat) % 18446744073709551616 - first)

/-- The end of `malloc`, once the search has ended at `start`. -/
def takeBlocks (h : HeapState) (size : BitVec 64) (start : Int) : HeapState :=
  { h with
    bitmap := setBits h.bitmap (markedRange size start).1 (markedRange size start).2
    freeBlocks := h.freeBlocks - blockCount size
    usedBlocks := h.usedBlocks + blockCount size }

/-- Where `malloc` ends: `none` when its loop does not, else `ENOMEM` (`some none`) or the block
index `start`. -/
def mallocBlock (h : HeapState) (size : BitVec 64) : Option (Option Int) :=
  if h.freeBlocks < blockCount size then some none
  else
    match mallocStart h size with
    | none => none
    | some start => if start = -1 then some none else some (some start)

/-- `malloc`. -/
def malloc (h : HeapState) (size : BitVec 64) : Option (BitVec 64 × HeapState) :=
  match mallocBlock h size with
  | none => none
  | some none => some (enomemPtr, h)
  | some (some start) => some (blockPtr h start, takeBlocks h size start)

/-- One call of `malloc` that returns. -/
def MallocStep (h : HeapState) (size : BitVec 64) (h' : HeapState) : Prop :=
  ∃ ptr, malloc h size = some (ptr, h')

/-- A heap after `heap_init` and any calls of `malloc`. -/
def Reachable (h : HeapState) : Prop :=
  ∃ words frame sizes, Run MallocStep (heapInit words frame) sizes h

/-! ### Where `malloc` ends -/

theorem blockCount_toNat (size : BitVec 64) : (blockCount size).toNat = size.toNat / blockSize := by
  unfold blockCount blockSize
  rw [BitVec.toNat_udiv]; rfl

theorem malloc_of_start {h : HeapState} {size : BitVec 64} {r : Int}
    (hfree : blockCount size ≤ h.freeBlocks) (hs : mallocStart h size = some r)
    (hne : r ≠ -1) :
    malloc h size = some (blockPtr h r, takeBlocks h size r) := by
  have hb : mallocBlock h size = some (some r) := by
    rw [mallocBlock, if_neg (BitVec.not_lt.mpr hfree), hs]
    exact if_neg hne
  rw [malloc, hb]

/-- The two ways in which `malloc` returns. -/
theorem malloc_cases {h h' : HeapState} {size ptr : BitVec 64}
    (hm : malloc h size = some (ptr, h')) :
    (mallocBlock h size = some none ∧ ptr = enomemPtr ∧ h' = h) ∨
    ∃ start, mallocBlock h size = some (some start) ∧ blockCount size ≤ h.freeBlocks ∧
      mallocStart h size = some start ∧ start ≠ -1 ∧
      ptr = blockPtr h start ∧ h' = takeBlocks h size start := by
  rw [malloc] at hm
  cases hb : mallocBlock h size with
  | none => rw [hb] at hm; cases hm
  | some b =>
      rw [hb] at hm
      cases b with
      | none => cases hm; exact Or.inl ⟨rfl, rfl, rfl⟩
      | some start =>
          cases hm
          refine Or.inr ⟨start, rfl, ?_⟩
          rw [mallocBlock] at hb
          split at hb
          · cases hb
          · rename_i hlt
            refine ⟨BitVec.not_lt.mp hlt, ?_⟩
            cases hs : mallocStart h size with
            | none => rw [hs] at hb; cases hb
            | some s =>
                rw [hs] at hb
                simp only at hb
                split at hb
                · cases hb
                · rename_i hne
                  cases hb
                  exact ⟨rfl, hne, rfl, rfl⟩

/-- The marking of a start that is not negative: the `size / BLOCK_SIZE` blocks from it on. -/
theorem markedRange_eq {size : BitVec 64} {start : Nat} (hs : start < 2147483648) :
    markedRange size start = (start, (blockCount size).toNat) := by
  have hn : (blockCount size).toNat < 2305843009213693952 := by
    have := size.isLt
    rw [blockCount_toNat]; unfold blockSize; omega
  have hlast : (start + (blockCount size).toNat) % 18446744073709551616 - start =
      (blockCount size).toNat := by omega
  simp only [markedRange, toUInt64_natCast (show start < 18446744073709551616 by omega), hlast]

/-- The pointer of a block of the array. -/
theorem blockPtr_eq (h : HeapState) {start : Nat} (hs : start < 134217728) :
    blockPtr h start = h.heapAddr + BitVec.ofNat 64 (128 * start) := by
  have hint : toInt32 (start * blockSize) = (start * blockSize : Nat) := by
    rw [← Int.natCast_mul]
    exact toInt32_of_range (by omega) (by unfold blockSize; omega)
  have he : (8 * (start * blockSize : Nat) : Int) = ((128 * start : Nat) : Int) := by
    unfold blockSize; omega
  rw [blockPtr, hint, he, BitVec.ofInt_natCast]

/-- After `heap_init` every block tests free. -/
theorem free_heapInit {words : Words} {frame : BitVec 64} {b : Nat} (hb : b < heapBlocks) :
    Free (heapInit words frame).bitmap b := by
  have hw : b / bitsPerBlock < heapWords := by
    have h₀ : heapBlocks = heapWords * bitsPerBlock := by decide
    have h₁ : bitsPerBlock = 64 := rfl
    rw [h₀] at hb
    exact Nat.div_lt_of_lt_mul (by rwa [Nat.mul_comm])
  have hz : (heapInit words frame).bitmap (b / bitsPerBlock : Nat) = 0 := by
    simp only [heapInit]
    rw [if_pos ⟨Int.natCast_nonneg _, Int.ofNat_lt.mpr hw⟩]
  rw [Free, testBit, hz]
  show (0#64 &&& bitMask b != 0#64) = false
  rw [BitVec.zero_and]
  rfl

/-- The words that the search runs over fit an `int` by their bits. -/
theorem bufferLongSize_le : bufferLongSize * bitsPerBlock ≤ 2147483648 := by decide

end FrazzOS.Heap

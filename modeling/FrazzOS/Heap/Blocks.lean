import FrazzOS.Bitmap.Stops
import FrazzOS.Heap.Malloc
import Mathlib.Data.Set.Basic

/-!
# Heap — Blocks

Block `b` of the heap stands for the bytes `[16 b, 16 b + 16)` of the arena.  A call respects
that when the range it returns lies in the blocks it marks and in the arena (`InMarkedBlocks`).

* `malloc_in_blocks_iff`: of the successful calls from a reachable heap, exactly those respect it
  that find no block used yet and ask for a multiple of `BLOCK_SIZE`.  `malloc` adds
  `start * BLOCK_SIZE` to a `uint64_t *`, which scales it by 8 once more, and marks
  `size / BLOCK_SIZE` blocks, rounded down.
* `Counted`: the invariant of reachable heaps, that the counters add up and that block `0` tests
  used as soon as a block is counted as used.
-/

namespace FrazzOS.Heap
open Bitmap CInt FirstFit Runs

/-- The bytes of block `b`. -/
def blockBytes (h : HeapState) (b : Nat) : Set (BitVec 64) :=
  {x | b * blockSize ≤ (x - h.heapAddr).toNat ∧
    (x - h.heapAddr).toNat < b * blockSize + blockSize}

/-- The blocks that this call marks: those of its loop over `bitmap_set_bit`. -/
def markedBlocks (h : HeapState) (size : BitVec 64) : Set Nat :=
  {b | ∃ start, mallocStart h size = some start ∧ (markedRange size start).1 ≤ b ∧
    b < (markedRange size start).1 + (markedRange size start).2}

/-- The range `[ptr, ptr + size)` lies in the blocks that the call marks, and in the
`FRAZZOS_HEAP_SIZE` bytes at `heap.heap_addr`. -/
def InMarkedBlocks (h : HeapState) (size ptr : BitVec 64) : Prop :=
  ∀ i, i < size.toNat →
    (∃ b ∈ markedBlocks h size, ptr + BitVec.ofNat 64 i ∈ blockBytes h b) ∧
    (ptr + BitVec.ofNat 64 i - h.heapAddr).toNat < frazzosHeapSize

/-! ### The counters of a reachable heap -/

/-- The counters add up to the number of blocks; with none used, every block tests free, and else
block `0` tests used. -/
structure Counted (h : HeapState) : Prop where
  total : h.usedBlocks.toNat + h.freeBlocks.toNat = heapBlocks
  fresh : h.usedBlocks = 0 → ∀ b, b < heapBlocks → Free h.bitmap b
  first : h.usedBlocks ≠ 0 → ¬ Free h.bitmap 0

theorem counted_heapInit (words : Words) (frame : BitVec 64) : Counted (heapInit words frame) where
  total := by
    show (0 : BitVec 64).toNat + (BitVec.ofNat 64 heapBlocks).toNat = heapBlocks
    decide
  fresh := fun _ b hb => free_heapInit hb
  first := fun h => absurd rfl h

/-- In a heap with no block used, the search of a request that fits ends at block `0`. -/
theorem Counted.start_zero {h : HeapState} (hc : Counted h) (hused : h.usedBlocks = 0)
    {size : BitVec 64} (hfree : blockCount size ≤ h.freeBlocks)
    (hpos : 0 < (blockCount size).toNat) : mallocStart h size = some 0 := by
  have hle : (blockCount size).toNat ≤ heapBlocks := by
    have := hc.total
    have : (blockCount size).toNat ≤ h.freeBlocks.toNat := hfree
    omega
  have hb : heapBlocks = 6553600 := by decide
  have hl : bufferLongSize * bitsPerBlock = 52428800 := by decide
  have hf : Fits (Free h.bitmap) (blockCount size).toNat 0 := fun i hi =>
    hc.fresh hused (0 + i) (by omega)
  have hend : 0 + (blockCount size).toNat ≤ bufferLongSize * bitsPerBlock := by omega
  obtain ⟨w, hw, -, hmin⟩ := findFit_found hpos hf hend (by omega) (by omega)
  obtain rfl : w = 0 := Nat.le_zero.mp (hmin 0 hf)
  exact hw

/-- **A call keeps the counters in step.** -/
theorem Counted.step {h h' : HeapState} {size : BitVec 64} (hc : Counted h)
    (hs : MallocStep h size h') : Counted h' := by
  obtain ⟨ptr, hm⟩ := hs
  rcases malloc_cases hm with ⟨-, -, rfl⟩ | ⟨r, -, hfree, hr, -, -, rfl⟩
  · exact hc
  have htotal := hc.total
  have hle : (blockCount size).toNat ≤ h.freeBlocks.toNat := hfree
  have hb : heapBlocks = 6553600 := by decide
  have hused' : (takeBlocks h size r).usedBlocks.toNat =
      h.usedBlocks.toNat + (blockCount size).toNat := by
    show (h.usedBlocks + blockCount size).toNat = _
    rw [BitVec.toNat_add, Nat.mod_eq_of_lt (by omega)]
  have hfree' : (takeBlocks h size r).freeBlocks.toNat =
      h.freeBlocks.toNat - (blockCount size).toNat :=
    BitVec.toNat_sub_of_le hfree
  refine ⟨by rw [hused', hfree']; omega, fun hz => ?_, fun hnz => ?_⟩
  · -- no block counted as used: none was before, and the call marks none
    rw [hz] at hused'
    have hn : (blockCount size).toNat = 0 := by simp at hused'; omega
    have hu : h.usedBlocks = 0 := by
      apply BitVec.eq_of_toNat_eq; simp at hused' ⊢; omega
    have hm0 : (markedRange size r).2 = 0 := by
      have := toUInt64_lt r
      simp only [markedRange, hn, Nat.add_zero]; omega
    intro b hb'
    show Free (setBits h.bitmap _ _) b
    rw [hm0]
    exact hc.fresh hu b hb'
  · show ¬ Free (setBits h.bitmap _ _) 0
    simp only [Free, Bool.not_eq_false, testBit_setBits]
    by_cases hu : h.usedBlocks = 0
    · have hpos : 0 < (blockCount size).toNat := by
        by_contra hn
        refine hnz (BitVec.eq_of_toNat_eq ?_)
        rw [hused', hu]; simp; omega
      obtain rfl : r = 0 := Option.some.inj (hr.symm.trans (hc.start_zero hu hfree hpos))
      have hmark : markedRange size (0 : Nat) = (0, (blockCount size).toNat) :=
        markedRange_eq (by decide)
      rw [← Int.natCast_zero, hmark]
      exact Or.inl ⟨0, Nat.le_refl 0, by omega, Shares.refl 0⟩
    · have := hc.first hu
      simp only [Free, Bool.not_eq_false] at this
      exact Or.inr this

theorem Reachable.counted {h : HeapState} (hr : Reachable h) : Counted h := by
  obtain ⟨words, frame, sizes, hrun⟩ := hr
  exact hrun.invariant (fun hi hs => hi.step hs) (counted_heapInit words frame)

/-! ### When a call respects the blocks -/

/-- The offsets of the bytes of a range, from its pointer's. -/
theorem offset_add {a ptr : BitVec 64} {i : Nat}
    (h : (ptr - a).toNat + i < 18446744073709551616) :
    (ptr + BitVec.ofNat 64 i - a).toNat = (ptr - a).toNat + i := by
  have he : ptr + BitVec.ofNat 64 i - a = (ptr - a) + BitVec.ofNat 64 i := by
    rw [BitVec.sub_eq_add_neg, BitVec.sub_eq_add_neg, BitVec.add_assoc, BitVec.add_assoc,
      BitVec.add_comm (-a)]
  rw [he, BitVec.toNat_add, BitVec.toNat_ofNat]
  omega

/-- The pointer of a call, as an offset into the arena: `128` bytes a block. -/
theorem blockPtr_offset (h : HeapState) {start : Nat} (hs : start < 134217728) :
    (blockPtr h start - h.heapAddr).toNat = 128 * start := by
  rw [blockPtr_eq h hs, BitVec.add_comm, BitVec.add_sub_cancel, BitVec.toNat_ofNat]
  omega

/-- A call that marks from block `0` on, of a multiple of `BLOCK_SIZE`, respects the blocks. -/
theorem inMarkedBlocks_of_zero {h : HeapState} {size : BitVec 64}
    (hs : mallocStart h size = some 0) (hmod : size.toNat % blockSize = 0)
    (hle : (blockCount size).toNat ≤ heapBlocks) : InMarkedBlocks h size (blockPtr h 0) := by
  have hb : heapBlocks = 6553600 := by decide
  have hn := blockCount_toNat size
  unfold blockSize at hmod hn
  intro i hi
  have hoff : (blockPtr h 0 + BitVec.ofNat 64 i - h.heapAddr).toNat = i := by
    have h₀ : (blockPtr h 0 - h.heapAddr).toNat = 128 * 0 := blockPtr_offset h (by decide)
    rw [offset_add] <;> omega
  refine ⟨⟨i / 16, ⟨0, hs, ?_⟩, ?_⟩, ?_⟩
  · have hmark : markedRange size (0 : Nat) = (0, (blockCount size).toNat) :=
      markedRange_eq (by decide)
    rw [← Int.natCast_zero, hmark]
    exact ⟨by simp only; omega, by simp only; omega⟩
  · show _ ≤ _ ∧ _ < _
    rw [hoff]
    unfold blockSize
    omega
  · rw [hoff]
    unfold frazzosHeapSize
    omega

/-- A call that respects the blocks starts at block `0` and asks for a multiple of
`BLOCK_SIZE`. -/
theorem start_of_inMarkedBlocks {h : HeapState} {size : BitVec 64} {r : Int}
    (hsize : 1 ≤ size.toNat) (hr : mallocStart h size = some r)
    (hle : (blockCount size).toNat ≤ heapBlocks) (hin : InMarkedBlocks h size (blockPtr h r)) :
    r = 0 ∧ size.toNat % blockSize = 0 := by
  have hb : heapBlocks = 6553600 := by decide
  have hn := blockCount_toNat size
  unfold blockSize at hn ⊢
  obtain ⟨hr₀, hr₁⟩ := findFit_range hr
  -- the first byte: its block is not before the first marked one
  obtain ⟨⟨b, ⟨s, hs, hfirst, -⟩, hb₀, -⟩, harena⟩ := hin 0 (by omega)
  obtain rfl : r = s := Option.some.inj (hr.symm.trans hs)
  simp only [BitVec.add_zero] at hb₀ harena
  unfold blockSize frazzosHeapSize at *
  have hfirst' : toUInt64 r ≤ b := hfirst
  by_cases hneg : r < 0
  · have := toUInt64_of_neg (by omega) hneg
    omega
  obtain ⟨w, rfl⟩ := Int.eq_ofNat_of_zero_le (Int.not_lt.mp hneg)
  rw [toUInt64_natCast (by omega)] at hfirst'
  have hoff : (blockPtr h w - h.heapAddr).toNat = 128 * w := blockPtr_offset h (by omega)
  -- the last byte: its block is one of the marked ones
  obtain ⟨⟨b', ⟨s, hs, -, hlast⟩, -, hb₁⟩, -⟩ := hin (size.toNat - 1) (by omega)
  obtain rfl : (w : Int) = s := Option.some.inj (hr.symm.trans hs)
  rw [markedRange_eq (by omega)] at hlast
  rw [offset_add (by omega), hoff] at hb₁
  simp only at hlast
  unfold blockSize at hb₁
  omega

/-- **When a call respects the blocks**: of the successful calls from a reachable heap, those that
find no block used and ask for a multiple of `BLOCK_SIZE`. -/
theorem malloc_in_blocks_iff {h h' : HeapState} {size ptr : BitVec 64} (hr : Reachable h)
    (hsize : 1 ≤ size.toNat) (hm : malloc h size = some (ptr, h')) (hne : ptr ≠ enomemPtr) :
    InMarkedBlocks h size ptr ↔ size.toNat % blockSize = 0 ∧ h.usedBlocks = 0 := by
  have hc := hr.counted
  rcases malloc_cases hm with ⟨-, he, -⟩ | ⟨r, -, hfree, hstart, -, rfl, -⟩
  · exact absurd he hne
  have hle : (blockCount size).toNat ≤ heapBlocks := by
    have h₀ := hc.total
    have h₁ : (blockCount size).toNat ≤ h.freeBlocks.toNat := hfree
    omega
  have hpos : size.toNat % blockSize = 0 → 0 < (blockCount size).toNat := by
    rw [blockCount_toNat]; unfold blockSize; omega
  constructor
  · intro hin
    obtain ⟨rfl, hmod⟩ := start_of_inMarkedBlocks hsize hstart hle hin
    refine ⟨hmod, ?_⟩
    by_contra hu
    have hb : heapBlocks = 6553600 := by decide
    have hf := findFit_free bufferLongSize_le (Int.le_refl 0) (by omega) hstart
    exact hc.first hu (hf 0 (hpos hmod))
  · rintro ⟨hmod, hu⟩
    obtain rfl : r = 0 :=
      Option.some.inj (hstart.symm.trans (hc.start_zero hu hfree (hpos hmod)))
    exact inMarkedBlocks_of_zero hstart hmod hle

/-- The first call, of two blocks. -/
theorem malloc_in_blocks_first :
    InMarkedBlocks (heapInit (fun _ => 0) 0x1000000) 32 0xffff800001000000 ↔
      (32 : BitVec 64).toNat % blockSize = 0 ∧
        (heapInit (fun _ => 0) 0x1000000).usedBlocks = 0 := by
  let h₀ := heapInit (fun _ => 0) 0x1000000
  have hm : malloc h₀ 32 = some (0xffff800001000000, takeBlocks h₀ 32 0) := by
    rw [malloc_of_start (r := 0) (by decide) (by decide +kernel) (by decide)]; rfl
  exact malloc_in_blocks_iff ⟨_, _, [], .nil _⟩ (by decide) hm (by decide)

/-- Every call from a reachable heap respects the blocks. -/
def BlocksRespected : Prop :=
  ∀ h h' size ptr, Reachable h → 1 ≤ size.toNat → malloc h size = some (ptr, h') →
    ptr ≠ enomemPtr → InMarkedBlocks h size ptr

/-- **Calls do not respect the blocks**: the second call of `create_process` marks the blocks from
`34` on, and returns the bytes from `0x1100` on, which are those of block `272` and the next. -/
theorem blocks_not_respected : ¬ BlocksRespected := by
  intro hall
  let h₀ := heapInit (fun _ => 0) 0x1000000
  let h₁ := takeBlocks h₀ 32 0
  have hm₀ : malloc h₀ 32 = some (0xffff800001000000, h₁) := by
    rw [malloc_of_start (r := 0) (by decide) (by decide +kernel) (by decide)]; rfl
  have hm₁ : malloc h₁ 0x1000 = some (0xffff800001001100, takeBlocks h₁ 0x1000 34) := by
    rw [malloc_of_start (r := 34) (by decide) (by decide +kernel) (by decide)]; rfl
  have hr₁ : Reachable h₁ := ⟨_, _, [32], .one ⟨_, hm₀⟩⟩
  obtain ⟨⟨b, ⟨s, hs, -, hlast⟩, -, hb₁⟩, -⟩ :=
    hall _ _ _ _ hr₁ (by decide) hm₁ (by decide) 4095 (by decide)
  obtain rfl : (34 : Int) = s := Option.some.inj ((by decide +kernel :
    mallocStart h₁ 0x1000 = some 34).symm.trans hs)
  have hb : ((0xffff800001001100 : BitVec 64) + BitVec.ofNat 64 4095 - h₁.heapAddr).toNat =
      8447 := by decide
  have hl : (markedRange 0x1000 34).1 + (markedRange 0x1000 34).2 = 290 := by decide
  rw [hb] at hb₁
  rw [hl] at hlast
  unfold blockSize at hb₁
  omega

end FrazzOS.Heap

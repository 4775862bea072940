import FrazzOS.Bitmap.Stops
import FrazzOS.Heap.Malloc

/-!
# Heap — Bump

With no `free`, the heap should hand out its blocks in order: a bump allocator, whose whole state
is the next block (`bump`).  `mallocBlocks` is the code's run of a list of requests, with the
block index that each call starts at.

* `mallocBlocks_eq_bump_iff`: for requests of at least `BLOCK_SIZE`, the run after `heap_init` is
  that of the bump allocator exactly when every request that fits the arena also fits the masks of
  the word it starts in (`WordFits`): the next block is the first of a word, or the request ends
  within the first half of the word.
* `Bumped`: the invariant of such a run, that the blocks below the next one, and those that share
  a mask with them, test used, and no others.
-/

namespace FrazzOS.Heap
open Bitmap CInt FirstFit

/-- The bump allocator over `cap` blocks, with its next block: where each request starts, or
`none` when it does not fit. -/
def bump (cap : Nat) : Nat → List Nat → List (Option Int)
  | _, [] => []
  | next, n :: ns =>
      if next + n ≤ cap then some (next : Int) :: bump cap (next + n) ns
      else none :: bump cap next ns

/-- The calls of `malloc` in order, each with the block it starts at. -/
def mallocBlocks : HeapState → List (BitVec 64) → Option (List (Option Int))
  | _, [] => some []
  | h, size :: sizes => do
      let block ← mallocBlock h size
      let (_, h') ← malloc h size
      let blocks ← mallocBlocks h' sizes
      pure (block :: blocks)

/-- The block counts of a list of requests. -/
def blockCounts (sizes : List (BitVec 64)) : List Nat := sizes.map fun size => size.toNat / blockSize

/-- No block from `next` on, `n` of them, shares a mask with a block before `next`. -/
def WordFits (next n : Nat) : Prop :=
  next % bitsPerBlock = 0 ∨ next % bitsPerBlock + n ≤ 32

/-- Every request that fits the arena fits the masks of its first word. -/
def BumpFits (cap : Nat) : Nat → List Nat → Prop
  | _, [] => True
  | next, n :: ns =>
      if next + n ≤ cap then WordFits next n ∧ BumpFits cap (next + n) ns
      else BumpFits cap next ns

/-- The blocks below `next`, and those that share with one of them, test used. -/
structure Bumped (h : HeapState) (next : Nat) : Prop where
  free : h.freeBlocks.toNat + next = heapBlocks
  used : ∀ b, b < heapBlocks → (testBit h.bitmap b = true ↔ ∃ b', b' < next ∧ Shares b' b)

theorem bumped_heapInit (words : Words) (frame : BitVec 64) : Bumped (heapInit words frame) 0 where
  free := by
    show (BitVec.ofNat 64 heapBlocks).toNat + 0 = heapBlocks
    decide
  used := fun b hb => by
    rw [free_heapInit hb]
    simp

/-- The blocks from `next` on test free exactly when the request fits the masks of its first
word. -/
theorem Bumped.fits_iff {h : HeapState} {next n : Nat} (hb : Bumped h next) (hpos : 0 < n)
    (hend : next + n ≤ heapBlocks) : Fits (Free h.bitmap) n next ↔ WordFits next n := by
  have hfree : ∀ i, i < n → (Free h.bitmap (next + i) ↔ ¬ ∃ b', b' < next ∧ Shares b' (next + i)) :=
    fun i hi => by rw [← hb.used (next + i) (by omega), Free, Bool.not_eq_true]
  unfold WordFits bitsPerBlock
  constructor
  · intro hf
    by_contra hno
    by_cases hhalf : 32 ≤ next % 64
    · -- the block 32 before `next` shares with it
      refine (hfree 0 (by omega)).mp (hf 0 (by omega)) ⟨next - 32, by omega, ?_⟩
      unfold Shares bitsPerBlock
      omega
    · -- the first block of the word shares with the one 32 behind it
      refine (hfree (32 - next % 64) (by omega)).mp (hf _ (by omega))
        ⟨next - next % 64, by omega, ?_⟩
      unfold Shares bitsPerBlock
      omega
  · intro hfits i hi
    refine (hfree i hi).mpr ?_
    rintro ⟨b', hlt, hword, hmask⟩
    unfold bitsPerBlock at hword
    omega

/-- A request that does not fit the arena is refused. -/
theorem Bumped.refused {h : HeapState} {next : Nat} {size : BitVec 64} (hb : Bumped h next)
    (hend : ¬ next + size.toNat / blockSize ≤ heapBlocks) : mallocBlock h size = some none := by
  have hfree := hb.free
  rw [← blockCount_toNat] at hend
  exact if_pos (BitVec.lt_def.mpr (by omega))

/-- A request that fits is granted at `next`, while its blocks test free. -/
theorem Bumped.granted {h : HeapState} {next : Nat} {size : BitVec 64} (hb : Bumped h next)
    (hend : next + size.toNat / blockSize ≤ heapBlocks) (hpos : 0 < size.toNat / blockSize)
    (hf : Fits (Free h.bitmap) (size.toNat / blockSize) next) :
    blockCount size ≤ h.freeBlocks ∧ mallocStart h size = some (next : Int) := by
  have hblocks : heapBlocks = 6553600 := by decide
  have hlong : bufferLongSize * bitsPerBlock = 52428800 := by decide
  have hfree := hb.free
  rw [← blockCount_toNat] at hend hpos hf
  refine ⟨BitVec.le_def.mpr (by omega), ?_⟩
  obtain ⟨w, hw, hfw, hmin⟩ := findFit_found hpos hf
    (show next + (blockCount size).toNat ≤ bufferLongSize * bitsPerBlock by omega) (by omega)
    (by omega)
  have hle : w ≤ next := hmin next hf
  have hge : next ≤ w := by
    by_contra hlt
    have hused := (hb.used w (by omega)).mpr ⟨w, by omega, Shares.refl w⟩
    have hfree : Free h.bitmap w := hfw.free_of_mem (Nat.le_refl w) (by omega)
    rw [Free, hused] at hfree
    cases hfree
  obtain rfl : w = next := Nat.le_antisymm hle hge
  exact hw

/-- **A granted request moves the next block.** -/
theorem Bumped.step {h : HeapState} {next : Nat} {size : BitVec 64} (hb : Bumped h next)
    (hend : next + size.toNat / blockSize ≤ heapBlocks) :
    Bumped (takeBlocks h size next) (next + size.toNat / blockSize) := by
  have hblocks : heapBlocks = 6553600 := by decide
  have hfree := hb.free
  rw [← blockCount_toNat] at *
  refine ⟨?_, fun b hlt => ?_⟩
  · have : (takeBlocks h size next).freeBlocks.toNat =
        h.freeBlocks.toNat - (blockCount size).toNat :=
      BitVec.toNat_sub_of_le (BitVec.le_def.mpr (by omega))
    omega
  · have hmark : markedRange size next = (next, (blockCount size).toNat) :=
      markedRange_eq (by omega)
    show testBit (setBits h.bitmap _ _) b = true ↔ _
    rw [hmark, testBit_setBits, hb.used b hlt]
    constructor
    · rintro (⟨i, -, h₁, hs⟩ | ⟨b', h₁, hs⟩)
      · exact ⟨i, h₁, hs⟩
      · exact ⟨b', by omega, hs⟩
    · rintro ⟨b', h₁, hs⟩
      by_cases hn : b' < next
      · exact Or.inr ⟨b', hn, hs⟩
      · exact Or.inl ⟨b', by omega, h₁, hs⟩

/-- A request that fits the arena and starts at `next` found its blocks free. -/
theorem Bumped.fits_of_start {h : HeapState} {next : Nat} {size : BitVec 64} (hb : Bumped h next)
    (hend : next + size.toNat / blockSize ≤ heapBlocks) (hpos : 0 < size.toNat / blockSize)
    (hs : mallocBlock h size = some (some (next : Int))) : WordFits next (size.toNat / blockSize) := by
  have hblocks : heapBlocks = 6553600 := by decide
  have hm : malloc h size = some (blockPtr h next, takeBlocks h size next) := by rw [malloc, hs]
  rcases malloc_cases hm with ⟨he, -⟩ | ⟨r, he, -, hr, -⟩
  · rw [he] at hs; cases hs
  · rw [he] at hs
    obtain rfl : r = next := Option.some.inj (Option.some.inj hs)
    refine (hb.fits_iff hpos hend).mp ?_
    rw [← blockCount_toNat] at hend ⊢
    have hf := findFit_free bufferLongSize_le (Int.natCast_nonneg next) (by omega) hr
    rwa [Int.toNat_natCast] at hf

theorem bind_cons_eq_some {α : Type} {b : α} {xs : Option (List α)} {cs : List α} :
    (xs.bind fun bs => some (b :: bs)) = some (b :: cs) ↔ xs = some cs := by
  cases xs <;> simp

theorem mallocBlocks_iff {sizes : List (BitVec 64)} :
    ∀ {h : HeapState} {next : Nat}, Bumped h next → (∀ size ∈ sizes, blockSize ≤ size.toNat) →
    (mallocBlocks h sizes = some (bump heapBlocks next (blockCounts sizes)) ↔
      BumpFits heapBlocks next (blockCounts sizes)) := by
  induction sizes with
  | nil => intro h next _ _; exact iff_of_true rfl trivial
  | cons size sizes ih =>
      intro h next hb hsizes
      have hsize : 0 < size.toNat / blockSize :=
        Nat.div_pos (hsizes size List.mem_cons_self) (by decide)
      have hrest : ∀ s ∈ sizes, blockSize ≤ s.toNat := fun s hs =>
        hsizes s (List.mem_cons_of_mem size hs)
      have hcounts : blockCounts (size :: sizes) = size.toNat / blockSize :: blockCounts sizes := rfl
      rw [hcounts, bump, BumpFits, mallocBlocks]
      by_cases hend : next + size.toNat / blockSize ≤ heapBlocks
      · rw [if_pos hend, if_pos hend]
        by_cases hfits : WordFits next (size.toNat / blockSize)
        · obtain ⟨hfree, hstart⟩ := hb.granted hend hsize ((hb.fits_iff hsize hend).mpr hfits)
          have hblock : mallocBlock h size = some (some (next : Int)) := by
            rw [mallocBlock, if_neg (BitVec.not_lt.mpr hfree), hstart]
            exact if_neg (by omega)
          have hm : malloc h size = some (blockPtr h next, takeBlocks h size next) := by
            rw [malloc, hblock]
          rw [hblock, hm, and_iff_right hfits, ← ih (hb.step hend) hrest]
          exact bind_cons_eq_some
        · refine iff_of_false (fun he => hfits ?_) (fun he => hfits he.1)
          refine hb.fits_of_start hend hsize ?_
          cases hblock : mallocBlock h size with
          | none => rw [hblock] at he; cases he
          | some block =>
              rw [hblock] at he
              simp only [Option.bind_eq_bind, Option.bind_some, Option.bind_eq_some_iff] at he
              obtain ⟨-, -, bs, -, he⟩ := he
              obtain ⟨rfl, -⟩ := List.cons.inj (Option.some.inj he)
              rfl
      · have hblock := hb.refused hend
        have hm : malloc h size = some (enomemPtr, h) := by rw [malloc, hblock]
        rw [if_neg hend, if_neg hend, hblock, hm, ← ih hb hrest]
        exact bind_cons_eq_some

/-- **When `malloc` is a bump allocator**: for every list of requests of at least `BLOCK_SIZE`, the
run after `heap_init` is the bump allocator's exactly when each request that fits the arena fits
the masks of the word it starts in. -/
theorem mallocBlocks_eq_bump_iff (words : Words) (frame : BitVec 64) (sizes : List (BitVec 64))
    (hsizes : ∀ size ∈ sizes, blockSize ≤ size.toNat) :
    mallocBlocks (heapInit words frame) sizes = some (bump heapBlocks 0 (blockCounts sizes)) ↔
      BumpFits heapBlocks 0 (blockCounts sizes) :=
  mallocBlocks_iff (bumped_heapInit words frame) hsizes

/-- The two requests of `create_process`: 2 blocks, and 256 that do not end in the first half of
the word. -/
theorem mallocBlocks_eq_bump_process :
    mallocBlocks (heapInit (fun _ => 0) 0x1000000) [32, 0x1000] =
        some (bump heapBlocks 0 (blockCounts [32, 0x1000])) ↔
      BumpFits heapBlocks 0 (blockCounts [32, 0x1000]) :=
  mallocBlocks_eq_bump_iff _ _ _ (by simp [blockSize])

/-- Every run after `heap_init` is the bump allocator's. -/
def BumpAllocator : Prop :=
  ∀ words frame sizes, (∀ size ∈ sizes, blockSize ≤ size.toNat) →
    mallocBlocks (heapInit words frame) sizes = some (bump heapBlocks 0 (blockCounts sizes))

/-- **`malloc` skips blocks**: behind one block, a request of 32 starts at `33` and not at `1`,
since block `32` tests used with block `0`. -/
theorem malloc_not_bump : ¬ BumpAllocator := by
  intro hall
  have h := hall (fun _ => 0) 0x1000000 [16, 512] (by simp [blockSize])
  have hrun : mallocBlocks (heapInit (fun _ => 0) 0x1000000) [16, 512] =
      some [some 0, some 33] := by
    decide +kernel
  have hbump : bump heapBlocks 0 (blockCounts [16, 512]) = [some 0, some 1] := by decide +kernel
  rw [hrun, hbump] at h
  exact absurd h (by decide)

end FrazzOS.Heap

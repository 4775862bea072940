import FrazzOS.Bitmap.Bits
import FrazzOS.Support.CInt
import FrazzOS.Support.FirstFit

/-!
# Bitmap — Search

The search of `pmm_alloc` and of its copy in `malloc`: the first free index from a start on
(`findFirstFree`), the test of a region (`isFreeRegionBigEnough`) and the loop that restarts the
first behind a used index the second reports (`fitLoop`).

A function here takes its reads of the bitmap as a parameter `rd`.  `peek map` answers each one
from memory, and gives the value the code computes; `Within.lean` runs the same functions with
reads that stop outside the bitmap.

* `findFirstFree_spec`, `isFreeRegionBigEnough_spec`: the least free index, the first used one.
* `fitLoop_free`: whatever the search reads on its way, a region it returns tests free.
* `findFit_none`: a bitmap without a free index ends the search with `ENOMEM`.

`Stops.lean` says where the search ends otherwise.
-/

namespace FrazzOS.Bitmap
open CInt FirstFit

/-- `ENOMEM` of `status.h`. -/
def enomem : Int := -1

/-- `(void*)ENOMEM`. -/
def enomemPtr : BitVec 64 := BitVec.ofInt 64 enomem

/-- The first clear bit of a word from bit `i` on, `k` bits tested: the `for` loops over one
word. -/
def firstClear (w : BitVec 64) (i : Nat) : Nat → Option Nat
  | 0 => none
  | k + 1 => if w &&& bitMask i = 0 then some i else firstClear w (i + 1) k

section Code

variable {m : Type → Type} [Monad m] (rd : Int → m (BitVec 64))

/-- The loop of `find_first_free` over whole words, `k` of them from word `i` on. -/
def freeInWords (i : Nat) : Nat → m Int
  | 0 => pure enomem
  | k + 1 => do
      let w ← rd i
      if w ≠ BitVec.allOnes 64 then
        match firstClear w 0 bitsPerBlock with
        | some j => pure (toInt32 (i * bitsPerBlock + j : Nat))
        | none => freeInWords (i + 1) k
      else freeInWords (i + 1) k

/-- `find_first_free(start, buffer, size)`.  The block index is an `int`, and becomes a
`uint64_t` again where the loop over whole words starts. -/
def findFirstFree (start size : Nat) : m Int := do
  let startBlock := toInt32 (start / bitsPerBlock : Nat)
  if start % bitsPerBlock ≠ 0 then
    let w ← rd startBlock
    match firstClear w (start % bitsPerBlock) (bitsPerBlock - start % bitsPerBlock) with
    | some i => pure (toInt32 (startBlock * bitsPerBlock + i))
    | none =>
        let first := toUInt64 (toInt32 (startBlock + 1))
        freeInWords rd first (size - first)
  else
    let first := toUInt64 startBlock
    freeInWords rd first (size - first)

/-- `bitmap_test_bit`. -/
def readBit (idx : Nat) : m Bool := do
  let w ← rd (idx / bitsPerBlock : Nat)
  pure (w &&& bitMask idx != 0)

/-- The loop of `is_free_region_big_enough`, `k` indices from `idx` on: `0` when all test free,
else the first used one as an `int`. -/
def isFreeRegionBigEnough (idx : Nat) : Nat → m Int
  | 0 => pure 0
  | k + 1 => do
      if ← readBit rd idx then pure (toInt32 idx)
      else isFreeRegionBigEnough ((idx + 1) % 18446744073709551616) k

/-- The `do … while (start >= 0)` loop with its first `start`; `none` when the rounds run out. -/
def fitLoop (size count : Nat) : Nat → Int → m (Option Int)
  | 0, _ => pure none
  | rounds + 1, start => do
      let nextStart ← isFreeRegionBigEnough rd (toUInt64 start) count
      if nextStart ≠ 0 then
        let start' ← findFirstFree rd (toUInt64 nextStart) size
        if 0 ≤ start' then fitLoop size count rounds start' else pure (some start')
      else pure (some start)

/-- `start` takes at most `2³²` values and the bitmap does not change: a loop that has not ended
after as many rounds does not end. -/
def maxRounds : Nat := 4294967297

/-- The search from its first `find_first_free(0)` on. -/
def findFit (size count : Nat) : m (Option Int) := do
  let start ← findFirstFree rd 0 size
  fitLoop rd size count maxRounds start

end Code

/-- Every read answered from memory. -/
def peek (map : Words) (i : Int) : Id (BitVec 64) := map i

/-! ### The equations of a run from memory -/

section Peek

variable (map : Words)

theorem peek_run (i : Int) : (peek map i).run = map i := rfl

theorem freeInWords_peek_zero (i : Nat) : (freeInWords (peek map) i 0).run = enomem := rfl

theorem freeInWords_peek_succ (i k : Nat) :
    (freeInWords (peek map) i (k + 1)).run =
      if map i ≠ BitVec.allOnes 64 then
        match firstClear (map i) 0 bitsPerBlock with
        | some j => toInt32 (i * bitsPerBlock + j : Nat)
        | none => (freeInWords (peek map) (i + 1) k).run
      else (freeInWords (peek map) (i + 1) k).run := by
  rw [freeInWords, Id.run_bind, peek_run]
  split
  · cases firstClear (map i) 0 bitsPerBlock with
    | some j => exact Id.run_pure _
    | none => rfl
  · rfl

theorem findFirstFree_peek_aligned {start size : Nat} (h : start % bitsPerBlock = 0) :
    (findFirstFree (peek map) start size).run =
      (freeInWords (peek map) (toUInt64 (toInt32 (start / bitsPerBlock : Nat)))
        (size - toUInt64 (toInt32 (start / bitsPerBlock : Nat)))).run := by
  rw [findFirstFree, if_neg (by simpa using h)]

theorem findFirstFree_peek_offset {start size : Nat} (h : start % bitsPerBlock ≠ 0) :
    (findFirstFree (peek map) start size).run =
      match firstClear (map (toInt32 (start / bitsPerBlock : Nat))) (start % bitsPerBlock)
          (bitsPerBlock - start % bitsPerBlock) with
      | some i => toInt32 (toInt32 (start / bitsPerBlock : Nat) * bitsPerBlock + i)
      | none => (freeInWords (peek map)
          (toUInt64 (toInt32 (toInt32 (start / bitsPerBlock : Nat) + 1)))
          (size - toUInt64 (toInt32 (toInt32 (start / bitsPerBlock : Nat) + 1)))).run := by
  rw [findFirstFree, if_pos h, Id.run_bind, peek_run]
  cases firstClear (map (toInt32 (start / bitsPerBlock : Nat))) (start % bitsPerBlock)
      (bitsPerBlock - start % bitsPerBlock) with
  | some i => exact Id.run_pure _
  | none => rfl

theorem readBit_peek (idx : Nat) : (readBit (peek map) idx).run = testBit map idx := rfl

theorem isFreeRegionBigEnough_peek_zero (idx : Nat) :
    (isFreeRegionBigEnough (peek map) idx 0).run = 0 := rfl

theorem isFreeRegionBigEnough_peek_succ (idx k : Nat) :
    (isFreeRegionBigEnough (peek map) idx (k + 1)).run =
      if testBit map idx then toInt32 idx
      else (isFreeRegionBigEnough (peek map) ((idx + 1) % 18446744073709551616) k).run := by
  rw [isFreeRegionBigEnough, Id.run_bind, readBit_peek]
  split
  · exact Id.run_pure _
  · rfl

theorem fitLoop_peek_stop {size count : Nat} {start : Int} (rounds : Nat)
    (h : (isFreeRegionBigEnough (peek map) (toUInt64 start) count).run = 0) :
    (fitLoop (peek map) size count (rounds + 1) start).run = some start := by
  rw [fitLoop, Id.run_bind, h]; rfl

theorem fitLoop_peek_next {size count : Nat} {start nextStart start' : Int} (rounds : Nat)
    (h : (isFreeRegionBigEnough (peek map) (toUInt64 start) count).run = nextStart)
    (hne : nextStart ≠ 0)
    (h' : (findFirstFree (peek map) (toUInt64 nextStart) size).run = start') :
    (fitLoop (peek map) size count (rounds + 1) start).run =
      if 0 ≤ start' then (fitLoop (peek map) size count rounds start').run else some start' := by
  rw [fitLoop, Id.run_bind, h, if_pos hne, Id.run_bind, h']
  split
  · rfl
  · exact Id.run_pure _

end Peek

/-! ### What the parts of the search find -/

/-- `y` is among the indices that `find_first_free` looks at from `start` on: those of the words
below `size`, and the rest of a word that `start` splits. -/
def Ahead (size start y : Nat) : Prop :=
  y < size * bitsPerBlock ∨
    start % bitsPerBlock ≠ 0 ∧ y < (start / bitsPerBlock + 1) * bitsPerBlock

section Spec

variable {map : Words}

theorem firstClear_some {w : BitVec 64} {j : Nat} : ∀ {k i : Nat}, firstClear w i k = some j →
    i ≤ j ∧ j < i + k ∧ w &&& bitMask j = 0 ∧ ∀ y, i ≤ y → y < j → w &&& bitMask y ≠ 0
  | 0, i, h => by cases h
  | k + 1, i, h => by
      rw [firstClear] at h
      split at h
      · cases h
        exact ⟨Nat.le_refl _, by omega, by assumption, fun y _ _ => by omega⟩
      · rename_i hi
        obtain ⟨h₀, h₁, hj, hy⟩ := firstClear_some h
        refine ⟨by omega, by omega, hj, fun y hy₀ hy₁ => ?_⟩
        by_cases e : y = i
        · rw [e]; exact hi
        · exact hy y (by omega) hy₁

theorem firstClear_none {w : BitVec 64} : ∀ {k i : Nat}, firstClear w i k = none →
    ∀ y, i ≤ y → y < i + k → w &&& bitMask y ≠ 0
  | 0, i, _ => fun y _ _ => by omega
  | k + 1, i, h => by
      rw [firstClear] at h
      split at h
      · cases h
      · rename_i hi
        intro y hy₀ hy₁
        by_cases e : y = i
        · rw [e]; exact hi
        · exact firstClear_none h y (by omega) (by omega)

/-- The test of an index, by its word and its bit. -/
theorem free_block_iff {b j : Nat} (hj : j < bitsPerBlock) :
    Free map (b * bitsPerBlock + j) ↔ map b &&& bitMask j = 0 := by
  unfold bitsPerBlock at hj
  have hw : (b * bitsPerBlock + j) / bitsPerBlock = b := by unfold bitsPerBlock; omega
  have hm : bitMask (b * bitsPerBlock + j) = bitMask j :=
    bitMask_congr (by unfold bitsPerBlock; omega)
  simp [Free, testBit, hw, hm]

/-- Every index has a word and a bit. -/
theorem block_decomp (y : Nat) :
    y = y / bitsPerBlock * bitsPerBlock + y % bitsPerBlock ∧ y % bitsPerBlock < bitsPerBlock := by
  unfold bitsPerBlock; omega

/-- The first clear bit of the word of `start`, from `start` on, is the least free index. -/
theorem leastFree_of_firstClear {b i j : Nat}
    (h : firstClear (map b) i (bitsPerBlock - i) = some j) :
    j < bitsPerBlock ∧ LeastFree (Free map) (b * bitsPerBlock + i) (b * bitsPerBlock + j) := by
  obtain ⟨h₀, h₁, hj, hy⟩ := firstClear_some h
  have hlt : j < bitsPerBlock := by omega
  refine ⟨hlt, by omega, (free_block_iff hlt).mpr hj, fun y hy₀ hy₁ => ?_⟩
  obtain ⟨hd, hr⟩ := block_decomp y
  have hb : y / bitsPerBlock = b := by unfold bitsPerBlock at *; omega
  rw [hb] at hd
  rw [hd, free_block_iff hr]
  exact hy _ (by omega) (by omega)

/-- With no clear bit from `i` on, no index of the word from there on is free. -/
theorem used_of_firstClear {b i : Nat}
    (h : firstClear (map b) i (bitsPerBlock - i) = none) {y : Nat}
    (h₀ : b * bitsPerBlock + i ≤ y) (h₁ : y < (b + 1) * bitsPerBlock) : ¬ Free map y := by
  obtain ⟨hd, hr⟩ := block_decomp y
  have hb : y / bitsPerBlock = b := by unfold bitsPerBlock at *; omega
  rw [hb] at hd
  rw [hd, free_block_iff hr]
  exact firstClear_none h _ (by omega) (by unfold bitsPerBlock at *; omega)

/-- No index of a full word is free. -/
theorem used_of_allOnes {b y : Nat} (h : map b = BitVec.allOnes 64)
    (h₀ : b * bitsPerBlock ≤ y) (h₁ : y < (b + 1) * bitsPerBlock) : ¬ Free map y := by
  obtain ⟨hd, hr⟩ := block_decomp y
  have hb : y / bitsPerBlock = b := by unfold bitsPerBlock at *; omega
  rw [hb] at hd
  rw [hd, free_block_iff hr, h]
  exact allOnes_and_bitMask _

/-- A least free index stays the least when used ones are put in front. -/
theorem leastFree_extend {lo mid v : Nat} (h : LeastFree (Free map) mid v) (hlo : lo ≤ mid)
    (hused : ∀ y, lo ≤ y → y < mid → ¬ Free map y) : LeastFree (Free map) lo v := by
  obtain ⟨h₀, hv, hy⟩ := h
  refine ⟨by omega, hv, fun y hy₀ hy₁ => ?_⟩
  by_cases hm : y < mid
  · exact hused y hy₀ hm
  · exact hy y (by omega) hy₁

/-- One round of the loop over whole words: the least free index of the word, or, when there is
none, what the words behind it give. -/
theorem scanWord_cases {β : Type} (map : Words) (i : Nat) (hit : Nat → β) (rest : β) :
    (∃ x, (if map i ≠ BitVec.allOnes 64 then
        match firstClear (map i) 0 bitsPerBlock with
        | some j => hit (i * bitsPerBlock + j)
        | none => rest
      else rest) = hit x ∧
      LeastFree (Free map) (i * bitsPerBlock) x ∧ x < (i + 1) * bitsPerBlock) ∨
    ((if map i ≠ BitVec.allOnes 64 then
        match firstClear (map i) 0 bitsPerBlock with
        | some j => hit (i * bitsPerBlock + j)
        | none => rest
      else rest) = rest ∧
      ∀ y, i * bitsPerBlock ≤ y → y < (i + 1) * bitsPerBlock → ¬ Free map y) := by
  by_cases hfull : map i = BitVec.allOnes 64
  · exact Or.inr ⟨if_neg (not_not.mpr hfull), fun y h₀ h₁ => used_of_allOnes hfull h₀ h₁⟩
  · rw [if_pos hfull]
    cases hj : firstClear (map i) 0 bitsPerBlock with
    | some j =>
        obtain ⟨hlt, hleast⟩ := leastFree_of_firstClear (i := 0) (by simpa using hj)
        refine Or.inl ⟨i * bitsPerBlock + j, rfl, by simpa using hleast, ?_⟩
        unfold bitsPerBlock at *; omega
    | none =>
        exact Or.inr ⟨rfl, fun y h₀ h₁ => used_of_firstClear (i := 0) (by simpa using hj)
          (by simpa using h₀) h₁⟩

/-- The loop over whole words finds the least free index of the `k` words, or none is free. -/
theorem freeInWords_spec (map : Words) (k : Nat) : ∀ i : Nat,
    (∃ x, (freeInWords (peek map) i k).run = toInt32 (x : Nat) ∧
      LeastFree (Free map) (i * bitsPerBlock) x ∧ x < (i + k) * bitsPerBlock) ∨
    ((freeInWords (peek map) i k).run = enomem ∧
      ∀ y, i * bitsPerBlock ≤ y → y < (i + k) * bitsPerBlock → ¬ Free map y) := by
  induction k with
  | zero =>
      intro i
      exact Or.inr ⟨freeInWords_peek_zero map i, fun y h₀ h₁ => by
        simp only [Nat.add_zero] at h₁; omega⟩
  | succ k ih =>
      intro i
      rw [freeInWords_peek_succ, show i + (k + 1) = i + 1 + k by omega]
      rcases scanWord_cases map i (fun x => toInt32 (x : Nat)) (freeInWords (peek map) (i + 1) k).run
        with ⟨x, hr, hx, hb⟩ | ⟨hr, hused⟩
      · refine Or.inl ⟨x, hr, hx, Nat.lt_of_lt_of_le hb ?_⟩
        exact Nat.mul_le_mul_right _ (by omega)
      -- a word without a free index leaves the result to the words behind it
      rcases ih (i + 1) with ⟨x, hr', hx, hb⟩ | ⟨hr', hy⟩
      · refine Or.inl ⟨x, hr.trans hr', leastFree_extend hx ?_ hused, hb⟩
        exact Nat.mul_le_mul_right _ (by omega)
      · refine Or.inr ⟨hr.trans hr', fun y h₀ h₁ => ?_⟩
        by_cases hm : y < (i + 1) * bitsPerBlock
        · exact hused y h₀ hm
        · exact hy y (by omega) h₁

/-- The block of an index that fits an `int`, and the one behind it. -/
theorem toInt32_block {start : Nat} (hs : start < 2147483648) :
    toInt32 (start / bitsPerBlock : Nat) = (start / bitsPerBlock : Nat) :=
  toInt32_of_range (by unfold bitsPerBlock; omega) (by unfold bitsPerBlock; omega)

theorem toUInt64_next_block {start : Nat} (hs : start < 2147483648) :
    toUInt64 (toInt32 ((start / bitsPerBlock : Nat) + 1)) = start / bitsPerBlock + 1 := by
  rw [← Int.natCast_succ, toInt32_of_range (by unfold bitsPerBlock; omega)
    (by unfold bitsPerBlock; omega)]
  exact toUInt64_natCast (by unfold bitsPerBlock; omega)

/-- From a start that fits an `int`: the least free index found, one of those looked at, or none of
them free. -/
theorem findFirstFree_spec (map : Words) (start size : Nat) (hs : start < 2147483648) :
    (∃ x, (findFirstFree (peek map) start size).run = toInt32 (x : Nat) ∧
      LeastFree (Free map) start x ∧ Ahead size start x) ∨
    ((findFirstFree (peek map) start size).run = enomem ∧
      ∀ y, start ≤ y → Ahead size start y → ¬ Free map y) := by
  obtain ⟨hd, hr⟩ := block_decomp start
  have hblock := toInt32_block hs
  -- the loop over whole words, from the word `b` on
  have hwords : ∀ b, start ≤ b * bitsPerBlock →
      (∀ y, start ≤ y → y < b * bitsPerBlock → ¬ Free map y) →
      (∃ x, (freeInWords (peek map) b (size - b)).run = toInt32 (x : Nat) ∧
        LeastFree (Free map) start x ∧ x < size * bitsPerBlock) ∨
      ((freeInWords (peek map) b (size - b)).run = enomem ∧
        ∀ y, start ≤ y → y < size * bitsPerBlock → ¬ Free map y) := by
    intro b hb hused
    rcases freeInWords_spec map (size - b) b with ⟨x, hx, hleast, hlt⟩ | ⟨hx, hall⟩
    · refine Or.inl ⟨x, hx, leastFree_extend hleast hb hused, ?_⟩
      have := hleast.1
      unfold bitsPerBlock at *; omega
    · refine Or.inr ⟨hx, fun y h₀ h₁ => ?_⟩
      by_cases hy : y < b * bitsPerBlock
      · exact hused y h₀ hy
      · exact hall y (by omega) (by unfold bitsPerBlock at *; omega)
  by_cases ha : start % bitsPerBlock = 0
  · rw [findFirstFree_peek_aligned map ha, hblock,
      toUInt64_natCast (by unfold bitsPerBlock at *; omega)]
    rcases hwords (start / bitsPerBlock) (by omega) (fun y _ _ => by omega) with
      ⟨x, hx, hleast, hlt⟩ | ⟨hx, hall⟩
    · exact Or.inl ⟨x, hx, hleast, Or.inl hlt⟩
    · exact Or.inr ⟨hx, fun y h₀ h₁ => hall y h₀ (h₁.resolve_right fun h => h.1 ha)⟩
  · rw [findFirstFree_peek_offset map ha, hblock]
    cases hj : firstClear (map (start / bitsPerBlock : Nat)) (start % bitsPerBlock)
        (bitsPerBlock - start % bitsPerBlock) with
    | some j =>
        obtain ⟨hlt, hleast⟩ := leastFree_of_firstClear hj
        rw [← hd] at hleast
        refine Or.inl ⟨start / bitsPerBlock * bitsPerBlock + j, by push_cast; rfl, hleast,
          Or.inr ⟨ha, ?_⟩⟩
        unfold bitsPerBlock at *; omega
    | none =>
        have hrest : ∀ y, start ≤ y → y < (start / bitsPerBlock + 1) * bitsPerBlock →
            ¬ Free map y := fun y h₀ h₁ => used_of_firstClear hj (by omega) h₁
        rw [toUInt64_next_block hs]
        rcases hwords (start / bitsPerBlock + 1) (by unfold bitsPerBlock at *; omega) hrest with
          ⟨x, hx, hleast, hlt⟩ | ⟨hx, hall⟩
        · exact Or.inl ⟨x, hx, hleast, Or.inl hlt⟩
        · refine Or.inr ⟨hx, fun y h₀ h₁ => ?_⟩
          rcases h₁ with h₁ | ⟨-, h₁⟩
          · exact hall y h₀ h₁
          · exact hrest y h₀ h₁

/-- The region test: all of it free, or the first used index reported as an `int`. -/
theorem isFreeRegionBigEnough_spec (map : Words) (k : Nat) :
    ∀ idx : Nat, idx + k ≤ 18446744073709551616 →
    ((isFreeRegionBigEnough (peek map) idx k).run = 0 ∧ Fits (Free map) k idx) ∨
    (∃ y, idx ≤ y ∧ y < idx + k ∧ ¬ Free map y ∧ (∀ z, idx ≤ z → z < y → Free map z) ∧
      (isFreeRegionBigEnough (peek map) idx k).run = toInt32 (y : Nat)) := by
  induction k with
  | zero => exact fun idx _ => Or.inl ⟨rfl, fun i hi => by omega⟩
  | succ k ih =>
      intro idx hidx
      rw [isFreeRegionBigEnough_peek_succ]
      cases hb : testBit map idx with
      | true =>
          exact Or.inr ⟨idx, Nat.le_refl _, by omega, by simp [Free, hb], fun z _ _ => by omega,
            by simp⟩
      | false =>
          rw [if_neg (by simp)]
          by_cases hk : k = 0
          · subst hk
            refine Or.inl ⟨rfl, fun i hi => ?_⟩
            obtain rfl : i = 0 := by omega
            exact hb
          rw [Nat.mod_eq_of_lt (by omega)]
          rcases ih (idx + 1) (by omega) with ⟨hr, hf⟩ | ⟨y, h₀, h₁, hy, hz, hr⟩
          · refine Or.inl ⟨hr, fun i hi => ?_⟩
            by_cases e : i = 0
            · rw [e]; exact hb
            · have := hf (i - 1) (by omega)
              rwa [show idx + 1 + (i - 1) = idx + i by omega] at this
          · refine Or.inr ⟨y, by omega, by omega, hy, fun z hz₀ hz₁ => ?_, hr⟩
            by_cases e : z = idx
            · rw [e]; exact hb
            · exact hz z (by omega) hz₁

/-- A used index among the first ones is reported whatever the count. -/
theorem isFreeRegionBigEnough_mono {k k' : Nat} (hk : k ≤ k') : ∀ idx : Nat,
    (isFreeRegionBigEnough (peek map) idx k).run ≠ 0 →
    (isFreeRegionBigEnough (peek map) idx k').run =
      (isFreeRegionBigEnough (peek map) idx k).run := by
  induction k generalizing k' with
  | zero => exact fun idx h => absurd (isFreeRegionBigEnough_peek_zero map idx) h
  | succ k ih =>
      intro idx h
      obtain ⟨j, rfl⟩ := Nat.exists_eq_add_of_lt hk
      rw [isFreeRegionBigEnough_peek_succ] at h
      rw [isFreeRegionBigEnough_peek_succ, isFreeRegionBigEnough_peek_succ]
      cases hb : testBit map idx with
      | true => rfl
      | false =>
          rw [hb] at h
          exact ih (Nat.le_add_right k j) _ h

theorem freeInWords_range (map : Words) (k : Nat) : ∀ i : Nat,
    -2147483648 ≤ (freeInWords (peek map) i k).run ∧
      (freeInWords (peek map) i k).run < 2147483648 := by
  intro i
  rcases freeInWords_spec map k i with ⟨x, hx, -⟩ | ⟨hx, -⟩
  · rw [hx]; exact toInt32_range _
  · rw [hx]; decide

/-- What `find_first_free` returns is an `int`. -/
theorem findFirstFree_range (map : Words) (start size : Nat) :
    -2147483648 ≤ (findFirstFree (peek map) start size).run ∧
      (findFirstFree (peek map) start size).run < 2147483648 := by
  by_cases ha : start % bitsPerBlock = 0
  · rw [findFirstFree_peek_aligned map ha]
    exact freeInWords_range map _ _
  · rw [findFirstFree_peek_offset map ha]
    cases firstClear (map (toInt32 (start / bitsPerBlock : Nat))) (start % bitsPerBlock)
        (bitsPerBlock - start % bitsPerBlock) with
    | some i => exact toInt32_range _
    | none => exact freeInWords_range map _ _

theorem isFreeRegionBigEnough_range (map : Words) (k : Nat) : ∀ idx : Nat,
    -2147483648 ≤ (isFreeRegionBigEnough (peek map) idx k).run ∧
      (isFreeRegionBigEnough (peek map) idx k).run < 2147483648 := by
  induction k with
  | zero => intro idx; rw [isFreeRegionBigEnough_peek_zero]; omega
  | succ k ih =>
      intro idx
      rw [isFreeRegionBigEnough_peek_succ]
      split
      · exact toInt32_range _
      · exact ih _

/-- **A result that is not negative is a free index**, also when the search is started at the
64-bit value of a negative `int`. -/
theorem free_of_findFirstFree {size : Nat} (hsize : size * bitsPerBlock ≤ 2147483648) {s : Int}
    (h₀ : -2147483648 ≤ s) (h₁ : s < 2147483648)
    (hr : 0 ≤ (findFirstFree (peek map) (toUInt64 s) size).run) :
    Free map (findFirstFree (peek map) (toUInt64 s) size).run.toNat := by
  -- the loop over whole words from word `b` on
  have hwords : ∀ b k, (b + k) * bitsPerBlock ≤ 2147483648 →
      0 ≤ (freeInWords (peek map) b k).run →
      Free map (freeInWords (peek map) b k).run.toNat := by
    intro b k hb hpos
    rcases freeInWords_spec map k b with ⟨x, hx, hleast, hlt⟩ | ⟨hx, -⟩
    · rw [hx, toInt32_of_range (by omega) (by omega)]
      exact hleast.2.1
    · rw [hx] at hpos; exact absurd hpos (by decide)
  by_cases hs : 0 ≤ s
  · obtain ⟨n, rfl⟩ := Int.eq_ofNat_of_zero_le hs
    rw [toUInt64_natCast (by omega)] at hr ⊢
    rcases findFirstFree_spec map n size (by omega) with
      ⟨x, hx, hleast, hlt⟩ | ⟨hx, -⟩
    · have hx' : x < 2147483648 := by unfold Ahead bitsPerBlock at *; omega
      rw [hx, toInt32_of_range (by omega) (by omega)]
      exact hleast.2.1
    · rw [hx] at hr; exact absurd hr (by decide)
  · -- the block index of a negative `int` is negative
    have hlo : (toUInt64 s : Int) = s + 18446744073709551616 :=
      toUInt64_of_neg (by omega) (by omega)
    have hblock : toInt32 (toUInt64 s / bitsPerBlock : Nat) = s / 64 := by
      unfold toInt32 bitsPerBlock; split <;> omega
    have hout : ∀ t : Int, -2147483648 ≤ t → t < 0 → size - toUInt64 t = 0 := by
      intro t ht₀ ht₁
      have := toUInt64_of_neg (x := t) (by omega) ht₁
      unfold bitsPerBlock at hsize; omega
    by_cases ha : toUInt64 s % bitsPerBlock = 0
    · rw [findFirstFree_peek_aligned map ha, hblock, hout _ (by omega) (by omega),
        freeInWords_peek_zero] at hr
      exact absurd hr (by decide)
    · rw [findFirstFree_peek_offset map ha, hblock] at hr ⊢
      cases hj : firstClear (map (s / 64)) (toUInt64 s % bitsPerBlock)
          (bitsPerBlock - toUInt64 s % bitsPerBlock) with
      | some j =>
          obtain ⟨-, hlt, -, -⟩ := firstClear_some hj
          rw [hj] at hr
          have hneg : toInt32 (s / 64 * bitsPerBlock + j) = s / 64 * bitsPerBlock + j :=
            toInt32_of_range (by unfold bitsPerBlock at *; omega)
              (by unfold bitsPerBlock at *; omega)
          simp only [hneg] at hr
          unfold bitsPerBlock at *; omega
      | none =>
          rw [hj] at hr
          simp only at hr ⊢
          rw [toInt32_of_range (by omega) (by omega)] at hr ⊢
          by_cases hz : s / 64 + 1 = 0
          · rw [hz] at hr ⊢
            exact hwords 0 size (by rwa [Nat.zero_add]) hr
          · rw [hout _ (by omega) (by omega), freeInWords_peek_zero] at hr
            exact absurd hr (by decide)

theorem fitLoop_range {size count : Nat} {r : Int} (rounds : Nat) : ∀ start : Int,
    -2147483648 ≤ start ∧ start < 2147483648 →
    (fitLoop (peek map) size count rounds start).run = some r →
    -2147483648 ≤ r ∧ r < 2147483648 := by
  induction rounds with
  | zero => intro start _ h; cases h
  | succ rounds ih =>
      intro start hstart h
      by_cases hzero : (isFreeRegionBigEnough (peek map) (toUInt64 start) count).run = 0
      · rw [fitLoop_peek_stop map rounds hzero] at h
        cases h; exact hstart
      · rw [fitLoop_peek_next map rounds rfl hzero rfl] at h
        split at h
        · exact ih _ (findFirstFree_range map _ _) h
        · cases h; exact findFirstFree_range map _ _

/-- The region that the loop returns tests free, if every start it has passed did. -/
theorem fitLoop_free {size count : Nat} (hsize : size * bitsPerBlock ≤ 2147483648) {r : Int}
    (hr : 0 ≤ r) (hrc : r + count ≤ 4294967296) (rounds : Nat) : ∀ start : Int,
    (0 ≤ start → Free map start.toNat) →
    (fitLoop (peek map) size count rounds start).run = some r →
    Fits (Free map) count r.toNat := by
  induction rounds with
  | zero => intro start _ h; cases h
  | succ rounds ih =>
      intro start hstart h
      obtain ⟨hn₀, hn₁⟩ := isFreeRegionBigEnough_range map count (toUInt64 start)
      by_cases hzero : (isFreeRegionBigEnough (peek map) (toUInt64 start) count).run = 0
      · rw [fitLoop_peek_stop map rounds hzero] at h
        cases h
        have hu : toUInt64 r = r.toNat := by
          obtain ⟨n, rfl⟩ := Int.eq_ofNat_of_zero_le hr
          exact toUInt64_natCast (by omega)
        rw [hu] at hzero
        rcases isFreeRegionBigEnough_spec map count r.toNat (by omega) with
          ⟨-, hf⟩ | ⟨y, h₀, h₁, hy, -, hy'⟩
        · exact hf
        · -- only index `0` is reported as `0`, and it is the start itself
          have hy0 : y = 0 := (toInt32_eq_zero (by omega)).mp (hy'.symm.trans hzero)
          subst hy0
          have hr0 : r.toNat = 0 := by omega
          exact absurd (hr0 ▸ hstart hr) hy
      · rw [fitLoop_peek_next map rounds rfl hzero rfl] at h
        split at h
        · exact ih _ (free_of_findFirstFree hsize hn₀ hn₁) h
        · cases h; omega

/-! ### A bitmap without a free index -/

/-- From the 64-bit value of `-1` the search wraps around to the first word of the bitmap. -/
theorem findFirstFree_enomem {size : Nat} (hall : ∀ y, y < size * bitsPerBlock → ¬ Free map y) :
    (findFirstFree (peek map) 18446744073709551615 size).run = enomem := by
  rw [findFirstFree_peek_offset map (by decide),
    show toInt32 (18446744073709551615 / bitsPerBlock : Nat) = -1 by decide]
  cases hj : firstClear (map (-1)) (18446744073709551615 % bitsPerBlock)
      (bitsPerBlock - 18446744073709551615 % bitsPerBlock) with
  | some j =>
      obtain ⟨hj₀, hj₁, -, -⟩ := firstClear_some hj
      obtain rfl : j = 63 := by unfold bitsPerBlock at *; omega
      show toInt32 (-1 * bitsPerBlock + (63 : Nat)) = enomem
      decide
  | none =>
      show (freeInWords (peek map) (toUInt64 (toInt32 (-1 + 1)))
        (size - toUInt64 (toInt32 (-1 + 1)))).run = enomem
      rw [show toUInt64 (toInt32 (-1 + 1)) = 0 by decide]
      rcases freeInWords_spec map (size - 0) 0 with ⟨x, -, hleast, hlt⟩ | ⟨hx, -⟩
      · exact absurd hleast.2.1 (hall x (by simpa using hlt))
      · exact hx

/-- Started at `ENOMEM` with no free index in the bitmap, the loop ends there, or goes on to the
region from index `0`. -/
theorem fitLoop_enomem_cases {size count : Nat} (rounds : Nat)
    (hall : ∀ y, y < size * bitsPerBlock → ¬ Free map y) :
    (fitLoop (peek map) size count (rounds + 1) enomem).run = some enomem ∨
    ∃ k, count = k + 1 ∧
      (isFreeRegionBigEnough (peek map) (toUInt64 enomem) count).run =
        (isFreeRegionBigEnough (peek map) 0 k).run := by
  have hu : toUInt64 enomem = 18446744073709551615 := by decide
  cases count with
  | zero =>
      exact Or.inl (fitLoop_peek_stop map rounds (isFreeRegionBigEnough_peek_zero map _))
  | succ k =>
      have hregion := isFreeRegionBigEnough_peek_succ map 18446744073709551615 k
      cases hb : testBit map 18446744073709551615 with
      | true =>
          rw [hb, if_pos rfl, show toInt32 (18446744073709551615 : Nat) = -1 by decide] at hregion
          have hu' : toUInt64 (-1) = 18446744073709551615 := by decide
          rw [fitLoop_peek_next map rounds (hu.symm ▸ hregion) (by decide)
            (hu'.symm ▸ findFirstFree_enomem hall)]
          exact Or.inl (if_neg (by decide))
      | false =>
          rw [hb, if_neg Bool.false_ne_true,
            show (18446744073709551615 + 1) % 18446744073709551616 = 0 by decide] at hregion
          exact Or.inr ⟨k, rfl, hu.symm ▸ hregion⟩

/-- A used index `0` ends the region test from there. -/
theorem isFreeRegionBigEnough_zero_used (h : ¬ Free map 0) (k : Nat) :
    (isFreeRegionBigEnough (peek map) 0 k).run = 0 := by
  cases k with
  | zero => rfl
  | succ k =>
      rw [isFreeRegionBigEnough_peek_succ, if_pos (by simpa [Free] using h)]
      decide

/-- Started at `ENOMEM` with no free index in the bitmap, the loop ends there, whatever its reads
outside the bitmap return. -/
theorem fitLoop_enomem {size count rounds : Nat} (hsize : 0 < size)
    (hall : ∀ y, y < size * bitsPerBlock → ¬ Free map y) :
    (fitLoop (peek map) size count (rounds + 1) enomem).run = some enomem := by
  rcases @fitLoop_enomem_cases map size count rounds hall with h | ⟨k, rfl, h⟩
  · exact h
  · have hused : ¬ Free map 0 := hall 0 (by unfold bitsPerBlock; omega)
    exact fitLoop_peek_stop map rounds (h.trans (isFreeRegionBigEnough_zero_used hused k))

theorem findFit_range {size count : Nat} {r : Int}
    (h : (findFit (peek map) size count).run = some r) : -2147483648 ≤ r ∧ r < 2147483648 := by
  rw [findFit, Id.run_bind] at h
  exact fitLoop_range maxRounds _ (findFirstFree_range map _ _) h

/-- A result of `findFit` that is not negative is a region that tests free. -/
theorem findFit_free {size count : Nat} (hsize : size * bitsPerBlock ≤ 2147483648) {r : Int}
    (hr : 0 ≤ r) (hrc : r + count ≤ 4294967296)
    (h : (findFit (peek map) size count).run = some r) : Fits (Free map) count r.toNat := by
  rw [findFit, Id.run_bind] at h
  refine fitLoop_free hsize hr hrc maxRounds _ (fun h₀ => ?_) h
  exact free_of_findFirstFree (s := 0) hsize (by decide) (by decide) h₀

/-- With no free index in the bitmap, `findFit` ends with `ENOMEM`. -/
theorem findFit_none {size count : Nat} (hsize : 0 < size)
    (hall : ∀ y, y < size * bitsPerBlock → ¬ Free map y) :
    (findFit (peek map) size count).run = some enomem := by
  rw [findFit, Id.run_bind]
  rcases findFirstFree_spec map 0 size (by omega) with ⟨x, -, hleast, hb⟩ | ⟨hx, -⟩
  · refine absurd hleast.2.1 (hall x ?_)
    unfold Ahead bitsPerBlock at *; omega
  · rw [hx]
    exact fitLoop_enomem hsize hall

end Spec

end FrazzOS.Bitmap

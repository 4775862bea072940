import FrazzOS.Bitmap.Search

/-!
# Bitmap — Within

The search run with reads that answer only the words `0 … bound - 1` (`within`): it gives `none`
when it reads another word.  A run that does not is the run from memory (`findFit_within`), and
it ends with `ENOMEM` or with a region whose indices all lie in those words.
-/

namespace FrazzOS.Bitmap
open CInt FirstFit

/-- Only the words `0 … bound - 1` answered. -/
def within (bound : Nat) (map : Words) (i : Int) : Option (BitVec 64) :=
  if 0 ≤ i ∧ i < bound then some (map i) else none

variable {bound : Nat} {map : Words}

theorem within_some {i : Int} {w : BitVec 64} (h : within bound map i = some w) :
    w = map i ∧ 0 ≤ i ∧ i < bound := by
  unfold within at h
  split at h
  · rename_i hi
    exact ⟨(Option.some.inj h).symm, hi⟩
  · cases h

theorem freeInWords_within (k : Nat) : ∀ {i : Nat} {v : Int},
    freeInWords (within bound map) i k = some v → (freeInWords (peek map) i k).run = v := by
  induction k with
  | zero => intro i v h; cases h; rfl
  | succ k ih =>
      intro i v h
      rw [freeInWords, Option.bind_eq_bind] at h
      obtain ⟨w, hw, h⟩ := Option.bind_eq_some_iff.mp h
      obtain ⟨rfl, -⟩ := within_some hw
      rw [freeInWords_peek_succ]
      split at h
      · rw [if_pos (by assumption)]
        cases hj : firstClear (map i) 0 bitsPerBlock with
        | some j => rw [hj] at h; exact Option.some.inj h
        | none => rw [hj] at h; exact ih h
      · rw [if_neg (by assumption)]
        exact ih h

theorem findFirstFree_within {start size : Nat} {v : Int}
    (h : findFirstFree (within bound map) start size = some v) :
    (findFirstFree (peek map) start size).run = v := by
  by_cases ha : start % bitsPerBlock = 0
  · rw [findFirstFree, if_neg (by simpa using ha)] at h
    rw [findFirstFree_peek_aligned map ha]
    exact freeInWords_within _ h
  · rw [findFirstFree, if_pos ha, Option.bind_eq_bind] at h
    obtain ⟨w, hw, h⟩ := Option.bind_eq_some_iff.mp h
    obtain ⟨rfl, -⟩ := within_some hw
    rw [findFirstFree_peek_offset map ha]
    cases hj : firstClear (map (toInt32 (start / bitsPerBlock : Nat))) (start % bitsPerBlock)
        (bitsPerBlock - start % bitsPerBlock) with
    | some j => rw [hj] at h; exact Option.some.inj h
    | none => rw [hj] at h; exact freeInWords_within _ h

theorem isFreeRegionBigEnough_run (k : Nat) : ∀ {idx : Nat} {v : Int},
    isFreeRegionBigEnough (within bound map) idx k = some v →
    (isFreeRegionBigEnough (peek map) idx k).run = v := by
  induction k with
  | zero => intro idx v h; cases h; rfl
  | succ k ih =>
      intro idx v h
      rw [isFreeRegionBigEnough, Option.bind_eq_bind] at h
      obtain ⟨b, hread, h⟩ := Option.bind_eq_some_iff.mp h
      obtain ⟨w, hw, hbit⟩ := Option.bind_eq_some_iff.mp hread
      obtain ⟨rfl, -⟩ := within_some hw
      obtain rfl : testBit map idx = b := Option.some.inj hbit
      rw [isFreeRegionBigEnough_peek_succ]
      cases ht : testBit map idx with
      | true =>
          rw [ht, if_pos rfl] at h
          rw [if_pos rfl]
          exact Option.some.inj h
      | false =>
          rw [ht, if_neg Bool.false_ne_true] at h
          rw [if_neg Bool.false_ne_true]
          exact ih h

theorem fitLoop_run {size count : Nat} {r : Option Int} (rounds : Nat) : ∀ {start : Int},
    fitLoop (within bound map) size count rounds start = some r →
    (fitLoop (peek map) size count rounds start).run = r := by
  induction rounds with
  | zero => intro start h; cases h; rfl
  | succ rounds ih =>
      intro start h
      rw [fitLoop, Option.bind_eq_bind] at h
      obtain ⟨n, hn, h⟩ := Option.bind_eq_some_iff.mp h
      have hrun := isFreeRegionBigEnough_run count hn
      by_cases hzero : n = 0
      · subst hzero
        cases h
        exact fitLoop_peek_stop map rounds hrun
      · rw [if_pos hzero] at h
        obtain ⟨s, hs, h⟩ := Option.bind_eq_some_iff.mp h
        rw [fitLoop_peek_next map rounds hrun hzero (findFirstFree_within hs)]
        by_cases hpos : 0 ≤ s
        · rw [if_pos hpos] at h ⊢
          exact ih h
        · rw [if_neg hpos] at h ⊢
          exact Option.some.inj h

/-- A search that stays in the bitmap is the search from memory. -/
theorem findFit_run {size count : Nat} {r : Option Int}
    (h : findFit (within bound map) size count = some r) :
    (findFit (peek map) size count).run = r := by
  rw [findFit, Option.bind_eq_bind] at h
  obtain ⟨s, hs, h⟩ := Option.bind_eq_some_iff.mp h
  rw [findFit, Id.run_bind, findFirstFree_within hs]
  exact fitLoop_run maxRounds h

/-- The region test in the bitmap: every index it looked at lies there. -/
theorem isFreeRegionBigEnough_within (hb : bound * bitsPerBlock ≤ 2147483648) (k : Nat) :
    ∀ {idx : Nat} {v : Int}, isFreeRegionBigEnough (within bound map) idx k = some v →
    (v = 0 ∧ ∀ i, i < k → idx + i < bound * bitsPerBlock ∧ Free map (idx + i)) ∨
      ∃ y : Nat, v = y ∧ idx ≤ y ∧ y < idx + k ∧ y < bound * bitsPerBlock ∧ ¬ Free map y := by
  induction k with
  | zero =>
      intro idx v h
      cases h
      exact Or.inl ⟨rfl, fun i hi => by omega⟩
  | succ k ih =>
      intro idx v h
      rw [isFreeRegionBigEnough, Option.bind_eq_bind] at h
      obtain ⟨b, hread, h⟩ := Option.bind_eq_some_iff.mp h
      obtain ⟨w, hw, hbit⟩ := Option.bind_eq_some_iff.mp hread
      obtain ⟨rfl, -, hlt⟩ := within_some hw
      have hidx : idx < bound * bitsPerBlock := by unfold bitsPerBlock at *; omega
      obtain rfl : testBit map idx = b := Option.some.inj hbit
      cases ht : testBit map idx with
      | true =>
          rw [ht] at h
          obtain rfl : toInt32 idx = v := Option.some.inj h
          rw [toInt32_of_range (by omega) (by omega)]
          exact Or.inr ⟨idx, rfl, Nat.le_refl _, by omega, hidx, by simp [Free, ht]⟩
      | false =>
          rw [ht, if_neg Bool.false_ne_true, Nat.mod_eq_of_lt (by omega)] at h
          obtain ⟨hv, hall⟩ | ⟨y, hv, h₀, h₁, hy, hfree⟩ := ih h
          · refine Or.inl ⟨hv, fun i hi => ?_⟩
            by_cases e : i = 0
            · subst e; exact ⟨hidx, ht⟩
            · have := hall (i - 1) (by omega)
              rwa [show idx + 1 + (i - 1) = idx + i by omega] at this
          · exact Or.inr ⟨y, hv, by omega, by omega, hy, hfree⟩

/-- A start of the loop: `ENOMEM`, or a free index. -/
def LoopStart (map : Words) (start : Int) : Prop :=
  start = enomem ∨ 0 ≤ start ∧ start < 2147483648 ∧ Free map start.toNat

theorem findFirstFree_loopStart {start size : Nat} (hs : start < 2147483648)
    (hsize : size * bitsPerBlock ≤ 2147483648) :
    LoopStart map (findFirstFree (peek map) start size).run := by
  rcases findFirstFree_spec map start size hs with ⟨x, hx, hleast, hb⟩ | ⟨hx, -⟩
  · have hx' : x < 2147483648 := by unfold Ahead bitsPerBlock at *; omega
    rw [hx, toInt32_of_range (by omega) (by omega)]
    exact Or.inr ⟨by omega, by omega, hleast.2.1⟩
  · exact Or.inl hx

/-- **The loop in the bitmap** ends with `ENOMEM` or with a region of the bitmap. -/
theorem fitLoop_within {size count : Nat} (hb : bound * bitsPerBlock ≤ 2147483648)
    (hsize : size * bitsPerBlock ≤ 2147483648) (hc : 0 < count) {r : Int} (rounds : Nat) :
    ∀ {start : Int}, LoopStart map start →
    fitLoop (within bound map) size count rounds start = some (some r) →
    r = enomem ∨ 0 ≤ r ∧ r + count ≤ (bound * bitsPerBlock : Nat) := by
  induction rounds with
  | zero => intro start _ h; cases h
  | succ rounds ih =>
      intro start hstart h
      rw [fitLoop, Option.bind_eq_bind] at h
      obtain ⟨n, hn, h⟩ := Option.bind_eq_some_iff.mp h
      have hcase := isFreeRegionBigEnough_within hb count hn
      rcases hstart with rfl | ⟨h₀, h₁, hfree⟩
      · -- the 64-bit value of `ENOMEM` lies outside the bitmap
        have hu : toUInt64 enomem = 18446744073709551615 := by decide
        rw [hu] at hcase
        rcases hcase with ⟨-, hall⟩ | ⟨y, -, hy₀, -, hy, -⟩
        · have := (hall 0 hc).1; omega
        · omega
      have hu : toUInt64 start = start.toNat := by
        obtain ⟨m, rfl⟩ := Int.eq_ofNat_of_zero_le h₀
        exact toUInt64_natCast (by omega)
      rw [hu] at hcase
      rcases hcase with ⟨rfl, hall⟩ | ⟨y, rfl, hy₀, -, hy, hused⟩
      · obtain rfl : start = r := Option.some.inj (Option.some.inj h)
        have := (hall (count - 1) (by omega)).1
        exact Or.inr ⟨h₀, by omega⟩
      · have hne : (y : Int) ≠ 0 := by
          intro e
          have : start.toNat = y := by omega
          exact hused (this ▸ hfree)
        rw [if_pos hne] at h
        obtain ⟨s, hs, h⟩ := Option.bind_eq_some_iff.mp h
        have hfind := findFirstFree_within hs
        rw [toUInt64_natCast (by omega)] at hfind
        have hnext : LoopStart map s := hfind ▸ findFirstFree_loopStart (by omega) hsize
        by_cases hpos : 0 ≤ s
        · rw [if_pos hpos] at h
          exact ih hnext h
        · rw [if_neg hpos] at h
          obtain rfl : s = r := Option.some.inj (Option.some.inj h)
          exact Or.inl (hnext.resolve_right fun h => hpos h.1)

/-- **The search in the bitmap** is the search from memory, and ends with `ENOMEM` or with a region
of the bitmap. -/
theorem findFit_within {size count : Nat} (hb : bound * bitsPerBlock ≤ 2147483648)
    (hsize : size * bitsPerBlock ≤ 2147483648) (hc : 0 < count) {r : Int}
    (h : findFit (within bound map) size count = some (some r)) :
    (findFit (peek map) size count).run = some r ∧
      (r = enomem ∨ 0 ≤ r ∧ r + count ≤ (bound * bitsPerBlock : Nat)) := by
  refine ⟨findFit_run h, ?_⟩
  rw [findFit, Option.bind_eq_bind] at h
  obtain ⟨s, hs, h⟩ := Option.bind_eq_some_iff.mp h
  have hfind := findFirstFree_within hs
  exact fitLoop_within hb hsize hc maxRounds
    (hfind ▸ findFirstFree_loopStart (by decide) hsize) h

end FrazzOS.Bitmap

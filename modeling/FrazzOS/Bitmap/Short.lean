import FrazzOS.Bitmap.Search

/-!
# Bitmap — short searches

* `findFit_pair`: a search for two blocks ends near the bitmap, whatever memory holds behind it.
* `findFit_enomem_mono`: where the search for a few blocks ends with `ENOMEM`, so does the search
  for more.
-/

namespace FrazzOS.Bitmap
open CInt FirstFit

variable {map : Words}

/-- From the start of a word behind the bitmap nothing is found. -/
theorem findFirstFree_behind {start size : Nat} (ha : start % bitsPerBlock = 0)
    (hs : start < 2147483648) (hb : size ≤ start / bitsPerBlock) :
    (findFirstFree (peek map) start size).run = enomem := by
  rw [findFirstFree_peek_aligned map ha, toInt32_block hs,
    toUInt64_natCast (by unfold bitsPerBlock; omega), Nat.sub_eq_zero_of_le hb,
    freeInWords_peek_zero]

/-- The loop for two blocks, from a free block at most one word behind the bitmap. -/
theorem fitLoop_pair {size : Nat} (hsize : size * bitsPerBlock + 128 ≤ 2147483648) {r : Int}
    (rounds : Nat) : ∀ v : Nat, v < size * bitsPerBlock + 64 → Free map v →
    (fitLoop (peek map) size 2 rounds v).run = some r →
    r = enomem ∨ ∃ w : Nat, r = w ∧ w < size * bitsPerBlock + 64 := by
  induction rounds with
  | zero => intro v _ _ h; cases h
  | succ rounds ih =>
      intro v hv hfree h
      have hu : toUInt64 v = v := toUInt64_natCast (by omega)
      rcases isFreeRegionBigEnough_spec map 2 v (by omega) with
        ⟨hzero, -⟩ | ⟨y, h₀, h₁, hy, -, hy'⟩
      · rw [fitLoop_peek_stop map rounds (by rw [hu, hzero])] at h
        cases h
        exact Or.inr ⟨v, rfl, hv⟩
      · have hvy : v ≠ y := fun e => hy (e ▸ hfree)
        obtain rfl : y = v + 1 := by omega
        have hnext : (isFreeRegionBigEnough (peek map) (toUInt64 v) 2).run = (v + 1 : Nat) := by
          rw [hu, hy', toInt32_of_range (by omega) (by omega)]
        have hyu : toUInt64 (v + 1 : Nat) = v + 1 := toUInt64_natCast (by omega)
        rw [fitLoop_peek_next map rounds hnext (by omega) rfl, hyu] at h
        by_cases hbehind : v + 1 = size * bitsPerBlock + 64
        · -- the word behind the bitmap ends here
          have hend : (findFirstFree (peek map) (v + 1) size).run = enomem := by
            rw [hbehind]
            refine findFirstFree_behind ?_ (by omega) ?_
            · unfold bitsPerBlock; omega
            · unfold bitsPerBlock; omega
          rw [hend, if_neg (by decide)] at h
          cases h
          exact Or.inl rfl
        · rcases findFirstFree_spec map (v + 1) size (by omega) with
            ⟨x, hx, hleast, hb⟩ | ⟨hx, -⟩
          · have hxlt : x < size * bitsPerBlock + 64 := by unfold Ahead bitsPerBlock at *; omega
            rw [hx, toInt32_of_range (by omega) (by omega), if_pos (by omega)] at h
            exact ih x hxlt hleast.2.1 h
          · rw [hx, if_neg (by decide)] at h
            cases h
            exact Or.inl rfl

/-- **A search for two blocks** ends with `ENOMEM`, or in the bitmap or in the word behind it. -/
theorem findFit_pair {size : Nat} (hsize : size * bitsPerBlock + 128 ≤ 2147483648)
    (hpos : 0 < size) {r : Int} (h : (findFit (peek map) size 2).run = some r) :
    r = enomem ∨ ∃ w : Nat, r = w ∧ w < size * bitsPerBlock + 64 := by
  rw [findFit, Id.run_bind] at h
  rcases findFirstFree_spec map 0 size (by decide) with ⟨x, hx, hleast, hb⟩ | ⟨hx, hall⟩
  · have hxlt : x < size * bitsPerBlock + 64 := by unfold Ahead bitsPerBlock at *; omega
    rw [hx, toInt32_of_range (by omega) (by omega)] at h
    exact fitLoop_pair hsize maxRounds x hxlt hleast.2.1 h
  · rw [hx] at h
    have : (fitLoop (peek map) size 2 maxRounds enomem).run = some enomem :=
      fitLoop_enomem hpos fun y hy => hall y (Nat.zero_le y) (Or.inl hy)
    exact Or.inl (Option.some.inj (h.symm.trans this))

/-- Where the loop for few blocks ends with `ENOMEM`, the loop for more does. -/
theorem fitLoop_enomem_mono {size k k' : Nat} (hk : k ≤ k') (rounds : Nat) : ∀ start : Int,
    0 ≤ start → (fitLoop (peek map) size k rounds start).run = some enomem →
    (fitLoop (peek map) size k' rounds start).run = some enomem := by
  induction rounds with
  | zero => intro start _ h; cases h
  | succ rounds ih =>
      intro start h₀ h
      by_cases hzero : (isFreeRegionBigEnough (peek map) (toUInt64 start) k).run = 0
      · rw [fitLoop_peek_stop map rounds hzero] at h
        have : start = enomem := Option.some.inj h
        exact absurd h₀ (by rw [this]; decide)
      · have hsame := isFreeRegionBigEnough_mono hk (toUInt64 start) hzero
        rw [fitLoop_peek_next map rounds rfl hzero rfl] at h
        rw [fitLoop_peek_next map rounds hsame hzero rfl]
        split at h
        · rename_i hpos
          rw [if_pos hpos]
          exact ih _ hpos h
        · rename_i hneg
          rw [if_neg hneg]
          exact h

/-- **Where the search for few blocks ends with `ENOMEM`, so does the search for more.** -/
theorem findFit_enomem_mono {size k k' : Nat} (hsize : 0 < size) (hk : k ≤ k')
    (hrange : size * bitsPerBlock ≤ 2147483648)
    (h : (findFit (peek map) size k).run = some enomem) :
    (findFit (peek map) size k').run = some enomem := by
  rw [findFit, Id.run_bind] at h ⊢
  rcases findFirstFree_spec map 0 size (by decide) with ⟨x, hx, -, hb⟩ | ⟨hx, hall⟩
  · have hxlt : x < 2147483648 := by unfold Ahead bitsPerBlock at *; omega
    rw [hx, toInt32_of_range (by omega) (by omega)] at h ⊢
    exact fitLoop_enomem_mono hk maxRounds x (by omega) h
  · rw [hx]
    exact fitLoop_enomem hsize fun y hy => hall y (Nat.zero_le y) (Or.inl hy)

end FrazzOS.Bitmap

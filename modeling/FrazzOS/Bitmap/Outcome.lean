import FrazzOS.Bitmap.Within

/-!
# Bitmap — Outcome

What the search comes to when it may read only the words `0 … bound - 1`: a result, or `none` for
a read of another word.  It looks for free indices in `size` words, `bound ≤ size`, and every free
index of the bitmap lies below `E`, which fits an `int`.

* `findFirstFree_outcome`: the least free index; with none ahead, `ENOMEM` when `size` is `bound`,
  else a read outside.
* `findFirstFree_firstFree`: over the words of the bitmap the search is exact (`FirstFree`).
* `isFreeRegionBigEnough_outcome`: a free region, a used index, or a read outside.
* `fitLoop_outcome`, `findFit_outcome`: a fit is found when there is one.  With none the search
  reads outside, unless `size` is `bound`, some index is free and the last index is used; then it
  ends with `ENOMEM`.
-/

namespace FrazzOS.Bitmap
open CInt FirstFit

variable {bound size count E : Nat} {map : Words}

theorem within_eq {i : Nat} (h : i < bound) : within bound map i = some (map i) :=
  if_pos ⟨Int.natCast_nonneg i, Int.ofNat_lt.mpr h⟩

theorem within_outside {i : Nat} (h : bound ≤ i) : within bound map i = none :=
  if_neg fun hi => absurd (Int.ofNat_lt.mp hi.2) (Nat.not_lt.mpr h)

/-- One round of the loop over whole words, in the bitmap. -/
theorem freeInWords_within_succ (map : Words) {i : Nat} (k : Nat) (h : i < bound) :
    freeInWords (within bound map) i (k + 1) =
      if map i ≠ BitVec.allOnes 64 then
        match firstClear (map i) 0 bitsPerBlock with
        | some j => some (toInt32 (i * bitsPerBlock + j : Nat))
        | none => freeInWords (within bound map) (i + 1) k
      else freeInWords (within bound map) (i + 1) k := by
  rw [freeInWords, within_eq h, Option.bind_eq_bind, Option.bind_some]
  rfl

theorem freeInWords_outcome (map : Words) (k : Nat) : ∀ i : Nat, i ≤ bound →
    (∃ x, freeInWords (within bound map) i k = some (toInt32 (x : Nat)) ∧
      LeastFree (Free map) (i * bitsPerBlock) x ∧ x < bound * bitsPerBlock) ∨
    ((∀ y, i * bitsPerBlock ≤ y → y < (i + k) * bitsPerBlock → y < bound * bitsPerBlock →
        ¬ Free map y) ∧
      freeInWords (within bound map) i k = if i + k ≤ bound then some enomem else none) := by
  induction k with
  | zero =>
      intro i hi
      exact Or.inr ⟨fun y h₀ h₁ => by simp only [Nat.add_zero] at h₁; omega, (if_pos hi).symm⟩
  | succ k ih =>
      intro i hi
      by_cases hin : i < bound
      · rw [freeInWords_within_succ map k hin, show i + (k + 1) = i + 1 + k by omega]
        rcases scanWord_cases map i (fun x => some (toInt32 (x : Nat)))
          (freeInWords (within bound map) (i + 1) k) with ⟨x, hr, hx, hb⟩ | ⟨hr, hused⟩
        · refine Or.inl ⟨x, hr, hx, Nat.lt_of_lt_of_le hb ?_⟩
          exact Nat.mul_le_mul_right _ hin
        -- a word without a free index leaves the result to the words behind it
        rcases ih (i + 1) hin with ⟨x, hr', hx, hb⟩ | ⟨hy, hr'⟩
        · refine Or.inl ⟨x, hr.trans hr', leastFree_extend hx ?_ hused, hb⟩
          exact Nat.mul_le_mul_right _ (by omega)
        · refine Or.inr ⟨fun y h₀ h₁ h₂ => ?_, hr.trans hr'⟩
          by_cases hm : y < (i + 1) * bitsPerBlock
          · exact hused y h₀ hm
          · exact hy y (by omega) h₁ h₂
      · obtain rfl : i = bound := by omega
        refine Or.inr ⟨fun y h₀ _ h₂ => by omega, ?_⟩
        rw [freeInWords, within_outside (Nat.le_refl i), if_neg (by omega)]
        rfl

/-- **The first free index, in the bitmap**: from a start there that fits an `int`, the least one;
with none ahead, `ENOMEM`, or a read outside where the search goes on behind the bitmap. -/
theorem findFirstFree_outcome (map : Words) {start : Nat} (hsize : bound ≤ size)
    (hs : start < 2147483648) (hin : start ≤ bound * bitsPerBlock) :
    (∃ x, findFirstFree (within bound map) start size = some (toInt32 (x : Nat)) ∧
      LeastFree (Free map) start x ∧ x < bound * bitsPerBlock) ∨
    ((∀ y, start ≤ y → y < bound * bitsPerBlock → ¬ Free map y) ∧
      findFirstFree (within bound map) start size =
        if size ≤ bound then some enomem else none) := by
  obtain ⟨hd, hr⟩ := block_decomp start
  have hblock := toInt32_block hs
  -- the loop over whole words, from the word `b` on
  have hwords : ∀ b, b ≤ bound → start ≤ b * bitsPerBlock →
      (∀ y, start ≤ y → y < b * bitsPerBlock → ¬ Free map y) →
      (∃ x, freeInWords (within bound map) b (size - b) = some (toInt32 (x : Nat)) ∧
        LeastFree (Free map) start x ∧ x < bound * bitsPerBlock) ∨
      ((∀ y, start ≤ y → y < bound * bitsPerBlock → ¬ Free map y) ∧
        freeInWords (within bound map) b (size - b) =
          if size ≤ bound then some enomem else none) := by
    intro b hb hstart hused
    have hend : b + (size - b) = size := by omega
    rcases freeInWords_outcome map (size - b) b hb with
      ⟨x, hx, hleast, hlt⟩ | ⟨hall, hx⟩
    · exact Or.inl ⟨x, hx, leastFree_extend hleast hstart hused, hlt⟩
    · rw [hend] at hall hx
      refine Or.inr ⟨fun y h₀ h₁ => ?_, hx⟩
      by_cases hy : y < b * bitsPerBlock
      · exact hused y h₀ hy
      · exact hall y (by omega) (Nat.lt_of_lt_of_le h₁ (Nat.mul_le_mul_right _ hsize)) h₁
  by_cases ha : start % bitsPerBlock = 0
  · rw [findFirstFree, if_neg (by simpa using ha)]
    simp only [hblock]
    rw [toUInt64_natCast (by unfold bitsPerBlock; omega)]
    exact hwords _ (by unfold bitsPerBlock at *; omega) (by omega) fun y _ _ => by omega
  · have hlt : start / bitsPerBlock < bound := by unfold bitsPerBlock at *; omega
    rw [findFirstFree, if_pos ha]
    simp only [hblock]
    rw [within_eq hlt, Option.bind_eq_bind, Option.bind_some]
    cases hj : firstClear (map (start / bitsPerBlock : Nat)) (start % bitsPerBlock)
        (bitsPerBlock - start % bitsPerBlock) with
    | some j =>
        obtain ⟨hjlt, hleast⟩ := leastFree_of_firstClear hj
        rw [← hd] at hleast
        refine Or.inl ⟨start / bitsPerBlock * bitsPerBlock + j, by push_cast; rfl, hleast, ?_⟩
        unfold bitsPerBlock at *; omega
    | none =>
        simp only [toUInt64_next_block hs]
        exact hwords _ hlt (by unfold bitsPerBlock at *; omega)
          fun y h₀ h₁ => used_of_firstClear hj (by omega) h₁

/-- What a search among the indices from `start` on, below `n`, comes to: the least one that tests
free, or `ENOMEM` where none does. -/
def FirstFree (test : Nat → Bool) (start n : Nat) (r : Int) : Prop :=
  (∃ i : Nat, r = i ∧ IsLeast (freeBelow (test · = false) start n) i) ∨
    r = enomem ∧ freeBelow (test · = false) start n = ∅

/-- There is one such result. -/
theorem FirstFree.unique {test : Nat → Bool} {start n : Nat} {r r' : Int}
    (h : FirstFree test start n r) (h' : FirstFree test start n r') : r = r' := by
  rcases h with ⟨i, rfl, hi⟩ | ⟨rfl, hnone⟩ <;> rcases h' with ⟨i', rfl, hi'⟩ | ⟨rfl, hnone'⟩
  · rw [hi.unique hi']
  · exact absurd hi.1 (hnone' ▸ Set.notMem_empty i)
  · exact absurd hi'.1 (hnone ▸ Set.notMem_empty i')
  · rfl

/-- **The first free index**, from a start in the bitmap: the search over its words reads no other
one, and is exact. -/
theorem findFirstFree_firstFree (map : Words) {start : Nat}
    (hint : bound * bitsPerBlock ≤ 2147483648) (hin : start < bound * bitsPerBlock) :
    findFirstFree (within bound map) start bound =
        some (findFirstFree (peek map) start bound).run ∧
      FirstFree (testBit map) start (bound * bitsPerBlock)
        (findFirstFree (peek map) start bound).run := by
  rcases findFirstFree_outcome map (Nat.le_refl bound) (by omega) (Nat.le_of_lt hin) with
    ⟨x, hx, hleast, hlt⟩ | ⟨hused, hx⟩
  · rw [toInt32_of_range (by omega) (by omega)] at hx
    rw [findFirstFree_within hx]
    exact ⟨hx, Or.inl ⟨x, rfl, hleast.isLeast hlt⟩⟩
  · rw [if_pos (Nat.le_refl bound)] at hx
    rw [findFirstFree_within hx]
    refine ⟨hx, Or.inr ⟨rfl, Set.eq_empty_of_forall_notMem ?_⟩⟩
    rintro y ⟨h₀, h₁, hfree⟩
    exact hused y h₀ h₁ hfree

/-- **The region test, in the bitmap**: all of the region lies there and is free, or it reports a
used index of the bitmap, or it runs over the bitmap's end. -/
theorem isFreeRegionBigEnough_outcome (map : Words)
    (hb : bound * bitsPerBlock < 18446744073709551616) (k : Nat) :
    ∀ idx : Nat, idx ≤ bound * bitsPerBlock →
    (Fits (Free map) k idx ∧ idx + k ≤ bound * bitsPerBlock ∧
      isFreeRegionBigEnough (within bound map) idx k = some 0) ∨
    (∃ y : Nat, idx ≤ y ∧ y < idx + k ∧ y < bound * bitsPerBlock ∧ ¬ Free map y ∧
      (∀ z, idx ≤ z → z < y → Free map z) ∧
      isFreeRegionBigEnough (within bound map) idx k = some (toInt32 y)) ∨
    ((∀ y, idx ≤ y → y < bound * bitsPerBlock → Free map y) ∧ bound * bitsPerBlock < idx + k ∧
      isFreeRegionBigEnough (within bound map) idx k = none) := by
  induction k with
  | zero => exact fun idx hidx => Or.inl ⟨fun i hi => by omega, hidx, rfl⟩
  | succ k ih =>
      intro idx hidx
      rw [isFreeRegionBigEnough, readBit]
      by_cases hlt : idx < bound * bitsPerBlock
      · have hword : idx / bitsPerBlock < bound := by unfold bitsPerBlock at *; omega
        rw [within_eq hword, Option.bind_eq_bind, Option.bind_eq_bind, Option.bind_some]
        have hbit : (map (idx / bitsPerBlock : Nat) &&& bitMask idx != 0) = testBit map idx := rfl
        simp only [hbit, Option.pure_def, Option.bind_some]
        cases ht : testBit map idx with
        | true =>
            exact Or.inr (Or.inl ⟨idx, Nat.le_refl _, by omega, hlt, by simp [Free, ht],
              fun z _ _ => by omega, if_pos rfl⟩)
        | false =>
            rw [if_neg Bool.false_ne_true, Nat.mod_eq_of_lt (by omega)]
            rcases ih (idx + 1) hlt with
              ⟨hf, hend, hr⟩ | ⟨y, h₀, h₁, h₂, hy, hz, hr⟩ | ⟨hall, hend, hr⟩
            · refine Or.inl ⟨fun i hi => ?_, by omega, hr⟩
              by_cases e : i = 0
              · rw [e]; exact ht
              · exact hf.free_of_mem (by omega) (by omega)
            · refine Or.inr (Or.inl ⟨y, by omega, by omega, h₂, hy, fun z hz₀ hz₁ => ?_, hr⟩)
              by_cases e : z = idx
              · rw [e]; exact ht
              · exact hz z (by omega) hz₁
            · refine Or.inr (Or.inr ⟨fun y h₀ h₁ => ?_, by omega, hr⟩)
              by_cases e : y = idx
              · rw [e]; exact ht
              · exact hall y (by omega) h₁
      · have hword : bound ≤ idx / bitsPerBlock := by unfold bitsPerBlock at *; omega
        rw [within_outside hword]
        exact Or.inr (Or.inr ⟨fun y h₀ h₁ => by omega, by omega, rfl⟩)

/-- **The loop, in the bitmap**, from the least free index `v` on: a fit, or there is none. -/
theorem fitLoop_outcome (count : Nat) (hsize : bound ≤ size)
    (hb : bound * bitsPerBlock < 18446744073709551616)
    (hE : E ≤ bound * bitsPerBlock) (hint : E < 2147483648)
    (htail : ∀ y, E ≤ y → y < bound * bitsPerBlock → ¬ Free map y) (rounds : Nat) :
    ∀ lo v : Nat, LeastFree (Free map) lo v → v < E → E ≤ v + rounds →
    (∃ w : Nat, fitLoop (within bound map) size count rounds v = some (some (w : Int)) ∧
      Free map w ∧ Fits (Free map) count w ∧ w < E ∧ w + count ≤ bound * bitsPerBlock) ∨
    ((∀ p, lo ≤ p → p + count ≤ bound * bitsPerBlock → ¬ Fits (Free map) count p) ∧
      fitLoop (within bound map) size count rounds v =
        if Free map (bound * bitsPerBlock - 1) ∨ bound < size then none
        else some (some enomem)) := by
  induction rounds with
  | zero => intro lo v _ hv h; omega
  | succ rounds ih =>
      intro lo v hv hvE hrounds
      rw [fitLoop, toUInt64_natCast (show v < 18446744073709551616 by omega), Option.bind_eq_bind]
      rcases isFreeRegionBigEnough_outcome map hb count v (by omega) with
        ⟨hf, hend, hr⟩ | ⟨y, h₀, h₁, h₂, hy, hz, hr⟩ | ⟨hall, hend, hr⟩
      · rw [hr]
        exact Or.inl ⟨v, rfl, hv.2.1, hf, hvE, hend⟩
      · -- a restart at a used index skips no fit
        have hgt : ∀ p, lo ≤ p → Fits (Free map) count p → y < p :=
          fun p hp hf => hf.gt_of_used hv hy h₁ (by omega) hp
        have hyE : y ≤ E := by
          by_contra hlt
          exact htail E (Nat.le_refl E) (by omega) (hz E (by omega) (by omega))
        have hvy : v ≠ y := fun e => hy (e ▸ hv.2.1)
        rw [hr, toInt32_of_range (by omega) (by omega), Option.bind_some, if_pos (by omega),
          toUInt64_natCast (by omega)]
        rcases findFirstFree_outcome map hsize (show y < 2147483648 by omega)
          (Nat.le_of_lt h₂) with
          ⟨x, hx, hleast, hxb⟩ | ⟨hused, hx⟩
        · have hxE : x < E := by
            by_contra hge
            exact htail x (by omega) hxb hleast.2.1
          have hyx := hleast.1
          rw [hx, toInt32_of_range (by omega) (by omega), Option.bind_some, if_pos (by omega)]
          rcases ih y x hleast hxE (by omega) with hfound | ⟨hno, hres⟩
          · exact Or.inl hfound
          · exact Or.inr ⟨fun p hp hend hf => hno p (Nat.le_of_lt (hgt p hp hf)) hend hf, hres⟩
        · refine Or.inr ⟨fun p hp hend hf => ?_, ?_⟩
          · exact hused p (Nat.le_of_lt (hgt p hp hf)) (by omega)
              (hf.free_of_mem (Nat.le_refl p) (by omega))
          · have hlast := hused (bound * bitsPerBlock - 1) (by omega) (by omega)
            rw [hx]
            by_cases hs : size ≤ bound
            · rw [if_pos hs, if_neg (by simp only [hlast, false_or]; omega)]
              rfl
            · rw [if_neg hs, if_pos (Or.inr (by omega))]
              rfl
      · rw [hr, Option.bind_none]
        refine Or.inr ⟨fun p hp hend' hf => ?_, ?_⟩
        · -- a fit starts at a free index, none of which comes before `v`
          refine hv.2.2 p hp (by omega) (hf.free_of_mem (Nat.le_refl p) (by omega))
        · exact (if_pos (Or.inl (hall _ (by omega) (by omega)))).symm

/-- **The search, in the bitmap**: a fit; or no index is free; or some are, and none of them starts
a fit. -/
theorem findFit_outcome (map : Words) (count : Nat) (hsize : bound ≤ size)
    (hb : bound * bitsPerBlock < 18446744073709551616)
    (hE : E ≤ bound * bitsPerBlock) (hint : E < 2147483648)
    (htail : ∀ y, E ≤ y → y < bound * bitsPerBlock → ¬ Free map y) :
    (∃ w : Nat, findFit (within bound map) size count = some (some (w : Int)) ∧
      Free map w ∧ Fits (Free map) count w ∧ w < E ∧ w + count ≤ bound * bitsPerBlock) ∨
    ((∀ p, p < bound * bitsPerBlock → ¬ Free map p) ∧
      findFit (within bound map) size count =
        if bound < size ∨ 0 < count then none else some (some enomem)) ∨
    ((∃ p, p < bound * bitsPerBlock ∧ Free map p) ∧
      (∀ p, p + count ≤ bound * bitsPerBlock → ¬ Fits (Free map) count p) ∧
      findFit (within bound map) size count =
        if Free map (bound * bitsPerBlock - 1) ∨ bound < size then none
        else some (some enomem)) := by
  rw [findFit, Option.bind_eq_bind]
  rcases findFirstFree_outcome map hsize (show 0 < 2147483648 by decide)
    (Nat.zero_le _) with ⟨x, hx, hleast, hxb⟩ | ⟨hused, hx⟩
  · have hxE : x < E := by
      by_contra hge
      exact htail x (by omega) hxb hleast.2.1
    rw [hx, toInt32_of_range (by omega) (by omega), Option.bind_some]
    rcases fitLoop_outcome count hsize hb hE hint htail maxRounds 0 x hleast hxE
      (by unfold maxRounds; omega) with hfound | ⟨hno, hres⟩
    · exact Or.inl hfound
    · exact Or.inr (Or.inr ⟨⟨x, hxb, hleast.2.1⟩, fun p => hno p (Nat.zero_le p), hres⟩)
  · refine Or.inr (Or.inl ⟨fun p hp => hused p (Nat.zero_le p) hp, ?_⟩)
    rw [hx]
    by_cases hs : size ≤ bound
    · rw [if_pos hs, Option.bind_some, show maxRounds = 4294967296 + 1 from rfl, fitLoop,
        show toUInt64 enomem = 18446744073709551615 by decide]
      cases count with
      | zero => exact (if_neg (by omega)).symm
      | succ k =>
          have hword : bound ≤ 18446744073709551615 / bitsPerBlock := by
            unfold bitsPerBlock at *; omega
          rw [isFreeRegionBigEnough, readBit, within_outside hword, if_pos (by omega)]
          rfl
    · rw [if_neg hs, if_pos (Or.inl (by omega))]
      rfl

end FrazzOS.Bitmap

import FrazzOS.Bitmap.Search

/-!
# Bitmap — Stops

Where the search ends, in the bitmap or behind it.  Behind the bitmap the search for a free index
goes no further than the word it starts in, so the search as a whole cannot pass a used index at
the edge of a word (`Stop`), once the bitmap has no free index from there on.

* `fitLoop_ends`: with a stop ahead, or a fit, the loop ends at the first fit in front of every
  stop, or with `ENOMEM` at a stop that has no fit in front of it.
* `findFit_ends`, `findFit_sound`: the same for the search.
* `findFit_found`, `findFit_full`: a fit in the bitmap, or its last index as a stop.
-/

namespace FrazzOS.Bitmap
open CInt FirstFit

variable {map : Words} {size count : Nat}

/-- A used index at an edge of its word, below `2³¹`, with no free index of the bitmap from there
on. -/
structure Stop (map : Words) (size u : Nat) : Prop where
  int : u < 2147483648
  used : ¬ Free map u
  edge : u % bitsPerBlock = 0 ∨ u % bitsPerBlock = 63
  behind : ∀ y, u ≤ y → y < size * bitsPerBlock → ¬ Free map y

/-- The last index of the bitmap, where it is used. -/
theorem Stop.last (hsize : 0 < size) (hint : size * bitsPerBlock - 1 < 2147483648)
    (hused : ¬ Free map (size * bitsPerBlock - 1)) : Stop map size (size * bitsPerBlock - 1) := by
  refine ⟨hint, hused, Or.inr ?_, fun y h₀ h₁ => ?_⟩
  · unfold bitsPerBlock
    omega
  · obtain rfl : y = size * bitsPerBlock - 1 := by omega
    exact hused

/-- A free index that is found from a start no further than the stop lies before it. -/
theorem Stop.lt_of_found {start u x : Nat} (hu : Stop map size u) (hs : start ≤ u)
    (hfree : Free map x) (hx : Ahead size start x) : x < u := by
  have hne : x ≠ u := fun e => hu.used (e ▸ hfree)
  by_contra hge
  rcases hx with hx | ⟨ha, hx⟩
  · exact hu.behind x (by omega) hx hfree
  · rcases hu.edge with he | he
    · unfold bitsPerBlock at *; omega
    · unfold bitsPerBlock at *; omega

/-- A used index with no free one ahead has a stop behind it, and none free up to there. -/
theorem exists_stop {y : Nat} (hy : y < 2147483648) (hused : ¬ Free map y)
    (hnone : ∀ z, y ≤ z → Ahead size y z → ¬ Free map z) :
    ∃ u, Stop map size u ∧ y ≤ u ∧ ∀ z, y ≤ z → z < u + 1 → ¬ Free map z := by
  by_cases ha : y % bitsPerBlock = 0
  · refine ⟨y, ⟨hy, hused, Or.inl ha, fun z h₀ h₁ => hnone z h₀ (Or.inl h₁)⟩, Nat.le_refl y,
      fun z h₀ h₁ => ?_⟩
    obtain rfl : z = y := by omega
    exact hused
  · -- the rest of the word is used, up to its last index
    have hrest : ∀ z, y ≤ z → z < (y / bitsPerBlock + 1) * bitsPerBlock → ¬ Free map z :=
      fun z h₀ h₁ => hnone z h₀ (Or.inr ⟨ha, h₁⟩)
    have hle : y ≤ y / bitsPerBlock * bitsPerBlock + 63 := by unfold bitsPerBlock; omega
    have hlt : y / bitsPerBlock * bitsPerBlock + 63 < (y / bitsPerBlock + 1) * bitsPerBlock := by
      unfold bitsPerBlock; omega
    refine ⟨y / bitsPerBlock * bitsPerBlock + 63, ⟨?_, hrest _ hle hlt, Or.inr ?_,
      fun z h₀ h₁ => hnone z (by omega) (Or.inl h₁)⟩, hle, fun z h₀ h₁ => hrest z h₀ (by omega)⟩
    · unfold bitsPerBlock; omega
    · unfold bitsPerBlock; omega

/-- The region test up to a used index, or of a count that does not wrap: all free, or the first
used index reported. -/
theorem isFreeRegionBigEnough_upto {v e : Nat} (he : e < 2147483648) (hve : v ≤ e)
    (hfree : Free map v) (hlim : ¬ Free map e ∨ count ≤ 4294967296) :
    ((isFreeRegionBigEnough (peek map) v count).run = 0 ∧ Fits (Free map) count v) ∨
    (∃ y, v ≤ y ∧ y < v + count ∧ ¬ Free map y ∧ (∀ z, v ≤ z → z < y → Free map z) ∧
      (isFreeRegionBigEnough (peek map) v count).run = toInt32 (y : Nat)) := by
  by_cases hwrap : v + count ≤ 18446744073709551616
  · exact isFreeRegionBigEnough_spec map count v hwrap
  · have hused : ¬ Free map e := hlim.resolve_right (by omega)
    -- the first used index lies among those up to `e`
    rcases isFreeRegionBigEnough_spec map (e + 1 - v) v (by omega) with
      ⟨-, hf⟩ | ⟨y, h₀, h₁, hy, hz, hy'⟩
    · exact absurd (hf.free_of_mem hve (by omega)) hused
    · have hvy : v ≠ y := fun e => hy (e ▸ hfree)
      have hne : (isFreeRegionBigEnough (peek map) v (e + 1 - v)).run ≠ 0 := by
        rw [hy', toInt32_of_range (by omega) (by omega)]
        omega
      exact Or.inr ⟨y, h₀, by omega, hy, hz,
        (isFreeRegionBigEnough_mono (by omega) v hne).trans hy'⟩

/-- What the search cannot pass from `lo` on: a stop, or a fit. -/
def Limit (map : Words) (size count lo e : Nat) : Prop :=
  Stop map size e ∨
    lo ≤ e ∧ e < 2147483648 ∧ count ≤ 4294967296 ∧ Free map e ∧ Fits (Free map) count e

theorem Limit.int {lo e : Nat} (h : Limit map size count lo e) : e < 2147483648 := by
  rcases h with hu | ⟨-, he, -⟩
  · exact hu.int
  · exact he

theorem Limit.used_or {lo e : Nat} (h : Limit map size count lo e) :
    ¬ Free map e ∨ count ≤ 4294967296 := by
  rcases h with hu | ⟨-, -, hc, -⟩
  · exact Or.inl hu.used
  · exact Or.inr hc

/-- The first used index of a region in front of the limit lies no further than the limit, and
keeps it. -/
theorem Limit.restart {lo e v y : Nat} (h : Limit map size count lo e)
    (hve : v ≤ e) (h₁ : y < v + count) (hy : ¬ Free map y)
    (hz : ∀ z, v ≤ z → z < y → Free map z) : y ≤ e ∧ Limit map size count y e := by
  rcases h with hu | ⟨hlo, he, hc, hfree, hf⟩
  · refine ⟨?_, Or.inl hu⟩
    by_contra hlt
    exact hu.used (hz e hve (by omega))
  · have hye : y ≤ e := by
      by_contra hlt
      exact hy (hf.free_of_mem (by omega) (by omega))
    exact ⟨hye, Or.inr ⟨hye, he, hc, hfree, hf⟩⟩

/-- A free index found in front of the limit is the limit or lies before it. -/
theorem Limit.found {lo e x : Nat} (h : Limit map size count lo e) (hle : lo ≤ e)
    (hx : LeastFree (Free map) lo x) (ha : Ahead size lo x) : x ≤ e := by
  rcases h with hu | ⟨hlo, -, -, hfree, -⟩
  · exact Nat.le_of_lt (hu.lt_of_found hle hx.2.1 ha)
  · by_contra hlt
    exact hx.2.2 e hlo (by omega) hfree

/-- **With a limit ahead the loop ends**: at the first fit, in front of every stop; or with
`ENOMEM`, where no fit lies in front of a stop. -/
theorem fitLoop_ends {e : Nat} (rounds : Nat) : ∀ lo v : Nat, LeastFree (Free map) lo v →
    (∀ u, Stop map size u → v < u) → v ≤ e → e < v + rounds → Limit map size count lo e →
    (∃ w : Nat, (fitLoop (peek map) size count rounds v).run = some (w : Int) ∧
      (∀ u, Stop map size u → w < u) ∧ Search (Free map) count 2147483648 lo (some w)) ∨
    (∃ u, Stop map size u ∧ (fitLoop (peek map) size count rounds v).run = some enomem ∧
      Search (Free map) count (u + 1) lo none) := by
  induction rounds with
  | zero => intro lo v _ _ _ h; omega
  | succ rounds ih =>
      intro lo v hv hstop hve hrounds hlim
      have he := hlim.int
      have hu : toUInt64 v = v := toUInt64_natCast (by omega)
      rcases isFreeRegionBigEnough_upto he hve hv.2.1 hlim.used_or with
        ⟨hzero, hf⟩ | ⟨y, h₀, h₁, hy, hz, hy'⟩
      · exact Or.inl ⟨v, fitLoop_peek_stop map rounds (by rw [hu, hzero]), hstop,
          .found hv (by omega) hf⟩
      · obtain ⟨hye, hlim'⟩ := hlim.restart hve h₁ hy hz
        have hvy : v ≠ y := fun e => hy (e ▸ hv.2.1)
        have hnext : (isFreeRegionBigEnough (peek map) (toUInt64 v) count).run = y := by
          rw [hu, hy', toInt32_of_range (by omega) (by omega)]
        have hyu : toUInt64 y = y := toUInt64_natCast (by omega)
        rw [fitLoop_peek_next map rounds hnext (by omega) rfl, hyu]
        rcases findFirstFree_spec map y size (by omega) with ⟨x, hx, hleast, ha⟩ | ⟨hx, hnone⟩
        · have hxe := hlim'.found hye hleast ha
          have hyx := hleast.1
          -- no stop lies between the used index and the free one
          have hstop' : ∀ u, Stop map size u → x < u := by
            intro u hu
            refine hu.lt_of_found ?_ hleast.2.1 ha
            by_contra hlt
            exact hu.used (hz u (Nat.le_of_lt (hstop u hu)) (by omega))
          rw [hx, toInt32_of_range (by omega) (by omega), if_pos (by omega)]
          rcases ih y x hleast hstop' hxe (by omega) hlim' with
            ⟨w, hw, hwu, hs⟩ | ⟨u, hu, hr, hs⟩
          · exact Or.inl ⟨w, hw, hwu, .restart hv (by omega) h₁ hy hs⟩
          · have := hstop u hu
            exact Or.inr ⟨u, hu, hr, .restart hv (by omega) h₁ hy hs⟩
        · obtain ⟨u, hu, hyu, hused⟩ := exists_stop (by omega) hy hnone
          rw [hx, if_neg (by decide)]
          exact Or.inr ⟨u, hu, rfl, .restart hv (by omega) h₁ hy (.done hused)⟩

/-- **With a limit the search ends**: at the first fit, in front of every stop; or with `ENOMEM`,
where no fit lies in front of a stop. -/
theorem findFit_ends {e : Nat} (hsize : 0 < size) (hlim : Limit map size count 0 e) :
    (∃ w : Nat, (findFit (peek map) size count).run = some (w : Int) ∧ Free map w ∧
      Fits (Free map) count w ∧ (∀ u, Stop map size u → w < u) ∧
      ∀ p, Free map p → Fits (Free map) count p → w ≤ p) ∨
    (∃ u, Stop map size u ∧ (findFit (peek map) size count).run = some enomem ∧
      ∀ p, Free map p → Fits (Free map) count p → u < p) := by
  have he := hlim.int
  by_cases hall : ∀ y, y < size * bitsPerBlock → ¬ Free map y
  · have hpos : 0 < size * bitsPerBlock := by unfold bitsPerBlock; omega
    refine Or.inr ⟨0, ⟨by decide, hall 0 hpos, Or.inl rfl, fun y _ hy => hall y hy⟩,
      findFit_none hsize hall, fun p hp _ => ?_⟩
    by_contra hle
    obtain rfl : p = 0 := by omega
    exact hall 0 hpos hp
  rw [findFit, Id.run_bind]
  rcases findFirstFree_spec map 0 size (by decide) with ⟨x, hx, hleast, ha⟩ | ⟨-, hnone⟩
  · have hxe := hlim.found (Nat.zero_le e) hleast ha
    rw [hx, toInt32_of_range (by omega) (by omega)]
    rcases fitLoop_ends maxRounds 0 x hleast
      (fun u hu => hu.lt_of_found (Nat.zero_le u) hleast.2.1 ha) hxe
      (by unfold maxRounds; omega) hlim with ⟨w, hw, hwu, hs⟩ | ⟨u, hu, hr, hs⟩
    · obtain ⟨hfree, hf, hmin⟩ := hs.least rfl
      exact Or.inl ⟨w, hw, hfree, hf, hwu, fun p hp hf => hmin p (Nat.zero_le p) hp hf⟩
    · exact Or.inr ⟨u, hu, hr, fun p hp hf => hs.none rfl p (Nat.zero_le p) hp hf⟩
  · exact absurd (fun y hy => hnone y (Nat.zero_le y) (Or.inl hy)) hall

/-- `findFit` finds the least fit, when there is one that ends in the bitmap and starts below
`2³¹`. -/
theorem findFit_found {p : Nat} (hc : 0 < count) (hp : Fits (Free map) count p)
    (hend : p + count ≤ size * bitsPerBlock) (hint : p < 2147483648)
    (hcount : count ≤ 4294967296) :
    ∃ w : Nat, (findFit (peek map) size count).run = some (w : Int) ∧
      Fits (Free map) count w ∧ ∀ q, Fits (Free map) count q → w ≤ q := by
  have hsize : 0 < size := by unfold bitsPerBlock at hend; omega
  have hfree : ∀ {q}, Fits (Free map) count q → Free map q :=
    fun hq => hq.free_of_mem (Nat.le_refl _) (by omega)
  rcases findFit_ends hsize (Or.inr ⟨Nat.zero_le p, hint, hcount, hfree hp, hp⟩) with
    ⟨w, hw, -, hf, -, hmin⟩ | ⟨u, hu, -, hno⟩
  · exact ⟨w, hw, hf, fun q hq => hmin q (hfree hq) hq⟩
  · -- no index of the bitmap is free behind a stop
    have hup := hno p (hfree hp) hp
    exact absurd (hfree hp) (hu.behind p (Nat.le_of_lt hup) (by omega))

/-- `findFit` returns `ENOMEM` when there is no fit in the bitmap and its last index is used. -/
theorem findFit_full (hsize : 0 < size)
    (hint : size * bitsPerBlock < 2147483648) (hlast : ¬ Free map (size * bitsPerBlock - 1))
    (hno : ∀ p, p + count ≤ size * bitsPerBlock → ¬ Fits (Free map) count p) :
    (findFit (peek map) size count).run = some enomem := by
  have hstop : Stop map size (size * bitsPerBlock - 1) := Stop.last hsize (by omega) hlast
  rcases findFit_ends hsize (Or.inl hstop) with ⟨w, -, -, hf, hwu, -⟩ | ⟨-, -, hr, -⟩
  · -- a fit in front of the last index ends there at the latest
    have hw := hwu _ hstop
    by_cases hend : w + count ≤ size * bitsPerBlock
    · exact absurd hf (hno w hend)
    · exact absurd (hf.free_of_mem (by omega) (by omega)) hlast
  · exact hr

/-- The same for a bitmap without a word, whose search starts at `ENOMEM`. -/
theorem findFit_empty {e : Nat} (hlim : Limit map 0 count 0 e) :
    (∃ w : Nat, (findFit (peek map) 0 count).run = some (w : Int) ∧ Free map w ∧
      Fits (Free map) count w ∧ ∀ u, Stop map 0 u → w < u) ∨
    (findFit (peek map) 0 count).run = some enomem := by
  have hstart : (findFirstFree (peek map) 0 0).run = enomem := freeInWords_peek_zero map 0
  rw [findFit, Id.run_bind, hstart, show maxRounds = 4294967296 + 1 from rfl]
  rcases @fitLoop_enomem_cases map 0 count 4294967296 (fun y hy => by omega) with
    hr | ⟨k, rfl, hr⟩
  · exact Or.inr hr
  by_cases hfree : Free map 0
  · have hlimk := hlim.used_or
    rcases isFreeRegionBigEnough_upto hlim.int (Nat.zero_le e) hfree
      (hlimk.imp_right fun h => Nat.le_of_succ_le h) with
      ⟨hzero, -⟩ | ⟨y, h₀, h₁, hy, hz, hy'⟩
    · exact Or.inr (fitLoop_peek_stop map _ (hr.trans hzero))
    · obtain ⟨hye, hlim'⟩ := hlim.restart (Nat.zero_le e) (by omega) hy hz
      have he := hlim.int
      have hy0 : y ≠ 0 := fun e => hy (e ▸ hfree)
      have hnext := hr.trans hy'
      rw [toInt32_of_range (by omega) (by omega)] at hnext
      have hyu : toUInt64 y = y := toUInt64_natCast (by omega)
      rw [fitLoop_peek_next map _ hnext (by omega) rfl, hyu]
      rcases findFirstFree_spec map y 0 (by omega) with ⟨x, hx, hleast, ha⟩ | ⟨hx, -⟩
      · have hxe := hlim'.found hye hleast ha
        have hstop : ∀ u, Stop map 0 u → x < u := by
          intro u hu
          refine hu.lt_of_found ?_ hleast.2.1 ha
          by_contra hlt
          exact hu.used (hz u (Nat.zero_le u) (by omega))
        rw [hx, toInt32_of_range (by omega) (by omega), if_pos (by omega)]
        rcases fitLoop_ends 4294967296 y x hleast hstop hxe (by omega) hlim' with
          ⟨w, hw, hwu, hs⟩ | ⟨-, -, hr, -⟩
        · obtain ⟨hwfree, hf, -⟩ := hs.least rfl
          exact Or.inl ⟨w, hw, hwfree, hf, hwu⟩
        · exact Or.inr hr
      · rw [hx, if_neg (by decide)]
        exact Or.inr rfl
  · exact Or.inr (fitLoop_peek_stop map _ (hr.trans (isFreeRegionBigEnough_zero_used hfree k)))

/-- **What a search with a limit returns**: a fit in front of every stop, or `ENOMEM`. -/
theorem findFit_sound {e : Nat} (hlim : Limit map size count 0 e) :
    (∃ w : Nat, (findFit (peek map) size count).run = some (w : Int) ∧ Free map w ∧
      Fits (Free map) count w ∧ ∀ u, Stop map size u → w < u) ∨
    (findFit (peek map) size count).run = some enomem := by
  cases size with
  | zero => exact findFit_empty hlim
  | succ size =>
      rcases findFit_ends (Nat.succ_pos size) hlim with ⟨w, hw, hfree, hf, hwu, -⟩ | ⟨-, -, hr, -⟩
      · exact Or.inl ⟨w, hw, hfree, hf, hwu⟩
      · exact Or.inr hr

end FrazzOS.Bitmap

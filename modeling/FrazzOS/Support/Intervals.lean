import Mathlib.Order.Lattice

/-!
# Support — Intervals

Binary search for the interval that a value is in.

* `Apart`: the intervals are in order, with nothing in common.
* `Between`: the intervals that a search has not excluded; `Between.up` and `Between.down` are its
  two kinds of rounds, and `Between.not_holds` its end.
-/

namespace Intervals

variable {α : Type*} [LinearOrder α] {first last : Nat → α} {n lo hi mid : Nat} {a : α}

/-- The intervals from `first i` to `last i`, for `i < n`, are in order. -/
structure Apart (first last : Nat → α) (n : Nat) : Prop where
  le : ∀ i < n, first i ≤ last i
  lt : ∀ i < n, i + 1 < n → last i < first (i + 1)

/-- One of the intervals has the value. -/
def Holds (first last : Nat → α) (n : Nat) (a : α) : Prop := ∃ i < n, first i ≤ a ∧ a ≤ last i

/-- The intervals below `lo` are in front of the value, and those from `hi` on are behind it. -/
structure Between (first last : Nat → α) (n lo hi : Nat) (a : α) : Prop where
  below : ∀ i < lo, last i < a
  above : ∀ i, hi ≤ i → i < n → a < first i

theorem Apart.last_lt (h : Apart first last n) {i j : Nat} (hij : i < j) (hj : j < n) :
    last i < first j := by
  induction j with
  | zero => exact absurd hij (Nat.not_lt_zero i)
  | succ j ih =>
      have hlt := h.lt j (Nat.lt_of_succ_lt hj) hj
      rcases Nat.lt_succ_iff_lt_or_eq.mp hij with hij | rfl
      · exact ((ih hij (Nat.lt_of_succ_lt hj)).trans_le (h.le j (Nat.lt_of_succ_lt hj))).trans hlt
      · exact hlt

/-- No interval is excluded before the first round. -/
theorem between_start (first last : Nat → α) (n : Nat) (a : α) : Between first last n 0 n a :=
  ⟨fun i h => absurd h (Nat.not_lt_zero i), fun _ h h' => absurd h' (Nat.not_lt.mpr h)⟩

/-- The value is behind the interval in the middle. -/
theorem Between.up (h : Between first last n lo hi a) (hapart : Apart first last n) (hmid : mid < n)
    (hlt : last mid < a) : Between first last n (mid + 1) hi a := by
  refine ⟨fun i hi => ?_, h.above⟩
  rcases Nat.lt_succ_iff_lt_or_eq.mp hi with hi | rfl
  · exact ((hapart.last_lt hi hmid).trans_le (hapart.le mid hmid)).trans hlt
  · exact hlt

/-- The value is in front of the interval in the middle. -/
theorem Between.down (h : Between first last n lo hi a) (hapart : Apart first last n)
    (hlt : a < first mid) : Between first last n lo mid a := by
  refine ⟨h.below, fun i hi hn => ?_⟩
  rcases Nat.lt_or_eq_of_le hi with hi | rfl
  · have hmid := Nat.lt_trans hi hn
    exact (hlt.trans_le (hapart.le mid hmid)).trans (hapart.last_lt hi hn)
  · exact hlt

/-- **Where none is left**, no interval has the value. -/
theorem Between.not_holds (h : Between first last n lo hi a) (hle : hi ≤ lo) :
    ¬ Holds first last n a := by
  rintro ⟨i, hi, hfirst, hlast⟩
  rcases Nat.lt_or_ge i lo with hlo | hlo
  · exact absurd (h.below i hlo) (not_lt.mpr hlast)
  · exact absurd (h.above i (Nat.le_trans hle hlo) hi) (not_lt.mpr hfirst)

end Intervals

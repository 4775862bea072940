import Mathlib.Data.Nat.Find
import Mathlib.Tactic.Common

/-!
# Support — Loops

The counting loops of C, and the loop that reads a device until a value of it is right.

* `countUp_inv`, `countUp_zero_inv`, `countDown_inv`: the invariant rules.
* `foldlM_eq_countUp`: a loop whose rounds may fault, where none does.
* `poll_eq_some_iff`: where a polling loop ends; `exists_first`: that it does.
-/

namespace Loops

variable {S R : Type*}

/-- `for (i = lo; i < lo + n; i++) body`. -/
def countUp (body : Nat → S → S) (lo : Nat) : Nat → S → S
  | 0,     s => s
  | n + 1, s => countUp body (lo + 1) n (body lo s)

/-- `for (i = n; i > 0; i--) body`. -/
def countDown (body : Nat → S → S) : Nat → S → S
  | 0,     s => s
  | n + 1, s => countDown body n (body (n + 1) s)

/-- **The invariant rule, upwards**: `P i` holds before the round `i`. -/
theorem countUp_inv (body : Nat → S → S) (P : Nat → S → Prop) (lo n : Nat) {s : S} (h₀ : P lo s)
    (hstep : ∀ i s, lo ≤ i → i < lo + n → P i s → P (i + 1) (body i s)) :
    P (lo + n) (countUp body lo n s) := by
  induction n generalizing lo s with
  | zero => exact h₀
  | succ n ih =>
      rw [countUp, show lo + (n + 1) = lo + 1 + n by omega]
      exact ih (lo + 1) (hstep lo s (Nat.le_refl _) (by omega) h₀)
        fun i s hlo hi => hstep i s (by omega) (by omega)

/-- The invariant rule, for a loop that starts at `0`. -/
theorem countUp_zero_inv (body : Nat → S → S) (P : Nat → S → Prop) (n : Nat) {s : S} (h₀ : P 0 s)
    (hstep : ∀ i s, i < n → P i s → P (i + 1) (body i s)) : P n (countUp body 0 n s) := by
  have h := countUp_inv body P 0 n h₀ fun i s _ hi => hstep i s (by omega)
  rw [Nat.zero_add] at h
  exact h

/-- **The invariant rule, downwards**: `P i` holds before the round `i`. -/
theorem countDown_inv (body : Nat → S → S) (P : Nat → S → Prop) (n : Nat) {s : S} (h₀ : P n s)
    (hstep : ∀ i s, i < n → P (i + 1) s → P i (body (i + 1) s)) : P 0 (countDown body n s) := by
  induction n generalizing s with
  | zero => exact h₀
  | succ n ih =>
      exact ih (hstep n s (Nat.lt_succ_self n) h₀) fun i s hi => hstep i s (by omega)

/-- A loop whose rounds may fault is one of plain rounds, where none of them does. -/
theorem foldlM_eq_countUp {f : S → Nat → Option S} {body : Nat → S → S} (lo n : Nat) (s : S)
    (h : ∀ i s, lo ≤ i → i < lo + n → f s i = some (body i s)) :
    (List.range' lo n).foldlM f s = some (countUp body lo n s) := by
  induction n generalizing lo s with
  | zero => rfl
  | succ n ih =>
      rw [List.range'_succ, List.foldlM_cons, h lo s (Nat.le_refl lo) (by omega)]
      exact ih (lo + 1) (body lo s) fun i s hlo hi => h i s (by omega) (by omega)

/-! ### Polling -/

/-- `while (!ready(read())) {}`: the place of the last reading, from the `k`-th one on, within
`fuel` readings. -/
def poll (ready : R → Bool) (readings : Nat → R) : Nat → Nat → Option Nat
  | 0,        _ => none
  | fuel + 1, k => if ready (readings k) then some k else poll ready readings fuel (k + 1)

/-- The `j`-th reading is the first one, from the `k`-th on, that is right. -/
structure First (ready : R → Bool) (readings : Nat → R) (k j : Nat) : Prop where
  le : k ≤ j
  at_end : ready (readings j) = true
  before : ∀ i, k ≤ i → i < j → ready (readings i) = false

variable {ready : R → Bool} {readings : Nat → R} {fuel k j : Nat}

theorem first_iff_of_ready (h : ready (readings k) = true) :
    First ready readings k j ↔ j = k := by
  constructor
  · intro hj
    by_contra hne
    have hk := hj.before k (Nat.le_refl _) (by have := hj.le; omega)
    rw [h] at hk
    cases hk
  · rintro rfl
    exact ⟨Nat.le_refl _, h, fun i hi hi' => absurd hi (by omega)⟩

theorem first_iff_succ (h : ready (readings k) = false) :
    First ready readings k j ↔ First ready readings (k + 1) j := by
  constructor
  · rintro ⟨hle, hj, hbefore⟩
    have hne : k ≠ j := by
      rintro rfl
      rw [h] at hj
      cases hj
    exact ⟨by omega, hj, fun i hi => hbefore i (by omega)⟩
  · rintro ⟨hle, hj, hbefore⟩
    refine ⟨by omega, hj, fun i hi hi' => ?_⟩
    rcases Nat.eq_or_lt_of_le hi with rfl | hlt
    · exact h
    · exact hbefore i hlt hi'

/-- **Where a polling loop ends**: at the first reading that is right. -/
theorem poll_eq_some_iff :
    poll ready readings fuel k = some j ↔ First ready readings k j ∧ j < k + fuel := by
  induction fuel generalizing k with
  | zero =>
      constructor
      · intro h
        cases h
      · rintro ⟨h, hj⟩
        have := h.le
        omega
  | succ fuel ih =>
      rw [poll]
      split
      · rename_i hk
        rw [first_iff_of_ready hk, Option.some.injEq]
        omega
      · rename_i hk
        rw [Bool.not_eq_true] at hk
        rw [first_iff_succ hk, ih, Nat.add_right_comm, Nat.add_assoc k]

/-- A polling loop ends where some reading is right. -/
theorem exists_first (ready : R → Bool) (hk : k ≤ j) (hj : ready (readings j) = true) :
    ∃ i, First ready readings k i ∧ i ≤ j := by
  have hex : ∃ i, k ≤ i ∧ ready (readings i) = true := ⟨j, hk, hj⟩
  obtain ⟨hle, hr⟩ := Nat.find_spec hex
  refine ⟨Nat.find hex, ⟨hle, hr, fun i hi hlt => ?_⟩, Nat.find_min' hex ⟨hk, hj⟩⟩
  rw [← Bool.not_eq_true]
  exact fun h => Nat.find_min hex hlt ⟨hi, h⟩

end Loops

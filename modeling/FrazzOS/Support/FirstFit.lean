import Mathlib.Order.Bounds.Basic
import Mathlib.Tactic.Common

/-!
# Support — FirstFit

First fit over a predicate `free` on the natural numbers, by restarting: take the least free
position, look at the `n` positions from it on, and on a used one start again from there.

* `Fits free n p`: the `n` positions from `p` on are free.
* `freeBelow free lo N`: the free positions from `lo` on, below `N`.
* `Search free n N lo r`: the restarting search from `lo` ends with `r`, where `N` bounds the
  positions at which it looks for a free one.
* `Search.least`, `Search.none`: the search finds the least fit, or there is none.  A restart at a
  used position skips no fit (`Fits.gt_of_used`).
-/

namespace FirstFit

variable {free : ℕ → Prop} {n N lo v k p : ℕ}

/-- The `n` positions from `p` on are free. -/
def Fits (free : ℕ → Prop) (n p : ℕ) : Prop := ∀ i, i < n → free (p + i)

/-- `v` is the least free position from `lo` on. -/
def LeastFree (free : ℕ → Prop) (lo v : ℕ) : Prop :=
  lo ≤ v ∧ free v ∧ ∀ y, lo ≤ y → y < v → ¬ free y

/-- The free positions from `lo` on, below `N`. -/
def freeBelow (free : ℕ → Prop) (lo N : ℕ) : Set ℕ := {y | lo ≤ y ∧ y < N ∧ free y}

theorem LeastFree.isLeast (h : LeastFree free lo v) (hN : v < N) :
    IsLeast (freeBelow free lo N) v := by
  obtain ⟨hlo, hfree, hleast⟩ := h
  refine ⟨⟨hlo, hN, hfree⟩, fun y hy => ?_⟩
  by_contra hlt
  exact hleast y hy.1 (Nat.lt_of_not_le hlt) hy.2.2

theorem Fits.free_of_mem (h : Fits free n p) (h₀ : p ≤ k) (h₁ : k < p + n) : free k := by
  have := h (k - p) (by omega)
  rwa [Nat.add_sub_cancel' h₀] at this

/-- **A restart skips no fit**: with a used position `k` among the `n` positions from the least
free one on, every fit from `lo` on starts behind `k`. -/
theorem Fits.gt_of_used (hv : LeastFree free lo v) (hk : ¬ free k) (h₁ : k < v + n)
    (hn : 0 < n) (hp : Fits free n p) (hlo : lo ≤ p) : k < p := by
  obtain ⟨-, -, hleast⟩ := hv
  have hvp : v ≤ p := by
    by_contra hlt
    exact hleast p hlo (by omega) (hp.free_of_mem (Nat.le_refl p) (by omega))
  by_contra hle
  exact hk (hp.free_of_mem (by omega) (by omega))

/-- The same for a fit at a free position, whatever the count. -/
theorem Fits.ge_of_used (hv : LeastFree free lo v) (hk : ¬ free k) (h₁ : k < v + n) (hp : free p)
    (hf : Fits free n p) (hlo : lo ≤ p) : k ≤ p := by
  have hvp : v ≤ p := by
    by_contra hlt
    exact hv.2.2 p hlo (by omega) hp
  by_contra hlt
  exact hk (hf.free_of_mem (by omega) (by omega))

/-- The restarting search from `lo`, with its result. -/
inductive Search (free : ℕ → Prop) (n N : ℕ) : ℕ → Option ℕ → Prop where
  | found {lo v : ℕ} : LeastFree free lo v → v < N → Fits free n v → Search free n N lo (some v)
  | restart {lo v k : ℕ} {r : Option ℕ} : LeastFree free lo v → v < N → k < v + n → ¬ free k →
      Search free n N k r → Search free n N lo r
  | done {lo : ℕ} : (∀ y, lo ≤ y → y < N → ¬ free y) → Search free n N lo none

/-- What the search ends with is the least free position that starts a fit. -/
theorem Search.least {r : Option ℕ} (h : Search free n N lo r) :
    r = some v → free v ∧ Fits free n v ∧ ∀ p, lo ≤ p → free p → Fits free n p → v ≤ p := by
  induction h with
  | found hv _ hf =>
      rintro ⟨⟩
      refine ⟨hv.2.1, hf, fun p hlo hfree _ => ?_⟩
      by_contra hlt
      exact hv.2.2 p hlo (by omega) hfree
  | restart hv _ hk hused _ ih =>
      intro hr
      obtain ⟨hfree, hf, hmin⟩ := ih hr
      exact ⟨hfree, hf, fun p hlo hp hfp => hmin p (hfp.ge_of_used hv hused hk hp hlo) hp hfp⟩
  | done _ => rintro ⟨⟩

/-- A search without a result leaves no fit at a free position. -/
theorem Search.none {r : Option ℕ} (h : Search free n N lo r) :
    r = .none → ∀ p, lo ≤ p → free p → Fits free n p → N ≤ p := by
  induction h with
  | found _ _ _ => rintro ⟨⟩
  | restart hv _ hk hused _ ih =>
      exact fun hr p hlo hfree hp => ih hr p (hp.ge_of_used hv hused hk hfree hlo) hfree hp
  | done hall =>
      intro _ p hlo hfree _
      by_contra hlt
      exact hall p hlo (by omega) hfree

end FirstFit

import FrazzOS.Support.Loops
import Mathlib.Data.Set.Insert
import Mathlib.Logic.Function.Basic

/-!
# Support — Paint

Functions on arrays that give the places of a set their values and leave the others as they are,
whatever was there before (`Paints`): loops over the pixels of a picture, the filling of a table.
The values are those of one function of the place, so a place may be painted more than once.

* `paints_update`, `paints_none`: one place, and none.
* `paints_countUp`: a loop of such functions.
-/

namespace Paint

open Function Loops

variable {A α : Type*} {R : Set A} {V : A → α}

/-- `f` gives the places in `R` the values of `V`, and leaves the others. -/
def Paints (f : (A → α) → A → α) (R : Set A) (V : A → α) : Prop :=
  ∀ m a, (a ∈ R → f m a = V a) ∧ (a ∉ R → f m a = m a)

theorem paints_none : Paints (fun m => m) ∅ V :=
  fun _ _ => ⟨fun h => absurd h (Set.notMem_empty _), fun _ => rfl⟩

theorem paints_update [DecidableEq A] {a : A} {v : α} (hv : V a = v) :
    Paints (fun m => update m a v) {a} V := by
  refine fun m b => ⟨fun hb => ?_, fun hb => update_of_ne hb ..⟩
  rw [Set.mem_singleton_iff.mp hb, hv]
  exact update_self ..

/-- **The rule for a loop**: it paints what its rounds paint. -/
theorem paints_countUp {body : Nat → (A → α) → A → α} {R : Nat → Set A} {lo n : Nat}
    (h : ∀ i, lo ≤ i → i < lo + n → Paints (body i) (R i) V) :
    Paints (countUp body lo n) {a | ∃ i, lo ≤ i ∧ i < lo + n ∧ a ∈ R i} V := by
  induction n generalizing lo with
  | zero =>
      refine fun m a => ⟨?_, fun _ => rfl⟩
      rintro ⟨i, hlo, hi, -⟩
      omega
  | succ n ih =>
      have hrest := @ih (lo + 1) fun i hlo hi => h i (by omega) (by omega)
      intro m a
      obtain ⟨hpaint, hleave⟩ := hrest (body lo m) a
      obtain ⟨hfirst, hother⟩ := h lo (Nat.le_refl lo) (by omega) m a
      rw [countUp]
      by_cases ha : ∃ i, lo + 1 ≤ i ∧ i < lo + 1 + n ∧ a ∈ R i
      · refine ⟨fun _ => hpaint ha, fun hno => absurd ?_ hno⟩
        obtain ⟨i, hlo, hi, hmem⟩ := ha
        exact ⟨i, by omega, by omega, hmem⟩
      · refine ⟨?_, fun hno => ?_⟩
        · rintro ⟨i, hlo, hi, hmem⟩
          rcases Nat.eq_or_lt_of_le hlo with rfl | hlt
          · rw [hleave ha, hfirst hmem]
          · exact absurd ⟨i, hlt, by omega, hmem⟩ ha
        · rw [hleave ha, hother fun hmem => hno ⟨lo, Nat.le_refl lo, by omega, hmem⟩]

end Paint

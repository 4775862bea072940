import Mathlib.Tactic.Common

/-!
# Support — Faults

Computations that fault or give a result, as values of `Option`.

* `Yields`: the computation does not fault, and its result has a property; `Yields.bind` puts two
  such computations in sequence.
* `yields_up`, `yields_down`: the invariant rules of a loop whose rounds may fault.
* `yields_simulation`: two such loops side by side.
* `map_bind_congr`, `map_foldlM_congr`: what decides a part of the state in every round decides it
  behind the loop, faults included.
-/

namespace Faults

universe u

variable {S T : Type u} {A : Type*} {P Q : S → Prop} {o : Option S} {s : S} {l : List A}

/-- The computation does not fault, and its result has the property `P`. -/
def Yields (P : S → Prop) (o : Option S) : Prop := ∃ s, o = some s ∧ P s

theorem yields_some (h : P s) : Yields P (some s) := ⟨s, rfl, h⟩

theorem Yields.mono (h : Yields P o) (himp : ∀ s, P s → Q s) : Yields Q o := by
  obtain ⟨s, hs, hp⟩ := h
  exact ⟨s, hs, himp s hp⟩

/-- One computation after the other. -/
theorem Yields.bind {P : S → Prop} {Q : T → Prop} {f : S → Option T} (h : Yields P o)
    (hf : ∀ s, P s → Yields Q (f s)) : Yields Q (o >>= f) := by
  obtain ⟨s, rfl, hp⟩ := h
  exact hf s hp

/-- `for (i = lo; i < lo + n; i++)`: `P i` holds before the round `i`. -/
theorem yields_up {f : S → Nat → Option S} {P : Nat → S → Prop} (lo n : Nat) (h₀ : P lo s)
    (hstep : ∀ i s, lo ≤ i → i < lo + n → P i s → Yields (P (i + 1)) (f s i)) :
    Yields (P (lo + n)) ((List.range' lo n).foldlM f s) := by
  induction n generalizing lo s with
  | zero => exact yields_some h₀
  | succ n ih =>
      rw [List.range'_succ, List.foldlM_cons, show lo + (n + 1) = lo + 1 + n by omega]
      refine (hstep lo s (Nat.le_refl lo) (by omega) h₀).bind fun s' hs' => ?_
      exact ih (lo + 1) hs' fun i s hlo hi => hstep i s (by omega) (by omega)

/-- `for (i = lo + n - 1; i >= lo; i--)`: `P (i + 1)` holds before the round `i`. -/
theorem yields_down {f : S → Nat → Option S} {P : Nat → S → Prop} (lo n : Nat) (h₀ : P (lo + n) s)
    (hstep : ∀ i s, lo ≤ i → i < lo + n → P (i + 1) s → Yields (P i) (f s i)) :
    Yields (P lo) ((List.range' lo n).reverse.foldlM f s) := by
  induction n generalizing s with
  | zero => exact yields_some h₀
  | succ n ih =>
      rw [List.range'_concat, List.reverse_append, List.reverse_singleton, List.singleton_append,
        List.foldlM_cons, Nat.one_mul]
      refine (hstep (lo + n) s (by omega) (by omega) h₀).bind fun s' hs' => ?_
      exact ih hs' fun i s hlo hi => hstep i s hlo (by omega)

/-- **The simulation rule**, for two loops over one list: neither of them faults, and what relates
their states before a round relates them behind it. -/
theorem yields_simulation {f : S → A → Option S} {g : T → A → Option T} {R : S → T → Prop} {t : T}
    (h₀ : R s t)
    (hstep : ∀ a ∈ l, ∀ s t, R s t → Yields (fun t' => Yields (R · t') (f s a)) (g t a)) :
    Yields (fun t' => Yields (R · t') (l.foldlM f s)) (l.foldlM g t) := by
  induction l generalizing s t with
  | nil => exact yields_some (yields_some h₀)
  | cons a l ih =>
      rw [List.foldlM_cons, List.foldlM_cons]
      obtain ⟨t₁, ht₁, s₁, hs₁, h₁⟩ := hstep a List.mem_cons_self s t h₀
      rw [ht₁, hs₁]
      exact ih h₁ fun b hb => hstep b (List.mem_cons_of_mem a hb)

section Part

variable {B C : Type*} {p : S → B} {q : T → C} {o' : Option S}

/-- A part of the first result decides a part of the second one. -/
theorem map_bind_congr {f g : S → Option T} (h : o.map p = o'.map p)
    (hf : ∀ s s', p s = p s' → (f s).map q = (g s').map q) :
    (o >>= f).map q = (o' >>= g).map q := by
  cases o with
  | none =>
      obtain rfl := Option.map_eq_none_iff.mp h.symm
      rfl
  | some s =>
      obtain ⟨s', rfl, hs'⟩ := Option.map_eq_some_iff.mp h.symm
      exact hf s s' hs'.symm

/-- **The rule for a part of the state.** -/
theorem map_foldlM_congr {f : S → A → Option S}
    (hf : ∀ a s s', p s = p s' → (f s a).map p = (f s' a).map p) (l : List A) {s' : S}
    (h : p s = p s') : (l.foldlM f s).map p = (l.foldlM f s').map p := by
  induction l generalizing s s' with
  | nil => exact congrArg some h
  | cons a l ih =>
      rw [List.foldlM_cons, List.foldlM_cons]
      exact map_bind_congr (hf a s s' h) fun _ _ => ih

end Part

end Faults

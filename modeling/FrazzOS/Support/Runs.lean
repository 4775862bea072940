import Mathlib.Tactic.Common

/-!
# Support — Runs

Runs of a labelled step relation.

* `Run.invariant`: what every step preserves holds at the end of a run.
* `Run.forall_of`, `Run.forall_iff`: conditions on every step (`Taken`) of a run.  Two that agree as
  long as the second was met so far are met by the same runs.
* `Run.restrict`: a condition that every step of a run meets, as part of the step.
-/

namespace Runs

variable {S A : Type*}

/-- A run of `Step`, with its labels in order. -/
inductive Run (Step : S → A → S → Prop) : S → List A → S → Prop where
  | nil (s : S) : Run Step s [] s
  | cons {s s₁ s' : S} {a : A} {as : List A} :
      Step s a s₁ → Run Step s₁ as s' → Run Step s (a :: as) s'

variable {Step : S → A → S → Prop} {s s₁ s' : S} {a : A} {as bs : List A}

theorem Run.one (h : Step s a s') : Run Step s [a] s' := .cons h (.nil _)

/-- **The invariant rule**: what every step preserves holds at the end of a run. -/
theorem Run.invariant {Inv : S → Prop} (hstep : ∀ {s a s'}, Inv s → Step s a s' → Inv s')
    (h : Run Step s as s') (h₀ : Inv s) : Inv s' := by
  induction h with
  | nil => exact h₀
  | cons hs _ ih => exact ih (hstep h₀ hs)

/-- One run after the other. -/
theorem Run.append (h : Run Step s as s₁) (h' : Run Step s₁ bs s') : Run Step s (as ++ bs) s' := by
  induction h with
  | nil => exact h'
  | cons hs _ ih => exact .cons hs (ih h')

/-- A step taken, with the states around it. -/
structure Taken (S A : Type*) where
  before : S
  event : A
  after : S

/-- The steps of `Step`, each labelled with itself. -/
def Recorded (Step : S → A → S → Prop) (s : S) (t : Taken S A) (s' : S) : Prop :=
  t.before = s ∧ t.after = s' ∧ Step s t.event s'

theorem recorded (h : Step s a s') : Recorded Step s ⟨s, a, s'⟩ s' := ⟨rfl, rfl, h⟩

/-- What holds of every step that meets `Q`, as long as the steps so far met it. -/
theorem Run.forall_of {Inv : S → Prop} {P Q : Taken S A → Prop} {ts : List (Taken S A)}
    (hstep : ∀ {s a s'}, Inv s → Q ⟨s, a, s'⟩ → Step s a s' → Inv s' ∧ P ⟨s, a, s'⟩)
    (h : Run (Recorded Step) s ts s') (h₀ : Inv s) (hq : ∀ t ∈ ts, Q t) : ∀ t ∈ ts, P t := by
  induction h with
  | nil => exact fun _ ht => absurd ht List.not_mem_nil
  | @cons s s₁ s' t ts hs _ ih =>
      obtain ⟨before, event, after⟩ := t
      obtain ⟨rfl, rfl, hs⟩ := hs
      rw [List.forall_mem_cons] at hq ⊢
      obtain ⟨hinv, hp⟩ := hstep h₀ hq.1 hs
      exact ⟨hp, ih hinv hq.2⟩

/-- **The rule for a condition on every step of a run**: where `Q` on a step keeps `Inv`, and `Inv`
before a step makes `P` and `Q` the same of it, a run meets `P` at every step just where it meets
`Q` at every step. -/
theorem Run.forall_iff {Inv : S → Prop} {P Q : Taken S A → Prop} {ts : List (Taken S A)}
    (hstep : ∀ {s a s'}, Inv s → Q ⟨s, a, s'⟩ → Step s a s' → Inv s')
    (hiff : ∀ {s a s'}, Inv s → Step s a s' → (P ⟨s, a, s'⟩ ↔ Q ⟨s, a, s'⟩))
    (h : Run (Recorded Step) s ts s') (h₀ : Inv s) : (∀ t ∈ ts, P t) ↔ ∀ t ∈ ts, Q t := by
  induction h with
  | nil => exact ⟨fun _ _ ht => absurd ht List.not_mem_nil, fun _ _ ht => absurd ht List.not_mem_nil⟩
  | @cons s s₁ s' t ts hs _ ih =>
      obtain ⟨before, event, after⟩ := t
      obtain ⟨rfl, rfl, hs⟩ := hs
      rw [List.forall_mem_cons, List.forall_mem_cons, hiff h₀ hs]
      exact and_congr_right fun hq => ih (hstep h₀ hq hs)

/-- A run whose steps all meet `R` is a run of the steps that do. -/
theorem Run.restrict {R : Taken S A → Prop} {ts : List (Taken S A)}
    (h : Run (Recorded Step) s ts s') (hr : ∀ t ∈ ts, R t) :
    Run (Recorded fun s a s' => Step s a s' ∧ R ⟨s, a, s'⟩) s ts s' := by
  induction h with
  | nil => exact .nil _
  | @cons s s₁ s' t ts hs _ ih =>
      obtain ⟨before, event, after⟩ := t
      obtain ⟨rfl, rfl, hs⟩ := hs
      rw [List.forall_mem_cons] at hr
      exact .cons ⟨rfl, rfl, hs, hr.1⟩ (ih hr.2)

/-- A step of a run, and the rest of the run behind it. -/
theorem Run.of_mem {ts : List (Taken S A)} {t : Taken S A} (h : Run (Recorded Step) s ts s')
    (ht : t ∈ ts) : Step t.before t.event t.after ∧
      ∃ ts₁ ts₂, ts = ts₁ ++ t :: ts₂ ∧ Run (Recorded Step) t.after ts₂ s' := by
  induction h with
  | nil => cases ht
  | @cons s s₁ s' t₀ ts hs hrest ih =>
      rcases List.mem_cons.mp ht with rfl | ht
      · obtain ⟨rfl, rfl, hs⟩ := hs
        exact ⟨hs, [], ts, rfl, hrest⟩
      · obtain ⟨hstep, ts₁, ts₂, rfl, hrun⟩ := ih ht
        exact ⟨hstep, t₀ :: ts₁, ts₂, rfl, hrun⟩

end Runs

import Mathlib.Data.Fintype.Card
import Mathlib.Logic.Function.Basic
import Mathlib.Tactic.Common

/-!
# Support — Overlay

An array whose writes wait in a queue.  For each index `map` has the place in the queue of the write
that waits for it, if one does; what a reader is to see there (`view`) is then the value in the
queue, and else the one in the array.

* `Coherent`: each write in the queue is the one that waits for its index.  `coherent_enqueue` and
  `coherent_amend` keep it, and change the view at one index (`view_enqueue`, `view_amend`).
* `Coherent.queueI_le`: so the queue is never longer than the array.
* `Draining`: the queue while it is emptied from the front; `settle` moves a waiting write into the
  array and leaves the view as it is (`view_settle`).
-/

/-- An array of `α` and its queue of writes, each with an index and a value. -/
structure Overlay (α β : Type*) where
  grid : Nat → α
  queue : Nat → β
  queueI : Nat
  map : Nat → Option Nat

namespace Overlay

open Function

variable {α β : Type*} {key : β → Nat} {val : β → α} {n i j k q : Nat} {item : β}
  {o : Overlay α β}

/-- What a reader is to see at the index `i`. -/
def view (val : β → α) (o : Overlay α β) (i : Nat) : α :=
  match o.map i with
  | some q => val (o.queue q)
  | none => o.grid i

/-- A write to the index `i` is put behind the queue. -/
def enqueue (i : Nat) (item : β) (o : Overlay α β) : Overlay α β :=
  { o with
    queue := update o.queue o.queueI item
    queueI := o.queueI + 1
    map := update o.map i (some o.queueI) }

/-- The write at the place `q` of the queue is replaced. -/
def amend (q : Nat) (item : β) (o : Overlay α β) : Overlay α β :=
  { o with queue := update o.queue q item }

/-- The write that waits for the index `i`, if one does, is made. -/
def settle (val : β → α) (i : Nat) (o : Overlay α β) : Overlay α β :=
  { o with grid := update o.grid i (o.view val i), map := update o.map i none }

/-- Each write in the queue waits for an index below `n`, and is the one that waits for it. -/
structure Coherent (key : β → Nat) (n : Nat) (o : Overlay α β) : Prop where
  mapped : ∀ q, q < o.queueI → o.map (key (o.queue q)) = some q
  queued : ∀ i q, o.map i = some q → q < o.queueI ∧ key (o.queue q) = i
  inside : ∀ q, q < o.queueI → key (o.queue q) < n

/-- The writes below the place `k` of the queue have been made, and each of the others waits or has
been made. -/
structure Draining (key : β → Nat) (k : Nat) (o : Overlay α β) : Prop where
  distinct : ∀ q q', q < o.queueI → q' < o.queueI → key (o.queue q) = key (o.queue q') → q = q'
  queued : ∀ i q, o.map i = some q → k ≤ q ∧ q < o.queueI ∧ key (o.queue q) = i

theorem view_of_some (h : o.map i = some q) : o.view val i = val (o.queue q) := by
  simp only [view, h]

theorem view_of_none (h : o.map i = none) : o.view val i = o.grid i := by
  simp only [view, h]

/-! ### The queue fits -/

/-- **The queue is never longer than the array**: no two of its writes have the same index. -/
theorem Coherent.queueI_le (h : Coherent key n o) : o.queueI ≤ n := by
  have hinj : Injective fun q : Fin o.queueI =>
      (⟨key (o.queue q), h.inside q q.isLt⟩ : Fin n) := by
    intro q q' heq
    have hkey : key (o.queue q) = key (o.queue q') := congrArg Fin.val heq
    have hq := h.mapped q q.isLt
    rw [hkey, h.mapped q' q'.isLt] at hq
    exact Fin.ext (Option.some.inj hq).symm
  simpa only [Fintype.card_fin] using Fintype.card_le_of_injective _ hinj

/-! ### A write -/

theorem coherent_enqueue (h : Coherent key n o) (hi : i < n) (hnone : o.map i = none)
    (hkey : key item = i) : Coherent key n (o.enqueue i item) := by
  have hother : ∀ q, q < o.queueI → key (o.queue q) ≠ i := by
    intro q hq heq
    have hmap := h.mapped q hq
    rw [heq, hnone] at hmap
    cases hmap
  refine ⟨fun q hq => ?_, fun j q hj => ?_, fun q hq => ?_⟩
  · rcases Nat.lt_succ_iff_lt_or_eq.mp hq with hlt | rfl
    · simp only [enqueue, update_of_ne (Nat.ne_of_lt hlt), update_of_ne (hother q hlt)]
      exact h.mapped q hlt
    · simp only [enqueue, update_self, hkey]
  · by_cases hji : j = i
    · subst hji
      simp only [enqueue, update_self, Option.some.injEq] at hj ⊢
      subst hj
      exact ⟨Nat.lt_succ_self _, by rw [update_self, hkey]⟩
    · simp only [enqueue, update_of_ne hji] at hj ⊢
      obtain ⟨hlt, hq⟩ := h.queued j q hj
      exact ⟨Nat.lt_succ_of_lt hlt, by rw [update_of_ne (Nat.ne_of_lt hlt), hq]⟩
  · rcases Nat.lt_succ_iff_lt_or_eq.mp hq with hlt | rfl
    · simp only [enqueue, update_of_ne (Nat.ne_of_lt hlt)]
      exact h.inside q hlt
    · simp only [enqueue, update_self, hkey]
      exact hi

/-- There is room for the write to an index that none waits for. -/
theorem Coherent.room (h : Coherent key n o) (hi : i < n) (hnone : o.map i = none)
    (hkey : key item = i) : o.queueI < n :=
  (coherent_enqueue h hi hnone hkey).queueI_le

theorem view_enqueue (h : Coherent key n o) :
    (o.enqueue i item).view val j = if j = i then val item else o.view val j := by
  by_cases hji : j = i
  · rw [if_pos hji, hji, view_of_some (q := o.queueI) (update_self ..)]
    exact congrArg val (update_self ..)
  · rw [if_neg hji]
    have hmap : (o.enqueue i item).map j = o.map j := update_of_ne hji ..
    cases hj : o.map j with
    | none => rw [view_of_none (hmap.trans hj), view_of_none hj]; rfl
    | some q =>
        have hlt := (h.queued j q hj).1
        rw [view_of_some (hmap.trans hj), view_of_some hj]
        exact congrArg val (update_of_ne (Nat.ne_of_lt hlt) ..)

theorem coherent_amend (h : Coherent key n o) (hkey : key item = key (o.queue q)) :
    Coherent key n (o.amend q item) := by
  have hsame : ∀ q', key ((o.amend q item).queue q') = key (o.queue q') := by
    intro q'
    by_cases hq : q' = q
    · rw [hq, ← hkey]
      exact congrArg key (update_self ..)
    · exact congrArg key (update_of_ne hq ..)
  refine ⟨fun q' hq' => ?_, fun j q' hj => ?_, fun q' hq' => ?_⟩
  · rw [hsame]
    exact h.mapped q' hq'
  · rw [hsame]
    exact h.queued j q' hj
  · rw [hsame]
    exact h.inside q' hq'

theorem view_amend (h : Coherent key n o) (hi : o.map i = some q) :
    (o.amend q item).view val j = if j = i then val item else o.view val j := by
  by_cases hji : j = i
  · rw [if_pos hji, hji, view_of_some (o := o.amend q item) hi]
    exact congrArg val (update_self ..)
  · rw [if_neg hji]
    cases hj : o.map j with
    | none => rw [view_of_none (o := o.amend q item) hj, view_of_none hj]; rfl
    | some q' =>
        -- the writes to two indices are at two places
        have hne : q' ≠ q := by
          rintro rfl
          exact hji ((h.queued j q' hj).2.symm.trans (h.queued i q' hi).2)
        rw [view_of_some (o := o.amend q item) hj, view_of_some hj]
        exact congrArg val (update_of_ne hne ..)

/-! ### Emptying the queue -/

theorem Coherent.draining (h : Coherent key n o) : Draining key 0 o := by
  refine ⟨fun q q' hq hq' heq => ?_, fun i q hi => ?_⟩
  · have hmap := h.mapped q hq
    rw [heq, h.mapped q' hq'] at hmap
    exact (Option.some.inj hmap).symm
  · exact ⟨Nat.zero_le q, h.queued i q hi⟩

/-- **Making a write leaves the view as it is.** -/
theorem view_settle : (o.settle val i).view val j = o.view val j := by
  by_cases hji : j = i
  · subst hji
    rw [view_of_none (o := o.settle val j) (update_self ..)]
    exact update_self ..
  · have hmap : (o.settle val i).map j = o.map j := update_of_ne hji ..
    cases hj : o.map j with
    | none =>
        rw [view_of_none (hmap.trans hj), view_of_none hj]
        exact update_of_ne hji ..
    | some q => rw [view_of_some (hmap.trans hj), view_of_some hj]; rfl

theorem Draining.settle (h : Draining key k o) (i : Nat) : Draining key k (o.settle val i) := by
  refine ⟨h.distinct, fun j q hj => ?_⟩
  by_cases hji : j = i
  · subst hji
    have hnone : (o.settle val j).map j = none := update_self ..
    rw [hnone] at hj
    cases hj
  · exact h.queued j q ((update_of_ne hji ..).symm.trans hj)

/-- A write that no longer waits has been made. -/
theorem Draining.skip (h : Draining key k o) (hnone : o.map (key (o.queue k)) = none) :
    Draining key (k + 1) o := by
  refine ⟨h.distinct, fun i q hi => ?_⟩
  obtain ⟨hle, hlt, hq⟩ := h.queued i q hi
  refine ⟨?_, hlt, hq⟩
  rcases Nat.eq_or_lt_of_le hle with rfl | hk
  · rw [hq, hi] at hnone
    cases hnone
  · exact hk

/-- A write that waits is the one the queue has for its index. -/
theorem Draining.map_key (h : Draining key k o) (hk : k < o.queueI)
    (hsome : o.map (key (o.queue k)) ≠ none) : o.map (key (o.queue k)) = some k := by
  obtain ⟨q, hq⟩ := Option.ne_none_iff_exists'.mp hsome
  obtain ⟨-, hlt, hkey⟩ := h.queued _ q hq
  rw [hq, h.distinct q k hlt hk hkey]

/-- **When the queue is empty** the array has what a reader is to see. -/
theorem Draining.view_eq (h : Draining key o.queueI o) (i : Nat) :
    o.map i = none ∧ o.view val i = o.grid i := by
  have hnone : o.map i = none := by
    cases hi : o.map i with
    | none => rfl
    | some q =>
        have := h.queued i q hi
        omega
  exact ⟨hnone, view_of_none hnone⟩

/-- An empty queue. -/
theorem coherent_empty (h₀ : o.queueI = 0) (hmap : ∀ i, o.map i = none) : Coherent key n o := by
  refine ⟨fun q hq => by omega, fun i q hi => ?_, fun q hq => by omega⟩
  rw [hmap i] at hi
  cases hi

end Overlay

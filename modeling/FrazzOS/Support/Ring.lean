import Mathlib.Data.List.Chain
import Mathlib.Data.List.Iterate
import Mathlib.Data.List.Nodup
import Mathlib.Data.List.Perm.Subperm

/-!
# Support — Ring

Circular singly linked lists, as a function `next` on nodes.

* `Ring next a l`: following `next` from `a` passes the nodes of `l` in order and comes back to
  `a`.
* `Ring.congr`: only the links of its own nodes matter; `Ring.rotate`: the same ring from its
  second node on; `Ring.insert`: a node linked in behind the head.
* `Ring.iterate`, `Ring.iterate_mem`: what iterating `next` from `a` passes.
-/

namespace Rings

variable {α : Type*} {next next' : α → α} {a b t x : α} {l : List α}

/-- Following `next` from `a` passes the nodes of `l` in order and comes back to `a`. -/
def Ring (next : α → α) (a : α) (l : List α) : Prop :=
  List.IsChain (fun x y => next x = y) (a :: l ++ [a])

/-- A path reads only the links of the nodes before its end. -/
theorem isChain_congr (hl : ∀ x ∈ a :: l, next' x = next x)
    (h : List.IsChain (fun x y => next x = y) (a :: l ++ [b])) :
    List.IsChain (fun x y => next' x = y) (a :: l ++ [b]) := by
  induction l generalizing a with
  | nil =>
      simp only [List.cons_append, List.nil_append, List.isChain_cons_cons] at h ⊢
      exact ⟨(hl a List.mem_cons_self).trans h.1, List.isChain_singleton _⟩
  | cons c l ih =>
      simp only [List.cons_append, List.isChain_cons_cons] at h ⊢
      exact ⟨(hl a List.mem_cons_self).trans h.1,
        ih (fun x hx => hl x (List.mem_cons_of_mem _ hx)) h.2⟩

theorem Ring.congr (h : Ring next a l) (hl : ∀ x ∈ a :: l, next' x = next x) : Ring next' a l :=
  isChain_congr hl h

/-- The link of the head. -/
theorem Ring.head_cons (h : Ring next a (b :: l)) : next a = b :=
  (List.isChain_cons_cons.mp h).1

theorem Ring.head_nil (h : Ring next a []) : next a = a :=
  (List.isChain_cons_cons.mp h).1

theorem ring_self (h : next a = a) : Ring next a [] :=
  List.isChain_cons_cons.mpr ⟨h, List.isChain_singleton _⟩

/-- The same ring, from its second node on. -/
theorem Ring.rotate (h : Ring next a (b :: l)) : Ring next b (l ++ [a]) := by
  have hhead := h.head_cons
  have htail : List.IsChain (fun x y => next x = y) (b :: l ++ [a]) :=
    (List.isChain_cons_cons.mp h).2
  refine List.isChain_append.mpr ⟨htail, List.isChain_singleton _, fun x hx y hy => ?_⟩
  rw [← List.cons_append, List.getLast?_concat, Option.mem_some_iff] at hx
  rw [List.head?_cons, Option.mem_some_iff] at hy
  rw [← hx, ← hy, hhead]

/-- The second node of a ring, or the head of a ring of one node. -/
def second (a : α) : List α → α
  | [] => a
  | b :: _ => b

/-- The nodes behind it. -/
def turned (a : α) : List α → List α
  | [] => []
  | _ :: l => l ++ [a]

theorem turned_perm (a : α) (l : List α) : (second a l :: turned a l).Perm (a :: l) := by
  cases l with
  | nil => exact .refl _
  | cons b l => exact (List.perm_append_singleton a (b :: l))

theorem Ring.next_head (h : Ring next a l) : next a = second a l := by
  cases l with
  | nil => exact h.head_nil
  | cons b l => exact h.head_cons

/-- The same ring, one node on. -/
theorem Ring.turn (h : Ring next a l) : Ring next (second a l) (turned a l) := by
  cases l with
  | nil => exact h
  | cons b l => exact h.rotate

/-- **Insertion behind the head**: `a` is linked to the new node `t`, and `t` to what followed
`a`. -/
theorem Ring.insert (h : Ring next a l) (ha : a ∉ l) (ht : t ∉ l)
    (h₀ : next' a = t) (h₁ : next' t = next a)
    (hl : ∀ x, x ≠ a → x ≠ t → next' x = next x) : Ring next' a (t :: l) := by
  refine List.isChain_cons_cons.mpr ⟨h₀, ?_⟩
  cases l with
  | nil =>
      rw [h.head_nil] at h₁
      exact List.isChain_cons_cons.mpr ⟨h₁, List.isChain_singleton _⟩
  | cons b l =>
      refine List.isChain_cons_cons.mpr ⟨h₁.trans h.head_cons, ?_⟩
      refine isChain_congr (fun x hx => hl x ?_ ?_) (List.isChain_cons_cons.mp h).2
      · rintro rfl; exact ha hx
      · rintro rfl; exact ht hx

/-- A path, by iterating `next`. -/
theorem iterate_of_isChain (h : List.IsChain (fun x y => next x = y) (a :: l ++ [b])) :
    List.iterate next a (l.length + 1) = a :: l ∧ next^[l.length + 1] a = b := by
  induction l generalizing a with
  | nil => exact ⟨rfl, (List.isChain_cons_cons.mp h).1⟩
  | cons c l ih =>
      obtain ⟨hc, h⟩ := List.isChain_cons_cons.mp h
      obtain ⟨h₀, h₁⟩ := ih h
      refine ⟨?_, ?_⟩
      · rw [List.length_cons, List.iterate, hc, h₀]
      · rw [List.length_cons, Function.iterate_succ_apply, hc, h₁]

/-- **The nodes of a ring** are those that iterating `next` passes before it is back. -/
theorem Ring.iterate (h : Ring next a l) :
    List.iterate next a (l.length + 1) = a :: l ∧ next^[l.length + 1] a = a :=
  iterate_of_isChain h

/-- A path leads on from each of its nodes. -/
theorem next_mem_of_isChain (h : List.IsChain (fun x y => next x = y) (a :: l ++ [b]))
    (ht : t ∈ a :: l) : next t ∈ l ++ [b] := by
  induction l generalizing a with
  | nil =>
      obtain rfl := List.mem_singleton.mp ht
      exact List.mem_singleton.mpr (List.isChain_cons_cons.mp h).1
  | cons c l ih =>
      obtain ⟨hc, h⟩ := List.isChain_cons_cons.mp h
      rcases List.mem_cons.mp ht with rfl | ht
      · rw [hc]
        exact List.mem_cons_self
      · exact List.mem_cons_of_mem _ (ih h ht)

/-- Iterating `next` stays on the ring. -/
theorem Ring.iterate_mem (h : Ring next a l) (k : Nat) : next^[k] a ∈ a :: l := by
  induction k with
  | zero => exact List.mem_cons_self
  | succ k ih =>
      rw [Function.iterate_succ_apply']
      rcases List.mem_append.mp (next_mem_of_isChain h ih) with hl | ha
      · exact List.mem_cons_of_mem _ hl
      · rw [List.mem_singleton.mp ha]
        exact List.mem_cons_self

/-- A list of distinct addresses is no longer than there are addresses. -/
theorem length_le_of_nodup {w : Nat} {l : List (BitVec w)} (h : l.Nodup) : l.length ≤ 2 ^ w := by
  have hmap : (l.map BitVec.toNat).Nodup := List.Nodup.map (fun _ _ => BitVec.eq_of_toNat_eq) h
  have hsub : l.map BitVec.toNat ⊆ List.range (2 ^ w) := by
    intro n hn
    obtain ⟨x, -, rfl⟩ := List.mem_map.mp hn
    exact List.mem_range.mpr x.isLt
  have := (List.subperm_of_subset hmap hsub).length_le
  rwa [List.length_map, List.length_range] at this

end Rings

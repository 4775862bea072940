import Mathlib.Data.List.GetD
import Mathlib.Data.Set.Lattice
import Mathlib.Logic.Function.Basic
import Mathlib.Order.CompletePartialOrder
import Mathlib.Tactic.Common

/-!
# Support — Memory

A byte-addressed memory of 64-bit addresses, with little-endian 64-bit words.

* `read_write`: a word written is read back.
* `read_write_apart`: a write leaves every word that shares no byte with it.
* `toNat_add_ofNat`: an address a distance behind another, where that does not wrap.
* `withBytes_over`, `withBytes_behind`, `withBytes_front`: two runs of bytes that make one.
-/

namespace Memory

/-- A byte at each address. -/
abbrev Mem := BitVec 64 → BitVec 8

/-- The word at `a`: its bit `k` is bit `k % 8` of the byte at `a + k / 8`. -/
def read (m : Mem) (a : BitVec 64) : BitVec 64 :=
  (BitVec.iunfoldr (fun (k : Fin 64) (_ : Unit) =>
    ((), (m (a + BitVec.ofNat 64 (k.val / 8))).getLsbD (k.val % 8))) ()).2

/-- `v` written at `a`. -/
def write (m : Mem) (a v : BitVec 64) : Mem := fun x =>
  if (x - a).toNat < 8 then (v >>> (8 * (x - a).toNat)).setWidth 8 else m x

/-- The 32-bit word at `a`. -/
def read32 (m : Mem) (a : BitVec 64) : BitVec 32 := m (a + 3) ++ m (a + 2) ++ m (a + 1) ++ m a

/-- A run of bytes put at `a`. -/
def withBytes (m : Mem) (a : BitVec 64) (bytes : List (BitVec 8)) : Mem := fun x =>
  if (x - a).toNat < bytes.length then bytes.getD (x - a).toNat 0 else m x

/-- The words at `a` and `b` have no byte in common. -/
def Apart (a b : BitVec 64) : Prop := 8 ≤ (a - b).toNat ∧ 8 ≤ (b - a).toNat

variable {m m' : Mem} {a b v : BitVec 64}

theorem Apart.symm (h : Apart a b) : Apart b a := ⟨h.2, h.1⟩

theorem getLsbD_read (m : Mem) (a : BitVec 64) (k : Fin 64) :
    (read m a).getLsbD k = (m (a + BitVec.ofNat 64 (k.val / 8))).getLsbD (k.val % 8) := by
  rw [read, BitVec.iunfoldr_getLsbD (fun _ => ()) k (fun _ => rfl)]

/-- Memories that agree on the bytes of a word agree on the word. -/
theorem read_congr (h : ∀ i, i < 8 → m (a + BitVec.ofNat 64 i) = m' (a + BitVec.ofNat 64 i)) :
    read m a = read m' a := by
  apply BitVec.eq_of_getLsbD_eq
  intro k hk
  rw [getLsbD_read m a ⟨k, hk⟩, getLsbD_read m' a ⟨k, hk⟩, h _ (by omega)]

@[simp] theorem read_zero (a : BitVec 64) : read (fun _ => 0) a = 0 := by
  apply BitVec.eq_of_getLsbD_eq
  intro k hk
  rw [getLsbD_read _ a ⟨k, hk⟩]
  simp

theorem toNat_sub_add (a : BitVec 64) {i : Nat} (hi : i < 18446744073709551616) :
    (a + BitVec.ofNat 64 i - a).toNat = i := by
  rw [BitVec.add_comm, BitVec.add_sub_cancel, BitVec.toNat_ofNat]
  omega

/-- The address at an offset. -/
theorem eq_add_of_toNat_sub {x : BitVec 64} {i : Nat} (h : (x - a).toNat = i) :
    x = a + BitVec.ofNat 64 i := by
  rw [← h, BitVec.ofNat_toNat, BitVec.setWidth_eq, BitVec.add_comm, BitVec.sub_add_cancel]

theorem add_ofNat_sub (a : BitVec 64) {i n : Nat} (h : i ≤ n) :
    a + BitVec.ofNat 64 n - BitVec.ofNat 64 i = a + BitVec.ofNat 64 (n - i) := by
  have hsum : BitVec.ofNat 64 n = BitVec.ofNat 64 (n - i) + BitVec.ofNat 64 i := by
    rw [← BitVec.ofNat_add, Nat.sub_add_cancel h]
  rw [hsum, ← BitVec.add_assoc, BitVec.add_sub_cancel]

/-- An address a distance behind another. -/
theorem toNat_add_ofNat {i : Nat} (h : a.toNat + i < 18446744073709551616) :
    (a + BitVec.ofNat 64 i).toNat = a.toNat + i := by
  rw [BitVec.toNat_add, BitVec.toNat_ofNat]
  omega

theorem write_of_le {x : BitVec 64} (h : 8 ≤ (x - a).toNat) : write m a v x = m x :=
  if_neg (by omega)

/-- **A word written is read back.** -/
@[simp] theorem read_write (m : Mem) (a v : BitVec 64) : read (write m a v) a = v := by
  apply BitVec.eq_of_getLsbD_eq
  intro k hk
  have hoff : (a + BitVec.ofNat 64 (k / 8) - a).toNat = k / 8 := toNat_sub_add a (by omega)
  rw [getLsbD_read _ a ⟨k, hk⟩]
  simp only [write, hoff]
  rw [if_pos (by omega), BitVec.getLsbD_setWidth, BitVec.getLsbD_ushiftRight, Nat.div_add_mod]
  have : k % 8 < 8 := by omega
  simp [this]

/-- **A write leaves the words apart from it.** -/
theorem read_write_apart (h : Apart a b) (v : BitVec 64) : read (write m b v) a = read m a := by
  refine read_congr fun i hi => write_of_le ?_
  obtain ⟨h₀, h₁⟩ := h
  have he : a + BitVec.ofNat 64 i - b = (a - b) + BitVec.ofNat 64 i := by
    rw [BitVec.sub_eq_add_neg, BitVec.sub_eq_add_neg, BitVec.add_assoc, BitVec.add_assoc,
      BitVec.add_comm (-b)]
  have hneg : (a - b).toNat + (b - a).toNat = 18446744073709551616 := by
    rw [BitVec.toNat_sub] at h₀ h₁ ⊢
    rw [BitVec.toNat_sub]
    omega
  rw [he, BitVec.toNat_add, BitVec.toNat_ofNat]
  omega

/-- Words whose addresses are 8 bytes or more apart, with no wrap behind either. -/
theorem apart_of_toNat (ha : a.toNat + 8 ≤ 18446744073709551616)
    (hb : b.toNat + 8 ≤ 18446744073709551616)
    (h : a.toNat + 8 ≤ b.toNat ∨ b.toNat + 8 ≤ a.toNat) : Apart a b := by
  constructor <;> rw [BitVec.toNat_sub] <;> omega

/-! ### Spans of bytes -/

/-- The `n` bytes from `a` on. -/
def span (a : BitVec 64) (n : Nat) : Set (BitVec 64) := {x | (x - a).toNat < n}

theorem mem_span {x : BitVec 64} {n : Nat} : x ∈ span a n ↔ (x - a).toNat < n := Iff.rfl

theorem span_mono {n k : Nat} (h : n ≤ k) : span a n ⊆ span a k :=
  fun _ hx => Nat.lt_of_lt_of_le hx h

theorem mem_span_succ {x : BitVec 64} {n : Nat} (hn : n < 18446744073709551616) :
    x ∈ span a (n + 1) ↔ x ∈ span a n ∨ x = a + BitVec.ofNat 64 n := by
  rw [mem_span, mem_span]
  constructor
  · intro hx
    rcases Nat.lt_or_eq_of_le (Nat.lt_succ_iff.mp hx) with hlt | heq
    · exact Or.inl hlt
    · exact Or.inr (eq_add_of_toNat_sub heq)
  · rintro (hx | rfl)
    · omega
    · rw [toNat_sub_add a hn]
      exact Nat.lt_succ_self n

/-- The byte behind a span. -/
theorem notMem_span_behind (a : BitVec 64) {n : Nat} (hn : n < 18446744073709551616) :
    a + BitVec.ofNat 64 n ∉ span a n := by
  rw [mem_span, toNat_sub_add a hn]
  exact Nat.lt_irrefl n

/-- A span at an offset from a base, in offsets from the base. -/
theorem mem_span_offset {x : BitVec 64} {k n : Nat} (hk : k < 18446744073709551616)
    (h : k + n ≤ 18446744073709551616) :
    x ∈ span (a + BitVec.ofNat 64 k) n ↔ k ≤ (x - a).toNat ∧ (x - a).toNat < k + n := by
  rw [mem_span, ← BitVec.sub_sub]
  generalize x - a = y
  rw [BitVec.toNat_sub, BitVec.toNat_ofNat, Nat.mod_eq_of_lt hk]
  have := y.isLt
  omega

/-- Two spans, one behind the other. -/
theorem disjoint_span {n k : Nat} (h : a.toNat + n ≤ b.toNat)
    (hb : b.toNat + k ≤ 18446744073709551616) : Disjoint (span a n) (span b k) := by
  rw [Set.disjoint_left]
  intro x hx hx'
  rw [mem_span, BitVec.toNat_sub] at hx hx'
  have := x.isLt
  omega

/-- A write changes its own eight bytes only. -/
theorem write_of_notMem {x : BitVec 64} (h : x ∉ span a 8) : write m a v x = m x :=
  if_neg h

/-- A write leaves the words that share no byte with its own. -/
theorem read_write_disjoint (h : Disjoint (span a 8) (span b 8)) (v : BitVec 64) :
    read (write m b v) a = read m a := by
  refine read_congr fun i hi => write_of_notMem (Set.disjoint_left.mp h ?_)
  rw [mem_span, toNat_sub_add a (by omega)]
  exact hi

/-! ### Runs of bytes -/

section Runs

variable {bytes front mid back new : List (BitVec 8)} {i : Nat}

@[simp] theorem withBytes_nil (m : Mem) (a : BitVec 64) : withBytes m a [] = m := by
  funext x
  exact if_neg (Nat.not_lt_zero _)

theorem withBytes_at (hi : i < bytes.length) (hlen : bytes.length ≤ 18446744073709551616) :
    withBytes m a bytes (a + BitVec.ofNat 64 i) = bytes.getD i 0 := by
  rw [withBytes, toNat_sub_add a (by omega), if_pos hi]

theorem withBytes_of_notMem {x : BitVec 64} (h : x ∉ span a bytes.length) :
    withBytes m a bytes x = m x := if_neg h

/-- A byte, by its offset from a place in front of the run. -/
theorem withBytes_offset {k : Nat} (h : k + bytes.length < 18446744073709551616) (x : BitVec 64) :
    withBytes m (a + BitVec.ofNat 64 k) bytes x =
      if k ≤ (x - a).toNat ∧ (x - a).toNat < k + bytes.length then
        bytes.getD ((x - a).toNat - k) 0
      else m x := by
  have hmem := mem_span_offset (a := a) (x := x) (show k < 18446744073709551616 by omega)
    (Nat.le_of_lt h)
  rw [mem_span] at hmem
  by_cases hx : k ≤ (x - a).toNat ∧ (x - a).toNat < k + bytes.length
  · have hoff : (x - (a + BitVec.ofNat 64 k)).toNat = (x - a).toNat - k := by
      rw [← BitVec.sub_sub, BitVec.toNat_sub, BitVec.toNat_ofNat]
      omega
    rw [if_pos hx, withBytes, if_pos (hmem.mpr hx), hoff]
  · rw [if_neg hx, withBytes, if_neg (fun h => hx (hmem.mp h))]

/-- A run put over a part of another one. -/
theorem withBytes_over (h : mid.length = new.length)
    (hlen : (front ++ mid ++ back).length < 18446744073709551616) :
    withBytes (withBytes m a (front ++ mid ++ back)) (a + BitVec.ofNat 64 front.length) new =
      withBytes m a (front ++ new ++ back) := by
  funext x
  simp only [List.length_append] at hlen
  rw [withBytes_offset (by omega), withBytes, withBytes]
  generalize (x - a).toNat = i
  simp only [List.getD_eq_getElem?_getD, List.getElem?_append, List.length_append]
  grind

/-- A run put behind another one. -/
theorem withBytes_behind (hlen : (bytes ++ new).length < 18446744073709551616) :
    withBytes (withBytes m a bytes) (a + BitVec.ofNat 64 bytes.length) new =
      withBytes m a (bytes ++ new) := by
  funext x
  rw [List.length_append] at hlen
  rw [withBytes_offset hlen, withBytes, withBytes]
  generalize (x - a).toNat = i
  simp only [List.getD_eq_getElem?_getD, List.getElem?_append, List.length_append]
  grind

/-- A run put in front of another one. -/
theorem withBytes_front (hlen : (bytes ++ new).length < 18446744073709551616) :
    withBytes (withBytes m (a + BitVec.ofNat 64 bytes.length) new) a bytes =
      withBytes m a (bytes ++ new) := by
  funext x
  rw [List.length_append] at hlen
  rw [withBytes, withBytes_offset hlen, withBytes]
  generalize (x - a).toNat = i
  simp only [List.getD_eq_getElem?_getD, List.getElem?_append, List.length_append]
  grind

theorem update_eq_withBytes (m : Mem) (a : BitVec 64) (v : BitVec 8) :
    Function.update m a v = withBytes m a [v] := by
  funext x
  by_cases hx : x = a
  · rw [hx, Function.update_self, withBytes, BitVec.sub_self]
    rfl
  · have hne : ¬ (x - a).toNat < 1 := by
      intro hlt
      have hzero := eq_add_of_toNat_sub (Nat.lt_one_iff.mp hlt)
      rw [BitVec.add_zero] at hzero
      exact hx hzero
    rw [Function.update_of_ne hx, withBytes]
    exact (if_neg hne).symm

end Runs

end Memory

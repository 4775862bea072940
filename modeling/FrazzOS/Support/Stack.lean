import FrazzOS.Support.Memory

/-!
# Support — Stack

Words on a stack in memory that grows downwards.

* `Holds m a ws`: the words `ws` lie in `m` from `a` upwards.
* `Holds.congr`: only the bytes of the words matter; `Holds.push`: a word pushed below them.
* `pushWords m a ws`: `ws` pushed one after the other at `a`, the last one lowest.
-/

namespace Memory

/-- The words `ws` lie in memory from `a` upwards. -/
def Holds (m : Mem) : BitVec 64 → List (BitVec 64) → Prop
  | _, [] => True
  | a, w :: ws => read m a = w ∧ Holds m (a + 8) ws

variable {m m' : Mem} {a w : BitVec 64} {ws : List (BitVec 64)}

theorem toNat_add_eight_le (y : BitVec 64) : (y + 8).toNat ≤ y.toNat + 8 := by
  rw [BitVec.toNat_add]
  exact Nat.mod_le _ _

theorem sub_add_sub (x a d : BitVec 64) : x - (a - d) = x - a + d := by
  bv_omega

theorem sub_eq_sub_add (x a d : BitVec 64) : x - a = x - (a + d) + d := by
  rw [← BitVec.sub_sub, BitVec.sub_add_cancel]

/-- Memories that agree on the bytes of the words. -/
theorem Holds.congr (h : Holds m a ws)
    (hm : ∀ x, (x - a).toNat < 8 * ws.length → m' x = m x) : Holds m' a ws := by
  induction ws generalizing a with
  | nil => trivial
  | cons w ws ih =>
      simp only [List.length_cons] at hm
      refine ⟨?_, ih h.2 fun x hx => hm x ?_⟩
      · rw [← h.1]
        refine read_congr fun i hi => hm _ ?_
        rw [toNat_sub_add a (by omega)]; omega
      · have := toNat_add_eight_le (x - (a + 8))
        rw [sub_eq_sub_add x a 8]; omega

/-- **A word pushed below the words on the stack.** -/
theorem Holds.push (h : Holds m a ws) (hlen : 8 * ws.length + 8 ≤ 18446744073709551616)
    (w : BitVec 64) : Holds (write m (a - 8) w) (a - 8) (w :: ws) := by
  refine ⟨read_write m _ w, ?_⟩
  rw [BitVec.sub_add_cancel]
  refine h.congr fun x hx => write_of_le ?_
  rw [sub_add_sub, BitVec.toNat_add, show (8 : BitVec 64).toNat = 8 from rfl]
  omega

/-- Zero bytes below the words on a stack. -/
theorem Holds.zeros {n : Nat} (hlen : 8 * n < 18446744073709551616)
    (hz : ∀ x, (x - a).toNat < 8 * n → m x = 0)
    (h : Holds m (a + BitVec.ofNat 64 (8 * n)) ws) : Holds m a (List.replicate n 0 ++ ws) := by
  induction n generalizing a with
  | zero => simpa using h
  | succ n ih =>
      refine ⟨?_, ih (by omega) (fun x hx => hz x ?_) ?_⟩
      · rw [← read_zero a]
        refine read_congr fun i hi => hz _ ?_
        rw [toNat_sub_add a (by omega)]; omega
      · have := toNat_add_eight_le (x - (a + 8))
        rw [sub_eq_sub_add x a 8]; omega
      · rw [Nat.mul_succ, Nat.add_comm, BitVec.ofNat_add, ← BitVec.add_assoc] at h
        exact h

/-- Memory holds the words read from it. -/
theorem holds_reads (m : Mem) (n : Nat) : ∀ a : BitVec 64,
    Holds m a ((List.range n).map fun i => read m (a + BitVec.ofNat 64 (8 * i))) := by
  induction n with
  | zero => exact fun _ => trivial
  | succ n ih =>
      intro a
      have hstep : ((fun i => read m (a + BitVec.ofNat 64 (8 * i))) ∘ Nat.succ) =
          fun i => read m (a + 8 + BitVec.ofNat 64 (8 * i)) := by
        funext i
        rw [Function.comp_apply, Nat.mul_succ, Nat.add_comm, BitVec.ofNat_add, ← BitVec.add_assoc]
        rfl
      rw [List.range_succ_eq_map, List.map_cons, List.map_map, hstep]
      exact ⟨by simp, ih (a + 8)⟩

/-- `ws` pushed one after the other below `a`. -/
def pushWords (m : Mem) (a : BitVec 64) : List (BitVec 64) → Mem
  | [] => m
  | w :: ws => pushWords (write m (a - 8) w) (a - 8) ws

/-- **What pushing leaves on the stack**: the words, the last one lowest, below those that were
there. -/
theorem Holds.pushWords {vs : List (BitVec 64)} (h : Holds m a vs) (ws : List (BitVec 64))
    (hlen : 8 * (ws.length + vs.length) ≤ 18446744073709551616) :
    Holds (pushWords m a ws) (a - BitVec.ofNat 64 (8 * ws.length)) (ws.reverse ++ vs) := by
  induction ws generalizing m a vs with
  | nil => simpa [Memory.pushWords] using h
  | cons w ws ih =>
      simp only [List.length_cons] at hlen ⊢
      have := ih (h.push (by omega) w) (by simp only [List.length_cons]; omega)
      rw [BitVec.sub_sub] at this
      rw [List.reverse_cons, List.append_assoc, Nat.mul_succ, Nat.add_comm, BitVec.ofNat_add]
      exact this

/-- Pushing changes only the bytes of the words pushed. -/
theorem pushWords_of_le {x : BitVec 64} (hlen : 8 * ws.length ≤ 18446744073709551616)
    (hx : 8 * ws.length ≤ (x - (a - BitVec.ofNat 64 (8 * ws.length))).toNat) :
    pushWords m a ws x = m x := by
  induction ws generalizing m a with
  | nil => rfl
  | cons w ws ih =>
      simp only [List.length_cons] at hlen hx
      have he : a - BitVec.ofNat 64 (8 * (ws.length + 1)) =
          a - 8 - BitVec.ofNat 64 (8 * ws.length) := by
        rw [BitVec.sub_sub, Nat.mul_succ, Nat.add_comm, BitVec.ofNat_add]
        rfl
      rw [he] at hx
      rw [Memory.pushWords, ih (by omega) (by omega)]
      refine write_of_le ?_
      rw [sub_add_sub, BitVec.toNat_add, BitVec.toNat_ofNat] at hx
      omega

end Memory

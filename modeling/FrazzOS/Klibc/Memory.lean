import FrazzOS.Support.Loops
import FrazzOS.Support.Memory
import Mathlib.Tactic.Common

/-!
# Klibc — Memory

`memcpy`, `memmove` and `memset` of `klibc/memory.c`: loops that go byte by byte, upwards or
downwards.

`moved dest src lo hi m` is `m` after the bytes `lo`, …, `hi - 1` from `src` on went to `dest` all
at once.  A loop keeps to it as long as the byte it copies next is not among those it has written
(`copyByte_up`, `copyByte_down`).

* `memmove_eq`: `memmove` is `moved`, whatever the overlap of the two ranges.
* `memcpy_eq`: so is `memcpy`, where the destination does not start inside the source.
* `filled_memset`: `memset` fills its bytes, and writes no other ones.
-/

namespace FrazzOS.Klibc

open Memory Loops

/-- `pdest[i] = psrc[i]`. -/
def copyByte (dest src : BitVec 64) (i : Nat) (m : Mem) : Mem :=
  Function.update m (dest + BitVec.ofNat 64 i) (m (src + BitVec.ofNat 64 i))

/-- `memcpy`: the pointer it returns, and the memory after it. -/
def memcpy (dest src n : BitVec 64) (m : Mem) : BitVec 64 × Mem :=
  (dest, countUp (copyByte dest src) 0 n.toNat m)

/-- `memmove`: the pointer it returns, and the memory after it. -/
def memmove (dest src n : BitVec 64) (m : Mem) : BitVec 64 × Mem :=
  if dest < src then
    (dest, countUp (copyByte dest src) 0 n.toNat m)
  else if src < dest then
    (dest, countDown (fun i => copyByte dest src (i - 1)) n.toNat m)
  else
    (dest, m)

/-- A memory, and the addresses stored to, the last one first. -/
structure Stored where
  mem : Mem
  stores : List (BitVec 64)

/-- `*a = v`. -/
def Stored.put (s : Stored) (a : BitVec 64) (v : BitVec 8) : Stored :=
  ⟨Function.update s.mem a v, a :: s.stores⟩

/-- `memset`: the pointer it returns, the memory after it and where it stored. -/
def memset (s : BitVec 64) (c : BitVec 32) (n : BitVec 64) (m : Stored) : BitVec 64 × Stored :=
  (s, countUp (fun i m => m.put (s + BitVec.ofNat 64 i) (c.setWidth 8)) 0 n.toNat m)

/-- The bytes `lo`, …, `hi - 1` from `src` on, all at once at `dest`. -/
def moved (dest src : BitVec 64) (lo hi : Nat) (m : Mem) : Mem := fun x =>
  if lo ≤ (x - dest).toNat ∧ (x - dest).toNat < hi then m (src + (x - dest)) else m x

variable {dest src n x : BitVec 64} {lo hi i : Nat} {m : Mem}

theorem moved_of_mem (h : lo ≤ (x - dest).toNat ∧ (x - dest).toNat < hi) :
    moved dest src lo hi m x = m (src + (x - dest)) := if_pos h

theorem moved_of_notMem (h : ¬ (lo ≤ (x - dest).toNat ∧ (x - dest).toNat < hi)) :
    moved dest src lo hi m x = m x := if_neg h

@[simp] theorem moved_empty : moved dest src lo lo m = m := by
  funext x
  exact moved_of_notMem (by omega)

@[simp] theorem moved_self : moved dest dest lo hi m = m := by
  funext x
  rw [moved, BitVec.add_comm, BitVec.sub_add_cancel, ite_self]

/-- One more byte, where the byte copied is as it was before. -/
theorem copyByte_apply (hi : i < 18446744073709551616) {m' : Mem}
    (h : m' (src + BitVec.ofNat 64 i) = m (src + BitVec.ofNat 64 i)) (x : BitVec 64) :
    copyByte dest src i m' x = if (x - dest).toNat = i then m (src + (x - dest)) else m' x := by
  rw [copyByte, Function.update_apply, h]
  by_cases hx : x = dest + BitVec.ofNat 64 i
  · subst hx
    rw [if_pos rfl, if_pos (toNat_sub_add dest hi), BitVec.add_comm dest, BitVec.add_sub_cancel]
  · rw [if_neg hx, if_neg fun he => hx (eq_add_of_toNat_sub he)]

/-- **A round upwards**: the next byte of the source is not one of the `i` bytes written. -/
theorem copyByte_up (hlt : i < 18446744073709551616)
    (h : i ≤ (src + BitVec.ofNat 64 i - dest).toNat) :
    copyByte dest src i (moved dest src 0 i m) = moved dest src 0 (i + 1) m := by
  funext x
  rw [copyByte_apply hlt (moved_of_notMem (by omega))]
  rcases Nat.lt_trichotomy (x - dest).toNat i with hx | hx | hx
  · rw [if_neg (by omega), moved_of_mem (by omega), moved_of_mem (by omega)]
  · rw [if_pos hx, moved_of_mem (by omega)]
  · rw [if_neg (by omega), moved_of_notMem (by omega), moved_of_notMem (by omega)]

/-- **A round downwards**: the next byte of the source is not one of those written above `i`. -/
theorem copyByte_down (hlt : i < hi) (hhi : hi ≤ 18446744073709551616)
    (h : (src + BitVec.ofNat 64 i - dest).toNat ≤ i ∨
      hi ≤ (src + BitVec.ofNat 64 i - dest).toNat) :
    copyByte dest src i (moved dest src (i + 1) hi m) = moved dest src i hi m := by
  funext x
  rw [copyByte_apply (by omega) (moved_of_notMem (by omega))]
  by_cases hx : (x - dest).toNat = i
  · rw [if_pos hx, moved_of_mem (by omega)]
  · rw [if_neg hx]
    by_cases hmem : i < (x - dest).toNat ∧ (x - dest).toNat < hi
    · rw [moved_of_mem (by omega), moved_of_mem (by omega)]
    · rw [moved_of_notMem (by omega), moved_of_notMem (by omega)]

/-- The loop upwards, where no byte of the source is written before it is read. -/
theorem countUp_copyByte
    (h : ∀ i, i < n.toNat → i ≤ (src + BitVec.ofNat 64 i - dest).toNat) :
    countUp (copyByte dest src) 0 n.toNat m = moved dest src 0 n.toNat m := by
  have hn := n.isLt
  exact countUp_zero_inv (copyByte dest src) (fun i m' => m' = moved dest src 0 i m) n.toNat
    moved_empty.symm fun i m' hi hm => by
      rw [hm]
      exact copyByte_up (by omega) (h i hi)

/-- The loop downwards, where no byte of the source is written before it is read. -/
theorem countDown_copyByte
    (h : ∀ i, i < n.toNat → (src + BitVec.ofNat 64 i - dest).toNat ≤ i ∨
      n.toNat ≤ (src + BitVec.ofNat 64 i - dest).toNat) :
    countDown (fun i => copyByte dest src (i - 1)) n.toNat m = moved dest src 0 n.toNat m := by
  have hn := n.isLt
  exact countDown_inv (fun i => copyByte dest src (i - 1))
    (fun i m' => m' = moved dest src i n.toNat m) n.toNat moved_empty.symm fun i m' hi hm => by
      rw [hm, Nat.add_sub_cancel]
      exact copyByte_down hi (by omega) (h i hi)

/-- The offset from `dest` of a byte of a source above it. -/
theorem toNat_offset_of_le (hle : dest ≤ src) (hi : src.toNat + i < 18446744073709551616) :
    (src + BitVec.ofNat 64 i - dest).toNat = src.toNat - dest.toNat + i := by
  rw [BitVec.toNat_sub, toNat_add_ofNat hi]
  have := BitVec.le_def.mp hle
  omega

/-- The offset from `dest` of a byte of a source below it: it wraps until the byte is at `dest`. -/
theorem toNat_offset_of_lt (hlt : src < dest) (hi : src.toNat + i < 18446744073709551616) :
    (src + BitVec.ofNat 64 i - dest).toNat =
      if dest.toNat ≤ src.toNat + i then src.toNat + i - dest.toNat
      else 18446744073709551616 - dest.toNat + (src.toNat + i) := by
  rw [BitVec.toNat_sub, toNat_add_ofNat hi]
  have := BitVec.lt_def.mp hlt
  split <;> omega

/-- **`memmove` moves the bytes all at once**, whatever the overlap of the two ranges. -/
theorem memmove_eq (hs : src.toNat + n.toNat ≤ 18446744073709551616)
    (hd : dest.toNat + n.toNat ≤ 18446744073709551616) :
    memmove dest src n m = (dest, moved dest src 0 n.toNat m) := by
  unfold memmove
  split
  · rename_i hlt
    rw [countUp_copyByte fun i hi => ?_]
    rw [toNat_offset_of_le (BitVec.le_of_lt hlt) (by omega)]
    omega
  · rename_i hle
    split
    · rename_i hlt
      rw [countDown_copyByte fun i hi => ?_]
      rw [toNat_offset_of_lt hlt (by omega)]
      have := BitVec.lt_def.mp hlt
      split <;> omega
    · rename_i hge
      obtain rfl : dest = src := BitVec.le_antisymm (BitVec.not_lt.mp hge) (BitVec.not_lt.mp hle)
      rw [moved_self]

/-- `memcpy` moves the bytes all at once where the destination does not start inside the source. -/
theorem memcpy_eq (hs : src.toNat + n.toNat ≤ 18446744073709551616)
    (h : dest ≤ src ∨ src.toNat + n.toNat ≤ dest.toNat) :
    memcpy dest src n m = (dest, moved dest src 0 n.toNat m) := by
  rw [memcpy, countUp_copyByte fun i hi => ?_]
  rcases Decidable.em (dest ≤ src) with hle | hnot
  · rw [toNat_offset_of_le hle (by omega)]
    omega
  · have hbehind := h.resolve_left hnot
    rw [toNat_offset_of_lt (BitVec.not_le.mp hnot) (by omega), if_neg (by omega)]
    omega

/-- **`memmove` is correct for overlap**: the destination holds the old bytes of the source, every
other byte is as before. -/
theorem memmove_overlap (dest src n : BitVec 64) (m : Mem)
    (hs : src.toNat + n.toNat ≤ 18446744073709551616)
    (hd : dest.toNat + n.toNat ≤ 18446744073709551616) :
    (∀ i, i < n.toNat →
      (memmove dest src n m).2 (dest + BitVec.ofNat 64 i) = m (src + BitVec.ofNat 64 i)) ∧
    ∀ x, x ∉ span dest n.toNat → (memmove dest src n m).2 x = m x := by
  have hn := n.isLt
  rw [memmove_eq hs hd]
  dsimp only
  constructor
  · intro i hi
    have hoff := toNat_sub_add dest (show i < 18446744073709551616 by omega)
    rw [moved_of_mem (by rw [hoff]; omega), BitVec.add_comm dest, BitVec.add_sub_cancel]
  · intro x hx
    rw [mem_span] at hx
    exact moved_of_notMem (by omega)

/-- Three bytes one place up, in a memory whose bytes count up. -/
theorem memmove_overlap_up :
    (∀ i, i < 3 → (memmove 4097 4096 3 fun x => x.setWidth 8).2 (4097 + BitVec.ofNat 64 i) =
      (4096 + BitVec.ofNat 64 i).setWidth 8) ∧
    ∀ x, x ∉ span 4097 3 →
      (memmove 4097 4096 3 fun x => x.setWidth 8).2 x = x.setWidth 8 :=
  memmove_overlap 4097 4096 3 (fun x => x.setWidth 8) (by decide) (by decide)

/-! ### Filling -/

variable {a : BitVec 64}

/-- `s'` is `s` with `n` bytes `c` put at `a`. -/
structure Filled (a : BitVec 64) (c : BitVec 8) (s : Stored) (n : Nat) (s' : Stored) : Prop where
  mem : s'.mem = withBytes s.mem a (List.replicate n c)
  stores : ∀ x, x ∈ s'.stores ↔ x ∈ s.stores ∨ x ∈ span a n

/-- A byte more. -/
theorem Filled.put {c : BitVec 8} {s s' : Stored} {n : Nat} (h : Filled a c s n s')
    (hn : n + 1 < 18446744073709551616) :
    Filled a c s (n + 1) (s'.put (a + BitVec.ofNat 64 n) c) := by
  constructor
  · show Function.update s'.mem (a + BitVec.ofNat 64 n) c = _
    have hlen : (List.replicate n c).length = n := List.length_replicate
    rw [List.replicate_succ', ← withBytes_behind (by rw [List.length_append, hlen]; exact hn), hlen,
      ← h.mem, update_eq_withBytes]
  · intro x
    show x ∈ (a + BitVec.ofNat 64 n) :: s'.stores ↔ _
    rw [List.mem_cons, h.stores, mem_span_succ (by omega), or_comm, or_assoc]

/-- **`memset`** fills its bytes, and writes no other ones. -/
theorem filled_memset (a : BitVec 64) (c : BitVec 32) (n : BitVec 64) (s : Stored) :
    Filled a (c.setWidth 8) s n.toNat (memset a c n s).2 := by
  have hstart : Filled a (c.setWidth 8) s 0 s :=
    ⟨(withBytes_nil _ _).symm, fun x => by rw [mem_span, or_iff_left (Nat.not_lt_zero _)]⟩
  exact countUp_zero_inv _ (Filled a (c.setWidth 8) s) n.toNat hstart
    fun i s' hi hs => hs.put (Nat.lt_of_le_of_lt hi n.isLt)

/-- The memory after `memset`, for the callers to whom its stores do not matter. -/
@[irreducible] def setBytes (m : Mem) (s : BitVec 64) (c : BitVec 32) (n : BitVec 64) : Mem :=
  (memset s c n ⟨m, []⟩).2.mem

/-- A byte of it. -/
theorem setBytes_apply (m : Mem) (s : BitVec 64) (c : BitVec 32) (n x : BitVec 64) :
    setBytes m s c n x = if (x - s).toNat < n.toNat then c.setWidth 8 else m x := by
  rw [setBytes, (filled_memset s c n ⟨m, []⟩).mem, withBytes, List.length_replicate]
  by_cases hx : (x - s).toNat < n.toNat
  · rw [if_pos hx, if_pos hx, List.getD_replicate _ hx]
  · rw [if_neg hx, if_neg hx]

end FrazzOS.Klibc

import FrazzOS.Firmware.Madt
import Mathlib.Logic.Function.Iterate

/-!
# Firmware — Ends

The record loop of `madt_init` steps by the length byte of each record.  `recordAt` is where the
rounds of the loop stand in the bytes of the MADT, and `Passed` is what the first `n` of them have
left, as long as the entries they stored are `Clear` of the bytes they read (`passed_rounds`).

* `madtInit_eq_none_iff`: the loop has not ended within `n` rounds where the first `n` records begin
  before the table's end.
* `madt_ends_iff`: the loop ends exactly when each record that it reaches has a length other than 0.
-/

namespace FrazzOS.Firmware
open Memory

/-- Where the `n`-th record begins, by the length bytes before it. -/
def recordAt (m : Mem) (madt : BitVec 64) : Nat → Nat
  | 0 => madtTableOffset
  | n + 1 => recordAt m madt n + recordLength m madt (recordAt m madt n)

/-- How many of the first `n` records belong in a table. -/
def storesTo (m : Mem) (madt : BitVec 64) (n : Nat) (t : MadtTable) : Nat :=
  (recordsOf m madt ((List.range n).map (recordAt m madt)) t).length

/-- The first `n` records begin before the table's end. -/
def Reached (m : Mem) (madt : BitVec 64) (n : Nat) : Prop :=
  ∀ k, k < n → recordAt m madt k < (sdtLength m madt).toNat

/-- The entries of the first `n` records share no byte with the MADT, nor with the byte behind it:
that one is the length byte of a record that begins at the last byte. -/
def Clear (m : Mem) (madt : BitVec 64) (tbl : MadtTable → BitVec 64) (n : Nat) : Prop :=
  ∀ t, Disjoint (span (tbl t) (8 * storesTo m madt n t)) (span madt ((sdtLength m madt).toNat + 1))

/-- Each record that is reached has a length other than 0. -/
def NoZeroLength (m : Mem) (madt : BitVec 64) : Prop :=
  ∀ n, recordAt m madt n < (sdtLength m madt).toNat →
    recordLength m madt (recordAt m madt n) ≠ 0

/-- What the rounds of the first `n` records have left. -/
structure Passed (m : Mem) (madt : BitVec 64) (tbl : MadtTable → BitVec 64) (n : Nat)
    (s : MadtState) : Prop where
  tbl_eq : s.tbl = tbl
  ptr_eq : s.ptr = madt + BitVec.ofNat 64 (recordAt m madt n)
  idx_eq : ∀ t, s.idx t = BitVec.ofNat 64 (storesTo m madt n t)
  frame : ∀ x, (∀ t, x ∉ span (tbl t) (8 * storesTo m madt n t)) → s.mem x = m x

variable {m : Mem} {madt : BitVec 64} {tbl : MadtTable → BitVec 64} {n k : Nat} {s : MadtState}
  {acpi : Acpi}

/-! ### The records -/

theorem storesTo_succ (n : Nat) (t : MadtTable) :
    storesTo m madt (n + 1) t = storesTo m madt n t +
      if tableOf (byteAt m madt (recordAt m madt n)) = some t then 1 else 0 := by
  rw [storesTo, List.range_succ, List.map_append, recordsOf_append, List.length_append,
    List.map_singleton, recordsOf_singleton]
  split <;> rfl

theorem storesTo_mono (h : k ≤ n) (t : MadtTable) :
    storesTo m madt k t ≤ storesTo m madt n t := by
  induction n, h using Nat.le_induction with
  | base => exact Nat.le_refl _
  | succ n _ ih => rw [storesTo_succ]; omega

theorem storesTo_le_self (n : Nat) (t : MadtTable) : storesTo m madt n t ≤ n := by
  refine Nat.le_trans (List.length_map _).le (Nat.le_trans (List.length_filter_le _ _) ?_)
  rw [List.length_map, List.length_range]

/-- Records of an unknown type from the `n`-th on leave the first `n` to count. -/
theorem storesTo_le (h : ∀ k, n ≤ k → tableOf (byteAt m madt (recordAt m madt k)) = none)
    (k : Nat) (t : MadtTable) : storesTo m madt k t ≤ n := by
  induction k with
  | zero => exact Nat.zero_le n
  | succ k ih =>
      by_cases hk : n ≤ k
      · rw [storesTo_succ, h k hk, if_neg (by simp)]
        exact ih
      · exact Nat.le_trans (storesTo_le_self (k + 1) t) (by omega)

theorem recordAt_mono (h : k ≤ n) : recordAt m madt k ≤ recordAt m madt n := by
  induction n, h using Nat.le_induction with
  | base => exact Nat.le_refl _
  | succ n _ ih => rw [recordAt]; omega

/-- A record of length 0 is its own successor. -/
theorem recordAt_of_zero (h : recordLength m madt (recordAt m madt n) = 0) (hk : n ≤ k) :
    recordAt m madt k = recordAt m madt n := by
  induction k, hk using Nat.le_induction with
  | base => rfl
  | succ k _ ih => rw [recordAt, ih, h, Nat.add_zero]

/-- **The records go on** behind the table's end just where none has length 0. -/
theorem noZeroLength_iff : NoZeroLength m madt ↔ ∃ n, ¬ Reached m madt n := by
  constructor
  · intro h
    by_contra hall
    have hreach : ∀ n, Reached m madt n := fun n => not_not.mp fun hn => hall ⟨n, hn⟩
    -- each record is at least one byte further
    have hfar : ∀ n, n ≤ recordAt m madt n := by
      intro n
      induction n with
      | zero => exact Nat.zero_le _
      | succ n ih =>
          have := h n (hreach (n + 1) n (Nat.lt_succ_self n))
          rw [recordAt]
          omega
    have := hreach _ _ (Nat.lt_succ_self (sdtLength m madt).toNat)
    have := hfar (sdtLength m madt).toNat
    omega
  · rintro ⟨n, hn⟩ k hk hzero
    refine hn fun j _ => ?_
    by_cases hj : k ≤ j
    · rw [recordAt_of_zero hzero hj]
      exact hk
    · exact Nat.lt_of_le_of_lt (recordAt_mono (by omega)) hk

theorem reached_succ (n : Nat) : Reached m madt (n + 1) ↔
    Reached m madt n ∧ recordAt m madt n < (sdtLength m madt).toNat :=
  Nat.forall_lt_succ_right

theorem Reached.mono (h : Reached m madt n) (hk : k ≤ n) : Reached m madt k :=
  fun j hj => h j (by omega)

/-- The records begin less than 256 bytes behind the end. -/
theorem Reached.near (h : Reached m madt n) :
    recordAt m madt n < (sdtLength m madt).toNat + 256 := by
  cases n with
  | zero => rw [recordAt, madtTableOffset]; omega
  | succ n =>
      have := h n (Nat.lt_succ_self n)
      have := (byteAt m madt (recordAt m madt n + 1)).isLt
      rw [recordAt, recordLength]
      omega

/-! ### The rounds -/

theorem passed_start : Passed m madt tbl 0 (madtStart m madt tbl) :=
  ⟨rfl, rfl, fun _ => rfl, fun _ _ => rfl⟩

/-- The entry behind the first `c` of a table is among its first `c + 1`. -/
theorem notMem_entry {a x : BitVec 64} {c : Nat} (h : x ∉ span a (8 * (c + 1))) :
    x ∉ span (a + BitVec.ofNat 64 (8 * c)) 8 := by
  by_cases hc : 8 * (c + 1) ≤ 18446744073709551616
  · intro hx
    obtain ⟨-, hx⟩ := (mem_span_offset (by omega) (by omega)).mp hx
    exact h (mem_span.mpr (by omega))
  · exact absurd (mem_span.mpr (by have := (x - a).isLt; omega)) h

/-- **One round** passes one record, where no entry is in the two bytes it reads. -/
theorem Passed.step (h : Passed m madt tbl n s)
    (hclear : ∀ t, Disjoint (span (tbl t) (8 * storesTo m madt (n + 1) t))
      (span (madt + BitVec.ofNat 64 (recordAt m madt n)) 2)) :
    Passed m madt tbl (n + 1) s.record := by
  have hmem : ∀ i, i < 2 → ∀ t, madt + BitVec.ofNat 64 (recordAt m madt n) + BitVec.ofNat 64 i ∉
      span (tbl t) (8 * storesTo m madt (n + 1) t) := by
    intro i hi t hx
    refine Set.disjoint_left.mp (hclear t) hx ?_
    rw [mem_span, toNat_sub_add _ (by omega)]
    exact hi
  have hgrow : ∀ t, 8 * storesTo m madt n t ≤ 8 * storesTo m madt (n + 1) t :=
    fun t => Nat.mul_le_mul_left 8 (storesTo_mono (Nat.le_succ n) t)
  have htype : s.mem s.ptr = byteAt m madt (recordAt m madt n) := by
    rw [h.ptr_eq]
    refine h.frame _ fun t hx => hmem 0 (by decide) t ?_
    rw [BitVec.add_zero]
    exact span_mono (hgrow t) hx
  -- the round up to its read of the length byte
  have hnext : ∀ s' : MadtState, s'.tbl = tbl → s'.ptr = s.ptr →
      (∀ t, s'.idx t = BitVec.ofNat 64 (storesTo m madt (n + 1) t)) →
      (∀ x, (∀ t, x ∉ span (tbl t) (8 * storesTo m madt (n + 1) t)) → s'.mem x = m x) →
      Passed m madt tbl (n + 1) { s' with ptr := s'.ptr + (s'.mem (s'.ptr + 1)).setWidth 64 } := by
    intro s' htbl hptr hidx hframe
    refine ⟨htbl, next_ptr (hptr.trans h.ptr_eq) (hframe _ fun t => ?_), hidx, hframe⟩
    rw [BitVec.ofNat_add, ← BitVec.add_assoc]
    exact hmem 1 (by decide) t
  rw [MadtState.record, htype]
  cases ht : tableOf (byteAt m madt (recordAt m madt n)) with
  | none =>
      have hcount : ∀ t, storesTo m madt (n + 1) t = storesTo m madt n t := by
        intro t
        rw [storesTo_succ, ht, if_neg (by simp), Nat.add_zero]
      refine hnext s h.tbl_eq rfl (fun t => ?_) fun x hx => h.frame x fun t => ?_
      · rw [hcount, h.idx_eq]
      · rw [← hcount]
        exact hx t
  | some t =>
      have hself : storesTo m madt (n + 1) t = storesTo m madt n t + 1 := by
        rw [storesTo_succ, ht, if_pos rfl]
      refine hnext (s.store t) h.tbl_eq rfl (fun u => ?_) fun x hx => ?_
      · by_cases hu : u = t
        · subst hu
          rw [hself, BitVec.ofNat_add, ← h.idx_eq]
          exact Function.update_self _ _ _
        · rw [storesTo_succ, ht, if_neg (fun e => hu (Option.some.inj e).symm), Nat.add_zero,
            ← h.idx_eq]
          exact Function.update_of_ne hu _ _
      · simp only [MadtState.store, store_addr h.tbl_eq (h.idx_eq t)]
        rw [write_of_notMem (notMem_entry (hself ▸ hx t)), h.frame x]
        exact fun u hu => hx u (span_mono (hgrow u) hu)

/-- **The rounds** pass the records one by one, as long as no entry is in the bytes they read. -/
theorem passed_rounds (hclear : ∀ k, k < n → ∀ t,
      Disjoint (span (tbl t) (8 * storesTo m madt (k + 1) t))
        (span (madt + BitVec.ofNat 64 (recordAt m madt k)) 2)) :
    Passed m madt tbl n (MadtState.record^[n] (madtStart m madt tbl)) := by
  induction n with
  | zero => exact passed_start
  | succ n ih =>
      rw [Function.iterate_succ_apply']
      exact (ih fun k hk => hclear k (by omega)).step (hclear n (Nat.lt_succ_self n))

/-- The two bytes of a record that begins in the table. -/
theorem record_subset {off stop : Nat} (h : off + 2 ≤ stop) (hstop : stop < 18446744073709551616) :
    span (madt + BitVec.ofNat 64 off) 2 ⊆ span madt stop := by
  intro x hx
  have := (mem_span_offset (by omega) (by omega)).mp hx
  exact mem_span.mpr (by omega)

theorem Clear.rounds (h : Clear m madt tbl n) (hreach : Reached m madt n) :
    Passed m madt tbl n (MadtState.record^[n] (madtStart m madt tbl)) := by
  refine passed_rounds fun k hk t => (h t).mono (span_mono ?_) (record_subset ?_ ?_)
  · exact Nat.mul_le_mul_left 8 (storesTo_mono hk t)
  · have := hreach k hk
    omega
  · have := (sdtLength m madt).isLt
    omega

/-- The loop's test, on the offset. -/
theorem Passed.lt_iff (h : Passed m madt tbl n s) (hreach : Reached m madt n)
    (hroom : madt.toNat + (sdtLength m madt).toNat + 256 < 18446744073709551616) :
    s.ptr < madt + BitVec.ofNat 64 (sdtLength m madt).toNat ↔
      recordAt m madt n < (sdtLength m madt).toNat := by
  have := hreach.near
  rw [h.ptr_eq, BitVec.lt_def, toNat_add_ofNat (by omega), toNat_add_ofNat (by omega)]
  omega

theorem walk_eq_none_iff {maxMadtAddr : BitVec 64} {fuel : Nat} : ∀ {s : MadtState},
    walk maxMadtAddr fuel s = none ↔
      ∀ k, k < fuel → (MadtState.record^[k] s).ptr < maxMadtAddr := by
  induction fuel with
  | zero => intro s; exact ⟨fun _ k hk => absurd hk (Nat.not_lt_zero k), fun _ => rfl⟩
  | succ fuel ih =>
      intro s
      rw [walk, Nat.forall_lt_succ_left]
      by_cases h : s.ptr < maxMadtAddr
      · rw [if_pos h, ih]
        exact (and_iff_right h).symm
      · rw [if_neg h]
        exact ⟨fun e => (Option.some_ne_none s e).elim, fun hk => absurd hk.1 h⟩

/-- The loop goes on while its records begin before the table's end. -/
theorem running_iff (hroom : madt.toNat + (sdtLength m madt).toNat + 256 < 18446744073709551616)
    (hpassed : ∀ k, k < n → Reached m madt k →
      Passed m madt tbl k (MadtState.record^[k] (madtStart m madt tbl))) :
    (∀ k, k < n → (MadtState.record^[k] (madtStart m madt tbl)).ptr <
      madt + BitVec.ofNat 64 (sdtLength m madt).toNat) ↔ Reached m madt n := by
  induction n with
  | zero => exact ⟨fun _ k hk => absurd hk (Nat.not_lt_zero k),
      fun _ k hk => absurd hk (Nat.not_lt_zero k)⟩
  | succ n ih =>
      rw [Nat.forall_lt_succ_right, ih fun k hk => hpassed k (by omega), reached_succ]
      refine and_congr_right fun hreach => ?_
      exact (hpassed n (Nat.lt_succ_self n) hreach).lt_iff hreach hroom

/-! ### The end of the loop -/

/-- **The loop has not ended within `n` rounds** where the first `n` records begin before the
table's end. -/
theorem madtInit_eq_none_iff (hfind : acpiFindSdtTbl m acpi sigApic = some madt) (hmadt : madt ≠ 0)
    (hclear : ∀ k, k < n → Reached m madt k → Clear m madt tbl k) :
    madtInit m acpi tbl n = none ↔ Reached m madt n := by
  rw [madtInit_eq_walk hfind hmadt, walk_eq_none_iff]
  exact running_iff (madt_room hfind hmadt) fun k hk hreach => (hclear k hk hreach).rounds hreach

theorem Clear.mono (h : Clear m madt tbl n) (hk : k ≤ n) : Clear m madt tbl k :=
  fun t => (h t).mono_left (span_mono (Nat.mul_le_mul_left 8 (storesTo_mono hk t)))

/-- **A record of length 0** keeps the loop at it. -/
theorem madtInit_eq_none (hfind : acpiFindSdtTbl m acpi sigApic = some madt) (hmadt : madt ≠ 0)
    (hzero : ¬ NoZeroLength m madt) (hclear : Clear m madt tbl n) :
    madtInit m acpi tbl n = none := by
  rw [noZeroLength_iff, not_exists] at hzero
  rw [madtInit_eq_none_iff hfind hmadt fun k hk _ => hclear.mono (Nat.le_of_lt hk)]
  exact not_not.mp (hzero n)

/-- **The end of the walk**: while the entries stored are clear of the MADT, the loop ends exactly
when each record that it reaches has a length other than 0; with one of length 0 it has not ended
after any number of rounds for which they are. -/
theorem madt_ends_iff (hfind : acpiFindSdtTbl m acpi sigApic = some madt) (hmadt : madt ≠ 0) :
    ((∀ n, Reached m madt n → Clear m madt tbl n) →
      ((∃ fuel s, madtInit m acpi tbl fuel = some s) ↔ NoZeroLength m madt)) ∧
      (¬ NoZeroLength m madt → ∀ n, Clear m madt tbl n → madtInit m acpi tbl n = none) := by
  refine ⟨fun hclear => ?_, fun hzero n => madtInit_eq_none hfind hmadt hzero⟩
  rw [noZeroLength_iff]
  refine exists_congr fun fuel => ?_
  rw [← madtInit_eq_none_iff hfind hmadt fun k _ => hclear k]
  exact Option.ne_none_iff_exists'.symm

/-! ### Two tables -/

/-- Entries clear of a MADT at `0x2000`. -/
theorem clear_tablesAt (hlen : (sdtLength m 0xffff800000002000).toNat ≤ 4096)
    (hle : ∀ t, storesTo m 0xffff800000002000 n t ≤ 64) :
    Clear m 0xffff800000002000 tablesAt n := by
  intro t
  refine Disjoint.mono (span_mono (Nat.mul_le_mul_left 8 (hle t)))
    (span_mono (Nat.succ_le_succ hlen)) ?_
  cases t <;> exact disjoint_span (by decide) (by decide)

theorem noZeroLength_rsdt : NoZeroLength firmwareRsdt 0xffff800000002000 :=
  noZeroLength_iff.mpr ⟨4, fun h => absurd (h 3 (by decide)) (by decide +kernel)⟩

theorem madt_ends_rsdt : ∃ fuel s,
    madtInit firmwareRsdt ⟨0xffff800000001000, false⟩ tablesAt fuel = some s := by
  refine ((madt_ends_iff (by decide +kernel) (by decide)).1 fun n hn => ?_).mpr noZeroLength_rsdt
  have hle : n ≤ 3 := by
    by_contra h
    exact absurd (hn 3 (by omega)) (by decide +kernel)
  refine clear_tablesAt (by decide +kernel) fun t => Nat.le_trans (storesTo_le_self n t) (by omega)

/-- The MADT of `madtBytes` with 0 as the length of its last record. -/
def madtZeroBytes : List (BitVec 8) :=
  sdtBytes [0x41, 0x50, 0x49, 0x43] 66 0x6e
    [0, 0, 0xe0, 0xfe, 1, 0, 0, 0, 0, 8, 0, 0, 1, 0, 0, 0,
      1, 12, 0, 0, 0, 0, 0xc0, 0xfe, 0, 0, 0, 0, 0x7f, 0]

/-- `firmwareRsdt` with that MADT. -/
def firmwareZero : Mem := withBytes firmwareRsdt 0xffff800000002000 madtZeroBytes

/-- **A valid MADT on which the loop does not end.** -/
theorem madt_never_ends :
    acpiFindSdtTbl firmwareZero ⟨0xffff800000001000, false⟩ sigApic = some 0xffff800000002000 ∧
      sdtValidateSig firmwareZero 0xffff800000002000 sigApic = true ∧
      sdtValidateChecksum firmwareZero 0xffff800000002000 = true ∧
      ∀ fuel, madtInit firmwareZero ⟨0xffff800000001000, false⟩ tablesAt fuel = none := by
  have hlast : recordAt firmwareZero 0xffff800000002000 2 = 64 := by decide +kernel
  have hzero : recordLength firmwareZero 0xffff800000002000
      (recordAt firmwareZero 0xffff800000002000 2) = 0 := by
    rw [hlast]
    decide +kernel
  refine ⟨by decide +kernel, by decide +kernel, by decide +kernel, fun fuel => ?_⟩
  refine madtInit_eq_none (by decide +kernel) (by decide)
    (fun h => h 2 (by decide +kernel) hzero) ?_
  -- the record that stays is of an unknown type
  refine clear_tablesAt (by decide +kernel) fun t => ?_
  refine Nat.le_trans (storesTo_le (fun k hk => ?_) fuel t) (show 2 ≤ 64 by decide)
  rw [recordAt_of_zero hzero hk, hlast]
  decide +kernel

end FrazzOS.Firmware

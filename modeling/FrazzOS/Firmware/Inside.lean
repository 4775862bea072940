import FrazzOS.Firmware.Ends

/-!
# Firmware — Inside

What `madt_init` may touch: a store into one of its tables has an index below the entries that its
256 bytes hold, it reads the type and the length of a record in the bytes of the MADT, and a record
that it stores ends in the MADT (`InBounds`, of one round; `StaysIn`, of the loop).

Nothing bounds the number of records, and the loop's test looks at the first byte of a record only.
So `madt_staysIn_iff` says what a MADT must be for this to hold (`Fits`): at most 32 records of each
type, none that begins at its last byte, and none of a known type that goes on behind its end.
`inBounds_iff` is the lemma of one round.
-/

namespace FrazzOS.Firmware
open Memory

/-- What one round may touch, in offsets from the MADT. -/
structure InBounds (madt : BitVec 64) (stop : Nat) (s : MadtState) : Prop where
  index : ∀ t, tableOf (s.mem s.ptr) = some t → (s.idx t).toNat < acpiApicTblSize / 8
  bytes : (s.ptr - madt).toNat + 1 < stop
  inside : ∀ t, tableOf (s.mem s.ptr) = some t →
    (s.ptr - madt).toNat + (s.record.ptr - s.ptr).toNat ≤ stop

/-- Every round of the loop stays in bounds. -/
def StaysIn (m : Mem) (madt : BitVec 64) (tbl : MadtTable → BitVec 64) : Prop :=
  ∀ n, (∀ k, k < n + 1 → (MadtState.record^[k] (madtStart m madt tbl)).ptr <
      madt + BitVec.ofNat 64 (sdtLength m madt).toNat) →
    InBounds madt (sdtLength m madt).toNat (MadtState.record^[n] (madtStart m madt tbl))

/-- The records of a MADT fit the tables, and its length. -/
structure Fits (m : Mem) (madt : BitVec 64) : Prop where
  count : ∀ n t, Reached m madt n → storesTo m madt n t ≤ acpiApicTblSize / 8
  header : ∀ n, Reached m madt n → recordAt m madt n + 1 ≠ (sdtLength m madt).toNat
  known : ∀ n, Reached m madt (n + 1) → (sdtLength m madt).toNat < recordAt m madt (n + 1) →
    tableOf (byteAt m madt (recordAt m madt n)) = none

/-- The same of one record. -/
def RecordFits (m : Mem) (madt : BitVec 64) (n : Nat) : Prop :=
  recordAt m madt n + 1 < (sdtLength m madt).toNat ∧
    ∀ t, tableOf (byteAt m madt (recordAt m madt n)) = some t →
      storesTo m madt n t < acpiApicTblSize / 8 ∧
        recordAt m madt (n + 1) ≤ (sdtLength m madt).toNat

variable {m : Mem} {madt : BitVec 64} {tbl : MadtTable → BitVec 64} {n : Nat} {s : MadtState}
  {acpi : Acpi}

/-- Records that fit leave room in each table. -/
theorem storesTo_of_fits (h : ∀ k, k < n → RecordFits m madt k) (t : MadtTable) :
    storesTo m madt n t ≤ acpiApicTblSize / 8 := by
  induction n with
  | zero => exact Nat.zero_le _
  | succ n ih =>
      have hn := ih fun k hk => h k (by omega)
      rw [storesTo_succ]
      split
      · rename_i ht
        exact ((h n (Nat.lt_succ_self n)).2 t ht).1
      · exact hn

/-- **The parts of `Fits`** say it of each record. -/
theorem fits_iff : Fits m madt ↔ ∀ n, Reached m madt (n + 1) → RecordFits m madt n := by
  constructor
  · rintro ⟨hcount, hheader, hknown⟩ n hreach
    obtain ⟨hbefore, hlt⟩ := (reached_succ n).mp hreach
    have hne := hheader n hbefore
    refine ⟨by omega, fun t ht => ⟨?_, ?_⟩⟩
    · have := hcount (n + 1) t hreach
      rw [storesTo_succ, if_pos ht] at this
      omega
    · by_contra hend
      rw [hknown n hreach (by omega)] at ht
      cases ht
  · intro h
    refine ⟨fun n t hreach => ?_, fun n hreach heq => ?_, fun n hreach hend => ?_⟩
    · exact storesTo_of_fits (fun k hk => h k (hreach.mono hk)) t
    · have := (h n ((reached_succ n).mpr ⟨hreach, by omega⟩)).1
      omega
    · by_contra hsome
      obtain ⟨t, ht⟩ := Option.ne_none_iff_exists'.mp hsome
      have := ((h n hreach).2 t ht).2
      omega

/-- The entries of 32 records are apart from the bytes of one in the MADT. -/
theorem Buffers.record (hb : Buffers madt (sdtLength m madt).toNat tbl) {c off : Nat}
    (t : MadtTable) (hc : c ≤ acpiApicTblSize / 8) (hoff : off + 1 < (sdtLength m madt).toNat) :
    Disjoint (span (tbl t) (8 * c)) (span (madt + BitVec.ofNat 64 off) 2) := by
  have hlen := (sdtLength m madt).isLt
  unfold acpiApicTblSize at hc
  refine (hb.table t).mono (span_mono ?_) (record_subset (by omega) (by omega))
  unfold acpiApicTblSize
  omega

/-- **The rounds of records that fit** pass them. -/
theorem passed_of_fits (hb : Buffers madt (sdtLength m madt).toNat tbl)
    (h : ∀ k, k < n → RecordFits m madt k) :
    Passed m madt tbl n (MadtState.record^[n] (madtStart m madt tbl)) := by
  refine passed_rounds fun k hk t => hb.record t ?_ (h k hk).1
  exact storesTo_of_fits (fun j hj => h j (by omega)) t

/-- The type byte that a round reads. -/
theorem Passed.type_eq (h : Passed m madt tbl n s)
    (hb : Buffers madt (sdtLength m madt).toNat tbl)
    (hcount : ∀ t, storesTo m madt n t ≤ acpiApicTblSize / 8)
    (hin : recordAt m madt n + 1 < (sdtLength m madt).toNat) :
    s.mem s.ptr = byteAt m madt (recordAt m madt n) := by
  rw [h.ptr_eq]
  refine h.frame _ fun t hx => Set.disjoint_left.mp (hb.record t (hcount t) hin) hx ?_
  rw [mem_span, BitVec.sub_self]
  decide

/-- The length byte that it reads, once the record is stored. -/
theorem Passed.length_eq (h : Passed m madt tbl n s)
    (hb : Buffers madt (sdtLength m madt).toNat tbl)
    (hcount : ∀ t, storesTo m madt (n + 1) t ≤ acpiApicTblSize / 8)
    (hin : recordAt m madt n + 1 < (sdtLength m madt).toNat) :
    (s.record.ptr - s.ptr).toNat = recordLength m madt (recordAt m madt n) := by
  have hbyte := (byteAt m madt (recordAt m madt n + 1)).isLt
  rw [(h.step fun t => hb.record t (hcount t) hin).ptr_eq, h.ptr_eq, recordAt, recordLength,
    BitVec.ofNat_add, ← BitVec.add_assoc, toNat_sub_add _ (by omega)]

/-- **One round** stays in bounds just where its record fits. -/
theorem inBounds_iff (hb : Buffers madt (sdtLength m madt).toNat tbl)
    (h : Passed m madt tbl n s) (hfits : ∀ k, k < n → RecordFits m madt k)
    (hreach : Reached m madt (n + 1)) :
    InBounds madt (sdtLength m madt).toNat s ↔ RecordFits m madt n := by
  have hlen := (sdtLength m madt).isLt
  have hlt := hreach n (Nat.lt_succ_self n)
  have hcount := storesTo_of_fits hfits
  have hoff : (s.ptr - madt).toNat = recordAt m madt n := by
    rw [h.ptr_eq, toNat_sub_add _ (by omega)]
  have hidx : ∀ t, (s.idx t).toNat = storesTo m madt n t := by
    intro t
    have := hcount t
    unfold acpiApicTblSize at this
    rw [h.idx_eq, BitVec.toNat_ofNat]
    omega
  have hnext : (∀ t, tableOf (byteAt m madt (recordAt m madt n)) = some t →
      storesTo m madt n t < acpiApicTblSize / 8) →
      ∀ t, storesTo m madt (n + 1) t ≤ acpiApicTblSize / 8 := by
    intro hroom t
    have := hcount t
    rw [storesTo_succ]
    split
    · rename_i ht
      exact hroom t ht
    · exact this
  constructor
  · rintro ⟨hindex, hbytes, hinside⟩
    rw [hoff] at hbytes hinside
    rw [h.type_eq hb hcount hbytes] at hindex hinside
    simp only [hidx] at hindex
    rw [h.length_eq hb (hnext hindex) hbytes] at hinside
    exact ⟨hbytes, fun t ht => ⟨hindex t ht, hinside t ht⟩⟩
  · rintro ⟨hin, hrec⟩
    have hroom := fun t ht => (hrec t ht).1
    refine ⟨?_, by rwa [hoff], ?_⟩
    · rw [h.type_eq hb hcount hin]
      simp only [hidx]
      exact hroom
    · rw [hoff, h.type_eq hb hcount hin, h.length_eq hb (hnext hroom) hin]
      exact fun t ht => (hrec t ht).2

/-- **The loop** stays in bounds just where each record it reaches fits. -/
theorem staysIn_iff_records (hb : Buffers madt (sdtLength m madt).toNat tbl)
    (hroom : madt.toNat + (sdtLength m madt).toNat + 256 < 18446744073709551616) :
    StaysIn m madt tbl ↔ ∀ n, Reached m madt (n + 1) → RecordFits m madt n := by
  constructor
  · intro h n
    induction n using Nat.strong_induction_on with
    | _ n ih =>
        intro hreach
        have hfits : ∀ k, k < n → RecordFits m madt k :=
          fun k hk => ih k hk (hreach.mono (by omega))
        have hpassed : ∀ k, k < n + 1 → Passed m madt tbl k _ :=
          fun k hk => passed_of_fits hb fun j hj => hfits j (by omega)
        have hrun := (running_iff hroom fun k hk _ => hpassed k hk).mpr hreach
        exact (inBounds_iff hb (hpassed n (Nat.lt_succ_self n)) hfits hreach).mp (h n hrun)
  · intro h n hrun
    have hfits : ∀ k, Reached m madt k → ∀ j, j < k → RecordFits m madt j :=
      fun k hk j hj => h j (hk.mono hj)
    have hreach := (running_iff hroom fun k _ hk => passed_of_fits hb (hfits k hk)).mp hrun
    have hbefore := hfits n (hreach.mono (Nat.le_succ n))
    exact (inBounds_iff hb (passed_of_fits hb hbefore) hbefore hreach).mpr (h n hreach)

/-- **The bounds of the walk**: with seven tables of 256 bytes apart from each other and from the
MADT, every round stays in bounds exactly when the MADT fits. -/
theorem madt_staysIn_iff (hfind : acpiFindSdtTbl m acpi sigApic = some madt) (hmadt : madt ≠ 0)
    (hb : Buffers madt (sdtLength m madt).toNat tbl) : StaysIn m madt tbl ↔ Fits m madt := by
  rw [fits_iff]
  exact staysIn_iff_records hb (madt_room hfind hmadt)

theorem fits_rsdt : Fits firmwareRsdt 0xffff800000002000 := by
  have hlen : (sdtLength firmwareRsdt 0xffff800000002000).toNat = 66 := by decide +kernel
  refine fits_iff.mpr fun n hreach => ?_
  have hn : n < 3 := by
    by_contra h
    exact absurd (hreach 3 (by omega)) (by decide +kernel)
  have hin : ∀ k, k < 3 → recordAt firmwareRsdt 0xffff800000002000 k + 1 < 66 ∧
      recordAt firmwareRsdt 0xffff800000002000 (k + 1) ≤ 66 := by decide +kernel
  refine ⟨by rw [hlen]; exact (hin n hn).1, fun t _ => ⟨?_, by rw [hlen]; exact (hin n hn).2⟩⟩
  have : storesTo firmwareRsdt 0xffff800000002000 n t ≤ n := storesTo_le_self n t
  unfold acpiApicTblSize
  omega

theorem madt_staysIn_rsdt : StaysIn firmwareRsdt 0xffff800000002000 tablesAt := by
  have hfind : acpiFindSdtTbl firmwareRsdt ⟨0xffff800000001000, false⟩ sigApic =
      some 0xffff800000002000 := by decide +kernel
  exact (madt_staysIn_iff hfind (by decide) (buffers_tablesAt (by decide +kernel))).mpr fits_rsdt

/-- A MADT with the records of 33 processors. -/
def madtManyBytes : List (BitVec 8) :=
  [0x41, 0x50, 0x49, 0x43, 0x34, 1, 0, 0, 1, 0x85] ++ List.replicate 26 0 ++
    [0, 0, 0xe0, 0xfe, 1, 0, 0, 0] ++
    (List.range 33).flatMap fun i => [0, 8, BitVec.ofNat 8 i, BitVec.ofNat 8 i, 1, 0, 0, 0]

/-- `firmwareRsdt` with that MADT. -/
def firmwareMany : Mem := withBytes firmwareRsdt 0xffff800000002000 madtManyBytes

theorem recordAt_many (n : Nat) (hn : n ≤ 33) :
    recordAt firmwareMany 0xffff800000002000 n = 44 + 8 * n := by
  induction n with
  | zero => rfl
  | succ n ih =>
      have hlen : ∀ k, k < 33 →
          recordLength firmwareMany 0xffff800000002000 (44 + 8 * k) = 8 := by decide +kernel
      rw [recordAt, ih (by omega), hlen n (by omega)]
      omega

theorem storesTo_many (n : Nat) (hn : n ≤ 33) :
    storesTo firmwareMany 0xffff800000002000 n .procApic = n := by
  induction n with
  | zero => rfl
  | succ n ih =>
      have htype : ∀ k, k < 33 →
          tableOf (byteAt firmwareMany 0xffff800000002000 (44 + 8 * k)) = some .procApic := by
        decide +kernel
      rw [storesTo_succ, recordAt_many n (by omega), if_pos (htype n (by omega)), ih (by omega)]

/-- **A valid MADT whose 33rd processor is stored behind the table's 256 bytes.** -/
theorem madt_many_overruns :
    acpiFindSdtTbl firmwareMany ⟨0xffff800000001000, false⟩ sigApic = some 0xffff800000002000 ∧
      Buffers 0xffff800000002000 (sdtLength firmwareMany 0xffff800000002000).toNat tablesAt ∧
      (∃ fuel s, madtInit firmwareMany ⟨0xffff800000001000, false⟩ tablesAt fuel = some s) ∧
      ¬ StaysIn firmwareMany 0xffff800000002000 tablesAt := by
  have hlen : (sdtLength firmwareMany 0xffff800000002000).toNat = 308 := by decide +kernel
  have hfind : acpiFindSdtTbl firmwareMany ⟨0xffff800000001000, false⟩ sigApic =
      some 0xffff800000002000 := by decide +kernel
  have hb : Buffers 0xffff800000002000 (sdtLength firmwareMany 0xffff800000002000).toNat
      tablesAt := buffers_tablesAt (by rw [hlen]; decide)
  refine ⟨hfind, hb, ⟨34, Option.ne_none_iff_exists'.mp fun hnone => ?_⟩, fun h => ?_⟩
  · rw [madtInit_eq_none_iff hfind (by decide) fun k hk _ =>
      clear_tablesAt (by rw [hlen]; decide) fun t => Nat.le_trans (storesTo_le_self k t)
        (by omega)] at hnone
    have := hnone 33 (by decide)
    rw [recordAt_many 33 (by decide), hlen] at this
    omega
  · have hreach : Reached firmwareMany 0xffff800000002000 33 := by
      intro k hk
      rw [recordAt_many k (by omega), hlen]
      omega
    have hfits := (staysIn_iff_records hb (madt_room hfind (by decide))).mp h 32 hreach
    have hroom := hfits.2 .procApic (by rw [recordAt_many 32 (by decide)]; decide +kernel)
    rw [storesTo_many 32 (by decide)] at hroom
    exact absurd hroom.1 (by decide)

end FrazzOS.Firmware

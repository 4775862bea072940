import FrazzOS.Firmware.Acpi

/-!
# Firmware — Madt

The record loop of `madt_init`: it goes through the bytes of the MADT behind its header, and puts
the address of each record into the table of the record's type.

* `MadtState.record`: one round; `walk`: the loop.
* `Tiles`: the records of a MADT, one behind the other up to its length.
* `madt_decoded`: with disjoint tables, `madt_init` ends and each table holds the addresses of the
  records of its type, in their order.  What carries the loop is `Decoded`: this holds of the
  records passed so far, and no other byte has changed.
-/

namespace FrazzOS.Firmware
open Memory

/-- `ACPI_APIC_TBL_SIZE`. -/
def acpiApicTblSize : Nat := 256

/-- The seven tables of `acpi.c`. -/
inductive MadtTable where
  | procApic | ioApic | iosoApic | ionmiApic | nmiLapic | addroLapic | procx2Lapic
  deriving DecidableEq

/-- The `switch` of the loop: the table for a record type. -/
def tableOf (type : BitVec 8) : Option MadtTable :=
  match type.toNat with
  | 0 => some .procApic
  | 1 => some .ioApic
  | 2 => some .iosoApic
  | 3 => some .ionmiApic
  | 4 => some .nmiLapic
  | 5 => some .addroLapic
  | 9 => some .procx2Lapic
  | _ => none

/-- The memory, the tables with their `*_idx`, and `ptr`. -/
structure MadtState where
  mem : Mem
  tbl : MadtTable → BitVec 64
  idx : MadtTable → BitVec 64
  ptr : BitVec 64

/-- `tbl[idx++] = ptr`. -/
def MadtState.store (s : MadtState) (t : MadtTable) : MadtState :=
  { s with
    mem := write s.mem (s.tbl t + 8 * s.idx t) s.ptr
    idx := Function.update s.idx t (s.idx t + 1) }

/-- One round of the loop. -/
def MadtState.record (s : MadtState) : MadtState :=
  let s' := match tableOf (s.mem s.ptr) with
    | some t => s.store t
    | none => s
  { s' with ptr := s'.ptr + (s'.mem (s'.ptr + 1)).setWidth 64 }

/-- The loop, `fuel` rounds at most; `none` when they run out. -/
def walk (maxMadtAddr : BitVec 64) : Nat → MadtState → Option MadtState
  | 0, _ => none
  | fuel + 1, s => if s.ptr < maxMadtAddr then walk maxMadtAddr fuel s.record else some s

/-- `"APIC"`. -/
def sigApic : Nat → BitVec 8 := str [0x41, 0x50, 0x49, 0x43]

/-- The offset of `madt->table`. -/
def madtTableOffset : Nat := 44

/-- `madt_init`, where the calls of `malloc` returned `tbl`; `none` where it does not end. -/
def madtInit (m : Mem) (acpi : Acpi) (tbl : MadtTable → BitVec 64) (fuel : Nat) :
    Option MadtState :=
  match acpiFindSdtTbl m acpi sigApic with
  | none => none
  | some madt =>
      if madt = 0 then none
      else
        walk (madt + (sdtLength m madt).setWidth 64) fuel
          { mem := m
            tbl := tbl
            idx := fun _ => 0
            ptr := madt + BitVec.ofNat 64 madtTableOffset }

/-! ### The records -/

/-- The length byte of the record at an offset. -/
def recordLength (m : Mem) (madt : BitVec 64) (off : Nat) : Nat := (byteAt m madt (off + 1)).toNat

/-- The records from `off` on, by their offsets: each of length at least 2, one behind the other up
to the table's end. -/
inductive Tiles (m : Mem) (madt : BitVec 64) (stop : Nat) : Nat → List Nat → Prop where
  | done : Tiles m madt stop stop []
  | record {off : Nat} {offs : List Nat} : 2 ≤ recordLength m madt off →
      off + recordLength m madt off ≤ stop →
      Tiles m madt stop (off + recordLength m madt off) offs → Tiles m madt stop off (off :: offs)

/-- The addresses of the records that belong in a table, in their order. -/
def recordsOf (m : Mem) (madt : BitVec 64) (offs : List Nat) (t : MadtTable) : List (BitVec 64) :=
  (offs.filter fun off => tableOf (byteAt m madt off) = some t).map fun off =>
    madt + BitVec.ofNat 64 off

/-- The tables after the records at `offs`: each holds the addresses of those of its type, its
`*_idx` is their number, and no other byte has changed. -/
structure Decoded (m : Mem) (madt : BitVec 64) (tbl : MadtTable → BitVec 64) (offs : List Nat)
    (s : MadtState) : Prop where
  tbl_eq : s.tbl = tbl
  idx_eq : ∀ t, s.idx t = BitVec.ofNat 64 (recordsOf m madt offs t).length
  entry : ∀ t i a, (recordsOf m madt offs t)[i]? = some a →
    read s.mem (tbl t + BitVec.ofNat 64 (8 * i)) = a
  frame : ∀ x, (∀ t, x ∉ span (tbl t) (8 * (recordsOf m madt offs t).length)) → s.mem x = m x

/-- The seven tables share no byte with each other or with the MADT. -/
structure Buffers (madt : BitVec 64) (stop : Nat) (tbl : MadtTable → BitVec 64) : Prop where
  apart : ∀ t u, t ≠ u → Disjoint (span (tbl t) acpiApicTblSize) (span (tbl u) acpiApicTblSize)
  table : ∀ t, Disjoint (span (tbl t) acpiApicTblSize) (span madt stop)

variable {m : Mem} {madt : BitVec 64} {tbl : MadtTable → BitVec 64} {stop off : Nat}
  {offs : List Nat} {s : MadtState}

theorem recordsOf_append (offs offs' : List Nat) (t : MadtTable) :
    recordsOf m madt (offs ++ offs') t = recordsOf m madt offs t ++ recordsOf m madt offs' t := by
  simp only [recordsOf, List.filter_append, List.map_append]

theorem recordsOf_singleton (off : Nat) (t : MadtTable) :
    recordsOf m madt [off] t =
      if tableOf (byteAt m madt off) = some t then [madt + BitVec.ofNat 64 off] else [] := by
  by_cases h : tableOf (byteAt m madt off) = some t
  · simp [recordsOf, h]
  · simp [recordsOf, h]

/-- The address of the entry that a round stores at. -/
theorem store_addr {t : MadtTable} {c : Nat} (htbl : s.tbl = tbl)
    (hidx : s.idx t = BitVec.ofNat 64 c) :
    s.tbl t + 8 * s.idx t = tbl t + BitVec.ofNat 64 (8 * c) := by
  rw [htbl, hidx, BitVec.ofNat_mul]
  rfl

/-- Where a round goes on, by the length byte that it reads. -/
theorem next_ptr (hptr : s.ptr = madt + BitVec.ofNat 64 off)
    (hbyte : s.mem (madt + BitVec.ofNat 64 (off + 1)) = byteAt m madt (off + 1)) :
    s.ptr + (s.mem (s.ptr + 1)).setWidth 64 =
      madt + BitVec.ofNat 64 (off + recordLength m madt off) := by
  rw [BitVec.ofNat_add, ← BitVec.add_assoc] at hbyte
  rw [hptr, BitVec.ofNat_add, ← BitVec.add_assoc, recordLength, ← hbyte]
  congr 1
  exact BitVec.eq_of_toNat_eq (by simp)

/-- The bytes of the MADT stay. -/
theorem Decoded.byte (h : Decoded m madt tbl offs s) (hb : Buffers madt stop tbl)
    (hmax : ∀ t, (recordsOf m madt offs t).length ≤ 32) {i : Nat} (hi : i < stop)
    (hstop : stop < 18446744073709551616) : s.mem (madt + BitVec.ofNat 64 i) = byteAt m madt i := by
  refine h.frame _ fun t ht => ?_
  have hin : madt + BitVec.ofNat 64 i ∈ span madt stop := by
    rw [mem_span, toNat_sub_add madt (by omega)]
    exact hi
  have hsize : 8 * (recordsOf m madt offs t).length ≤ acpiApicTblSize := by
    have := hmax t
    unfold acpiApicTblSize; omega
  exact Set.disjoint_left.mp (hb.table t) (span_mono hsize ht) hin

/-- `Decoded` does not look at `ptr`. -/
theorem Decoded.with_ptr (h : Decoded m madt tbl offs s) (ptr : BitVec 64) :
    Decoded m madt tbl offs { s with ptr := ptr } :=
  ⟨h.tbl_eq, h.idx_eq, h.entry, h.frame⟩

/-- A record of an unknown type changes nothing. -/
theorem Decoded.skip (h : Decoded m madt tbl offs s) (ht : tableOf (byteAt m madt off) = none) :
    Decoded m madt tbl (offs ++ [off]) s := by
  have hrec : ∀ t, recordsOf m madt (offs ++ [off]) t = recordsOf m madt offs t := by
    intro t
    rw [recordsOf_append, recordsOf_singleton, ht, if_neg nofun, List.append_nil]
  exact ⟨h.tbl_eq, fun t => by rw [hrec, h.idx_eq], fun t i a hi => h.entry t i a (hrec t ▸ hi),
    fun x hx => h.frame x fun t => hrec t ▸ hx t⟩

/-- The word of an entry, in the table's bytes. -/
theorem entry_subset {a : BitVec 64} {i : Nat} (hi : i < 32) :
    span (a + BitVec.ofNat 64 (8 * i)) 8 ⊆ span a (8 * (i + 1)) := by
  intro x hx
  obtain ⟨-, h⟩ := (mem_span_offset (by omega) (by omega)).mp hx
  rw [mem_span]
  omega

theorem entry_subset_table {a : BitVec 64} {i : Nat} (hi : i < 32) :
    span (a + BitVec.ofNat 64 (8 * i)) 8 ⊆ span a acpiApicTblSize :=
  (entry_subset hi).trans (span_mono (by unfold acpiApicTblSize; omega))

/-- **A record is put behind those of its type.** -/
theorem Decoded.store (h : Decoded m madt tbl offs s) (hb : Buffers madt stop tbl) {t : MadtTable}
    (ht : tableOf (byteAt m madt off) = some t) (hptr : s.ptr = madt + BitVec.ofNat 64 off)
    (hmax : ∀ u, (recordsOf m madt (offs ++ [off]) u).length ≤ 32) :
    Decoded m madt tbl (offs ++ [off]) (s.store t) := by
  have hself : recordsOf m madt (offs ++ [off]) t =
      recordsOf m madt offs t ++ [madt + BitVec.ofNat 64 off] := by
    rw [recordsOf_append, recordsOf_singleton, if_pos ht]
  have hother : ∀ u, u ≠ t → recordsOf m madt (offs ++ [off]) u = recordsOf m madt offs u := by
    intro u hu
    rw [recordsOf_append, recordsOf_singleton, ht,
      if_neg (fun e => hu (Option.some.inj e).symm), List.append_nil]
  have hroom : (recordsOf m madt offs t).length < 32 := by
    have := hmax t
    rw [hself, List.length_append, List.length_singleton] at this
    omega
  have hmem : (s.store t).mem =
      write s.mem (tbl t + BitVec.ofNat 64 (8 * (recordsOf m madt offs t).length))
        (madt + BitVec.ofNat 64 off) := by
    rw [MadtState.store, store_addr h.tbl_eq (h.idx_eq t), hptr]
  refine ⟨h.tbl_eq, fun u => ?_, fun u i a hi => ?_, fun x hx => ?_⟩
  · by_cases hu : u = t
    · subst hu
      simp only [MadtState.store, Function.update_self, hself, h.idx_eq, List.length_append,
        List.length_singleton, BitVec.ofNat_add]
      rfl
    · simp only [MadtState.store, Function.update_of_ne hu, hother u hu, h.idx_eq]
  · rw [hmem]
    by_cases hu : u = t
    · subst hu
      rw [hself, List.getElem?_append] at hi
      split at hi
      · rename_i hlt
        rw [read_write_disjoint, h.entry u i a hi]
        rw [Set.disjoint_left]
        intro x hx hx'
        have h₀ := (mem_span_offset (by omega) (by omega)).mp hx
        have h₁ := (mem_span_offset (by omega) (by omega)).mp hx'
        omega
      · obtain ⟨hlen, -⟩ := List.getElem?_eq_some_iff.mp hi
        obtain rfl : i = (recordsOf m madt offs u).length := by
          rw [List.length_singleton] at hlen
          omega
        rw [Nat.sub_self, List.getElem?_cons_zero] at hi
        rw [read_write]
        exact Option.some.inj hi
    · -- another table shares no byte with the entry written
      rw [hother u hu] at hi
      obtain ⟨hlen, -⟩ := List.getElem?_eq_some_iff.mp hi
      rw [read_write_disjoint, h.entry u i a hi]
      have hlt : i < 32 := by
        have := hmax u
        rw [hother u hu] at this
        omega
      exact (hb.apart u t hu).mono (entry_subset_table hlt) (entry_subset_table hroom)
  · have hgrow : ∀ u, (recordsOf m madt offs u).length ≤
        (recordsOf m madt (offs ++ [off]) u).length := by
      intro u
      rw [recordsOf_append, List.length_append]
      exact Nat.le_add_right _ _
    rw [hmem, write_of_notMem, h.frame x]
    · exact fun u hu => hx u (span_mono (Nat.mul_le_mul_left 8 (hgrow u)) hu)
    · intro hword
      refine hx t (span_mono ?_ (entry_subset hroom hword))
      rw [hself, List.length_append, List.length_singleton]

/-- **One round** passes one record. -/
theorem Decoded.step (h : Decoded m madt tbl offs s) (hb : Buffers madt stop tbl)
    (hstop : stop < 18446744073709551616) (hptr : s.ptr = madt + BitVec.ofNat 64 off)
    (hoff : off + 2 ≤ stop) (hmax : ∀ t, (recordsOf m madt (offs ++ [off]) t).length ≤ 32) :
    Decoded m madt tbl (offs ++ [off]) s.record ∧
      s.record.ptr = madt + BitVec.ofNat 64 (off + recordLength m madt off) := by
  have hmax' : ∀ t, (recordsOf m madt offs t).length ≤ 32 := by
    intro t
    have := hmax t
    rw [recordsOf_append, List.length_append] at this
    omega
  have htype : s.mem s.ptr = byteAt m madt off := by
    rw [hptr]
    exact h.byte hb hmax' (by omega) hstop
  -- the length byte is read after the store
  have hnext : ∀ s' : MadtState, Decoded m madt tbl (offs ++ [off]) s' → s'.ptr = s.ptr →
      s'.ptr + (s'.mem (s'.ptr + 1)).setWidth 64 =
        madt + BitVec.ofNat 64 (off + recordLength m madt off) := by
    intro s' hs' hp
    exact next_ptr (hp.trans hptr) (hs'.byte hb hmax (by omega) hstop)
  rw [MadtState.record, htype]
  cases ht : tableOf (byteAt m madt off) with
  | none => exact ⟨(h.skip ht).with_ptr _, hnext s (h.skip ht) rfl⟩
  | some t =>
      have hs := h.store hb ht hptr hmax
      exact ⟨hs.with_ptr _, hnext _ hs rfl⟩

/-- **The loop** passes the records that tile the rest of the table, and ends. -/
theorem Decoded.walk {offs' : List Nat} (hb : Buffers madt stop tbl)
    (hstop : madt.toNat + stop < 18446744073709551616) (htiles : Tiles m madt stop off offs') :
    ∀ {offs : List Nat} {s : MadtState}, Decoded m madt tbl offs s →
    s.ptr = madt + BitVec.ofNat 64 off →
    (∀ t, (recordsOf m madt (offs ++ offs') t).length ≤ 32) →
    ∃ fuel s', walk (madt + BitVec.ofNat 64 stop) fuel s = some s' ∧
      Decoded m madt tbl (offs ++ offs') s' := by
  have hend : (madt + BitVec.ofNat 64 stop).toNat = madt.toNat + stop := toNat_add_ofNat hstop
  induction htiles with
  | done =>
      intro offs s h hptr _
      refine ⟨1, s, if_neg ?_, by rwa [List.append_nil]⟩
      rw [hptr]
      exact BitVec.lt_irrefl _
  | @record off offs' hlen hoff _ ih =>
      intro offs s h hptr hmax
      have happ : offs ++ off :: offs' = (offs ++ [off]) ++ offs' := by simp
      rw [happ] at hmax ⊢
      obtain ⟨hs, hp⟩ := h.step hb (by omega) hptr (by omega) fun t => by
        have := hmax t
        rw [recordsOf_append, List.length_append] at this
        omega
      obtain ⟨fuel, s', hw, hs'⟩ := ih hs hp hmax
      refine ⟨fuel + 1, s', ?_, hs'⟩
      rw [Firmware.walk, if_pos, hw]
      rw [hptr, BitVec.lt_def, hend, toNat_add_ofNat (by omega)]
      omega

/-- The state in which the loop begins. -/
def madtStart (m : Mem) (madt : BitVec 64) (tbl : MadtTable → BitVec 64) : MadtState where
  mem := m
  tbl := tbl
  idx := fun _ => 0
  ptr := madt + BitVec.ofNat 64 madtTableOffset

/-- What `acpi_find_sdt_tbl` finds lies in the first 4 GiB of the higher half. -/
theorem findFrom_cases (m : Mem) (rsdt : BitVec 64) (sig : Nat → BitVec 8) (k : Nat) : ∀ i : Nat,
    findFrom m rsdt sig i k = 0 ∨ ∃ w : BitVec 32, findFrom m rsdt sig i k =
      physToHh (w.setWidth 64) := by
  induction k with
  | zero => exact fun i => Or.inl rfl
  | succ k ih =>
      intro i
      rw [findFrom]
      split
      · exact Or.inr ⟨_, rfl⟩
      · exact ih (i + 1)

/-- The MADT ends well below the end of the address space. -/
theorem madt_room {acpi : Acpi} (hfind : acpiFindSdtTbl m acpi sigApic = some madt)
    (hmadt : madt ≠ 0) :
    madt.toNat + (sdtLength m madt).toNat + 256 < 18446744073709551616 := by
  have hlen := (sdtLength m madt).isLt
  rw [acpiFindSdtTbl] at hfind
  split at hfind
  · cases hfind
  · rcases findFrom_cases m acpi.rsdt sigApic _ 0 with h | ⟨w, h⟩
    · exact absurd ((Option.some.inj hfind).symm.trans h) hmadt
    · have hw := w.isLt
      have hval := congrArg BitVec.toNat ((Option.some.inj hfind).symm.trans h)
      rw [physToHh_setWidth_toNat] at hval
      omega

/-- With a MADT found, `madt_init` is its loop. -/
theorem madtInit_eq_walk {acpi : Acpi} {fuel : Nat}
    (hfind : acpiFindSdtTbl m acpi sigApic = some madt) (hmadt : madt ≠ 0) :
    madtInit m acpi tbl fuel =
      walk (madt + BitVec.ofNat 64 (sdtLength m madt).toNat) fuel (madtStart m madt tbl) := by
  have hlen : (sdtLength m madt).setWidth 64 = BitVec.ofNat 64 (sdtLength m madt).toNat :=
    BitVec.eq_of_toNat_eq (by simp)
  rw [madtInit, hfind]
  simp only [if_neg hmadt, hlen, madtStart]

/-- **MADT decoding**: the records tile the table from offset 44 to its length, there are at most 32
of each type, and the seven tables share no byte with each other or with it. -/
theorem madt_decoded {acpi : Acpi} (hfind : acpiFindSdtTbl m acpi sigApic = some madt)
    (hmadt : madt ≠ 0) (htiles : Tiles m madt (sdtLength m madt).toNat madtTableOffset offs)
    (hmax : ∀ t, (recordsOf m madt offs t).length ≤ 32)
    (hb : Buffers madt (sdtLength m madt).toNat tbl) :
    ∃ fuel s, madtInit m acpi tbl fuel = some s ∧ Decoded m madt tbl offs s := by
  have hroom := madt_room hfind hmadt
  have hstart : Decoded m madt tbl [] (madtStart m madt tbl) :=
    ⟨rfl, fun _ => rfl, fun t i a h => by simp [recordsOf] at h, fun x _ => rfl⟩
  obtain ⟨fuel, s, hw, hs⟩ := Decoded.walk hb (by omega) htiles hstart rfl hmax
  exact ⟨fuel, s, (madtInit_eq_walk hfind hmadt).trans hw, hs⟩

/-- Seven tables, one behind the other. -/
def tablesAt : MadtTable → BitVec 64
  | .procApic => 0x100000
  | .ioApic => 0x100100
  | .iosoApic => 0x100200
  | .ionmiApic => 0x100300
  | .nmiLapic => 0x100400
  | .addroLapic => 0x100500
  | .procx2Lapic => 0x100600

theorem buffers_tablesAt (h : stop ≤ 4096) : Buffers 0xffff800000002000 stop tablesAt := by
  refine ⟨fun t u hne => ?_, fun t => Disjoint.mono_right (span_mono h) ?_⟩
  · cases t <;> cases u <;>
      first
      | exact absurd rfl hne
      | exact disjoint_span (by decide) (by decide)
      | exact (disjoint_span (by decide) (by decide)).symm
  · cases t <;> exact disjoint_span (by decide) (by decide)

/-- The MADT of `firmwareRsdt`: a processor, an I/O APIC and a record of an unknown type. -/
theorem madt_decoded_rsdt : ∃ fuel s,
    madtInit firmwareRsdt ⟨0xffff800000001000, false⟩ tablesAt fuel = some s ∧
      Decoded firmwareRsdt 0xffff800000002000 tablesAt [44, 52, 64] s := by
  have hlen : (sdtLength firmwareRsdt 0xffff800000002000).toNat = 66 := by decide +kernel
  have h44 : recordLength firmwareRsdt 0xffff800000002000 44 = 8 := by decide +kernel
  have h52 : recordLength firmwareRsdt 0xffff800000002000 52 = 12 := by decide +kernel
  have h64 : recordLength firmwareRsdt 0xffff800000002000 64 = 2 := by decide +kernel
  refine madt_decoded (by decide +kernel) (by decide) ?_ (fun t => ?_)
    (buffers_tablesAt (by rw [hlen]; decide))
  · rw [hlen, show madtTableOffset = 44 from rfl]
    refine .record (by rw [h44]; decide) (by rw [h44]; decide) ?_
    rw [h44]
    refine .record (by rw [h52]; decide) (by rw [h52]; decide) ?_
    rw [h52]
    refine .record (by rw [h64]) (by rw [h64]) ?_
    rw [h64]
    exact .done
  · refine Nat.le_trans (Nat.le_of_eq (List.length_map _)) ?_
    exact Nat.le_trans (List.length_filter_le _ _) (by decide)

end FrazzOS.Firmware

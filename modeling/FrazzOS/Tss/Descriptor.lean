import FrazzOS.Support.Fields
import Mathlib.Tactic.Common

/-!
# Tss — Descriptor

`gdt_init` of `gdt/gdt.c` and `init_tss` of `tss/tss.c`: the descriptor table, and the descriptor of
the task state segment in it, which is to be the one of the selector `TSS_OFFSET`.

`init_tss` adds `TSS_OFFSET` to a pointer to descriptors of 16 bytes, so it writes `16 * TSS_OFFSET`
bytes behind the start of the table, which has 56.  It also casts two parts of the base to a byte
before it shifts them down.

* `decode_written`: what the bytes written stand for.
* `decode_selector`: the descriptor of the selector is the one that `gdt_init` left.
* `initTss_not_encoded`: the descriptor is encoded where it should be for no address.
-/

namespace FrazzOS.Tss

open Memory Fields

/-- `struct gdt_structured`. -/
structure GdtStructured where
  accessByte : BitVec 8
  flags : BitVec 8

/-- `gdt_structured`, as far as `gdt_init` encodes it. -/
def gdtStructured : List GdtStructured :=
  [⟨0x00, 0x00⟩, ⟨0x9A, 0xA⟩, ⟨0x92, 0xC⟩, ⟨0xFA, 0xA⟩, ⟨0xF2, 0xC⟩, ⟨0x89, 0x00⟩]

/-- `encode_gdt_entry`, for an entry of zeros. -/
def encodeGdtEntry (source : GdtStructured) : List (BitVec 8) :=
  [0, 0, 0, 0, 0, source.accessByte, source.flags <<< 4, 0]

/-- The `FRAZZOS_TOTAL_SEGMENTS` entries that `gdt_init` leaves; the last one stays cleared. -/
def gdtEntries : List (BitVec 8) :=
  gdtStructured.flatMap encodeGdtEntry ++ [0, 0, 0, 0, 0, 0, 0, 0]

def gdtInit (gdt : BitVec 64) (m : Mem) : Mem := withBytes m gdt gdtEntries

def tssOffset : BitVec 64 := 0x28

def tssSize : BitVec 16 := 0x67

/-- `sizeof(struct tss_descriptor)`. -/
def tssDescriptorSize : BitVec 64 := 16

/-- `struct tss_descriptor`, without its last field. -/
structure TssDescriptor where
  segmentLimit0_15 : BitVec 16
  baseAddr0_15 : BitVec 16
  baseAddr16_23 : BitVec 8
  flags : BitVec 16
  baseAddr24_31 : BitVec 8
  baseAddr32_63 : BitVec 32

/-- The descriptor in memory. -/
def TssDescriptor.bytes (d : TssDescriptor) : List (BitVec 8) :=
  le16 d.segmentLimit0_15 ++ le16 d.baseAddr0_15 ++ [d.baseAddr16_23] ++ le16 d.flags ++
    [d.baseAddr24_31] ++ le32 d.baseAddr32_63

/-- The fields that `init_tss` sets. -/
def tssDescriptor (tssPtr : BitVec 64) : TssDescriptor where
  baseAddr0_15 := (tssPtr &&& 0xFFFF).setWidth 16
  baseAddr16_23 := (tssPtr &&& 0xFF0000).setWidth 8 >>> 16
  baseAddr24_31 := (tssPtr &&& 0xFF000000).setWidth 8 >>> 24
  baseAddr32_63 := ((tssPtr &&& 0xFFFFFFFF00000000) >>> 32).setWidth 32
  segmentLimit0_15 := tssSize
  flags := 0b1001 ||| 1 <<< 7

/-- `(struct tss_descriptor*)&gdt + TSS_OFFSET`. -/
def descriptorAddr (gdt : BitVec 64) : BitVec 64 := gdt + tssOffset * tssDescriptorSize

/-- The bytes that `init_tss` writes, by address. -/
def written (gdt tssPtr : BitVec 64) : Set (BitVec 64) :=
  span (descriptorAddr gdt) (tssDescriptor tssPtr).bytes.length

def initTss (gdt tssPtr : BitVec 64) (m : Mem) : Mem :=
  withBytes m (descriptorAddr gdt) (tssDescriptor tssPtr).bytes

/-- A system descriptor, as the CPU reads its 16 bytes. -/
structure SystemDescriptor where
  base : BitVec 64
  limit : BitVec 20
  typeByte : BitVec 8
  deriving DecidableEq

def decode (m : Mem) (a : BitVec 64) : SystemDescriptor where
  base := read32 m (a + 8) ++ m (a + 7) ++ m (a + 4) ++ read16 m (a + 2)
  limit := (m (a + 6)).setWidth 4 ++ read16 m a
  typeByte := m (a + 5)

/-- After `init_tss` the 16 bytes at `TSS_OFFSET` in the table are the descriptor of the segment,
and no other byte has been written. -/
structure Encoded (gdt tssPtr : BitVec 64) (m : Mem) : Prop where
  descriptor : decode (initTss gdt tssPtr m) (gdt + tssOffset) =
    ⟨tssPtr, tssSize.setWidth 20, 0x89⟩
  inside : written gdt tssPtr ⊆ span (gdt + tssOffset) 16

variable {gdt tssPtr a : BitVec 64} {m : Mem} {d : TssDescriptor}

/-! ### The descriptor written -/

/-- A field of one byte. -/
theorem bytes_at (m : Mem) (a : BitVec 64) (d : TssDescriptor) {i : Nat} (hi : i < 12) :
    withBytes m a d.bytes (a + BitVec.ofNat 64 i) = d.bytes.getD i 0 :=
  withBytes_at hi (by show 12 ≤ _; decide)

/-- **The decoder reads the fields of a descriptor.** -/
theorem decode_bytes (m : Mem) (a : BitVec 64) (d : TssDescriptor) :
    decode (withBytes m a d.bytes) a =
      { base := d.baseAddr32_63 ++ d.baseAddr24_31 ++ d.baseAddr16_23 ++ d.baseAddr0_15
        limit := (d.flags >>> 8).setWidth 4 ++ d.segmentLimit0_15
        typeByte := d.flags.setWidth 8 } := by
  have hlimit : read16 (withBytes m a d.bytes) a = d.segmentLimit0_15 := by
    have h := read16_le16 m a [] d.segmentLimit0_15 (le16 d.baseAddr0_15 ++ [d.baseAddr16_23] ++
      le16 d.flags ++ [d.baseAddr24_31] ++ le32 d.baseAddr32_63) (by simp)
    rw [List.length_nil, BitVec.add_zero] at h
    exact h
  have hlow : read16 (withBytes m a d.bytes) (a + 2) = d.baseAddr0_15 :=
    read16_le16 m a (le16 d.segmentLimit0_15) d.baseAddr0_15 ([d.baseAddr16_23] ++
      le16 d.flags ++ [d.baseAddr24_31] ++ le32 d.baseAddr32_63) (by simp)
  have hhigh : read32 (withBytes m a d.bytes) (a + 8) = d.baseAddr32_63 :=
    read32_le32 m a (le16 d.segmentLimit0_15 ++ le16 d.baseAddr0_15 ++ [d.baseAddr16_23] ++
      le16 d.flags ++ [d.baseAddr24_31]) d.baseAddr32_63 [] (by simp)
  have h₄ : withBytes m a d.bytes (a + 4) = d.baseAddr16_23 := bytes_at m a d (by decide)
  have h₅ : withBytes m a d.bytes (a + 5) = d.flags.setWidth 8 := bytes_at m a d (by decide)
  have h₆ : withBytes m a d.bytes (a + 6) = (d.flags >>> 8).setWidth 8 :=
    bytes_at m a d (by decide)
  have h₇ : withBytes m a d.bytes (a + 7) = d.baseAddr24_31 := bytes_at m a d (by decide)
  rw [decode, hlimit, hlow, hhigh, h₄, h₅, h₆, h₇, BitVec.setWidth_setWidth_of_le _ (by decide)]

/-- Two bytes of zeros in front of one another. -/
theorem append_zero_zero (x : BitVec 32) : x ++ 0#8 ++ 0#8 = x ++ 0#16 := by
  apply BitVec.eq_of_getLsbD_eq
  intro i hi
  simp only [BitVec.getLsbD_append, BitVec.getLsbD_zero]
  split
  · rw [if_pos (by omega)]
  · split
    · rw [if_pos (by omega)]
    · rw [if_neg (by omega), Nat.sub_sub]

/-- **What the bytes written stand for**: of the base the bits 16 to 31 are lost. -/
theorem decode_written (gdt tssPtr : BitVec 64) (m : Mem) :
    decode (initTss gdt tssPtr m) (descriptorAddr gdt) =
      { base := (tssPtr >>> 32).setWidth 32 ++ 0#16 ++ tssPtr.setWidth 16
        limit := tssSize.setWidth 20
        typeByte := 0x89 } := by
  rw [initTss, decode_bytes]
  simp only [tssDescriptor, mask_high, mask_low,
    setWidth_ushiftRight_eq_zero _ (show 8 ≤ 16 by decide),
    setWidth_ushiftRight_eq_zero _ (show 8 ≤ 24 by decide), SystemDescriptor.mk.injEq]
  exact ⟨congrArg (· ++ _) (append_zero_zero _), by decide, by decide⟩

/-- The base is right just for the addresses without those bits. -/
theorem base_written_iff (gdt tssPtr : BitVec 64) (m : Mem) :
    (decode (initTss gdt tssPtr m) (descriptorAddr gdt)).base = tssPtr ↔
      (tssPtr >>> 16).setWidth 16 = 0#16 := by
  have hsplit := append_parts tssPtr
  rw [decode_written]
  dsimp only
  constructor
  · intro h
    apply BitVec.eq_of_getLsbD_eq
    intro i hi
    have hbit := congrArg (BitVec.getLsbD · (16 + i)) (h.trans hsplit.symm)
    simp only [BitVec.getLsbD_append, Nat.add_sub_cancel_left, hi, if_true,
      if_neg (show ¬ 16 + i < 16 by omega)] at hbit
    exact hbit.symm
  · intro h
    rw [h] at hsplit
    exact hsplit

/-! ### The descriptor of the selector -/

/-- The bytes written lie behind the table. -/
theorem not_written_of_table {x : BitVec 64} (hx : (x - gdt).toNat < gdtEntries.length) :
    x ∉ written gdt tssPtr := by
  have hlen : gdtEntries.length = 56 := by decide
  have hoff : tssOffset * tssDescriptorSize = BitVec.ofNat 64 640 := by decide
  rw [hlen] at hx
  rw [written, descriptorAddr, hoff, mem_span_offset (by decide) (by show 640 + 12 ≤ _; decide)]
  omega

/-- The 16 bytes of a descriptor decide it. -/
theorem decode_congr {m' : Mem} {a' : BitVec 64}
    (h : ∀ i, i < 16 → m (a + BitVec.ofNat 64 i) = m' (a' + BitVec.ofNat 64 i)) :
    decode m a = decode m' a' := by
  have hfield : ∀ n i, n + i < 16 → m (a + BitVec.ofNat 64 n + BitVec.ofNat 64 i) =
      m' (a' + BitVec.ofNat 64 n + BitVec.ofNat 64 i) := by
    intro n i hi
    rw [add_ofNat_add, add_ofNat_add]
    exact h _ hi
  have hhigh : read32 m (a + 8) = read32 m' (a' + 8) :=
    read32_congr fun i hi => hfield 8 i (by omega)
  have hlow : read16 m (a + 2) = read16 m' (a' + 2) :=
    read16_congr fun i hi => hfield 2 i (by omega)
  have hlimit : read16 m a = read16 m' a' := read16_congr fun i hi => h i (by omega)
  have h₄ : m (a + 4) = m' (a' + 4) := h 4 (by decide)
  have h₅ : m (a + 5) = m' (a' + 5) := h 5 (by decide)
  have h₆ : m (a + 6) = m' (a' + 6) := h 6 (by decide)
  have h₇ : m (a + 7) = m' (a' + 7) := h 7 (by decide)
  rw [decode, decode, hhigh, hlow, hlimit, h₄, h₅, h₆, h₇]

/-- The table after `gdt_init` and `init_tss`. -/
theorem initTss_gdtInit {i : Nat} (hi : i < 56) :
    initTss gdt tssPtr (gdtInit gdt m) (gdt + BitVec.ofNat 64 i) = gdtEntries.getD i 0 := by
  have hlen : gdtEntries.length = 56 := by decide
  have hin : (gdt + BitVec.ofNat 64 i - gdt).toNat < gdtEntries.length := by
    rw [toNat_sub_add gdt (by omega), hlen]
    exact hi
  rw [initTss, withBytes_of_notMem (not_written_of_table hin), gdtInit,
    withBytes_at (by rw [hlen]; exact hi) (by rw [hlen]; decide)]

/-- **The descriptor of the selector** is the one that `gdt_init` left, with the base and the limit
`0`. -/
theorem decode_selector (gdt tssPtr : BitVec 64) (m : Mem) :
    decode (initTss gdt tssPtr (gdtInit gdt m)) (gdt + tssOffset) = ⟨0, 0, 0x89⟩ := by
  have hcongr : decode (initTss gdt tssPtr (gdtInit gdt m)) (gdt + tssOffset) =
      decode (fun x => gdtEntries.getD x.toNat 0) tssOffset := by
    refine decode_congr fun i hi => ?_
    have hsum : (tssOffset + BitVec.ofNat 64 i).toNat = 40 + i :=
      toNat_add_ofNat (show 40 + i < 18446744073709551616 by omega)
    rw [hsum, show tssOffset = BitVec.ofNat 64 40 from rfl, add_ofNat_add,
      initTss_gdtInit (by omega)]
  rw [hcongr]
  decide

/-- The first byte written is not among the 16 of the selector. -/
theorem not_written_inside (gdt tssPtr : BitVec 64) :
    ¬ written gdt tssPtr ⊆ span (gdt + tssOffset) 16 := by
  intro h
  have haddr : descriptorAddr gdt = gdt + BitVec.ofNat 64 640 := by
    rw [descriptorAddr, show tssOffset * tssDescriptorSize = BitVec.ofNat 64 640 by decide]
  have hmem : descriptorAddr gdt ∈ written gdt tssPtr := by
    rw [written, mem_span, BitVec.sub_self]
    show 0 < 12
    decide
  have hin := h hmem
  rw [show tssOffset = BitVec.ofNat 64 40 from rfl, mem_span_offset (by decide) (by decide), haddr,
    toNat_sub_add gdt (by decide)] at hin
  omega

/-- **The descriptor is encoded where it should be for no address.** -/
theorem initTss_not_encoded (gdt tssPtr : BitVec 64) (m : Mem) : ¬ Encoded gdt tssPtr m :=
  fun h => not_written_inside gdt tssPtr h.inside

/-- A segment whose address has bits 16 to 31: the descriptor of its selector has the base `0`. -/
theorem initTss_higher_half :
    decode (initTss 0xffffffff80010000 0xffffffff80021000
      (gdtInit 0xffffffff80010000 fun _ => 0)) (0xffffffff80010000 + tssOffset) = ⟨0, 0, 0x89⟩ ∧
    ¬ Encoded 0xffffffff80010000 0xffffffff80021000 (gdtInit 0xffffffff80010000 fun _ => 0) :=
  ⟨decode_selector _ _ _, fun h => not_written_inside _ _ h.inside⟩

end FrazzOS.Tss

import FrazzOS.Mm
import FrazzOS.Support.Memory
import Mathlib.Algebra.Ring.Nat

/-!
# Firmware — Acpi

The table lookup of `firmware/acpi.c`.  `acpi_init` checks the RSDP and sets up `rsdt`;
`acpi_find_sdt_tbl` goes through the entries of `rsdt` for the first table with a signature and a
valid checksum.  The bytes are those that the higher half shows, where the loop of `acpi_init` has
mapped the root.

`Lookup` states what the lookup should return, from the root that the RSDP's revision selects: an
RSDT of 32-bit pointers, or an XSDT of 64-bit ones.  The code reads an RSDT only: from revision 2
on it leaves `rsdt` null (`lookup_iff`).
-/

namespace FrazzOS.Firmware
open Memory

/-- `CHECKSUM_VALIDATE_SIZE`. -/
def checksumValidateSize : Nat := 20

/-- `SDT_SIG_LEN`. -/
def sdtSigLen : Nat := 4

/-- `sizeof(struct acpi_sdt_header)`. -/
def sdtHeaderSize : Nat := 36

/-- The byte at an offset from an address. -/
def byteAt (m : Mem) (a : BitVec 64) (i : Nat) : BitVec 8 := m (a + BitVec.ofNat 64 i)

/-- `memcmp` from byte `i` on, `k` bytes of it. -/
def memcmp (s1 s2 : Nat → BitVec 8) (i : Nat) : Nat → Int
  | 0 => 0
  | k + 1 =>
      if s1 i ≠ s2 i then (if s1 i < s2 i then -1 else 1)
      else memcmp s1 s2 (i + 1) k

/-- The `uint8_t` sum of the loops `sum += ptr[i]` over `n` bytes. -/
def sumBytes (m : Mem) (ptr : BitVec 64) (n : Nat) : BitVec 8 :=
  (List.range n).foldl (fun sum i => sum + byteAt m ptr i) 0

def rsdpValidateChecksum (m : Mem) (rsdp : BitVec 64) : Bool :=
  if sumBytes m rsdp checksumValidateSize &&& 0xFF ≠ 0 then false else true

/-- `rsdp->revision`. -/
def rsdpRevision (m : Mem) (rsdp : BitVec 64) : BitVec 8 := byteAt m rsdp 15

/-- `rsdp->rsdt_addr`, as a `uintptr_t`. -/
def rsdtAddr (m : Mem) (rsdp : BitVec 64) : BitVec 64 := (read32 m (rsdp + 16)).setWidth 64

/-- `rsdp->xsdt_addr`. -/
def xsdtAddr (m : Mem) (rsdp : BitVec 64) : BitVec 64 := read m (rsdp + 24)

/-- `header->length`. -/
def sdtLength (m : Mem) (header : BitVec 64) : BitVec 32 := read32 m (header + 4)

def sdtValidateSig (m : Mem) (header : BitVec 64) (sig : Nat → BitVec 8) : Bool :=
  if memcmp (byteAt m header) sig 0 sdtSigLen = 0 then true else false

def sdtValidateChecksum (m : Mem) (header : BitVec 64) : Bool :=
  if sumBytes m header (sdtLength m header).toNat &&& 0xFF = 0 then true else false

/-- A string of the kernel image. -/
def str (bytes : List (BitVec 8)) (i : Nat) : BitVec 8 := bytes.getD i 0

/-- `"RSDT"`. -/
def sigRsdt : Nat → BitVec 8 := str [0x52, 0x53, 0x44, 0x54]

/-- The globals `rsdt` and `acpi_version_2`. -/
structure Acpi where
  rsdt : BitVec 64
  acpiVersion2 : Bool

/-- `acpi_init` up to its call of `madt_init`; `none` where it stops with a panic. -/
def acpiRoot (m : Mem) (rsdp : BitVec 64) : Option Acpi :=
  if ¬ rsdpValidateChecksum m rsdp then none
  else if rsdpRevision m rsdp ≥ 2 then some ⟨0, true⟩
  else
    let rsdt := physToHh (rsdtAddr m rsdp)
    if ¬ sdtValidateSig m rsdt sigRsdt ∨ ¬ sdtValidateChecksum m rsdt then none
    else some ⟨rsdt, false⟩

/-- `phys_to_hh(rsdt->entries[i])`. -/
def rsdtEntry (m : Mem) (rsdt : BitVec 64) (i : Nat) : BitVec 64 :=
  physToHh ((read32 m (rsdt + BitVec.ofNat 64 (sdtHeaderSize + 4 * i))).setWidth 64)

/-- The loop of `acpi_find_sdt_tbl` from entry `i` on, `k` entries. -/
def findFrom (m : Mem) (rsdt : BitVec 64) (sig : Nat → BitVec 8) (i : Nat) : Nat → BitVec 64
  | 0 => 0
  | k + 1 =>
      let entry := rsdtEntry m rsdt i
      if sdtValidateSig m entry sig ∧ sdtValidateChecksum m entry then entry
      else findFrom m rsdt sig (i + 1) k

/-- `acpi_find_sdt_tbl`; `none` where it reads through a null `rsdt`. -/
def acpiFindSdtTbl (m : Mem) (acpi : Acpi) (sig : Nat → BitVec 8) : Option (BitVec 64) :=
  if acpi.rsdt = 0 then none
  else
    let numEntries := ((sdtLength m acpi.rsdt).setWidth 64 - BitVec.ofNat 64 sdtHeaderSize).toNat /
      (if acpi.acpiVersion2 then 8 else 4)
    some (findFrom m acpi.rsdt sig 0 numEntries)

/-! ### What the lookup is for -/

/-- The bytes of the table at `t` begin with `sig`, and they sum to `0` modulo 256. -/
def IsTable (m : Mem) (sig : Nat → BitVec 8) (t : BitVec 64) : Prop :=
  (∀ i, i < sdtSigLen → byteAt m t i = sig i) ∧
    ((List.range (sdtLength m t).toNat).map fun i => (byteAt m t i).toNat).sum % 256 = 0

instance (m : Mem) (sig : Nat → BitVec 8) (t : BitVec 64) : Decidable (IsTable m sig t) :=
  inferInstanceAs (Decidable (_ ∧ _))

/-- The root table that the RSDP's revision selects. -/
def rootTable (m : Mem) (rsdp : BitVec 64) : BitVec 64 :=
  physToHh (if rsdpRevision m rsdp < 2 then rsdtAddr m rsdp else xsdtAddr m rsdp)

/-- `"RSDT"` or `"XSDT"`. -/
def rootSig (m : Mem) (rsdp : BitVec 64) : Nat → BitVec 8 :=
  if rsdpRevision m rsdp < 2 then sigRsdt else str [0x58, 0x53, 0x44, 0x54]

/-- The root table is valid, and has room for its header. -/
def ValidRoot (m : Mem) (rsdp : BitVec 64) : Prop :=
  IsTable m (rootSig m rsdp) (rootTable m rsdp) ∧
    sdtHeaderSize ≤ (sdtLength m (rootTable m rsdp)).toNat

/-- The tables that the root lists, in its order. -/
def listed (m : Mem) (rsdp : BitVec 64) : List (BitVec 64) :=
  let root := rootTable m rsdp
  let room := (sdtLength m root).toNat - sdtHeaderSize
  if rsdpRevision m rsdp < 2 then (List.range (room / 4)).map (rsdtEntry m root)
  else (List.range (room / 8)).map fun i =>
    physToHh (read m (root + BitVec.ofNat 64 (sdtHeaderSize + 8 * i)))

/-- The first table listed that has the signature and a valid checksum, or the null pointer. -/
def firstListed (m : Mem) (rsdp : BitVec 64) (sig : Nat → BitVec 8) : BitVec 64 :=
  ((listed m rsdp).find? fun t => IsTable m sig t).getD 0

/-- After `acpi_init` has set up its root, every lookup returns the first table listed. -/
def Lookup (m : Mem) (rsdp : BitVec 64) : Prop :=
  ∀ sig, ∃ acpi, acpiRoot m rsdp = some acpi ∧
    acpiFindSdtTbl m acpi sig = some (firstListed m rsdp sig)

/-! ### The parts of the lookup -/

theorem memcmp_eq_zero {s1 s2 : Nat → BitVec 8} (k : Nat) : ∀ i : Nat,
    memcmp s1 s2 i k = 0 ↔ ∀ j, i ≤ j → j < i + k → s1 j = s2 j := by
  induction k with
  | zero => intro i; simp only [memcmp, true_iff]; intro j h₀ h₁; omega
  | succ k ih =>
      intro i
      rw [memcmp]
      by_cases he : s1 i = s2 i
      · rw [if_neg (by simpa using he), ih]
        constructor
        · intro h j h₀ h₁
          by_cases e : j = i
          · rw [e]; exact he
          · exact h j (by omega) (by omega)
        · exact fun h j h₀ h₁ => h j (by omega) (by omega)
      · rw [if_pos he]
        constructor
        · intro h
          split at h <;> cases h
        · exact fun h => absurd (h i (Nat.le_refl i) (by omega)) he

theorem sumBytes_toNat (m : Mem) (ptr : BitVec 64) (n : Nat) :
    (sumBytes m ptr n).toNat =
      ((List.range n).map fun i => (byteAt m ptr i).toNat).sum % 256 := by
  induction n with
  | zero => rfl
  | succ n ih =>
      have hstep : sumBytes m ptr (n + 1) = sumBytes m ptr n + byteAt m ptr n := by
        simp only [sumBytes, List.range_succ, List.foldl_append, List.foldl_cons, List.foldl_nil]
      rw [hstep, BitVec.toNat_add, ih]
      simp [List.range_succ]

theorem sdtValidateSig_iff {m : Mem} {t : BitVec 64} {sig : Nat → BitVec 8} :
    sdtValidateSig m t sig = true ↔ ∀ i, i < sdtSigLen → byteAt m t i = sig i := by
  rw [sdtValidateSig]
  simp [memcmp_eq_zero]

theorem sdtValidateChecksum_iff {m : Mem} {t : BitVec 64} :
    sdtValidateChecksum m t = true ↔
      ((List.range (sdtLength m t).toNat).map fun i => (byteAt m t i).toNat).sum % 256 = 0 := by
  rw [← sumBytes_toNat, sdtValidateChecksum, show (0xFF : BitVec 8) = BitVec.allOnes 8 by decide,
    BitVec.and_allOnes]
  simp [← BitVec.toNat_inj]

/-- The two checks of a table are those of the code. -/
theorem isTable_iff {m : Mem} {sig : Nat → BitVec 8} {t : BitVec 64} :
    IsTable m sig t ↔ sdtValidateSig m t sig = true ∧ sdtValidateChecksum m t = true := by
  rw [IsTable, sdtValidateSig_iff, sdtValidateChecksum_iff]

/-- The loop finds the first entry that is a table with the signature. -/
theorem findFrom_eq (m : Mem) (rsdt : BitVec 64) (sig : Nat → BitVec 8) (k : Nat) : ∀ i : Nat,
    findFrom m rsdt sig i k =
      (((List.range' i k).map (rsdtEntry m rsdt)).find? fun t => IsTable m sig t).getD 0 := by
  induction k with
  | zero => intro i; rfl
  | succ k ih =>
      intro i
      rw [findFrom, List.range'_succ, List.map_cons, List.find?_cons]
      by_cases h : IsTable m sig (rsdtEntry m rsdt i)
      · simp only [h, decide_true]
        rw [if_pos (isTable_iff.mp h)]
        rfl
      · simp only [h, decide_false]
        rw [if_neg (fun hc => h (isTable_iff.mpr hc)), ih]

/-- A 32-bit address in the higher half, with the distance to its end. -/
theorem physToHh_setWidth_toNat (w : BitVec 32) :
    (physToHh (w.setWidth 64)).toNat = 18446603336221196288 + w.toNat := by
  have := w.isLt
  rw [physToHh, BitVec.toNat_add, BitVec.toNat_setWidth]
  simp only [kernelVirtBaseAddr, BitVec.reduceToNat]
  omega

theorem physToHh_setWidth_ne_zero (w : BitVec 32) : physToHh (w.setWidth 64) ≠ 0 := by
  intro h
  have := congrArg BitVec.toNat h
  rw [physToHh_setWidth_toNat] at this
  simp at this

/-! ### The lookup and the revision -/

/-- The root of an accepted RSDP below revision 2. -/
theorem acpiRoot_of_lt {m : Mem} {rsdp : BitVec 64} (hacc : rsdpValidateChecksum m rsdp = true)
    (hroot : ValidRoot m rsdp) (hrev : rsdpRevision m rsdp < 2) :
    acpiRoot m rsdp = some ⟨rootTable m rsdp, false⟩ := by
  obtain ⟨hsig, hsum⟩ := isTable_iff.mp hroot.1
  simp only [rootTable, rootSig, if_pos hrev] at hsig hsum
  simp only [acpiRoot, hacc, hsig, hsum, rootTable, if_pos hrev, if_neg (BitVec.not_le.mpr hrev),
    not_true_eq_false, or_self, if_false]

/-- From revision 2 on `rsdt` stays null. -/
theorem acpiRoot_of_ge {m : Mem} {rsdp : BitVec 64} (hacc : rsdpValidateChecksum m rsdp = true)
    (hrev : ¬ rsdpRevision m rsdp < 2) : acpiRoot m rsdp = some ⟨0, true⟩ := by
  simp only [acpiRoot, hacc, if_pos (BitVec.not_lt.mp hrev), not_true_eq_false, if_false]

/-- Below revision 2 the lookup goes through the entries of the RSDT. -/
theorem acpiFindSdtTbl_of_lt {m : Mem} {rsdp : BitVec 64} (hroot : ValidRoot m rsdp)
    (hrev : rsdpRevision m rsdp < 2) (sig : Nat → BitVec 8) :
    acpiFindSdtTbl m ⟨rootTable m rsdp, false⟩ sig = some (firstListed m rsdp sig) := by
  have hne : rootTable m rsdp ≠ 0 := by
    rw [rootTable, if_pos hrev]
    exact physToHh_setWidth_ne_zero _
  have hlen := (sdtLength m (rootTable m rsdp)).isLt
  have hroom := hroot.2
  have hcount : ((sdtLength m (rootTable m rsdp)).setWidth 64 -
      BitVec.ofNat 64 sdtHeaderSize).toNat = (sdtLength m (rootTable m rsdp)).toNat -
        sdtHeaderSize := by
    unfold sdtHeaderSize at *
    rw [BitVec.toNat_sub, BitVec.toNat_setWidth, BitVec.toNat_ofNat]
    omega
  have hlist : listed m rsdp = (List.range' 0 (((sdtLength m (rootTable m rsdp)).toNat -
      sdtHeaderSize) / 4)).map (rsdtEntry m (rootTable m rsdp)) := by
    rw [listed, if_pos hrev, List.range_eq_range']
  rw [acpiFindSdtTbl, if_neg hne, firstListed, hlist]
  simp only [hcount, Bool.false_eq_true, if_false, findFrom_eq]

/-- **Root lookup across revisions**: with an accepted RSDP and a valid root, the lookup returns
the first table listed exactly when the revision is below 2. -/
theorem lookup_iff {m : Mem} {rsdp : BitVec 64} (hacc : rsdpValidateChecksum m rsdp = true)
    (hroot : ValidRoot m rsdp) : Lookup m rsdp ↔ rsdpRevision m rsdp < 2 := by
  constructor
  · intro h
    by_contra hrev
    obtain ⟨acpi, hacpi, hfind⟩ := h sigRsdt
    obtain rfl := Option.some.inj (hacpi.symm.trans (acpiRoot_of_ge hacc hrev))
    rw [acpiFindSdtTbl, if_pos rfl] at hfind
    cases hfind
  · exact fun hrev sig => ⟨_, acpiRoot_of_lt hacc hroot hrev, acpiFindSdtTbl_of_lt hroot hrev sig⟩

/-! ### Two firmwares -/

/-- The bytes of an RSDP, by its checksum, its revision and the second bytes of its two
addresses. -/
def rsdpBytes (sum revision rsdt xsdt : BitVec 8) : List (BitVec 8) :=
  [0x52, 0x53, 0x44, 0x20, 0x50, 0x54, 0x52, 0x20, sum, 0, 0, 0, 0, 0, 0, revision,
    0, rsdt, 0, 0, 36, 0, 0, 0, 0, xsdt, 0, 0, 0, 0, 0, 0, 0, 0, 0, 0]

/-- The bytes of a table with its signature, its length and checksum, and what follows the
header. -/
def sdtBytes (sig : List (BitVec 8)) (length sum : BitVec 8) (body : List (BitVec 8)) :
    List (BitVec 8) :=
  sig ++ [length, 0, 0, 0, 1, sum] ++ List.replicate 26 0 ++ body

/-- A MADT with the records of a processor, of an I/O APIC and of an unknown type. -/
def madtBytes : List (BitVec 8) :=
  sdtBytes [0x41, 0x50, 0x49, 0x43] 66 0x6c
    [0, 0, 0xe0, 0xfe, 1, 0, 0, 0, 0, 8, 0, 0, 1, 0, 0, 0,
      1, 12, 0, 0, 0, 0, 0xc0, 0xfe, 0, 0, 0, 0, 0x7f, 2]

/-- Where the firmware put the RSDP. -/
def rsdpAt : BitVec 64 := 0xffff8000000e0000

/-- Revision 0: an RSDT at `0x1000` that lists the MADT at `0x2000`. -/
def firmwareRsdt : Mem :=
  withBytes (withBytes (withBytes (fun _ => 0) rsdpAt (rsdpBytes 0xd1 0 0x10 0))
    0xffff800000001000 (sdtBytes [0x52, 0x53, 0x44, 0x54] 40 0x7a [0, 0x20, 0, 0]))
    0xffff800000002000 madtBytes

/-- Revision 2: an XSDT at `0x1000` that lists the MADT at `0x2000`. -/
def firmwareXsdt : Mem :=
  withBytes (withBytes (withBytes (fun _ => 0) rsdpAt (rsdpBytes 0xdf 2 0 0x10))
    0xffff800000001000
      (sdtBytes [0x58, 0x53, 0x44, 0x54] 44 0x70 [0, 0x20, 0, 0, 0, 0, 0, 0]))
    0xffff800000002000 madtBytes

theorem lookup_rsdt : Lookup firmwareRsdt rsdpAt :=
  (lookup_iff (by decide +kernel) ⟨by decide +kernel, by decide +kernel⟩).mpr (by decide +kernel)

/-- With an XSDT, whose MADT the lookup should find, `rsdt` is null when it is read. -/
theorem lookup_xsdt_fails :
    rsdpValidateChecksum firmwareXsdt rsdpAt = true ∧ ValidRoot firmwareXsdt rsdpAt ∧
      firstListed firmwareXsdt rsdpAt (str [0x41, 0x50, 0x49, 0x43]) = 0xffff800000002000 ∧
      ¬ Lookup firmwareXsdt rsdpAt := by
  refine ⟨by decide +kernel, ⟨by decide +kernel, by decide +kernel⟩, by decide +kernel, fun h => ?_⟩
  obtain ⟨acpi, hacpi, hfind⟩ := h sigRsdt
  obtain rfl := Option.some.inj
    (hacpi.symm.trans (acpiRoot_of_ge (by decide +kernel) (by decide +kernel)))
  rw [acpiFindSdtTbl, if_pos rfl] at hfind
  cases hfind

end FrazzOS.Firmware

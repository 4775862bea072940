import FrazzOS.Mm
import FrazzOS.Support.Memory

/-!
# Vmm — Tables

The page tables of `mm/vmm.c`: four levels of tables of 512 entries.  `vmm_map_page` and
`vmm_unmap_page` descend from the root and write a leaf entry; a table that is missing on the way
is a new frame from `pmm_alloc`.

A data access reaches physical memory at its own address or at its higher-half address
(`physAddr`).  The frames that `pmm_alloc` returns are a parameter; the state keeps a record of
the calls, each with the memory it found.
-/

namespace FrazzOS.Vmm
open Memory

/-- `INDEX_MASK`. -/
def indexMask : BitVec 64 := 511

/-- `PTE_PRESENT`. -/
def ptePresent : BitVec 32 := 0x01

/-- `PTE_READ_WRITE`. -/
def pteReadWrite : BitVec 32 := 0x02

/-- The physical address that a data access reaches. -/
def physAddr (addr : BitVec 64) : BitVec 64 :=
  if kernelVirtBaseAddr ≤ addr then hhToPhys addr else addr

/-- `&page_directory[index]`. -/
def entryAddr (pageDirectory index : BitVec 64) : BitVec 64 := physAddr (pageDirectory + 8 * index)

/-- `entry & ~(INDEX_MASK)`. -/
def tableOf (entry : BitVec 64) : BitVec 64 := entry &&& ~~~indexMask

/-- `(virt_addr & ((uint64_t)INDEX_MASK << shift)) >> shift`. -/
def levelIndex (shift : Nat) (virt : BitVec 64) : BitVec 64 :=
  (virt &&& (indexMask <<< shift)) >>> shift

/-- Physical memory, and the calls of `pmm_alloc(PAGE_SIZE)` so far: the memory each found, and the
frame it returned. -/
structure VmmState where
  mem : Mem
  calls : List (Mem × BitVec 64)

/-- `page_directory[index] = entry`. -/
def VmmState.store (s : VmmState) (pageDirectory index entry : BitVec 64) : VmmState :=
  { s with mem := write s.mem (entryAddr pageDirectory index) entry }

section Code

variable (frames : Nat → BitVec 64)

/-- `pmm_alloc(PAGE_SIZE)`. -/
def pmmAllocPage (s : VmmState) : BitVec 64 × VmmState :=
  let frame := frames s.calls.length
  (frame, { s with calls := (s.mem, frame) :: s.calls })

def vmmGetNextMapLevel (s : VmmState) (pageDirectory index : BitVec 64) (flags : BitVec 32) :
    BitVec 64 × VmmState :=
  if read s.mem (entryAddr pageDirectory index) &&& 1 ≠ 0 then
    (tableOf (read s.mem (entryAddr pageDirectory index)), s)
  else
    let (frame, s) := pmmAllocPage frames s
    let s := s.store pageDirectory index (frame ||| flags.signExtend 64)
    (tableOf (read s.mem (entryAddr pageDirectory index)), s)

/-- `vmm_map_page` and `vmm_unmap_page` up to the entry they write. -/
def setLeaf (s : VmmState) (rootPageDir virt : BitVec 64) (flags : BitVec 32) (leaf : BitVec 64) :
    VmmState :=
  let (level3, s) := vmmGetNextMapLevel frames s rootPageDir (levelIndex 39 virt) flags
  let (level2, s) := vmmGetNextMapLevel frames s level3 (levelIndex 30 virt) flags
  let (level1, s) := vmmGetNextMapLevel frames s level2 (levelIndex 21 virt) flags
  s.store level1 (levelIndex 12 virt) leaf

def vmmMapPage (s : VmmState) (rootPageDir phys virt : BitVec 64) (flags : BitVec 32) : VmmState :=
  setLeaf frames s rootPageDir virt flags (phys ||| flags.signExtend 64)

def vmmUnmapPage (s : VmmState) (rootPageDir virt : BitVec 64) : VmmState :=
  setLeaf frames s rootPageDir virt 0 0

end Code

/-! ### Frames and entries -/

/-- A page of physical memory, by its address: page-aligned, and below `2⁴⁷`, where a data access
reaches it at its own address. -/
structure Frame (f : BitVec 64) : Prop where
  aligned : f.toNat % pageSize = 0
  reachable : f.toNat < 140737488355328

/-- Entry `i` of the table in frame `t`. -/
def entry (m : Mem) (t : BitVec 64) (i : BitVec 9) : BitVec 64 :=
  read m (entryAddr t (i.setWidth 64))

abbrev Present (e : BitVec 64) : Prop := e &&& 1 ≠ 0

theorem not_present_zero : ¬ Present 0 := by decide

theorem toNat_entry_offset (i : BitVec 9) : (8 * i.setWidth 64 : BitVec 64).toNat = 8 * i.toNat := by
  have := i.isLt
  have h8 : (8 : BitVec 64).toNat = 8 := rfl
  rw [BitVec.toNat_mul, BitVec.toNat_setWidth, h8]
  omega

/-- An access through a frame's own address reaches the frame. -/
theorem entryAddr_toNat {t : BitVec 64} (ht : Frame t) (i : BitVec 9) :
    (entryAddr t (i.setWidth 64)).toNat = t.toNat + 8 * i.toNat := by
  have hlt := ht.reachable
  have hi := i.isLt
  have hoff : (t + 8 * i.setWidth 64).toNat = t.toNat + 8 * i.toNat := by
    rw [BitVec.toNat_add, toNat_entry_offset]
    omega
  have hbase : kernelVirtBaseAddr.toNat = 18446603336221196288 := by decide
  rw [entryAddr, physAddr, if_neg (by rw [BitVec.le_def]; omega), hoff]

/-- An access through a frame's higher-half address reaches the frame too. -/
theorem entryAddr_physToHh {t : BitVec 64} (ht : Frame t) (i : BitVec 9) :
    entryAddr (physToHh t) (i.setWidth 64) = entryAddr t (i.setWidth 64) := by
  have hlt := ht.reachable
  have ha := ht.aligned
  unfold pageSize at ha
  have hi := i.isLt
  have hoff : (t + 8 * i.setWidth 64).toNat = t.toNat + 8 * i.toNat := by
    rw [BitVec.toNat_add, toNat_entry_offset]
    omega
  have hbase : kernelVirtBaseAddr.toNat = 18446603336221196288 := by decide
  have hswap : physToHh t + 8 * i.setWidth 64 = physToHh (t + 8 * i.setWidth 64) := by
    rw [physToHh, physToHh, BitVec.add_assoc, BitVec.add_comm kernelVirtBaseAddr, BitVec.add_assoc]
  have hhh : (physToHh (t + 8 * i.setWidth 64)).toNat =
      t.toNat + 8 * i.toNat + kernelVirtBaseAddr.toNat := by
    rw [physToHh, BitVec.toNat_add, hoff]
    omega
  rw [entryAddr, entryAddr, hswap, physAddr, if_pos (by rw [BitVec.le_def]; omega),
    hhToPhys_physToHh, physAddr, if_neg (by rw [BitVec.le_def]; omega)]

theorem entryAddr_apart {t t' : BitVec 64} (ht : Frame t) (ht' : Frame t') {i i' : BitVec 9}
    (hne : ¬ (t' = t ∧ i' = i)) :
    Apart (entryAddr t' (i'.setWidth 64)) (entryAddr t (i.setWidth 64)) := by
  have h₀ := entryAddr_toNat ht i
  have h₁ := entryAddr_toNat ht' i'
  have hi := i.isLt
  have hi' := i'.isLt
  obtain ⟨ha, hp⟩ := ht
  obtain ⟨ha', hp'⟩ := ht'
  unfold pageSize at ha ha'
  refine apart_of_toNat (by omega) (by omega) ?_
  by_cases he : t' = t
  · have : i'.toNat ≠ i.toNat := fun e => hne ⟨he, BitVec.eq_of_toNat_eq e⟩
    subst he
    omega
  · have : t'.toNat ≠ t.toNat := fun e => he (BitVec.eq_of_toNat_eq e)
    omega

/-- **A stored entry**: it is read back, and no other entry changes. -/
theorem entry_store {s : VmmState} {t t' : BitVec 64} (ht : Frame t) (ht' : Frame t')
    (i i' : BitVec 9) (e : BitVec 64) :
    entry (s.store t (i.setWidth 64) e).mem t' i' =
      if t' = t ∧ i' = i then e else entry s.mem t' i' := by
  by_cases h : t' = t ∧ i' = i
  · obtain ⟨rfl, rfl⟩ := h
    rw [if_pos ⟨rfl, rfl⟩]
    exact read_write _ _ _
  · rw [if_neg h]
    exact read_write_apart (entryAddr_apart ht ht' h) e

theorem Frame.getLsbD {f : BitVec 64} (hf : Frame f) {k : Nat} (hk : k < 12) :
    f.getLsbD k = false := by
  have hmul : f.toNat = 2 ^ 12 * (f.toNat / 4096) := by
    have := hf.aligned
    unfold pageSize at this
    omega
  rw [BitVec.getLsbD, hmul, Nat.testBit_two_pow_mul, decide_eq_false (by omega), Bool.false_and]

theorem getLsbD_indexMask (k : Nat) : indexMask.getLsbD k = decide (k < 9) := by
  show Nat.testBit (2 ^ 9 - 1) k = decide (k < 9)
  exact Nat.testBit_two_pow_sub_one 9 k

/-- Bit `0`. -/
theorem and_one_ne_zero {w : Nat} (hw : 0 < w) (x : BitVec w) :
    x &&& 1 ≠ 0 ↔ x.getLsbD 0 = true := by
  have h := BitVec.and_one_eq_setWidth_ofBool_getLsbD (x := x)
  constructor
  · intro hne
    by_contra hz
    rw [Bool.not_eq_true] at hz
    rw [hz] at h
    exact hne (h.trans (by simp))
  · intro hb hz
    have hbit := congrArg (fun y : BitVec w => y.getLsbD 0) hz
    rw [BitVec.getLsbD_eq_getElem hw] at hb
    simp [hb, hw] at hbit

/-- The table of a link: the frame without the flags. -/
theorem tableOf_link {f : BitVec 64} (hf : Frame f) {flags : BitVec 32}
    (hflags : flags.toNat < 0x200) : tableOf (f ||| flags.signExtend 64) = f := by
  have hmsb : flags.msb = false := by
    rw [BitVec.msb_eq_decide, decide_eq_false_iff_not]
    omega
  rw [BitVec.signExtend_eq_setWidth_of_msb_false hmsb, tableOf]
  apply BitVec.eq_of_getLsbD_eq
  intro k hk
  rw [BitVec.getLsbD_and, BitVec.getLsbD_or, BitVec.getLsbD_not, getLsbD_indexMask,
    BitVec.getLsbD_setWidth]
  by_cases h9 : k < 9
  · simp [h9, hf.getLsbD (show k < 12 by omega)]
  · have hz : flags.getLsbD k = false := Nat.testBit_lt_two_pow
      (Nat.lt_of_lt_of_le hflags (Nat.pow_le_pow_right (by decide : 0 < 2) (Nat.not_lt.mp h9)))
    simp [h9, hz, hk]

/-- Bit `0` of an entry made of an address and flags. -/
theorem present_or (x : BitVec 64) (flags : BitVec 32) :
    Present (x ||| flags.signExtend 64) ↔ x.getLsbD 0 = true ∨ flags &&& ptePresent ≠ 0 := by
  rw [Present, ptePresent, and_one_ne_zero (by decide), and_one_ne_zero (by decide),
    BitVec.getLsbD_or, BitVec.getLsbD_signExtend]
  simp

/-- A link is present when its flags say so. -/
theorem present_link {f : BitVec 64} (hf : Frame f) (flags : BitVec 32) :
    Present (f ||| flags.signExtend 64) ↔ flags &&& ptePresent ≠ 0 := by
  rw [present_or, hf.getLsbD (by decide)]
  simp

end FrazzOS.Vmm

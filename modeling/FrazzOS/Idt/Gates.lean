import FrazzOS.Devices.Timer
import FrazzOS.Support.Fields
import FrazzOS.Support.Loops

/-!
# Idt — Gates

`idt_init` of `idt/idt.c`: the gates of the 256 vectors, from the words of `isr_stub_table`, with
three of them set again; and the vectors that the interrupt controllers are programmed with.

`idt.asm` emits 32 words of the table.  `idt_init` reads 256 of them, so the gates behind vector 31
but 32 and 33 come from whatever lies behind the table.

* `gateAddr_idtInit`: the address that each gate decodes to.
* `handled_iff`: the programmed vectors have handlers just where the words behind the table happen
  to be entries of stubs, for the vectors from 34 on.
* `idtInit_not_installed`: the handlers are never installed from the table alone.
-/

namespace FrazzOS.Idt

open Memory Fields Loops Devices

def kernelCs : BitVec 16 := 0x08

def idtGateInterrupt : BitVec 8 := 0b10001110

/-- `struct idt_entry`. -/
structure IdtEntry where
  isrLow : BitVec 16
  kernelCs : BitVec 16
  ist : BitVec 8
  attributes : BitVec 8
  isrMid : BitVec 16
  isrHigh : BitVec 32
  reserved : BitVec 32

def IdtEntry.bytes (e : IdtEntry) : List (BitVec 8) :=
  le16 e.isrLow ++ le16 e.kernelCs ++ [e.ist] ++ [e.attributes] ++ le16 e.isrMid ++
    le32 e.isrHigh ++ le32 e.reserved

/-- The descriptor that `idt_set_entry` fills in. -/
def idtEntry (interruptRoutine : BitVec 64) (flags : BitVec 8) : IdtEntry where
  isrLow := (interruptRoutine &&& 0xFFFF).setWidth 16
  kernelCs := kernelCs
  ist := 0
  attributes := flags
  isrMid := ((interruptRoutine &&& 0xFFFF0000) >>> 16).setWidth 16
  isrHigh := ((interruptRoutine &&& 0xFFFFFFFF00000000) >>> 32).setWidth 32
  reserved := 0

/-- `&idt[interrupt_code]`. -/
def entryAddr (idt : BitVec 64) (interruptCode : BitVec 8) : BitVec 64 :=
  idt + BitVec.ofNat 64 (16 * interruptCode.toNat)

def idtSetEntry (idt : BitVec 64) (interruptCode : BitVec 8) (interruptRoutine : BitVec 64)
    (flags : BitVec 8) (m : Mem) : Mem :=
  withBytes m (entryAddr idt interruptCode) (idtEntry interruptRoutine flags).bytes

/-- The address in the three fields of a gate, as the CPU puts them together. -/
def gateAddr (m : Mem) (idt : BitVec 64) (vector : BitVec 8) : BitVec 64 :=
  read32 m (entryAddr idt vector + 8) ++ read16 m (entryAddr idt vector + 6) ++
    read16 m (entryAddr idt vector)

/-- Where the linker put the handlers and the tables, and a memory with what `idt.asm` emits. -/
structure Image where
  idt : BitVec 64
  isrStubTable : BitVec 64
  isrStub : Nat → BitVec 64
  divideZeroException : BitVec 64
  timerIrq : BitVec 64
  keyboardIrq : BitVec 64
  mem : Mem
  emitted : ∀ i, i < 32 → read mem (isrStubTable + BitVec.ofNat 64 (8 * i)) = isrStub i

/-- `a` is the entry of a stub of `idt.asm`. -/
def Image.IsStub (p : Image) (a : BitVec 64) : Prop :=
  a = p.divideZeroException ∨ a = p.timerIrq ∨ a = p.keyboardIrq ∨ ∃ i, i < 32 ∧ a = p.isrStub i

/-- The memory, and the addresses of the words read from `isr_stub_table`, the last one first. -/
structure Loading where
  mem : Mem
  reads : List (BitVec 64)

/-- A round of the loop of `idt_init`. -/
def loadEntry (p : Image) (i : Nat) (s : Loading) : Loading where
  mem := idtSetEntry p.idt (BitVec.ofNat 8 i)
    (read s.mem (p.isrStubTable + BitVec.ofNat 64 (8 * i))) idtGateInterrupt s.mem
  reads := (p.isrStubTable + BitVec.ofNat 64 (8 * i)) :: s.reads

/-- `n` rounds of it. -/
def loadEntries (p : Image) (n : Nat) : Loading := countUp (loadEntry p) 0 n ⟨p.mem, []⟩

/-- The three gates that `idt_init` sets again. -/
def setNamed (p : Image) (s : Loading) : Loading where
  mem :=
    let m := idtSetEntry p.idt 0 p.divideZeroException idtGateInterrupt s.mem
    let m := idtSetEntry p.idt 32 p.timerIrq idtGateInterrupt m
    idtSetEntry p.idt 33 p.keyboardIrq idtGateInterrupt m
  reads := s.reads

/-- `FRAZZOS_TOTAL_IDT_ENTRIES`. -/
def frazzosTotalIdtEntries : Nat := 256

/-- `idt_init`. -/
def idtInit (p : Image) : Loading := setNamed p (loadEntries p frazzosTotalIdtEntries)

/-! ### The vectors -/

/-- `SPURIOUS_INT`. -/
def spuriousInt : BitVec 8 := 0xff

/-- The entries that `ioapic_init` sets up. -/
def SetUp (ioso : List Ioso) (e : Nat) : Prop :=
  (∃ o ∈ ioso, e = (o.gsi.setWidth 8).toNat) ∨ (e < numOfIrq ∧ ∀ o ∈ ioso, o.gsi.toNat ≠ e)

/-- The vector is that of the timer, of a spurious interrupt, or of one of those entries. -/
def Programmed (s : Ioapic) (ioso : List Ioso) (v : BitVec 8) : Prop :=
  v = s.lvtTimer.setWidth 8 ∨ v = spuriousInt ∨
    ∃ e, SetUp ioso e ∧ v = (readIoapicReg s (calcRedtblOffset e)).setWidth 8

/-- After boot every programmed vector has a gate for a stub, and the table was read inside of the
32 words that `idt.asm` emits. -/
structure Installed (p : Image) (regs : Nat → BitVec 32) (lvtTimer : BitVec 32)
    (ioso : List Ioso) : Prop where
  gates : ∀ (f : ℚ) femtoPerTick counter fuel initCount divideConfig s,
    apicTimerInit f femtoPerTick counter fuel
      ⟨ioapicInit regs lvtTimer ioso, initCount, divideConfig⟩ = some s →
    ∀ v, Programmed s.ioapic ioso v → p.IsStub (gateAddr (idtInit p).mem p.idt v)
  reads : ∀ a ∈ (idtInit p).reads, (a - p.isrStubTable).toNat + 8 ≤ 32 * 8

variable {p : Image} {idt routine : BitVec 64} {v w flags : BitVec 8} {m m' : Mem}

/-! ### One gate -/

/-- The three fields of an address, read back from a descriptor. -/
theorem read_bytes (m : Mem) (a : BitVec 64) (e : IdtEntry) :
    read16 (withBytes m a e.bytes) a = e.isrLow ∧
      read16 (withBytes m a e.bytes) (a + 6) = e.isrMid ∧
      read32 (withBytes m a e.bytes) (a + 8) = e.isrHigh := by
  refine ⟨?_, ?_, ?_⟩
  · have h := read16_le16 m a [] e.isrLow (le16 e.kernelCs ++ [e.ist] ++ [e.attributes] ++
      le16 e.isrMid ++ le32 e.isrHigh ++ le32 e.reserved) (by simp)
    rw [List.length_nil, BitVec.add_zero] at h
    exact h
  · exact read16_le16 m a (le16 e.isrLow ++ le16 e.kernelCs ++ [e.ist] ++ [e.attributes]) e.isrMid
      (le32 e.isrHigh ++ le32 e.reserved) (by simp)
  · exact read32_le32 m a (le16 e.isrLow ++ le16 e.kernelCs ++ [e.ist] ++ [e.attributes] ++
      le16 e.isrMid) e.isrHigh (le32 e.reserved) (by simp)

/-- **A gate decodes to the routine it was set to.** -/
theorem gateAddr_same (idt : BitVec 64) (v : BitVec 8) (routine : BitVec 64) (flags : BitVec 8)
    (m : Mem) : gateAddr (idtSetEntry idt v routine flags m) idt v = routine := by
  obtain ⟨hlow, hmid, hhigh⟩ := read_bytes m (entryAddr idt v) (idtEntry routine flags)
  rw [gateAddr, idtSetEntry, hlow, hmid, hhigh]
  dsimp only [idtEntry]
  rw [mask_low, mask_mid, mask_high, append_parts]

/-- A gate is decided by its 16 bytes. -/
theorem gateAddr_congr (h : ∀ i, i < 16 → m (entryAddr idt v + BitVec.ofNat 64 i) =
    m' (entryAddr idt v + BitVec.ofNat 64 i)) : gateAddr m idt v = gateAddr m' idt v := by
  rw [gateAddr, gateAddr]
  generalize entryAddr idt v = a at h ⊢
  have hfield : ∀ n i, n + i < 16 → m (a + BitVec.ofNat 64 n + BitVec.ofNat 64 i) =
      m' (a + BitVec.ofNat 64 n + BitVec.ofNat 64 i) := by
    intro n i hi
    rw [add_ofNat_add]
    exact h _ hi
  have hlow : read16 m a = read16 m' a := read16_congr fun i hi => h i (by omega)
  have hmid : read16 m (a + 6) = read16 m' (a + 6) :=
    read16_congr fun i hi => hfield 6 i (by omega)
  have hhigh : read32 m (a + 8) = read32 m' (a + 8) :=
    read32_congr fun i hi => hfield 8 i (by omega)
  rw [hlow, hmid, hhigh]

/-- A gate is set in its own 16 bytes. -/
theorem idtSetEntry_of_offset {x : BitVec 64}
    (h : (x - idt).toNat < 16 * w.toNat ∨ 16 * w.toNat + 16 ≤ (x - idt).toNat) :
    idtSetEntry idt w routine flags m x = m x := by
  have hw := w.isLt
  refine withBytes_of_notMem ?_
  show x ∉ span (idt + BitVec.ofNat 64 (16 * w.toNat)) 16
  rw [mem_span_offset (by omega) (by omega)]
  omega

/-- The other gates stay. -/
theorem gateAddr_other (h : v ≠ w) :
    gateAddr (idtSetEntry idt w routine flags m) idt v = gateAddr m idt v := by
  refine gateAddr_congr fun i hi => idtSetEntry_of_offset ?_
  have hv := v.isLt
  have hne : v.toNat ≠ w.toNat := fun he => h (BitVec.eq_of_toNat_eq he)
  rw [entryAddr, add_ofNat_add, toNat_sub_add idt (by omega)]
  omega

/-! ### The loop -/

theorem mem_loadEntry (p : Image) (i : Nat) (s : Loading) : (loadEntry p i s).mem =
    idtSetEntry p.idt (BitVec.ofNat 8 i)
      (read s.mem (p.isrStubTable + BitVec.ofNat 64 (8 * i))) idtGateInterrupt s.mem := rfl

theorem reads_loadEntry (p : Image) (i : Nat) (s : Loading) : (loadEntry p i s).reads =
    (p.isrStubTable + BitVec.ofNat 64 (8 * i)) :: s.reads := rfl

/-- The words of `isr_stub_table` that `n` rounds read. -/
theorem mem_reads_loadEntries {n : Nat} {a : BitVec 64} : a ∈ (loadEntries p n).reads ↔
    ∃ i, i < n ∧ a = p.isrStubTable + BitVec.ofNat 64 (8 * i) := by
  refine countUp_zero_inv (loadEntry p) (fun n s => a ∈ s.reads ↔
    ∃ i, i < n ∧ a = p.isrStubTable + BitVec.ofNat 64 (8 * i)) n (by simp) fun n s _ hs => ?_
  rw [reads_loadEntry, List.mem_cons, hs]
  constructor
  · rintro (rfl | ⟨i, hi, rfl⟩)
    · exact ⟨n, Nat.lt_succ_self n, rfl⟩
    · exact ⟨i, by omega, rfl⟩
  · rintro ⟨i, hi, rfl⟩
    rcases Nat.lt_or_eq_of_le (Nat.lt_succ_iff.mp hi) with hlt | rfl
    · exact Or.inr ⟨i, hlt, rfl⟩
    · exact Or.inl rfl

/-- Before the round `n` the gates below it are set, and nothing outside of the table of the gates
has been written. -/
structure Loaded (p : Image) (n : Nat) (m : Mem) : Prop where
  gates : ∀ v : BitVec 8, v.toNat < n →
    gateAddr m p.idt v = read p.mem (p.isrStubTable + BitVec.ofNat 64 (8 * v.toNat))
  frame : ∀ x, x ∉ span p.idt 4096 → m x = p.mem x

/-- A gate is set inside of the table. -/
theorem idtSetEntry_frame {x : BitVec 64} (h : x ∉ span idt 4096) :
    idtSetEntry idt w routine flags m x = m x := by
  have hw := w.isLt
  rw [mem_span] at h
  exact idtSetEntry_of_offset (Or.inr (by omega))

theorem mem_setNamed (p : Image) (s : Loading) : (setNamed p s).mem =
    idtSetEntry p.idt 33 p.keyboardIrq idtGateInterrupt
      (idtSetEntry p.idt 32 p.timerIrq idtGateInterrupt
        (idtSetEntry p.idt 0 p.divideZeroException idtGateInterrupt s.mem)) := rfl

theorem reads_setNamed (p : Image) (s : Loading) : (setNamed p s).reads = s.reads := rfl

theorem mem_reads_idtInit {a : BitVec 64} : a ∈ (idtInit p).reads ↔
    ∃ i, i < 256 ∧ a = p.isrStubTable + BitVec.ofNat 64 (8 * i) := by
  rw [idtInit, reads_setNamed, mem_reads_loadEntries, frazzosTotalIdtEntries]

/-- The routine of a vector: one of the three set by name, or a word of the table. -/
def Image.handler (p : Image) (v : BitVec 8) : BitVec 64 :=
  if v = 33 then p.keyboardIrq
  else if v = 32 then p.timerIrq
  else if v = 0 then p.divideZeroException
  else read p.mem (p.isrStubTable + BitVec.ofNat 64 (8 * v.toNat))

/-- Up to vector 33 a gate is for a stub. -/
theorem isStub_handler (h : v.toNat < 34) : p.IsStub (p.handler v) := by
  unfold Image.handler
  split
  · exact Or.inr (Or.inr (Or.inl rfl))
  · rename_i h33
    split
    · exact Or.inr (Or.inl rfl)
    · rename_i h32
      split
      · exact Or.inl rfl
      · have hne₁ : v.toNat ≠ 33 := fun he => h33 (BitVec.eq_of_toNat_eq he)
        have hne₂ : v.toNat ≠ 32 := fun he => h32 (BitVec.eq_of_toNat_eq he)
        have hlt : v.toNat < 32 := by omega
        exact Or.inr (Or.inr (Or.inr ⟨v.toNat, hlt, p.emitted _ hlt⟩))

/-- From vector 34 on it is for the word of the table. -/
theorem handler_behind (h : 34 ≤ v.toNat) :
    p.handler v = read p.mem (p.isrStubTable + BitVec.ofNat 64 (8 * v.toNat)) := by
  have hne : ∀ w : BitVec 8, w.toNat < 34 → v ≠ w := by
    rintro w hw rfl
    omega
  rw [Image.handler, if_neg (hne 33 (by decide)), if_neg (hne 32 (by decide)),
    if_neg (hne 0 (by decide))]

/-! ### Where the two tables lie apart -/

section Apart

variable (hapart : Disjoint (span p.isrStubTable 2048) (span p.idt 4096))

include hapart

/-- **A round** reads its word as it was at the start. -/
theorem loaded_succ {n : Nat} (hn : n < 256) {s : Loading} (h : Loaded p n s.mem) :
    Loaded p (n + 1) (loadEntry p n s).mem := by
  have hcode : (BitVec.ofNat 8 n).toNat = n := Nat.mod_eq_of_lt hn
  have hword : read s.mem (p.isrStubTable + BitVec.ofNat 64 (8 * n)) =
      read p.mem (p.isrStubTable + BitVec.ofNat 64 (8 * n)) := by
    refine read_congr fun i hi => h.frame _ (Set.disjoint_left.mp hapart ?_)
    rw [add_ofNat_add, mem_span, toNat_sub_add _ (by omega)]
    omega
  constructor
  · intro v hv
    by_cases he : v = BitVec.ofNat 8 n
    · rw [mem_loadEntry, he, gateAddr_same, hword, hcode]
    · have hne : v.toNat ≠ n := fun hn' => he (BitVec.eq_of_toNat_eq (hn'.trans hcode.symm))
      rw [mem_loadEntry, gateAddr_other he]
      exact h.gates v (by omega)
  · intro x hx
    rw [mem_loadEntry, idtSetEntry_frame hx, h.frame x hx]

/-- Some rounds. -/
theorem loaded_loadEntries {n : Nat} (hn : n ≤ 256) : Loaded p n (loadEntries p n).mem := by
  have hstart : Loaded p 0 p.mem := ⟨fun v hv => absurd hv (Nat.not_lt_zero _), fun _ _ => rfl⟩
  exact countUp_zero_inv (loadEntry p) (fun n s => Loaded p n s.mem) n hstart
    fun i s hi hs => loaded_succ hapart (by omega) hs

/-- **The gates after `idt_init`.** -/
theorem gateAddr_idtInit (v : BitVec 8) :
    gateAddr (idtInit p).mem p.idt v = p.handler v := by
  rw [idtInit, mem_setNamed, Image.handler]
  by_cases h33 : v = 33
  · rw [if_pos h33, h33, gateAddr_same]
  · rw [if_neg h33, gateAddr_other h33]
    by_cases h32 : v = 32
    · rw [if_pos h32, h32, gateAddr_same]
    · rw [if_neg h32, gateAddr_other h32]
      by_cases h0 : v = 0
      · rw [if_pos h0, h0, gateAddr_same]
      · rw [if_neg h0, gateAddr_other h0]
        exact (loaded_loadEntries hapart (Nat.le_refl _)).gates v v.isLt

/-- **When all of some vectors have handlers**: the words that `idt_init` finds behind the table,
for those from 34 on, are entries of stubs. -/
theorem handled_iff (vectors : BitVec 8 → Prop) :
    (∀ v, vectors v → p.IsStub (gateAddr (idtInit p).mem p.idt v)) ↔
      ∀ v, vectors v → 34 ≤ v.toNat →
        p.IsStub (read p.mem (p.isrStubTable + BitVec.ofNat 64 (8 * v.toNat))) := by
  constructor
  · intro h v hv h34
    rw [← handler_behind h34, ← gateAddr_idtInit hapart]
    exact h v hv
  · intro h v hv
    rw [gateAddr_idtInit hapart]
    by_cases h34 : 34 ≤ v.toNat
    · rw [handler_behind h34]
      exact h v hv h34
    · exact isStub_handler (Nat.lt_of_not_le h34)

end Apart

/-- The last word read lies behind the 32 that `idt.asm` emits. -/
theorem not_reads_inside (p : Image) :
    ¬ ∀ a ∈ (idtInit p).reads, (a - p.isrStubTable).toNat + 8 ≤ 32 * 8 := by
  intro h
  have hlast := h _ (mem_reads_idtInit.mpr ⟨255, by decide, rfl⟩)
  rw [toNat_sub_add _ (by decide)] at hlast
  omega

/-- **The handlers are never installed from the table alone**, wherever the tables and the stubs
lie and whatever the firmware says. -/
theorem idtInit_not_installed (p : Image) (regs : Nat → BitVec 32) (lvtTimer : BitVec 32)
    (ioso : List Ioso) : ¬ Installed p regs lvtTimer ioso :=
  fun h => not_reads_inside p h.reads

/-- Ones in the table, and zeros behind it. -/
def zerosBehind : Mem := fun x => if (x - 0xffffffff80020000).toNat < 256 then 1 else 0

def zerosImage : Image where
  idt := 0xffffffff80030000
  isrStubTable := 0xffffffff80020000
  isrStub i := read zerosBehind (0xffffffff80020000 + BitVec.ofNat 64 (8 * i))
  divideZeroException := 1
  timerIrq := 1
  keyboardIrq := 1
  mem := zerosBehind
  emitted _ _ := rfl

theorem zerosBehind_inside {i : Nat} (h : i < 256) :
    zerosBehind (zerosImage.isrStubTable + BitVec.ofNat 64 i) = 1 := by
  refine if_pos ?_
  show (zerosImage.isrStubTable + BitVec.ofNat 64 i - zerosImage.isrStubTable).toNat < 256
  rw [toNat_sub_add _ (by omega)]
  exact h

theorem zerosBehind_behind {i : Nat} (h : 256 ≤ i) (hi : i < 18446744073709551616) :
    zerosBehind (zerosImage.isrStubTable + BitVec.ofNat 64 i) = 0 := by
  refine if_neg ?_
  show ¬ (zerosImage.isrStubTable + BitVec.ofNat 64 i - zerosImage.isrStubTable).toNat < 256
  rw [toNat_sub_add _ hi]
  omega

/-- The word that becomes the gate for a spurious interrupt. -/
theorem read_zerosBehind :
    read zerosBehind (zerosImage.isrStubTable + BitVec.ofNat 64 (8 * spuriousInt.toNat)) = 0 := by
  rw [← read_zero (zerosImage.isrStubTable + BitVec.ofNat 64 (8 * spuriousInt.toNat))]
  refine read_congr fun i hi => ?_
  have hspurious : spuriousInt.toNat = 255 := by decide
  rw [add_ofNat_add, hspurious]
  exact zerosBehind_behind (by omega) (by omega)

/-- The stubs have odd addresses. -/
theorem zerosImage_not_isStub : ¬ zerosImage.IsStub 0 := by
  rintro (h | h | h | ⟨i, hi, h⟩)
  · exact absurd h (by decide)
  · exact absurd h (by decide)
  · exact absurd h (by decide)
  · have hodd : (zerosImage.isrStub i).getLsbD 0 = true := by
      refine (getLsbD_read zerosBehind _ 0).trans ?_
      show (zerosBehind (zerosImage.isrStubTable + BitVec.ofNat 64 (8 * i) +
        BitVec.ofNat 64 0)).getLsbD 0 = true
      rw [add_ofNat_add, zerosBehind_inside (by omega)]
      decide
    rw [← h] at hodd
    exact absurd hodd (by decide)

theorem zerosImage_apart :
    Disjoint (span zerosImage.isrStubTable 2048) (span zerosImage.idt 4096) :=
  disjoint_span (by decide) (by decide)

/-- The gate for a spurious interrupt is for the address `0`, which is not that of a stub. -/
theorem zerosImage_not_installed :
    gateAddr (idtInit zerosImage).mem zerosImage.idt spuriousInt = 0 ∧ ¬ zerosImage.IsStub 0 ∧
      ¬ Installed zerosImage (fun _ => 0) 0x10000 [] := by
  refine ⟨?_, zerosImage_not_isStub, fun h => not_reads_inside _ h.reads⟩
  rw [gateAddr_idtInit zerosImage_apart, handler_behind (by decide)]
  exact read_zerosBehind

/-- The two vectors behind those of the devices, with zeros behind the table. -/
theorem handled_iff_zeros :
    (∀ v : BitVec 8, v ∈ [34, 35] →
        zerosImage.IsStub (gateAddr (idtInit zerosImage).mem zerosImage.idt v)) ↔
      ∀ v : BitVec 8, v ∈ [34, 35] → 34 ≤ v.toNat → zerosImage.IsStub
        (read zerosImage.mem (zerosImage.isrStubTable + BitVec.ofNat 64 (8 * v.toNat))) :=
  handled_iff zerosImage_apart (· ∈ [34, 35])

end FrazzOS.Idt

import FrazzOS.Disk.Drive
import Mathlib.Logic.Function.Basic

/-!
# Disk — Read

`disk_read_block` of `disk/disk.c` on a drive.  `inw` of `devices/cpu.asm` reads the port that `DX`
holds: its argument is in `EDI`, and nothing moves it.  What `DX` holds at each call is a parameter
(`dx i j` for word `j` of sector `i`).

* `readSector_spec`: the 256 words of a sector that is ready, read from the data port.
* `readSectors_spec`: a run of sectors; `readSectors_none`: behind the last one that the drive
  delivers, the polling loop does not end.
* `read_block_iff`: `disk_read_block` leaves the addressed sectors in the buffer exactly when
  `total` is at most 256 and `DX` holds the data port at every call of `inw`.
-/

namespace FrazzOS.Disk

/-- `EINVARG`. -/
def einvarg : Int := -3

/-- The drive, the buffer as an array of `unsigned short`, the index of `ptr` in it, and the ports
of the word reads so far. -/
structure Reader where
  drive : Drive
  buf : Nat → BitVec 16
  ptr : Nat
  ports : List (BitVec 16)

/-- `inw(port)`. -/
def inw (md : Medium) (d : Drive) (_port dx : BitVec 16) : BitVec 16 × Drive := d.inWord md dx

/-- The polling loop, `fuel` status reads at most: the drive where a status with DRQ was read. -/
def poll : Nat → Drive → Option Drive
  | 0, _ => none
  | fuel + 1, d =>
      let (c, d') := d.status
      if c &&& 0x08 ≠ 0 then some d' else poll fuel d'

/-- `*ptr = inw(0x1f0); ptr++`. -/
def Reader.word (md : Medium) (r : Reader) (dx : BitVec 16) : Reader :=
  let (w, d) := inw md r.drive 0x1f0 dx
  { drive := d, buf := Function.update r.buf r.ptr w, ptr := r.ptr + 1, ports := r.ports ++ [dx] }

/-- The loop over the words of a sector, `k` of them. -/
def readWords (md : Medium) (dx : Nat → BitVec 16) (r : Reader) (k : Nat) : Reader :=
  (List.range k).foldl (fun r j => r.word md (dx j)) r

/-- The loop over the sectors from sector `i` on, `k` of them. -/
def readSectors (md : Medium) (dx : Nat → Nat → BitVec 16) (fuel : Nat) :
    Nat → Nat → Reader → Option Reader
  | _, 0, r => some r
  | i, k + 1, r =>
      match poll fuel r.drive with
      | none => none
      | some d => readSectors md dx fuel (i + 1) k (readWords md (dx i) { r with drive := d } 256)

/-- The command of `disk_read_sector`: `lba` and `total` are `int`s. -/
def command (md : Medium) (d : Drive) (lba total : BitVec 32) : Drive :=
  let d := d.outb md 0x1f6 ((lba.sshiftRight 24 ||| 0xe0).setWidth 8)
  let d := d.outb md 0x1f2 (total.setWidth 8)
  let d := d.outb md 0x1f3 ((lba &&& 0xff).setWidth 8)
  let d := d.outb md 0x1f4 ((lba.sshiftRight 8).setWidth 8)
  let d := d.outb md 0x1f5 ((lba.sshiftRight 16).setWidth 8)
  d.outb md 0x1f7 0x20

/-- `disk_read_sector`, with `fuel` status reads a sector at most; `none` when they run out. -/
def diskReadSector (md : Medium) (dx : Nat → Nat → BitVec 16) (fuel : Nat) (d : Drive)
    (lba total : BitVec 32) (buf : Nat → BitVec 16) : Option (Int × Reader) :=
  (readSectors md dx fuel 0 total.toInt.toNat ⟨command md d lba total, buf, 0, []⟩).map
    fun r => (0, r)

/-- `disk_read_block`, where `&disk` is `disk`. -/
def diskReadBlock (md : Medium) (dx : Nat → Nat → BitVec 16) (fuel : Nat) (d : Drive)
    (disk idisk : BitVec 64) (lba total : BitVec 32) (buf : Nat → BitVec 16) :
    Option (Int × Reader) :=
  if idisk ≠ disk then some (einvarg, ⟨d, buf, 0, []⟩)
  else diskReadSector md dx fuel d lba total buf

/-- The call ends, and leaves in the buffer the words of the sectors from `lba` on, `total` of them,
each read from the data port. -/
def ReadsSectors (md : Medium) (dx : Nat → Nat → BitVec 16) (d : Drive) (disk : BitVec 64)
    (lba total : BitVec 32) (buf : Nat → BitVec 16) : Prop :=
  ∃ fuel r, diskReadBlock md dx fuel d disk disk lba total buf = some (0, r) ∧
    (∀ k, r.buf k =
      if k < 256 * total.toInt.toNat then md.word (lba.toNat + k / 256) (k % 256) else buf k) ∧
    ∀ port ∈ r.ports, port = 0x1f0

variable {md : Medium} {dx : Nat → Nat → BitVec 16}

/-! ### The polling loop -/

theorem poll_idle {d : Drive} (h : d.left = 0) (fuel : Nat) : poll fuel d = none := by
  induction fuel with
  | zero => rfl
  | succ fuel ih =>
      have hs : d.status = (0x50, d) := if_pos h
      rw [poll, hs]
      exact ih

/-- A sector with data to come gets ready. -/
theorem poll_ready {fuel : Nat} : ∀ {d : Drive}, d.left ≠ 0 → d.wait < fuel →
    poll fuel d = some { d with wait := 0 } := by
  induction fuel with
  | zero => intro d _ h; omega
  | succ fuel ih =>
      intro d hleft hwait
      rw [poll]
      by_cases hz : d.wait = 0
      · have hs : d.status = (0x58, d) := by
          rw [Drive.status, if_neg hleft, if_pos hz]
        have hd : { d with wait := 0 } = d := by rw [← hz]
        rw [hs, hd]
        exact if_pos (by decide)
      · have hs : d.status = (0x80, { d with wait := d.wait - 1 }) := by
          rw [Drive.status, if_neg hleft, if_neg hz]
        rw [hs]
        exact ih (d := { d with wait := d.wait - 1 }) hleft (by simp only; omega)

/-- The drive that the loop ends with. -/
theorem poll_some {fuel : Nat} : ∀ {d d' : Drive}, d.left ≠ 0 → poll fuel d = some d' →
    d' = { d with wait := 0 } := by
  induction fuel with
  | zero => intro d d' _ h; cases h
  | succ fuel ih =>
      intro d d' hleft h
      by_cases hwait : d.wait < fuel + 1
      · exact Option.some.inj (h.symm.trans (poll_ready hleft hwait))
      · have hs : d.status = (0x80, { d with wait := d.wait - 1 }) := by
          rw [Drive.status, if_neg hleft, if_neg (by omega)]
        rw [poll, hs] at h
        exact ih (d := { d with wait := d.wait - 1 }) hleft h

/-! ### The words of a sector -/

/-- One word, when the drive has one. -/
theorem word_ready (md : Medium) {r : Reader} (hleft : r.drive.left ≠ 0)
    (hwait : r.drive.wait = 0) :
    r.word md 0x1f0 =
      { drive := r.drive.next md
        buf := Function.update r.buf r.ptr (md.word r.drive.lba r.drive.words)
        ptr := r.ptr + 1
        ports := r.ports ++ [0x1f0] } := by
  have hin : inw md r.drive 0x1f0 0x1f0 =
      (md.word r.drive.lba r.drive.words, r.drive.next md) := if_pos ⟨rfl, hleft, hwait⟩
  rw [Reader.word, hin]

/-- The ports of the words are those that `DX` held. -/
theorem readWords_ports (dx : Nat → BitVec 16) (r : Reader) (k : Nat) :
    (readWords md dx r k).ports = r.ports ++ (List.range k).map dx := by
  induction k with
  | zero => simp [readWords]
  | succ k ih =>
      have hstep : readWords md dx r (k + 1) = (readWords md dx r k).word md (dx k) := by
        simp only [readWords, List.range_succ, List.foldl_append, List.foldl_cons, List.foldl_nil]
      have hports : ((readWords md dx r k).word md (dx k)).ports =
          (readWords md dx r k).ports ++ [dx k] := rfl
      rw [hstep, hports, ih, List.range_succ, List.map_append, List.append_assoc]
      rfl

/-- The buffer with `k` words of a sector behind what was there. -/
def wordsAt (md : Medium) (sector start k : Nat) (buf : Nat → BitVec 16) (x : Nat) : BitVec 16 :=
  if start ≤ x ∧ x < start + k then md.word sector (x - start) else buf x

theorem wordsAt_succ (sector start k : Nat) (buf : Nat → BitVec 16) :
    Function.update (wordsAt md sector start k buf) (start + k) (md.word sector k) =
      wordsAt md sector start (k + 1) buf := by
  funext x
  by_cases hx : x = start + k
  · subst hx
    simp [wordsAt]
  · rw [Function.update_of_ne hx, wordsAt, wordsAt]
    have : (start ≤ x ∧ x < start + k) ↔ (start ≤ x ∧ x < start + (k + 1)) := by omega
    simp only [this]

/-- **The words of a sector that is ready**, up to the last one. -/
theorem readWords_spec {dx : Nat → BitVec 16} {r : Reader} (hdx : ∀ j, j < 256 → dx j = 0x1f0)
    (hleft : r.drive.left ≠ 0) (hwait : r.drive.wait = 0) (hwords : r.drive.words = 0) {k : Nat}
    (hk : k < 256) :
    (readWords md dx r k).drive = { r.drive with words := k } ∧
      (readWords md dx r k).ptr = r.ptr + k ∧
      (readWords md dx r k).buf = wordsAt md r.drive.lba r.ptr k r.buf := by
  induction k with
  | zero =>
      refine ⟨?_, rfl, ?_⟩
      · show r.drive = _
        rw [← hwords]
      · funext x
        have : ¬ (r.ptr ≤ x ∧ x < r.ptr + 0) := by omega
        simp only [wordsAt, this, if_false]
        rfl
  | succ k ih =>
      obtain ⟨hd, hp, hb⟩ := ih (by omega)
      have hstep : readWords md dx r (k + 1) = (readWords md dx r k).word md (dx k) := by
        simp only [readWords, List.range_succ, List.foldl_append, List.foldl_cons, List.foldl_nil]
      have hword := word_ready md (r := readWords md dx r k) (by rw [hd]; exact hleft)
        (by rw [hd]; exact hwait)
      rw [hstep, hdx k (by omega), hword]
      refine ⟨?_, by rw [hp, Nat.add_assoc], ?_⟩
      · rw [hd]
        exact if_neg (by simp only; omega)
      · rw [hd, hp, hb]
        exact wordsAt_succ _ _ _ _

/-- **A whole sector**: its words stand in the buffer, and the drive goes on to the next one. -/
theorem readSector_spec (md : Medium) {dx : Nat → BitVec 16} {r : Reader}
    (hdx : ∀ j, j < 256 → dx j = 0x1f0) (hleft : r.drive.left ≠ 0) (hwait : r.drive.wait = 0)
    (hwords : r.drive.words = 0) :
    (readWords md dx r 256).drive =
        { r.drive with
          lba := r.drive.lba + 1
          left := r.drive.left - 1
          wait := md.delay (r.drive.lba + 1)
          words := 0 } ∧
      (readWords md dx r 256).ptr = r.ptr + 256 ∧
      (readWords md dx r 256).buf = wordsAt md r.drive.lba r.ptr 256 r.buf := by
  obtain ⟨hd, hp, hb⟩ := readWords_spec hdx hleft hwait hwords (show 255 < 256 by decide)
  have hstep : readWords md dx r 256 = (readWords md dx r 255).word md (dx 255) := by
    simp only [readWords, List.range_succ (n := 255), List.foldl_append, List.foldl_cons,
      List.foldl_nil]
  have hword := word_ready md (r := readWords md dx r 255) (by rw [hd]; exact hleft)
    (by rw [hd]; exact hwait)
  rw [hstep, hdx 255 (by decide), hword]
  refine ⟨?_, by rw [hp], ?_⟩
  · rw [hd]
    show Drive.next md { r.drive with words := 255 } = _
    rw [Drive.next, if_pos rfl]
  · rw [hd, hp, hb]
    exact wordsAt_succ _ _ _ _

/-! ### The sectors of a call -/

/-- Sector `i` of a call is next: the words of those before it stand in the buffer, and of the `n`
sectors from `first` on that the drive delivers the others are left. -/
structure AtSector (md : Medium) (first n : Nat) (buf : Nat → BitVec 16) (i : Nat) (r : Reader) :
    Prop where
  lba : r.drive.lba = first + i
  left : r.drive.left = n - i
  wait : r.drive.wait = md.delay (first + i)
  words : r.drive.words = 0
  ptr : r.ptr = 256 * i
  filled : ∀ k, r.buf k = if k < 256 * i then md.word (first + k / 256) (k % 256) else buf k
  ports : ∀ port ∈ r.ports, port = 0x1f0

variable {first n i : Nat} {buf : Nat → BitVec 16} {r : Reader}

/-- **One sector** of a call. -/
theorem AtSector.step (h : AtSector md first n buf i r) (hi : i < n)
    (hdx : ∀ j, j < 256 → dx i j = 0x1f0) :
    AtSector md first n buf (i + 1)
      (readWords md (dx i) { r with drive := { r.drive with wait := 0 } } 256) := by
  have hleft : r.drive.left ≠ 0 := by
    have := h.left
    omega
  obtain ⟨hd, hp, hb⟩ := readSector_spec md
    (r := { r with drive := { r.drive with wait := 0 } }) hdx hleft rfl h.words
  refine ⟨by rw [hd, ← Nat.add_assoc, ← h.lba], ?_, by rw [hd, ← Nat.add_assoc, ← h.lba],
    by rw [hd], ?_, fun k => ?_, fun port hport => ?_⟩
  · rw [hd, ← Nat.sub_sub, ← h.left]
  · rw [hp, Nat.mul_succ, ← h.ptr]
  · have hlba := h.lba
    have hptr := h.ptr
    rw [hb]
    simp only [wordsAt, hlba, hptr, h.filled k]
    by_cases hlow : k < 256 * i
    · rw [if_neg (by omega), if_pos hlow, if_pos (by omega)]
    · by_cases hin : k < 256 * i + 256
      · have hdiv : k / 256 = i := by omega
        have hmod : k % 256 = k - 256 * i := by omega
        rw [if_pos ⟨by omega, hin⟩, if_pos (by omega), hdiv, hmod]
      · rw [if_neg (by omega), if_neg hlow, if_neg (by omega)]
  · rw [readWords_ports] at hport
    rcases List.mem_append.mp hport with hport | hport
    · exact h.ports port hport
    · obtain ⟨j, hj, rfl⟩ := List.mem_map.mp hport
      exact hdx j (List.mem_range.mp hj)

/-- **A run of sectors** that the drive delivers. -/
theorem readSectors_spec {fuel : Nat} (k : Nat) : ∀ {i : Nat} {r : Reader},
    AtSector md first n buf i r → i + k ≤ n →
    (∀ a, i ≤ a → a < i + k → md.delay (first + a) < fuel ∧ ∀ j, j < 256 → dx a j = 0x1f0) →
    ∃ r', readSectors md dx fuel i k r = some r' ∧ AtSector md first n buf (i + k) r' := by
  induction k with
  | zero => exact fun {i r} h _ _ => ⟨r, rfl, h⟩
  | succ k ih =>
      intro i r h hn ha
      obtain ⟨hfuel, hdx⟩ := ha i (Nat.le_refl i) (by omega)
      have hleft : r.drive.left ≠ 0 := by
        have := h.left
        omega
      obtain ⟨r', hr', hs⟩ := ih (h.step (by omega) hdx) (by omega)
        fun a h₀ h₁ => ha a (by omega) (by omega)
      refine ⟨r', ?_, by rwa [show i + (k + 1) = i + 1 + k by omega]⟩
      rw [readSectors, poll_ready hleft (h.wait ▸ hfuel)]
      exact hr'

/-- **Behind the last sector that the drive delivers** the polling loop does not end. -/
theorem readSectors_none {fuel : Nat} (k : Nat) : ∀ {i : Nat} {r : Reader},
    AtSector md first n buf i r → i ≤ n → n < i + k →
    (∀ a, i ≤ a → a < n → ∀ j, j < 256 → dx a j = 0x1f0) →
    readSectors md dx fuel i k r = none := by
  induction k with
  | zero => intro i r _ h₀ h₁; omega
  | succ k ih =>
      intro i r h hin hk hdx
      rw [readSectors]
      by_cases hi : i = n
      · rw [poll_idle (by rw [h.left, hi, Nat.sub_self])]
      · have hleft : r.drive.left ≠ 0 := by
          have := h.left
          omega
        cases hp : poll fuel r.drive with
        | none => rfl
        | some d =>
            obtain rfl := poll_some hleft hp
            exact ih (h.step (by omega) (hdx i (Nat.le_refl i) (by omega))) (by omega) (by omega)
              fun a h₀ h₁ => hdx a (by omega) h₁

/-- Every call of `inw` stands among the ports. -/
theorem readSectors_ports {fuel : Nat} (k : Nat) : ∀ {i : Nat} {r r' : Reader},
    readSectors md dx fuel i k r = some r' →
    (∀ port ∈ r.ports, port ∈ r'.ports) ∧
      ∀ a j, i ≤ a → a < i + k → j < 256 → dx a j ∈ r'.ports := by
  induction k with
  | zero =>
      intro i r r' h
      cases h
      exact ⟨fun _ hp => hp, fun a j h₀ h₁ => by omega⟩
  | succ k ih =>
      intro i r r' h
      rw [readSectors] at h
      cases hp : poll fuel r.drive with
      | none => rw [hp] at h; cases h
      | some d =>
          rw [hp] at h
          obtain ⟨hold, hnew⟩ := ih h
          rw [readWords_ports] at hold
          refine ⟨fun port hport => hold port (List.mem_append_left _ hport),
            fun a j h₀ h₁ hj => ?_⟩
          by_cases ha : a = i
          · subst ha
            exact hold _ (List.mem_append_right _ (List.mem_map_of_mem (List.mem_range.mpr hj)))
          · exact hnew a j (by omega) (by omega) hj

/-! ### The command -/

/-- The low four bits that the drive takes from the device register. -/
theorem or_device (x : BitVec 8) : (x ||| 0xe0).toNat % 16 = x.toNat % 16 := by
  have h : ∀ y : Fin 256, (BitVec.ofFin y ||| 0xe0#8).toNat % 16 = y.val % 16 := by decide +kernel
  exact h x.toFin

/-- The bytes of an LBA below `2²⁸`, as the `int` that it is shifted as. -/
theorem lbaByte (lba : BitVec 32) (h : lba.toNat < 268435456) (k : Nat) :
    ((lba.sshiftRight k).setWidth 8).toNat = lba.toNat / 2 ^ k % 256 := by
  have hmsb : lba.msb = false := by
    rw [BitVec.msb_eq_decide]
    simp only [decide_eq_false_iff_not]
    omega
  rw [BitVec.sshiftRight_eq_of_msb_false hmsb, BitVec.toNat_setWidth, BitVec.toNat_ushiftRight,
    Nat.shiftRight_eq_div_pow]

/-- **The registers of the command** hold the LBA and the low byte of `total`. -/
theorem command_spec (md : Medium) (d : Drive) {lba : BitVec 32} (total : BitVec 32)
    (h : lba.toNat < 268435456) :
    (command md d lba total).lba = lba.toNat ∧
      (command md d lba total).left = (if total.setWidth 8 = 0 then 256 else total.toNat % 256) ∧
      (command md d lba total).wait = md.delay lba.toNat ∧
      (command md d lba total).words = 0 := by
  let d' : Drive :=
    { d with
      device := (lba.sshiftRight 24 ||| 0xe0).setWidth 8
      sectorCount := total.setWidth 8
      lbaLow := (lba &&& 0xff).setWidth 8
      lbaMid := (lba.sshiftRight 8).setWidth 8
      lbaHigh := (lba.sshiftRight 16).setWidth 8 }
  have hcmd : command md d lba total = d'.startRead md := by
    simp [command, Drive.outb, d']
  have hlba : d'.lba28 = lba.toNat := by
    have hdev : d'.device.toNat % 16 = lba.toNat / 2 ^ 24 % 256 % 16 := by
      rw [← lbaByte lba h 24, ← or_device ((lba.sshiftRight 24).setWidth 8)]
      simp only [d', BitVec.setWidth_or]
      rfl
    have hlow : d'.lbaLow.toNat = lba.toNat % 256 := by
      have hand : (lba &&& 0xff).toNat = lba.toNat % 256 := by
        rw [BitVec.toNat_and]
        exact Nat.and_two_pow_sub_one_eq_mod _ 8
      show ((lba &&& 0xff).setWidth 8).toNat = _
      rw [BitVec.toNat_setWidth, hand]
      exact Nat.mod_mod _ _
    rw [Drive.lba28, hdev, hlow, lbaByte lba h 8, lbaByte lba h 16]
    omega
  rw [hcmd]
  refine ⟨hlba, ?_, by rw [← hlba]; rfl, rfl⟩
  show (if total.setWidth 8 = 0 then 256 else (total.setWidth 8).toNat) = _
  rw [BitVec.toNat_setWidth]

/-- The number of sectors that the drive delivers for a `total` of at least 1. -/
theorem sectors_of_total {total : BitVec 32} (h : 1 ≤ total.toInt) :
    (if total.setWidth 8 = 0 then 256 else total.toNat % 256) ≤ 256 ∧
      (total.toInt ≤ 256 →
        (if total.setWidth 8 = 0 then 256 else total.toNat % 256) = total.toInt.toNat) := by
  have hpos : total.toInt = total.toNat := by
    have := total.isLt
    rw [BitVec.toInt_eq_toNat_cond] at h ⊢
    split <;> omega
  have hzero : total.setWidth 8 = 0 ↔ total.toNat % 256 = 0 := by
    rw [← BitVec.toNat_inj, BitVec.toNat_setWidth]
    rfl
  simp only [hzero]
  constructor
  · split <;> omega
  · intro hle
    split <;> omega

/-- Status reads enough for every sector of a call. -/
theorem exists_fuel (md : Medium) (first n : Nat) :
    ∃ fuel, ∀ a, a < n → md.delay (first + a) < fuel := by
  induction n with
  | zero => exact ⟨0, fun a h => by omega⟩
  | succ n ih =>
      obtain ⟨fuel, hfuel⟩ := ih
      refine ⟨max fuel (md.delay (first + n) + 1), fun a h => ?_⟩
      by_cases ha : a = n
      · rw [ha]
        exact Nat.lt_of_lt_of_le (Nat.lt_succ_self _) (Nat.le_max_right _ _)
      · exact Nat.lt_of_lt_of_le (hfuel a (by omega)) (Nat.le_max_left _ _)

section Call

variable (md : Medium) (dx : Nat → Nat → BitVec 16) (d : Drive) (disk : BitVec 64)
  {lba total : BitVec 32} (buf : Nat → BitVec 16)

/-- The sectors of a call, once its command is written. -/
theorem diskReadBlock_eq (fuel : Nat) : diskReadBlock md dx fuel d disk disk lba total buf =
    (readSectors md dx fuel 0 total.toInt.toNat ⟨command md d lba total, buf, 0, []⟩).map
      fun r => (0, r) := by
  rw [diskReadBlock, if_neg (fun h => h rfl), diskReadSector]

theorem command_atSector (hlba : lba.toNat < 268435456) :
    AtSector md lba.toNat (if total.setWidth 8 = 0 then 256 else total.toNat % 256) buf 0
      ⟨command md d lba total, buf, 0, []⟩ := by
  obtain ⟨hc₁, hc₂, hc₃, hc₄⟩ := command_spec md d total hlba
  exact ⟨hc₁, hc₂, hc₃, hc₄, rfl, fun k => (if_neg (by omega)).symm, fun _ hp => by cases hp⟩

/-- A call that returns the addressed sectors. -/
theorem condition_of_readsSectors (hlba : lba.toNat < 268435456) (htotal : 1 ≤ total.toInt)
    (h : ReadsSectors md dx d disk lba total buf) :
    total.toInt ≤ 256 ∧ ∀ i j, i < total.toInt.toNat → j < 256 → dx i j = 0x1f0 := by
  obtain ⟨fuel, r, hread, -, hports⟩ := h
  rw [diskReadBlock_eq] at hread
  obtain ⟨r', hr', he⟩ := Option.map_eq_some_iff.mp hread
  obtain rfl := (Prod.mk.inj he).2
  have hdx : ∀ i j, i < total.toInt.toNat → j < 256 → dx i j = 0x1f0 := fun i j hi hj =>
    hports _ ((readSectors_ports _ hr').2 i j (Nat.zero_le i) (by omega) hj)
  refine ⟨?_, hdx⟩
  -- with more sectors than the drive delivers, the polling loop does not end
  by_contra hlt
  have hle := (sectors_of_total htotal).1
  have hnone : readSectors md dx fuel 0 total.toInt.toNat ⟨command md d lba total, buf, 0, []⟩ =
      none :=
    readSectors_none total.toInt.toNat (command_atSector md d buf hlba) (Nat.zero_le _) (by omega)
      fun a _ ha j hj => hdx a j (by omega) hj
  rw [hnone] at hr'
  cases hr'

/-- A call within the sector count, with `DX` at the data port. -/
theorem readsSectors_of_condition (hlba : lba.toNat < 268435456) (htotal : 1 ≤ total.toInt)
    (hle : total.toInt ≤ 256)
    (hdx : ∀ i j, i < total.toInt.toNat → j < 256 → dx i j = 0x1f0) :
    ReadsSectors md dx d disk lba total buf := by
  obtain ⟨fuel, hfuel⟩ := exists_fuel md lba.toNat total.toInt.toNat
  obtain ⟨r, hr, hs⟩ := readSectors_spec total.toInt.toNat (command_atSector md d buf hlba)
    (by rw [(sectors_of_total htotal).2 hle]; omega)
    fun a _ ha => ⟨hfuel a (by omega), fun j hj => hdx a j (by omega) hj⟩
  refine ⟨fuel, r, by rw [diskReadBlock_eq, hr]; rfl, fun k => ?_, hs.ports⟩
  rw [hs.filled, Nat.zero_add]

/-- **Disk reads return the addressed sectors** exactly when `total` is at most 256 and `DX` holds
the data port at every call of `inw`. -/
theorem read_block_iff (hlba : lba.toNat < 268435456) (htotal : 1 ≤ total.toInt) :
    ReadsSectors md dx d disk lba total buf ↔
      total.toInt ≤ 256 ∧ ∀ i j, i < total.toInt.toNat → j < 256 → dx i j = 0x1f0 :=
  ⟨condition_of_readsSectors md dx d disk buf hlba htotal,
    fun h => readsSectors_of_condition md dx d disk buf hlba htotal h.1 h.2⟩

end Call

/-- A medium whose words name their sector, and a drive at rest. -/
def numberedMedium : Medium where
  word l _ := BitVec.ofNat 16 l
  delay _ := 3
  other _ := 0x5050

def restingDrive : Drive := ⟨0, 0, 0, 0, 0, 0, 0, 0, 0⟩

/-- Two sectors, with `DX` at the data port. -/
theorem read_block_two :
    ReadsSectors numberedMedium (fun _ _ => 0x1f0) restingDrive 0x1000 5 2 fun _ => 0 :=
  (read_block_iff numberedMedium (fun _ _ => 0x1f0) restingDrive 0x1000 (fun _ => 0) (by decide)
    (by decide)).mpr ⟨by decide, fun _ _ _ _ => rfl⟩

/-- One sector more than the sector count holds; and one sector with `DX` still at the status port
that `inb` read last. -/
theorem read_block_fails :
    ¬ ReadsSectors numberedMedium (fun _ _ => 0x1f0) restingDrive 0x1000 0 257 (fun _ => 0) ∧
      ¬ ReadsSectors numberedMedium (fun _ _ => 0x1f7) restingDrive 0x1000 0 1 (fun _ => 0) := by
  constructor
  · intro h
    have := (condition_of_readsSectors _ _ _ _ _ (by decide) (by decide) h).1
    exact absurd this (by decide)
  · intro h
    have := (condition_of_readsSectors _ _ _ _ _ (by decide) (by decide) h).2 0 0 (by decide)
      (by decide)
    exact absurd this (by decide)

end FrazzOS.Disk

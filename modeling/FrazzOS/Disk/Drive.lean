import Mathlib.Algebra.Ring.Nat
import Mathlib.Tactic.Common

/-!
# Disk — Drive

An error-free ATA drive in PIO mode, as a read of sectors sees it.  The command `0x20` starts at
the 28-bit LBA in the registers; sector after sector, as many as the sector count says, the drive
raises DRQ once and gives the 256 words of the sector at the data port.

How many status reads a sector takes to get ready, and what a 16-bit read of any other port gives,
are parameters (`Medium`).
-/

namespace FrazzOS.Disk

/-- What the sectors hold, how many status reads each takes to get ready, and what a 16-bit read
of a port gives when the drive has no data for it. -/
structure Medium where
  word : Nat → Nat → BitVec 16
  delay : Nat → Nat
  other : BitVec 16 → BitVec 16

/-- The drive's registers; and of a read that has started, the sector to deliver next, how many are
left, the status reads until it is ready, and how many words of it are delivered. -/
structure Drive where
  sectorCount : BitVec 8
  lbaLow : BitVec 8
  lbaMid : BitVec 8
  lbaHigh : BitVec 8
  device : BitVec 8
  lba : Nat
  left : Nat
  wait : Nat
  words : Nat

/-- The LBA in the registers: the low four bits of the device register are its top. -/
def Drive.lba28 (d : Drive) : Nat :=
  d.device.toNat % 16 * 16777216 + d.lbaHigh.toNat * 65536 + d.lbaMid.toNat * 256 + d.lbaLow.toNat

/-- The number of sectors that the sector count stands for. -/
def Drive.sectors (d : Drive) : Nat := if d.sectorCount = 0 then 256 else d.sectorCount.toNat

/-- The command `0x20`. -/
def Drive.startRead (md : Medium) (d : Drive) : Drive :=
  { d with lba := d.lba28, left := d.sectors, wait := md.delay d.lba28, words := 0 }

/-- A byte written to a port of the drive. -/
def Drive.outb (md : Medium) (d : Drive) (port : BitVec 16) (val : BitVec 8) : Drive :=
  if port = 0x1f2 then { d with sectorCount := val }
  else if port = 0x1f3 then { d with lbaLow := val }
  else if port = 0x1f4 then { d with lbaMid := val }
  else if port = 0x1f5 then { d with lbaHigh := val }
  else if port = 0x1f6 then { d with device := val }
  else if port = 0x1f7 ∧ val = 0x20 then d.startRead md
  else d

/-- A read of the status port: DRQ is bit 3, and BSY bit 7. -/
def Drive.status (d : Drive) : BitVec 8 × Drive :=
  if d.left = 0 then (0x50, d)
  else if d.wait = 0 then (0x58, d)
  else (0x80, { d with wait := d.wait - 1 })

/-- The drive after one word of the sector. -/
def Drive.next (md : Medium) (d : Drive) : Drive :=
  if d.words + 1 = 256 then
    { d with lba := d.lba + 1, left := d.left - 1, wait := md.delay (d.lba + 1), words := 0 }
  else { d with words := d.words + 1 }

/-- A 16-bit read of a port. -/
def Drive.inWord (md : Medium) (d : Drive) (port : BitVec 16) : BitVec 16 × Drive :=
  if port = 0x1f0 ∧ d.left ≠ 0 ∧ d.wait = 0 then (md.word d.lba d.words, d.next md)
  else (md.other port, d)

end FrazzOS.Disk

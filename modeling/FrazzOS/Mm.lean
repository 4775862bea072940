import Mathlib.Tactic.Common

/-!
# Mm

The constants and address conversions of `mm/mm.h` and `mm/mm.c`.
-/

namespace FrazzOS

/-- `PAGE_SIZE`. -/
def pageSize : Nat := 4096

/-- `KERNEL_VIRT_BASE_ADDR`. -/
def kernelVirtBaseAddr : BitVec 64 := 0xffff800000000000

/-- `KERNEL_VIRT_TOP_ADDR`. -/
def kernelVirtTopAddr : BitVec 64 := 0xffffffff80000000

def physToHh (addr : BitVec 64) : BitVec 64 := addr + kernelVirtBaseAddr

def hhToPhys (addr : BitVec 64) : BitVec 64 := addr - kernelVirtBaseAddr

/-- `align_up`. -/
def alignUp (addr : BitVec 64) : BitVec 64 :=
  if addr % 0x1000 = 0 then addr else addr + (0x1000 - addr % 0x1000)

@[simp] theorem hhToPhys_physToHh (addr : BitVec 64) : hhToPhys (physToHh addr) = addr :=
  BitVec.add_sub_cancel addr kernelVirtBaseAddr

end FrazzOS

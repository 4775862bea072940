import FrazzOS.Heap.Blocks
import FrazzOS.Heap.Bounds
import FrazzOS.Heap.Bump
import FrazzOS.Heap.Exclusive
import FrazzOS.Heap.Fresh
import FrazzOS.Pmm.Complete
import FrazzOS.Pmm.Exclusive
import FrazzOS.Pmm.Exhaust
import FrazzOS.Pmm.Independence
import FrazzOS.Pmm.Init
import FrazzOS.Pmm.Storage
import FrazzOS.Pmm.Writes
import FrazzOS.Vmm.Tables
import FrazzOS.Vmm.Tree
import FrazzOS.Vmm.Refine
import FrazzOS.Vmm.Level
import FrazzOS.Vmm.Pool
import FrazzOS.Vmm.Rounds
import FrazzOS.Vmm.Boot
import FrazzOS.Vmm.Mmap
import FrazzOS.Vmm.Stores
import FrazzOS.Vmm.Unmap
import FrazzOS.Vmm.Oom
import FrazzOS.Vmm.Stale
import FrazzOS.Proc.Switch
import FrazzOS.Proc.Schedule
import FrazzOS.Proc.Current
import FrazzOS.Proc.Turn
import FrazzOS.Proc.Process
import FrazzOS.Proc.Cycle
import FrazzOS.Proc.Transparent
import FrazzOS.Proc.Insert
import FrazzOS.Devices.Ps2
import FrazzOS.Idt.Stub
import FrazzOS.Idt.Nested
import FrazzOS.Idt.Preempt
import FrazzOS.Idt.Registers
import FrazzOS.Firmware.Acpi
import FrazzOS.Firmware.Madt
import FrazzOS.Devices.Ioapic
import FrazzOS.Devices.Routing
import FrazzOS.Disk.Drive
import FrazzOS.Disk.Read
import FrazzOS.Smp.Startup
import FrazzOS.Bitmap.Stops
import FrazzOS.Pmm.Enough
import FrazzOS.Pmm.Accounts
import FrazzOS.Devices.Redirect
import FrazzOS.Devices.Sources
import FrazzOS.Graphics.Framebuffer
import FrazzOS.Proc.RoundRobin
import FrazzOS.Proc.Owned
import FrazzOS.Firmware.Ends
import FrazzOS.Firmware.Inside
import FrazzOS.Vmm.Rights
import FrazzOS.Vmm.Rsdt
import FrazzOS.Klibc.Memory
import FrazzOS.Graphics.Scroll
import FrazzOS.Klibc.String
import FrazzOS.Devices.Hpet
import FrazzOS.Devices.Timer
import FrazzOS.Devices.Command
import FrazzOS.Devices.Modifiers
import FrazzOS.Pmm.Fits
import FrazzOS.Support.Fields
import FrazzOS.Tss.Descriptor
import FrazzOS.Idt.Gates
import FrazzOS.Klibc.Hex
import FrazzOS.Flanterm.Typewriter
import FrazzOS.Klibc.Kprint
import FrazzOS.Graphics.Legible
import FrazzOS.Devices.Typing
import FrazzOS.Graphics.Kprint
import FrazzOS.Proc.Booted

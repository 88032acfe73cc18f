import KnutOS.Memory.PmmAccounting
import KnutOS.Memory.Paging
import KnutOS.Memory.Vmm
import KnutOS.Memory.VmmTree
import KnutOS.Memory.VmmRefinement
import KnutOS.Memory.VmmIsolation
import KnutOS.Libk.Math
import KnutOS.Memory.Slab
import KnutOS.Memory.SlabLayout
import KnutOS.Memory.SlabSafety
import KnutOS.Foundation.Bytes
import KnutOS.Libk.Kmalloc
import KnutOS.Libk.KmallocSafety
import KnutOS.Foundation.X86
import KnutOS.Interrupts.Isr
import KnutOS.Memory.BitmapSize
import KnutOS.Memory.SlabCalls
import KnutOS.Memory.SlabInvalidFree
import KnutOS.Memory.SlabAccounting
import KnutOS.Memory.SlabAvailability
import KnutOS.Libk.KmallocExhaustion
import KnutOS.Memory.VmmOwnership
import KnutOS.Memory.VmmPmm
import KnutOS.Memory.VmmUnmap
import KnutOS.Memory.VmmRights
import KnutOS.Memory.VmmInit
import KnutOS.Memory.VmmAddressable
import KnutOS.Firmware.Acpi
import KnutOS.Firmware.RsdtSearch
import KnutOS.Firmware.Madt
import KnutOS.Firmware.MadtBounds
import KnutOS.Firmware.MadtSearch
import KnutOS.Firmware.MadtRecords
import KnutOS.Firmware.MadtOverflow
import KnutOS.Interrupts.CpuState
import KnutOS.Interrupts.Idt
import KnutOS.Devices.Framebuffer
import KnutOS.Shell.ShellScreen
import KnutOS.Devices.ConsoleCursor
import KnutOS.Shell.PromptBarrier
import KnutOS.Devices.Keyboard
import KnutOS.Devices.KeyboardCommand
import KnutOS.Devices.Drawing
import KnutOS.Devices.KeyboardModifiers
import KnutOS.Devices.Scrolling
import KnutOS.Devices.Line
import KnutOS.Devices.Circle
import KnutOS.Devices.LinePath
import KnutOS.Devices.ConsoleBounds
import KnutOS.Devices.ConsoleReach
import KnutOS.Devices.ConsoleTyping
import KnutOS.Devices.ConsoleErasing
import KnutOS.Devices.ConsoleUndo
import KnutOS.Foundation.Sink
import KnutOS.Libk.Kprintf
import KnutOS.Libk.KprintfText
import KnutOS.Foundation.Numeral
import KnutOS.Libk.KprintfFormat
import KnutOS.Libk.KprintfOutput
import KnutOS.Libk.KprintfNumbers
import KnutOS.Libk.Ssfn
import KnutOS.Boot.Gdt
import KnutOS.Boot.Stivale2
import KnutOS.Devices.Cpu
import KnutOS.Devices.Pic
import KnutOS.Devices.Serial
import KnutOS.Interrupts.ExceptionReport
import KnutOS.Libk.KernelHeap
import KnutOS.Libk.Log

import HumanOS.Lib.Run
import HumanOS.Lib.Bitmap
import HumanOS.Lib.Bytes
import HumanOS.Lib.Pool
import HumanOS.Lib.Ring
import HumanOS.Lib.SlotMap
import HumanOS.Lib.Stack
import HumanOS.Lib.Writes
import HumanOS.Lib.Orbit
import HumanOS.Pmm.Model
import HumanOS.Pmm.Accounting
import HumanOS.Pmm.Multiboot
import HumanOS.Pmm.SetAllocator
import HumanOS.Pmm.Boot
import HumanOS.Pmm.BadFrees
import HumanOS.Pmm.UsableRam
import HumanOS.Pmm.MapWalk
import HumanOS.Pmm.MemorySize
import HumanOS.Lib.Chain
import HumanOS.Heap.Model
import HumanOS.Heap.Pages
import HumanOS.Heap.Invariant
import HumanOS.Heap.Free
import HumanOS.Heap.Alloc
import HumanOS.Heap.Ownership
import HumanOS.Heap.Effects
import HumanOS.Heap.Rollback
import HumanOS.Heap.Requests
import HumanOS.Heap.Bookkeeping
import HumanOS.Heap.Cycles
import HumanOS.Paging.Model
import HumanOS.Paging.Mapped
import HumanOS.Paging.Translation
import HumanOS.Vfs.Model
import HumanOS.Vfs.Table
import HumanOS.Vfs.Slots
import HumanOS.Vfs.Calls
import HumanOS.Vfs.Refinement
import HumanOS.Vfs.Mount
import HumanOS.Vfs.Entries
import HumanOS.Vfs.Faults
import HumanOS.Vfs.Names
import HumanOS.Vfs.Durable
import HumanOS.Vfs.Corrupt
import HumanOS.Scheduler.Model
import HumanOS.Scheduler.Stubs
import HumanOS.Scheduler.Switch
import HumanOS.Scheduler.Table
import HumanOS.Scheduler.Exits
import HumanOS.Scheduler.Lifetime
import HumanOS.Lib.Cyclic
import HumanOS.Scheduler.RoundRobin
import HumanOS.Scheduler.Waiting
import HumanOS.Scheduler.Machine
import HumanOS.Scheduler.Contexts
import HumanOS.Scheduler.Preemption
import HumanOS.Keyboard.Model
import HumanOS.Syscall.Model
import HumanOS.Syscall.Abi
import HumanOS.Syscall.Stub
import HumanOS.Keyboard.Input
import HumanOS.Lib.Lock
import HumanOS.Lib.Total
import HumanOS.Semaphore.Model
import HumanOS.Semaphore.Safety
import HumanOS.Elf.Model
import HumanOS.Elf.Segments
import HumanOS.Elf.Loaded
import HumanOS.Elf.Bounds
import HumanOS.Elf.Run
import HumanOS.Elf.Stored
import HumanOS.Shell.Model
import HumanOS.Shell.Commands
import HumanOS.Vfs.Sector
import HumanOS.Lib.Layout
import HumanOS.Vga.Model
import HumanOS.Vga.Screen
import HumanOS.Vga.Line
import HumanOS.Vga.Tail
import HumanOS.Libc.Model
import HumanOS.Libc.Numerals
import HumanOS.Libc.Printf
import HumanOS.Syscall.Write
import HumanOS.Shell.Editor
import HumanOS.Shell.Editing
import HumanOS.Shell.Entering
import HumanOS.Shell.InStep
import HumanOS.Lib.Newest
import HumanOS.Shell.History
import HumanOS.Lib.Waits
import HumanOS.Scheduler.Deadlock
import HumanOS.Pit.Model
import HumanOS.Pit.Slices
import HumanOS.Lib.Port
import HumanOS.Ata.Model
import HumanOS.Ata.Protocol
import HumanOS.Ata.Drive
import HumanOS.Ata.Refinement
import HumanOS.Ata.Identify
import HumanOS.Semaphore.Progress
import HumanOS.Shell.Session
import HumanOS.Shell.LineEditor
import HumanOS.Lib.Packed
import HumanOS.Interrupts.Descriptors
import HumanOS.Lib.Pic
import HumanOS.Interrupts.Delivery
import HumanOS.Interrupts.Exceptions
import HumanOS.Interrupts.Ports
import HumanOS.Serial.Model
import HumanOS.Serial.Line
import HumanOS.Power.Orderly
import HumanOS.Libc.Strings
import HumanOS.Boot.Pages
import HumanOS.Boot.KernelMain

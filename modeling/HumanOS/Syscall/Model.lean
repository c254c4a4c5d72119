import HumanOS.Heap.Model
import HumanOS.Keyboard.Model
import HumanOS.Scheduler.Model
import HumanOS.Vfs.Model

/-!
# System calls

The dispatcher of `kernel/syscall.c`, the wrappers beside it and those of `user/libc.c`. The
kernel is the parts the dispatcher reaches, with one console: what a part prints while it runs is
appended to the characters sent to the screen. Calls that read a C string or walk the block list
take fuel, and `none` means that they have not come to an end yet.
-/
namespace HumanOS

open Lib

/-- The registers the dispatcher reads from `registers_t`. -/
structure SysRegs where
  eax : Word
  ebx : Word
  ecx : Word
  edx : Word

structure Kernel where
  heap : Heap
  sched : Sched
  vfs : Vfs
  keyboard : Keyboard
  mem : Word → UInt8
  console : List (Char × Nat)
  serial : List Char

/-- The characters of a list of printed texts. -/
def cells (log : List (String × Nat)) : List (Char × Nat) :=
  log.flatMap fun e => e.1.toList.map fun c => (c, e.2)

namespace Kernel

def puts (k : Kernel) (text : String) (color : Nat) : Kernel :=
  { k with console := k.console ++ cells [(text, color)] }

/-- `serial_puts`, which sends a carriage return before each newline. -/
def serialPuts (k : Kernel) (text : String) : Kernel :=
  { k with
    serial := k.serial ++ text.toList.flatMap fun c => if c = '\n' then ['\r', c] else [c] }

/-- Run a scheduler function, printing to the one console. -/
def onSched (k : Kernel) (f : Sched → Sched) : Kernel :=
  let sched := f { k.sched with console := [] }
  { k with
    sched := { sched with console := k.sched.console }
    console := k.console ++ cells sched.console }

/-- The heap before a function of it runs. -/
def heapSilent (k : Kernel) : Heap := { k.heap with pmm := { k.heap.pmm with console := [] } }

/-- Take over what a heap function left, printing to the one console. -/
def setHeap (k : Kernel) (heap : Heap) : Kernel :=
  { k with
    heap := { heap with pmm := { heap.pmm with console := k.heap.pmm.console } }
    console := k.console ++ cells heap.pmm.console }

/-- Run a file system function, printing to the one console. -/
def onVfs (k : Kernel) (f : Vfs → Vfs) : Kernel :=
  let vfs := f { k.vfs with console := [] }
  { k with
    vfs := { vfs with console := k.vfs.console }
    console := k.console ++ cells vfs.console }

end Kernel

/-- A text to the screen and to the serial port. -/
def Kernel.putsBoth (k : Kernel) (text : String) (color : Nat) : Kernel :=
  (k.puts text color).serialPuts text

/-- What the two orderly ends have in common; the disk of this model has no cache to flush. -/
def powerDown (ok : Nat → Bool) (k : Kernel) (title last : String) : Kernel :=
  let k := k.putsBoth title 0x0C
  let k := k.putsBoth " [1/3] Syncing file system & flushing disk cache... " 0x0B
  let k := k.onVfs (vfsSync ok)
  let k := k.putsBoth "[OK]\n" 0x0A
  let k := k.putsBoth " [2/3] Terminating user & background processes...   " 0x0B
  let k := k.onSched schedulerTerminateAll
  let k := k.putsBoth "[OK]\n" 0x0A
  let k := k.putsBoth last 0x0B
  k.putsBoth "[OK]\n" 0x0A

/-- `power_reboot`, up to the reset signal. -/
def powerReboot (ok : Nat → Bool) (k : Kernel) : Kernel :=
  powerDown ok k "\n[POWER] Initiating orderly system reboot...\n"
    " [3/3] Sending reset signal to PS/2 controller...   "

/-- `power_shutdown`, up to the signals to the hypervisors. -/
def powerShutdown (ok : Nat → Bool) (k : Kernel) : Kernel :=
  (powerDown ok k "\n[POWER] Initiating orderly system shutdown...\n"
    " [3/3] Disabling interrupts and CPU multitasking... ").putsBoth
    "\n[POWER] System halted cleanly. Powering off...\n" 0x0A

/-- The bytes from an address up to the NUL. -/
def cString (mem : Word → UInt8) : Nat → Word → Option (List UInt8)
  | 0, _ => none
  | fuel + 1, a => if mem a = 0 then some [] else (cString mem fuel (a + 1)).map (mem a :: ·)

/-- The characters of a C string. -/
def textOf (bytes : List UInt8) : String := String.ofList (bytes.map fun b => Char.ofNat b.toNat)

/-- The loop of `SYS_READ`: that many bytes may still be read, `n` are read already. -/
def readLoop (buf : Word) : Nat → Nat → Kernel → Kernel × Nat
  | 0, n, k => (k, n)
  | room + 1, n, k =>
    let (keyboard, c) := keyboardGetchar k.keyboard
    let k := { k with keyboard }
    if c ≠ 0 then
      let k := { k with mem := Function.update k.mem (buf + BitVec.ofNat 32 n) c }
      if c = 10 ∨ c = 13 then (k, n + 1) else readLoop buf room (n + 1) k
    else (k, n)

/-- The case `SYS_WRITE`. -/
def sysWriteCase (fuel : Nat) (k : Kernel) (regs : SysRegs) : Option (Kernel × Word) :=
  let str := regs.ecx
  let count := regs.edx
  if regs.ebx = 1 ∨ regs.ebx = 2 then
    if str ≠ 0 then do
      let text ← cString k.mem fuel str
      let k := (k.puts "[SYS_WRITE] " 0x0A).puts (textOf text) 0x0F
      let k := if count ≠ 0 ∧ k.mem (str + (count - 1)) ≠ 10 then k.puts "\n" 0x0F else k
      return (k, count)
    else some (k, count)
  else some (k, -1)

/-- The case `SYS_READ`. -/
def sysReadCase (k : Kernel) (regs : SysRegs) : Kernel × Word :=
  if regs.ebx = 0 ∧ regs.ecx ≠ 0 ∧ regs.edx ≠ 0 then
    let (k, n) := readLoop regs.ecx regs.edx.toNat 0 k
    (k, BitVec.ofNat 32 n)
  else (k, 0)

def sysYield : Word := 0

def sysExit : Word := 1

def sysWrite : Word := 2

def sysMalloc : Word := 3

def sysGetpid : Word := 4

def sysRead : Word := 5

def sysFree : Word := 6

def sysShutdown : Word := 7

def sysReboot : Word := 8

/-- How a system call ends: back in the caller with `eax`, or with the machine. -/
inductive SyscallEnd where
  | returns (k : Kernel) (eax : Word)
  | off (k : Kernel)
  | reset (k : Kernel)

/-- `syscall_handler`; `ok` says which disk calls succeed and `currentEsp` is what a nested
`scheduler_yield` saves. -/
def syscallHandler (ok : Nat → Bool) (fuel : Nat) (currentEsp : Word) (k : Kernel)
    (regs : SysRegs) : Option SyscallEnd :=
  if regs.eax = sysYield then
    some (.returns (k.onSched fun s => schedulerYield s currentEsp) 0)
  else if regs.eax = sysExit then
    some (.returns (k.onSched fun s => processExit s regs.ebx.toInt currentEsp) regs.eax)
  else if regs.eax = sysWrite then
    (sysWriteCase fuel k regs).map fun out => .returns out.1 out.2
  else if regs.eax = sysRead then
    let out := sysReadCase k regs
    some (.returns out.1 out.2)
  else if regs.eax = sysMalloc then
    (kmalloc fuel k.heapSilent regs.ebx.toNat).map fun out =>
      .returns (k.setHeap out.1) (BitVec.ofNat 32 out.2)
  else if regs.eax = sysGetpid then
    some (.returns k (BitVec.ofNat 32 (schedulerGetCurrentPid k.sched)))
  else if regs.eax = sysFree then
    some (.returns (k.setHeap (kfree k.heapSilent regs.ebx.toNat)) 0)
  else if regs.eax = sysShutdown then some (.off (powerShutdown ok k))
  else if regs.eax = sysReboot then some (.reset (powerReboot ok k))
  else some (.returns (k.puts "[SYSCALL] Unknown syscall: " 0x1C) (-1))

/-- The services both sides have a wrapper for, with the arguments of a call. -/
inductive Service where
  | getpid
  | yield
  | exit (status : Word)
  | malloc (size : Word)
  | read (fd buf count : Word)
  | write (fd buf count : Word)

/-- What a wrapper returns of `eax`; `yield` and `exit` are void. -/
def Service.value : Service → Word → Option Word
  | .yield, _ => none
  | .exit _, _ => none
  | _, eax => some eax

/-- `syscall1`; the registers it does not load are left as they are. -/
def syscall1 (regs : SysRegs) (num arg1 : Word) : SysRegs := { regs with eax := num, ebx := arg1 }

/-- `syscall3`. -/
def syscall3 (num arg1 arg2 arg3 : Word) : SysRegs := ⟨num, arg1, arg2, arg3⟩

/-- The registers the wrappers of `user/libc.c` load. -/
def libcRegs (regs : SysRegs) : Service → SysRegs
  | .getpid => syscall1 regs 1 0
  | .yield => syscall1 regs 2 0
  | .exit status => syscall1 regs 3 status
  | .malloc size => syscall1 regs 4 size
  | .read fd buf count => syscall3 5 fd buf count
  | .write fd buf count => syscall3 6 fd buf count

/-- The registers the wrappers of `kernel/syscall.c` load. -/
def kernelRegs (regs : SysRegs) : Service → SysRegs
  | .getpid => { regs with eax := sysGetpid }
  | .yield => { regs with eax := sysYield }
  | .exit status => { regs with eax := sysExit, ebx := status }
  | .malloc size => { regs with eax := sysMalloc, ebx := size }
  | .read fd buf count => ⟨sysRead, fd, buf, count⟩
  | .write fd buf count => ⟨sysWrite, fd, buf, count⟩

end HumanOS

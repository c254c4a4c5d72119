import HumanOS.Lib.Bytes
import HumanOS.Lib.Stack

/-!
# The scheduler

The process table of `kernel/scheduler.c`. A process sits in the slot its pointer is stored in,
`none` being NULL, and keeps the address of its `process_t`, from which the top of its kernel
stack follows. Functions that end in a nested `scheduler_yield` take the stack pointer that
`scheduler_yield_asm` would pass on; the stack words themselves are the memory of the state.
-/
namespace HumanOS

open Lib

def maxProcesses : Nat := 16

def kernelStackSize : Nat := 4096

inductive ProcessState where
  | running
  | ready
  | blocked
  | terminated
deriving DecidableEq, Repr

/-- `process_t`; of the saved context only `esp` is ever read. -/
structure Process where
  addr : Word
  pid : Nat
  state : ProcessState
  exitCode : Int
  waitingForPid : Nat
  esp : Word
  entryPoint : Word
  name : String
deriving DecidableEq

/-- `&proc->kernel_stack[n]`: the array follows 16 bytes of fields and the 40 of the context. -/
def Process.kernelStack (p : Process) (n : Nat) : Word := p.addr + 56 + BitVec.ofNat 32 n

/-- `&proc->kernel_stack[KERNEL_STACK_SIZE]`. -/
def Process.stackTop (p : Process) : Word := p.kernelStack kernelStackSize

/-- The statics of the scheduler, `esp0` of the TSS, the stack words and the console. -/
structure Sched where
  processes : Nat → Option Process
  currentProcess : Nat
  processCount : Nat
  nextPid : Nat
  tssEsp0 : Word
  mem : Memory
  console : List (String × Nat)

namespace Sched

def puts (s : Sched) (text : String) (color : Nat) : Sched :=
  { s with console := s.console ++ [(text, color)] }

/-- Write through the pointer in slot `i`. -/
def modify (s : Sched) (i : Nat) (f : Process → Process) : Sched :=
  { s with processes := Function.update s.processes i ((s.processes i).map f) }

/-- The process that runs. -/
def current (s : Sched) : Option Process := s.processes s.currentProcess

end Sched

/-- `scheduler_init`. -/
def schedulerInit (s : Sched) : Sched :=
  { s with
    processes := fun i => if i < maxProcesses then none else s.processes i
    currentProcess := 0
    processCount := 0
    nextPid := 1 }.puts "[SCHEDULER] Initialized\n" 0x1A

/-- The loops that copy a name of at most 31 characters. -/
def copyName (name : String) : String := String.ofList (name.toList.take 31)

/-- `scheduler_convert_current_process`; `proc` is what `kmalloc` returned, 0 for NULL. -/
def schedulerConvertCurrentProcess (s : Sched) (proc : Word) (name : String) : Sched :=
  if s.processCount ≥ maxProcesses then s.puts "[SCHEDULER] Max processes reached\n" 0x1C
  else if proc = 0 then s.puts "[SCHEDULER] Failed to allocate process\n" 0x1C
  else
    let p : Process := ⟨proc, s.nextPid, .running, 0, 0, 0, 0, copyName name⟩
    (({ s with
        nextPid := add32 s.nextPid 1
        processes := Function.update s.processes 0 (some p)
        processCount := 1
        currentProcess := 0 }.puts "[SCHEDULER] Converted current process: " 0x1A).puts
      p.name 0x1A).puts "\n" 0x1A

def kernelCs : Word := 0x08

def kernelDs : Word := 0x10

def userCs : Word := 0x1B

def userDs : Word := 0x23

/-- What the two functions that add a process share; `frame` gives the words pushed on the new
kernel stack, `label` and `color` the text printed. -/
def addProcess (s : Sched) (proc entry : Word) (name : String) (frame : Process → List Word)
    (label : String) (color : Nat) : Sched :=
  if s.processCount ≥ maxProcesses then s.puts "[SCHEDULER] Max processes reached\n" 0x1C
  else if proc = 0 then s.puts "[SCHEDULER] Failed to allocate process\n" 0x1C
  else
    let p : Process := ⟨proc, s.nextPid, .ready, 0, 0, 0, entry, copyName name⟩
    let (mem, stackTop) := pushes s.mem p.stackTop (frame p)
    (({ s with
        nextPid := add32 s.nextPid 1
        mem
        processes := Function.update s.processes s.processCount (some { p with esp := stackTop })
        processCount := s.processCount + 1 }.puts label color).puts p.name color).puts "\n" color

/-- The first frame of a kernel process: for `iretd`, for `popa`, and the segment registers. -/
def kernelFrame (processWrapper : Word) : List Word :=
  [0x202, kernelCs, processWrapper] ++ [0, 0, 0, 0, 0, 0, 0, 0] ++
    [kernelDs, kernelDs, kernelDs, kernelDs]

/-- `scheduler_add_process`; `processWrapper` is the address of the trampoline. -/
def schedulerAddProcess (processWrapper : Word) (s : Sched) (proc entry : Word) (name : String) :
    Sched :=
  addProcess s proc entry name (fun _ => kernelFrame processWrapper)
    "[SCHEDULER] Added Kernel Process (Ring 0): " 0x1A

/-- The first frame of a user process, with a stack pointer and segment to return to. -/
def userFrame (p : Process) : List Word :=
  [userDs, p.kernelStack (kernelStackSize - 256), 0x202, userCs, p.entryPoint] ++
    [0, 0, 0, 0, 0, 0, 0, 0] ++ [userDs, userDs, userDs, userDs]

/-- `scheduler_add_user_process`. -/
def schedulerAddUserProcess (s : Sched) (proc entry : Word) (name : String) : Sched :=
  addProcess s proc entry name userFrame "[SCHEDULER] Added User Process (Ring 3): " 0x0A

/-- The test of the search loop. -/
def Sched.isReady (s : Sched) (i : Nat) : Bool :=
  match s.processes i with
  | some p => p.state = .ready
  | none => false

/-- The search of `scheduler_yield_impl` with that many turns left; `none` when `count` reaches
`process_count`. -/
def findReady (s : Sched) : Nat → Nat → Option Nat
  | 0, _ => none
  | turns + 1, next =>
    if s.isReady next then some next else findReady s turns ((next + 1) % s.processCount)

/-- The end of `scheduler_yield_impl`: leave the current process and run `next`. -/
def switchTo (s : Sched) (next : Nat) (currentEsp : Word) : Sched :=
  let s := s.modify s.currentProcess fun p =>
    if p.state = .running then { p with state := .ready, esp := currentEsp }
    else { p with esp := currentEsp }
  let s := { s with currentProcess := next }
  let s := s.modify next fun p => { p with state := .running }
  { s with tssEsp0 := ((s.processes next).map Process.stackTop).getD 0 }

/-- `scheduler_yield_impl`; the result 0 means that nothing was switched. -/
def schedulerYieldImpl (s : Sched) (currentEsp : Word) : Sched × Word :=
  if s.processCount ≤ 1 then (s, 0)
  else
    match findReady s s.processCount ((s.currentProcess + 1) % s.processCount) with
    | none => (s, 0)
    | some next =>
      if next = s.currentProcess then (s, 0)
      else
        let s := switchTo s next currentEsp
        (s, ((s.processes next).map Process.esp).getD 0)

/-- `scheduler_yield` as far as the process table goes. -/
def schedulerYield (s : Sched) (currentEsp : Word) : Sched :=
  if s.processCount ≤ 1 then s else (schedulerYieldImpl s currentEsp).1

/-- `scheduler_get_current_pid`. -/
def schedulerGetCurrentPid (s : Sched) : Nat :=
  if s.processCount = 0 then 0 else (s.current.map Process.pid).getD 0

/-- A process waiting for `pid` becomes ready. -/
def Process.wake (pid : Nat) (p : Process) : Process :=
  if p.state = .blocked ∧ p.waitingForPid = pid then { p with state := .ready, waitingForPid := 0 }
  else p

/-- The loops that wake the processes waiting for `pid`. -/
def Sched.wakeWaiters (s : Sched) (pid : Nat) : Sched :=
  { s with
    processes := fun i =>
      if i < s.processCount then (s.processes i).map (Process.wake pid) else s.processes i }

/-- The decimal digits the print loops write: none at all for 0 or a negative `int`. -/
def digitLoop (n : Int) : String := if n > 0 then toString n else ""

/-- The exit code as `process_exit` prints it; negating `INT_MIN` changes nothing. -/
def exitCodeText (code : Int) : String :=
  if code = 0 then "0"
  else if code < 0 then "-" ++ digitLoop (if code = -(2 ^ 31) then code else -code)
  else digitLoop code

/-- `process_exit` up to the nested yield. -/
def exitCurrent (s : Sched) (p : Process) (exitCode : Int) : Sched :=
  let s := s.modify s.currentProcess fun p => { p with state := .terminated, exitCode }
  let s := s.puts "[SCHEDULER] Process '" 0x1E
  let s := s.puts p.name 0x1E
  let s := s.puts "' (PID " 0x1E
  let s := s.puts (digitLoop p.pid) 0x1E
  let s := s.puts ") exited with code " 0x1E
  let s := s.puts (exitCodeText exitCode) 0x1E
  let s := s.puts "\n" 0x1E
  s.wakeWaiters p.pid

/-- `process_exit`. -/
def processExit (s : Sched) (exitCode : Int) (currentEsp : Word) : Sched :=
  match s.current with
  | none => s
  | some p => schedulerYield (exitCurrent s p exitCode) currentEsp

/-- The slot `process_kill` finds. -/
def findAlive (s : Sched) (pid : Nat) : Option Nat :=
  (List.range s.processCount).find? fun i =>
    match s.processes i with
    | some p => p.pid = pid ∧ p.state ≠ .terminated
    | none => false

/-- `process_kill` up to the nested yield. -/
def killSlot (s : Sched) (i pid : Nat) : Sched :=
  let s := s.modify i fun p => { p with state := .terminated, exitCode := -1 }
  let s := s.puts "[SCHEDULER] Process '" 0x1C
  let s := s.puts (((s.processes i).map Process.name).getD "") 0x1C
  let s := s.puts "' killed.\n" 0x1C
  s.wakeWaiters pid

/-- `process_kill`. -/
def processKill (s : Sched) (pid : Nat) (currentEsp : Word) : Sched × Int :=
  match findAlive s pid with
  | none => (s, -1)
  | some i =>
    let s := killSlot s i pid
    (if i = s.currentProcess then schedulerYield s currentEsp else s, 0)

/-- `process_wait` has returned, or the process is inside its loop, waiting for a slot. -/
inductive WaitOutcome where
  | returned (code : Int)
  | waiting (target : Nat)
deriving DecidableEq, Repr

/-- One turn of the loop of `process_wait`. -/
def waitLoop (s : Sched) (target : Nat) (currentEsp : Word) : Sched × WaitOutcome :=
  match s.processes target with
  | some p =>
    if p.state ≠ .terminated then (schedulerYield s currentEsp, .waiting target)
    else (s, .returned p.exitCode)
  | none => (s, .returned 0)

/-- The slot `process_wait` finds. -/
def findPid (s : Sched) (pid : Nat) : Option Nat :=
  (List.range s.processCount).find? fun i =>
    match s.processes i with
    | some p => p.pid = pid
    | none => false

/-- `process_wait` up to its first nested yield. -/
def processWait (s : Sched) (pid : Nat) (currentEsp : Word) : Sched × WaitOutcome :=
  match s.current, findPid s pid with
  | none, _ => (s, .returned (-1))
  | some _, none => (s, .returned (-1))
  | some _, some target =>
    match s.processes target with
    | some t =>
      if t.state = .terminated then (s, .returned t.exitCode)
      else
        let s := s.modify s.currentProcess fun p =>
          { p with state := .blocked, waitingForPid := pid }
        waitLoop s target currentEsp
    | none => (s, .returned (-1))

/-- `scheduler_terminate_all`. -/
def schedulerTerminateAll (s : Sched) : Sched :=
  let currPid := schedulerGetCurrentPid s
  { s with
    processes := fun i =>
      if i < s.processCount then
        (s.processes i).map fun p =>
          if p.pid ≠ currPid then { p with state := .terminated } else p
      else s.processes i }

end HumanOS

import HumanOS.Scheduler.Waiting
import Mathlib.Data.Set.Defs

/-!
# Voluntary yields under the timer

`scheduler_yield_impl` as `scheduler_yield_asm` reaches it: each of its statements is a step, and
where interrupts are enabled `irq0_stub` may come between two of them and run its own
`scheduler_yield_impl` to the end. A frame on a stack is known by the state of the CPU that its
pops restore; that the words of a frame do restore it is the subject of `Scheduler.Switch`.
-/
namespace HumanOS

open Lib

/-- The statement of `scheduler_yield_impl` that is executed next, with its locals. A pointer to a
process is the slot it was loaded from: slots never change their pointers. -/
inductive YieldPc where
  | countTest
  | setNext
  | loopTest (next count : Nat)
  | readyTest (next count : Nat)
  | advance (next count : Nat)
  | increment (next count : Nat)
  | check (next count : Nat)
  | loadCurrent (next : Nat)
  | loadNext (currentProc next : Nat)
  | stateTest (currentProc nextProc : Nat)
  | setReady (currentProc nextProc : Nat)
  | saveEsp (currentProc nextProc : Nat)
  | setCurrent (nextProc : Nat)
  | setRunning (nextProc : Nat)
  | setKernelStack (nextProc : Nat)
  | ret (nextProc : Nat)
  | returned (eax : Word)
deriving DecidableEq

/-- One statement; `returned` is left to the stub. -/
def yieldStatement (s : Sched) (currentEsp : Word) : YieldPc → Sched × YieldPc
  | .countTest => (s, if s.processCount ≤ 1 then .returned 0 else .setNext)
  | .setNext => (s, .loopTest ((s.currentProcess + 1) % s.processCount) 0)
  | .loopTest next count =>
    (s, if count < s.processCount then .readyTest next count else .check next count)
  | .readyTest next count => (s, if s.isReady next then .check next count else .advance next count)
  | .advance next count => (s, .increment ((next + 1) % s.processCount) count)
  | .increment next count => (s, .loopTest next (count + 1))
  | .check next count =>
    (s, if count ≥ s.processCount ∨ next = s.currentProcess then .returned 0 else .loadCurrent next)
  | .loadCurrent next => (s, .loadNext s.currentProcess next)
  | .loadNext currentProc next => (s, .stateTest currentProc next)
  | .stateTest currentProc nextProc =>
    match s.processes currentProc with
    | some p =>
      (s, if p.state = .running then .setReady currentProc nextProc
        else .saveEsp currentProc nextProc)
    | none => (s, .setCurrent nextProc)
  | .setReady currentProc nextProc =>
    (s.modify currentProc fun p => { p with state := .ready }, .saveEsp currentProc nextProc)
  | .saveEsp currentProc nextProc =>
    (s.modify currentProc fun p => { p with esp := currentEsp }, .setCurrent nextProc)
  | .setCurrent nextProc => ({ s with currentProcess := nextProc }, .setRunning nextProc)
  | .setRunning nextProc =>
    (s.modify nextProc fun p => { p with state := .running }, .setKernelStack nextProc)
  | .setKernelStack nextProc =>
    ({ s with tssEsp0 := ((s.processes nextProc).map Process.stackTop).getD 0 }, .ret nextProc)
  | .ret nextProc => (s, .returned (((s.processes nextProc).map Process.esp).getD 0))
  | .returned eax => (s, .returned eax)

/-- What the CPU does: a user process in ring 3, with interrupts enabled; code of the kernel; or a
statement of `scheduler_yield_impl` called with the frame `scheduler_yield_asm` pushed. -/
inductive Cpu where
  | user (esp : Word)
  | kernel (esp : Word) (interrupts : Bool)
  | yielding (frame : Word) (pc : YieldPc) (interrupts : Bool)
deriving DecidableEq

def Cpu.interrupts : Cpu → Bool
  | .user _ => true
  | .kernel _ interrupts | .yielding _ _ interrupts => interrupts

/-- Under its frame lie the argument and the return address, of which a return pops the latter. -/
def Cpu.esp : Cpu → Word
  | .user esp | .kernel esp _ => esp
  | .yielding frame (.returned _) _ => frame - 4
  | .yielding frame _ _ => frame - 8

/-- The scheduler, the CPU, and what the pops of a frame at an address give. -/
structure Machine where
  sched : Sched
  cpu : Cpu
  frames : Word → Cpu

namespace Machine

/-- Where `irq0_stub` has its frame. -/
def irqFrame (m : Machine) : Word :=
  match m.cpu with
  | .user _ => m.sched.tssEsp0 - 68
  | cpu => cpu.esp - 60

/-- `mov esp, eax` unless `eax` is 0, and the pops. -/
def popFrame (m : Machine) (esp eax : Word) : Machine :=
  { m with cpu := m.frames (if eax = 0 then esp else eax) }

/-- `irq0_stub`; `scheduleNeeded` is the flag as `pit_handler` leaves it. -/
def irq0 (m : Machine) (scheduleNeeded : Bool) : Machine :=
  let esp := m.irqFrame
  let m := { m with frames := Function.update m.frames esp m.cpu }
  if scheduleNeeded then
    let (sched, eax) := schedulerYieldImpl m.sched esp
    { m with sched }.popFrame esp eax
  else m.popFrame esp 0

/-- `scheduler_yield_asm` up to the call, with `esp` at its return address. -/
def yieldAsm (m : Machine) (esp : Word) (interrupts : Bool) : Machine :=
  { m with
    cpu := .yielding (esp - 56) .countTest interrupts
    frames := Function.update m.frames (esp - 56) (.kernel (esp + 4) interrupts) }

/-- The table after a process was added, or not, and the first frame of the new one. -/
def added (m : Machine) (sched : Sched) (esp : Word) (entry : Cpu) : Machine :=
  { m with
    sched
    frames := if sched.processCount = m.sched.processCount then m.frames
      else Function.update m.frames esp entry }

end Machine

/-- The stack pointers into the kernel stack of the `process_t` at `proc`. -/
def kernelStackAt (proc : Word) : Set Word := {esp | (esp - (proc + 56)).toNat ≤ kernelStackSize}

/-- The stack of a process; `kernel_main` stays on the one it was started on. -/
def Sched.stack (mainStack : Set Word) (s : Sched) (i : Nat) : Set Word :=
  if i = 0 then mainStack else {esp | ∃ p, s.processes i = some p ∧ esp ∈ kernelStackAt p.addr}

/-- The stack that `esp` points into has room down to `esp'`. -/
def SameStack (mainStack : Set Word) (s : Sched) (esp esp' : Word) : Prop :=
  ∀ i < s.processCount, esp ∈ s.stack mainStack i → esp' ∈ s.stack mainStack i

/-- Ring 3 enters the kernel on an empty stack, the kernel itself on the one it is on. -/
def Machine.HasRoom (mainStack : Set Word) (m : Machine) : Prop :=
  match m.cpu with
  | .user _ => True
  | cpu => SameStack mainStack m.sched cpu.esp m.irqFrame

/-- What `kmalloc` returned for a process lies apart from every stack in use. -/
def FreshStack (mainStack : Set Word) (s : Sched) (proc : Word) : Prop :=
  0 ∉ kernelStackAt proc ∧
    ∀ i < s.processCount, ∀ esp ∈ s.stack mainStack i, esp ∉ kernelStackAt proc

inductive MachineOp where
  | statement
  | timer (scheduleNeeded : Bool)
  | yield
  | move (esp : Word)
  | setInterrupts (interrupts : Bool)
  | moveUser (esp : Word)
  | enterKernel
  | leaveKernel (esp : Word)
  | addProcess (proc entry : Word) (name : String)
  | addUserProcess (proc entry : Word) (name : String)
  | exit (code : Int)
  | kill (pid : Nat)
  | block (pid : Nat)
  | terminateAll

/-- Outside of yields the kernel code of a process moves its stack pointer within its stack, turns
interrupts on and off, returns to ring 3 if it came from there, and calls the other functions of
the scheduler, as far as they go without yielding. -/
inductive MachineStep (mainStack : Set Word) (processWrapper : Word) :
    Machine → MachineOp → Machine → Prop
  | statement {m : Machine} {frame : Word} {pc : YieldPc} {b : Bool} :
      m.cpu = .yielding frame pc b → (∀ eax, pc ≠ .returned eax) →
      MachineStep mainStack processWrapper m .statement
        { m with
          sched := (yieldStatement m.sched frame pc).1
          cpu := .yielding frame (yieldStatement m.sched frame pc).2 b }
  | returned {m : Machine} {frame eax : Word} {b : Bool} :
      m.cpu = .yielding frame (.returned eax) b →
      MachineStep mainStack processWrapper m .statement (m.popFrame frame eax)
  | timer {m : Machine} {scheduleNeeded : Bool} : m.cpu.interrupts = true →
      m.HasRoom mainStack →
      MachineStep mainStack processWrapper m (.timer scheduleNeeded) (m.irq0 scheduleNeeded)
  | yield {m : Machine} {esp : Word} {b : Bool} : m.cpu = .kernel esp b →
      SameStack mainStack m.sched esp (esp + 4) →
      (∀ k ≤ 8, SameStack mainStack m.sched esp (esp - 56 - BitVec.ofNat 32 k)) →
      MachineStep mainStack processWrapper m .yield (m.yieldAsm esp b)
  | move {m : Machine} {esp esp' : Word} {b : Bool} : m.cpu = .kernel esp b →
      SameStack mainStack m.sched esp esp' →
      MachineStep mainStack processWrapper m (.move esp') { m with cpu := .kernel esp' b }
  | setInterrupts {m : Machine} {esp : Word} {b b' : Bool} : m.cpu = .kernel esp b →
      MachineStep mainStack processWrapper m (.setInterrupts b') { m with cpu := .kernel esp b' }
  | moveUser {m : Machine} {esp esp' : Word} : m.cpu = .user esp →
      MachineStep mainStack processWrapper m (.moveUser esp') { m with cpu := .user esp' }
  | enterKernel {m : Machine} {esp : Word} : m.cpu = .user esp →
      MachineStep mainStack processWrapper m .enterKernel
        { m with cpu := .kernel (m.sched.tssEsp0 - 20) false }
  | leaveKernel {m : Machine} {esp esp' : Word} {b : Bool} : m.cpu = .kernel esp b →
      m.sched.currentProcess ≠ 0 →
      MachineStep mainStack processWrapper m (.leaveKernel esp') { m with cpu := .user esp' }
  | addProcess {m : Machine} {esp proc entry : Word} {b : Bool} {name : String} :
      m.cpu = .kernel esp b → (proc ≠ 0 → FreshStack mainStack m.sched proc) →
      MachineStep mainStack processWrapper m (.addProcess proc entry name)
        (m.added (schedulerAddProcess processWrapper m.sched proc entry name)
          ((newProcess m.sched proc entry name).stackTop - 60)
          (.kernel (newProcess m.sched proc entry name).stackTop true))
  | addUserProcess {m : Machine} {esp proc entry : Word} {b : Bool} {name : String} :
      m.cpu = .kernel esp b → (proc ≠ 0 → FreshStack mainStack m.sched proc) →
      MachineStep mainStack processWrapper m (.addUserProcess proc entry name)
        (m.added (schedulerAddUserProcess m.sched proc entry name)
          ((newProcess m.sched proc entry name).stackTop - 68)
          (.user ((newProcess m.sched proc entry name).kernelStack (kernelStackSize - 256))))
  | exit {m : Machine} {esp : Word} {b : Bool} {code : Int} {p : Process} :
      m.cpu = .kernel esp b → m.sched.current = some p →
      MachineStep mainStack processWrapper m (.exit code)
        { m with sched := exitCurrent m.sched p code }
  | kill {m : Machine} {esp : Word} {b : Bool} {i pid : Nat} :
      m.cpu = .kernel esp b → findAlive m.sched pid = some i →
      MachineStep mainStack processWrapper m (.kill pid)
        { m with sched := killSlot m.sched i pid }
  | block {m : Machine} {esp : Word} {b : Bool} {pid : Nat} : m.cpu = .kernel esp b →
      MachineStep mainStack processWrapper m (.block pid)
        { m with sched := m.sched.blockOn pid }
  | terminateAll {m : Machine} {esp : Word} {b : Bool} : m.cpu = .kernel esp b →
      MachineStep mainStack processWrapper m .terminateAll
        { m with sched := schedulerTerminateAll m.sched }

/-- `kernel_main` has become a process. -/
def Machine.start (s : Sched) (proc : Word) (name : String) (esp : Word) (interrupts : Bool)
    (frames : Word → Cpu) : Machine :=
  ⟨schedulerConvertCurrentProcess (schedulerInit s) proc name, .kernel esp interrupts, frames⟩

section Statements

variable {s t : Sched} {m : Machine} {frame wrapper : Word} {b : Bool} {pc pc' : YieldPc}
variable {next count turns : Nat} {mainStack : Set Word}

/-- The machine at a statement of `scheduler_yield_impl`. -/
def Machine.atStatement (m : Machine) (frame : Word) (b : Bool) (s : Sched) (pc : YieldPc) :
    Machine :=
  { m with sched := s, cpu := .yielding frame pc b }

theorem MachineStep.of_statement (m : Machine) (b : Bool)
    (h : yieldStatement s frame pc = (t, pc')) (hpc : ∀ eax, pc ≠ .returned eax) :
    MachineStep mainStack wrapper (m.atStatement frame b s pc) .statement
      (m.atStatement frame b t pc') := by
  have hstep : MachineStep mainStack wrapper (m.atStatement frame b s pc) .statement
      (m.atStatement frame b (yieldStatement s frame pc).1 (yieldStatement s frame pc).2) :=
    .statement rfl hpc
  rwa [h] at hstep

/-- The turns of the loop make the search of `findReady`. -/
theorem findReady_statements (m : Machine) (b : Bool) (next count : Nat)
    (hturns : turns + count = s.processCount) :
    ∃ ops next' count', Run (MachineStep mainStack wrapper)
        (m.atStatement frame b s (.loopTest next count)) ops
        (m.atStatement frame b s (.check next' count')) ∧
      (findReady s turns next = some next' ∧ count' < s.processCount ∨
        findReady s turns next = none ∧ count' ≥ s.processCount) := by
  induction turns generalizing next count with
  | zero =>
    refine ⟨_, next, count, .single (.of_statement m b ?_ (by simp)), Or.inr ⟨rfl, by omega⟩⟩
    simp [yieldStatement, show ¬ count < s.processCount by omega]
  | succ turns ih =>
    have hloop : MachineStep mainStack wrapper (m.atStatement frame b s (.loopTest next count))
        .statement (m.atStatement frame b s (.readyTest next count)) :=
      .of_statement m b (by simp [yieldStatement, show count < s.processCount by omega]) (by simp)
    cases hready : s.isReady next with
    | true =>
      refine ⟨_, next, count, .stepL hloop (.single (.of_statement m b ?_ (by simp))),
        Or.inl ⟨by simp [findReady, hready], by omega⟩⟩
      simp [yieldStatement, hready]
    | false =>
      have htest : MachineStep mainStack wrapper (m.atStatement frame b s (.readyTest next count))
          .statement (m.atStatement frame b s (.advance next count)) :=
        .of_statement m b (by simp [yieldStatement, hready]) (by simp)
      obtain ⟨ops, next', count', hrun, hfind⟩ :=
        ih ((next + 1) % s.processCount) (count + 1) (by omega)
      refine ⟨_, next', count', .stepL hloop (.stepL htest (.stepL (.of_statement m b rfl (by simp))
        (.stepL (.of_statement m b rfl (by simp)) hrun))), ?_⟩
      simpa [findReady, hready] using hfind

theorem Sched.modify_none {i : Nat} {f : Process → Process} (hp : s.processes i = none) :
    s.modify i f = s := by
  have hsame : Function.update s.processes i none = s.processes := by
    rw [← hp, Function.update_eq_self]
  rw [Sched.modify, hp, Option.map_none, hsame]

/-- The statements that save the state of the current process. -/
theorem saveEsp_statements (m : Machine) (frame : Word) (next : Nat) (b : Bool) :
    ∃ ops, Run (MachineStep mainStack wrapper)
      (m.atStatement frame b s (.stateTest s.currentProcess next)) ops
      (m.atStatement frame b (s.modify s.currentProcess fun p =>
        if p.state = .running then { p with state := .ready, esp := frame }
        else { p with esp := frame }) (.setCurrent next)) := by
  cases hp : s.processes s.currentProcess with
  | none =>
    refine ⟨_, .single (.of_statement m b ?_ (by simp))⟩
    simp [yieldStatement, Sched.modify_none hp, hp]
  | some p =>
    by_cases hst : p.state = .running
    · have htest : MachineStep mainStack wrapper
          (m.atStatement frame b s (.stateTest s.currentProcess next)) .statement
          (m.atStatement frame b s (.setReady s.currentProcess next)) :=
        .of_statement m b (by simp [yieldStatement, hp, hst]) (by simp)
      refine ⟨_, .stepL htest (.stepL (.of_statement m b rfl (by simp))
        (.single (.of_statement m b ?_ (by simp))))⟩
      simp [yieldStatement, Sched.modify, hp, hst]
    · have htest : MachineStep mainStack wrapper
          (m.atStatement frame b s (.stateTest s.currentProcess next)) .statement
          (m.atStatement frame b s (.saveEsp s.currentProcess next)) :=
        .of_statement m b (by simp [yieldStatement, hp, hst]) (by simp)
      refine ⟨_, .stepL htest (.single (.of_statement m b ?_ (by simp)))⟩
      simp [yieldStatement, Sched.modify, hp, hst]

/-- The statements from the two loads on make `switchTo`. -/
theorem switchTo_statements (m : Machine) (frame : Word) (next : Nat) (b : Bool) :
    ∃ ops, Run (MachineStep mainStack wrapper) (m.atStatement frame b s (.loadCurrent next)) ops
      (m.atStatement frame b (switchTo s next frame) (.ret next)) := by
  obtain ⟨ops, hsave⟩ : ∃ ops, Run (MachineStep mainStack wrapper) _ ops _ :=
    saveEsp_statements (s := s) m frame next b
  exact ⟨_, .stepL (.of_statement m b rfl (by simp)) (.stepL (.of_statement m b rfl (by simp))
    (hsave.append (.stepL (.of_statement m b rfl (by simp))
      (.stepL (.of_statement m b rfl (by simp)) (.single (.of_statement m b rfl (by simp)))))))⟩

/-- Without an interrupt the statements do what `scheduler_yield_impl` does. -/
theorem schedulerYieldImpl_statements (m : Machine) (b : Bool) (s : Sched) (frame : Word) :
    ∃ ops, Run (MachineStep mainStack wrapper) (m.atStatement frame b s .countTest) ops
      (m.atStatement frame b (schedulerYieldImpl s frame).1
        (.returned (schedulerYieldImpl s frame).2)) := by
  unfold schedulerYieldImpl
  split
  · rename_i hone
    exact ⟨_, .single (.of_statement m b (by simp [yieldStatement, hone]) (by simp))⟩
  · rename_i hmany
    have hcount : MachineStep mainStack wrapper (m.atStatement frame b s .countTest) .statement
        (m.atStatement frame b s .setNext) :=
      .of_statement m b (by simp [yieldStatement, hmany]) (by simp)
    obtain ⟨as, next', count', hloop, hfind⟩ := findReady_statements m b
      ((s.currentProcess + 1) % s.processCount) 0
      (show s.processCount + 0 = s.processCount from rfl)
    have hsearch := Run.stepL hcount (.stepL (.of_statement m b rfl (by simp)) hloop)
    rcases hfind with ⟨hsome, hlt⟩ | ⟨hnone, hge⟩
    · simp only [hsome]
      by_cases hself : next' = s.currentProcess
      · rw [if_pos hself]
        exact ⟨_, hsearch.append (.single
          (.of_statement m b (by simp [yieldStatement, hself]) (by simp)))⟩
      · rw [if_neg hself]
        have hcheck : MachineStep mainStack wrapper (m.atStatement frame b s (.check next' count'))
            .statement (m.atStatement frame b s (.loadCurrent next')) :=
          .of_statement m b (by simp [yieldStatement, hself, hlt]) (by simp)
        obtain ⟨bs, hswitch⟩ : ∃ ops, Run (MachineStep mainStack wrapper) _ ops _ :=
          switchTo_statements (s := s) m frame next' b
        exact ⟨_, hsearch.append (.stepL hcheck (hswitch.append
          (.single (.of_statement m b rfl (by simp)))))⟩
    · simp only [hnone]
      exact ⟨_, hsearch.append (.single
        (.of_statement m b (by simp [yieldStatement, hge]) (by simp)))⟩

end Statements

end HumanOS

import HumanOS.Scheduler.Contexts
import HumanOS.Scheduler.Switch

/-!
# Voluntary yields and the timer over whole runs

The contexts stay those of their processes as long as the timer does not switch away from a yield
that is past its test. Nothing in the code keeps it from doing so: `scheduler_yield_asm` runs with
interrupts enabled, where `irq0_stub` is entered through a gate that turns them off.
-/
namespace HumanOS

open Lib

variable {s t : Sched} {m m' : Machine} {frames : Word → Cpu}
variable {mainStack : Set Word} {i owner : Nat} {p : Process}
variable {frame esp esp' eax wrapper proc entry : Word} {b : Bool} {pc : YieldPc}
variable {f : Nat → Process → Process} {name : String}

section Body

/-- What the kernel code of a process does to the states in the table. -/
theorem MachineInv.touch (h : MachineInv mainStack m owner) (hcpu : m.cpu = .kernel esp b)
    (hr : Remaps m.sched t f) (haddr : ∀ i p, (f i p).addr = p.addr)
    (hesp : ∀ i p, (f i p).esp = p.esp)
    (hrun : ∀ i p, (f i p).state = .running → p.state = .running)
    (hcur : t.currentProcess = m.sched.currentProcess) (htss : t.tssEsp0 = m.sched.tssEsp0) :
    MachineInv mainStack { m with sched := t } owner := by
  obtain ⟨hmem, hown⟩ := h.kernel hcpu
  refine ⟨h.toStackInv.change hr haddr (fun i p _ => hesp i p) (hcur ▸ h.slot)
    (fun p hp hne => ?_) (fun i hi p hp hst => ?_)
    (fun hne _ => hr.esp0 haddr htss h.owned (h.esp0 hne hown)), Or.inl ⟨?_, hcur.trans hown⟩⟩
  · rw [hesp] at hne ⊢
    exact h.stored owner h.owned p hp hne
  · rw [hcur]
    exact h.running i hi p hp (hrun i p hst)
  · simp only [hcpu, Resumes, hr.stack_eq haddr h.owned]
    exact hmem

theorem ended_addr {k pid : Nat} {code : Int} : (ended k pid code i p).addr = p.addr := by
  unfold ended Process.wake
  split <;> split <;> rfl

theorem ended_running {k pid : Nat} {code : Int} (h : (ended k pid code i p).state = .running) :
    p.state = .running := by
  have hrun := Process.wake_running h
  split at hrun
  · simp at hrun
  · exact hrun

/-- A new process is parked at the frame made for it. -/
theorem StackInv.added {c : Cpu} {ws : List Word} (h : StackInv mainStack s frames owner)
    (ha : Added s t (newProcess s proc entry name) ws) (htss : t.tssEsp0 = s.tssEsp0)
    (hfresh : FreshStack mainStack s proc) (hesp : (pushes s.mem
      (newProcess s proc entry name).stackTop ws).2 = esp) (hmem : esp ∈ kernelStackAt proc)
    (hentry : s.processCount ≠ 0 → t.stack mainStack s.processCount = kernelStackAt proc →
      Resumes mainStack t (Function.update frames esp c) s.processCount c) :
    StackInv mainStack t (Function.update frames esp c) owner ∧
      ∀ i < s.processCount, t.stack mainStack i = s.stack mainStack i := by
  have hcount : s.processCount ≠ 0 := Nat.ne_of_gt (Nat.lt_of_le_of_lt (Nat.zero_le _) h.slot)
  have hold : ∀ i < s.processCount, t.stack mainStack i = s.stack mainStack i := by
    intro i hi
    simp only [Sched.stack, ha.old hi]
  obtain ⟨p, hp, rfl, rfl, hready⟩ : ∃ p, t.processes s.processCount = some p ∧ p.addr = proc ∧
      p.esp = esp ∧ p.state = .ready :=
    ⟨_, ha.new, rfl, hesp, rfl⟩
  have hnew : t.stack mainStack s.processCount = kernelStackAt p.addr :=
    Sched.stack_eq hcount hp
  refine ⟨⟨?_, ?_, ha.present h.present, fun i hi j hj hne => ?_, fun i hi => ?_,
    fun i hi q hq hne => ?_, fun i hi hne => ?_, fun i hi q hq hst => ?_, fun hne hcur => ?_⟩, hold⟩
  · have := h.slot
    rw [ha.current, ha.count]
    omega
  · have := h.owned
    rw [ha.count]
    omega
  · rcases ha.lt_cases hi with hi | rfl <;> rcases ha.lt_cases hj with hj | rfl
    · rw [hold i hi, hold j hj]
      exact h.apart i hi j hj hne
    · rw [hnew, hold i hi]
      exact hfresh.2 i hi
    · rw [hnew, hold j hj]
      exact fun x hx hx' => hfresh.2 j hj x hx' hx
    · exact absurd rfl hne
  · rcases ha.lt_cases hi with hi | rfl
    · rw [hold i hi]
      exact h.nonzero i hi
    · rw [hnew]
      exact hfresh.1
  · rcases ha.lt_cases hi with hi | rfl
    · rw [hold i hi]
      exact h.stored i hi q (by rwa [ha.old hi] at hq) hne
    · rw [hnew, Option.some.inj (hq.symm.trans hp)]
      exact hmem
  · rcases ha.lt_cases hi with hi | rfl
    · refine (h.parked i hi hne).mono (fun q hq => ⟨q, by rw [ha.old hi, hq], rfl⟩) (hold i hi)
        (by rw [ha.count]; omega) fun x hx => Function.update_of_ne ?_ _ _
      rintro rfl
      exact hfresh.2 i hi _ hx hmem
    · refine ⟨p, hp, by rw [hnew]; exact hmem, ?_⟩
      rw [Function.update_self]
      exact hentry hcount hnew
  · rcases ha.lt_cases hi with hi | rfl
    · rw [ha.current]
      exact h.running i hi q (by rwa [ha.old hi] at hq) hst
    · rw [Option.some.inj (hq.symm.trans hp), hready] at hst
      simp at hst
  · rw [ha.current] at hcur
    rw [Sched.Esp0, ha.old h.owned, htss]
    exact h.esp0 hne hcur

theorem addProcess_tssEsp0 {frame : Process → List Word} {label : String} {color : Nat} :
    (addProcess s proc entry name frame label color).tssEsp0 = s.tssEsp0 := by
  unfold addProcess
  split
  · rfl
  · split <;> rfl

theorem MachineInv.addProcess {c : Cpu} {frame : Process → List Word} {label : String}
    {color : Nat} (h : MachineInv mainStack m owner) (hcpu : m.cpu = .kernel esp b)
    (hfresh : proc ≠ 0 → FreshStack mainStack m.sched proc)
    (hesp : ∀ mem, (pushes mem (newProcess m.sched proc entry name).stackTop
      (frame (newProcess m.sched proc entry name))).2 = esp')
    (hmem : esp' ∈ kernelStackAt proc)
    (hentry : ∀ t frames, m.sched.processCount ≠ 0 →
      t.stack mainStack m.sched.processCount = kernelStackAt proc →
      Resumes mainStack t frames m.sched.processCount c) :
    MachineInv mainStack
      (m.added (HumanOS.addProcess m.sched proc entry name frame label color) esp' c) owner := by
  obtain ⟨hown, hcur⟩ := h.kernel hcpu
  rcases addProcess_cases m.sched proc entry name frame label color with
    ⟨text, heq⟩ | ⟨-, hne, ha⟩
  · have hcount : (m.sched.puts text 0x1C).processCount = m.sched.processCount := rfl
    rw [heq, Machine.added, if_pos hcount]
    exact h.touch hcpu (.rfl_of_processes rfl rfl rfl) (fun _ _ => rfl) (fun _ _ => rfl)
      (fun _ _ => id) rfl rfl
  · obtain ⟨hinv, hstack⟩ := h.toStackInv.added ha addProcess_tssEsp0 (hfresh hne) (hesp _) hmem
      (hentry _ _)
    rw [Machine.added, if_neg (by rw [ha.count]; omega)]
    refine ⟨hinv, Or.inl ⟨?_, ha.current.trans hcur⟩⟩
    simp only [hcpu, Resumes, hstack owner h.owned]
    exact hown

end Body

section Runs

variable {op : MachineOp} {ops : List MachineOp}

/-- The timer switches only while no yield is committed to a switch of its own. -/
def MachineOp.Safe (m : Machine) : MachineOp → Prop
  | .timer scheduleNeeded =>
    scheduleNeeded = true → m.cpu.committed = true → m.sched.OthersIdle
  | _ => True

def UncommittedStep (mainStack : Set Word) (processWrapper : Word) (m : Machine) (op : MachineOp)
    (m' : Machine) : Prop :=
  MachineStep mainStack processWrapper m op m' ∧ op.Safe m

theorem UncommittedStep.inv (hs : UncommittedStep mainStack wrapper m op m')
    (h : MachineInv mainStack m owner) : ∃ owner', MachineInv mainStack m' owner' := by
  obtain ⟨hs, hsafe⟩ := hs
  cases hs with
  | statement hcpu hpc => exact ⟨owner, h.statement hcpu hpc⟩
  | returned hcpu => exact h.returned hcpu
  | timer hon hroom => exact h.timer hroom hsafe
  | @yield esp b hcpu hret hroom =>
    obtain ⟨hmem, hcur⟩ := h.kernel hcpu
    have hframe : esp - 56 ∈ m.sched.stack mainStack owner := by
      simpa using hroom 0 (by omega) owner h.owned hmem
    refine ⟨owner, h.toStackInv.push hframe, Or.inl ⟨⟨⟨fun k hk => ?_, ?_⟩, trivial⟩, hcur⟩⟩
    · exact hroom k hk owner h.owned hmem
    · exact ⟨esp + 4, b, Function.update_self _ _ _, hret owner h.owned hmem⟩
  | move hcpu hroom =>
    obtain ⟨hmem, hcur⟩ := h.kernel hcpu
    exact ⟨owner, h.setCpu (Or.inl ⟨hroom owner h.owned hmem, hcur⟩)⟩
  | setInterrupts hcpu =>
    obtain ⟨hmem, hcur⟩ := h.kernel hcpu
    exact ⟨owner, h.setCpu (Or.inl ⟨hmem, hcur⟩)⟩
  | moveUser hcpu => exact ⟨owner, h.setCpu (Or.inl (h.user hcpu))⟩
  | enterKernel hcpu =>
    obtain ⟨hown, hcur⟩ := h.user hcpu
    obtain ⟨p, hp, htop⟩ := Option.map_eq_some_iff.mp (h.esp0 hown hcur)
    refine ⟨owner, h.setCpu (Or.inl ⟨?_, hcur⟩)⟩
    simp only [Resumes, Sched.stack_eq hown hp, ← htop]
    exact stackTop_sub_mem (k := 20) (by decide)
  | leaveKernel hcpu hne =>
    obtain ⟨-, hcur⟩ := h.kernel hcpu
    exact ⟨owner, h.setCpu (Or.inl ⟨hcur ▸ hne, hcur⟩)⟩
  | @addProcess esp proc entry b name hcpu hfresh =>
    refine ⟨owner, h.addProcess hcpu hfresh (fun _ => kernelFrame_esp) ?_ ?_⟩
    · exact stackTop_sub_mem (p := newProcess m.sched proc entry name) (k := 60) (by decide)
    · intro t frames _ hstack
      simp only [Resumes, hstack]
      exact stackTop_mem (p := newProcess m.sched proc entry name)
  | @addUserProcess esp proc entry b name hcpu hfresh =>
    refine ⟨owner, h.addProcess hcpu hfresh (fun _ => userFrame_esp) ?_ ?_⟩
    · exact stackTop_sub_mem (p := newProcess m.sched proc entry name) (k := 68) (by decide)
    · intro t frames hne _
      exact hne
  | exit hcpu hp =>
    exact ⟨owner, h.touch hcpu exitCurrent_remaps (fun _ _ => ended_addr)
      (fun _ _ => ended_esp) (fun _ _ => ended_running) rfl rfl⟩
  | kill hcpu hfind =>
    exact ⟨owner, h.touch hcpu killSlot_remaps (fun _ _ => ended_addr)
      (fun _ _ => ended_esp) (fun _ _ => ended_running) rfl rfl⟩
  | block hcpu =>
    refine ⟨owner, h.touch hcpu blockOn_remaps (fun i p => ?_) (fun i p => ?_) (fun i p hst => ?_)
      rfl rfl⟩
    · split <;> rfl
    · split <;> rfl
    · split at hst
      · simp at hst
      · exact hst
  | terminateAll hcpu =>
    refine ⟨owner, h.touch hcpu terminateAll_remaps (fun i p => ?_) (fun i p => ?_)
      (fun i p hst => ?_) rfl rfl⟩
    · split <;> rfl
    · split <;> rfl
    · split at hst
      · simp at hst
      · exact hst

theorem MachineInv.start {frames : Word → Cpu} (hproc : proc ≠ 0) (hesp : esp ∈ mainStack)
    (hzero : 0 ∉ mainStack) : MachineInv mainStack (.start s proc name esp b frames) 0 := by
  have hinv : TableInv (schedulerConvertCurrentProcess (schedulerInit s) proc name)
      fun _ => none := converted_inv hproc
  obtain ⟨console, heq⟩ := converted_eq s name hproc
  have hone : (schedulerConvertCurrentProcess (schedulerInit s) proc name).processCount = 1 := by
    rw [heq]
  have hcur : (schedulerConvertCurrentProcess (schedulerInit s) proc name).currentProcess = 0 := by
    rw [heq]
  have hslot : ∀ i < (schedulerConvertCurrentProcess (schedulerInit s) proc name).processCount,
      i = 0 := by
    intro i hi
    rw [hone] at hi
    omega
  refine ⟨⟨hinv.current, by rw [← hcur]; exact hinv.current, hinv.present, fun i hi j hj hne => ?_,
    fun i hi => ?_, fun i hi p hp hne => ?_, fun i hi hne => ?_, hinv.running,
    fun hne => absurd rfl hne⟩, Or.inl ⟨hesp, hcur⟩⟩
  · exact absurd ((hslot i hi).trans (hslot j hj).symm) hne
  · rw [hslot i hi]
    exact hzero
  · obtain rfl := hslot i hi
    simp only [Machine.start, heq, Function.update_self] at hp
    rw [← Option.some.inj hp] at hne
    exact absurd rfl hne
  · exact absurd (hslot i hi) hne

/-- What switching promises: a process that does not run has its stack pointer on its own stack,
none has that of another, and one process at most runs. -/
structure ContextsOwn (mainStack : Set Word) (s : Sched) : Prop where
  saved : ∀ i < s.processCount, i ≠ s.currentProcess → ∀ p, s.processes i = some p →
    p.esp ∈ s.stack mainStack i
  foreign : ∀ i < s.processCount, ∀ j < s.processCount, i ≠ j → ∀ p, s.processes i = some p →
    p.esp ≠ 0 → p.esp ∉ s.stack mainStack j
  running : ∀ i < s.processCount, ∀ j < s.processCount, ∀ p q, s.processes i = some p →
    s.processes j = some q → p.state = .running → q.state = .running → i = j

theorem Switching.saved (h : Switching s owner frame pc) (hne : s.currentProcess ≠ owner) :
    (s.processes owner).map Process.esp = some frame := by
  cases pc with
  | saveEsp => exact absurd h.2.1 hne
  | setCurrent => exact absurd h.1 hne
  | setRunning => exact h.2.2.2
  | setKernelStack => exact h.2.2
  | ret => exact h.2.2.1
  | returned => exact h.2.1
  | _ => exact h.elim

theorem MachineInv.contextsOwn (h : MachineInv mainStack m owner) :
    ContextsOwn mainStack m.sched where
  saved := by
    intro i hi hne p hp
    by_cases hown : i = owner
    · subst hown
      rcases h.active with ⟨-, hcur⟩ | ⟨frame, pc, b, -, hframe, hsw⟩
      · exact absurd hcur.symm hne
      · have hsaved := hsw.saved hne.symm
        rw [hp, Option.map_some] at hsaved
        rw [Option.some.inj hsaved]
        exact hframe.mem
    · obtain ⟨q, hq, hmem, -⟩ := h.parked i hi hown
      rwa [Option.some.inj (hp.symm.trans hq)]
  foreign := by
    intro i hi j hj hne p hp hesp hmem
    exact h.apart i hi j hj hne _ (h.stored i hi p hp hesp) hmem
  running := by
    intro i hi j hj p q hp hq hpst hqst
    exact (h.running i hi p hp hpst).trans (h.running j hj q hq hqst).symm

/-- As long as the timer leaves a yield alone that is past its test, whatever else the processes
and the timer do, the contexts stay those of their processes. -/
theorem contexts_own_when_uncommitted (hproc : proc ≠ 0) (hesp : esp ∈ mainStack)
    (hzero : 0 ∉ mainStack)
    (hr : Run (UncommittedStep mainStack wrapper) (.start s proc name esp b frames) ops m) :
    ContextsOwn mainStack m.sched := by
  obtain ⟨owner, h⟩ := hr.invariant (fun m => ∃ owner, MachineInv mainStack m owner)
    (fun _ _ _ hs ⟨_, h⟩ => hs.inv h) ⟨0, .start hproc hesp hzero⟩
  exact h.contextsOwn

/-- Once `current_process` has been set, a switch by the timer always saves the wrong stack
pointer. -/
theorem MachineInv.timer_breaks (h : MachineInv mainStack m owner) (hroom : m.HasRoom mainStack)
    (hlate : m.sched.currentProcess ≠ owner) (hready : ¬ m.sched.OthersIdle) :
    ¬ ContextsOwn mainStack (m.irq0 true).sched := by
  intro hown
  rcases schedulerYieldImpl_cases m.sched m.irqFrame with heq | ⟨next, hnext, hne, p, -, -, heq⟩
  · refine hready ((schedulerYieldImpl_stays_iff m.irqFrame h.slot).mp ?_)
    rw [heq]
  · have hr : Remaps m.sched (switchTo m.sched next m.irqFrame)
        (switched m.sched next m.irqFrame) := switchTo_remaps hne
    obtain ⟨q, hq⟩ := h.present _ h.slot
    have hsched : (m.irq0 true).sched = switchTo m.sched next m.irqFrame := by
      simp [Machine.irq0, Machine.popFrame, heq]
    rw [hsched] at hown
    have hmem := hown.saved _ h.slot hne.symm _ (hr.slot_eq h.slot hq)
    rw [switched_esp_current, hr.stack_eq (fun _ _ => switched_addr) h.slot] at hmem
    exact h.not_mem (h.irqFrame_mem hroom) h.slot hlate hmem

end Runs

section Boot

/-- `n` statements without an interrupt. -/
def yieldStatements (frame : Word) (n : Nat) (s : Sched) (pc : YieldPc) : Sched × YieldPc :=
  (fun x => yieldStatement x.1 frame x.2)^[n] (s, pc)

def YieldPc.isReturned : YieldPc → Bool
  | .returned _ => true
  | _ => false

theorem UncommittedStep.statements {mainStack : Set Word} {wrapper frame : Word} {m : Machine}
    {b : Bool} {pc : YieldPc} (n : Nat) (hcpu : m.cpu = .yielding frame pc b)
    (hn : ∀ k < n, (yieldStatements frame k m.sched pc).2.isReturned = false) :
    Run (UncommittedStep mainStack wrapper) m (List.replicate n .statement)
      (m.atStatement frame b (yieldStatements frame n m.sched pc).1
        (yieldStatements frame n m.sched pc).2) := by
  induction n generalizing m pc with
  | zero =>
    have hself : m.atStatement frame b m.sched pc = m := by rw [Machine.atStatement, ← hcpu]
    exact hself.symm ▸ .refl
  | succ n ih =>
    have hpc : ∀ eax, pc ≠ .returned eax := by
      rintro eax rfl
      simpa [yieldStatements, YieldPc.isReturned] using hn 0 (by omega)
    have hrest := ih (m := m.atStatement frame b (yieldStatement m.sched frame pc).1
      (yieldStatement m.sched frame pc).2) rfl fun k hk => hn (k + 1) (by omega)
    exact .stepL ⟨.statement hcpu hpc, trivial⟩ hrest

/-- A stack of 16 KiB for `kernel_main`. -/
def bootStack : Set Word := {esp | (esp - 0x1FC000).toNat ≤ 0x4000}

instance (esp : Word) : Decidable (esp ∈ bootStack) :=
  inferInstanceAs (Decidable ((esp - 0x1FC000).toNat ≤ 0x4000))

instance (esp proc : Word) : Decidable (esp ∈ kernelStackAt proc) :=
  inferInstanceAs (Decidable ((esp - (proc + 56)).toNat ≤ kernelStackSize))

theorem bootStack_apart (esp : Word) (hboot : esp ∈ bootStack) :
    esp ∉ kernelStackAt 0x302000 := by
  intro hshell
  have hboot : (esp - 0x1FC000).toNat ≤ 0x4000 := hboot
  have hshell : (esp - (0x302000 + 56)).toNat ≤ 4096 := hshell
  bv_omega

theorem shell_fresh : FreshStack bootStack
    (schedulerConvertCurrentProcess (schedulerInit .powerOn) 0x300000 "KernelMain") 0x302000 := by
  refine ⟨by decide, fun i hi => ?_⟩
  obtain rfl : i = 0 := Nat.lt_one_iff.mp hi
  exact bootStack_apart

/-- Either process keeps to its stack. -/
theorem twoStacks {s : Sched} {esp esp' : Word} (hcount : s.processCount = 2)
    (haddr : (s.processes 1).map Process.addr = some 0x302000)
    (h : esp ∈ bootStack ∧ esp' ∈ bootStack ∨
      esp ∈ kernelStackAt 0x302000 ∧ esp' ∈ kernelStackAt 0x302000) :
    SameStack bootStack s esp esp' := by
  obtain ⟨p, hp, hp'⟩ := Option.map_eq_some_iff.mp haddr
  intro i hi hmem
  rw [hcount] at hi
  obtain rfl | rfl : i = 0 ∨ i = 1 := by omega
  · rcases h with ⟨-, h⟩ | ⟨h, -⟩
    · exact h
    · exact absurd h (bootStack_apart esp hmem)
  · rw [Sched.stack_eq (by decide) hp, hp'] at hmem ⊢
    rcases h with ⟨h, -⟩ | ⟨-, h⟩
    · exact absurd hmem (bootStack_apart esp h)
    · exact h

/-- `kernel_main` has added a process and calls `scheduler_yield`, with interrupts enabled. -/
def bootYield : Machine :=
  ((Machine.start .powerOn 0x300000 "KernelMain" 0x1FFF00 true fun _ => .kernel 0 true).added
    twoProcesses 0x302FFC (.kernel 0x303038 true)).yieldAsm 0x1FFF00 true

theorem bootYield_run : Run (UncommittedStep bootStack 0x100000)
    (.start .powerOn 0x300000 "KernelMain" 0x1FFF00 true fun _ => .kernel 0 true)
    [.addProcess 0x302000 0x110000 "Shell", .yield] bootYield := by
  refine .stepL ⟨.addProcess rfl fun _ => shell_fresh, trivial⟩
    (.single ⟨.yield rfl ?_ fun k hk => ?_, trivial⟩)
  · exact twoStacks (by decide +kernel) (by decide +kernel) (Or.inl (by decide))
  · refine twoStacks (by decide +kernel) (by decide +kernel) (Or.inl ⟨by decide, ?_⟩)
    decide +revert

/-- That many statements further. -/
def Machine.after (m : Machine) (n : Nat) (pc : YieldPc) : Machine :=
  m.atStatement 0x1FFEC8 true (yieldStatements 0x1FFEC8 n m.sched pc).1
    (yieldStatements 0x1FFEC8 n m.sched pc).2

theorem hasRoom_of_sameStack {mainStack : Set Word} {m : Machine}
    (h : SameStack mainStack m.sched m.cpu.esp (m.cpu.esp - 60)) : m.HasRoom mainStack := by
  cases hcpu : m.cpu <;> simp_all [Machine.HasRoom, Machine.irqFrame]

/-- `kernel_main` is interrupted while it looks for a process, the other one is interrupted in
turn, and the yield is completed. -/
theorem contexts_own_when_uncommitted_search :
    ∃ m, Run (UncommittedStep bootStack 0x100000)
        (.start .powerOn 0x300000 "KernelMain" 0x1FFF00 true fun _ => .kernel 0 true)
        ([.addProcess 0x302000 0x110000 "Shell", .yield] ++ (List.replicate 3 .statement ++
          ([.timer true, .timer true] ++ (List.replicate 11 .statement ++ [.statement])))) m ∧
      m.sched.currentProcess = 1 ∧ ContextsOwn bootStack m.sched := by
  have hsearch : Run (UncommittedStep bootStack 0x100000) bootYield (List.replicate 3 .statement)
      (bootYield.after 3 .countTest) :=
    UncommittedStep.statements 3 rfl (by decide +kernel)
  have haway : Run (UncommittedStep bootStack 0x100000) (bootYield.after 3 .countTest)
      [.timer true, .timer true] (((bootYield.after 3 .countTest).irq0 true).irq0 true) := by
    refine .stepL ⟨.timer rfl (hasRoom_of_sameStack ?_), ?_⟩
      (.single ⟨.timer (by decide +kernel) (hasRoom_of_sameStack ?_), ?_⟩)
    · exact twoStacks (by decide +kernel) (by decide +kernel) (Or.inl (by decide +kernel))
    · exact fun _ hc => absurd hc (by decide +kernel)
    · exact twoStacks (by decide +kernel) (by decide +kernel) (Or.inr (by decide +kernel))
    · exact fun _ hc => absurd hc (by decide +kernel)
  have hback : Run (UncommittedStep bootStack 0x100000)
      (((bootYield.after 3 .countTest).irq0 true).irq0 true) (List.replicate 11 .statement)
      ((((bootYield.after 3 .countTest).irq0 true).irq0 true).after 11 (.readyTest 1 0)) :=
    UncommittedStep.statements 11 (by decide +kernel) (by decide +kernel)
  have hleft : MachineStep bootStack 0x100000
      ((((bootYield.after 3 .countTest).irq0 true).irq0 true).after 11 (.readyTest 1 0)) .statement
      (((((bootYield.after 3 .countTest).irq0 true).irq0 true).after 11
        (.readyTest 1 0)).popFrame 0x1FFEC8 0x302FFC) := .returned (b := true) (by decide +kernel)
  have hr := bootYield_run.append (hsearch.append (haway.append (hback.append
    (.single ⟨hleft, trivial⟩))))
  exact ⟨_, hr, by decide +kernel,
    contexts_own_when_uncommitted (by decide) (by decide) (by decide) hr⟩

/-- The timer comes after `current_process = next`: it saves the stack pointer of `kernel_main` in
the context of the other process. -/
theorem contexts_not_own :
    ¬ ∀ ops m, Run (MachineStep bootStack 0x100000)
      (.start .powerOn 0x300000 "KernelMain" 0x1FFF00 true fun _ => .kernel 0 true) ops m →
      ContextsOwn bootStack m.sched := by
  intro hall
  have hswitch : Run (UncommittedStep bootStack 0x100000) bootYield (List.replicate 11 .statement)
      (bootYield.after 11 .countTest) :=
    UncommittedStep.statements 11 rfl (by decide +kernel)
  have htimer : MachineStep bootStack 0x100000 (bootYield.after 11 .countTest) (.timer true)
      ((bootYield.after 11 .countTest).irq0 true) := by
    refine .timer rfl (hasRoom_of_sameStack ?_)
    exact twoStacks (by decide +kernel) (by decide +kernel) (Or.inl (by decide +kernel))
  have hr := ((bootYield_run.append hswitch).mono fun _ _ _ hs => hs.1).append (.single htimer)
  have hshell : (((bootYield.after 11 .countTest).irq0 true).sched.processes 1).map
      (fun p => (p.addr, p.esp)) = some (0x302000, 0x1FFE84) := by decide +kernel
  obtain ⟨p, hp, hp'⟩ := Option.map_eq_some_iff.mp hshell
  obtain ⟨haddr, hesp⟩ := Prod.mk.inj hp'
  have hmem := (hall _ _ hr).saved 1 (by decide +kernel) (by decide +kernel) p hp
  rw [Sched.stack_eq (by decide) hp, haddr, hesp] at hmem
  exact absurd hmem (by decide)

end Boot

end HumanOS

import HumanOS.Scheduler.Machine

/-!
# Whose stack the CPU is on

A process that does not run is parked: its saved stack pointer is at a frame on its own stack, and
what the frame restores is code that may be resumed. Up to the test of its own state a yielding
process can be switched away like any other code: its locals may be out of date when it goes on,
but what it does then is a switch. From that test on the table describes the switch only in part,
until the stub has left the stack of the process.
-/
namespace HumanOS

open Lib

variable {s t : Sched} {m m' : Machine} {frames frames' : Word → Cpu} {cpu : Cpu}
variable {mainStack : Set Word} {i j next owner count : Nat} {p q : Process}
variable {frame esp esp' eax wrapper proc entry : Word} {b : Bool} {pc : YieldPc}
variable {f : Nat → Process → Process} {name : String}

section Stacks

theorem stackTop_sub_mem {k : Nat} (hk : k ≤ kernelStackSize) :
    p.stackTop - BitVec.ofNat 32 k ∈ kernelStackAt p.addr := by
  simp only [kernelStackSize] at hk
  simp only [kernelStackAt, Process.stackTop, Process.kernelStack, kernelStackSize,
    Set.mem_ofPred_eq]
  bv_omega

theorem stackTop_mem : p.stackTop ∈ kernelStackAt p.addr := by
  simpa using stackTop_sub_mem (p := p) (k := 0) (by decide)

theorem Sched.stack_eq (hi : i ≠ 0) (hp : s.processes i = some p) :
    s.stack mainStack i = kernelStackAt p.addr := by
  simp [Sched.stack, hi, hp]

/-- The stacks go with the addresses of the processes. -/
theorem Remaps.stack_eq (hr : Remaps s t f) (haddr : ∀ i p, (f i p).addr = p.addr)
    (hi : i < s.processCount) : t.stack mainStack i = s.stack mainStack i := by
  unfold Sched.stack
  split
  · rfl
  · ext esp
    cases hp : s.processes i with
    | none => simp [hr.processes i hi, hp]
    | some p => simp [hr.processes i hi, hp, haddr]

end Stacks

section Invariant

/-- `esp0` of the TSS is the top of the kernel stack of slot `i`. -/
def Sched.Esp0 (s : Sched) (i : Nat) : Prop :=
  (s.processes i).map Process.stackTop = some s.tssEsp0

def Sched.NoneRunning (s : Sched) : Prop :=
  ∀ i < s.processCount, ∀ p, s.processes i = some p → p.state ≠ .running

/-- The frame that `scheduler_yield_asm` pushed on the stack of slot `i`, and two words below. -/
def YieldFrame (mainStack : Set Word) (s : Sched) (frames : Word → Cpu) (i : Nat)
    (frame : Word) : Prop :=
  (∀ k ≤ 8, frame - BitVec.ofNat 32 k ∈ s.stack mainStack i) ∧
    ∃ esp b, frames frame = .kernel esp b ∧ esp ∈ s.stack mainStack i

/-- The statements of slot `i` up to the test of its state and the store that makes it ready, and
the return without a switch. -/
def YieldPc.Early (count i : Nat) : YieldPc → Prop
  | .countTest | .setNext => True
  | .loopTest next _ | .readyTest next _ | .advance next _ => next < count
  | .increment next _ | .check next _ => next < count
  | .loadCurrent next => next < count ∧ next ≠ i
  | .loadNext currentProc next | .stateTest currentProc next | .setReady currentProc next =>
    currentProc = i ∧ next < count ∧ next ≠ i
  | .returned eax => eax = 0
  | _ => False

/-- The statements after that, with what the table says about the switch so far. -/
def Switching (s : Sched) (owner : Nat) (frame : Word) : YieldPc → Prop
  | .saveEsp currentProc next =>
    currentProc = owner ∧ s.currentProcess = owner ∧ next < s.processCount ∧ next ≠ owner ∧
      s.NoneRunning
  | .setCurrent next =>
    s.currentProcess = owner ∧ next < s.processCount ∧ next ≠ owner ∧ s.NoneRunning ∧
      (s.processes owner).map Process.esp = some frame
  | .setRunning next =>
    s.currentProcess = next ∧ next ≠ owner ∧ s.NoneRunning ∧
      (s.processes owner).map Process.esp = some frame
  | .setKernelStack next =>
    s.currentProcess = next ∧ next ≠ owner ∧ (s.processes owner).map Process.esp = some frame
  | .ret next =>
    s.currentProcess = next ∧ next ≠ owner ∧ (s.processes owner).map Process.esp = some frame ∧
      s.Esp0 next
  | .returned eax =>
    s.currentProcess ≠ owner ∧ (s.processes owner).map Process.esp = some frame ∧
      s.Esp0 s.currentProcess ∧ (s.processes s.currentProcess).map Process.esp = some eax
  | _ => False

/-- Slot `i` can be given the CPU in this state. -/
def Resumes (mainStack : Set Word) (s : Sched) (frames : Word → Cpu) (i : Nat) : Cpu → Prop
  | .user _ => i ≠ 0
  | .kernel esp _ => esp ∈ s.stack mainStack i
  | .yielding frame pc _ => YieldFrame mainStack s frames i frame ∧ pc.Early s.processCount i

/-- The saved stack pointer of slot `i` is at a frame of its own. -/
def Parked (mainStack : Set Word) (s : Sched) (frames : Word → Cpu) (i : Nat) : Prop :=
  ∃ p, s.processes i = some p ∧ p.esp ∈ s.stack mainStack i ∧
    Resumes mainStack s frames i (frames p.esp)

/-- The CPU works for slot `owner`, which is current until a switch has got that far. -/
def Active (mainStack : Set Word) (s : Sched) (frames : Word → Cpu) (owner : Nat)
    (cpu : Cpu) : Prop :=
  Resumes mainStack s frames owner cpu ∧ s.currentProcess = owner ∨
    ∃ frame pc b, cpu = .yielding frame pc b ∧ YieldFrame mainStack s frames owner frame ∧
      Switching s owner frame pc

/-- Everyone but slot `owner`, on whose stack the CPU is, is parked on a stack of its own. -/
structure StackInv (mainStack : Set Word) (s : Sched) (frames : Word → Cpu) (owner : Nat) :
    Prop where
  slot : s.currentProcess < s.processCount
  owned : owner < s.processCount
  present : ∀ i < s.processCount, ∃ p, s.processes i = some p
  apart : ∀ i < s.processCount, ∀ j < s.processCount, i ≠ j →
    ∀ esp ∈ s.stack mainStack i, esp ∉ s.stack mainStack j
  nonzero : ∀ i < s.processCount, 0 ∉ s.stack mainStack i
  stored : ∀ i < s.processCount, ∀ p, s.processes i = some p → p.esp ≠ 0 →
    p.esp ∈ s.stack mainStack i
  parked : ∀ i < s.processCount, i ≠ owner → Parked mainStack s frames i
  running : ∀ i < s.processCount, ∀ p, s.processes i = some p → p.state = .running →
    i = s.currentProcess
  esp0 : owner ≠ 0 → s.currentProcess = owner → s.Esp0 owner

structure MachineInv (mainStack : Set Word) (m : Machine) (owner : Nat) : Prop extends
    StackInv mainStack m.sched m.frames owner where
  active : Active mainStack m.sched m.frames owner m.cpu

theorem YieldFrame.mono (h : YieldFrame mainStack s frames i frame)
    (hstack : t.stack mainStack i = s.stack mainStack i) (hframe : frames' frame = frames frame) :
    YieldFrame mainStack t frames' i frame := by
  simpa only [YieldFrame, hstack, hframe] using h

theorem YieldFrame.mem (h : YieldFrame mainStack s frames i frame) :
    frame ∈ s.stack mainStack i := by
  simpa using h.1 0 (by omega)

theorem YieldPc.Early.mono {count' : Nat} (h : pc.Early count i) (hle : count ≤ count') :
    pc.Early count' i := by
  cases pc <;> simp only [YieldPc.Early] at h ⊢ <;> first | exact h | omega

/-- What the other processes do leaves slot `i` as it can be resumed. -/
theorem Resumes.mono (h : Resumes mainStack s frames i cpu)
    (hstack : t.stack mainStack i = s.stack mainStack i) (hle : s.processCount ≤ t.processCount)
    (hframes : ∀ frame pc b, cpu = .yielding frame pc b → frames' frame = frames frame) :
    Resumes mainStack t frames' i cpu := by
  cases cpu with
  | user esp => exact h
  | kernel esp b =>
    simp only [Resumes, hstack]
    exact h
  | yielding frame pc b =>
    exact ⟨h.1.mono hstack (hframes frame pc b rfl), h.2.mono hle⟩

theorem Parked.mono (h : Parked mainStack s frames i)
    (hesp : ∀ p, s.processes i = some p → ∃ q, t.processes i = some q ∧ q.esp = p.esp)
    (hstack : t.stack mainStack i = s.stack mainStack i) (hle : s.processCount ≤ t.processCount)
    (hframes : ∀ esp ∈ s.stack mainStack i, frames' esp = frames esp) :
    Parked mainStack t frames' i := by
  obtain ⟨p, hp, hmem, hres⟩ := h
  obtain ⟨q, hq, heq⟩ := hesp p hp
  refine ⟨q, hq, by rwa [hstack, heq], ?_⟩
  rw [heq, hframes p.esp hmem]
  refine hres.mono hstack hle fun frame pc b hcpu => hframes frame ?_
  rw [hcpu] at hres
  exact hres.1.mem

/-- Only the slot of `owner` gets another stack pointer. -/
theorem StackInv.change (h : StackInv mainStack s frames owner) (hr : Remaps s t f)
    (haddr : ∀ i p, (f i p).addr = p.addr) (hesp : ∀ i p, i ≠ owner → (f i p).esp = p.esp)
    (hslot : t.currentProcess < s.processCount)
    (hstored : ∀ p, s.processes owner = some p → (f owner p).esp ≠ 0 →
      (f owner p).esp ∈ s.stack mainStack owner)
    (hrun : ∀ i < s.processCount, ∀ p, s.processes i = some p → (f i p).state = .running →
      i = t.currentProcess)
    (hesp0 : owner ≠ 0 → t.currentProcess = owner → t.Esp0 owner) :
    StackInv mainStack t frames owner := by
  have hstack : ∀ i < s.processCount, t.stack mainStack i = s.stack mainStack i :=
    fun i hi => hr.stack_eq haddr hi
  refine ⟨hr.count ▸ hslot, hr.count ▸ h.owned, hr.present h.present, ?_, ?_, ?_, ?_, ?_, hesp0⟩ <;>
    simp only [hr.count]
  · intro i hi j hj hne
    rw [hstack i hi, hstack j hj]
    exact h.apart i hi j hj hne
  · intro i hi
    rw [hstack i hi]
    exact h.nonzero i hi
  · intro i hi p hp hne
    obtain ⟨q, hq, rfl⟩ := hr.of_slot hi hp
    rw [hstack i hi]
    by_cases hown : i = owner
    · subst hown
      exact hstored q hq hne
    · rw [hesp i q hown] at hne ⊢
      exact h.stored i hi q hq hne
  · intro i hi hown
    exact (h.parked i hi hown).mono (fun p hp => ⟨_, hr.slot_eq hi hp, hesp i p hown⟩)
      (hstack i hi) (Nat.le_of_eq hr.count.symm) fun _ _ => rfl
  · intro i hi p hp hst
    obtain ⟨q, hq, rfl⟩ := hr.of_slot hi hp
    exact hrun i hi q hq hst

theorem StackInv.not_mem (h : StackInv mainStack s frames owner)
    (hesp : esp ∈ s.stack mainStack owner) (hi : i < s.processCount) (hne : i ≠ owner) :
    esp ∉ s.stack mainStack i :=
  h.apart owner h.owned i hi hne.symm esp hesp

/-- A frame is pushed on the stack the CPU is on. -/
theorem StackInv.push (h : StackInv mainStack s frames owner)
    (hesp : esp ∈ s.stack mainStack owner) :
    StackInv mainStack s (Function.update frames esp cpu) owner := by
  refine { h with parked := fun i hi hne => ?_ }
  refine (h.parked i hi hne).mono (fun p hp => ⟨p, hp, rfl⟩) rfl (Nat.le_refl _) fun x hx => ?_
  refine Function.update_of_ne ?_ _ _
  rintro rfl
  exact h.not_mem hesp hi hne hx

/-- The CPU goes to the current process, whose frame is popped. -/
theorem StackInv.handover (h : StackInv mainStack s frames owner)
    (hne : s.currentProcess ≠ owner) (hparked : Parked mainStack s frames owner)
    (hesp0 : s.Esp0 s.currentProcess)
    (heax : (s.processes s.currentProcess).map Process.esp = some eax) :
    MachineInv mainStack ⟨s, frames eax, frames⟩ s.currentProcess := by
  obtain ⟨p, hp, hmem, hres⟩ := h.parked _ h.slot hne
  obtain rfl : p.esp = eax := by simpa [hp] using heax
  refine ⟨{ h with owned := h.slot, parked := fun i hi hi' => ?_, esp0 := fun _ _ => hesp0 },
    Or.inl ⟨hres, rfl⟩⟩
  by_cases hown : i = owner
  · subst hown
    exact hparked
  · exact h.parked i hi hown

/-- The process that has the CPU moves on and touches nothing. -/
theorem MachineInv.setCpu (h : MachineInv mainStack m owner)
    (hactive : Active mainStack m.sched m.frames owner cpu) :
    MachineInv mainStack { m with cpu } owner :=
  { h with active := hactive }

/-- A frame pushed elsewhere does not disturb the CPU. -/
theorem Resumes.push {c : Cpu} (h : Resumes mainStack s frames i cpu)
    (hne : ∀ frame pc b, cpu = .yielding frame pc b → frame ≠ esp) :
    Resumes mainStack s (Function.update frames esp c) i cpu :=
  h.mono rfl (Nat.le_refl _) fun frame pc b hcpu =>
    Function.update_of_ne (hne frame pc b hcpu) _ _

theorem Active.push {c : Cpu} (h : Active mainStack s frames owner cpu)
    (hne : ∀ frame pc b, cpu = .yielding frame pc b → frame ≠ esp) :
    Active mainStack s (Function.update frames esp c) owner cpu := by
  rcases h with ⟨hres, hcur⟩ | ⟨frame, pc, b, hcpu, hframe, hsw⟩
  · exact Or.inl ⟨hres.push hne, hcur⟩
  · refine Or.inr ⟨frame, pc, b, hcpu, hframe.mono rfl ?_, hsw⟩
    exact Function.update_of_ne (hne frame pc b hcpu) _ _

end Invariant

section Timer

theorem Active.yieldFrame (h : Active mainStack s frames owner (.yielding frame pc b)) :
    YieldFrame mainStack s frames owner frame := by
  rcases h with ⟨hres, -⟩ | ⟨frame, pc, b, hcpu, hframe, -⟩
  · exact hres.1
  · obtain ⟨rfl, -, -⟩ : _ ∧ _ ∧ _ := by simpa using hcpu
    exact hframe

theorem Cpu.yielding_esp (frame : Word) (pc : YieldPc) (b : Bool) :
    (Cpu.yielding frame pc b).esp = frame - 4 ∨ (Cpu.yielding frame pc b).esp = frame - 8 := by
  cases pc with
  | returned eax => exact Or.inl rfl
  | _ => exact Or.inr rfl

/-- Outside of a yield the process that has the CPU is the current one. -/
theorem MachineInv.settled (h : MachineInv mainStack m owner)
    (hcpu : ∀ frame pc b, m.cpu ≠ .yielding frame pc b) :
    Resumes mainStack m.sched m.frames owner m.cpu ∧ m.sched.currentProcess = owner :=
  h.active.resolve_right fun ⟨frame, pc, b, hyield, _⟩ => hcpu frame pc b hyield

theorem MachineInv.kernel (h : MachineInv mainStack m owner) (hcpu : m.cpu = .kernel esp b) :
    esp ∈ m.sched.stack mainStack owner ∧ m.sched.currentProcess = owner := by
  have hsettled := h.settled (by simp [hcpu])
  rwa [hcpu] at hsettled

theorem MachineInv.user (h : MachineInv mainStack m owner) (hcpu : m.cpu = .user esp) :
    owner ≠ 0 ∧ m.sched.currentProcess = owner := by
  have hsettled := h.settled (by simp [hcpu])
  rwa [hcpu] at hsettled

/-- The frame of `irq0_stub` is on the stack the CPU is on. -/
theorem MachineInv.irqFrame_mem (h : MachineInv mainStack m owner)
    (hroom : m.HasRoom mainStack) : m.irqFrame ∈ m.sched.stack mainStack owner := by
  cases hcpu : m.cpu with
  | user esp =>
    obtain ⟨hown, hcur⟩ := h.user hcpu
    obtain ⟨p, hp, htop⟩ := Option.map_eq_some_iff.mp (h.esp0 hown hcur)
    simp only [Machine.irqFrame, hcpu, ← htop]
    rw [Sched.stack_eq hown hp]
    exact stackTop_sub_mem (k := 68) (by decide)
  | kernel esp b =>
    simp only [Machine.HasRoom, hcpu] at hroom
    exact hroom owner h.owned (h.kernel hcpu).1
  | yielding frame pc b =>
    have hactive := h.active
    rw [hcpu] at hactive
    simp only [Machine.HasRoom, hcpu] at hroom
    refine hroom owner h.owned ?_
    rcases Cpu.yielding_esp frame pc b with heq | heq
    · rw [heq]
      exact hactive.yieldFrame.1 4 (by omega)
    · rw [heq]
      exact hactive.yieldFrame.1 8 (by omega)

/-- It lies below the frame of a yield. -/
theorem irqFrame_ne (hcpu : m.cpu = .yielding frame pc b) : frame ≠ m.irqFrame := by
  simp only [Machine.irqFrame, hcpu]
  rcases Cpu.yielding_esp frame pc b with heq | heq
  · rw [heq]
    bv_omega
  · rw [heq]
    bv_omega

theorem switched_addr : (switched s next esp i p).addr = p.addr := by
  unfold switched
  split
  · split <;> rfl
  · split <;> rfl

theorem switched_esp (hi : i ≠ s.currentProcess) : (switched s next esp i p).esp = p.esp := by
  rw [switched, if_neg hi]
  split <;> rfl

theorem switched_esp_current : (switched s next esp s.currentProcess p).esp = esp := by
  rw [switched, if_pos rfl]
  split <;> rfl

/-- The timer takes the CPU from the current process, whose frame is at `esp`. -/
theorem StackInv.switchTo (h : StackInv mainStack s frames s.currentProcess)
    (hesp : esp ∈ s.stack mainStack s.currentProcess)
    (hres : Resumes mainStack s frames s.currentProcess (frames esp))
    (hnext : next < s.processCount) (hne : next ≠ s.currentProcess)
    (hp : s.processes next = some p) :
    MachineInv mainStack ⟨switchTo s next esp, frames p.esp, frames⟩ next := by
  have hr : Remaps s (HumanOS.switchTo s next esp) (switched s next esp) := switchTo_remaps hne
  have hnextSlot : (HumanOS.switchTo s next esp).processes next =
      some { p with state := .running } := by
    rw [hr.slot_eq hnext hp, switched, if_neg hne, if_pos rfl]
  have hchange : StackInv mainStack (HumanOS.switchTo s next esp) frames s.currentProcess := by
    refine h.change hr (fun _ _ => switched_addr) (fun i p hi => switched_esp hi) hnext
      (fun q _ _ => by rwa [switched_esp_current]) (fun i hi q hq hst => ?_)
      fun _ hcur => absurd hcur hne
    by_contra hin
    have hin : i ≠ next := hin
    by_cases hcur : i = s.currentProcess
    · subst hcur
      by_cases hrun : q.state = .running <;> simp [switched, hrun] at hst
    · rw [switched, if_neg hcur, if_neg hin] at hst
      exact hcur (h.running i hi q hq hst)
  refine hchange.handover hne ?_ ?_ ?_
  · obtain ⟨q, hq⟩ := h.present _ h.slot
    refine ⟨_, hr.slot_eq h.slot hq, ?_, ?_⟩
    · rw [switched_esp_current, hr.stack_eq (fun _ _ => switched_addr) h.slot]
      exact hesp
    · rw [switched_esp_current]
      exact hres.mono (hr.stack_eq (fun _ _ => switched_addr) h.slot) (Nat.le_refl _)
        fun _ _ _ _ => rfl
  · show Option.map Process.stackTop ((HumanOS.switchTo s next esp).processes next) = _
    simp [HumanOS.switchTo, Sched.modify, hne, hp, Process.stackTop,
      Process.kernelStack]
  · show Option.map Process.esp ((HumanOS.switchTo s next esp).processes next) = _
    rw [hnextSlot, Option.map_some]

/-- The statements from the test on, unless nothing is to be switched. -/
def YieldPc.committed : YieldPc → Bool
  | .saveEsp _ _ | .setCurrent _ | .setRunning _ | .setKernelStack _ | .ret _ => true
  | .returned eax => eax ≠ 0
  | _ => false

def Cpu.committed : Cpu → Bool
  | .yielding _ pc _ => pc.committed
  | _ => false

theorem StackInv.parked_esp_ne_zero (h : StackInv mainStack s frames owner)
    (hi : i < s.processCount) (hne : i ≠ owner) (hp : s.processes i = some p) : p.esp ≠ 0 := by
  obtain ⟨q, hq, hmem, -⟩ := h.parked i hi hne
  obtain rfl : p = q := Option.some.inj (hp.symm.trans hq)
  intro hzero
  exact h.nonzero i hi (hzero ▸ hmem)

theorem StackInv.switching_committed (h : StackInv mainStack s frames owner)
    (hsw : Switching s owner frame pc) : pc.committed = true := by
  cases pc with
  | returned eax =>
    obtain ⟨hne, -, -, heax⟩ := hsw
    obtain ⟨p, hp, rfl⟩ := Option.map_eq_some_iff.mp heax
    simpa [YieldPc.committed] using h.parked_esp_ne_zero h.slot hne hp
  | saveEsp | setCurrent | setRunning | setKernelStack | ret => rfl
  | _ => exact hsw.elim

/-- `irq0_stub` between two statements, unless it would switch away from a half-done switch. -/
theorem MachineInv.timer {scheduleNeeded : Bool} (h : MachineInv mainStack m owner)
    (hroom : m.HasRoom mainStack)
    (hidle : scheduleNeeded = true → m.cpu.committed = true → m.sched.OthersIdle) :
    ∃ owner', MachineInv mainStack (m.irq0 scheduleNeeded) owner' := by
  have hmem := h.irqFrame_mem hroom
  have hbelow : ∀ frame pc b, m.cpu = .yielding frame pc b → frame ≠ m.irqFrame :=
    fun _ _ _ hcpu => irqFrame_ne hcpu
  have hpushed : MachineInv mainStack
      { m with frames := Function.update m.frames m.irqFrame m.cpu } owner :=
    ⟨h.toStackInv.push hmem, h.active.push hbelow⟩
  cases scheduleNeeded with
  | false => exact ⟨owner, by simpa [Machine.irq0, Machine.popFrame] using hpushed⟩
  | true =>
    rcases schedulerYieldImpl_cases m.sched m.irqFrame with
      heq | ⟨next, hnext, hne, p, hp, hready, heq⟩
    · exact ⟨owner, by simpa [Machine.irq0, Machine.popFrame, heq] using hpushed⟩
    · rcases h.active with ⟨hres, rfl⟩ | ⟨frame, pc, b, hcpu, -, hsw⟩
      · have hesp := h.parked_esp_ne_zero hnext hne hp
        have hswitch := hpushed.toStackInv.switchTo hmem
          (by simpa using hres.push (c := m.cpu) hbelow) hnext hne hp
        refine ⟨next, ?_⟩
        simp only [Machine.irq0, if_true, Machine.popFrame, heq, if_neg hesp]
        exact hswitch
      · have hcommitted := h.switching_committed hsw
        have := hidle rfl (by rw [hcpu]; exact hcommitted) next hnext hne
        rw [isReady_iff.mpr ⟨p, hp, hready⟩] at this
        simp at this

end Timer

section Statements

theorem StackInv.switching (h : StackInv mainStack s frames owner)
    (hframe : YieldFrame mainStack s frames owner frame) (hsw : Switching s owner frame pc) :
    MachineInv mainStack ⟨s, .yielding frame pc b, frames⟩ owner :=
  ⟨h, Or.inr ⟨frame, pc, b, rfl, hframe, hsw⟩⟩

theorem Remaps.esp0 (hr : Remaps s t f) (haddr : ∀ i p, (f i p).addr = p.addr)
    (htss : t.tssEsp0 = s.tssEsp0) (hi : i < s.processCount) (h : s.Esp0 i) : t.Esp0 i := by
  obtain ⟨p, hp, htop⟩ := Option.map_eq_some_iff.mp h
  rw [Sched.Esp0, hr.slot_eq hi hp, Option.map_some, htss, ← htop]
  simp only [Process.stackTop, Process.kernelStack, haddr]

/-- One store into the process of slot `k`. -/
theorem StackInv.modify {g : Process → Process} {k : Nat} (h : StackInv mainStack s frames owner)
    (hpid : ∀ p, (g p).pid = p.pid) (haddr : ∀ p, (g p).addr = p.addr)
    (hesp : ∀ p, (g p).esp = p.esp ∨ k = owner ∧ (g p).esp ∈ s.stack mainStack owner)
    (hrun : ∀ p, (g p).state = .running → p.state = .running ∨ k = s.currentProcess) :
    StackInv mainStack (s.modify k g) frames owner := by
  have hr := modify_remaps (s := s) (k := k) hpid
  have haddr' : ∀ i p, (if i = k then g p else p).addr = p.addr := by
    intro i p
    split
    · exact haddr p
    · rfl
  refine h.change hr haddr' (fun i p hne => ?_) h.slot (fun p hp hne => ?_)
    (fun i hi p hp hst => ?_) fun hown hcur => hr.esp0 haddr' rfl h.owned (h.esp0 hown hcur)
  · split
    · rename_i hik
      exact (hesp p).resolve_right fun hk => hne (hik.trans hk.1)
    · rfl
  · split at hne
    · rename_i hk
      rw [if_pos hk]
      rcases hesp p with hsame | ⟨-, hmem⟩
      · rw [hsame] at hne ⊢
        exact h.stored owner h.owned p hp hne
      · exact hmem
    · rename_i hk
      rw [if_neg hk]
      exact h.stored owner h.owned p hp hne
  · split at hst
    · rename_i hik
      rcases hrun p hst with hst | hk
      · exact h.running i hi p hp hst
      · exact hik.trans hk
    · exact h.running i hi p hp hst

theorem Sched.modify_stack {g : Process → Process} {k : Nat} (haddr : ∀ p, (g p).addr = p.addr) :
    (s.modify k g).stack mainStack i = s.stack mainStack i := by
  unfold Sched.stack
  split
  · rfl
  · ext esp
    by_cases hik : i = k
    · subst hik
      cases hp : s.processes i <;> simp [Sched.modify, hp, haddr]
    · simp [Sched.modify, hik]

/-- A statement on the way to a switch. -/
theorem StackInv.early_statement (h : StackInv mainStack s frames owner)
    (hframe : YieldFrame mainStack s frames owner frame) (hearly : pc.Early s.processCount owner)
    (hcur : s.currentProcess = owner) (hpc : ∀ eax, pc ≠ .returned eax) :
    MachineInv mainStack ⟨(yieldStatement s frame pc).1,
      .yielding frame (yieldStatement s frame pc).2 b, frames⟩ owner := by
  have hgo : ∀ pc' : YieldPc, pc'.Early s.processCount owner →
      MachineInv mainStack ⟨s, .yielding frame pc' b, frames⟩ owner :=
    fun pc' hpc' => ⟨h, Or.inl ⟨⟨hframe, hpc'⟩, hcur⟩⟩
  have hpos : 0 < s.processCount := Nat.lt_of_le_of_lt (Nat.zero_le _) h.slot
  cases pc with
  | countTest =>
    simp only [yieldStatement]
    split
    · exact hgo _ rfl
    · exact hgo _ trivial
  | setNext => exact hgo _ (Nat.mod_lt _ hpos)
  | loopTest next count =>
    simp only [yieldStatement]
    split
    · exact hgo _ hearly
    · exact hgo _ hearly
  | readyTest next count =>
    simp only [yieldStatement]
    split
    · exact hgo _ hearly
    · exact hgo _ hearly
  | advance next count => exact hgo _ (Nat.mod_lt _ hpos)
  | increment next count => exact hgo _ hearly
  | check next count =>
    simp only [yieldStatement]
    split
    · exact hgo _ rfl
    · rename_i hstop
      exact hgo _ ⟨hearly, fun hself => hstop (Or.inr (hself.trans hcur.symm))⟩
  | loadCurrent next => exact hgo _ ⟨hcur, hearly⟩
  | loadNext currentProc next => exact hgo _ hearly
  | stateTest currentProc next =>
    obtain ⟨rfl, hnext⟩ := hearly
    obtain ⟨p, hp⟩ := h.present _ h.owned
    simp only [yieldStatement, hp]
    split
    · exact hgo _ ⟨rfl, hnext⟩
    · rename_i hst
      refine h.switching hframe ⟨rfl, hcur, hnext.1, hnext.2, fun i hi q hq hrun => ?_⟩
      obtain rfl : i = currentProc := (h.running i hi q hq hrun).trans hcur
      rw [Option.some.inj (hp.symm.trans hq)] at hst
      exact hst hrun
  | setReady currentProc next =>
    obtain ⟨rfl, hnext⟩ := hearly
    have hready := h.modify (k := currentProc) (g := fun p => { p with state := .ready })
      (fun _ => rfl) (fun _ => rfl) (fun _ => Or.inl rfl) (by simp)
    refine hready.switching (hframe.mono (Sched.modify_stack fun _ => rfl) rfl)
      ⟨rfl, hcur, hnext.1, hnext.2, fun i hi q hq hrun => ?_⟩
    obtain rfl : i = currentProc := (hready.running i hi q hq hrun).trans hcur
    obtain ⟨p, hp⟩ := h.present _ h.owned
    obtain rfl : { p with state := .ready } = q := by simpa [Sched.modify, hp] using hq
    simp at hrun
  | returned eax => exact absurd rfl (hpc eax)
  | _ => exact hearly.elim

/-- A statement of the switch itself. -/
theorem StackInv.switching_statement (h : StackInv mainStack s frames owner)
    (hframe : YieldFrame mainStack s frames owner frame) (hsw : Switching s owner frame pc)
    (hpc : ∀ eax, pc ≠ .returned eax) :
    MachineInv mainStack ⟨(yieldStatement s frame pc).1,
      .yielding frame (yieldStatement s frame pc).2 b, frames⟩ owner := by
  cases pc with
  | saveEsp currentProc next =>
    obtain ⟨rfl, hcur, hnext, hne, hnone⟩ := hsw
    have hsaved := h.modify (k := currentProc) (g := fun p => { p with esp := frame })
      (fun _ => rfl) (fun _ => rfl) (fun _ => Or.inr ⟨rfl, hframe.mem⟩) (fun _ => Or.inl)
    obtain ⟨p, hp⟩ := h.present _ h.owned
    refine hsaved.switching (hframe.mono (Sched.modify_stack fun _ => rfl) rfl)
      ⟨hcur, hnext, hne, fun i hi q hq => ?_, by simp [Sched.modify, hp]⟩
    by_cases hi' : i = currentProc
    · subst hi'
      obtain rfl : { p with esp := frame } = q := by simpa [Sched.modify, hp] using hq
      exact hnone i hi p hp
    · exact hnone i hi q (by simpa [Sched.modify, hi'] using hq)
  | setCurrent next =>
    obtain ⟨hcur, hnext, hne, hnone, hsaved⟩ := hsw
    have hmoved := h.change (t := { s with currentProcess := next })
      (.rfl_of_processes rfl rfl rfl) (fun _ _ => rfl) (fun _ _ _ => rfl) hnext
      (fun p hp => h.stored owner h.owned p hp)
      (fun i hi p hp hst => absurd hst (hnone i hi p hp)) fun _ hself => absurd hself hne
    exact hmoved.switching hframe ⟨rfl, hne, hnone, hsaved⟩
  | setRunning next =>
    obtain ⟨rfl, hne, hnone, hsaved⟩ := hsw
    have hrunning := h.modify (k := s.currentProcess) (g := fun p => { p with state := .running })
      (fun _ => rfl) (fun _ => rfl) (fun _ => Or.inl rfl) (fun _ _ => Or.inr rfl)
    exact hrunning.switching (hframe.mono (Sched.modify_stack fun _ => rfl) rfl)
      ⟨rfl, hne, by simpa [Sched.modify, hne.symm] using hsaved⟩
  | setKernelStack next =>
    obtain ⟨rfl, hne, hsaved⟩ := hsw
    obtain ⟨p, hp⟩ := h.present _ h.slot
    have hset := h.change (t := (yieldStatement s frame (.setKernelStack s.currentProcess)).1)
      (.rfl_of_processes rfl rfl rfl) (fun _ _ => rfl) (fun _ _ _ => rfl) h.slot
      (fun p hp => h.stored owner h.owned p hp) (fun i hi p hp hst => h.running i hi p hp hst)
      fun _ hself => absurd hself hne
    exact hset.switching hframe ⟨rfl, hne, hsaved, by simp [Sched.Esp0, yieldStatement, hp]⟩
  | ret next =>
    obtain ⟨rfl, hne, hsaved, hesp0⟩ := hsw
    obtain ⟨p, hp⟩ := h.present _ h.slot
    exact h.switching hframe ⟨hne, hsaved, hesp0, by simp [hp]⟩
  | returned eax => exact absurd rfl (hpc eax)
  | _ => exact hsw.elim

theorem MachineInv.statement (h : MachineInv mainStack m owner)
    (hcpu : m.cpu = .yielding frame pc b) (hpc : ∀ eax, pc ≠ .returned eax) :
    MachineInv mainStack { m with
      sched := (yieldStatement m.sched frame pc).1
      cpu := .yielding frame (yieldStatement m.sched frame pc).2 b } owner := by
  have hactive := h.active
  rw [hcpu] at hactive
  rcases hactive with ⟨⟨hframe, hearly⟩, hcur⟩ | ⟨frame', pc', b', hcpu', hframe, hsw⟩
  · exact h.toStackInv.early_statement hframe hearly hcur hpc
  · obtain ⟨rfl, rfl, rfl⟩ : _ ∧ _ ∧ _ := by simpa using hcpu'
    exact h.toStackInv.switching_statement hframe hsw hpc

/-- The stub leaves the stack of the process, or goes on with it. -/
theorem MachineInv.returned (h : MachineInv mainStack m owner)
    (hcpu : m.cpu = .yielding frame (.returned eax) b) :
    ∃ owner', MachineInv mainStack (m.popFrame frame eax) owner' := by
  have hactive := h.active
  rw [hcpu] at hactive
  obtain ⟨esp, b', hkernel, hesp⟩ := hactive.yieldFrame.2
  rcases hactive with ⟨⟨hframe, hearly⟩, hcur⟩ | ⟨frame', pc', b', hcpu', hframe, hsw⟩
  · refine ⟨owner, h.setCpu (Or.inl ⟨?_, hcur⟩)⟩
    rw [if_pos (show eax = 0 from hearly), hkernel]
    exact hesp
  · obtain ⟨rfl, rfl, rfl⟩ : _ ∧ _ ∧ _ := by simpa using hcpu'
    have hne : eax ≠ 0 := by simpa [YieldPc.committed] using h.switching_committed hsw
    obtain ⟨hleft, hsaved, hesp0, heax⟩ := hsw
    obtain ⟨p, hp, rfl⟩ := Option.map_eq_some_iff.mp hsaved
    refine ⟨m.sched.currentProcess, ?_⟩
    simp only [Machine.popFrame, if_neg hne]
    exact h.toStackInv.handover hleft ⟨p, hp, hframe.mem, by rw [hkernel]; exact hesp⟩ hesp0 heax

end Statements

end HumanOS

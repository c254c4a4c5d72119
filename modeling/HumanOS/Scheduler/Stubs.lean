import HumanOS.Scheduler.Model

/-!
# The stubs that switch contexts

`irq0_stub` and `scheduler_yield_asm` of `arch/i386/interrupts.s`. Both push a frame, may call
`scheduler_yield_impl`, and end in the same pops. The registers are those of the process when it
enters the stub; the descriptor checks of the CPU are left out.
-/
namespace HumanOS

open Lib

structure Regs where
  eax : Word
  ecx : Word
  edx : Word
  ebx : Word
  esp : Word
  ebp : Word
  esi : Word
  edi : Word
  ds : BitVec 16
  es : BitVec 16
  fs : BitVec 16
  gs : BitVec 16
  eip : Word
  cs : BitVec 16
  eflags : Word
  ss : BitVec 16
deriving DecidableEq

/-- The privilege level in a code selector is not that of the kernel. -/
def isOuter (cs : BitVec 16) : Bool := cs &&& 3 ≠ 0

def Regs.ring3 (r : Regs) : Bool := isOuter r.cs

/-- A selector as it is pushed. -/
def segWord (x : BitVec 16) : Word := x.setWidth 32

/-- A selector as it is popped. -/
def wordSeg (x : Word) : BitVec 16 := x.setWidth 16

/-- What the CPU pushes for an interrupt; out of ring 3 it changes to the stack at `esp0`. -/
def interruptPush (s : Sched) (r : Regs) : Memory × Word :=
  if r.ring3 then
    pushes s.mem s.tssEsp0 [segWord r.ss, r.esp, r.eflags, segWord r.cs, r.eip]
  else pushes s.mem r.esp [r.eflags, segWord r.cs, r.eip]

/-- `pusha` and the pushes of `ds`, `es`, `fs` and `gs`. -/
def pushRegs (r : Regs) (stack : Memory × Word) : Memory × Word :=
  pushes stack.1 stack.2
    ([r.eax, r.ecx, r.edx, r.ebx, stack.2, r.ebp, r.esi, r.edi] ++
      [segWord r.ds, segWord r.es, segWord r.fs, segWord r.gs])

/-- The frame of `irq0_stub`. -/
def irq0Push (s : Sched) (r : Regs) : Memory × Word := pushRegs r (interruptPush s r)

/-- The frame of `scheduler_yield_asm`, which first pops its return address into `eax`. -/
def schedulerYieldPush (s : Sched) (r : Regs) : Memory × Word :=
  let eax := s.mem r.esp
  pushRegs { r with eax } (pushes s.mem (r.esp + 4) [r.eflags, kernelCs, eax])

/-- `pop gs` to `iretd`; `esp` and `ss` are popped for a return to ring 3 only. -/
def popRegs (mem : Memory) (esp : Word) (ss : BitVec 16) : Regs :=
  let word := stackWord mem esp
  let cs := wordSeg (word 13)
  { gs := wordSeg (word 0)
    fs := wordSeg (word 1)
    es := wordSeg (word 2)
    ds := wordSeg (word 3)
    edi := word 4
    esi := word 5
    ebp := word 6
    ebx := word 8
    edx := word 9
    ecx := word 10
    eax := word 11
    eip := word 12
    cs
    eflags := word 14
    esp := if isOuter cs then word 15 else esp + 60
    ss := if isOuter cs then wordSeg (word 16) else ss }

/-- The call of `scheduler_yield_impl` and what follows it. `calls` is what the C code leaves in
memory, its own stack included, and `ss` the stack segment the stub runs on. -/
def stubTail (calls : Memory → Memory) (s : Sched) (esp : Word) (ss : BitVec 16) :
    Sched × Regs :=
  let (s, eax) := schedulerYieldImpl { s with mem := calls s.mem } esp
  let esp := if eax = 0 then esp else eax
  (s, popRegs s.mem esp ss)

/-- The stack segment of the kernel: `ss0` of the TSS after a change of stacks. -/
def Regs.stubSs (r : Regs) : BitVec 16 := if r.ring3 then wordSeg kernelDs else r.ss

/-- `irq0_stub`; `scheduleNeeded` is the flag as `pit_handler` leaves it. -/
def irq0Stub (calls : Memory → Memory) (scheduleNeeded : Bool) (s : Sched) (r : Regs) :
    Sched × Regs :=
  let (mem, esp) := irq0Push s r
  if scheduleNeeded then stubTail calls { s with mem } esp r.stubSs
  else ({ s with mem := calls mem }, popRegs (calls mem) esp r.stubSs)

/-- `scheduler_yield_asm`. -/
def schedulerYieldAsm (calls : Memory → Memory) (s : Sched) (r : Regs) : Sched × Regs :=
  let (mem, esp) := schedulerYieldPush s r
  stubTail calls { s with mem } esp r.ss

section Frames

variable {s : Sched} {r : Regs} {mem : Memory} {esp dummy wrapper : Word} {ss : BitVec 16}

/-- The words of a frame upwards from `gs`; the word `popa` skips is free. -/
def Regs.frame (r : Regs) (dummy : Word) : List Word :=
  [segWord r.gs, segWord r.fs, segWord r.es, segWord r.ds, r.edi, r.esi, r.ebp, dummy, r.ebx,
    r.edx, r.ecx, r.eax, r.eip, segWord r.cs, r.eflags] ++
    if r.ring3 then [r.esp, segWord r.ss] else []

/-- The registers after the pops: in ring 0 the stack pointer is left above the frame. -/
def Regs.resumed (r : Regs) (esp : Word) (ss : BitVec 16) : Regs :=
  if r.ring3 then r else { r with esp := esp + 60, ss }

@[simp] theorem wordSeg_segWord (x : BitVec 16) : wordSeg (segWord x) = x := by
  simp [wordSeg, segWord]

/-- The pops give back what the frame was made from. -/
theorem popRegs_frame (h : FrameAt mem esp (r.frame dummy)) :
    popRegs mem esp ss = r.resumed esp ss := by
  have hword : ∀ k w, (r.frame dummy)[k]? = some w → stackWord mem esp k = w := h
  have hcs := hword 13 (segWord r.cs) rfl
  simp only [popRegs, hword 0 _ rfl, hword 1 _ rfl, hword 2 _ rfl, hword 3 _ rfl, hword 4 _ rfl,
    hword 5 _ rfl, hword 6 _ rfl, hword 8 _ rfl, hword 9 _ rfl, hword 10 _ rfl, hword 11 _ rfl,
    hword 12 _ rfl, hcs, hword 14 _ rfl, wordSeg_segWord]
  by_cases hring : r.ring3 = true
  · have hesp := hword 15 r.esp (by simp [Regs.frame, hring])
    have hss := hword 16 (segWord r.ss) (by simp [Regs.frame, hring])
    have houter : isOuter r.cs = true := hring
    simp [Regs.resumed, hring, houter, hesp, hss]
  · have houter : isOuter r.cs = false := by simpa [Regs.ring3] using hring
    simp [Regs.resumed, hring, houter]

/-- Fifteen words, or seventeen out of ring 3. -/
theorem Regs.frame_length (r : Regs) (dummy : Word) :
    (r.frame dummy).length = if r.ring3 then 17 else 15 := by
  unfold Regs.frame
  split <;> rfl

/-- Pushing the registers under what the CPU pushed completes a frame. -/
theorem pushRegs_frame {stack : Memory × Word} {top : List Word}
    (h : FrameAt stack.1 stack.2 ([r.eip, segWord r.cs, r.eflags] ++ top))
    (htop : top = if r.ring3 then [r.esp, segWord r.ss] else []) :
    FrameAt (pushRegs r stack).1 (pushRegs r stack).2 (r.frame stack.2) := by
  have hlen : top.length ≤ 2 := by
    rw [htop]
    split <;> simp
  have hall := h.pushes ([r.eax, r.ecx, r.edx, r.ebx, stack.2, r.ebp, r.esi, r.edi] ++
    [segWord r.ds, segWord r.es, segWord r.fs, segWord r.gs]) (by simp; omega)
  rw [htop] at hall
  exact hall

theorem pushRegs_esp {stack : Memory × Word} : (pushRegs r stack).2 = stack.2 - 48 :=
  pushes_esp

theorem interruptPush_frame :
    FrameAt (interruptPush s r).1 (interruptPush s r).2
      ([r.eip, segWord r.cs, r.eflags] ++ if r.ring3 then [r.esp, segWord r.ss] else []) := by
  unfold interruptPush
  split
  · exact (FrameAt.nil _ _).pushes _ (by simp)
  · exact (FrameAt.nil _ _).pushes _ (by simp)

theorem irq0Push_frame :
    FrameAt (irq0Push s r).1 (irq0Push s r).2 (r.frame (interruptPush s r).2) :=
  pushRegs_frame interruptPush_frame rfl

/-- Out of ring 0 the frame lies right under the stack pointer. -/
theorem irq0Push_esp (h : r.ring3 = false) : (irq0Push s r).2 + 60 = r.esp := by
  rw [irq0Push, pushRegs_esp, interruptPush, h, if_neg (by decide), pushes_esp]
  simp only [List.length_cons, List.length_nil]
  bv_omega

theorem irq0Push_resumed :
    r.resumed (irq0Push s r).2 ss = if r.ring3 then r else { r with ss } := by
  by_cases hring : r.ring3 = true
  · simp [Regs.resumed, hring]
  · simp only [Regs.resumed, hring]
    rw [irq0Push_esp (by simpa using hring)]

/-- The registers with which a caller of `scheduler_yield_asm` goes on. -/
def Regs.returned (r : Regs) (eip : Word) : Regs :=
  { r with eax := eip, eip, cs := wordSeg kernelCs, esp := r.esp + 4 }

theorem Regs.returned_ring3 {eip : Word} : (r.returned eip).ring3 = false := by
  simp [Regs.ring3, Regs.returned, isOuter, wordSeg, kernelCs]

theorem schedulerYieldPush_frame :
    ∃ dummy, FrameAt (schedulerYieldPush s r).1 (schedulerYieldPush s r).2
      ((r.returned (s.mem r.esp)).frame dummy) := by
  have hcpu := (FrameAt.nil s.mem (r.esp + 4)).pushes [r.eflags, kernelCs, s.mem r.esp] (by simp)
  exact ⟨_, pushRegs_frame (r := r.returned (s.mem r.esp)) hcpu (by rw [Regs.returned_ring3]; rfl)⟩

theorem schedulerYieldPush_esp : (schedulerYieldPush s r).2 + 60 = r.esp + 4 := by
  rw [schedulerYieldPush, pushRegs_esp, pushes_esp]
  simp only [List.length_cons, List.length_nil]
  bv_omega

theorem schedulerYieldPush_resumed :
    (r.returned (s.mem r.esp)).resumed (schedulerYieldPush s r).2 ss =
      { r.returned (s.mem r.esp) with ss } := by
  rw [Regs.resumed, Regs.returned_ring3, if_neg (by decide), schedulerYieldPush_esp]
  rfl

/-- The registers a kernel process starts with. -/
def kernelEntry (processWrapper esp : Word) (ss : BitVec 16) : Regs :=
  { eax := 0, ecx := 0, edx := 0, ebx := 0, esp, ebp := 0, esi := 0, edi := 0
    ds := 0x10, es := 0x10, fs := 0x10, gs := 0x10
    eip := processWrapper, cs := 0x08, eflags := 0x202, ss }

/-- The registers a user process starts with. -/
def userEntry (p : Process) : Regs :=
  { eax := 0, ecx := 0, edx := 0, ebx := 0, esp := p.kernelStack (kernelStackSize - 256)
    ebp := 0, esi := 0, edi := 0, ds := 0x23, es := 0x23, fs := 0x23, gs := 0x23
    eip := p.entryPoint, cs := 0x1B, eflags := 0x202, ss := 0x23 }

theorem kernelEntry_ring3 : (kernelEntry wrapper esp ss).ring3 = false := by
  simp [kernelEntry, Regs.ring3, isOuter]

theorem userEntry_ring3 {p : Process} : (userEntry p).ring3 = true := by
  simp [userEntry, Regs.ring3, isOuter]

theorem kernelEntry_resumed {ss' : BitVec 16} :
    (kernelEntry wrapper esp ss').resumed (esp - 60) ss = kernelEntry wrapper esp ss := by
  rw [Regs.resumed, kernelEntry_ring3, if_neg (by decide), BitVec.sub_add_cancel]
  rfl

theorem kernelFrame_reverse :
    (kernelFrame wrapper).reverse = (kernelEntry wrapper esp ss).frame 0 := by
  simp [kernelFrame, kernelEntry, Regs.frame, Regs.ring3, isOuter, segWord, kernelCs, kernelDs]

theorem userFrame_reverse {p : Process} : (userFrame p).reverse = (userEntry p).frame 0 := by
  simp [userFrame, userEntry, Regs.frame, Regs.ring3, isOuter, segWord, userCs, userDs]

theorem kernelFrame_frame (ss : BitVec 16) :
    FrameAt (pushes mem esp (kernelFrame wrapper)).1 (pushes mem esp (kernelFrame wrapper)).2
      ((kernelEntry wrapper esp ss).frame 0) := by
  have h := (FrameAt.nil mem esp).pushes (kernelFrame wrapper) (by simp [kernelFrame])
  rwa [List.append_nil, kernelFrame_reverse] at h

theorem userFrame_frame {p : Process} :
    FrameAt (pushes mem esp (userFrame p)).1 (pushes mem esp (userFrame p)).2
      ((userEntry p).frame 0) := by
  have h := (FrameAt.nil mem esp).pushes (userFrame p) (by simp [userFrame])
  rwa [List.append_nil, userFrame_reverse] at h

end Frames

end HumanOS

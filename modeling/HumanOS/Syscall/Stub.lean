import HumanOS.Scheduler.Switch
import HumanOS.Syscall.Abi

/-!
# The stub of the system calls

`syscall_stub` of `arch/i386/interrupts.s`, and the code of `syscall_handler` as far as it concerns
the stack. The stub saves `ds` only: the other data segments are those of the kernel when it
returns, and `iretd` takes them away from ring 3. The gate turns interrupts off, so that a call is
left for other processes in `scheduler_yield_asm` only.
-/
namespace HumanOS

open Lib

/-- The access bytes of the GDT. -/
def gdtAccess (i : Nat) : Nat := [0, 0x9A, 0x92, 0xFA, 0xF2, 0xE9].getD i 0

/-- The privilege level of the segment behind a selector. -/
def segmentDpl (sel : BitVec 16) : Nat := gdtAccess (sel.toNat / 8) / 32 % 4

/-- A selector that ring 3 can load: null, or that of a code or data segment of its level. -/
def UserSelector (sel : BitVec 16) : Prop :=
  sel.toNat < 4 ∨
    sel.toNat / 4 % 2 = 0 ∧ gdtAccess (sel.toNat / 8) / 16 % 2 = 1 ∧ segmentDpl sel = 3

instance (sel : BitVec 16) : Decidable (UserSelector sel) := inferInstanceAs (Decidable (_ ∨ _))

/-- What a return to ring 3 makes of a data segment register: the CPU puts the null selector in
the place of a more privileged segment. -/
def outerSelector (sel : BitVec 16) : BitVec 16 :=
  if 4 ≤ sel.toNat ∧ segmentDpl sel < 3 then 0 else sel

/-- The frame of `syscall_stub` under what the CPU pushes: the error code, the interrupt number,
`pusha` and `ds`. -/
def syscallPush (s : Sched) (r : Regs) : Memory × Word :=
  let stack := interruptPush s r
  let stack := pushes stack.1 stack.2 [0, 0x80]
  pushes stack.1 stack.2
    [r.eax, r.ecx, r.edx, r.ebx, stack.2, r.ebp, r.esi, r.edi, segWord r.ds]

/-- The scheduler with that frame on the stack. -/
def Sched.called (s : Sched) (r : Regs) : Sched := { s with mem := (syscallPush s r).1 }

/-- The registers with which `syscall_handler` is called: the kernel's segments, and on the stack
the argument and the return address. -/
def syscallEntry (handler : Word) (s : Sched) (r : Regs) : Regs :=
  { r with
    ds := wordSeg kernelDs
    es := wordSeg kernelDs
    fs := wordSeg kernelDs
    gs := wordSeg kernelDs
    ss := r.stubSs
    cs := wordSeg kernelCs
    eip := handler
    esp := (syscallPush s r).2 - 8 }

/-- What the dispatcher reads through `registers_t* regs`. -/
def sysRegsAt (mem : Memory) (regs : Word) : SysRegs :=
  ⟨stackWord mem regs 8, stackWord mem regs 5, stackWord mem regs 7, stackWord mem regs 6⟩

/-- `pop ds` to `iretd`, with the other segments as the kernel has them. -/
def syscallPop (mem : Memory) (esp : Word) (kernel : Regs) : Regs :=
  let word := stackWord mem esp
  let cs := wordSeg (word 12)
  let segment := fun sel => if isOuter cs then outerSelector sel else sel
  { ds := segment (wordSeg (word 0))
    es := segment kernel.es
    fs := segment kernel.fs
    gs := segment kernel.gs
    edi := word 1
    esi := word 2
    ebp := word 3
    ebx := word 5
    edx := word 6
    ecx := word 7
    eax := word 8
    eip := word 11
    cs
    eflags := word 13
    esp := if isOuter cs then word 14 else esp + 56
    ss := if isOuter cs then wordSeg (word 15) else kernel.ss }

/-- What the code of `syscall_handler` and its callees does, seen from the stack. -/
inductive HandlerOp where
  | work (a : SchedPiece)
  | store (eax : Word)
  | yield

/-- The value of `regs->eax` afterwards. -/
def HandlerOp.stored (eax : Word) : HandlerOp → Word
  | .store eax' => eax'
  | _ => eax

/-- `scheduler_yield_asm` is called `gap` words under the frame of the stub, on the same kernel
stack. -/
structure YieldRoom (k : Regs) (frame : Word) (gap : Nat) : Prop where
  under : k.esp + 4 + BitVec.ofNat 32 (4 * gap) = frame
  nonzero : k.esp - 56 ≠ 0
  room : 4 * gap ≤ kernelStackSize

/-- The code of the handler on behalf of the current process: it leaves the segments and the frame
of the stub alone but for `regs->eax`, and its stack from the frame of a yield upwards is left
alone by the others. -/
inductive HandlerStep (processWrapper frame : Word) :
    Sched × Regs → HandlerOp → Sched × Regs → Prop
  | work {s t : Sched} {k k' : Regs} {a : SchedPiece} :
      PieceStep processWrapper s a t → t.currentProcess = s.currentProcess →
      SameWords s.mem t.mem frame 16 →
      (k'.ds, k'.es, k'.fs, k'.gs) = (k.ds, k.es, k.fs, k.gs) →
      HandlerStep processWrapper frame (s, k) (.work a) (t, k')
  | store {s : Sched} {k : Regs} {eax : Word} :
      HandlerStep processWrapper frame (s, k) (.store eax)
        ({ s with mem := Function.update s.mem (frame + 32) eax }, k)
  | stays {s : Sched} {k : Regs} {calls : Memory → Memory} {gap : Nat} :
      YieldRoom k frame gap →
      SameWords (schedulerYieldPush s k).1 (calls (schedulerYieldPush s k).1)
        (schedulerYieldPush s k).2 (31 + gap) →
      (schedulerYieldAsm calls s k).1.currentProcess = s.currentProcess →
      HandlerStep processWrapper frame (s, k) .yield (schedulerYieldAsm calls s k)
  | switched {s t : Sched} {k : Regs} {calls calls' : Memory → Memory} {gap : Nat}
      {as : List SchedPiece} {esp : Word} {ss : BitVec 16} :
      YieldRoom k frame gap →
      SameWords (schedulerYieldPush s k).1 (calls (schedulerYieldPush s k).1)
        (schedulerYieldPush s k).2 (31 + gap) →
      (schedulerYieldAsm calls s k).1.currentProcess ≠ s.currentProcess →
      Run (AwayStep processWrapper s.currentProcess (schedulerYieldPush s k).2 (31 + gap))
        (schedulerYieldAsm calls s k).1 as t →
      t.currentProcess ≠ s.currentProcess →
      SameWords t.mem (calls' t.mem) (schedulerYieldPush s k).2 (31 + gap) →
      (stubTail calls' t esp ss).1.currentProcess = s.currentProcess →
      HandlerStep processWrapper frame (s, k) .yield (stubTail calls' t esp ss)

/-- A system call out of `r` has come back to the stub: the dispatcher has stored `eax`, and the
process has come to scheduler `t` and registers `k'`. -/
structure SyscallReturns (ok : Nat → Bool) (fuel : Nat) (processWrapper handler : Word) (k : Kernel)
    (r : Regs) (eax : Word) (t : Sched) (k' : Regs) : Prop where
  dispatched : ∃ currentEsp kernel,
    syscallHandler ok fuel currentEsp { k with sched := k.sched.called r }
      (sysRegsAt (k.sched.called r).mem (syscallPush k.sched r).2) = some (.returns kernel eax)
  run : ∃ ops, Run (HandlerStep processWrapper (syscallPush k.sched r).2)
      (k.sched.called r, syscallEntry handler k.sched r) ops (t, k') ∧
    ops.foldl HandlerOp.stored r.eax = eax
  balanced : k'.esp = (syscallPush k.sched r).2 - 4

/-- The registers a caller finds as they were. -/
structure CallerRegs (r r' : Regs) : Prop where
  ebx : r'.ebx = r.ebx
  ecx : r'.ecx = r.ecx
  edx : r'.edx = r.edx
  esi : r'.esi = r.esi
  edi : r'.edi = r.edi
  ebp : r'.ebp = r.ebp
  esp : r'.esp = r.esp
  eip : r'.eip = r.eip
  cs : r'.cs = r.cs
  ss : r'.ss = r.ss
  ds : r'.ds = r.ds
  es : r'.es = r.es
  fs : r'.fs = r.fs
  gs : r'.gs = r.gs

variable {s t : Sched} {r k k' : Regs} {c gap : Nat} {frame eax dummy wrapper handler : Word}
variable {op : HandlerOp} {ops : List HandlerOp} {st st' : Sched × Regs} {mem : Memory}
variable {ok : Nat → Bool} {fuel : Nat} {kernel : Kernel}

section Frame

/-- The words of the frame upwards from `ds`, as `registers_t` has them, and those for the return
to ring 3. -/
def Regs.callFrame (r : Regs) (dummy eax : Word) : List Word :=
  [segWord r.ds, r.edi, r.esi, r.ebp, dummy, r.ebx, r.edx, r.ecx, eax, 0x80, 0, r.eip,
    segWord r.cs, r.eflags, r.esp, segWord r.ss]

theorem syscallPush_frame (hring : r.ring3 = true) :
    ∃ dummy, FrameAt (s.called r).mem (syscallPush s r).2 (r.callFrame dummy r.eax) := by
  have hcpu := interruptPush_frame (s := s) (r := r)
  rw [if_pos hring] at hcpu
  have hnumber := hcpu.pushes [0, 0x80] (by simp)
  have hall := hnumber.pushes [r.eax, r.ecx, r.edx, r.ebx,
    (pushes (interruptPush s r).1 (interruptPush s r).2 [0, 0x80]).2, r.ebp, r.esi, r.edi,
    segWord r.ds] (by simp)
  exact ⟨_, hall⟩

/-- The dispatcher finds the registers of the caller where `registers_t` has them. -/
theorem sysRegsAt_called (hring : r.ring3 = true) :
    sysRegsAt (s.called r).mem (syscallPush s r).2 = ⟨r.eax, r.ebx, r.ecx, r.edx⟩ := by
  obtain ⟨dummy, hframe⟩ := syscallPush_frame (s := s) hring
  have hword : ∀ n w, (r.callFrame dummy r.eax)[n]? = some w →
    stackWord (s.called r).mem (syscallPush s r).2 n = w := hframe
  simp only [sysRegsAt, hword 8 _ rfl, hword 5 _ rfl, hword 7 _ rfl, hword 6 _ rfl]

theorem UserSelector.outer {sel : BitVec 16} (h : UserSelector sel) : outerSelector sel = sel := by
  rcases h with hnull | ⟨-, -, hdpl⟩
  · exact if_neg (by omega)
  · exact if_neg (by omega)

theorem outerSelector_kernelDs : outerSelector (wordSeg kernelDs) = 0 := by decide

/-- What the pops give back: all but `es`, `fs` and `gs`. -/
theorem syscallPop_frame (hring : r.ring3 = true) (hds : UserSelector r.ds)
    (h : FrameAt mem frame (r.callFrame dummy eax))
    (hseg : (k.es, k.fs, k.gs) = (wordSeg kernelDs, wordSeg kernelDs, wordSeg kernelDs)) :
    syscallPop mem frame k = { r with eax, es := 0, fs := 0, gs := 0 } := by
  have hword : ∀ n w, (r.callFrame dummy eax)[n]? = some w → stackWord mem frame n = w := h
  have houter : isOuter r.cs = true := hring
  simp only [Prod.mk.injEq] at hseg
  simp only [syscallPop, hword 0 _ rfl, hword 1 _ rfl, hword 2 _ rfl, hword 3 _ rfl,
    hword 5 _ rfl, hword 6 _ rfl, hword 7 _ rfl, hword 8 _ rfl, hword 11 _ rfl, hword 12 _ rfl,
    hword 13 _ rfl, hword 14 _ rfl, hword 15 _ rfl, wordSeg_segWord, houter, if_true, hds.outer,
    hseg, outerSelector_kernelDs]

end Frame

section Handler

/-- Process `c` is in a system call out of `r`, with `eax` in `regs->eax`. -/
structure InSyscall (c : Nat) (frame : Word) (r : Regs) (dummy eax : Word) (s : Sched)
    (k : Regs) : Prop where
  current : s.currentProcess = c
  slot : c < s.processCount
  present : (s.processes c).isSome
  frame : FrameAt s.mem frame (r.callFrame dummy eax)
  segments : (k.es, k.fs, k.gs) = (wordSeg kernelDs, wordSeg kernelDs, wordSeg kernelDs)

theorem YieldRoom.yieldFrame_ne (hroom : YieldRoom k frame gap) :
    (schedulerYieldPush s k).2 ≠ 0 := by
  have hesp := schedulerYieldPush_esp (s := s) (r := k)
  intro hzero
  rw [hzero] at hesp
  apply hroom.nonzero
  bv_omega

/-- Under the frame of the stub lies that of the yield. -/
theorem schedulerYieldPush_under (hroom : YieldRoom k frame gap)
    (h : FrameAt s.mem frame (r.callFrame dummy eax)) :
    ∃ dummy' words, words.length = gap ∧
      FrameAt (schedulerYieldPush s k).1 (schedulerYieldPush s k).2
        ((k.returned (s.mem k.esp)).frame dummy' ++ (words ++ r.callFrame dummy eax)) := by
  have hgap := hroom.room
  simp only [kernelStackSize] at hgap
  rw [← hroom.under] at h
  have hcall := h.under
  have hcpu := hcall.pushes [k.eflags, kernelCs, s.mem k.esp] (by simp [Regs.callFrame]; omega)
  have hall := hcpu.pushes ([s.mem k.esp, k.ecx, k.edx, k.ebx,
    (pushes s.mem (k.esp + 4) [k.eflags, kernelCs, s.mem k.esp]).2, k.ebp, k.esi, k.edi] ++
    [segWord k.ds, segWord k.es, segWord k.fs, segWord k.gs]) (by simp [Regs.callFrame]; omega)
  refine ⟨(pushes s.mem (k.esp + 4) [k.eflags, kernelCs, s.mem k.esp]).2,
    (List.range gap).map (stackWord s.mem (k.esp + 4)), by simp, ?_⟩
  rw [Regs.frame, Regs.returned_ring3]
  exact hall

theorem callStack_length {f : Regs} {words : List Word} (hf : f.ring3 = false)
    (hwords : words.length = gap) (dummy' : Word) (r : Regs) (dummy eax : Word) :
    (f.frame dummy' ++ (words ++ r.callFrame dummy eax)).length = 31 + gap := by
  rw [List.length_append, List.length_append, Regs.frame_length, hf, hwords]
  simp only [Regs.callFrame, List.length_cons, List.length_nil, Bool.false_eq_true, if_false]
  omega

/-- What lies above the frame of the yield. -/
theorem callStack_upper {f : Regs} {esp dummy' : Word} {words : List Word}
    (hf : f.ring3 = false) (hwords : words.length = gap)
    (hframe : esp + 60 + BitVec.ofNat 32 (4 * gap) = frame)
    (h : FrameAt mem esp (f.frame dummy' ++ (words ++ r.callFrame dummy eax))) :
    FrameAt mem frame (r.callFrame dummy eax) := by
  have hup := h.upper.upper
  rw [Regs.frame_length, hf, hwords] at hup
  rw [← hframe]
  exact hup

/-- A piece of work that leaves the process current keeps it in its slot. -/
theorem PieceStep.keeps_slot {a : SchedPiece} (hs : PieceStep wrapper s a t)
    (hc : t.currentProcess = s.currentProcess) (hslot : s.currentProcess < s.processCount)
    (hp : (s.processes s.currentProcess).isSome) :
    s.currentProcess < t.processCount ∧ (t.processes s.currentProcess).isSome := by
  obtain rfl := hs
  rcases SchedPiece.apply_cases wrapper s a with
    ⟨f, hr, -, -⟩ | ⟨esp, -, next, -, hnext, heq⟩ | ⟨proc, entry, name, ws, ha, -⟩
  · rw [hr.count, hr.processes _ hslot, Option.isSome_map]
    exact ⟨hslot, hp⟩
  · rw [heq] at hc
    exact absurd hc hnext
  · have hold := ha.old (i := s.currentProcess) hslot
    rw [ha.count, hold]
    exact ⟨by omega, hp⟩

/-- A yield leaves the call as it is, whether or not others ran meanwhile. -/
theorem InSyscall.yield (h : InSyscall c frame r dummy eax s k)
    (hs : HandlerStep wrapper frame (s, k) .yield st') :
    InSyscall c frame r dummy eax st'.1 st'.2 := by
  obtain ⟨rfl, hslot, hpresent, hframe, hseg⟩ := h
  cases hs with
  | @stays _ _ calls gap hroom hsame hstay =>
    obtain ⟨dummy', words, hwords, hpushed⟩ := schedulerYieldPush_under hroom hframe
    have hring : (k.returned (s.mem k.esp)).ring3 = false := Regs.returned_ring3
    have hkept := hsame
    rw [← callStack_length hring hwords dummy' r dummy eax] at hsame
    rw [schedulerYieldAsm_stays (fun n hn => hkept n (by omega)) hstay]
    refine ⟨rfl, hslot, hpresent, ?_, hseg⟩
    refine callStack_upper hring hwords ?_ (hpushed.congr hsame)
    rw [schedulerYieldPush_esp]
    exact hroom.under
  | @switched _ t _ calls calls' gap as esp ss hroom hsame hleft haway hne hsame' hback =>
    obtain ⟨dummy', words, hwords, hpushed⟩ := schedulerYieldPush_under hroom hframe
    have hring : (k.returned (s.mem k.esp)).ring3 = false := Regs.returned_ring3
    rw [← callStack_length hring hwords dummy' r dummy eax] at hsame haway hsame'
    obtain ⟨p, hp⟩ := Option.isSome_iff_exists.mp hpresent
    have hsaved := stubTail_saved (s := { s with mem := (schedulerYieldPush s k).1 }) hslot hp
      hpushed hsame hleft
    obtain ⟨hregs, hresumed⟩ := (hsaved.run haway).resumes hroom.yieldFrame_ne hne hsame' hback
    obtain ⟨q, hq, -⟩ := Option.map_eq_some_iff.mp hresumed.saved
    refine ⟨hback, hresumed.slot, Option.isSome_of_eq_some hq, ?_, ?_⟩
    · refine callStack_upper hring hwords ?_ hresumed.frame
      rw [schedulerYieldPush_esp]
      exact hroom.under
    · rw [hregs, schedulerYieldPush_resumed]
      exact hseg

theorem InSyscall.step (h : InSyscall c frame r dummy eax st.1 st.2)
    (hs : HandlerStep wrapper frame st op st') :
    InSyscall c frame r dummy (op.stored eax) st'.1 st'.2 := by
  cases op with
  | work a =>
    cases hs with
    | work hpiece hc hsame hseg =>
      obtain ⟨rfl, hslot, hpresent, hframe, hkernel⟩ := h
      obtain ⟨hslot', hpresent'⟩ := hpiece.keeps_slot hc hslot hpresent
      simp only [Prod.mk.injEq] at hseg hkernel
      refine ⟨hc, hslot', hpresent', hframe.congr hsame, ?_⟩
      simp only [hseg, hkernel]
  | store value =>
    cases hs with
    | store =>
      refine ⟨h.current, h.slot, h.present, ?_, h.segments⟩
      exact h.frame.set (n := 8) (by simp [Regs.callFrame]) (by simp [Regs.callFrame])
  | yield => exact h.yield hs

theorem InSyscall.run (h : InSyscall c frame r dummy eax st.1 st.2)
    (hr : Run (HandlerStep wrapper frame) st ops st') :
    InSyscall c frame r dummy (ops.foldl HandlerOp.stored eax) st'.1 st'.2 := by
  induction hr generalizing eax with
  | refl => exact h
  | stepL hs _ ih => exact ih (h.step hs)

/-- The registers after a system call, in terms of those before it. -/
theorem SyscallReturns.pop (hreturns : SyscallReturns ok fuel wrapper handler kernel r eax t k)
    (hring : r.ring3 = true) (hds : UserSelector r.ds)
    (hslot : kernel.sched.currentProcess < kernel.sched.processCount)
    (hpresent : kernel.sched.current.isSome) :
    syscallPop t.mem (k.esp + 4) k = { r with eax, es := 0, fs := 0, gs := 0 } := by
  obtain ⟨-, ⟨ops, hrun, hstored⟩, hbalanced⟩ := hreturns
  obtain ⟨dummy, hframe⟩ := syscallPush_frame (s := kernel.sched) hring
  have hentered : InSyscall kernel.sched.currentProcess (syscallPush kernel.sched r).2 r dummy r.eax
      (kernel.sched.called r) (syscallEntry handler kernel.sched r) :=
    ⟨rfl, hslot, hpresent, hframe, rfl⟩
  have hleft := hentered.run hrun
  rw [hstored] at hleft
  rw [hbalanced, BitVec.sub_add_cancel]
  exact syscallPop_frame hring hds hleft.frame hleft.segments

end Handler

section Runs

/-- The end of every handler: the result is stored and the stack taken down. -/
theorem handler_finish (wrapper frame eax esp : Word) (s : Sched) (k : Regs) :
    Run (HandlerStep wrapper frame) (s, k)
      [.store eax, .work (.write (Function.update s.mem (frame + 32) eax))]
      ({ s with mem := Function.update s.mem (frame + 32) eax }, { k with esp }) :=
  .stepL .store (.single (.work rfl rfl (fun _ _ => rfl) rfl))

/-- `kernel_main` and a user process, which runs. -/
def userKernel : Kernel :=
  { Kernel.oneProcess with
    sched := (schedulerYieldAsm id (schedulerAddUserProcess Kernel.oneProcess.sched 0x302000
      0x110000 "User") mainRegs).1 }

/-- Registers of that process at a system call, with this selector in `es`, `fs` and `gs`. -/
def userRegs (number : Word) (sel : BitVec 16) : Regs :=
  ⟨number, 2, 3, 4, 0x302f00, 5, 6, 7, 0x23, sel, sel, sel, 0x110020, 0x1B, 0x202, 0x23⟩

/-- `SYS_YIELD` of the process: `kernel_main` gets the CPU and yields back. -/
theorem yield_returns : ∃ t k, SyscallReturns (fun _ => true) 0 0x100000 0x120000 userKernel
    (userRegs sysYield 0) 0 t k := by
  have hesp : (syscallPush userKernel.sched (userRegs sysYield 0)).2 = 0x302ff8 := by decide +kernel
  have hdispatched : ∃ currentEsp kernel, syscallHandler (fun _ => true) 0 currentEsp
      { userKernel with sched := userKernel.sched.called (userRegs sysYield 0) }
      (sysRegsAt (userKernel.sched.called (userRegs sysYield 0)).mem
        (syscallPush userKernel.sched (userRegs sysYield 0)).2) = some (.returns kernel 0) := by
    rw [sysRegsAt_called rfl]
    exact ⟨0, _, rfl⟩
  -- `scheduler_yield_asm` is called fourteen words under the frame of the stub
  have hcalled : HandlerStep 0x100000 (syscallPush userKernel.sched (userRegs sysYield 0)).2
      (userKernel.sched.called (userRegs sysYield 0),
        syscallEntry 0x120000 userKernel.sched (userRegs sysYield 0))
      (.work (.write (userKernel.sched.called (userRegs sysYield 0)).mem))
      (userKernel.sched.called (userRegs sysYield 0),
        { syscallEntry 0x120000 userKernel.sched (userRegs sysYield 0) with esp := 0x302fbc }) :=
    .work rfl rfl (fun _ _ => rfl) rfl
  have hyield := @HandlerStep.switched 0x100000
    (syscallPush userKernel.sched (userRegs sysYield 0)).2
    (userKernel.sched.called (userRegs sysYield 0)) _
    { syscallEntry 0x120000 userKernel.sched (userRegs sysYield 0) with esp := 0x302fbc }
    id id 14 [] 0x1fff00 0x10 ⟨hesp.symm, by decide, by decide⟩ (fun _ _ => rfl)
    (by decide +kernel) .refl (by decide +kernel) (fun _ _ => rfl) (by decide +kernel)
  exact ⟨_, _, hdispatched,
    ⟨_, .stepL hcalled (.stepL hyield (handler_finish _ _ 0 _ _ _)), rfl⟩, rfl⟩

end Runs

end HumanOS

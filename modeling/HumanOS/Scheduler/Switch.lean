import HumanOS.Scheduler.Stubs
import HumanOS.Scheduler.Table

/-!
# Context switches over whole runs

The operations of the scheduler are taken apart into what they do to the table and the yield they
end in, so that a switch can be looked at wherever it happens. Writes to memory are steps as well:
the stacks are ordinary memory.
-/
namespace HumanOS

open Lib

variable {s t : Sched} {c n i : Nat} {esp wrapper : Word} {ws : List Word} {p : Process}

/-- A piece of a scheduler operation, or a write to memory. -/
inductive SchedPiece where
  | addProcess (proc entry : Word) (name : String)
  | addUserProcess (proc entry : Word) (name : String)
  | yieldImpl (esp : Word)
  | exitCurrent (p : Process) (code : Int)
  | killSlot (i pid : Nat)
  | blockOn (pid : Nat)
  | terminateAll
  | write (mem : Memory)

def SchedPiece.apply (processWrapper : Word) (s : Sched) : SchedPiece → Sched
  | .addProcess proc entry name => schedulerAddProcess processWrapper s proc entry name
  | .addUserProcess proc entry name => schedulerAddUserProcess s proc entry name
  | .yieldImpl esp => (schedulerYieldImpl s esp).1
  | .exitCurrent p code => HumanOS.exitCurrent s p code
  | .killSlot i pid => HumanOS.killSlot s i pid
  | .blockOn pid => s.blockOn pid
  | .terminateAll => schedulerTerminateAll s
  | .write mem => { s with mem }

def PieceStep (processWrapper : Word) (s : Sched) (a : SchedPiece) (t : Sched) : Prop :=
  t = a.apply processWrapper s

section Pieces

variable {r r' : SchedRun} {op : SchedOp}

theorem waitLoop_pieces (s : Sched) (target : Nat) (esp : Word) :
    ∃ as, Run (PieceStep wrapper) s as (waitLoop s target esp).1 := by
  unfold waitLoop
  cases s.processes target with
  | none => exact ⟨[], .refl⟩
  | some p =>
    dsimp only
    split
    · exact ⟨[.yieldImpl esp], .single schedulerYield_eq⟩
    · exact ⟨[], .refl⟩

/-- Every operation is a run of its pieces. -/
theorem SchedStep.pieces (h : SchedStep wrapper r op r') :
    ∃ as, Run (PieceStep wrapper) r.sched as r'.sched := by
  cases h with
  | @addProcess proc entry name => exact ⟨[.addProcess proc entry name], .single rfl⟩
  | @addUserProcess proc entry name => exact ⟨[.addUserProcess proc entry name], .single rfl⟩
  | @yieldImpl esp => exact ⟨[.yieldImpl esp], .single rfl⟩
  | @exit code esp =>
    simp only [processExit]
    cases hp : r.sched.current with
    | none => exact ⟨[], .refl⟩
    | some p =>
      exact ⟨[.exitCurrent p code, .yieldImpl esp], .stepL rfl (.single schedulerYield_eq)⟩
  | @kill pid esp =>
    simp only [processKill]
    cases hfind : findAlive r.sched pid with
    | none => exact ⟨[], .refl⟩
    | some i =>
      dsimp only
      split
      · exact ⟨[.killSlot i pid, .yieldImpl esp], .stepL rfl (.single schedulerYield_eq)⟩
      · exact ⟨[.killSlot i pid], .single rfl⟩
  | @wait pid esp =>
    simp only [SchedRun.afterWait]
    rcases processWait_cases r.sched pid esp with ⟨code, heq⟩ | ⟨j, -, -, -, -, -, heq⟩
    · rw [heq]
      exact ⟨[], .refl⟩
    · rw [heq]
      obtain ⟨as, hloop⟩ := waitLoop_pieces (r.sched.blockOn pid) j esp
      exact ⟨.blockOn pid :: as, .stepL rfl hloop⟩
  | @recheck target esp => exact waitLoop_pieces r.sched target esp
  | terminateAll => exact ⟨[.terminateAll], .single rfl⟩

end Pieces

section Saved

variable {a : SchedPiece} {as : List SchedPiece} {calls : Memory → Memory} {r : Regs}
variable {dummy esp' : Word} {ss : BitVec 16}

/-- Slot `c` holds a saved stack pointer and the words `ws` lie there. -/
structure Saved (s : Sched) (c : Nat) (esp : Word) (ws : List Word) : Prop where
  slot : c < s.processCount
  saved : (s.processes c).map Process.esp = some esp
  frame : FrameAt s.mem esp ws

/-- A piece of another process' work that leaves the `n` words at `esp` alone. -/
def AwayStep (processWrapper : Word) (c : Nat) (esp : Word) (n : Nat) (s : Sched)
    (a : SchedPiece) (t : Sched) : Prop :=
  s.currentProcess ≠ c ∧ PieceStep processWrapper s a t ∧ SameWords s.mem t.mem esp n

theorem ended_esp {pid : Nat} {code : Int} : (ended i pid code c p).esp = p.esp := by
  unfold ended Process.wake
  split <;> split <;> rfl

/-- What a piece can do: change states only, switch, or append a process. -/
theorem SchedPiece.apply_cases (wrapper : Word) (s : Sched) (a : SchedPiece) :
    (∃ f, Remaps s (a.apply wrapper s) f ∧ (∀ i p, (f i p).esp = p.esp) ∧
      (a.apply wrapper s).currentProcess = s.currentProcess) ∨
    (∃ esp, a = .yieldImpl esp ∧ ∃ next < s.processCount, next ≠ s.currentProcess ∧
      a.apply wrapper s = switchTo s next esp) ∨
    ∃ proc entry name ws, Added s (a.apply wrapper s) (newProcess s proc entry name) ws ∧
      (a = .addProcess proc entry name ∧ ws = kernelFrame wrapper ∨
        a = .addUserProcess proc entry name ∧ ws = userFrame (newProcess s proc entry name)) := by
  cases a with
  | addProcess proc entry name =>
    rcases schedulerAddProcess_cases wrapper s proc entry name with ⟨text, heq⟩ | ⟨-, -, ha⟩
    · simp only [apply, heq]
      exact Or.inl ⟨_, .rfl_of_processes rfl rfl rfl, fun _ _ => rfl, rfl⟩
    · exact Or.inr (Or.inr ⟨proc, entry, name, _, ha, Or.inl ⟨rfl, rfl⟩⟩)
  | addUserProcess proc entry name =>
    rcases schedulerAddUserProcess_cases s proc entry name with ⟨text, heq⟩ | ⟨-, -, ha⟩
    · simp only [apply, heq]
      exact Or.inl ⟨_, .rfl_of_processes rfl rfl rfl, fun _ _ => rfl, rfl⟩
    · exact Or.inr (Or.inr ⟨proc, entry, name, _, ha, Or.inr ⟨rfl, rfl⟩⟩)
  | yieldImpl esp =>
    rcases schedulerYieldImpl_cases s esp with heq | ⟨next, hnext, hne, p, -, -, heq⟩
    · refine Or.inl ⟨_, .rfl_of_processes ?_ ?_ ?_, fun _ _ => rfl, ?_⟩ <;> simp only [apply, heq]
    · exact Or.inr (Or.inl ⟨esp, rfl, next, hnext, hne, by simp only [apply, heq]⟩)
  | exitCurrent p code => exact Or.inl ⟨_, exitCurrent_remaps, fun _ _ => ended_esp, rfl⟩
  | killSlot i pid => exact Or.inl ⟨_, killSlot_remaps, fun _ _ => ended_esp, rfl⟩
  | blockOn pid =>
    refine Or.inl ⟨_, blockOn_remaps, fun i p => ?_, rfl⟩
    split <;> rfl
  | terminateAll =>
    refine Or.inl ⟨_, terminateAll_remaps, fun i p => ?_, rfl⟩
    split <;> rfl
  | write mem => exact Or.inl ⟨_, .rfl_of_processes rfl rfl rfl, fun _ _ => rfl, rfl⟩

/-- Other processes neither move the saved stack pointer nor free its slot. -/
theorem Saved.step (h : Saved s c esp ws) (hs : AwayStep wrapper c esp ws.length s a t) :
    Saved t c esp ws := by
  obtain ⟨hne, rfl, hsame⟩ := hs
  rcases SchedPiece.apply_cases wrapper s a with
    ⟨f, hr, hesp, -⟩ | ⟨esp', -, next, -, hnext, heq⟩ | ⟨proc, entry, name, ws', ha, -⟩
  · refine ⟨by rw [hr.count]; exact h.slot, ?_, h.frame.congr hsame⟩
    rw [hr.processes c h.slot, Option.map_map, ← h.saved]
    exact congrArg (fun g => (s.processes c).map g) (funext (hesp c))
  · rw [heq] at hsame ⊢
    refine ⟨h.slot, ?_, h.frame.congr hsame⟩
    rw [(switchTo_remaps hnext).processes c h.slot, Option.map_map, ← h.saved]
    refine congrArg (fun g => (s.processes c).map g) (funext fun p => ?_)
    simp only [Function.comp, switched, if_neg hne.symm]
    split <;> rfl
  · refine ⟨?_, ?_, h.frame.congr hsame⟩
    · have := h.slot
      rw [ha.count]
      omega
    · rw [ha.old h.slot, h.saved]

theorem Saved.run (h : Saved s c esp ws) (hr : Run (AwayStep wrapper c esp ws.length) s as t) :
    Saved t c esp ws :=
  hr.invariant (fun s => Saved s c esp ws) (fun _ _ _ hs h => h.step hs) h

/-- What the next switch to slot `c` gives it, whatever the other processes do until then as long
as the `n` words at `esp` stay; `ss` is the stack segment of the kernel at that moment. -/
def RunsAs (processWrapper : Word) (c : Nat) (esp : Word) (n : Nat) (s : Sched)
    (regs : BitVec 16 → Regs) : Prop :=
  ∀ as t calls esp' ss, Run (AwayStep processWrapper c esp n) s as t → t.currentProcess ≠ c →
    SameWords t.mem (calls t.mem) esp n → (stubTail calls t esp' ss).1.currentProcess = c →
    (stubTail calls t esp' ss).2 = regs ss

/-- A switch to slot `c` pops the frame it was left with and touches nothing above. -/
theorem Saved.resumes (h : Saved t c esp (r.frame dummy ++ ws)) (h0 : esp ≠ 0)
    (hne : t.currentProcess ≠ c)
    (hsame : SameWords t.mem (calls t.mem) esp (r.frame dummy ++ ws).length)
    (hc : (stubTail calls t esp' ss).1.currentProcess = c) :
    (stubTail calls t esp' ss).2 = r.resumed esp ss ∧
      Saved (stubTail calls t esp' ss).1 c esp (r.frame dummy ++ ws) := by
  rcases schedulerYieldImpl_cases { t with mem := calls t.mem } esp' with
    heq | ⟨next, -, hnext, p, hp, -, heq⟩
  · simp only [stubTail, heq] at hc
    exact absurd hc hne
  · simp only [stubTail, heq] at hc ⊢
    obtain rfl : next = c := hc
    have hslot : t.processes next = some p := hp
    have hesp : p.esp = esp := by
      have hs := h.saved
      rw [hslot] at hs
      simpa using hs
    have hframe := h.frame.congr hsame
    rw [hesp, if_neg h0]
    refine ⟨popRegs_frame hframe.lower, h.slot, ?_, hframe⟩
    rw [(switchTo_remaps hnext).processes next h.slot]
    simp only [hslot, Option.map_some, switched, if_neg hnext, if_true, hesp]

theorem Saved.runsAs (wrapper : Word) (h : Saved s c esp (r.frame dummy)) (h0 : esp ≠ 0) :
    RunsAs wrapper c esp (r.frame dummy).length s (r.resumed esp) := by
  intro as t calls esp' ss hr hne hsame hc
  have hsaved := h.run hr
  rw [← List.append_nil (r.frame dummy)] at hsaved hsame
  exact (hsaved.resumes h0 hne hsame hc).1

/-- A process that is switched away leaves its frame behind. -/
theorem stubTail_saved (hc : s.currentProcess < s.processCount) (hp : s.current = some p)
    (hf : FrameAt s.mem esp ws) (hsame : SameWords s.mem (calls s.mem) esp ws.length)
    (hleft : (stubTail calls s esp ss).1.currentProcess ≠ s.currentProcess) :
    Saved (stubTail calls s esp ss).1 s.currentProcess esp ws := by
  rcases schedulerYieldImpl_cases { s with mem := calls s.mem } esp with
    heq | ⟨next, -, hnext, q, -, -, heq⟩
  · simp only [stubTail, heq] at hleft
    exact absurd rfl hleft
  · simp only [stubTail, heq]
    refine ⟨hc, ?_, hf.congr hsame⟩
    rw [(switchTo_remaps hnext).processes _ hc]
    simp only [show s.processes s.currentProcess = some p from hp, Option.map_some, switched,
      if_true]
    split <;> rfl

/-- Without a switch the process goes on from its own frame. -/
theorem stubTail_stays (hf : FrameAt s.mem esp (r.frame dummy))
    (hsame : SameWords s.mem (calls s.mem) esp (r.frame dummy).length)
    (hstay : (stubTail calls s esp ss).1.currentProcess = s.currentProcess) :
    stubTail calls s esp ss = ({ s with mem := calls s.mem }, r.resumed esp ss) := by
  rcases schedulerYieldImpl_cases { s with mem := calls s.mem } esp with
    heq | ⟨next, -, hnext, q, -, -, heq⟩
  · simp only [stubTail, heq, if_true]
    rw [popRegs_frame (hf.congr hsame)]
  · simp only [stubTail, heq] at hstay
    exact absurd hstay hnext

end Saved

section Zero

variable {a : SchedPiece} {as : List SchedPiece} {proc : Word} {name : String}

/-- The stack pointers of the piece are not 0: one passed to `scheduler_yield_impl`, or the one
left under a frame of fifteen or seventeen words. -/
def SchedPiece.Nonzero : SchedPiece → Prop
  | .addProcess proc _ _ => ∀ p : Process, p.addr = proc → p.stackTop - 60 ≠ 0
  | .addUserProcess proc _ _ => ∀ p : Process, p.addr = proc → p.stackTop - 68 ≠ 0
  | .yieldImpl esp => esp ≠ 0
  | _ => True

def NonzeroStep (processWrapper : Word) (s : Sched) (a : SchedPiece) (t : Sched) : Prop :=
  PieceStep processWrapper s a t ∧ a.Nonzero

/-- Everyone but the current process, whose field may still be the initial 0, has a saved stack
pointer. -/
def SavedNonzero (s : Sched) : Prop :=
  ∀ i < s.processCount, i ≠ s.currentProcess → ∀ p, s.processes i = some p → p.esp ≠ 0

theorem kernelFrame_esp {mem : Memory} :
    (pushes mem esp (kernelFrame wrapper)).2 = esp - 60 := pushes_esp

theorem userFrame_esp {mem : Memory} : (pushes mem esp (userFrame p)).2 = esp - 68 := pushes_esp

theorem SavedNonzero.step (h : SavedNonzero s) (hs : NonzeroStep wrapper s a t) :
    SavedNonzero t := by
  obtain ⟨rfl, hnz⟩ := hs
  intro i hi hne p hp
  rcases SchedPiece.apply_cases wrapper s a with
    ⟨f, hr, hesp, hcur⟩ | ⟨esp, rfl, next, -, hnext, heq⟩ | ⟨proc, entry, name, ws, ha, hkind⟩
  · rw [hr.count] at hi
    obtain ⟨q, hq, rfl⟩ := hr.of_slot hi hp
    rw [hesp]
    exact h i hi (hcur ▸ hne) q hq
  · rw [heq] at hi hne hp
    obtain ⟨q, hq, rfl⟩ := (switchTo_remaps hnext).of_slot hi hp
    by_cases hleft : i = s.currentProcess
    · have hesp : (switched s next esp i q).esp = esp := by
        simp only [switched, if_pos hleft]
        split <;> rfl
      rw [hesp]
      exact hnz
    · simp only [switched, if_neg hleft, if_neg (show i ≠ next from hne)]
      exact h i hi hleft q hq
  · rcases ha.slot hp with ⟨-, rfl⟩ | ⟨hnew, hp⟩
    · rcases hkind with ⟨rfl, rfl⟩ | ⟨rfl, rfl⟩
      · rw [kernelFrame_esp]
        exact hnz _ rfl
      · rw [userFrame_esp]
        exact hnz _ rfl
    · rw [ha.count] at hi
      exact h i (by omega) (ha.current ▸ hne) p hp

theorem converted_savedNonzero :
    SavedNonzero (schedulerConvertCurrentProcess (schedulerInit s) proc name) := by
  intro i hi hne
  by_cases hproc : proc = 0
  · simp [schedulerConvertCurrentProcess, schedulerInit, Sched.puts, maxProcesses, hproc] at hi
  · obtain ⟨console, heq⟩ := converted_eq s name hproc
    rw [heq] at hi hne
    exact absurd (Nat.lt_one_iff.mp hi) hne

theorem SavedNonzero.yieldImpl_zero (h : SavedNonzero s) :
    (schedulerYieldImpl s esp).2 = 0 ↔
      (schedulerYieldImpl s esp).1.currentProcess = s.currentProcess := by
  rcases schedulerYieldImpl_cases s esp with heq | ⟨next, hlt, hnext, p, hp, -, heq⟩
  · simp [heq]
  · rw [heq]
    exact iff_of_false (h next hlt hnext p hp) hnext

end Zero

section Producers

variable {calls : Memory → Memory} {r : Regs} {ss : BitVec 16} {proc entry : Word}
variable {name : String} {scheduleNeeded : Bool}

theorem irq0Stub_runsAs (hc : s.currentProcess < s.processCount) (hp : s.current.isSome)
    (h0 : (irq0Push s r).2 ≠ 0)
    (hsame : SameWords (irq0Push s r).1 (calls (irq0Push s r).1) (irq0Push s r).2
      (if r.ring3 then 17 else 15))
    (hleft : (irq0Stub calls true s r).1.currentProcess ≠ s.currentProcess) :
    RunsAs wrapper s.currentProcess (irq0Push s r).2 (if r.ring3 then 17 else 15)
      (irq0Stub calls true s r).1 fun ss => if r.ring3 then r else { r with ss } := by
  obtain ⟨p, hp⟩ := Option.isSome_iff_exists.mp hp
  have hf := irq0Push_frame (s := s) (r := r)
  rw [← Regs.frame_length r (interruptPush s r).2] at hsame ⊢
  have hsaved := stubTail_saved (s := { s with mem := (irq0Push s r).1 }) hc hp hf hsame hleft
  have hruns := hsaved.runsAs wrapper h0
  rwa [show r.resumed (irq0Push s r).2 = fun ss => if r.ring3 then r else { r with ss } from
    funext fun _ => irq0Push_resumed] at hruns

theorem irq0Stub_stays
    (hsame : SameWords (irq0Push s r).1 (calls (irq0Push s r).1) (irq0Push s r).2
      (if r.ring3 then 17 else 15))
    (hstay : (irq0Stub calls scheduleNeeded s r).1.currentProcess = s.currentProcess) :
    irq0Stub calls scheduleNeeded s r = ({ s with mem := calls (irq0Push s r).1 }, r) := by
  have hf := irq0Push_frame (s := s) (r := r)
  rw [← Regs.frame_length r (interruptPush s r).2] at hsame
  have hself : r.resumed (irq0Push s r).2 r.stubSs = r := by
    rw [irq0Push_resumed]
    by_cases hring : r.ring3 = true <;> simp [Regs.stubSs, hring]
  cases scheduleNeeded with
  | false =>
    simp only [irq0Stub, Bool.false_eq_true, if_false]
    rw [popRegs_frame (hf.congr hsame), hself]
  | true =>
    have hstub := stubTail_stays (s := { s with mem := (irq0Push s r).1 }) hf hsame hstay
    rwa [hself] at hstub

theorem schedulerYieldAsm_runsAs (hc : s.currentProcess < s.processCount) (hp : s.current.isSome)
    (h0 : (schedulerYieldPush s r).2 ≠ 0)
    (hsame : SameWords (schedulerYieldPush s r).1 (calls (schedulerYieldPush s r).1)
      (schedulerYieldPush s r).2 15)
    (hleft : (schedulerYieldAsm calls s r).1.currentProcess ≠ s.currentProcess) :
    RunsAs wrapper s.currentProcess (schedulerYieldPush s r).2 15
      (schedulerYieldAsm calls s r).1 fun ss => { r.returned (s.mem r.esp) with ss } := by
  obtain ⟨p, hp⟩ := Option.isSome_iff_exists.mp hp
  obtain ⟨dummy, hf⟩ := schedulerYieldPush_frame (s := s) (r := r)
  have hlen : ((r.returned (s.mem r.esp)).frame dummy).length = 15 := by
    rw [Regs.frame_length, Regs.returned_ring3]
    rfl
  rw [← hlen] at hsame ⊢
  have hsaved :=
    stubTail_saved (s := { s with mem := (schedulerYieldPush s r).1 }) hc hp hf hsame hleft
  have hruns := hsaved.runsAs wrapper h0
  rwa [show (r.returned (s.mem r.esp)).resumed (schedulerYieldPush s r).2 =
    fun ss => { r.returned (s.mem r.esp) with ss } from
    funext fun _ => schedulerYieldPush_resumed] at hruns

theorem schedulerYieldAsm_stays
    (hsame : SameWords (schedulerYieldPush s r).1 (calls (schedulerYieldPush s r).1)
      (schedulerYieldPush s r).2 15)
    (hstay : (schedulerYieldAsm calls s r).1.currentProcess = s.currentProcess) :
    schedulerYieldAsm calls s r =
      ({ s with mem := calls (schedulerYieldPush s r).1 }, r.returned (s.mem r.esp)) := by
  obtain ⟨dummy, hf⟩ := schedulerYieldPush_frame (s := s) (r := r)
  have hlen : ((r.returned (s.mem r.esp)).frame dummy).length = 15 := by
    rw [Regs.frame_length, Regs.returned_ring3]
    rfl
  rw [← hlen] at hsame
  have hstub :=
    stubTail_stays (s := { s with mem := (schedulerYieldPush s r).1 }) hf hsame hstay
  rwa [schedulerYieldPush_resumed] at hstub

/-- A process just added waits with its first frame. -/
theorem Added.saved {frame : List Word} (ha : Added s t p ws)
    (hesp : (pushes s.mem p.stackTop ws).2 = esp)
    (hf : FrameAt (pushes s.mem p.stackTop ws).1 (pushes s.mem p.stackTop ws).2 frame) :
    Saved t s.processCount esp frame := by
  refine ⟨by rw [ha.count]; omega, ?_, ?_⟩
  · rw [ha.processes, Function.update_self, Option.map_some, hesp]
  · rw [ha.mem, ← hesp]
    exact hf

theorem schedulerAddProcess_runsAs (hroom : s.processCount < maxProcesses) (hproc : proc ≠ 0)
    (h0 : (newProcess s proc entry name).stackTop - 60 ≠ 0) :
    RunsAs wrapper s.processCount ((newProcess s proc entry name).stackTop - 60) 15
      (schedulerAddProcess wrapper s proc entry name)
      (kernelEntry wrapper (newProcess s proc entry name).stackTop) := by
  have hadd := addProcess_added entry name (fun _ => kernelFrame wrapper)
    "[SCHEDULER] Added Kernel Process (Ring 0): " 0x1A hroom hproc
  have hsaved := hadd.saved kernelFrame_esp (kernelFrame_frame 0)
  have hruns := hsaved.runsAs wrapper h0
  rw [Regs.frame_length, kernelEntry_ring3] at hruns
  rwa [show (kernelEntry wrapper (newProcess s proc entry name).stackTop 0).resumed
    ((newProcess s proc entry name).stackTop - 60) =
    kernelEntry wrapper (newProcess s proc entry name).stackTop from
    funext fun _ => kernelEntry_resumed] at hruns

theorem schedulerAddUserProcess_runsAs (hroom : s.processCount < maxProcesses) (hproc : proc ≠ 0)
    (h0 : (newProcess s proc entry name).stackTop - 68 ≠ 0) :
    RunsAs wrapper s.processCount ((newProcess s proc entry name).stackTop - 68) 17
      (schedulerAddUserProcess s proc entry name)
      fun _ => userEntry (newProcess s proc entry name) := by
  have hadd := addProcess_added entry name userFrame
    "[SCHEDULER] Added User Process (Ring 3): " 0x0A hroom hproc
  have hsaved := hadd.saved userFrame_esp userFrame_frame
  have hruns := hsaved.runsAs wrapper h0
  rw [Regs.frame_length, userEntry_ring3] at hruns
  rwa [show (userEntry (newProcess s proc entry name)).resumed
    ((newProcess s proc entry name).stackTop - 68) =
    fun _ => userEntry (newProcess s proc entry name) from
    funext fun _ => if_pos userEntry_ring3] at hruns

end Producers

/-- What the stubs promise to every process. -/
structure SwitchTransparent (processWrapper : Word) : Prop where
  /-- `irq0_stub` gives back every register; in ring 0 the stack segment stays the kernel's. -/
  irq0 : ∀ calls s r, s.currentProcess < s.processCount → s.current.isSome → (irq0Push s r).2 ≠ 0 →
    SameWords (irq0Push s r).1 (calls (irq0Push s r).1) (irq0Push s r).2
      (if r.ring3 then 17 else 15) →
    (irq0Stub calls true s r).1.currentProcess ≠ s.currentProcess →
    RunsAs processWrapper s.currentProcess (irq0Push s r).2 (if r.ring3 then 17 else 15)
      (irq0Stub calls true s r).1 fun ss => if r.ring3 then r else { r with ss }
  /-- `scheduler_yield_asm` returns to its caller with `eax` changed only. -/
  yieldAsm : ∀ calls s r, s.currentProcess < s.processCount → s.current.isSome →
    (schedulerYieldPush s r).2 ≠ 0 →
    SameWords (schedulerYieldPush s r).1 (calls (schedulerYieldPush s r).1)
      (schedulerYieldPush s r).2 15 →
    (schedulerYieldAsm calls s r).1.currentProcess ≠ s.currentProcess →
    RunsAs processWrapper s.currentProcess (schedulerYieldPush s r).2 15
      (schedulerYieldAsm calls s r).1 fun ss => { r.returned (s.mem r.esp) with ss }
  /-- A kernel process starts in the trampoline. -/
  firstKernel : ∀ s proc entry name, s.processCount < maxProcesses → proc ≠ 0 →
    (newProcess s proc entry name).stackTop - 60 ≠ 0 →
    RunsAs processWrapper s.processCount ((newProcess s proc entry name).stackTop - 60) 15
      (schedulerAddProcess processWrapper s proc entry name)
      (kernelEntry processWrapper (newProcess s proc entry name).stackTop)
  /-- A user process starts at its entry point. -/
  firstUser : ∀ s proc entry name, s.processCount < maxProcesses → proc ≠ 0 →
    (newProcess s proc entry name).stackTop - 68 ≠ 0 →
    RunsAs processWrapper s.processCount ((newProcess s proc entry name).stackTop - 68) 17
      (schedulerAddUserProcess s proc entry name)
      fun _ => userEntry (newProcess s proc entry name)
  /-- The result is 0 exactly when there was no switch. -/
  zero : ∀ s proc name as t esp, Run (NonzeroStep processWrapper)
      (schedulerConvertCurrentProcess (schedulerInit s) proc name) as t →
    ((schedulerYieldImpl t esp).2 = 0 ↔
      (schedulerYieldImpl t esp).1.currentProcess = t.currentProcess)
  /-- Without a switch the scheduler is as it was. -/
  unchanged : ∀ s esp, (schedulerYieldImpl s esp).1.currentProcess = s.currentProcess →
    (schedulerYieldImpl s esp).1 = s
  /-- Without a switch the interrupted process goes on with its registers. -/
  irq0Stays : ∀ calls scheduleNeeded s r,
    SameWords (irq0Push s r).1 (calls (irq0Push s r).1) (irq0Push s r).2
      (if r.ring3 then 17 else 15) →
    (irq0Stub calls scheduleNeeded s r).1.currentProcess = s.currentProcess →
    irq0Stub calls scheduleNeeded s r = ({ s with mem := calls (irq0Push s r).1 }, r)
  /-- Without a switch `scheduler_yield_asm` returns. -/
  yieldAsmStays : ∀ calls s r,
    SameWords (schedulerYieldPush s r).1 (calls (schedulerYieldPush s r).1)
      (schedulerYieldPush s r).2 15 →
    (schedulerYieldAsm calls s r).1.currentProcess = s.currentProcess →
    schedulerYieldAsm calls s r =
      ({ s with mem := calls (schedulerYieldPush s r).1 }, r.returned (s.mem r.esp))
  /-- After a switch interrupts of the new process are taken on its own kernel stack. -/
  esp0 : ∀ s esp, (schedulerYieldImpl s esp).1.currentProcess ≠ s.currentProcess →
    ∃ p, (schedulerYieldImpl s esp).1.current = some p ∧
      (schedulerYieldImpl s esp).1.tssEsp0 = p.stackTop

theorem schedulerYieldImpl_esp0
    (hleft : (schedulerYieldImpl s esp).1.currentProcess ≠ s.currentProcess) :
    ∃ p, (schedulerYieldImpl s esp).1.current = some p ∧
      (schedulerYieldImpl s esp).1.tssEsp0 = p.stackTop := by
  rcases schedulerYieldImpl_cases s esp with heq | ⟨next, -, hnext, p, hp, -, heq⟩
  · rw [heq] at hleft
    exact absurd rfl hleft
  · rw [heq]
    exact ⟨{ p with state := .running }, by
      simp [switchTo, Sched.current, Sched.modify, hnext, hp], by
      simp [switchTo, Sched.modify, hnext, hp, Process.stackTop, Process.kernelStack]⟩

/-- A process never notices that it was switched away. -/
theorem context_switch_transparent (processWrapper : Word) : SwitchTransparent processWrapper where
  irq0 := fun _ _ _ => irq0Stub_runsAs
  yieldAsm := fun _ _ _ => schedulerYieldAsm_runsAs
  firstKernel := fun _ _ _ _ => schedulerAddProcess_runsAs
  firstUser := fun _ _ _ _ => schedulerAddUserProcess_runsAs
  zero := by
    intro s proc name as t esp hr
    have hinv := hr.invariant SavedNonzero (fun _ _ _ hs h => h.step hs)
      converted_savedNonzero
    exact hinv.yieldImpl_zero
  unchanged := fun _ _ => schedulerYieldImpl_unchanged
  irq0Stays := fun _ _ _ _ => irq0Stub_stays
  yieldAsmStays := fun _ _ _ => schedulerYieldAsm_stays
  esp0 := fun _ _ => schedulerYieldImpl_esp0

/-- `kernel_main` with one kernel process beside it. -/
def twoProcesses : Sched :=
  schedulerAddProcess 0x100000
    (schedulerConvertCurrentProcess (schedulerInit .powerOn) 0x300000 "KernelMain")
    0x302000 0x110000 "Shell"

/-- Some registers of `kernel_main`. -/
def mainRegs : Regs :=
  ⟨1, 2, 3, 4, 0x200000, 5, 6, 7, 0x10, 0x10, 0x10, 0x10, 0x101234, 0x08, 0x246, 0x10⟩

/-- `kernel_main` yields to the new process, which yields back. -/
theorem context_switch_transparent_there_and_back :
    (schedulerYieldAsm id twoProcesses mainRegs).1.currentProcess = 1 ∧
    (stubTail id (schedulerYieldAsm id twoProcesses mainRegs).1 0x302f00 0x10).1.currentProcess =
      0 ∧
    (stubTail id (schedulerYieldAsm id twoProcesses mainRegs).1 0x302f00 0x10).2 =
      mainRegs.returned (twoProcesses.mem mainRegs.esp) := by
  have haway : (schedulerYieldAsm id twoProcesses mainRegs).1.currentProcess = 1 := by
    decide +kernel
  have hback : (stubTail id (schedulerYieldAsm id twoProcesses mainRegs).1 0x302f00
      0x10).1.currentProcess = 0 := by decide +kernel
  have hruns := (context_switch_transparent 0x100000).yieldAsm id twoProcesses mainRegs
    (by decide +kernel) (by decide +kernel) (by decide +kernel) (fun _ _ => rfl)
    (by decide +kernel)
  exact ⟨haway, hback, hruns [] _ id 0x302f00 0x10 .refl (by decide +kernel) (fun _ _ => rfl) hback⟩

end HumanOS

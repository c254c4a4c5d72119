import HumanOS.Scheduler.Lifetime

/-!
# Waiting for a process, statement by statement

`process_wait` taken apart: each statement of the current process is a step, and between two of
them the timer may switch to any ready process. `process_exit` and `process_kill` run as written.
Nothing keeps the timer out between the test of the target and the two stores that announce the
wait.
-/
namespace HumanOS

open Lib

/-- The statement of `process_wait` a process executes next, with its argument and the slot of its
target. -/
inductive WaitPc where
  | outside
  | find (pid : Nat)
  | test (pid target : Nat)
  | setBlocked (pid target : Nat)
  | setWaiting (pid target : Nat)
  | loop (pid target : Nat)
  | yield (pid target : Nat)
deriving DecidableEq

/-- Where a statement leads: to the next one, or out of the call with a value and the slot of the
target if there was one. -/
inductive WaitNext where
  | goto (pc : WaitPc)
  | ret (value : Int) (target : Option Nat)
deriving DecidableEq

/-- One statement of `process_wait`, executed by the current process. -/
def waitStatement (s : Sched) (currentEsp : Word) : WaitPc → Sched × WaitNext
  | .outside => (s, .goto .outside)
  | .find pid =>
    match s.current, findPid s pid with
    | some _, some target => (s, .goto (.test pid target))
    | _, _ => (s, .ret (-1) none)
  | .test pid target =>
    match s.processes target with
    | some t =>
      if t.state = .terminated then (s, .ret t.exitCode (some target))
      else (s, .goto (.setBlocked pid target))
    | none => (s, .ret (-1) none)
  | .setBlocked pid target =>
    (s.modify s.currentProcess fun p => { p with state := .blocked },
      .goto (.setWaiting pid target))
  | .setWaiting pid target =>
    (s.modify s.currentProcess fun p => { p with waitingForPid := pid }, .goto (.loop pid target))
  | .loop pid target =>
    match s.processes target with
    | some t =>
      if t.state ≠ .terminated then (s, .goto (.yield pid target))
      else (s, .ret t.exitCode (some target))
    | none => (s, .ret 0 none)
  | .yield pid target => (schedulerYield s currentEsp, .goto (.loop pid target))

/-- The scheduler, and where each process stands in `process_wait`. -/
structure WaitRun where
  sched : Sched
  pc : Nat → WaitPc

inductive WaitOp where
  | call (pid : Nat)
  | next (esp : Word)
  | timer (next : Nat) (esp : Word)
  | exit (code : Int) (esp : Word)
  | kill (pid : Nat) (esp : Word)
  | addProcess (proc entry : Word) (name : String)
  | addUserProcess (proc entry : Word) (name : String)

/-- Outside after a return. -/
def WaitNext.pc : WaitNext → WaitPc
  | .goto pc => pc
  | .ret _ _ => .outside

/-- The current process executes its statement. -/
def WaitRun.advance (r : WaitRun) (esp : Word) : WaitRun where
  sched := (waitStatement r.sched esp (r.pc r.sched.currentProcess)).1
  pc := Function.update r.pc r.sched.currentProcess
    (waitStatement r.sched esp (r.pc r.sched.currentProcess)).2.pc

inductive WaitStep (processWrapper : Word) : WaitRun → WaitOp → WaitRun → Prop
  | call {r : WaitRun} {pid : Nat} : r.pc r.sched.currentProcess = .outside →
      WaitStep processWrapper r (.call pid)
        { r with pc := Function.update r.pc r.sched.currentProcess (.find pid) }
  | next {r : WaitRun} {esp : Word} : r.pc r.sched.currentProcess ≠ .outside →
      WaitStep processWrapper r (.next esp) (r.advance esp)
  | timer {r : WaitRun} {next : Nat} {esp : Word} : next < r.sched.processCount →
      next ≠ r.sched.currentProcess → r.sched.isReady next = true →
      WaitStep processWrapper r (.timer next esp) { r with sched := switchTo r.sched next esp }
  | exit {r : WaitRun} {code : Int} {esp : Word} : r.pc r.sched.currentProcess = .outside →
      WaitStep processWrapper r (.exit code esp) { r with sched := processExit r.sched code esp }
  | kill {r : WaitRun} {pid : Nat} {esp : Word} : r.pc r.sched.currentProcess = .outside →
      WaitStep processWrapper r (.kill pid esp)
        { r with sched := (processKill r.sched pid esp).1 }
  | addProcess {r : WaitRun} {proc entry : Word} {name : String} :
      r.pc r.sched.currentProcess = .outside →
      WaitStep processWrapper r (.addProcess proc entry name)
        { r with sched := schedulerAddProcess processWrapper r.sched proc entry name }
  | addUserProcess {r : WaitRun} {proc entry : Word} {name : String} :
      r.pc r.sched.currentProcess = .outside →
      WaitStep processWrapper r (.addUserProcess proc entry name)
        { r with sched := schedulerAddUserProcess r.sched proc entry name }

def WaitRun.start (s : Sched) (proc : Word) (name : String) : WaitRun :=
  ⟨schedulerConvertCurrentProcess (schedulerInit s) proc name, fun _ => .outside⟩

variable {s t : Sched} {r r' : WaitRun} {op : WaitOp} {ops : List WaitOp}
variable {i j k n next pid target : Nat} {p q : Process} {esp wrapper proc : Word} {name : String}

/-- The current process `c` executes its statement. -/
theorem WaitStep.of_statement {pc : Nat → WaitPc} {c : Nat} {k : WaitPc} {x : WaitNext} (esp : Word)
    (hc : s.currentProcess = c) (hne : k ≠ .outside) (hs : waitStatement s esp k = (t, x)) :
    WaitStep wrapper ⟨s, Function.update pc c k⟩ (.next esp) ⟨t, Function.update pc c x.pc⟩ := by
  subst hc
  have hstep : WaitStep wrapper ⟨s, Function.update pc s.currentProcess k⟩ (.next esp)
      (WaitRun.advance ⟨s, Function.update pc s.currentProcess k⟩ esp) := .next (by simpa using hne)
  simpa [WaitRun.advance, hs] using hstep

/-- The two stores that announce a wait. -/
theorem blockOn_eq : (s.modify s.currentProcess fun p => { p with state := .blocked }).modify
    s.currentProcess (fun p => { p with waitingForPid := pid }) = s.blockOn pid := by
  simp [Sched.modify, Sched.blockOn, Option.map_map, Function.comp_def]

/-- Where `process_wait` leaves its caller. -/
def WaitOutcome.pc (pid : Nat) : WaitOutcome → WaitPc
  | .returned _ => .outside
  | .waiting target => .loop pid target

/-- The statements of a caller that finds its target alive. -/
theorem blockOn_statements {pc : Nat → WaitPc} (pid : Nat) (esp : Word)
    (hq : s.processes j = some q) (halive : q.state ≠ .terminated) :
    ∃ ops, Run (WaitStep wrapper) ⟨s, Function.update pc s.currentProcess (.setBlocked pid j)⟩ ops
      ⟨(waitLoop (s.blockOn pid) j esp).1, Function.update pc s.currentProcess
        ((waitLoop (s.blockOn pid) j esp).2.pc pid)⟩ := by
  obtain ⟨q', hq', halive'⟩ : ∃ q', (s.blockOn pid).processes j = some q' ∧
      q'.state ≠ .terminated := by
    by_cases hself : j = s.currentProcess
    · subst hself
      exact ⟨{ q with state := .blocked, waitingForPid := pid },
        by simp [Sched.blockOn, Sched.modify, hq], by simp⟩
    · exact ⟨q, by simp [Sched.blockOn, Sched.modify, hself, hq], halive⟩
  have hturn : waitLoop (s.blockOn pid) j esp =
      (schedulerYield (s.blockOn pid) esp, .waiting j) := by
    simp [waitLoop, hq', halive']
  have hwaiting : waitStatement (s.modify s.currentProcess fun p => { p with state := .blocked })
      esp (.setWaiting pid j) = (s.blockOn pid, .goto (.loop pid j)) := Prod.ext blockOn_eq rfl
  have hloop : waitStatement (s.blockOn pid) esp (.loop pid j) =
      (s.blockOn pid, .goto (.yield pid j)) := by
    simp [waitStatement, hq', halive']
  rw [hturn]
  exact ⟨_, .stepL (.of_statement esp rfl (by simp) rfl)
    (.stepL (.of_statement esp rfl (by simp [WaitNext.pc]) hwaiting)
    (.stepL (.of_statement esp rfl (by simp [WaitNext.pc]) hloop)
    (.single (.of_statement esp rfl (by simp [WaitNext.pc]) rfl))))⟩

/-- Without an interrupt the statements up to the first yield do what `process_wait` does. -/
theorem processWait_statements (s : Sched) (pc : Nat → WaitPc) (pid : Nat) (esp : Word)
    (hout : pc s.currentProcess = .outside) :
    ∃ ops, Run (WaitStep wrapper) ⟨s, pc⟩ ops ⟨(processWait s pid esp).1,
      Function.update pc s.currentProcess ((processWait s pid esp).2.pc pid)⟩ := by
  have hcall : WaitStep wrapper ⟨s, pc⟩ (.call pid)
      ⟨s, Function.update pc s.currentProcess (.find pid)⟩ := .call hout
  have hfail : ∀ k : WaitPc, k ≠ .outside → waitStatement s esp k = (s, .ret (-1) none) →
      WaitStep wrapper ⟨s, Function.update pc s.currentProcess k⟩ (.next esp)
        ⟨s, Function.update pc s.currentProcess .outside⟩ :=
    fun k hne hs => .of_statement esp rfl hne hs
  unfold processWait
  cases hcur : s.current with
  | none => exact ⟨_, .stepL hcall (.single (hfail _ (by simp) (by simp [waitStatement, hcur])))⟩
  | some c =>
    cases hfind : findPid s pid with
    | none =>
      exact ⟨_, .stepL hcall (.single (hfail _ (by simp) (by simp [waitStatement, hcur, hfind])))⟩
    | some j =>
      have htest : WaitStep wrapper ⟨s, Function.update pc s.currentProcess (.find pid)⟩
          (.next esp) ⟨s, Function.update pc s.currentProcess (.test pid j)⟩ :=
        .of_statement esp rfl (by simp) (x := .goto (.test pid j))
          (by simp [waitStatement, hcur, hfind])
      cases hq : s.processes j with
      | none =>
        simp only [hq]
        exact ⟨_, .stepL hcall (.stepL htest
          (.single (hfail _ (by simp) (by simp [waitStatement, hq]))))⟩
      | some q =>
        simp only [hq]
        split
        · rename_i hterm
          exact ⟨_, .stepL hcall (.stepL htest (.single (.of_statement esp rfl (by simp)
            (x := .ret q.exitCode (some j)) (by simp [waitStatement, hq, hterm]))))⟩
        · rename_i halive
          have hset : WaitStep wrapper ⟨s, Function.update pc s.currentProcess (.test pid j)⟩
              (.next esp) ⟨s, Function.update pc s.currentProcess (.setBlocked pid j)⟩ :=
            .of_statement esp rfl (by simp) (x := .goto (.setBlocked pid j))
              (by simp [waitStatement, hq, halive])
          obtain ⟨ops, hrest⟩ := blockOn_statements pid esp hq halive
          exact ⟨_, .stepL hcall (.stepL htest (.stepL hset hrest))⟩

/-- Slot `i` has found its target alive and not yet made its wait known. -/
def WaitPc.InWindow (k : WaitPc) (target : Nat) : Prop :=
  ∃ pid, k = .setBlocked pid target ∨ k = .setWaiting pid target

/-- Nobody else is about to wait for slot `target` without having said so. -/
def WaitRun.Unwatched (r : WaitRun) (target : Nat) : Prop :=
  ∀ i, i ≠ target → r.sched.alive i = true → ¬ (r.pc i).InWindow target

/-- A running process calls `process_wait`, and no process ends in the window of another. -/
def WaitOp.Safe (r : WaitRun) : WaitOp → Prop
  | .call _ => ∃ p, r.sched.current = some p ∧ p.state = .running
  | .exit _ _ => r.Unwatched r.sched.currentProcess
  | .kill pid _ => ∀ target, findAlive r.sched pid = some target → r.Unwatched target
  | _ => True

def SafeStep (processWrapper : Word) (r : WaitRun) (op : WaitOp) (r' : WaitRun) : Prop :=
  WaitStep processWrapper r op r' ∧ op.Safe r

/-- The argument and the target of a wait under way. -/
def WaitPc.waitsFor : WaitPc → Option (Nat × Nat)
  | .outside | .find _ => none
  | .test pid target | .setBlocked pid target | .setWaiting pid target => some (pid, target)
  | .loop pid target | .yield pid target => some (pid, target)

/-- A blocked process is about to say whom it waits for, or has said so. -/
def WaitPc.Waits (k : WaitPc) (p : Process) (pid target : Nat) : Prop :=
  k = .setWaiting pid target ∨ (k = .loop pid target ∨ k = .yield pid target) ∧
    p.waitingForPid = pid

theorem WaitPc.Waits.waitsFor {k : WaitPc} (h : k.Waits p pid target) :
    k.waitsFor = some (pid, target) := by
  rcases h with rfl | ⟨rfl | rfl, -⟩ <;> rfl

theorem alive_iff : s.alive i = true ↔ ∃ p, s.processes i = some p ∧ p.state ≠ .terminated := by
  unfold Sched.alive
  cases s.processes i <;> simp

structure WaitInv (r : WaitRun) : Prop where
  slot : r.sched.currentProcess < r.sched.processCount
  present : ∀ i < r.sched.processCount, ∃ p, r.sched.processes i = some p
  inside : ∀ i, r.pc i ≠ .outside → i < r.sched.processCount
  targets : ∀ i pid target, (r.pc i).waitsFor = some (pid, target) →
    target < r.sched.processCount ∧ ∃ q, r.sched.processes target = some q ∧ q.pid = pid
  window : ∀ i pid target, r.pc i = .setBlocked pid target → r.sched.alive i = true →
    r.sched.alive target = true
  blocked : ∀ i < r.sched.processCount, ∀ p, r.sched.processes i = some p →
    p.state = .blocked → ∃ pid target, (r.pc i).Waits p pid target ∧ r.sched.alive target = true
  current : r.pc r.sched.currentProcess ≠ .outside →
    ∃ p, r.sched.current = some p ∧ (p.state = .running ∨ p.state = .blocked)

/-- The current process moves on and touches nothing. -/
theorem WaitInv.setPc (h : WaitInv r) (k : WaitPc)
    (htarget : ∀ pid target, k.waitsFor = some (pid, target) → target < r.sched.processCount ∧
      ∃ q, r.sched.processes target = some q ∧ q.pid = pid)
    (hwindow : ∀ pid target, k = .setBlocked pid target → r.sched.alive target = true)
    (hblocked : ∀ p, r.sched.current = some p → p.state = .blocked →
      ∃ pid target, k.Waits p pid target ∧ r.sched.alive target = true)
    (hcur : k ≠ .outside → ∃ p, r.sched.current = some p ∧
      (p.state = .running ∨ p.state = .blocked)) :
    WaitInv ⟨r.sched, Function.update r.pc r.sched.currentProcess k⟩ := by
  refine ⟨h.slot, h.present, fun i hi => ?_, fun i pid target ht => ?_,
    fun i pid target hpc halive => ?_, fun i hi p hp hst => ?_, fun hne => ?_⟩
  · by_cases hic : i = r.sched.currentProcess
    · subst hic
      exact h.slot
    · exact h.inside i (by simpa [hic] using hi)
  · by_cases hic : i = r.sched.currentProcess
    · subst hic
      exact htarget pid target (by simpa using ht)
    · exact h.targets i pid target (by simpa [hic] using ht)
  · by_cases hic : i = r.sched.currentProcess
    · subst hic
      exact hwindow pid target (by simpa using hpc)
    · exact h.window i pid target (by simpa [hic] using hpc) halive
  · by_cases hic : i = r.sched.currentProcess
    · subst hic
      simpa using hblocked p hp hst
    · simpa [hic] using h.blocked i hi p hp hst
  · exact hcur (by simpa using hne)

/-- A process that has not announced a wait is not blocked. -/
theorem WaitInv.not_blocked (h : WaitInv r) (hp : r.sched.current = some p)
    (hk : ∀ pid target, ¬ (r.pc r.sched.currentProcess).Waits p pid target) :
    p.state ≠ .blocked := by
  intro hst
  obtain ⟨pid, target, hwaits, -⟩ := h.blocked _ h.slot p hp hst
  exact hk pid target hwaits

/-- Entries change, each for itself and but for its pid: what is left to show is about states. -/
theorem WaitInv.remap {f : Nat → Process → Process} {pc : Nat → WaitPc} (h : WaitInv r)
    (hr : Remaps r.sched t f) (hslot : t.currentProcess < r.sched.processCount)
    (hpc : ∀ i, (pc i).waitsFor = (r.pc i).waitsFor ∧ (pc i ≠ .outside → r.pc i ≠ .outside))
    (hwindow : ∀ i pid target, pc i = .setBlocked pid target → t.alive i = true →
      t.alive target = true)
    (hblocked : ∀ i < r.sched.processCount, ∀ p, r.sched.processes i = some p →
      (f i p).state = .blocked →
      ∃ pid target, (pc i).Waits (f i p) pid target ∧ t.alive target = true)
    (hcur : pc t.currentProcess ≠ .outside →
      ∃ p, t.current = some p ∧ (p.state = .running ∨ p.state = .blocked)) : WaitInv ⟨t, pc⟩ := by
  refine ⟨by rw [hr.count]; exact hslot, hr.present h.present, fun i hi => ?_,
    fun i pid target ht => ?_, hwindow, fun i hi p hp hst => ?_, hcur⟩
  · rw [hr.count]
    exact h.inside i ((hpc i).2 hi)
  · obtain ⟨hlt, q, hq, hpid⟩ := h.targets i pid target ((hpc i).1 ▸ ht)
    exact ⟨by rw [hr.count]; exact hlt, f target q, hr.slot_eq hlt hq, by rw [hr.pid, hpid]⟩
  · rw [hr.count] at hi
    obtain ⟨q, hq, rfl⟩ := hr.of_slot hi hp
    exact hblocked i hi q hq hst

/-- Whoever was alive is alive, and the other way round. -/
theorem Remaps.alive_eq {f : Nat → Process → Process} (hr : Remaps s t f)
    (hi : i < s.processCount)
    (hf : ∀ p, s.processes i = some p → ((f i p).state = .terminated ↔ p.state = .terminated)) :
    t.alive i = s.alive i := by
  rw [Bool.eq_iff_iff, alive_iff, alive_iff, hr.processes i hi]
  constructor
  · rintro ⟨q, hq, hst⟩
    obtain ⟨p, hp, rfl⟩ := Option.map_eq_some_iff.mp hq
    exact ⟨p, hp, fun hterm => hst ((hf p hp).mpr hterm)⟩
  · rintro ⟨p, hp, hst⟩
    exact ⟨f i p, by rw [hp, Option.map_some], fun hterm => hst ((hf p hp).mp hterm)⟩

theorem modify_remaps {g : Process → Process} (hpid : ∀ p, (g p).pid = p.pid) :
    Remaps s (s.modify k g) fun i p => if i = k then g p else p where
  processes := by
    intro i _
    by_cases hi : i = k
    · subst hi
      cases hp : s.processes i <;> simp [Sched.modify, hp]
    · cases hp : s.processes i <;> simp [Sched.modify, hi, hp]
  count := rfl
  nextPid := rfl
  pid := by
    intro i p
    split
    · exact hpid p
    · rfl

theorem WaitInv.alive_target (h : WaitInv r)
    (hsame : ∀ i < r.sched.processCount, t.alive i = r.sched.alive i)
    (hw : (r.pc i).waitsFor = some (pid, target)) : t.alive target = r.sched.alive target :=
  hsame target (h.targets i pid target hw).1

/-- Nobody ends: the targets of those in their windows stay alive. -/
theorem WaitInv.window_same (h : WaitInv r)
    (hsame : ∀ i < r.sched.processCount, t.alive i = r.sched.alive i)
    (hi : r.pc i = .setBlocked pid target) (hal : t.alive i = true) : t.alive target = true := by
  rw [hsame i (h.inside i (by simp [hi]))] at hal
  rw [h.alive_target hsame (by rw [hi]; rfl)]
  exact h.window i pid target hi hal

/-- The current process changes its own entry; if that leaves it blocked, its target is alive. -/
theorem WaitInv.own {g : Process → Process} {k : WaitPc} (h : WaitInv r) (pid target : Nat)
    (hpid : ∀ p, (g p).pid = p.pid)
    (hstate : ∀ p, p.state = .running ∨ p.state = .blocked →
      (g p).state = .running ∨ (g p).state = .blocked)
    (hwaits : ∀ p, k.Waits (g p) pid target)
    (hold : (r.pc r.sched.currentProcess).waitsFor = some (pid, target))
    (halive : ∀ p, r.sched.current = some p → (g p).state = .blocked →
      r.sched.alive target = true) :
    WaitInv ⟨r.sched.modify r.sched.currentProcess g,
      Function.update r.pc r.sched.currentProcess k⟩ := by
  have hinside : r.pc r.sched.currentProcess ≠ .outside := by
    intro hout
    simp [hout, WaitPc.waitsFor] at hold
  obtain ⟨c, hc, hcst⟩ := h.current hinside
  have hslot : r.sched.processes r.sched.currentProcess = some c := hc
  have hr := modify_remaps (s := r.sched) (k := r.sched.currentProcess) hpid
  have hsame : ∀ i < r.sched.processCount,
      (r.sched.modify r.sched.currentProcess g).alive i = r.sched.alive i := by
    intro i hi
    refine hr.alive_eq hi fun p hp => ?_
    by_cases hic : i = r.sched.currentProcess
    · subst hic
      obtain rfl : c = p := Option.some.inj (hslot.symm.trans hp)
      rw [if_pos rfl]
      refine iff_of_false ?_ ?_
      · rcases hstate c hcst with hst | hst <;> simp [hst]
      · rcases hcst with hst | hst <;> simp [hst]
    · rw [if_neg hic]
  refine h.remap hr h.slot (fun i => ?_) (fun i pid' target' hi hal => ?_)
    (fun i hi p hp hst => ?_) fun _ => ⟨g c, by simp [Sched.current, Sched.modify, hslot],
      hstate c hcst⟩
  · by_cases hic : i = r.sched.currentProcess
    · subst hic
      rw [Function.update_self]
      exact ⟨(hwaits c).waitsFor.trans hold.symm, fun _ => hinside⟩
    · rw [Function.update_of_ne hic]
      exact ⟨rfl, fun hne => hne⟩
  · have hic : i ≠ r.sched.currentProcess := by
      rintro rfl
      rw [Function.update_self] at hi
      rcases hwaits c with rfl | ⟨rfl | rfl, -⟩ <;> simp at hi
    rw [Function.update_of_ne hic] at hi
    exact h.window_same hsame hi hal
  · by_cases hic : i = r.sched.currentProcess
    · subst hic
      rw [if_pos rfl] at hst ⊢
      refine ⟨pid, target, by simpa using hwaits p, ?_⟩
      rw [h.alive_target hsame hold]
      exact halive p hp hst
    · rw [if_neg hic] at hst ⊢
      obtain ⟨pid', target', hw, hal⟩ := h.blocked i hi p hp hst
      refine ⟨pid', target', by simpa [hic] using hw, ?_⟩
      rw [h.alive_target hsame hw.waitsFor]
      exact hal

/-- The timer, or a yield, runs another process. -/
theorem WaitInv.switchTo (h : WaitInv r) (hnext : next < r.sched.processCount)
    (hne : next ≠ r.sched.currentProcess) (hready : r.sched.isReady next = true) :
    WaitInv ⟨switchTo r.sched next esp, r.pc⟩ := by
  obtain ⟨p, hp, hst⟩ := isReady_iff.mp hready
  have hr : Remaps r.sched (HumanOS.switchTo r.sched next esp) (switched r.sched next esp) :=
    switchTo_remaps hne
  have hsame : ∀ i < r.sched.processCount,
      (HumanOS.switchTo r.sched next esp).alive i = r.sched.alive i := by
    intro i hi
    refine hr.alive_eq hi fun q hq => ?_
    unfold switched
    split
    · split
      · rename_i hrun
        simp [hrun]
      · rfl
    · split
      · rename_i hin
        subst hin
        obtain rfl : p = q := Option.some.inj (hp.symm.trans hq)
        simp [hst]
      · rfl
  refine h.remap hr hnext (fun i => ⟨rfl, fun hi => hi⟩)
    (fun i pid target hi hal => h.window_same hsame hi hal) (fun i hi q hq hblocked => ?_)
    fun _ => ?_
  · have hstill : q.state = .blocked ∧
        (switched r.sched next esp i q).waitingForPid = q.waitingForPid := by
      unfold switched at hblocked ⊢
      split at hblocked
      · split at hblocked
        · simp at hblocked
        · simp_all
      · split at hblocked
        · simp at hblocked
        · simp_all
    obtain ⟨pid, target, hw, hal⟩ := h.blocked i hi q hq hstill.1
    refine ⟨pid, target, ?_, ?_⟩
    · unfold WaitPc.Waits at hw ⊢
      rwa [hstill.2]
    · rw [h.alive_target hsame hw.waitsFor]
      exact hal
  · refine ⟨{ p with state := .running }, ?_, Or.inl rfl⟩
    simp [Sched.current, HumanOS.switchTo, Sched.modify, hne, hp]

theorem WaitInv.yieldImpl (h : WaitInv r) :
    WaitInv ⟨(schedulerYieldImpl r.sched esp).1, r.pc⟩ := by
  rcases schedulerYieldImpl_cases r.sched esp with heq | ⟨next, hnext, hne, p, hp, hready, heq⟩
  · rw [heq]
    exact h
  · rw [heq]
    exact h.switchTo hnext hne (isReady_iff.mpr ⟨p, hp, hready⟩)

theorem ended_terminated_iff {code : Int} (hi : i ≠ k) :
    (ended k pid code i p).state = .terminated ↔ p.state = .terminated := by
  constructor
  · intro hterm
    have := Process.wake_terminated hterm
    rwa [if_neg hi] at this
  · intro hterm
    rw [ended_of_terminated hi hterm, hterm]

theorem ended_self {code : Int} : (ended k pid code k p).state = .terminated := by
  simp [ended, Process.wake]

/-- A process ends that nobody is about to wait for: those who wait for it are woken. -/
theorem WaitInv.ended {code : Int} (h : WaitInv r) (hk : k < r.sched.processCount)
    (hp : r.sched.processes k = some p) (hr : Remaps r.sched t (ended k p.pid code))
    (hcur : t.currentProcess = r.sched.currentProcess)
    (hout : r.pc r.sched.currentProcess = .outside) (hfree : r.Unwatched k) :
    WaitInv ⟨t, r.pc⟩ := by
  have hsame : ∀ i < r.sched.processCount, i ≠ k → t.alive i = r.sched.alive i :=
    fun i hi hne => hr.alive_eq hi fun q _ => ended_terminated_iff hne
  have hgone : t.alive k = false := by
    simp [Sched.alive, hr.slot_eq hk hp, ended_self]
  refine h.remap hr (hcur ▸ h.slot) (fun i => ⟨rfl, fun hi => hi⟩) (fun i pid target hi hal => ?_)
    (fun i hi q hq hst => ?_) fun hne => absurd (hcur ▸ hout) hne
  · have hik : i ≠ k := by
      rintro rfl
      simp [hgone] at hal
    rw [hsame i (h.inside i (by simp [hi])) hik] at hal
    have htk : target ≠ k := by
      rintro rfl
      exact hfree i hik hal ⟨pid, Or.inl hi⟩
    rw [hsame target (h.targets i pid target (by simp [hi, WaitPc.waitsFor])).1 htk]
    exact h.window i pid target hi hal
  · obtain ⟨heq, hblocked, hne⟩ := Process.wake_blocked hst
    have hik : i ≠ k := by
      rintro rfl
      simp at hblocked
    rw [if_neg hik] at hblocked hne heq
    obtain ⟨pid, target, hw, hal⟩ := h.blocked i hi q hq hblocked
    obtain ⟨htlt, x, hx, hpid⟩ := h.targets i pid target hw.waitsFor
    have htk : target ≠ k := by
      rintro rfl
      -- the end of the target would have woken `i`, or `i` was still in its window
      rcases hw with hw | ⟨-, hw⟩
      · exact hfree i hik (alive_iff.mpr ⟨q, hq, by simp [hblocked]⟩) ⟨pid, Or.inr hw⟩
      · obtain rfl : p = x := Option.some.inj (hp.symm.trans hx)
        exact hne (hw.trans hpid.symm)
    refine ⟨pid, target, ?_, by rw [hsame target htlt htk]; exact hal⟩
    rw [HumanOS.ended, if_neg hik, heq]
    exact hw

theorem WaitInv.added {ws : List Word} (h : WaitInv r) (ha : Added r.sched t p ws)
    (hready : p.state = .ready) : WaitInv ⟨t, r.pc⟩ := by
  have hsame : ∀ i < r.sched.processCount, t.alive i = r.sched.alive i := by
    intro i hi
    simp only [Sched.alive, ha.old hi]
  have hslot := h.slot
  refine ⟨?_, ha.present h.present, fun i hi => ?_, fun i pid target ht => ?_,
    fun i pid target hi hal => h.window_same hsame hi hal, fun i hi q hq hst => ?_, fun hne => ?_⟩
  · show t.currentProcess < t.processCount
    rw [ha.current, ha.count]
    omega
  · have := h.inside i hi
    show i < t.processCount
    rw [ha.count]
    omega
  · obtain ⟨hlt, q, hq, hpid⟩ := h.targets i pid target ht
    refine ⟨?_, q, by rw [ha.old hlt, hq], hpid⟩
    show target < t.processCount
    rw [ha.count]
    omega
  · rcases ha.slot hq with ⟨-, rfl⟩ | ⟨hne, hq⟩
    · simp [hready] at hst
    · obtain ⟨pid, target, hw, hal⟩ :=
        h.blocked i ((ha.lt_cases hi).resolve_right hne) q hq hst
      exact ⟨pid, target, hw, by rw [h.alive_target hsame hw.waitsFor]; exact hal⟩
  · rw [ha.current] at hne
    obtain ⟨q, hq, hst⟩ := h.current hne
    refine ⟨q, ?_, hst⟩
    show t.processes t.currentProcess = some q
    rw [ha.current, ha.old h.slot]
    exact hq

/-- The call returns, and the process is not blocked. -/
theorem WaitInv.leave (h : WaitInv r)
    (hst : ∀ p, r.sched.current = some p → p.state ≠ .blocked) :
    WaitInv ⟨r.sched, Function.update r.pc r.sched.currentProcess .outside⟩ :=
  h.setPc .outside (by simp [WaitPc.waitsFor]) (by simp) (fun p hp hb => absurd hb (hst p hp))
    fun hne => absurd rfl hne

/-- A process that finds its target terminated in the loop was woken. -/
theorem WaitInv.loop_running (h : WaitInv r)
    (hk : r.pc r.sched.currentProcess = .loop pid target)
    (hq : r.sched.processes target = some q) (hterm : q.state = .terminated) :
    ∃ p, r.sched.current = some p ∧ p.state = .running := by
  obtain ⟨p, hp, hst⟩ := h.current (by simp [hk])
  refine ⟨p, hp, hst.resolve_right fun hblocked => ?_⟩
  obtain ⟨pid', target', hw, hal⟩ := h.blocked _ h.slot p hp hblocked
  have htarget := hw.waitsFor
  rw [hk, WaitPc.waitsFor, Option.some.injEq, Prod.mk.injEq] at htarget
  rw [← htarget.2] at hal
  simp [Sched.alive, hq, hterm] at hal

/-- Before it announces its wait a process is running. -/
theorem WaitInv.early_running (h : WaitInv r) (hne : r.pc r.sched.currentProcess ≠ .outside)
    (hk : ∀ p pid target, ¬ (r.pc r.sched.currentProcess).Waits p pid target) :
    ∃ p, r.sched.current = some p ∧ p.state = .running := by
  obtain ⟨p, hp, hst⟩ := h.current hne
  exact ⟨p, hp, hst.resolve_right (h.not_blocked hp (hk p))⟩

/-- Round the loop. -/
theorem WaitInv.spin {k : WaitPc} (h : WaitInv r)
    (hpc : r.pc r.sched.currentProcess = .loop pid target ∨
      r.pc r.sched.currentProcess = .yield pid target)
    (hk : k = .loop pid target ∨ k = .yield pid target) :
    WaitInv ⟨r.sched, Function.update r.pc r.sched.currentProcess k⟩ := by
  have hold : (r.pc r.sched.currentProcess).waitsFor = some (pid, target) := by
    rcases hpc with hpc | hpc <;> rw [hpc] <;> rfl
  have hnew : k.waitsFor = some (pid, target) := by
    rcases hk with rfl | rfl <;> rfl
  refine h.setPc k (fun pid' target' ht => ?_) (fun pid' target' ht => ?_) (fun p hp hb => ?_)
    fun _ => h.current ?_
  · exact h.targets _ pid' target' (hold.trans (hnew.symm.trans ht))
  · rcases hk with rfl | rfl <;> simp at ht
  · obtain ⟨pid', target', hw, hal⟩ := h.blocked _ h.slot p hp hb
    have htarget := hw.waitsFor
    rw [hold, Option.some.injEq, Prod.mk.injEq] at htarget
    obtain ⟨rfl, rfl⟩ := htarget
    refine ⟨pid, target, Or.inr ⟨hk, ?_⟩, hal⟩
    rcases hw with hw | ⟨-, hw⟩
    · rcases hpc with hpc | hpc <;> simp [hpc] at hw
    · exact hw
  · rcases hpc with hpc | hpc <;> simp [hpc]

theorem WaitInv.advance (h : WaitInv r) (hne : r.pc r.sched.currentProcess ≠ .outside) :
    WaitInv (r.advance esp) := by
  obtain ⟨c, hc, hcst⟩ := h.current hne
  have hrun : (∀ p pid target, ¬ (r.pc r.sched.currentProcess).Waits p pid target) →
      c.state = .running ∧ ∀ p, r.sched.current = some p → p.state ≠ .blocked := by
    intro hk
    obtain ⟨p, hp, hst⟩ := h.early_running hne hk
    refine ⟨by rwa [Option.some.inj (hc.symm.trans hp)], fun q hq => ?_⟩
    rw [Option.some.inj (hq.symm.trans hp), hst]
    simp
  simp only [WaitRun.advance]
  cases hk : r.pc r.sched.currentProcess with
  | outside => exact absurd hk hne
  | find pid =>
    obtain ⟨hst, hfree⟩ := hrun (by simp [hk, WaitPc.Waits])
    cases hfind : findPid r.sched pid with
    | none =>
      simp only [waitStatement, hc, hfind]
      exact h.leave hfree
    | some j =>
      simp only [waitStatement, hc, hfind]
      obtain ⟨hj, q, hq, hpid⟩ := findPid_eq_some hfind
      refine h.setPc (.test pid j) (fun pid' target ht => ?_) (by simp)
        (fun p hp hb => absurd hb (hfree p hp)) fun _ => ⟨c, hc, hcst⟩
      rw [WaitPc.waitsFor, Option.some.injEq, Prod.mk.injEq] at ht
      obtain ⟨rfl, rfl⟩ := ht
      exact ⟨hj, q, hq, hpid⟩
  | test pid target =>
    obtain ⟨hst, hfree⟩ := hrun (by simp [hk, WaitPc.Waits])
    obtain ⟨hlt, q, hq, hpid⟩ := h.targets _ pid target (by rw [hk]; rfl)
    simp only [waitStatement, hq]
    split
    · exact h.leave hfree
    · rename_i halive
      refine h.setPc (.setBlocked pid target) (fun pid' target' ht => ?_)
        (fun pid' target' ht => ?_) (fun p hp hb => absurd hb (hfree p hp)) fun _ => ⟨c, hc, hcst⟩
      · rw [WaitPc.waitsFor, Option.some.injEq, Prod.mk.injEq] at ht
        obtain ⟨rfl, rfl⟩ := ht
        exact ⟨hlt, q, hq, hpid⟩
      · obtain ⟨rfl, rfl⟩ : pid = pid' ∧ target = target' := by simpa using ht
        exact alive_iff.mpr ⟨q, hq, halive⟩
  | setBlocked pid target =>
    obtain ⟨hst, -⟩ := hrun (by simp [hk, WaitPc.Waits])
    have halive := h.window _ pid target hk (alive_iff.mpr ⟨c, hc, by simp [hst]⟩)
    exact h.own pid target (fun _ => rfl) (fun _ _ => Or.inr rfl)
      (fun _ => Or.inl rfl) (by rw [hk]; rfl) fun _ _ _ => halive
  | setWaiting pid target =>
    refine h.own pid target (fun _ => rfl) (fun _ hp => hp)
      (fun _ => Or.inr ⟨Or.inl rfl, rfl⟩) (by rw [hk]; rfl) fun p hp hb => ?_
    obtain ⟨pid', target', hw, hal⟩ := h.blocked _ h.slot p hp hb
    have htarget := hw.waitsFor
    rw [hk, WaitPc.waitsFor, Option.some.injEq, Prod.mk.injEq] at htarget
    rwa [htarget.2]
  | loop pid target =>
    obtain ⟨hlt, q, hq, hpid⟩ := h.targets _ pid target (by rw [hk]; rfl)
    simp only [waitStatement, hq]
    split
    · exact h.spin (Or.inl hk) (Or.inr rfl)
    · rename_i hterm
      obtain ⟨p, hp, hst⟩ := h.loop_running hk hq (not_ne_iff.mp hterm)
      refine h.leave fun p' hp' => ?_
      rw [Option.some.inj (hp'.symm.trans hp), hst]
      simp
  | yield pid target =>
    simp only [waitStatement, schedulerYield_eq]
    exact (h.spin (Or.inr hk) (Or.inl rfl)).yieldImpl

theorem WaitInv.addProcess {entry : Word} {frame : Process → List Word} {label : String}
    {color : Nat} (h : WaitInv r) :
    WaitInv ⟨addProcess r.sched proc entry name frame label color, r.pc⟩ := by
  rcases addProcess_cases r.sched proc entry name frame label color with ⟨text, heq⟩ | ⟨-, -, ha⟩
  · rw [heq]
    exact ⟨h.slot, h.present, h.inside, h.targets, h.window, h.blocked, h.current⟩
  · exact h.added ha rfl

theorem SafeStep.inv (hs : SafeStep wrapper r op r') (h : WaitInv r) : WaitInv r' := by
  obtain ⟨hs, hsafe⟩ := hs
  cases hs with
  | call hout =>
    obtain ⟨p, hp, hst⟩ := hsafe
    refine h.setPc _ (by simp [WaitPc.waitsFor]) (by simp) (fun q hq hb => ?_)
      fun _ => ⟨p, hp, Or.inl hst⟩
    rw [Option.some.inj (hq.symm.trans hp), hst] at hb
    simp at hb
  | next hne => exact h.advance hne
  | timer hnext hne hready => exact h.switchTo hnext hne hready
  | exit hout =>
    obtain ⟨p, hp⟩ := h.present _ h.slot
    have hcur : r.sched.current = some p := hp
    simp only [processExit, hcur, schedulerYield_eq]
    exact (h.ended h.slot hp exitCurrent_remaps rfl hout hsafe).yieldImpl
  | @kill pid esp hout =>
    simp only [processKill]
    cases hfind : findAlive r.sched pid with
    | none => exact h
    | some i =>
      obtain ⟨hi, p, hp, rfl, -⟩ := findAlive_eq_some hfind
      have hkilled : WaitInv ⟨killSlot r.sched i p.pid, r.pc⟩ :=
        h.ended hi hp killSlot_remaps rfl hout (hsafe i hfind)
      dsimp only
      split
      · rw [schedulerYield_eq]
        exact hkilled.yieldImpl
      · exact hkilled
  | addProcess =>
    simp only [schedulerAddProcess]
    exact h.addProcess
  | addUserProcess =>
    simp only [schedulerAddUserProcess]
    exact h.addProcess

theorem WaitInv.start (hproc : proc ≠ 0) : WaitInv (.start s proc name) := by
  have hinv : TableInv (schedulerConvertCurrentProcess (schedulerInit s) proc name)
      fun _ => none := converted_inv hproc
  refine ⟨hinv.current, hinv.present, by simp [WaitRun.start],
    by simp [WaitRun.start, WaitPc.waitsFor], by simp [WaitRun.start], fun i hi p hp hst => ?_,
    by simp [WaitRun.start]⟩
  obtain ⟨j, -, hw, -⟩ := hinv.blocked i hi p hp hst
  simp at hw

theorem SafeStep.run_inv (hproc : proc ≠ 0)
    (hr : Run (SafeStep wrapper) (.start s proc name) ops r) : WaitInv r :=
  hr.invariant WaitInv (fun _ _ _ hs h => hs.inv h) (.start hproc)

/-- What waiting is for: a blocked process waits for one that has not ended, and a call that
returns for a target returns its exit code to a running caller. -/
structure NoLostWakeup (r : WaitRun) : Prop where
  blocked : ∀ i < r.sched.processCount, ∀ p, r.sched.processes i = some p →
    p.state = .blocked → ∃ pid target, (r.pc i).waitsFor = some (pid, target) ∧
      r.sched.alive target = true
  returns : ∀ esp t value target,
    waitStatement r.sched esp (r.pc r.sched.currentProcess) = (t, .ret value (some target)) →
    (∃ p, t.current = some p ∧ p.state = .running) ∧
      ∃ q, t.processes target = some q ∧ q.exitCode = value

theorem WaitInv.noLostWakeup (h : WaitInv r) : NoLostWakeup r := by
  refine ⟨fun i hi p hp hst => ?_, fun esp t value target hret => ?_⟩
  · obtain ⟨pid, target, hw, hal⟩ := h.blocked i hi p hp hst
    exact ⟨pid, target, hw.waitsFor, hal⟩
  · cases hk : r.pc r.sched.currentProcess with
    | test pid target' =>
      have hrun := h.early_running (by simp [hk]) (by simp [hk, WaitPc.Waits])
      obtain ⟨-, q, hq, -⟩ := h.targets _ pid target' (by rw [hk]; rfl)
      simp only [hk, waitStatement, hq] at hret
      split at hret
      · simp only [Prod.mk.injEq, WaitNext.ret.injEq, Option.some.injEq] at hret
        obtain ⟨rfl, rfl, rfl⟩ := hret
        exact ⟨hrun, q, hq, rfl⟩
      · simp at hret
    | loop pid target' =>
      obtain ⟨-, q, hq, -⟩ := h.targets _ pid target' (by rw [hk]; rfl)
      simp only [hk, waitStatement, hq] at hret
      split at hret
      · simp at hret
      · rename_i hterm
        simp only [Prod.mk.injEq, WaitNext.ret.injEq, Option.some.injEq] at hret
        obtain ⟨rfl, rfl, rfl⟩ := hret
        exact ⟨h.loop_running hk hq (not_ne_iff.mp hterm), q, hq, rfl⟩
    | find pid =>
      rw [hk] at hret
      simp only [waitStatement] at hret
      split at hret <;> simp at hret
    | _ => simp [hk, waitStatement] at hret

/-- While running processes call `process_wait` and nobody ends in the window of another, no
wakeup is lost, under every interleaving. -/
theorem no_lost_wakeup_when_unwatched (hproc : proc ≠ 0)
    (hr : Run (SafeStep wrapper) (.start s proc name) ops r) : NoLostWakeup r :=
  (SafeStep.run_inv hproc hr).noLostWakeup

/-- `kernel_main` waits for a process and is interrupted in its loop; the process exits, and the
call returns its code. -/
theorem no_lost_wakeup_when_unwatched_exit :
    ∃ r, Run (SafeStep 0x100000) (.start .powerOn 0x300000 "KernelMain")
        [.addProcess 0x302000 0x110000 "Shell", .call 2, .next 0, .next 0, .next 0, .next 0,
          .timer 1 0x200000, .exit 5 0x303000] r ∧ NoLostWakeup r ∧
      (waitStatement r.sched 0 (r.pc r.sched.currentProcess)).2 = .ret 5 (some 1) := by
  obtain ⟨x, hx, hcount, hcur, hmain, hshell, hret⟩ : ∃ x, Run (SafeStep 0x100000)
      (.start .powerOn 0x300000 "KernelMain")
      [.addProcess 0x302000 0x110000 "Shell", .call 2, .next 0, .next 0, .next 0, .next 0,
        .timer 1 0x200000] x ∧ x.sched.processCount = 2 ∧ x.sched.currentProcess = 1 ∧
      x.pc 0 = .loop 2 1 ∧ x.pc 1 = .outside ∧
      (waitStatement (processExit x.sched 5 0x303000) 0
        (x.pc (processExit x.sched 5 0x303000).currentProcess)).2 = .ret 5 (some 1) :=
    ⟨_, .stepL ⟨.addProcess rfl, trivial⟩ (.stepL ⟨.call rfl, _, rfl, rfl⟩
      (.stepL ⟨.next (by decide +kernel), trivial⟩ (.stepL ⟨.next (by decide +kernel), trivial⟩
      (.stepL ⟨.next (by decide +kernel), trivial⟩ (.stepL ⟨.next (by decide +kernel), trivial⟩
      (.single ⟨.timer (by decide +kernel) (by decide +kernel) (by decide +kernel), trivial⟩)))))),
      by decide +kernel, by decide +kernel, by decide +kernel, by decide +kernel,
      by decide +kernel⟩
  have hfree : x.Unwatched x.sched.currentProcess := by
    rintro i hi - ⟨pid, hpc⟩
    have hlt := (SafeStep.run_inv (by decide) hx).inside i (by rcases hpc with h | h <;> simp [h])
    obtain rfl : i = 0 := by omega
    rcases hpc with h | h <;> simp [hmain] at h
  have hexit : WaitStep 0x100000 x (.exit 5 0x303000)
      { x with sched := processExit x.sched 5 0x303000 } := .exit (by rw [hcur, hshell])
  have hr := hx.append (.single ⟨hexit, hfree⟩)
  exact ⟨_, hr, no_lost_wakeup_when_unwatched (by decide) hr, hret⟩

/-- `kernel_main` is interrupted after it found the process alive, which then exits; it blocks all
the same. -/
theorem wakeup_lost :
    ¬ ∀ ops r, Run (WaitStep 0x100000) (.start .powerOn 0x300000 "KernelMain") ops r →
      NoLostWakeup r := by
  intro hall
  obtain ⟨r, hr, hpc, hdead, hcount, p, hp, hst⟩ : ∃ r, Run (WaitStep 0x100000)
      (.start .powerOn 0x300000 "KernelMain")
      [.addProcess 0x302000 0x110000 "Shell", .call 2, .next 0, .next 0, .timer 1 0x200000,
        .exit 5 0x303000, .next 0] r ∧ r.pc 0 = .setWaiting 2 1 ∧ r.sched.alive 1 = false ∧
      0 < r.sched.processCount ∧ ∃ p, r.sched.processes 0 = some p ∧ p.state = .blocked :=
    ⟨_, .stepL (.addProcess rfl) (.stepL (.call rfl) (.stepL (.next (by decide +kernel))
      (.stepL (.next (by decide +kernel))
      (.stepL (.timer (by decide +kernel) (by decide +kernel) (by decide +kernel))
      (.stepL (.exit (by decide +kernel)) (.single (.next (by decide +kernel)))))))),
      by decide +kernel, by decide +kernel, by decide +kernel, _, rfl, by decide +kernel⟩
  obtain ⟨pid, target, hw, hal⟩ := (hall _ r hr).blocked 0 hcount p hp hst
  rw [hpc, WaitPc.waitsFor, Option.some.injEq, Prod.mk.injEq] at hw
  rw [← hw.2, hdead] at hal
  simp at hal

end HumanOS

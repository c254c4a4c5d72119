import HumanOS.Scheduler.Table

/-!
# The life of a process

Slots are taken one after the other and never given back, and a process that has ended is left
alone by everyone but itself. Nothing here needs the conversion of `kernel_main` to have got its
memory.
-/
namespace HumanOS

open Lib

variable {s t u : Sched} {r r' : SchedRun} {op : SchedOp} {ops : List SchedOp}
variable {i j k n next pid : Nat} {p q : Process} {esp wrapper proc : Word} {name : String}

section Steps

theorem waitLoop_cases (s : Sched) (j : Nat) (esp : Word) :
    (waitLoop s j esp).1 = s ∨ (waitLoop s j esp).1 = (schedulerYieldImpl s esp).1 := by
  unfold waitLoop
  cases s.processes j with
  | none => exact Or.inl rfl
  | some p =>
    dsimp only
    split
    · exact Or.inr schedulerYield_eq
    · exact Or.inl rfl

/-- A change of states that leaves the other processes which have ended as they are. -/
structure Touches (s t : Sched) (f : Nat → Process → Process) : Prop extends Remaps s t f where
  current : t.currentProcess = s.currentProcess
  ended : ∀ i p, i ≠ s.currentProcess → s.processes i = some p → p.state = .terminated → f i p = p

theorem Touches.same (hp : t.processes = s.processes) (hcount : t.processCount = s.processCount)
    (hnext : t.nextPid = s.nextPid) (hcur : t.currentProcess = s.currentProcess) :
    Touches s t fun _ p => p :=
  ⟨.rfl_of_processes hp hcount hnext, hcur, fun _ _ _ _ _ => rfl⟩

theorem ended_of_terminated {code : Int} (hj : j ≠ i) (hq : q.state = .terminated) :
    ended i pid code j q = q := by
  simp [ended, Process.wake, hj, hq]

theorem exitCurrent_touches {code : Int} :
    Touches s (exitCurrent s p code) (ended s.currentProcess p.pid code) :=
  ⟨exitCurrent_remaps, rfl, fun _ _ hne _ hq => ended_of_terminated hne hq⟩

theorem killSlot_touches (pid : Nat) (hp : s.processes i = some p)
    (halive : p.state ≠ .terminated) :
    Touches s (killSlot s i pid) (ended i pid (-1)) := by
  refine ⟨killSlot_remaps, rfl, fun j q _ hq hterm => ended_of_terminated ?_ hterm⟩
  rintro rfl
  obtain rfl : p = q := Option.some.inj (hp.symm.trans hq)
  exact halive hterm

theorem blockOn_touches (pid : Nat) : Touches s (s.blockOn pid) fun i p =>
    if i = s.currentProcess then { p with state := .blocked, waitingForPid := pid } else p :=
  ⟨blockOn_remaps, rfl, fun _ _ hne _ _ => if_neg hne⟩

theorem terminateAll_touches : Touches s (schedulerTerminateAll s) fun _ p =>
    if p.pid ≠ schedulerGetCurrentPid s then { p with state := .terminated } else p := by
  refine ⟨terminateAll_remaps, rfl, fun i p _ _ hterm => ?_⟩
  split
  · rw [← hterm]
  · rfl

/-- What a step can do: change states and perhaps yield after that, or append a process. -/
theorem SchedStep.shape (hs : SchedStep wrapper r op r') :
    (∃ u f, Touches r.sched u f ∧
      (r'.sched = u ∨ ∃ esp, r'.sched = (schedulerYieldImpl u esp).1)) ∨
    ∃ proc entry name ws, r.sched.processCount < maxProcesses ∧
      Added r.sched r'.sched (newProcess r.sched proc entry name) ws := by
  have hsame : Touches r.sched r.sched fun _ p => p := .same rfl rfl rfl rfl
  cases hs with
  | @addProcess proc entry name =>
    rcases schedulerAddProcess_cases wrapper r.sched proc entry name with
      ⟨text, heq⟩ | ⟨hroom, -, ha⟩
    · simp only [heq]
      exact Or.inl ⟨r.sched.puts text 0x1C, _, .same rfl rfl rfl rfl, Or.inl rfl⟩
    · exact Or.inr ⟨proc, entry, name, _, hroom, ha⟩
  | @addUserProcess proc entry name =>
    rcases schedulerAddUserProcess_cases r.sched proc entry name with
      ⟨text, heq⟩ | ⟨hroom, -, ha⟩
    · simp only [heq]
      exact Or.inl ⟨r.sched.puts text 0x1C, _, .same rfl rfl rfl rfl, Or.inl rfl⟩
    · exact Or.inr ⟨proc, entry, name, _, hroom, ha⟩
  | @yieldImpl esp => exact Or.inl ⟨_, _, hsame, Or.inr ⟨esp, rfl⟩⟩
  | @exit code esp =>
    simp only [processExit]
    cases hp : r.sched.current with
    | none => exact Or.inl ⟨_, _, hsame, Or.inl rfl⟩
    | some p => exact Or.inl ⟨_, _, exitCurrent_touches, Or.inr ⟨esp, schedulerYield_eq⟩⟩
  | @kill pid esp =>
    simp only [processKill]
    cases hfind : findAlive r.sched pid with
    | none => exact Or.inl ⟨_, _, hsame, Or.inl rfl⟩
    | some i =>
      obtain ⟨-, p, hp, -, halive⟩ := findAlive_eq_some hfind
      refine Or.inl ⟨_, _, killSlot_touches pid hp halive, ?_⟩
      dsimp only
      split
      · exact Or.inr ⟨esp, schedulerYield_eq⟩
      · exact Or.inl rfl
  | @wait pid esp =>
    simp only [SchedRun.afterWait]
    rcases processWait_cases r.sched pid esp with ⟨code, heq⟩ | ⟨j, -, -, -, -, -, heq⟩
    · rw [heq]
      exact Or.inl ⟨_, _, hsame, Or.inl rfl⟩
    · rw [heq]
      refine Or.inl ⟨_, _, blockOn_touches pid, ?_⟩
      exact (waitLoop_cases _ j esp).imp_right fun h => ⟨esp, h⟩
  | @recheck target esp =>
    refine Or.inl ⟨_, _, hsame, ?_⟩
    exact (waitLoop_cases r.sched target esp).imp_right fun h => ⟨esp, h⟩
  | terminateAll => exact Or.inl ⟨_, _, terminateAll_touches, Or.inl rfl⟩

/-- Slots are taken one after the other, and the current one is among them from the first on. -/
structure Occupied (s : Sched) : Prop where
  current : s.currentProcess = 0 ∨ s.currentProcess < s.processCount
  count : s.processCount ≤ maxProcesses
  present : ∀ i < s.processCount, ∃ p, s.processes i = some p

theorem Occupied.current_lt (h : Occupied s) (hi : i < s.processCount) :
    s.currentProcess < s.processCount := by
  rcases h.current with hzero | hlt
  · omega
  · exact hlt

theorem Occupied.touches {f : Nat → Process → Process} (h : Occupied s) (ht : Touches s t f) :
    Occupied t := by
  refine ⟨?_, ?_, ht.present h.present⟩
  · rw [ht.current, ht.count]
    exact h.current
  · rw [ht.count]
    exact h.count

theorem Occupied.yieldImpl (h : Occupied s) : Occupied (schedulerYieldImpl s esp).1 := by
  rcases schedulerYieldImpl_cases s esp with heq | ⟨next, hnext, hne, q, hq, -, heq⟩
  · rwa [heq]
  · rw [heq]
    exact ⟨Or.inr hnext, h.count, (switchTo_remaps hne).present h.present⟩

theorem Occupied.added {ws : List Word} (h : Occupied s) (hroom : s.processCount < maxProcesses)
    (ha : Added s t p ws) : Occupied t := by
  refine ⟨?_, ?_, ha.present h.present⟩
  · rw [ha.current, ha.count]
    exact h.current.imp_right fun hlt => by omega
  · rw [ha.count]
    omega

theorem SchedStep.occupied (hs : SchedStep wrapper r op r') (h : Occupied r.sched) :
    Occupied r'.sched := by
  rcases hs.shape with ⟨u, f, ht, heq | ⟨esp, heq⟩⟩ | ⟨proc, entry, name, ws, hroom, ha⟩
  · rw [heq]
    exact h.touches ht
  · rw [heq]
    exact (h.touches ht).yieldImpl
  · exact h.added hroom ha

theorem start_occupied : Occupied (SchedRun.start s proc name).sched := by
  by_cases hproc : proc = 0
  · subst hproc
    refine ⟨Or.inl rfl, ?_, ?_⟩ <;>
      simp [SchedRun.start, schedulerConvertCurrentProcess, schedulerInit, Sched.puts, maxProcesses]
  · exact ⟨Or.inr (converted_inv hproc).current, (converted_inv hproc).count,
      (converted_inv hproc).present⟩

theorem run_occupied (hr : Run (SchedStep wrapper) (.start s proc name) ops r) :
    Occupied r.sched :=
  hr.invariant (fun r => Occupied r.sched) (fun _ _ _ hs h => hs.occupied h) start_occupied

end Steps

section Final

/-- The current process can be left: another one is ready, or waits for it to end. -/
def Sched.Relieved (s : Sched) : Prop :=
  ∃ c, s.current = some c ∧ ∃ i < s.processCount, i ≠ s.currentProcess ∧
    ∃ p, s.processes i = some p ∧
      (p.state = .ready ∨ p.state = .blocked ∧ p.waitingForPid = c.pid)

/-- The step ends the process that makes it. -/
def SchedOp.EndsCurrent (s : Sched) : SchedOp → Prop
  | .exit _ _ => s.current.isSome
  | .kill pid _ => findAlive s pid = some s.currentProcess
  | _ => False

/-- A step in which a process ends itself only where it can be left. -/
def RelievedStep (processWrapper : Word) (r : SchedRun) (op : SchedOp) (r' : SchedRun) : Prop :=
  SchedStep processWrapper r op r' ∧ (op.EndsCurrent r.sched → r.sched.Relieved)

/-- The process that runs has not ended. -/
def CurrentAlive (s : Sched) : Prop := ∀ p, s.current = some p → p.state ≠ .terminated

/-- Whoever is switched to is running. -/
theorem yieldImpl_alive (hleft : (schedulerYieldImpl s esp).1.currentProcess ≠ s.currentProcess) :
    CurrentAlive (schedulerYieldImpl s esp).1 := by
  rcases schedulerYieldImpl_cases s esp with heq | ⟨next, -, hne, q, hq, -, heq⟩
  · rw [heq] at hleft
    exact absurd rfl hleft
  · rw [heq]
    intro p hp
    simp only [Sched.current, switchTo, Sched.modify, Function.update_self,
      Function.update_of_ne hne, hq, Option.map_some, Option.some.injEq] at hp
    subst hp
    simp

theorem CurrentAlive.yieldImpl (h : CurrentAlive s) :
    CurrentAlive (schedulerYieldImpl s esp).1 := by
  by_cases hstay : (schedulerYieldImpl s esp).1.currentProcess = s.currentProcess
  · rwa [schedulerYieldImpl_unchanged hstay]
  · exact yieldImpl_alive hstay

theorem CurrentAlive.waitLoop (h : CurrentAlive s) : CurrentAlive (waitLoop s j esp).1 := by
  rcases waitLoop_cases s j esp with heq | heq
  · rwa [heq]
  · rw [heq]
    exact h.yieldImpl

theorem ended_ready_iff {code : Int} (hj : j ≠ i) :
    (ended i pid code j q).state = .ready ↔
      q.state = .ready ∨ q.state = .blocked ∧ q.waitingForPid = pid := by
  unfold ended Process.wake
  rw [if_neg hj]
  split
  · simp_all
  · simp_all

/-- A process that has ended is left exactly if another one can take over. -/
theorem ended_leaves_iff {code : Int} (hocc : Occupied s) (hc : s.current = some p)
    (ht : Touches s u (ended s.currentProcess p.pid code)) :
    (schedulerYieldImpl u esp).1.currentProcess ≠ s.currentProcess ↔ s.Relieved := by
  by_cases hzero : s.processCount = 0
  · have hsame : schedulerYieldImpl u esp = (u, 0) := by
      simp [schedulerYieldImpl, ht.count, hzero]
    rw [hsame, ht.current]
    refine iff_of_false (fun h => h rfl) ?_
    rintro ⟨c, -, i, hi, -⟩
    omega
  have hcur : u.currentProcess < u.processCount := by
    rw [ht.current, ht.count]
    exact hocc.current_lt (i := 0) (by omega)
  rw [← ht.current, ne_eq, schedulerYieldImpl_stays_iff esp hcur]
  simp only [Sched.OthersIdle, ht.current, ht.count, not_forall, Bool.not_eq_false]
  constructor
  · rintro ⟨i, hi, hne, hready⟩
    obtain ⟨q, hq, hst⟩ := isReady_iff.mp hready
    rw [ht.processes i hi] at hq
    obtain ⟨x, hx, rfl⟩ := Option.map_eq_some_iff.mp hq
    exact ⟨p, hc, i, hi, hne, x, hx, (ended_ready_iff hne).mp hst⟩
  · rintro ⟨c, hc', i, hi, hne, q, hq, hst⟩
    obtain rfl : p = c := Option.some.inj (hc.symm.trans hc')
    exact ⟨i, hi, hne, isReady_iff.mpr ⟨_, ht.slot_eq hi hq, (ended_ready_iff hne).mpr hst⟩⟩

/-- `process_exit` does not return exactly if another process can take over. -/
theorem processExit_leaves_iff (code : Int) (esp : Word) (hocc : Occupied s)
    (hc : s.current = some p) :
    (processExit s code esp).currentProcess ≠ s.currentProcess ↔ s.Relieved := by
  simp only [processExit, hc, schedulerYield_eq]
  exact ended_leaves_iff hocc hc exitCurrent_touches

theorem processKill_self (hfind : findAlive s pid = some s.currentProcess) :
    (processKill s pid esp).1 =
      (schedulerYieldImpl (killSlot s s.currentProcess pid) esp).1 := by
  simp only [processKill, hfind, schedulerYield_eq]
  exact if_pos rfl

/-- Nor does a `process_kill` of oneself. -/
theorem processKill_leaves_iff (esp : Word) (hocc : Occupied s)
    (hfind : findAlive s pid = some s.currentProcess) :
    (processKill s pid esp).1.currentProcess ≠ s.currentProcess ↔ s.Relieved := by
  obtain ⟨-, p, hp, rfl, halive⟩ := findAlive_eq_some hfind
  rw [processKill_self hfind]
  exact ended_leaves_iff hocc hp (killSlot_touches _ hp halive)

theorem blockOn_alive : CurrentAlive (s.blockOn pid) := by
  intro p hp
  simp only [Sched.current, Sched.blockOn, Sched.modify, Function.update_self,
    Option.map_eq_some_iff] at hp
  obtain ⟨q, -, rfl⟩ := hp
  simp

theorem CurrentAlive.addProcess {entry : Word} {frame : Process → List Word} {label : String}
    {color : Nat} (h : CurrentAlive s) :
    CurrentAlive (addProcess s proc entry name frame label color) := by
  rcases addProcess_cases s proc entry name frame label color with ⟨text, heq⟩ | ⟨-, -, ha⟩
  · rw [heq]
    exact h
  · intro p hp
    rw [Sched.current, ha.current] at hp
    rcases ha.slot hp with ⟨-, rfl⟩ | ⟨-, hp⟩
    · simp [newProcess]
    · exact h p hp

theorem CurrentAlive.killOther (h : CurrentAlive s) (hi : i < s.processCount)
    (hocc : Occupied s) (hne : i ≠ s.currentProcess) : CurrentAlive (killSlot s i pid) := by
  intro p hp hterm
  have hcur := hocc.current_lt hi
  obtain ⟨q, hq, rfl⟩ := killSlot_remaps.of_slot hcur hp
  have hend := Process.wake_terminated hterm
  rw [if_neg hne.symm] at hend
  exact h q hq hend

theorem CurrentAlive.terminateAll (h : CurrentAlive s) :
    CurrentAlive (schedulerTerminateAll s) := by
  intro p hp
  by_cases hcur : s.currentProcess < s.processCount
  · obtain ⟨q, hq, rfl⟩ := terminateAll_remaps.of_slot hcur hp
    have hpid : schedulerGetCurrentPid s = q.pid := by
      simp [schedulerGetCurrentPid, Sched.current, hq, show s.processCount ≠ 0 by omega]
    rw [if_neg (by simp [hpid])]
    exact h q hq
  · simp only [Sched.current, schedulerTerminateAll, if_neg hcur] at hp
    exact h p hp

theorem RelievedStep.alive (hs : RelievedStep wrapper r op r') (hocc : Occupied r.sched)
    (h : CurrentAlive r.sched) : CurrentAlive r'.sched := by
  obtain ⟨hs, hrel⟩ := hs
  cases hs with
  | addProcess =>
    simp only [schedulerAddProcess]
    exact h.addProcess
  | addUserProcess =>
    simp only [schedulerAddUserProcess]
    exact h.addProcess
  | yieldImpl => exact h.yieldImpl
  | @exit code esp hfree =>
    cases hc : r.sched.current with
    | none =>
      simp only [processExit, hc]
      exact h
    | some c =>
      have hleft := (processExit_leaves_iff code esp hocc hc).mpr
        (hrel (by simp [SchedOp.EndsCurrent, hc]))
      simp only [processExit, hc, schedulerYield_eq] at hleft ⊢
      exact yieldImpl_alive hleft
  | @kill pid esp hfree =>
    cases hfind : findAlive r.sched pid with
    | none =>
      simp only [processKill, hfind]
      exact h
    | some i =>
      by_cases hself : i = r.sched.currentProcess
      · subst hself
        have hleft := (processKill_leaves_iff esp hocc hfind).mpr (hrel hfind)
        simp only [processKill_self hfind] at hleft ⊢
        exact yieldImpl_alive hleft
      · simp only [processKill, hfind]
        rw [if_neg (show i ≠ (killSlot r.sched i pid).currentProcess from hself)]
        exact h.killOther (findAlive_eq_some hfind).1 hocc hself
  | @wait pid esp hfree =>
    simp only [SchedRun.afterWait]
    rcases processWait_cases r.sched pid esp with ⟨code, heq⟩ | ⟨j, -, q, -, -, -, heq⟩
    · rw [heq]
      exact h
    · rw [heq]
      exact blockOn_alive.waitLoop
  | recheck => exact h.waitLoop
  | terminateAll => exact h.terminateAll

/-- The process in slot `i` has ended with that code and does nothing any more. -/
structure Ended (s : Sched) (i : Nat) (code : Int) : Prop where
  slot : i < s.processCount
  terminated : ∃ p, s.processes i = some p ∧ p.state = .terminated ∧ p.exitCode = code
  left : s.currentProcess ≠ i

theorem Ended.yieldImpl {code : Int} (h : Ended s i code) :
    Ended (schedulerYieldImpl s esp).1 i code := by
  rcases schedulerYieldImpl_cases s esp with heq | ⟨next, hnext, hne, q, hq, hready, heq⟩
  · rwa [heq]
  · rw [heq]
    obtain ⟨p, hp, hterm, hcode⟩ := h.terminated
    have hin : i ≠ next := by
      rintro rfl
      obtain rfl : p = q := Option.some.inj (hp.symm.trans hq)
      simp [hterm] at hready
    refine ⟨h.slot, ⟨p, ?_, hterm, hcode⟩, hin.symm⟩
    rw [(switchTo_remaps hne).slot_eq h.slot hp]
    simp [switched, h.left.symm, hin]

/-- No step brings it back. -/
theorem Ended.step {code : Int} (h : Ended r.sched i code) (hs : SchedStep wrapper r op r') :
    Ended r'.sched i code := by
  obtain ⟨p, hp, hterm, hcode⟩ := h.terminated
  rcases hs.shape with ⟨u, f, ht, hu⟩ | ⟨proc, entry, name, ws, -, ha⟩
  · have hended : Ended u i code := by
      refine ⟨ht.count ▸ h.slot, ⟨p, ?_, hterm, hcode⟩, ht.current ▸ h.left⟩
      rw [ht.slot_eq h.slot hp, ht.ended i p h.left.symm hp hterm]
    rcases hu with heq | ⟨esp, heq⟩
    · rwa [heq]
    · rw [heq]
      exact hended.yieldImpl
  · refine ⟨?_, ⟨p, by rw [ha.old h.slot, hp], hterm, hcode⟩, ha.current ▸ h.left⟩
    have := h.slot
    rw [ha.count]
    omega

theorem start_alive : CurrentAlive (SchedRun.start s proc name).sched := by
  intro p hp
  by_cases hproc : proc = 0
  · simp [SchedRun.start, schedulerConvertCurrentProcess, schedulerInit, Sched.puts, maxProcesses,
      Sched.current, hproc] at hp
  · obtain ⟨console, heq⟩ := converted_eq s name hproc
    simp only [SchedRun.start, heq, Sched.current, Function.update_self,
      Option.some.injEq] at hp
    subst hp
    simp [mainProcess]

theorem RelievedStep.run_alive (hr : Run (RelievedStep wrapper) (.start s proc name) ops r) :
    CurrentAlive r.sched :=
  (hr.invariant (fun r => Occupied r.sched ∧ CurrentAlive r.sched)
    (fun _ _ _ hs h => ⟨hs.1.occupied h.1, hs.alive h.1 h.2⟩) ⟨start_occupied, start_alive⟩).2

/-- In every state of a run from `a`, a process that has ended stays so and does nothing. -/
def TerminationFinal (step : SchedRun → SchedOp → SchedRun → Prop) (a : SchedRun) : Prop :=
  ∀ ops r ops' r' i p, Run step a ops r → Run step r ops' r' → i < r.sched.processCount →
    r.sched.processes i = some p → p.state = .terminated → Ended r'.sched i p.exitCode

/-- Where a process ends itself only while another one can take over, ending is final; and
anywhere, `process_exit` and a `process_kill` of oneself leave their caller exactly then. -/
theorem termination_final_when_relieved (wrapper proc : Word) (s : Sched) (name : String) :
    TerminationFinal (RelievedStep wrapper) (.start s proc name) ∧
    ∀ ops r p, Run (SchedStep wrapper) (.start s proc name) ops r → r.sched.current = some p →
      (∀ code esp, (processExit r.sched code esp).currentProcess ≠ r.sched.currentProcess ↔
        r.sched.Relieved) ∧
      ∀ pid esp, findAlive r.sched pid = some r.sched.currentProcess →
        ((processKill r.sched pid esp).1.currentProcess ≠ r.sched.currentProcess ↔
          r.sched.Relieved) := by
  refine ⟨fun ops r ops' r' i p hr hr' hi hp hterm => ?_, fun ops r p hr hp => ⟨?_, ?_⟩⟩
  · have hended : Ended r.sched i p.exitCode := by
      refine ⟨hi, ⟨p, hp, hterm, rfl⟩, ?_⟩
      rintro rfl
      exact RelievedStep.run_alive hr p hp hterm
    exact hr'.invariant (fun r => Ended r.sched i p.exitCode) (fun _ _ _ hs h => h.step hs.1) hended
  · intro code esp
    exact processExit_leaves_iff _ _ (run_occupied hr) hp
  · intro pid esp hfind
    exact processKill_leaves_iff _ (run_occupied hr) hfind

/-- `kernel_main` waits for a process, which exits; it can never run again. -/
theorem termination_final_when_relieved_wait_exit :
    ∃ r, Run (RelievedStep 0x100000) (.start .powerOn 0x300000 "KernelMain")
        [.addProcess 0x302000 0x110000 "Shell", .wait 2 0x200000, .exit 5 0x303000] r ∧
      Ended r.sched 1 5 := by
  obtain ⟨r, hr, p, hp, hterm, hcode, hcount⟩ :
      ∃ r, Run (RelievedStep 0x100000) (.start .powerOn 0x300000 "KernelMain")
        [.addProcess 0x302000 0x110000 "Shell", .wait 2 0x200000, .exit 5 0x303000] r ∧
      ∃ p, r.sched.processes 1 = some p ∧ p.state = .terminated ∧ p.exitCode = 5 ∧
        1 < r.sched.processCount := by
    refine ⟨_, .stepL ⟨.addProcess rfl, False.elim⟩ (.stepL ⟨.wait rfl, False.elim⟩
      (.single ⟨.exit (by decide +kernel), fun _ => ?_⟩)), ?_⟩
    · exact ⟨_, rfl, 0, by decide +kernel, by decide +kernel, _, rfl, Or.inr (by decide +kernel)⟩
    · exact ⟨_, rfl, by decide +kernel, by decide +kernel, by decide +kernel⟩
  have hended := (termination_final_when_relieved 0x100000 0x300000 .powerOn "KernelMain").1
    _ r [] r 1 p hr .refl hcount hp hterm
  exact ⟨r, hr, hcode ▸ hended⟩

/-- `kernel_main` exits with nobody else there, `process_exit` returns, and it exits again. -/
theorem termination_not_final :
    ¬ TerminationFinal (SchedStep 0x100000) (.start .powerOn 0x300000 "KernelMain") := by
  intro hfinal
  have hended := hfinal [.exit 7 0x200000] _ [.exit 8 0x200000] _ 0
    ((processExit (SchedRun.start .powerOn 0x300000 "KernelMain").sched 7 0x200000).processes 0
      |>.get (by decide +kernel))
    (.single (.exit rfl)) (.single (.exit rfl)) (by decide +kernel) (by simp) (by decide +kernel)
  obtain ⟨p, hp, -, hcode⟩ := hended.terminated
  have hagain : ((processExit (processExit (SchedRun.start .powerOn 0x300000 "KernelMain").sched
      7 0x200000) 8 0x200000).processes 0).map Process.exitCode = some 8 := by decide +kernel
  rw [show (processExit (processExit (SchedRun.start .powerOn 0x300000 "KernelMain").sched
      7 0x200000) 8 0x200000).processes 0 = some p from hp, Option.map_some, hcode] at hagain
  revert hagain
  decide +kernel

end Final

section Capacity

variable {entry : Word} {frame : Process → List Word} {label : String} {color : Nat}

/-- Slot `i` holds a process that has not ended. -/
def Sched.alive (s : Sched) (i : Nat) : Bool :=
  match s.processes i with
  | some p => p.state ≠ .terminated
  | none => false

/-- The processes that have not ended. -/
def Sched.aliveCount (s : Sched) : Nat := (List.range s.processCount).countP s.alive

/-- Adding a process fails for want of memory or because there are `MAX_PROCESSES` of them. -/
structure SlotsReusable (processWrapper : Word) (s : Sched) : Prop where
  kernel : ∀ proc entry name,
    (schedulerAddProcess processWrapper s proc entry name).processCount = s.processCount →
      maxProcesses ≤ s.aliveCount ∨ proc = 0
  user : ∀ proc entry name,
    (schedulerAddUserProcess s proc entry name).processCount = s.processCount →
      maxProcesses ≤ s.aliveCount ∨ proc = 0

theorem addProcess_fails_iff :
    (addProcess s proc entry name frame label color).processCount = s.processCount ↔
      maxProcesses ≤ s.processCount ∨ proc = 0 := by
  unfold addProcess
  split
  · simp_all [Sched.puts]
  · split
    · simp_all [Sched.puts]
    · simp_all [Sched.puts]

theorem Occupied.aliveCount_eq_iff (h : Occupied s) : s.aliveCount = s.processCount ↔
    ∀ i < s.processCount, ∀ p, s.processes i = some p → p.state ≠ .terminated := by
  have hall : s.aliveCount = s.processCount ↔
      ∀ i ∈ List.range s.processCount, s.alive i = true := by
    rw [← List.countP_eq_length, List.length_range, Sched.aliveCount]
  rw [hall]
  constructor
  · intro hall i hi p hp
    have := hall i (List.mem_range.mpr hi)
    simpa [Sched.alive, hp] using this
  · intro hall i hi
    obtain ⟨p, hp⟩ := h.present i (List.mem_range.mp hi)
    simpa [Sched.alive, hp] using hall i (List.mem_range.mp hi) p hp

theorem aliveCount_le : s.aliveCount ≤ s.processCount := by
  have := List.countP_le_length (p := s.alive) (l := List.range s.processCount)
  simpa [Sched.aliveCount] using this

/-- Slots of processes that have ended are never used again: there is room in the sense of the
documentation exactly while the table is not full or nobody has ended. -/
theorem slots_reusable_iff (hr : Run (SchedStep wrapper) (.start s proc name) ops r) :
    SlotsReusable wrapper r.sched ↔ r.sched.processCount < maxProcesses ∨
      ∀ i < r.sched.processCount, ∀ p, r.sched.processes i = some p → p.state ≠ .terminated := by
  have hocc := run_occupied hr
  have hcount := hocc.count
  rw [← hocc.aliveCount_eq_iff]
  constructor
  · intro h
    by_cases hfull : r.sched.processCount < maxProcesses
    · exact Or.inl hfull
    · have hfail := h.kernel 1 0 "" (addProcess_fails_iff.mpr (Or.inl (by omega)))
      have hle := aliveCount_le (s := r.sched)
      rcases hfail with hall | hnull
      · exact Or.inr (by omega)
      · exact absurd hnull (by decide)
  · intro h
    have hroom : maxProcesses ≤ r.sched.processCount → maxProcesses ≤ r.sched.aliveCount := by
      omega
    exact ⟨fun _ _ _ hfail => (addProcess_fails_iff.mp hfail).imp_left hroom,
      fun _ _ _ hfail => (addProcess_fails_iff.mp hfail).imp_left hroom⟩

/-- The memory of the `n`th of a row of processes. -/
def taskAddr (n : Nat) : Word := 0x302000 + BitVec.ofNat 32 n * 0x2000

def addTask (n : Nat) : SchedOp := .addProcess (taskAddr n) 0x110000 "Task"

/-- Three processes are added, one is killed and `kernel_main` exits, and one more is added: there
are three left, and room for others. -/
theorem slots_reusable_iff_after_kill : ∃ r,
    Run (SchedStep 0x100000) (.start .powerOn 0x300000 "KernelMain") [addTask 0, addTask 1,
      .addUserProcess (taskAddr 2) 0x110000 "Task", .kill 3 0x200000, .exit 0 0x200000,
      addTask 3] r ∧
    r.sched.processCount = 5 ∧ r.sched.aliveCount = 3 ∧ SlotsReusable 0x100000 r.sched := by
  obtain ⟨r, hr, hcount, halive⟩ : ∃ r, Run (SchedStep 0x100000)
      (.start .powerOn 0x300000 "KernelMain") [addTask 0, addTask 1,
        .addUserProcess (taskAddr 2) 0x110000 "Task", .kill 3 0x200000, .exit 0 0x200000,
        addTask 3] r ∧ r.sched.processCount = 5 ∧ r.sched.aliveCount = 3 :=
    ⟨_, .stepL (.addProcess rfl) (.stepL (.addProcess rfl) (.stepL (.addUserProcess rfl)
      (.stepL (.kill rfl) (.stepL (.exit rfl) (.single (.addProcess rfl)))))),
      by decide +kernel, by decide +kernel⟩
  exact ⟨r, hr, hcount, halive, (slots_reusable_iff hr).mpr (Or.inl (by rw [hcount]; decide))⟩

/-- Fifteen processes are added and one of them is killed; the next one is refused, with fifteen
processes left. -/
theorem slots_not_reusable :
    ∃ r, Run (SchedStep 0x100000) (.start .powerOn 0x300000 "KernelMain")
        ((List.range 15).map addTask ++ [.kill 2 0x200000]) r ∧
      r.sched.aliveCount = 15 ∧
      (schedulerAddProcess 0x100000 r.sched 0x320000 0x110000 "Task").processCount =
        r.sched.processCount ∧
      ¬ SlotsReusable 0x100000 r.sched := by
  have hadds : Run (SchedStep 0x100000) (.start .powerOn 0x300000 "KernelMain")
      ((List.range 15).map addTask) ((List.range 15).foldl (fun (r : SchedRun) n =>
        { r with sched := schedulerAddProcess 0x100000 r.sched (taskAddr n) 0x110000 "Task" })
        (.start .powerOn 0x300000 "KernelMain")) := by
    refine .foldl (fun r => r.waits = fun _ => none) (fun r n hr => ?_) (List.range 15) rfl
    exact ⟨.addProcess (by rw [hr]), hr⟩
  obtain ⟨r, hr, halive, hfail⟩ : ∃ r, Run (SchedStep 0x100000)
      (.start .powerOn 0x300000 "KernelMain")
      ((List.range 15).map addTask ++ [.kill 2 0x200000]) r ∧ r.sched.aliveCount = 15 ∧
      (schedulerAddProcess 0x100000 r.sched 0x320000 0x110000 "Task").processCount =
        r.sched.processCount :=
    ⟨_, hadds.append (.single (.kill rfl)), by decide +kernel, by decide +kernel⟩
  refine ⟨r, hr, halive, hfail, fun h => ?_⟩
  rcases h.kernel _ _ _ hfail with hmany | hnull
  · rw [halive] at hmany
    simp [maxProcesses] at hmany
  · simp at hnull

end Capacity

end HumanOS

import HumanOS.Scheduler.Table

/-!
# The two ways to end a process

`process_exit` and `process_kill` are written apart: one ends the process in the current slot, the
other searches for a pid. They differ in the texts they print, and in nothing else.
-/
namespace HumanOS

open Lib

variable {s t : Sched} {i pid : Nat} {p q : Process} {esp : Word} {texts : List (String × Nat)}

/-- The scheduler with another console. -/
def Sched.withConsole (s : Sched) (texts : List (String × Nat)) : Sched :=
  { s with console := texts }

/-- Only the process with the pid and those blocked on it differ, and what was printed. -/
structure ChangesOnly (pid : Nat) (s t : Sched) : Prop where
  rest : t = { s with processes := t.processes, console := t.console }
  slots : ∀ i, t.processes i ≠ s.processes i → ∃ p, s.processes i = some p ∧
    (p.pid = pid ∨ p.state = .blocked ∧ p.waitingForPid = pid)

/-- A process with the pid is there and has not ended. -/
def Sched.HasAlive (s : Sched) (pid : Nat) : Prop :=
  ∃ i < s.processCount, ∃ p, s.processes i = some p ∧ p.pid = pid ∧ p.state ≠ .terminated

section Console

/-- The search does not look at the console. -/
theorem findReady_withConsole (s : Sched) (texts : List (String × Nat)) (turns next : Nat) :
    findReady (s.withConsole texts) turns next = findReady s turns next := by
  induction turns generalizing next with
  | zero => rfl
  | succ turns ih =>
    simp only [findReady, ih]
    rfl

/-- Nor does a switch. -/
theorem yieldImpl_withConsole : schedulerYieldImpl (s.withConsole texts) esp =
    ((schedulerYieldImpl s esp).1.withConsole texts, (schedulerYieldImpl s esp).2) := by
  have hsearch := findReady_withConsole s texts s.processCount
    ((s.currentProcess + 1) % s.processCount)
  simp only [schedulerYieldImpl, show (s.withConsole texts).processCount = s.processCount from rfl,
    show (s.withConsole texts).currentProcess = s.currentProcess from rfl, hsearch]
  split
  · rfl
  · cases findReady s s.processCount ((s.currentProcess + 1) % s.processCount) with
    | none => rfl
    | some next =>
      dsimp only
      split <;> rfl

theorem yield_withConsole : schedulerYield (s.withConsole texts) esp =
    (schedulerYield s esp).withConsole texts := by
  rw [schedulerYield_eq, schedulerYield_eq, yieldImpl_withConsole]

end Console

section Kill

/-- Ending the current process by its slot or by its pid. -/
theorem exitCurrent_eq_killSlot : exitCurrent s p (-1) =
    (killSlot s s.currentProcess p.pid).withConsole (exitCurrent s p (-1)).console := rfl

/-- The search of `process_kill` finds the one slot of a pid. -/
theorem ProcessTable.findAlive (h : ProcessTable s) (hi : i < s.processCount)
    (hp : s.processes i = some p) (halive : p.state ≠ .terminated) :
    findAlive s p.pid = some i := by
  cases hfind : HumanOS.findAlive s p.pid with
  | none =>
    have hnone := List.find?_eq_none.mp hfind i (List.mem_range.mpr hi)
    simp [hp, halive] at hnone
  | some j =>
    obtain ⟨hj, q, hq, hpid, -⟩ := findAlive_eq_some hfind
    rw [h.distinct j hj i hi q p hq hp hpid]

theorem findAlive_eq_none : findAlive s pid = none ↔ ¬ s.HasAlive pid := by
  constructor
  · rintro hfind ⟨i, hi, p, hp, hpid, halive⟩
    have hnone := List.find?_eq_none.mp hfind i (List.mem_range.mpr hi)
    simp [hp, hpid, halive] at hnone
  · intro hnot
    cases hfind : findAlive s pid with
    | none => rfl
    | some i =>
      obtain ⟨hi, hp⟩ := findAlive_eq_some hfind
      exact (hnot ⟨i, hi, hp⟩).elim

/-- A process that does not wait for the pid is not woken. -/
theorem Process.wake_eq_self (h : ¬ (p.state = .blocked ∧ p.waitingForPid = pid)) :
    Process.wake pid p = p := if_neg h

theorem killSlot_changesOnly (hp : s.processes i = some p) :
    ChangesOnly p.pid s (killSlot s i p.pid) := by
  refine ⟨rfl, fun j hne => ?_⟩
  by_cases hj : j < s.processCount
  · have hslot : Remaps s (killSlot s i p.pid) (ended i p.pid (-1)) := killSlot_remaps
    cases hq : s.processes j with
    | none =>
      rw [hslot.processes j hj, hq] at hne
      exact (hne rfl).elim
    | some q =>
      rw [hslot.slot_eq hj hq, hq] at hne
      refine ⟨q, rfl, ?_⟩
      by_cases hji : j = i
      · subst hji
        exact .inl (by rw [Option.some.inj (hp.symm.trans hq)])
      · right
        by_contra hw
        apply hne
        rw [ended, if_neg hji, Process.wake_eq_self hw]
  · -- Beyond the processes in use only the slot of the search could change.
    refine ⟨p, ?_, .inl rfl⟩
    by_cases hji : j = i
    · rw [hji, hp]
    · refine (hne ?_).elim
      simp [killSlot, Sched.wakeWaiters, Sched.modify, Sched.puts, hj, hji]

end Kill

/-- A process that exits with -1 and one that kills itself leave the same scheduler behind, but for
the texts printed; killing another process touches that process and those blocked on it. -/
theorem exit_and_kill_agree (h : ProcessTable s) (hp : s.current = some p)
    (halive : p.state ≠ .terminated) (esp : Word) :
    (∀ texts, (processExit s (-1) esp).withConsole texts =
      (processKill s p.pid esp).1.withConsole texts) ∧
    ∀ pid ≠ p.pid,
      (s.HasAlive pid → (processKill s pid esp).2 = 0 ∧
        ChangesOnly pid s (processKill s pid esp).1) ∧
      (¬ s.HasAlive pid → processKill s pid esp = (s, -1)) := by
  have hself := h.findAlive h.current.1 hp halive
  refine ⟨fun texts => ?_, fun pid hne => ⟨fun hhas => ?_, fun hnot => ?_⟩⟩
  · have hkill : (processKill s p.pid esp).1 =
        schedulerYield (killSlot s s.currentProcess p.pid) esp := by
      simp only [processKill, hself]
      exact if_pos rfl
    rw [hkill]
    simp only [processExit, hp]
    rw [exitCurrent_eq_killSlot, yield_withConsole]
    rfl
  · obtain ⟨i, hi, q, hq, rfl, hlive⟩ := hhas
    have hother : i ≠ s.currentProcess := by
      rintro rfl
      exact hne (congrArg Process.pid (Option.some.inj (hq.symm.trans hp)))
    have hkill : processKill s q.pid esp = (killSlot s i q.pid, 0) := by
      simp only [processKill, h.findAlive hi hq hlive]
      exact congrArg (·, (0 : Int)) (if_neg hother)
    rw [hkill]
    exact ⟨rfl, killSlot_changesOnly hq⟩
  · simp only [processKill, findAlive_eq_none.mpr hnot]

/-- `kernel_main` and a shell: killing oneself, the shell, and a pid that is not there. -/
theorem exit_and_kill_agree_two_processes :
    ∃ s, ProcessTable s ∧
      (processExit s (-1) 0x200000).processes = (processKill s 1 0x200000).1.processes ∧
      (processKill s 2 0x200000).2 = 0 ∧ processKill s 3 0x200000 = (s, -1) := by
  obtain ⟨r, hrun, p, hp, hpid, hstate, htwo, hthree⟩ :
      ∃ r, Run (SchedStep 0x100000) (.start .powerOn 0x300000 "KernelMain")
        [.addProcess 0x302000 0x110000 "Shell"] r ∧
      ∃ p, r.sched.current = some p ∧ p.pid = 1 ∧ p.state = .running ∧
        (findAlive r.sched 2).isSome ∧ findAlive r.sched 3 = none :=
    ⟨_, .single (.addProcess rfl), _, rfl, by decide +kernel, by decide +kernel,
      by decide +kernel, by decide +kernel⟩
  have htable := (SchedStep.run_inv (by decide) hrun).processTable
  obtain ⟨hself, hother⟩ := exit_and_kill_agree htable hp (by simp [hstate]) 0x200000
  refine ⟨r.sched, htable, ?_, ((hother 2 (by omega)).1 ?_).1, (hother 3 (by omega)).2 ?_⟩
  · have hslots := congrArg Sched.processes (hself [])
    rwa [hpid] at hslots
  · by_contra hnot
    simp [findAlive_eq_none.mpr hnot] at htwo
  · exact findAlive_eq_none.mp hthree

end HumanOS

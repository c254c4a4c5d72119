import HumanOS.Lib.Waits
import HumanOS.Scheduler.Lifetime

/-!
# Processes that wait for one another

Who waits for whom, from pid to pid. A chain of waits ends at a process that can run, or goes
round in a cycle that nobody in it can break.
-/
namespace HumanOS

open Lib Relation

variable {s t : Sched} {w : Nat → Option Nat} {r r' : SchedRun} {op : SchedOp} {ops : List SchedOp}
variable {i j k pid target : Nat} {p q : Process} {esp wrapper proc : Word} {name : String}

/-- The process in slot `i` has that pid and is BLOCKED until `target` ends. -/
def Sched.BlockedOn (s : Sched) (i pid target : Nat) : Prop :=
  i < s.processCount ∧ ∃ p, s.processes i = some p ∧ p.pid = pid ∧ p.state = .blocked ∧
    p.waitingForPid = target

/-- The process with the first pid waits for that with the second. -/
def Sched.WaitsFor (s : Sched) (pid target : Nat) : Prop := ∃ i, s.BlockedOn i pid target

/-- The process with that pid is READY or RUNNING. -/
def Sched.Runnable (s : Sched) (pid : Nat) : Prop :=
  ∃ i < s.processCount, ∃ p, s.processes i = some p ∧ p.pid = pid ∧
    (p.state = .ready ∨ p.state = .running)

section State

theorem TableInv.waitsFor_unique (h : TableInv s w) :
    ∀ x y z, s.WaitsFor x y → s.WaitsFor x z → y = z := by
  rintro x y z ⟨i, hi, p, hp, hpid, -, rfl⟩ ⟨j, hj, q, hq, hqid, -, rfl⟩
  obtain rfl := h.distinct i hi j hj p q hp hq (hpid.trans hqid.symm)
  obtain rfl : p = q := Option.some.inj (hp.symm.trans hq)
  rfl

/-- Who is waited for waits itself or can run. -/
theorem TableInv.waited (h : TableInv s w) (hw : s.WaitsFor pid target) :
    (∃ next, s.WaitsFor target next) ∨ s.Runnable target := by
  obtain ⟨i, hi, p, hp, -, hst, rfl⟩ := hw
  obtain ⟨j, hj, -, q, hq, hpid, halive⟩ := h.blocked i hi p hp hst
  cases hqs : q.state with
  | blocked => exact Or.inl ⟨_, j, hj, q, hq, hpid, hqs, rfl⟩
  | ready => exact Or.inr ⟨j, hj, q, hq, hpid, Or.inl hqs⟩
  | running => exact Or.inr ⟨j, hj, q, hq, hpid, Or.inr hqs⟩
  | terminated => exact absurd hqs halive

theorem TableInv.waitsFor_lt (h : TableInv s w) (hw : s.WaitsFor pid target) :
    target < s.nextPid := by
  obtain ⟨i, hi, p, hp, -, hst, rfl⟩ := hw
  obtain ⟨j, hj, -, q, hq, hpid, -⟩ := h.blocked i hi p hp hst
  rw [← hpid]
  exact (h.pids j hj q hq).2

theorem TableInv.not_runnable (h : TableInv s w) (hw : s.WaitsFor pid target) :
    ¬ s.Runnable pid := by
  rintro ⟨j, hj, q, hq, hqid, hqs⟩
  obtain ⟨i, hi, p, hp, hpid, hst, -⟩ := hw
  obtain rfl := h.distinct i hi j hj p q hp hq (hpid.trans hqid.symm)
  obtain rfl : p = q := Option.some.inj (hp.symm.trans hq)
  simp [hst] at hqs

/-- Along a chain of waits everybody waits, but perhaps the last one. -/
theorem TableInv.chain (h : TableInv s w) (hw : ∃ target, s.WaitsFor pid target)
    (hchain : ReflTransGen s.WaitsFor pid k) : (∃ next, s.WaitsFor k next) ∨ s.Runnable k := by
  rcases ReflTransGen.cases_tail hchain with rfl | ⟨l, -, hlk⟩
  · exact Or.inl hw
  · exact h.waited hlk

/-- A process that waits is caught in a cycle of waits unless its chain ends at one that can
run. -/
theorem TableInv.cycle_iff (h : TableInv s w) (hw : s.WaitsFor pid target) :
    LeadsToCycle s.WaitsFor pid ↔ ¬ ∃ k, ReflTransGen s.WaitsFor pid k ∧ s.Runnable k := by
  constructor
  · rintro hcycle ⟨k, hchain, hrun⟩
    obtain ⟨l, hkl⟩ := (hcycle.no_end h.waitsFor_unique hchain).exists_step
    exact h.not_runnable hkl hrun
  · intro hnone
    refine leadsToCycle_of_no_end ?_ fun k hchain => ?_
    · refine ((Set.finite_lt_nat s.nextPid).insert pid).subset fun k hchain => ?_
      rcases ReflTransGen.cases_tail hchain with rfl | ⟨l, -, hlk⟩
      · exact Set.mem_insert _ _
      · exact Set.mem_insert_of_mem _ (h.waitsFor_lt hlk)
    · exact (h.chain ⟨target, hw⟩ hchain).resolve_right fun hrun => hnone ⟨k, hchain, hrun⟩

end State
section Steps

theorem Remaps.blockedOn_iff {f : Nat → Process → Process} (hr : Remaps s t f) :
    t.BlockedOn i pid target ↔ i < s.processCount ∧ ∃ p, s.processes i = some p ∧ p.pid = pid ∧
      (f i p).state = .blocked ∧ (f i p).waitingForPid = target := by
  unfold Sched.BlockedOn
  rw [hr.count]
  refine and_congr_right fun hi => ⟨?_, ?_⟩
  · rintro ⟨p, hp, hpid, hst, hw⟩
    obtain ⟨q, hq, rfl⟩ := hr.of_slot hi hp
    exact ⟨q, hq, (hr.pid i q).symm.trans hpid, hst, hw⟩
  · rintro ⟨p, hp, hpid, hst, hw⟩
    exact ⟨f i p, hr.slot_eq hi hp, (hr.pid i p).trans hpid, hst, hw⟩

/-- A yield blocks nobody and wakes nobody. -/
theorem blockedOn_yieldImpl :
    (schedulerYieldImpl s esp).1.BlockedOn i pid target ↔ s.BlockedOn i pid target := by
  rcases schedulerYieldImpl_cases s esp with heq | ⟨next, -, hne, q, hq, hready, heq⟩
  · rw [heq]
  · rw [heq, (switchTo_remaps hne).blockedOn_iff]
    refine and_congr_right fun _ => exists_congr fun p => and_congr_right fun hp => ?_
    refine and_congr_right fun _ => ?_
    unfold switched
    by_cases hcur : i = s.currentProcess
    · by_cases hrun : p.state = .running <;> simp [hcur, hrun]
    · by_cases hn : i = next
      · subst hn
        obtain rfl : q = p := Option.some.inj (hq.symm.trans hp)
        simp [hcur, hready]
      · simp [hcur, hn]

/-- When a process ends, it and those that waited for it are no longer blocked. -/
theorem Remaps.blockedOn_ended {code : Int} (hr : Remaps s t (ended j k code)) :
    t.BlockedOn i pid target ↔ s.BlockedOn i pid target ∧ i ≠ j ∧ target ≠ k := by
  rw [hr.blockedOn_iff]
  unfold Sched.BlockedOn
  constructor
  · rintro ⟨hi, p, hp, hpid, hst, hw⟩
    obtain ⟨heq, hblocked, hne⟩ := Process.wake_blocked hst
    have hij : i ≠ j := by
      rintro rfl
      simp at hblocked
    rw [ended, heq, if_neg hij] at hw
    rw [if_neg hij] at hblocked hne
    exact ⟨⟨hi, p, hp, hpid, hblocked, hw⟩, hij, hw ▸ hne⟩
  · rintro ⟨⟨hi, p, hp, hpid, hst, rfl⟩, hij, hne⟩
    refine ⟨hi, p, hp, hpid, ?_⟩
    simp [ended, Process.wake, hij, hst, hne]

theorem blockedOn_blockOn : (s.blockOn k).BlockedOn i pid target ↔
    (i ≠ s.currentProcess ∧ s.BlockedOn i pid target) ∨
    (i = s.currentProcess ∧ i < s.processCount ∧ target = k ∧
      ∃ p, s.processes i = some p ∧ p.pid = pid) := by
  rw [blockOn_remaps.blockedOn_iff]
  unfold Sched.BlockedOn
  by_cases hi : i = s.currentProcess
  · simp [hi]
    tauto
  · simp [hi]

theorem blockedOn_addProcess {entry : Word} {frame : Process → List Word} {label : String}
    {color : Nat} : (addProcess s proc entry name frame label color).BlockedOn i pid target ↔
      s.BlockedOn i pid target := by
  rcases addProcess_cases s proc entry name frame label color with ⟨text, heq⟩ | ⟨-, -, ha⟩
  · rw [heq]
    rfl
  · unfold Sched.BlockedOn
    rw [ha.count]
    constructor
    · rintro ⟨hi, p, hp, hrest⟩
      rcases ha.slot hp with ⟨-, rfl⟩ | ⟨hne, hp⟩
      · simp [newProcess] at hrest
      · exact ⟨by omega, p, hp, hrest⟩
    · rintro ⟨hi, p, hp, hrest⟩
      exact ⟨by omega, p, (ha.old hi).trans hp, hrest⟩

theorem blockedOn_exit {code : Int} (hp : s.current = some p) :
    (processExit s code esp).BlockedOn i pid target ↔
      s.BlockedOn i pid target ∧ i ≠ s.currentProcess ∧ target ≠ p.pid := by
  simp only [processExit, hp, schedulerYield_eq, blockedOn_yieldImpl]
  exact exitCurrent_remaps.blockedOn_ended

theorem blockedOn_kill (hfind : findAlive s k = some j) :
    (processKill s k esp).1.BlockedOn i pid target ↔
      s.BlockedOn i pid target ∧ i ≠ j ∧ target ≠ k := by
  simp only [processKill, hfind]
  split
  · rw [schedulerYield_eq, blockedOn_yieldImpl]
    exact killSlot_remaps.blockedOn_ended
  · exact killSlot_remaps.blockedOn_ended

theorem blockedOn_waitLoop :
    (waitLoop s k esp).1.BlockedOn i pid target ↔ s.BlockedOn i pid target := by
  rcases waitLoop_cases s k esp with heq | heq
  · rw [heq]
  · rw [heq, blockedOn_yieldImpl]

/-- Only its own call of `process_wait` blocks a process. -/
theorem SchedStep.blocked_before (hs : SchedStep wrapper r op r')
    (h : r'.sched.BlockedOn i pid target) : r.sched.BlockedOn i pid target ∨
      ∃ esp p, op = .wait target esp ∧ r.sched.current = some p ∧ p.pid = pid := by
  cases hs with
  | addProcess =>
    simp only [schedulerAddProcess, blockedOn_addProcess] at h
    exact Or.inl h
  | addUserProcess =>
    simp only [schedulerAddUserProcess, blockedOn_addProcess] at h
    exact Or.inl h
  | yieldImpl => exact Or.inl (blockedOn_yieldImpl.mp h)
  | exit =>
    cases hp : r.sched.current with
    | none => exact Or.inl (by simpa [processExit, hp] using h)
    | some p => exact Or.inl ((blockedOn_exit hp).mp h).1
  | @kill pid' esp =>
    cases hfind : findAlive r.sched pid' with
    | none => exact Or.inl (by simpa [processKill, hfind] using h)
    | some j => exact Or.inl ((blockedOn_kill hfind).mp h).1
  | @wait pid' esp =>
    simp only [SchedRun.afterWait] at h
    rcases processWait_cases r.sched pid' esp with ⟨code, heq⟩ | ⟨j, -, -, -, -, -, heq⟩
    · rw [heq] at h
      exact Or.inl h
    · rw [heq, blockedOn_waitLoop, blockedOn_blockOn] at h
      rcases h with ⟨-, h⟩ | ⟨rfl, -, rfl, p, hp, hpid⟩
      · exact Or.inl h
      · exact Or.inr ⟨esp, p, rfl, hp, hpid⟩
  | recheck => exact Or.inl (blockedOn_waitLoop.mp h)
  | terminateAll =>
    obtain ⟨hi, p, hp, hpid, hst, hw⟩ := terminateAll_remaps.blockedOn_iff.mp h
    split at hst
    · simp at hst
    · rw [if_neg (by assumption)] at hw
      exact Or.inl ⟨hi, p, hp, hpid, hst, hw⟩

/-- The step ends none of these processes from outside. -/
def SchedOp.Spares (pids : Nat → Prop) : SchedOp → Prop
  | .kill pid _ => ¬ pids pid
  | .terminateAll => False
  | _ => True

/-- Whoever is inside its wait loop does nothing else. -/
theorem TableInv.blocked_ne (h : TableInv s w) (hb : s.BlockedOn i pid target)
    (hfree : w s.currentProcess = none) : i ≠ s.currentProcess := by
  rintro rfl
  obtain ⟨hi, p, hp, -, hst, -⟩ := hb
  obtain ⟨j, -, hw, -⟩ := h.blocked _ hi p hp hst
  rw [hfree] at hw
  simp at hw

/-- A blocked process that waits for another blocked one, both spared, stays so. -/
theorem SchedStep.blocked_after {pids : Nat → Prop} (hs : SchedStep wrapper r op r')
    (h : TableInv r.sched r.waits) (hspares : op.Spares pids) (hpid : pids pid)
    (htarget : pids target) (hb : r.sched.BlockedOn i pid target)
    (hnext : ∃ next, r.sched.WaitsFor target next) : r'.sched.BlockedOn i pid target := by
  obtain ⟨next, j, hj⟩ := hnext
  cases hs with
  | addProcess =>
    simp only [schedulerAddProcess, blockedOn_addProcess]
    exact hb
  | addUserProcess =>
    simp only [schedulerAddUserProcess, blockedOn_addProcess]
    exact hb
  | yieldImpl => exact blockedOn_yieldImpl.mpr hb
  | exit hfree =>
    cases hp : r.sched.current with
    | none => simpa [processExit, hp] using hb
    | some p =>
      refine (blockedOn_exit hp).mpr ⟨hb, h.blocked_ne hb hfree, ?_⟩
      -- the current process is not the one waited for, which is blocked
      rintro rfl
      refine h.blocked_ne hj hfree ?_
      obtain ⟨hjlt, q, hq, hqid, -⟩ := hj
      exact h.distinct j hjlt _ h.current q p hq hp hqid
  | @kill pid' esp =>
    cases hfind : findAlive r.sched pid' with
    | none => simpa [processKill, hfind] using hb
    | some l =>
      obtain ⟨hl, q, hq, hqid, -⟩ := findAlive_eq_some hfind
      refine (blockedOn_kill hfind).mpr ⟨hb, ?_, ?_⟩
      · rintro rfl
        obtain ⟨-, p, hp, hpp, -⟩ := hb
        obtain rfl : p = q := Option.some.inj (hp.symm.trans hq)
        exact hspares (hqid ▸ hpp ▸ hpid)
      · rintro rfl
        exact hspares htarget
  | @wait pid' esp hfree =>
    simp only [SchedRun.afterWait]
    rcases processWait_cases r.sched pid' esp with ⟨code, heq⟩ | ⟨l, -, -, -, -, -, heq⟩
    · rw [heq]
      exact hb
    · rw [heq, blockedOn_waitLoop, blockedOn_blockOn]
      exact Or.inl ⟨h.blocked_ne hb hfree, hb⟩
  | recheck => exact blockedOn_waitLoop.mpr hb
  | terminateAll => exact absurd hspares id

end Steps

section Runs

/-- A step that ends none of these processes from outside. -/
def SparingStep (processWrapper : Word) (pids : Nat → Prop) (r : SchedRun) (op : SchedOp)
    (r' : SchedRun) : Prop :=
  SchedStep processWrapper r op r' ∧ op.Spares pids

/-- The waits among processes that lead into a cycle outlast every run that spares them. -/
theorem SparingStep.run_keeps {pids : Nat → Prop} (h : TableInv r.sched r.waits)
    (hclosed : ∀ x, pids x → ∃ y, pids y ∧ r.sched.WaitsFor x y)
    (hr : Run (SparingStep wrapper pids) r ops r') (hpid : pids pid)
    (hw : r.sched.WaitsFor pid target) : r'.sched.WaitsFor pid target := by
  refine (hr.invariant (fun u => TableInv u.sched u.waits ∧
    ∀ x y, pids x → r.sched.WaitsFor x y → u.sched.WaitsFor x y) ?_ ⟨h, fun _ _ _ hxy => hxy⟩).2
    pid target hpid hw
  rintro u op v ⟨hs, hspares⟩ ⟨hinv, hkept⟩
  refine ⟨hs.inv hinv, fun x y hx hxy => ?_⟩
  obtain ⟨y', hy, hxy'⟩ := hclosed x hx
  obtain rfl := h.waitsFor_unique x y y' hxy hxy'
  obtain ⟨z, -, hyz⟩ := hclosed y hy
  obtain ⟨i, hi⟩ := hkept x y hx hxy
  exact ⟨i, hs.blocked_after hinv hspares hx hy hi ⟨z, hkept y z hy hyz⟩⟩

/-- A waiting process whose chain of waits does not end at a process that can run is in a
deadlock: nothing short of killing one of those it waits for makes it run again. -/
theorem deadlock_iff_cycle (hproc : proc ≠ 0)
    (hr : Run (SchedStep wrapper) (.start s proc name) ops r)
    (hw : r.sched.WaitsFor pid target) :
    (LeadsToCycle r.sched.WaitsFor pid ↔
      ¬ ∃ k, ReflTransGen r.sched.WaitsFor pid k ∧ r.sched.Runnable k) ∧
    (LeadsToCycle r.sched.WaitsFor pid → ∀ ops' r',
      Run (SparingStep wrapper (ReflTransGen r.sched.WaitsFor pid)) r ops' r' →
        r'.sched.WaitsFor pid target) := by
  have hinv := SchedStep.run_inv hproc hr
  refine ⟨hinv.cycle_iff hw, fun hcycle ops' r' hr' => ?_⟩
  refine SparingStep.run_keeps hinv (fun x hx => ?_) hr' .refl hw
  obtain ⟨y, hxy⟩ := (hcycle.no_end hinv.waitsFor_unique hx).exists_step
  exact ⟨y, hx.tail hxy, hxy⟩

/-- `kernel_main` and the process it added wait for each other. -/
theorem deadlock_iff_cycle_two_processes :
    ∃ r r', Run (SchedStep 0x100000) (.start .powerOn 0x300000 "KernelMain")
        [.addProcess 0x302000 0x110000 "A", .wait 2 0x200000, .wait 1 0x303000] r ∧
      LeadsToCycle r.sched.WaitsFor 1 ∧ SchedStep 0x100000 r (.recheck 0x303000) r' ∧
      r'.sched.WaitsFor 1 2 := by
  obtain ⟨r, r', hr, h12, h21, hs⟩ : ∃ r r',
      Run (SchedStep 0x100000) (.start .powerOn 0x300000 "KernelMain")
        [.addProcess 0x302000 0x110000 "A", .wait 2 0x200000, .wait 1 0x303000] r ∧
      r.sched.WaitsFor 1 2 ∧ r.sched.WaitsFor 2 1 ∧
      SchedStep 0x100000 r (.recheck 0x303000) r' :=
    ⟨_, _, .stepL (.addProcess rfl) (.stepL (.wait rfl) (.single (.wait (by decide +kernel)))),
      ⟨0, by decide +kernel, _, rfl, by decide +kernel, by decide +kernel, by decide +kernel⟩,
      ⟨1, by decide +kernel, _, rfl, by decide +kernel, by decide +kernel, by decide +kernel⟩,
      .recheck (show _ = some 0 by decide +kernel)⟩
  have hcycle : LeadsToCycle r.sched.WaitsFor 1 := ⟨1, .refl, .tail (.single h12) h21⟩
  exact ⟨r, r', hr, hcycle, hs,
    (deadlock_iff_cycle (by decide) hr h12).2 hcycle _ _ (.single ⟨hs, trivial⟩)⟩

/-- Whoever calls `process_wait` waits for a process added after it. -/
def SchedOp.WaitsForYounger (s : Sched) : SchedOp → Prop
  | .wait pid _ => schedulerGetCurrentPid s < pid
  | _ => True

/-- A step in which nobody waits for an older process or for itself. -/
def YoungerStep (processWrapper : Word) (r : SchedRun) (op : SchedOp) (r' : SchedRun) : Prop :=
  SchedStep processWrapper r op r' ∧ op.WaitsForYounger r.sched

theorem YoungerStep.waits_up (hs : YoungerStep wrapper r op r') (h : TableInv r.sched r.waits)
    (hup : ∀ x y, r.sched.WaitsFor x y → x < y) : ∀ x y, r'.sched.WaitsFor x y → x < y := by
  rintro x y ⟨i, hi⟩
  obtain ⟨hs, hyounger⟩ := hs
  rcases hs.blocked_before hi with hb | ⟨esp, p, rfl, hp, rfl⟩
  · exact hup x y ⟨i, hb⟩
  · rw [← h.currentPid hp]
    exact hyounger

/-- Where processes wait only for those they could have added, nobody is caught in a deadlock:
every chain of waits ends at a process that can run, so while one process has not ended there is
one that can run. -/
theorem younger_waits_no_deadlock (hproc : proc ≠ 0)
    (hr : Run (YoungerStep wrapper) (.start s proc name) ops r) :
    (∀ pid target, r.sched.WaitsFor pid target →
      ∃ k, ReflTransGen r.sched.WaitsFor pid k ∧ r.sched.Runnable k) ∧
    ∀ i < r.sched.processCount, ∀ p, r.sched.processes i = some p → p.state ≠ .terminated →
      ∃ k, r.sched.Runnable k := by
  obtain ⟨hinv, hup⟩ := hr.invariant
    (fun u => TableInv u.sched u.waits ∧ ∀ x y, u.sched.WaitsFor x y → x < y)
    (fun _ _ _ hs h => ⟨hs.1.inv h.1, hs.waits_up h.1 h.2⟩)
    ⟨converted_inv hproc, by
      rintro x y ⟨i, hi, p, hp, -, hst, -⟩
      obtain ⟨j, -, hw, -⟩ := (converted_inv hproc).blocked i hi p hp hst
      simp at hw⟩
  have hends : ∀ pid target, r.sched.WaitsFor pid target →
      ∃ k, ReflTransGen r.sched.WaitsFor pid k ∧ r.sched.Runnable k := by
    intro pid target hw
    by_contra hnone
    exact not_leadsToCycle_of_rank (f := id) hup ((hinv.cycle_iff hw).mpr hnone)
  refine ⟨hends, fun i hi p hp halive => ?_⟩
  cases hst : p.state with
  | ready => exact ⟨p.pid, i, hi, p, hp, rfl, Or.inl hst⟩
  | running => exact ⟨p.pid, i, hi, p, hp, rfl, Or.inr hst⟩
  | blocked =>
    obtain ⟨k, -, hk⟩ := hends p.pid p.waitingForPid ⟨i, hi, p, hp, rfl, hst, rfl⟩
    exact ⟨k, hk⟩
  | terminated => exact absurd hst halive

/-- `kernel_main` waits for the process it added. -/
theorem younger_waits_no_deadlock_one_wait :
    ∃ r, Run (YoungerStep 0x100000) (.start .powerOn 0x300000 "KernelMain")
        [.addProcess 0x302000 0x110000 "A", .wait 2 0x200000] r ∧
      r.sched.WaitsFor 1 2 ∧ ∃ k, ReflTransGen r.sched.WaitsFor 1 k ∧ r.sched.Runnable k := by
  obtain ⟨r, hr, h12⟩ : ∃ r, Run (YoungerStep 0x100000) (.start .powerOn 0x300000 "KernelMain")
      [.addProcess 0x302000 0x110000 "A", .wait 2 0x200000] r ∧ r.sched.WaitsFor 1 2 :=
    ⟨_, .stepL ⟨.addProcess rfl, trivial⟩
        (.single ⟨.wait rfl, show schedulerGetCurrentPid _ < 2 by decide +kernel⟩),
      ⟨0, by decide +kernel, _, rfl, by decide +kernel, by decide +kernel, by decide +kernel⟩⟩
  exact ⟨r, hr, h12, (younger_waits_no_deadlock (by decide) hr).1 1 2 h12⟩

end Runs

end HumanOS

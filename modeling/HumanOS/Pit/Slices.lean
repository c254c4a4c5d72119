import HumanOS.Pit.Model
import HumanOS.Scheduler.RoundRobin
import Mathlib.Data.Finset.Card

/-!
# Time slices

The timer interrupt ends a slice at every tenth tick, and the search goes round the table. So a
process that is ready runs before long, whatever the others do in the meantime.
-/
namespace HumanOS

open Lib

variable {s t : Sched} {w : Nat → Option Nat} {r r' : SchedRun} {op : SchedOp} {i : Nat}
variable {p : Process} {esp wrapper proc : Word} {name : String} {ts : List Nat}

section Current

/-- The current process is not among those to be chosen from. -/
def Sched.CurrentTaken (s : Sched) : Prop := ∀ p, s.current = some p → p.state ≠ .ready

theorem Sched.CurrentTaken.yieldImpl (h : s.CurrentTaken) :
    (schedulerYieldImpl s esp).1.CurrentTaken := by
  rcases schedulerYieldImpl_cases s esp with heq | ⟨next, hlt, hne, q, hq, -, heq⟩
  · rwa [heq]
  · rw [heq]
    intro p hp hst
    have hslot : (HumanOS.switchTo s next esp).processes next = some (switched s next esp next q) :=
      (switchTo_remaps hne).slot_eq hlt hq
    obtain rfl : switched s next esp next q = p := Option.some.inj (hslot.symm.trans hp)
    simp [switched, hne] at hst

theorem Sched.CurrentTaken.yield (h : s.CurrentTaken) : (schedulerYield s esp).CurrentTaken := by
  rw [schedulerYield_eq]
  exact h.yieldImpl

/-- A change of states that does not make the current process ready. -/
theorem Sched.CurrentTaken.remap {f : Nat → Process → Process} (h : s.CurrentTaken)
    (hr : Remaps s t f) (hcur : t.currentProcess = s.currentProcess)
    (hlt : s.currentProcess < s.processCount)
    (hkeep : ∀ p, s.current = some p → p.state ≠ .ready → (f s.currentProcess p).state ≠ .ready) :
    t.CurrentTaken := by
  intro p hp
  unfold Sched.current at hp
  rw [hcur] at hp
  obtain ⟨q, hq, rfl⟩ := hr.of_slot hlt hp
  exact hkeep q hq (h q hq)

/-- A process that ends wakes others only. -/
theorem ended_not_ready {code : Int} {j pid : Nat} (hp : p.state ≠ .ready)
    (hblocked : i = j ∨ p.state ≠ .blocked) : (ended j pid code i p).state ≠ .ready := by
  unfold ended Process.wake
  by_cases hij : i = j
  · simp [hij]
  · simp [hij, hblocked.resolve_left hij, hp]

theorem TableInv.current_not_blocked (h : TableInv s w) (hfree : w s.currentProcess = none)
    (hp : s.current = some p) : p.state ≠ .blocked := by
  intro hst
  obtain ⟨j, -, hw, -⟩ := h.blocked _ h.current p hp hst
  rw [hfree] at hw
  simp at hw

theorem Sched.CurrentTaken.addProcess {entry : Word} {frame : Process → List Word}
    {label : String} {color : Nat} (h : s.CurrentTaken) (hlt : s.currentProcess < s.processCount) :
    (addProcess s proc entry name frame label color).CurrentTaken := by
  rcases addProcess_cases s proc entry name frame label color with ⟨text, heq⟩ | ⟨-, -, ha⟩
  · rw [heq]
    exact h
  · intro p hp
    unfold Sched.current at hp
    rw [ha.current, ha.old hlt] at hp
    exact h p hp

theorem waitLoop_taken {j : Nat} (h : s.CurrentTaken) : (waitLoop s j esp).1.CurrentTaken := by
  rcases waitLoop_cases s j esp with heq | heq
  · rwa [heq]
  · rw [heq]
    exact h.yieldImpl

theorem SchedStep.current_taken (hs : SchedStep wrapper r op r') (h : TableInv r.sched r.waits)
    (ht : r.sched.CurrentTaken) : r'.sched.CurrentTaken := by
  cases hs with
  | addProcess =>
    simp only [schedulerAddProcess]
    exact ht.addProcess h.current
  | addUserProcess =>
    simp only [schedulerAddUserProcess]
    exact ht.addProcess h.current
  | yieldImpl => exact ht.yieldImpl
  | exit =>
    simp only [processExit]
    cases hp : r.sched.current with
    | none => exact ht
    | some p =>
      refine Sched.CurrentTaken.yield (ht.remap exitCurrent_remaps rfl h.current ?_)
      exact fun q _ hq => ended_not_ready hq (Or.inl rfl)
  | @kill pid esp hfree =>
    simp only [processKill]
    cases hfind : findAlive r.sched pid with
    | none => exact ht
    | some j =>
      have hkilled : (killSlot r.sched j pid).CurrentTaken := by
        refine ht.remap killSlot_remaps rfl h.current fun q hq hready => ?_
        exact ended_not_ready hready (Or.inr (h.current_not_blocked hfree hq))
      dsimp only
      split
      · exact hkilled.yield
      · exact hkilled
  | @wait pid esp hfree =>
    simp only [SchedRun.afterWait]
    rcases processWait_cases r.sched pid esp with ⟨code, heq⟩ | ⟨j, -, -, -, -, -, heq⟩
    · rwa [heq]
    · rw [heq]
      refine waitLoop_taken (ht.remap blockOn_remaps rfl h.current ?_)
      simp
  | recheck => exact waitLoop_taken ht
  | terminateAll =>
    refine ht.remap terminateAll_remaps rfl h.current fun q _ hq => ?_
    split
    · simp
    · exact hq

end Current

section Slices

/-- The timer interrupt, a call of `scheduler_check`, or a step of the current process. -/
inductive ClockOp where
  | tick (esp : Word)
  | check (esp : Word)
  | sched (op : SchedOp)

def ClockOp.isTick : ClockOp → Bool
  | .tick _ => true
  | _ => false

/-- The scheduler with the timer that drives it. -/
structure Clock where
  timer : Timer
  run : SchedRun

/-- Take over what a function of both left. -/
def Clock.after (c : Clock) (out : Timer × Sched) : Clock := ⟨out.1, { c.run with sched := out.2 }⟩

inductive ClockStep (processWrapper : Word) : Clock → ClockOp → Clock → Prop
  | tick {c esp} : ClockStep processWrapper c (.tick esp)
      (c.after (irq0Tick c.timer c.run.sched esp))
  | check {c esp} : c.run.waits c.run.sched.currentProcess = none →
      ClockStep processWrapper c (.check esp) (c.after (schedulerCheck c.timer c.run.sched esp))
  | sched {c op r} : SchedStep processWrapper c.run op r →
      ClockStep processWrapper c (.sched op) { c with run := r }

/-- The machine when `kernel_main` has become a process; the timer has counted no ticks of a
slice yet, there having been nobody to switch to. -/
def Clock.start (t : Timer) (s : Sched) (proc : Word) (name : String) : Clock :=
  ⟨{ t with tickCounter := 0, scheduleNeeded := false }, .start s proc name⟩

structure ClockInv (c : Clock) : Prop where
  counter : c.timer.tickCounter < 10
  needed : c.timer.scheduleNeeded = false
  table : TableInv c.run.sched c.run.waits
  taken : c.run.sched.CurrentTaken

/-- What a tick does: count, or end the slice. -/
theorem irq0Tick_cases {τ : Timer} (hcount : ¬ s.processCount ≤ 1) (hlt : τ.tickCounter < 10)
    (hneeded : τ.scheduleNeeded = false) (esp : Word) :
    ((irq0Tick τ s esp).1.tickCounter = τ.tickCounter + 1 ∧ τ.tickCounter + 1 < 10 ∧
      (irq0Tick τ s esp).1.scheduleNeeded = false ∧ (irq0Tick τ s esp).2 = s) ∨
    ((irq0Tick τ s esp).1.tickCounter = 0 ∧ τ.tickCounter + 1 = 10 ∧
      (irq0Tick τ s esp).1.scheduleNeeded = false ∧
      (irq0Tick τ s esp).2 = (schedulerYieldImpl s esp).1) := by
  have hadd : add32 τ.tickCounter 1 = τ.tickCounter + 1 := add32_of_lt (by omega)
  by_cases hten : τ.tickCounter + 1 ≥ 10
  · refine Or.inr ⟨?_, by omega, ?_, ?_⟩ <;>
      simp [irq0Tick, pitHandler, schedulerTick, Timer.outb, hcount, hadd, hten]
  · refine Or.inl ⟨?_, by omega, ?_, ?_⟩ <;>
      simp [irq0Tick, pitHandler, schedulerTick, Timer.outb, hcount, hadd, hten, hneeded]

/-- With nobody to switch to the ticks are not counted. -/
theorem irq0Tick_alone {τ : Timer} (hcount : s.processCount ≤ 1)
    (hneeded : τ.scheduleNeeded = false) (esp : Word) :
    (irq0Tick τ s esp).1.tickCounter = τ.tickCounter ∧
      (irq0Tick τ s esp).1.scheduleNeeded = false ∧ (irq0Tick τ s esp).2 = s := by
  simp [irq0Tick, pitHandler, schedulerTick, Timer.outb, hcount, hneeded]

theorem schedulerCheck_idle {τ : Timer} (hneeded : τ.scheduleNeeded = false) :
    schedulerCheck τ s esp = (τ, s) := by
  simp [schedulerCheck, hneeded]

variable {c c' : Clock} {cop : ClockOp} {ops ops' : List ClockOp}

theorem ClockStep.inv (hs : ClockStep wrapper c cop c') (h : ClockInv c) : ClockInv c' := by
  cases hs with
  | @tick esp =>
    by_cases hcount : c.run.sched.processCount ≤ 1
    · obtain ⟨hc, hn, hsched⟩ := irq0Tick_alone hcount h.needed esp
      exact ⟨hc ▸ h.counter, hn, by rw [Clock.after, hsched]; exact h.table,
        by rw [Clock.after, hsched]; exact h.taken⟩
    · rcases irq0Tick_cases hcount h.counter h.needed esp with
        ⟨hc, hlt, hn, hsched⟩ | ⟨hc, -, hn, hsched⟩
      · exact ⟨hc ▸ hlt, hn, by rw [Clock.after, hsched]; exact h.table,
          by rw [Clock.after, hsched]; exact h.taken⟩
      · exact ⟨hc ▸ by decide, hn, by rw [Clock.after, hsched]; exact h.table.yieldImpl,
          by rw [Clock.after, hsched]; exact h.taken.yieldImpl⟩
  | check =>
    rw [schedulerCheck_idle h.needed]
    exact h
  | sched hs => exact ⟨h.counter, h.needed, hs.inv h.table, hs.current_taken h.table h.taken⟩

theorem ClockInv.start {τ : Timer} (hproc : proc ≠ 0) : ClockInv (.start τ s proc name) := by
  refine ⟨Nat.zero_lt_succ _, rfl, converted_inv hproc, ?_⟩
  obtain ⟨console, heq⟩ := converted_eq s name hproc
  intro p hp
  rw [Clock.start, SchedRun.start, heq] at hp
  obtain rfl : mainProcess proc name = p := Option.some.inj (by simpa [Sched.current] using hp)
  simp [mainProcess]

/-- A step after which slot `i` is still ready. -/
def StillReady (processWrapper : Word) (i : Nat) (c : Clock) (op : ClockOp) (c' : Clock) : Prop :=
  ClockStep processWrapper c op c' ∧ c'.run.sched.isReady i = true

theorem Sweep.last (h : Sweep wrapper i r ts r') : r'.sched.isReady i = true := by
  cases h with
  | start _ hready => exact hready
  | stay _ _ hready _ => exact hready
  | switch _ _ hready _ => exact hready

/-- At the end of a slice a process other than `i` is switched to. -/
theorem ClockInv.slice_ends {r₀ : SchedRun} (h : ClockInv c) (hi : i < c.run.sched.processCount)
    (hsweep : Sweep wrapper i r₀ ts c.run)
    (hready : (schedulerYieldImpl c.run.sched esp).1.isReady i = true) :
    ∃ k, Sweep wrapper i r₀ (ts ++ [k])
      { c.run with sched := (schedulerYieldImpl c.run.sched esp).1 } := by
  have hnow := hsweep.last
  have hother : i ≠ c.run.sched.currentProcess := by
    rintro rfl
    obtain ⟨p, hp, hst⟩ := isReady_iff.mp hnow
    exact h.taken p hp hst
  have hleft : (schedulerYieldImpl c.run.sched esp).1.currentProcess ≠
      c.run.sched.currentProcess := by
    rw [Ne, schedulerYieldImpl_stays_iff esp h.table.current]
    intro hidle
    rw [hidle i hi hother] at hnow
    simp at hnow
  exact ⟨_, .switch hsweep .yieldImpl hready hleft⟩

/-- Slots are never given back, so the table has two of them for as long as `i` is not current. -/
theorem ClockInv.two_slots (h : ClockInv c) (hi : i < c.run.sched.processCount)
    (hready : c.run.sched.isReady i = true) : ¬ c.run.sched.processCount ≤ 1 := by
  intro hone
  have hcur := h.table.current
  obtain rfl : i = c.run.sched.currentProcess := by omega
  obtain ⟨p, hp, hst⟩ := isReady_iff.mp hready
  exact h.taken p hp hst

/-- Ten ticks at most go by for each process switched to. -/
theorem StillReady.run_sweep {r₀ : SchedRun} (hr : Run (StillReady wrapper i) c ops c')
    (h : ClockInv c) (hocc : Occupied r₀.sched) (hsweep : Sweep wrapper i r₀ ts c.run) :
    ∃ ts', Sweep wrapper i r₀ ts' c'.run ∧ ClockInv c' ∧
      ops.countP ClockOp.isTick + c.timer.tickCounter + 10 * ts.length ≤
        10 * ts'.length + c'.timer.tickCounter := by
  induction hr generalizing ts with
  | refl => exact ⟨ts, hsweep, h, by simp [Nat.add_comm]⟩
  | @stepL c c₁ c' op ops hstep hr ih =>
    obtain ⟨hs, hready⟩ := hstep
    have hi := (hsweep.inv hocc).slot
    have hinv := hs.inv h
    cases hs with
    | @tick esp =>
      rcases irq0Tick_cases (h.two_slots hi hsweep.last) h.counter h.needed esp with
        ⟨hc, -, -, hsched⟩ | ⟨hc, hten, -, hsched⟩
      · have hsame : Sweep wrapper i r₀ ts (c.after (irq0Tick c.timer c.run.sched esp)).run := by
          simp only [Clock.after, hsched]
          exact hsweep
        obtain ⟨ts', hsweep', hinv', hle⟩ := ih hinv hsame
        refine ⟨ts', hsweep', hinv', ?_⟩
        simp only [Clock.after, hc] at hle
        simp only [List.countP_cons, ClockOp.isTick, if_true]
        omega
      · simp only [Clock.after, hsched] at hready
        obtain ⟨k, hlonger⟩ := h.slice_ends hi hsweep hready
        have hnext : Sweep wrapper i r₀ (ts ++ [k])
            (c.after (irq0Tick c.timer c.run.sched esp)).run := by
          simp only [Clock.after, hsched]
          exact hlonger
        obtain ⟨ts', hsweep', hinv', hle⟩ := ih hinv hnext
        refine ⟨ts', hsweep', hinv', ?_⟩
        simp only [Clock.after, hc, List.length_append, List.length_singleton] at hle
        simp only [List.countP_cons, ClockOp.isTick, if_true]
        omega
    | check =>
      rw [schedulerCheck_idle h.needed] at ih hinv
      obtain ⟨ts', hsweep', hinv', hle⟩ := ih hinv hsweep
      exact ⟨ts', hsweep', hinv',
        by simpa [List.countP_cons, ClockOp.isTick, Clock.after] using hle⟩
    | @sched op r hs =>
      by_cases hstay : r.sched.currentProcess = c.run.sched.currentProcess
      · obtain ⟨ts', hsweep', hinv', hle⟩ := ih hinv (.stay hsweep hs hready hstay)
        exact ⟨ts', hsweep', hinv', by simpa [List.countP_cons, ClockOp.isTick] using hle⟩
      · obtain ⟨ts', hsweep', hinv', hle⟩ := ih hinv (.switch hsweep hs hready hstay)
        refine ⟨ts', hsweep', hinv', ?_⟩
        simp only [List.length_append, List.length_singleton] at hle
        simp only [List.countP_cons, ClockOp.isTick, Bool.false_eq_true, if_false]
        omega

/-- There are not more processes to be overtaken by than other slots. -/
theorem SweepInv.length_lt (h : SweepInv i r ts r') : ts.length < maxProcesses := by
  have hsub : insert i ts.toFinset ⊆ Finset.range r'.sched.processCount := by
    intro k hk
    rcases Finset.mem_insert.mp hk with rfl | hk
    · exact Finset.mem_range.mpr h.slot
    · exact Finset.mem_range.mpr (h.passed k (List.mem_toFinset.mp hk)).1
  have hcard := Finset.card_le_card hsub
  rw [Finset.card_insert_of_notMem (by simpa using h.other), List.toFinset_card_of_nodup h.once,
    Finset.card_range] at hcard
  have := h.occupied.count
  omega

/-- Nobody starves: whatever the other processes do, add, yield, block, end or kill, a process
that stays ready is switched to before the timer has ticked 160 times. -/
theorem ready_runs_within_ticks {τ : Timer} (hproc : proc ≠ 0)
    (hr : Run (ClockStep wrapper) (.start τ s proc name) ops c)
    (hi : i < c.run.sched.processCount) (hready : c.run.sched.isReady i = true)
    (hwait : Run (StillReady wrapper i) c ops' c') :
    ops'.countP ClockOp.isTick < 10 * maxProcesses := by
  have hinv : ClockInv c := hr.invariant ClockInv (fun _ _ _ hs h => hs.inv h) (.start hproc)
  have hocc : Occupied c.run.sched :=
    ⟨Or.inr hinv.table.current, hinv.table.count, hinv.table.present⟩
  obtain ⟨ts, hsweep, hinv', hle⟩ :=
    StillReady.run_sweep hwait hinv hocc (.start hi hready)
  have hlen := (hsweep.inv hocc).length_lt
  have hlast := hinv'.counter
  simp only [List.length_nil] at hle
  omega

/-- A process that was added waits while the first of the ticks go by. -/
theorem ready_runs_within_ticks_two_ticks :
    ∃ c c', Run (ClockStep 0x100000) (.start .powerOn .powerOn 0x300000 "KernelMain")
        [.sched (.addProcess 0x302000 0x110000 "A")] c ∧
      Run (StillReady 0x100000 1) c [.tick 0x200000, .tick 0x200000] c' ∧
      [ClockOp.tick 0x200000, .tick 0x200000].countP ClockOp.isTick < 10 * maxProcesses := by
  obtain ⟨c, c', hr, hi, hready, hwait⟩ : ∃ c c',
      Run (ClockStep 0x100000) (.start .powerOn .powerOn 0x300000 "KernelMain")
        [.sched (.addProcess 0x302000 0x110000 "A")] c ∧ 1 < c.run.sched.processCount ∧
      c.run.sched.isReady 1 = true ∧
      Run (StillReady 0x100000 1) c [.tick 0x200000, .tick 0x200000] c' :=
    ⟨_, _, .single (.sched (.addProcess rfl)), by decide +kernel, by decide +kernel,
      .stepL ⟨.tick, by decide +kernel⟩ (.single ⟨.tick, by decide +kernel⟩)⟩
  exact ⟨c, c', hr, hwait, ready_runs_within_ticks (by decide) hr hi hready hwait⟩

end Slices

end HumanOS

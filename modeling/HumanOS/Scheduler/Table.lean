import HumanOS.Lib.Run
import HumanOS.Scheduler.Model

/-!
# The process table over whole runs

Each operation of the current process is one step. A process inside the loop of `process_wait`
only looks at its target again and yields; which processes are there, and for which slot, is
kept beside the table.
-/
namespace HumanOS

open Lib

variable {s t : Sched} {w : Nat → Option Nat} {i j k n next pid : Nat} {p q : Process}
variable {esp wrapper : Word}

/-- What a step may rely on. -/
structure TableInv (s : Sched) (w : Nat → Option Nat) : Prop where
  current : s.currentProcess < s.processCount
  count : s.processCount ≤ maxProcesses
  nextPid : s.nextPid = s.processCount + 1
  present : ∀ i < s.processCount, ∃ p, s.processes i = some p
  pids : ∀ i < s.processCount, ∀ p, s.processes i = some p → 1 ≤ p.pid ∧ p.pid < s.nextPid
  distinct : ∀ i < s.processCount, ∀ j < s.processCount, ∀ p q, s.processes i = some p →
    s.processes j = some q → p.pid = q.pid → i = j
  running : ∀ i < s.processCount, ∀ p, s.processes i = some p → p.state = .running →
    i = s.currentProcess
  unblocked : ∀ i < s.processCount, ∀ p, s.processes i = some p →
    p.state = .ready ∨ p.state = .running → p.waitingForPid = 0
  blocked : ∀ i < s.processCount, ∀ p, s.processes i = some p → p.state = .blocked →
    ∃ j < s.processCount, w i = some j ∧ ∃ q, s.processes j = some q ∧
      q.pid = p.waitingForPid ∧ q.state ≠ .terminated

/-- `t` has the slots of `s`, each changed by `f` but for its pid. -/
structure Remaps (s t : Sched) (f : Nat → Process → Process) : Prop where
  processes : ∀ i, i < s.processCount → t.processes i = (s.processes i).map (f i)
  count : t.processCount = s.processCount
  nextPid : t.nextPid = s.nextPid
  pid : ∀ i p, (f i p).pid = p.pid

theorem Remaps.rfl_of_processes (hp : t.processes = s.processes)
    (hcount : t.processCount = s.processCount) (hnext : t.nextPid = s.nextPid) :
    Remaps s t fun _ p => p :=
  ⟨fun i _ => by simp [hp], hcount, hnext, fun _ _ => rfl⟩

theorem Remaps.slot_eq {f : Nat → Process → Process} (hr : Remaps s t f) (hi : i < s.processCount)
    (hp : s.processes i = some p) : t.processes i = some (f i p) := by
  rw [hr.processes i hi, hp, Option.map_some]

/-- Where an entry of the new table comes from. -/
theorem Remaps.of_slot {f : Nat → Process → Process} (hr : Remaps s t f) (hi : i < s.processCount)
    (hp : t.processes i = some p) : ∃ q, s.processes i = some q ∧ f i q = p := by
  rw [hr.processes i hi] at hp
  exact Option.map_eq_some_iff.mp hp

theorem Remaps.present {f : Nat → Process → Process} (hr : Remaps s t f)
    (h : ∀ i < s.processCount, ∃ p, s.processes i = some p) :
    ∀ i < t.processCount, ∃ p, t.processes i = some p := by
  intro i hi
  rw [hr.count] at hi
  obtain ⟨p, hp⟩ := h i hi
  exact ⟨_, hr.slot_eq hi hp⟩

/-- An operation that changes states only: what is left to show is about states. -/
theorem TableInv.remap {f : Nat → Process → Process} {w' : Nat → Option Nat} (h : TableInv s w)
    (hr : Remaps s t f) (hcur : t.currentProcess < s.processCount)
    (hrun : ∀ i < s.processCount, ∀ p, s.processes i = some p → (f i p).state = .running →
      i = t.currentProcess)
    (hun : ∀ i < s.processCount, ∀ p, s.processes i = some p →
      (f i p).state = .ready ∨ (f i p).state = .running → (f i p).waitingForPid = 0)
    (hblock : ∀ i < s.processCount, ∀ p, s.processes i = some p → (f i p).state = .blocked →
      ∃ j < s.processCount, w' i = some j ∧ ∃ q, s.processes j = some q ∧
        q.pid = (f i p).waitingForPid ∧ (f j q).state ≠ .terminated) :
    TableInv t w' := by
  refine ⟨hr.count ▸ hcur, hr.count ▸ h.count, ?_, hr.present h.present, ?_, ?_, ?_, ?_, ?_⟩ <;>
    simp only [hr.count, hr.nextPid]
  · exact h.nextPid
  · intro i hi p hp
    obtain ⟨q, hq, rfl⟩ := hr.of_slot hi hp
    rw [hr.pid]
    exact h.pids i hi q hq
  · intro i hi j hj p q hp hq hpid
    obtain ⟨p', hp', rfl⟩ := hr.of_slot hi hp
    obtain ⟨q', hq', rfl⟩ := hr.of_slot hj hq
    rw [hr.pid, hr.pid] at hpid
    exact h.distinct i hi j hj p' q' hp' hq' hpid
  · intro i hi p hp hst
    obtain ⟨q, hq, rfl⟩ := hr.of_slot hi hp
    exact hrun i hi q hq hst
  · intro i hi p hp hst
    obtain ⟨q, hq, rfl⟩ := hr.of_slot hi hp
    exact hun i hi q hq hst
  · intro i hi p hp hst
    obtain ⟨p', hp', rfl⟩ := hr.of_slot hi hp
    obtain ⟨j, hj, hw, q, hq, hpid, halive⟩ := hblock i hi p' hp' hst
    exact ⟨j, hj, hw, f j q, hr.slot_eq hj hq, by rw [hr.pid, hpid], halive⟩

theorem TableInv.currentPid (h : TableInv s w) (hp : s.processes s.currentProcess = some p) :
    schedulerGetCurrentPid s = p.pid := by
  have hcount : s.processCount ≠ 0 := by
    have := h.current
    omega
  simp [schedulerGetCurrentPid, Sched.current, hp, hcount]

/-- The console does not matter. -/
theorem TableInv.puts {text : String} {color : Nat} (h : TableInv s w) :
    TableInv (s.puts text color) w :=
  ⟨h.current, h.count, h.nextPid, h.present, h.pids, h.distinct, h.running, h.unblocked, h.blocked⟩

section Yield

theorem isReady_iff : s.isReady i = true ↔ ∃ p, s.processes i = some p ∧ p.state = .ready := by
  unfold Sched.isReady
  cases s.processes i <;> simp

/-- One place further round the table. -/
theorem round_succ : ((n + 1) % s.processCount + j) % s.processCount =
    (n + (j + 1)) % s.processCount := by
  rw [Nat.mod_add_mod]
  congr 1
  omega

/-- The search goes round the table and stops at the first ready process. -/
theorem findReady_eq_some (hn : n < s.processCount) (h : findReady s k n = some next) :
    s.isReady next = true ∧ ∃ j < k, next = (n + j) % s.processCount ∧
      ∀ l < j, s.isReady ((n + l) % s.processCount) = false := by
  induction k generalizing n with
  | zero => simp [findReady] at h
  | succ k ih =>
    simp only [findReady] at h
    split at h
    · rename_i hready
      obtain rfl := Option.some.inj h
      exact ⟨hready, 0, by omega, by rw [Nat.add_zero, Nat.mod_eq_of_lt hn], by simp⟩
    · rename_i hready
      obtain ⟨hfound, j, hj, hnext, hbefore⟩ := ih (Nat.mod_lt _ (by omega)) h
      refine ⟨hfound, j + 1, by omega, by rw [hnext, round_succ], fun l hl => ?_⟩
      cases l with
      | zero => simpa [Nat.mod_eq_of_lt hn] using hready
      | succ l =>
        rw [← round_succ]
        exact hbefore l (by omega)

theorem findReady_eq_none (hn : n < s.processCount) (h : findReady s k n = none) :
    ∀ l < k, s.isReady ((n + l) % s.processCount) = false := by
  induction k generalizing n with
  | zero => simp
  | succ k ih =>
    simp only [findReady] at h
    split at h
    · simp at h
    · rename_i hready
      intro l hl
      cases l with
      | zero => simpa [Nat.mod_eq_of_lt hn] using hready
      | succ l =>
        rw [← round_succ]
        exact ih (Nat.mod_lt _ (by omega)) h l (by omega)

/-- What `scheduler_yield_impl` can do: nothing, or a switch to another ready process. -/
theorem schedulerYieldImpl_cases (s : Sched) (esp : Word) :
    schedulerYieldImpl s esp = (s, 0) ∨
    ∃ next < s.processCount, next ≠ s.currentProcess ∧
      ∃ p, s.processes next = some p ∧ p.state = .ready ∧
        schedulerYieldImpl s esp = (switchTo s next esp, p.esp) := by
  unfold schedulerYieldImpl
  split
  · exact Or.inl rfl
  · cases hfind : findReady s s.processCount ((s.currentProcess + 1) % s.processCount) with
    | none => exact Or.inl rfl
    | some next =>
      obtain ⟨hready, j, -, hnext, -⟩ := findReady_eq_some (Nat.mod_lt _ (by omega)) hfind
      obtain ⟨p, hp, hst⟩ := isReady_iff.mp hready
      by_cases hne : next = s.currentProcess
      · exact Or.inl (by simp [hne])
      · refine Or.inr ⟨next, hnext ▸ Nat.mod_lt _ (by omega), hne, p, hp, hst, ?_⟩
        simp [hne, switchTo, Sched.modify, hp]

theorem schedulerYieldImpl_unchanged
    (hstay : (schedulerYieldImpl s esp).1.currentProcess = s.currentProcess) :
    (schedulerYieldImpl s esp).1 = s := by
  rcases schedulerYieldImpl_cases s esp with heq | ⟨next, -, hnext, p, -, -, heq⟩
  · rw [heq]
  · rw [heq] at hstay
    exact absurd hstay hnext

/-- Nobody but the current process is ready. -/
def Sched.OthersIdle (s : Sched) : Prop :=
  ∀ i < s.processCount, i ≠ s.currentProcess → s.isReady i = false

/-- The search looks at every other process before it comes back to the current one. -/
theorem schedulerYieldImpl_stays_iff (esp : Word) (hcur : s.currentProcess < s.processCount) :
    (schedulerYieldImpl s esp).1.currentProcess = s.currentProcess ↔ s.OthersIdle := by
  constructor
  · intro hstay i hi hne
    have hlt : (s.currentProcess + 1) % s.processCount < s.processCount := Nat.mod_lt _ (by omega)
    -- the turn of the search at which slot `i` is looked at
    obtain ⟨j, hj, hij⟩ : ∃ j, j + 1 < s.processCount ∧
        i = ((s.currentProcess + 1) % s.processCount + j) % s.processCount := by
      rcases Nat.lt_or_gt_of_ne hne with h | h
      · refine ⟨i + s.processCount - s.currentProcess - 1, by omega, ?_⟩
        rw [round_succ, show s.currentProcess + (i + s.processCount - s.currentProcess - 1 + 1) =
          i + s.processCount by omega, Nat.add_mod_right, Nat.mod_eq_of_lt hi]
      · refine ⟨i - s.currentProcess - 1, by omega, ?_⟩
        rw [round_succ, show s.currentProcess + (i - s.currentProcess - 1 + 1) = i by omega,
          Nat.mod_eq_of_lt hi]
    rw [hij]
    cases hfind : findReady s s.processCount ((s.currentProcess + 1) % s.processCount) with
    | none => exact findReady_eq_none hlt hfind j (by omega)
    | some next =>
      obtain ⟨-, l, hl, hnext, hbefore⟩ := findReady_eq_some hlt hfind
      have hself : next = s.currentProcess := by
        by_contra hother
        simp [schedulerYieldImpl, show ¬ s.processCount ≤ 1 by omega, hfind, hother, switchTo,
          Sched.modify] at hstay
      rw [round_succ, hself] at hnext
      have hlast : l + 1 = s.processCount := by
        by_contra hearly
        rcases Nat.lt_or_ge (s.currentProcess + (l + 1)) s.processCount with h | h
        · rw [Nat.mod_eq_of_lt h] at hnext
          omega
        · rw [Nat.mod_eq_sub_mod h, Nat.mod_eq_of_lt (by omega)] at hnext
          omega
      exact hbefore j (by omega)
  · intro hidle
    rcases schedulerYieldImpl_cases s esp with heq | ⟨next, hnext, hne, p, hp, hready, -⟩
    · rw [heq]
    · have := hidle next hnext hne
      rw [isReady_iff.mpr ⟨p, hp, hready⟩] at this
      simp at this

theorem schedulerYield_eq : schedulerYield s esp = (schedulerYieldImpl s esp).1 := by
  unfold schedulerYield
  split
  · rename_i hone
    simp [schedulerYieldImpl, hone]
  · rfl

/-- How a switch changes the slots. -/
def switched (s : Sched) (next : Nat) (esp : Word) (i : Nat) (p : Process) : Process :=
  if i = s.currentProcess then
    if p.state = .running then { p with state := .ready, esp } else { p with esp }
  else if i = next then { p with state := .running }
  else p

theorem switchTo_remaps (hne : next ≠ s.currentProcess) :
    Remaps s (switchTo s next esp) (switched s next esp) where
  processes := by
    intro i _
    by_cases hi : i = s.currentProcess
    · subst hi
      cases hp : s.processes s.currentProcess <;>
        simp [switchTo, Sched.modify, switched, hne.symm, hp]
    · by_cases hn : i = next
      · subst hn
        cases hp : s.processes i <;> simp [switchTo, Sched.modify, switched, hi, hp]
      · cases hp : s.processes i <;> simp [switchTo, Sched.modify, switched, hi, hn, hp]
  count := rfl
  nextPid := rfl
  pid := by
    intro i p
    unfold switched
    split
    · split <;> rfl
    · split <;> rfl

theorem TableInv.switchTo (h : TableInv s w) (hnext : next < s.processCount)
    (hne : next ≠ s.currentProcess) (hp : s.processes next = some p) (hready : p.state = .ready) :
    TableInv (switchTo s next esp) w := by
  have hstate : ∀ i p, i ≠ next → p.state ≠ .running →
      (switched s next esp i p).state = p.state := by
    intro i p hi hst
    by_cases hcur : i = s.currentProcess <;> simp [switched, hi, hcur, hst]
  have hwait : ∀ i p, (switched s next esp i p).waitingForPid = p.waitingForPid := by
    intro i p
    unfold switched
    split
    · split <;> rfl
    · split <;> rfl
  refine h.remap (switchTo_remaps hne) hnext ?_ ?_ ?_
  · intro i hi q hq hst
    by_contra hin
    by_cases hrun : q.state = .running
    · obtain rfl := h.running i hi q hq hrun
      simp [switched, hrun] at hst
    · rw [hstate i q hin hrun] at hst
      exact hrun hst
  · intro i hi q hq hst
    rw [hwait]
    by_cases hin : i = next
    · subst hin
      obtain rfl : p = q := Option.some.inj (hp.symm.trans hq)
      exact h.unblocked i hi p hq (Or.inl hready)
    · by_cases hrun : q.state = .running
      · exact h.unblocked i hi q hq (Or.inr hrun)
      · rw [hstate i q hin hrun] at hst
        exact h.unblocked i hi q hq hst
  · intro i hi q hq hst
    have hblocked : q.state = .blocked := by
      by_cases hin : i = next
      · subst hin
        simp [switched, hne] at hst
      · by_cases hrun : q.state = .running
        · obtain rfl := h.running i hi q hq hrun
          simp [switched, hrun] at hst
        · rwa [hstate i q hin hrun] at hst
    obtain ⟨j, hj, hw, x, hx, hpid, halive⟩ := h.blocked i hi q hq hblocked
    refine ⟨j, hj, hw, x, hx, by rw [hwait, hpid], ?_⟩
    unfold switched
    split
    · split
      · simp
      · exact halive
    · split
      · simp
      · exact halive

theorem TableInv.yieldImpl (h : TableInv s w) : TableInv (schedulerYieldImpl s esp).1 w := by
  rcases schedulerYieldImpl_cases s esp with heq | ⟨next, hnext, hne, p, hp, hready, heq⟩
  · rwa [heq]
  · rw [heq]
    exact h.switchTo hnext hne hp hready

theorem TableInv.yield (h : TableInv s w) : TableInv (schedulerYield s esp) w := by
  rw [schedulerYield_eq]
  exact h.yieldImpl

end Yield

section Terminate

variable {code : Int}

/-- How the slots change when process `i` ends and those waiting for its pid wake up. -/
def ended (i pid : Nat) (code : Int) (j : Nat) (p : Process) : Process :=
  Process.wake pid (if j = i then { p with state := .terminated, exitCode := code } else p)

theorem Process.wake_pid : (Process.wake k p).pid = p.pid := by
  unfold Process.wake
  split <;> rfl

theorem Process.wake_running (h : (Process.wake k p).state = .running) : p.state = .running := by
  unfold Process.wake at h
  split at h
  · simp at h
  · exact h

theorem Process.wake_unblocked (hp : p.state = .ready ∨ p.state = .running → p.waitingForPid = 0)
    (h : (Process.wake k p).state = .ready ∨ (Process.wake k p).state = .running) :
    (Process.wake k p).waitingForPid = 0 := by
  unfold Process.wake at h ⊢
  split
  · rfl
  · rename_i hk
    rw [if_neg hk] at h
    exact hp h

theorem Process.wake_blocked (h : (Process.wake k p).state = .blocked) :
    Process.wake k p = p ∧ p.state = .blocked ∧ p.waitingForPid ≠ k := by
  unfold Process.wake at h ⊢
  split at h
  · simp at h
  · rename_i hk
    exact ⟨if_neg hk, h, fun hw => hk ⟨h, hw⟩⟩

theorem Process.wake_terminated (h : (Process.wake k p).state = .terminated) :
    p.state = .terminated := by
  unfold Process.wake at h
  split at h
  · simp at h
  · exact h

theorem ended_pid : (ended i pid code j p).pid = p.pid := by
  unfold ended
  rw [Process.wake_pid]
  split <;> rfl

/-- A process that ends leaves nobody waiting for it. -/
theorem TableInv.ended (h : TableInv s w) (hi : i < s.processCount)
    (hp : s.processes i = some p) (hr : Remaps s t (ended i p.pid code))
    (hcur : t.currentProcess = s.currentProcess) : TableInv t w := by
  refine h.remap hr (hcur ▸ h.current) ?_ ?_ ?_
  · intro j hj q hq hst
    have hrun := Process.wake_running hst
    split at hrun
    · simp at hrun
    · rw [hcur]
      exact h.running j hj q hq hrun
  · intro j hj q hq hst
    refine Process.wake_unblocked ?_ hst
    split
    · simp
    · exact h.unblocked j hj q hq
  · intro j hj q hq hst
    obtain ⟨heq, hblocked, hne⟩ := Process.wake_blocked hst
    have hji : j ≠ i := by
      rintro rfl
      simp at hblocked
    rw [if_neg hji] at hblocked hne heq
    obtain ⟨l, hl, hw, x, hx, hpid, halive⟩ := h.blocked j hj q hq hblocked
    refine ⟨l, hl, hw, x, hx, ?_, ?_⟩
    · rw [HumanOS.ended, if_neg hji, heq, hpid]
    · intro hterm
      have hli : l ≠ i := by
        rintro rfl
        obtain rfl : p = x := Option.some.inj (hp.symm.trans hx)
        exact hne hpid.symm
      have := Process.wake_terminated hterm
      rw [if_neg hli] at this
      exact halive this

theorem exitCurrent_remaps :
    Remaps s (exitCurrent s p code) (ended s.currentProcess p.pid code) where
  processes := by
    intro i hi
    by_cases hc : i = s.currentProcess
    · subst hc
      cases hp : s.processes s.currentProcess <;>
        simp [exitCurrent, Sched.wakeWaiters, Sched.modify, Sched.puts, ended, hi, hp]
    · cases hp : s.processes i <;>
        simp [exitCurrent, Sched.wakeWaiters, Sched.modify, Sched.puts, ended, hi, hc, hp]
  count := rfl
  nextPid := rfl
  pid := fun _ _ => ended_pid

theorem killSlot_remaps : Remaps s (killSlot s i pid) (ended i pid (-1)) where
  processes := by
    intro j hj
    by_cases hc : j = i
    · subst hc
      cases hp : s.processes j <;>
        simp [killSlot, Sched.wakeWaiters, Sched.modify, Sched.puts, ended, hj, hp]
    · cases hp : s.processes j <;>
        simp [killSlot, Sched.wakeWaiters, Sched.modify, Sched.puts, ended, hj, hc, hp]
  count := rfl
  nextPid := rfl
  pid := fun _ _ => ended_pid

theorem TableInv.processExit (h : TableInv s w) : TableInv (processExit s code esp) w := by
  obtain ⟨p, hp⟩ := h.present _ h.current
  have hcur : s.current = some p := hp
  simp only [HumanOS.processExit, hcur]
  exact (h.ended h.current hp exitCurrent_remaps rfl).yield

theorem findAlive_eq_some (h : findAlive s pid = some i) :
    i < s.processCount ∧ ∃ p, s.processes i = some p ∧ p.pid = pid ∧ p.state ≠ .terminated := by
  refine ⟨List.mem_range.mp (List.mem_of_find?_eq_some h), ?_⟩
  have hi := List.find?_some h
  cases hp : s.processes i with
  | none => simp [hp] at hi
  | some p => exact ⟨p, rfl, by simpa [hp] using hi⟩

theorem TableInv.processKill (h : TableInv s w) : TableInv (processKill s pid esp).1 w := by
  unfold HumanOS.processKill
  cases hfind : findAlive s pid with
  | none => exact h
  | some i =>
    obtain ⟨hi, p, hp, rfl, -⟩ := findAlive_eq_some hfind
    have hkilled : TableInv (killSlot s i p.pid) w := h.ended hi hp killSlot_remaps rfl
    dsimp only
    split
    · exact hkilled.yield
    · exact hkilled

theorem terminateAll_remaps : Remaps s (schedulerTerminateAll s) fun _ p =>
    if p.pid ≠ schedulerGetCurrentPid s then { p with state := .terminated } else p where
  processes := by
    intro i hi
    simp [schedulerTerminateAll, hi]
  count := rfl
  nextPid := rfl
  pid := by
    intro i p
    split <;> rfl

/-- `scheduler_terminate_all` wakes nobody; the one process left does not wait. -/
theorem TableInv.terminateAll (h : TableInv s w) (hfree : w s.currentProcess = none) :
    TableInv (schedulerTerminateAll s) w := by
  obtain ⟨c, hc⟩ := h.present _ h.current
  have hr := terminateAll_remaps (s := s)
  rw [h.currentPid hc] at hr
  refine h.remap hr h.current ?_ ?_ ?_
  · intro i hi p hp hst
    split at hst
    · simp at hst
    · exact h.running i hi p hp hst
  · intro i hi p hp hst
    split at hst
    · simp at hst
    · rw [if_neg (by assumption)]
      exact h.unblocked i hi p hp hst
  · intro i hi p hp hst
    split at hst
    · simp at hst
    · rename_i hsame
      obtain rfl := h.distinct i hi _ h.current p c hp hc (not_ne_iff.mp hsame)
      obtain ⟨j, -, hw, -⟩ := h.blocked _ hi p hp hst
      rw [hfree] at hw
      simp at hw

end Terminate

section Wait

theorem findPid_eq_some (h : findPid s pid = some i) :
    i < s.processCount ∧ ∃ p, s.processes i = some p ∧ p.pid = pid := by
  refine ⟨List.mem_range.mp (List.mem_of_find?_eq_some h), ?_⟩
  have hi := List.find?_some h
  cases hp : s.processes i with
  | none => simp [hp] at hi
  | some p => exact ⟨p, rfl, by simpa [hp] using hi⟩

/-- The current process blocks until `pid` ends. -/
def Sched.blockOn (s : Sched) (pid : Nat) : Sched :=
  s.modify s.currentProcess fun p => { p with state := .blocked, waitingForPid := pid }

theorem blockOn_remaps : Remaps s (s.blockOn pid) fun i p =>
    if i = s.currentProcess then { p with state := .blocked, waitingForPid := pid } else p where
  processes := by
    intro i _
    by_cases hi : i = s.currentProcess
    · subst hi
      cases hp : s.processes s.currentProcess <;> simp [Sched.blockOn, Sched.modify, hp]
    · cases hp : s.processes i <;> simp [Sched.blockOn, Sched.modify, hi, hp]
  count := rfl
  nextPid := rfl
  pid := by
    intro i p
    split <;> rfl

theorem TableInv.blockOn (h : TableInv s w) (hj : j < s.processCount)
    (hq : s.processes j = some q) (halive : q.state ≠ .terminated) :
    TableInv (s.blockOn q.pid) (Function.update w s.currentProcess (some j)) := by
  refine h.remap blockOn_remaps h.current ?_ ?_ ?_
  · intro i hi p hp hst
    split at hst
    · simp at hst
    · exact h.running i hi p hp hst
  · intro i hi p hp hst
    split at hst
    · simp at hst
    · rw [if_neg (by assumption)]
      exact h.unblocked i hi p hp hst
  · intro i hi p hp hst
    have hkeep : ∀ (l : Nat) (x : Process), x.state ≠ .terminated → (if l = s.currentProcess then
        { x with state := .blocked, waitingForPid := q.pid } else x).state ≠ .terminated := by
      intro l x hx
      split
      · simp
      · exact hx
    by_cases hc : i = s.currentProcess
    · subst hc
      exact ⟨j, hj, by simp, q, hq, by simp, hkeep j q halive⟩
    · rw [if_neg hc] at hst
      obtain ⟨l, hl, hw, x, hx, hpid, hlive⟩ := h.blocked i hi p hp hst
      exact ⟨l, hl, by simpa [hc] using hw, x, hx, by simpa [hc] using hpid, hkeep l x hlive⟩

/-- The slot the process is left waiting for. -/
def WaitOutcome.target : WaitOutcome → Option Nat
  | .returned _ => none
  | .waiting target => some target

/-- A process that finds its target terminated is not blocked: it was woken. -/
theorem TableInv.waitLoop (esp : Word) (h : TableInv s w) (hw : w s.currentProcess = some j) :
    TableInv (waitLoop s j esp).1
      (Function.update w s.currentProcess (waitLoop s j esp).2.target) := by
  have hleave : (∀ q, s.processes j = some q → q.state = .terminated) →
      TableInv s (Function.update w s.currentProcess none) := by
    intro hend
    refine { h with blocked := fun i hi p hp hst => ?_ }
    obtain ⟨l, hl, hwl, x, hx, hpid, halive⟩ := h.blocked i hi p hp hst
    have hi : i ≠ s.currentProcess := by
      rintro rfl
      obtain rfl : j = l := Option.some.inj (hw.symm.trans hwl)
      exact halive (hend x hx)
    exact ⟨l, hl, by simpa [hi] using hwl, x, hx, hpid, halive⟩
  unfold HumanOS.waitLoop
  cases hq : s.processes j with
  | none => exact hleave (by simp [hq])
  | some q =>
    dsimp only
    split
    · rw [show Function.update w s.currentProcess (WaitOutcome.waiting j).target = w by
        simp [WaitOutcome.target, ← hw]]
      exact h.yield
    · rename_i hterm
      refine hleave fun x hx => ?_
      obtain rfl : q = x := Option.some.inj (hq.symm.trans hx)
      exact not_ne_iff.mp hterm

/-- What `process_wait` can do: return at once, or block and enter its loop. -/
theorem processWait_cases (s : Sched) (pid : Nat) (esp : Word) :
    (∃ code, processWait s pid esp = (s, .returned code)) ∨
    ∃ j < s.processCount, ∃ q, s.processes j = some q ∧ q.pid = pid ∧ q.state ≠ .terminated ∧
      processWait s pid esp = waitLoop (s.blockOn pid) j esp := by
  unfold processWait
  cases hcur : s.current with
  | none => exact Or.inl ⟨_, rfl⟩
  | some c =>
    cases hfind : findPid s pid with
    | none => exact Or.inl ⟨_, rfl⟩
    | some j =>
      obtain ⟨hj, q, hq, hpid⟩ := findPid_eq_some hfind
      simp only [hq]
      split
      · exact Or.inl ⟨_, rfl⟩
      · exact Or.inr ⟨j, hj, q, hq, hpid, by assumption, rfl⟩

theorem TableInv.processWait (h : TableInv s w) (hfree : w s.currentProcess = none) :
    TableInv (processWait s pid esp).1
      (Function.update w s.currentProcess (processWait s pid esp).2.target) := by
  rcases processWait_cases s pid esp with ⟨code, heq⟩ | ⟨j, hj, q, hq, rfl, halive, heq⟩
  · rw [heq, show Function.update w s.currentProcess (WaitOutcome.returned code).target = w by
      simp [WaitOutcome.target, ← hfree]]
    exact h
  · rw [heq]
    have hcur : (s.blockOn q.pid).currentProcess = s.currentProcess := rfl
    have hloop := (h.blockOn hj hq halive).waitLoop (j := j) esp (by rw [hcur]; simp)
    simpa [hcur] using hloop

end Wait

section Add

variable {proc entry : Word} {name label : String} {color : Nat} {frame : Process → List Word}

/-- The process a successful call adds, before its stack is filled. -/
def newProcess (s : Sched) (proc entry : Word) (name : String) : Process :=
  ⟨proc, s.nextPid, .ready, 0, 0, 0, entry, copyName name⟩

/-- `t` is `s` with `p` appended and the words `ws` pushed on its kernel stack. -/
structure Added (s t : Sched) (p : Process) (ws : List Word) : Prop where
  processes : t.processes = Function.update s.processes s.processCount
    (some { p with esp := (pushes s.mem p.stackTop ws).2 })
  count : t.processCount = s.processCount + 1
  nextPid : t.nextPid = add32 s.nextPid 1
  current : t.currentProcess = s.currentProcess
  mem : t.mem = (pushes s.mem p.stackTop ws).1

/-- With a slot and memory a process is added. -/
theorem addProcess_added (entry : Word) (name : String) (frame : Process → List Word)
    (label : String) (color : Nat) (hroom : s.processCount < maxProcesses) (hproc : proc ≠ 0) :
    Added s (addProcess s proc entry name frame label color) (newProcess s proc entry name)
      (frame (newProcess s proc entry name)) := by
  simp only [addProcess, if_neg (show ¬ s.processCount ≥ maxProcesses by omega), if_neg hproc]
  exact ⟨rfl, rfl, rfl, rfl, rfl⟩

/-- What adding a process can do: print only, or append a ready process with the next pid. -/
theorem addProcess_cases (s : Sched) (proc entry : Word) (name : String)
    (frame : Process → List Word) (label : String) (color : Nat) :
    (∃ text, addProcess s proc entry name frame label color = s.puts text 0x1C) ∨
    s.processCount < maxProcesses ∧ proc ≠ 0 ∧
      Added s (addProcess s proc entry name frame label color) (newProcess s proc entry name)
        (frame (newProcess s proc entry name)) := by
  by_cases hfull : s.processCount ≥ maxProcesses
  · exact Or.inl ⟨_, if_pos hfull⟩
  · by_cases hnull : proc = 0
    · exact Or.inl ⟨_, (if_neg hfull).trans (if_pos hnull)⟩
    · exact Or.inr ⟨by omega, hnull, addProcess_added entry name frame label color (by omega) hnull⟩

theorem schedulerAddProcess_cases (wrapper : Word) (s : Sched) (proc entry : Word)
    (name : String) :
    (∃ text, schedulerAddProcess wrapper s proc entry name = s.puts text 0x1C) ∨
    s.processCount < maxProcesses ∧ proc ≠ 0 ∧
      Added s (schedulerAddProcess wrapper s proc entry name) (newProcess s proc entry name)
        (kernelFrame wrapper) :=
  addProcess_cases s proc entry name (fun _ => kernelFrame wrapper) _ _

theorem schedulerAddUserProcess_cases (s : Sched) (proc entry : Word) (name : String) :
    (∃ text, schedulerAddUserProcess s proc entry name = s.puts text 0x1C) ∨
    s.processCount < maxProcesses ∧ proc ≠ 0 ∧
      Added s (schedulerAddUserProcess s proc entry name) (newProcess s proc entry name)
        (userFrame (newProcess s proc entry name)) :=
  addProcess_cases s proc entry name userFrame _ _

theorem Added.old {p : Process} {ws : List Word} (ha : Added s t p ws) (hi : i < s.processCount) :
    t.processes i = s.processes i := by
  rw [ha.processes, Function.update_of_ne (Nat.ne_of_lt hi)]

theorem Added.new {ws : List Word} (ha : Added s t p ws) : t.processes s.processCount =
    some { p with esp := (pushes s.mem p.stackTop ws).2 } := by
  rw [ha.processes, Function.update_self]

theorem Added.lt_cases {ws : List Word} (ha : Added s t p ws) (hi : i < t.processCount) :
    i < s.processCount ∨ i = s.processCount := by
  rw [ha.count] at hi
  omega

theorem Added.present {ws : List Word} (ha : Added s t p ws)
    (h : ∀ i < s.processCount, ∃ p, s.processes i = some p) :
    ∀ i < t.processCount, ∃ p, t.processes i = some p := by
  intro i hi
  rcases ha.lt_cases hi with hlt | rfl
  · rw [ha.old hlt]
    exact h i hlt
  · exact ⟨_, ha.new⟩

/-- A process after the call is the new one or was there before. -/
theorem Added.slot {p q : Process} {ws : List Word} (ha : Added s t p ws)
    (hq : t.processes i = some q) :
    i = s.processCount ∧ q = { p with esp := (pushes s.mem p.stackTop ws).2 } ∨
      i ≠ s.processCount ∧ s.processes i = some q := by
  rw [ha.processes] at hq
  by_cases hi : i = s.processCount
  · subst hi
    rw [Function.update_self] at hq
    exact Or.inl ⟨rfl, (Option.some.inj hq).symm⟩
  · rw [Function.update_of_ne hi] at hq
    exact Or.inr ⟨hi, hq⟩

theorem TableInv.added {ws : List Word} (h : TableInv s w) (hroom : s.processCount < maxProcesses)
    (ha : Added s t (newProcess s proc entry name) ws) : TableInv t w := by
  have hnext : t.nextPid = s.nextPid + 1 := by
    have := h.nextPid
    rw [ha.nextPid, add32_of_lt]
    simp only [maxProcesses] at hroom
    omega
  have hpids := h.pids
  have hcur := h.current
  refine ⟨?_, ?_, ?_, ha.present h.present, ?_, ?_, ?_, ?_, ?_⟩ <;>
    simp only [ha.count, ha.current, hnext]
  · omega
  · omega
  · rw [h.nextPid]
  · intro i hi p hp
    rcases ha.slot hp with ⟨-, rfl⟩ | ⟨hne, hp⟩
    · have := h.nextPid
      simp only [newProcess]
      omega
    · have := h.pids i (by omega) p hp
      omega
  · intro i hi j hj p q hp hq hpid
    rcases ha.slot hp with ⟨rfl, rfl⟩ | ⟨hnei, hp⟩ <;>
      rcases ha.slot hq with ⟨rfl, rfl⟩ | ⟨hnej, hq⟩
    · rfl
    · have := h.pids j (by omega) q hq
      simp only [newProcess] at hpid
      omega
    · have := h.pids i (by omega) p hp
      simp only [newProcess] at hpid
      omega
    · exact h.distinct i (by omega) j (by omega) p q hp hq hpid
  · intro i hi p hp hst
    rcases ha.slot hp with ⟨-, rfl⟩ | ⟨hne, hp⟩
    · simp [newProcess] at hst
    · exact h.running i (by omega) p hp hst
  · intro i hi p hp hst
    rcases ha.slot hp with ⟨-, rfl⟩ | ⟨hne, hp⟩
    · rfl
    · exact h.unblocked i (by omega) p hp hst
  · intro i hi p hp hst
    rcases ha.slot hp with ⟨-, rfl⟩ | ⟨hne, hp⟩
    · simp [newProcess] at hst
    · obtain ⟨j, hj, hw, q, hq, hpid, halive⟩ := h.blocked i (by omega) p hp hst
      exact ⟨j, by omega, hw, q, by rw [ha.old hj, hq], hpid, halive⟩

theorem TableInv.addProcess (h : TableInv s w) :
    TableInv (addProcess s proc entry name frame label color) w := by
  rcases addProcess_cases s proc entry name frame label color with ⟨text, heq⟩ | ⟨hroom, -, ha⟩
  · rw [heq]
    exact h.puts
  · exact h.added hroom ha

/-- The process that `kernel_main` becomes. -/
def mainProcess (proc : Word) (name : String) : Process :=
  ⟨proc, 1, .running, 0, 0, 0, 0, copyName name⟩

/-- The state after `scheduler_init` and a conversion that got its memory. -/
theorem converted_eq (s : Sched) (name : String) (hproc : proc ≠ 0) :
    ∃ console, schedulerConvertCurrentProcess (schedulerInit s) proc name =
      { s with
        processes := Function.update (schedulerInit s).processes 0 (some (mainProcess proc name))
        currentProcess := 0
        processCount := 1
        nextPid := 2
        console } := by
  have hroom : ¬ (schedulerInit s).processCount ≥ maxProcesses := by
    simp [schedulerInit, Sched.puts, maxProcesses]
  simp only [schedulerConvertCurrentProcess, if_neg hroom, if_neg hproc]
  exact ⟨_, rfl⟩

theorem converted_inv (hproc : proc ≠ 0) :
    TableInv (schedulerConvertCurrentProcess (schedulerInit s) proc name) fun _ => none := by
  obtain ⟨console, heq⟩ := converted_eq s name hproc
  rw [heq]
  have hslot : ∀ i < 1, ∀ p, Function.update (schedulerInit s).processes 0
      (some (mainProcess proc name)) i = some p → i = 0 ∧ p = mainProcess proc name := by
    intro i hi p hp
    obtain rfl : i = 0 := by omega
    rw [Function.update_self] at hp
    exact ⟨rfl, (Option.some.inj hp).symm⟩
  refine ⟨Nat.one_pos, by simp [maxProcesses], rfl, ?_, ?_, ?_, ?_, ?_, ?_⟩
  · intro i hi
    obtain rfl : i = 0 := Nat.lt_one_iff.mp hi
    exact ⟨mainProcess proc name, Function.update_self 0 _ (schedulerInit s).processes⟩
  · intro i hi p hp
    obtain ⟨-, rfl⟩ := hslot i hi p hp
    exact ⟨Nat.le_refl 1, Nat.one_lt_two⟩
  · intro i hi j hj p q hp hq _
    exact (hslot i hi p hp).1.trans (hslot j hj q hq).1.symm
  · intro i hi p hp _
    exact (hslot i hi p hp).1
  · intro i hi p hp _
    obtain ⟨-, rfl⟩ := hslot i hi p hp
    rfl
  · intro i hi p hp hst
    obtain ⟨-, rfl⟩ := hslot i hi p hp
    simp [mainProcess] at hst

end Add

/-- What the current process can do in one step, with the address of the new `process_t` where
one is allocated and the stack pointer where the step can end in a switch. -/
inductive SchedOp where
  | addProcess (proc entry : Word) (name : String)
  | addUserProcess (proc entry : Word) (name : String)
  | yieldImpl (esp : Word)
  | exit (code : Int) (esp : Word)
  | kill (pid : Nat) (esp : Word)
  | wait (pid : Nat) (esp : Word)
  | recheck (esp : Word)
  | terminateAll

/-- The scheduler and, for each slot whose process is inside the loop of `process_wait`, the slot
it waits for. -/
structure SchedRun where
  sched : Sched
  waits : Nat → Option Nat

/-- Keep the outcome of a call of `process_wait` by the current process. -/
def SchedRun.afterWait (r : SchedRun) (out : Sched × WaitOutcome) : SchedRun :=
  ⟨out.1, Function.update r.waits r.sched.currentProcess out.2.target⟩

/-- One step. Inside the loop there is only the check of the target, and the timer. -/
inductive SchedStep (processWrapper : Word) : SchedRun → SchedOp → SchedRun → Prop
  | addProcess {r proc entry name} : r.waits r.sched.currentProcess = none →
      SchedStep processWrapper r (.addProcess proc entry name)
        { r with sched := schedulerAddProcess processWrapper r.sched proc entry name }
  | addUserProcess {r proc entry name} : r.waits r.sched.currentProcess = none →
      SchedStep processWrapper r (.addUserProcess proc entry name)
        { r with sched := schedulerAddUserProcess r.sched proc entry name }
  | yieldImpl {r esp} : SchedStep processWrapper r (.yieldImpl esp)
      { r with sched := (schedulerYieldImpl r.sched esp).1 }
  | exit {r code esp} : r.waits r.sched.currentProcess = none →
      SchedStep processWrapper r (.exit code esp)
        { r with sched := processExit r.sched code esp }
  | kill {r pid esp} : r.waits r.sched.currentProcess = none →
      SchedStep processWrapper r (.kill pid esp)
        { r with sched := (processKill r.sched pid esp).1 }
  | wait {r pid esp} : r.waits r.sched.currentProcess = none →
      SchedStep processWrapper r (.wait pid esp) (r.afterWait (processWait r.sched pid esp))
  | recheck {r target esp} : r.waits r.sched.currentProcess = some target →
      SchedStep processWrapper r (.recheck esp) (r.afterWait (waitLoop r.sched target esp))
  | terminateAll {r} : r.waits r.sched.currentProcess = none →
      SchedStep processWrapper r .terminateAll
        { r with sched := schedulerTerminateAll r.sched }

/-- The machine after `scheduler_init` and `scheduler_convert_current_process`. -/
def SchedRun.start (s : Sched) (proc : Word) (name : String) : SchedRun :=
  ⟨schedulerConvertCurrentProcess (schedulerInit s) proc name, fun _ => none⟩

variable {r r' : SchedRun} {op : SchedOp} {ops : List SchedOp} {proc : Word} {name : String}

theorem SchedStep.inv (hs : SchedStep wrapper r op r') (h : TableInv r.sched r.waits) :
    TableInv r'.sched r'.waits := by
  cases hs with
  | addProcess =>
    simp only [schedulerAddProcess]
    exact h.addProcess
  | addUserProcess =>
    simp only [schedulerAddUserProcess]
    exact h.addProcess
  | yieldImpl => exact h.yieldImpl
  | exit => exact h.processExit
  | kill => exact h.processKill
  | wait hfree => exact h.processWait hfree
  | recheck hw => exact h.waitLoop _ hw
  | terminateAll hfree => exact h.terminateAll hfree

theorem SchedStep.run_inv (hproc : proc ≠ 0)
    (hr : Run (SchedStep wrapper) (.start s proc name) ops r) : TableInv r.sched r.waits :=
  hr.invariant (fun r => TableInv r.sched r.waits) (fun _ _ _ hs h => hs.inv h)
    (converted_inv hproc)

/-- What the table promises to its readers. -/
structure ProcessTable (s : Sched) : Prop where
  current : s.currentProcess < s.processCount ∧ s.processCount ≤ maxProcesses
  slots : ∀ i < s.processCount, ∃ p, s.processes i = some p ∧ 1 ≤ p.pid ∧ p.pid < s.nextPid
  distinct : ∀ i < s.processCount, ∀ j < s.processCount, ∀ p q, s.processes i = some p →
    s.processes j = some q → p.pid = q.pid → i = j
  running : ∀ i < s.processCount, ∀ p, s.processes i = some p → p.state = .running →
    i = s.currentProcess
  unblocked : ∀ i < s.processCount, ∀ p, s.processes i = some p →
    p.state = .ready ∨ p.state = .running → p.waitingForPid = 0
  blocked : ∀ i < s.processCount, ∀ p, s.processes i = some p → p.state = .blocked →
    ∃ j < s.processCount, ∃ q, s.processes j = some q ∧ q.pid = p.waitingForPid ∧
      q.state ≠ .terminated

theorem TableInv.processTable (h : TableInv s w) : ProcessTable s where
  current := ⟨h.current, h.count⟩
  slots := by
    intro i hi
    obtain ⟨p, hp⟩ := h.present i hi
    exact ⟨p, hp, h.pids i hi p hp⟩
  distinct := h.distinct
  running := h.running
  unblocked := h.unblocked
  blocked := by
    intro i hi p hp hst
    obtain ⟨j, hj, -, hq⟩ := h.blocked i hi p hp hst
    exact ⟨j, hj, hq⟩

/-- The table keeps its promises whatever the current process does, step after step. -/
theorem process_table_invariant (hproc : proc ≠ 0)
    (hr : Run (SchedStep wrapper) (.start s proc name) ops r) : ProcessTable r.sched :=
  (SchedStep.run_inv hproc hr).processTable

/-- The scheduler before `scheduler_init`. -/
def Sched.powerOn : Sched := ⟨fun _ => none, 0, 0, 0, 0, fun _ => 0, []⟩

/-- `kernel_main` adds a process and waits for it; it exits and `kernel_main` runs again. -/
theorem process_table_invariant_wait_exit :
    ∃ r, Run (SchedStep 0x100000) (.start .powerOn 0x300000 "KernelMain")
        [.addProcess 0x302000 0x110000 "Shell", .wait 2 0x200000, .exit 0 0x303000] r ∧
      r.sched.currentProcess = 0 ∧ ProcessTable r.sched := by
  obtain ⟨r, hrun, hcur⟩ : ∃ r, Run (SchedStep 0x100000) (.start .powerOn 0x300000 "KernelMain")
      [.addProcess 0x302000 0x110000 "Shell", .wait 2 0x200000, .exit 0 0x303000] r ∧
      r.sched.currentProcess = 0 :=
    ⟨_, .stepL (.addProcess rfl) (.stepL (.wait rfl) (.single (.exit (by decide +kernel)))),
      by decide +kernel⟩
  exact ⟨r, hrun, hcur, process_table_invariant (by decide) hrun⟩

end HumanOS

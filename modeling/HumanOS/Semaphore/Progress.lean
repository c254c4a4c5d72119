import HumanOS.Semaphore.Safety

/-!
# Progress on a semaphore

The spinlock is not fair, so a single process can be kept out for good. But no unit and no lock is
ever lost: while there is a unit, calls return as long as every process gets to run, and waits
that can never return are all waiting for a signal that nobody has made.
-/
namespace HumanOS

open Lib

variable {ι : Type*} [DecidableEq ι]
variable {v : Int} {r r' : SemRun ι} {op : SemOp ι} {ops : List (SemOp ι)} {p q : ι} {k : SemPc}

/-- A taken lock has a holder, and a holder that retries has seen no unit. -/
structure SemOwned (r : SemRun ι) : Prop where
  holder : r.sem.locked ≠ 0 → ∃ p, (r.pc p).Holds
  retry : ∀ p, r.pc p = .retryUnlock → r.sem.count ≤ 0

theorem advance_pc (r : SemRun ι) (p : ι) :
    (r.advance p).pc = Function.update r.pc p (semNext r.sem (r.pc p)).2 := rfl

theorem advance_sem (r : SemRun ι) (p : ι) : (r.advance p).sem = (semNext r.sem (r.pc p)).1 := rfl

theorem advance_pc_self : (r.advance p).pc p = (semNext r.sem (r.pc p)).2 := by
  rw [advance_pc, Function.update_self]

theorem advance_pc_of_ne (hq : q ≠ p) : (r.advance p).pc q = r.pc q := by
  rw [advance_pc, Function.update_of_ne hq]

/-- Without the lock a statement changes nothing but the lock. -/
theorem semNext_count {s : Semaphore} (hk : ¬ k.Holds) : (semNext s k).1.count = s.count := by
  cases k <;> simp_all [semNext, testAndSet, SemPc.Holds]

/-- The lock after a statement: taken by a process that now holds it, or as before, or free. -/
theorem semNext_locked (s : Semaphore) (k : SemPc) :
    ((semNext s k).1.locked = s.locked ∧ (k.Holds → (semNext s k).2.Holds)) ∨
      (s.locked = 0 ∧ (semNext s k).2.Holds) ∨ (semNext s k).1.locked = 0 ∨
      (s.locked ≠ 0 ∧ ¬ k.Holds) := by
  cases k with
  | waitLock | signalLock =>
    by_cases hfree : s.locked = 0
    · exact Or.inr (Or.inl ⟨hfree, by simp [semNext, testAndSet, hfree, SemPc.Holds]⟩)
    · exact Or.inr (Or.inr (Or.inr ⟨hfree, by simp [SemPc.Holds]⟩))
  | waitTest =>
    refine Or.inl ⟨rfl, fun _ => ?_⟩
    simp only [semNext]
    split <;> trivial
  | outside | retryYield => exact Or.inl ⟨rfl, fun h => h.elim⟩
  | waitLoad | waitStore | signalLoad | signalStore => exact Or.inl ⟨rfl, fun _ => trivial⟩
  | waitUnlock | retryUnlock | signalUnlock => exact Or.inr (Or.inr (Or.inl rfl))

theorem SemOwned.next (h : SemOwned r) (hlock : LockInv SemPc.Holds (r.sem.locked ≠ 0) r.pc)
    (p : ι) : SemOwned (r.advance p) := by
  constructor
  · intro htaken
    rw [advance_sem] at htaken
    rcases semNext_locked r.sem (r.pc p) with ⟨heq, hkeep⟩ | ⟨-, hnow⟩ | hfree | ⟨hheld, hnot⟩
    · rw [heq] at htaken
      obtain ⟨q, hq⟩ := h.holder htaken
      refine ⟨q, ?_⟩
      by_cases hqp : q = p
      · subst hqp
        rw [advance_pc_self]
        exact hkeep hq
      · rwa [advance_pc_of_ne hqp]
    · exact ⟨p, by rwa [advance_pc_self]⟩
    · exact (htaken hfree).elim
    · obtain ⟨q, hq⟩ := h.holder hheld
      have hqp : q ≠ p := by
        rintro rfl
        exact hnot hq
      exact ⟨q, by rwa [advance_pc_of_ne hqp]⟩
  · intro q hq
    rw [advance_sem]
    by_cases hqp : q = p
    · subst hqp
      rw [advance_pc_self] at hq
      cases hpc : r.pc q with
      | waitTest =>
        simp only [hpc, semNext] at hq ⊢
        split at hq
        · exact absurd hq (by simp)
        · omega
      | waitLock | signalLock =>
        simp only [hpc, semNext] at hq
        split at hq <;> exact absurd hq (by simp)
      | _ => simp [hpc, semNext] at hq
    · rw [advance_pc_of_ne hqp] at hq
      have hnot : ¬ (r.pc p).Holds := fun hp =>
        hqp (hlock.exclusive q p (by rw [hq]; trivial) hp)
      rw [semNext_count hnot]
      exact h.retry q hq

/-- A process that enters a call. -/
theorem SemOwned.enter (h : SemOwned r) (hp : r.pc p = .outside) (hk : k ≠ .retryUnlock)
    {signals : Nat} {passes : ι → Nat} :
    SemOwned { r with pc := Function.update r.pc p k, signals, passes } := by
  constructor
  · intro htaken
    obtain ⟨q, hq⟩ := h.holder htaken
    have hqp : q ≠ p := by
      rintro rfl
      rw [hp] at hq
      exact hq
    exact ⟨q, by simpa [hqp] using hq⟩
  · intro q hq
    by_cases hqp : q = p
    · subst hqp
      exact (hk (by simpa using hq)).elim
    · exact h.retry q (by simpa [hqp] using hq)

/-- The lock has one holder at most, and one if it is taken: true of any value of `count`. -/
structure SemLocked (r : SemRun ι) : Prop extends SemOwned r where
  lock : LockInv SemPc.Holds (r.sem.locked ≠ 0) r.pc

theorem SemLocked.step (hs : SemStep r op r') (h : SemLocked r) : SemLocked r' := by
  cases hs with
  | wait hp => exact ⟨h.enter hp (by decide), h.lock.move fun hk => hk.elim⟩
  | signal hp => exact ⟨h.enter hp (by decide), h.lock.move fun hk => hk.elim⟩
  | @next p hp => exact ⟨h.next h.lock p, advance_lock h.lock p⟩

theorem SemLocked.run (hr : Run SemStep (.start v) ops r) : SemLocked r :=
  hr.invariant SemLocked (fun _ _ _ hs h => h.step hs)
    ⟨⟨fun htaken => (htaken rfl).elim, fun p hp => by simp [SemRun.start] at hp⟩,
      ⟨fun _ _ hp => hp.elim, fun _ _ hp => hp⟩⟩

theorem run_signals_le (hr : Run SemStep r ops r') : r.signals ≤ r'.signals := by
  induction hr with
  | refl => exact le_rfl
  | stepL hs _ ih => exact hs.signals_le.trans ih

section Fair

/-- A step with which no call returns. -/
def UnreturnedStep (r : SemRun ι) (op : SemOp ι) (r' : SemRun ι) : Prop :=
  SemStep r op r' ∧ ∀ p, r.pc p ≠ .outside → r'.pc p ≠ .outside

/-- The statements of a process. -/
def SemOp.isNext (p : ι) : SemOp ι → Bool
  | .next q => q = p
  | _ => false

/-- The most statements a process can have executed on its way here, without having found the
lock taken. -/
def SemPc.stage : SemPc → Nat
  | .outside | .retryYield => 0
  | .waitLock | .signalLock => 1
  | .waitTest | .signalLoad | .retryUnlock => 2
  | .waitLoad | .signalStore _ => 3
  | .waitStore _ | .signalUnlock => 4
  | .waitUnlock => 5

/-- Where a run without returns can be, after `n q` statements of each process `q`: one process
has the lock and a unit to get, or nobody has had the lock at all. -/
inductive Unreturned (r : SemRun ι) (n : ι → Nat) : Prop
  | held (p : ι) : (r.pc p).Holds → n p ≤ (r.pc p).stage → r.pc p ≠ .retryUnlock →
      (r.pc p = .waitTest → 0 < r.sem.count) → Unreturned r n
  | free : r.sem.locked = 0 → 0 < r.sem.count → (∀ q, n q ≤ (r.pc q).stage) → Unreturned r n

variable {n : ι → Nat}

omit [DecidableEq ι] in
theorem Unreturned.start (h : SemOwned r) (hcount : 0 < r.sem.count) :
    Unreturned r fun _ => 0 := by
  by_cases hfree : r.sem.locked = 0
  · exact .free hfree hcount fun q => Nat.zero_le _
  · obtain ⟨p, hp⟩ := h.holder hfree
    refine .held p hp (Nat.zero_le _) (fun hretry => ?_) fun _ => hcount
    have hle := h.retry p hretry
    omega

/-- The holder's own statement. -/
theorem Unreturned.held_next (hp : (r.pc p).Holds) (hn : n p ≤ (r.pc p).stage)
    (hretry : r.pc p ≠ .retryUnlock) (htest : r.pc p = .waitTest → 0 < r.sem.count)
    (hinside : (r.advance p).pc p ≠ .outside) {n' : ι → Nat} (hn' : n' p = n p + 1) :
    Unreturned (r.advance p) n' := by
  rw [advance_pc_self] at hinside
  have hpos : ∀ {k}, (r.advance p).pc p = k → k.Holds → n p + 1 ≤ k.stage → k ≠ .retryUnlock →
      k ≠ .waitTest → Unreturned (r.advance p) n' := by
    rintro k rfl hholds hstage hne hne'
    exact .held p hholds (hn' ▸ hstage) hne fun h => (hne' h).elim
  cases hpc : r.pc p with
  | waitTest =>
    have hcount := htest hpc
    rw [hpc] at hn
    refine hpos (k := .waitLoad) ?_ trivial (Nat.succ_le_succ hn) (by simp) (by simp)
    rw [advance_pc_self, hpc, semNext, if_pos hcount]
  | waitLoad | waitStore | signalLoad | signalStore =>
    have hpc' := advance_pc_self (r := r) (p := p)
    rw [hpc] at hn hpc'
    exact hpos hpc' trivial (Nat.succ_le_succ hn) (by simp [semNext]) (by simp [semNext])
  | waitUnlock | signalUnlock => simp [hpc, semNext] at hinside
  | retryUnlock => exact (hretry hpc).elim
  | outside | waitLock | signalLock | retryYield =>
    rw [hpc] at hp
    exact hp.elim

/-- A statement while nobody has the lock: a process takes it, or comes back to try. -/
theorem Unreturned.free_next (hlock : LockInv SemPc.Holds (r.sem.locked ≠ 0) r.pc)
    (hfree : r.sem.locked = 0) (hcount : 0 < r.sem.count) (hn : ∀ q, n q ≤ (r.pc q).stage)
    (hp : r.pc p ≠ .outside) {n' : ι → Nat} (hn' : n' p = n p + 1)
    (hother : ∀ q ≠ p, n' q = n q) : Unreturned (r.advance p) n' := by
  have hnot : ¬ (r.pc p).Holds := hlock.free (by simpa using hfree) p
  have hcount' : 0 < (r.advance p).sem.count := by
    rw [advance_sem, semNext_count hnot]
    exact hcount
  have hstage := hn p
  cases hpc : r.pc p with
  | waitLock | signalLock =>
    rw [hpc] at hstage
    have hpc' := advance_pc_self (r := r) (p := p)
    simp only [hpc, semNext, testAndSet, hfree, ne_eq, not_true_eq_false, if_false] at hpc'
    refine .held p ?_ ?_ ?_ fun _ => hcount'
    · rw [hpc']
      trivial
    · rw [hpc', hn']
      exact Nat.succ_le_succ hstage
    · simp [hpc']
  | retryYield =>
    rw [hpc] at hstage
    refine .free (by simpa [advance_sem, hpc, semNext] using hfree) hcount' fun q => ?_
    by_cases hq : q = p
    · subst hq
      rw [advance_pc_self, hpc, hn']
      exact Nat.succ_le_succ hstage
    · rw [advance_pc_of_ne hq, hother q hq]
      exact hn q
  | outside => exact (hp hpc).elim
  | _ =>
    rw [hpc] at hnot
    exact (hnot trivial).elim

/-- A step of a run without returns. -/
theorem Unreturned.step (hs : UnreturnedStep r op r') (hlock : SemLocked r) (h : Unreturned r n) :
    Unreturned r' fun q => n q + if op.isNext q then 1 else 0 := by
  obtain ⟨hs, hinside⟩ := hs
  cases hs with
  | @wait p hp | @signal p hp =>
    simp only [SemOp.isNext, Bool.false_eq_true, if_false, Nat.add_zero]
    cases h with
    | held q hq hstage hretry htest =>
      have hqp : q ≠ p := by
        rintro rfl
        rw [hp] at hq
        exact hq
      refine .held q ?_ ?_ ?_ ?_ <;> simpa [hqp]
    | free hfree hcount hn =>
      refine .free hfree hcount fun q => ?_
      have hstage := hn q
      by_cases hqp : q = p
      · subst hqp
        rw [hp] at hstage
        simp only [Function.update_self]
        exact hstage.trans (Nat.zero_le _)
      · simpa [hqp] using hstage
  | @next p hp =>
    have hself : (n p + if (SemOp.next p).isNext p then 1 else 0) = n p + 1 := by
      simp [SemOp.isNext]
    have hother : ∀ q ≠ p, (n q + if (SemOp.next p).isNext q then 1 else 0) = n q := by
      intro q hq
      simp [SemOp.isNext, hq.symm]
    cases h with
    | held q hq hstage hretry htest =>
      by_cases hqp : q = p
      · subst hqp
        exact .held_next hq hstage hretry htest (hinside q hp) hself
      · have hnot : ¬ (r.pc p).Holds := fun hp' => hqp (hlock.lock.exclusive q p hq hp')
        have hcount : (r.advance p).sem.count = r.sem.count := by
          rw [advance_sem, semNext_count hnot]
        have hpc : (r.advance p).pc q = r.pc q := advance_pc_of_ne hqp
        refine .held q (hpc ▸ hq) ?_ (hpc ▸ hretry) ?_
        · rw [hother q hqp, hpc]
          exact hstage
        · rw [hpc, hcount]
          exact htest
    | free hfree hcount hn => exact .free_next hlock.lock hfree hcount hn hp hself hother

/-- The statements along a whole run. -/
theorem Unreturned.run (hr : Run UnreturnedStep r ops r') (hlock : SemLocked r)
    (h : Unreturned r n) :
    Unreturned r' fun q => n q + ops.countP (SemOp.isNext q) := by
  induction hr generalizing n with
  | refl => simpa using h
  | @stepL r t r' op ops hs hr ih =>
    have hrest := ih (hlock.step hs.1) (h.step hs hlock)
    refine (funext fun q => ?_ : _ = fun q => _) ▸ hrest
    rw [List.countP_cons, Nat.add_assoc, Nat.add_comm (ops.countP _)]

/-- While there is a unit, no call returns only if some process in a call has hardly run: with six
statements of each of them, one of the calls has returned. -/
theorem semaphore_progress {first : List (SemOp ι)} (hreach : Run SemStep (.start v) first r)
    (hcount : 0 < r.sem.count) (hr : Run UnreturnedStep r ops r') (hbusy : r'.pc p ≠ .outside) :
    ∃ q, r'.pc q ≠ .outside ∧ ops.countP (SemOp.isNext q) < 6 := by
  have hlock := SemLocked.run hreach
  have hstages : ∀ k : SemPc, k.stage < 6 := by
    intro k
    cases k <;> simp [SemPc.stage]
  cases Unreturned.run hr hlock (.start hlock.toSemOwned hcount) with
  | held q hq hstage hretry htest =>
    refine ⟨q, fun hout => ?_, ?_⟩
    · rw [hout] at hq
      exact hq
    · have hlt := hstages (r'.pc q)
      omega
  | free hfree hcount' hn =>
    have hlt := hstages (r'.pc p)
    have hstage := hn p
    exact ⟨p, hbusy, by omega⟩

/-- One process has tried the lock five times, the one that holds it has not run since. -/
theorem semaphore_progress_two_processes : ∃ r r' : SemRun Bool,
    Run SemStep (.start 1) [.wait true, .wait false, .next true] r ∧
      Run UnreturnedStep r (List.replicate 5 (.next false)) r' ∧
      ∃ q, r'.pc q ≠ .outside ∧ (List.replicate 5 (.next false)).countP (SemOp.isNext q) < 6 := by
  have hwait : ∀ {r : SemRun Bool} {p}, r.pc p = .outside →
      SemStep r (.wait p) { r with pc := Function.update r.pc p .waitLock } := .wait
  have hnext : ∀ {r : SemRun Bool} {p}, r.pc p ≠ .outside → SemStep r (.next p) (r.advance p) :=
    .next
  have hspin : ∀ {r : SemRun Bool}, r.pc false ≠ .outside →
      (∀ p, r.pc p ≠ .outside → (r.advance false).pc p ≠ .outside) →
      UnreturnedStep r (.next false) (r.advance false) := fun h h' => ⟨.next h, h'⟩
  obtain ⟨r, hr, hrun⟩ : ∃ r : SemRun Bool,
      Run SemStep (.start 1) [.wait true, .wait false, .next true] r ∧ 0 < r.sem.count ∧
        ∃ r', Run UnreturnedStep r (List.replicate 5 (.next false)) r' ∧
          r'.pc false ≠ .outside :=
    ⟨_, .stepL (hwait rfl) (.stepL (hwait (by decide)) (.single (hnext (by decide)))), by decide, _,
      .stepL (hspin (by decide) (by decide)) (.stepL (hspin (by decide) (by decide))
        (.stepL (hspin (by decide) (by decide)) (.stepL (hspin (by decide) (by decide))
          (.single (hspin (by decide) (by decide)))))), by decide⟩
  obtain ⟨hcount, r', hr', hbusy⟩ := hrun
  exact ⟨r, r', hr, hr', semaphore_progress (v := 1) hr hcount hr' hbusy⟩

end Fair

section Stuck

/-- In `sem_wait`. -/
def SemPc.InWait : SemPc → Prop
  | .waitLock | .waitTest | .waitLoad | .waitStore _ | .waitUnlock | .retryUnlock => True
  | .retryYield => True
  | _ => False

/-- A call of `sem_signal`. -/
def SemOp.isSignal : SemOp ι → Bool
  | .signal _ => true
  | _ => false

/-- A step that is no new signal. -/
def SignallessStep (r : SemRun ι) (op : SemOp ι) (r' : SemRun ι) : Prop :=
  SemStep r op r' ∧ op.isSignal = false

/-- There is no unit, none on its way, and nobody has taken one without having returned. -/
structure Stuck (r : SemRun ι) : Prop where
  count : r.sem.count = 0
  signal : ∀ p, (r.pc p).toSignal = 0
  taken : ∀ p, r.pc p ≠ .waitUnlock

/-- A statement of a process that finds no unit. -/
theorem semNext_stuck {s : Semaphore} (hcount : s.count = 0) (hknow : k.Knows s.count)
    (hsignal : k.toSignal = 0) (htaken : k ≠ .waitUnlock) :
    (semNext s k).1.count = 0 ∧ (semNext s k).2.toSignal = 0 ∧
      (semNext s k).2 ≠ .waitUnlock := by
  rw [hcount] at hknow
  cases k with
  | waitUnlock => exact (htaken rfl).elim
  | waitLoad => exact absurd hknow (lt_irrefl 0)
  | waitStore x => exact absurd hknow.2 (lt_irrefl 0)
  | signalLock | signalLoad | signalStore => exact absurd hsignal Nat.one_ne_zero
  | waitLock =>
    refine ⟨hcount, ?_⟩
    simp only [semNext]
    split <;> exact ⟨rfl, by simp⟩
  | waitTest =>
    simp only [semNext, hcount, gt_iff_lt, lt_irrefl, if_false]
    exact ⟨trivial, rfl, by simp⟩
  | outside | retryUnlock | retryYield | signalUnlock => exact ⟨hcount, rfl, by simp [semNext]⟩

/-- No step but a signal changes anything about it. -/
theorem Stuck.step (hs : SignallessStep r op r') (hinv : SemInv v r) (h : Stuck r) :
    Stuck r' ∧ r'.passes = r.passes := by
  obtain ⟨hs, hop⟩ := hs
  have hupdate : ∀ {p k} {sem : Semaphore} {r' : SemRun ι}, sem.count = 0 → k.toSignal = 0 →
      k ≠ .waitUnlock → r'.sem = sem → r'.pc = Function.update r.pc p k → Stuck r' := by
    intro p k sem r' hcount hsignal htaken hsem hpc
    refine ⟨hsem ▸ hcount, fun q => ?_, fun q => ?_⟩ <;> rw [hpc] <;> by_cases hq : q = p
    · subst hq
      simpa using hsignal
    · simpa [hq] using h.signal q
    · subst hq
      simpa using htaken
    · simpa [hq] using h.taken q
  cases hs with
  | wait hp => exact ⟨hupdate h.count (k := .waitLock) rfl (by decide) rfl rfl, rfl⟩
  | signal => simp [SemOp.isSignal] at hop
  | @next p hp =>
    obtain ⟨hcount, hsignal, htaken⟩ :=
      semNext_stuck h.count (hinv.knows p) (h.signal p) (h.taken p)
    refine ⟨hupdate hcount hsignal htaken rfl rfl, ?_⟩
    have hnot := h.taken p
    cases hpc : r.pc p with
    | waitUnlock => exact (hnot hpc).elim
    | _ => simp [SemRun.advance, hpc]

theorem Stuck.run (hr : Run SignallessStep r ops r') (hbound : v + r'.signals < 2 ^ 31)
    (hinv : SemInv v r) (h : Stuck r) : r'.passes = r.passes := by
  induction hr with
  | refl => rfl
  | stepL hs hr ih =>
    have hle := run_signals_le (hr.mono fun _ _ _ hs => hs.1)
    obtain ⟨hnext, hpasses⟩ := h.step hs hinv
    rw [ih hbound (hs.1.inv (by omega) hinv) hnext, hpasses]

/-- Nobody gets into `sem_wait` by a statement. -/
theorem semNext_inWait {s : Semaphore} (h : (semNext s k).2.InWait) : k.InWait := by
  cases k with
  | signalLock =>
    simp only [semNext] at h
    split at h <;> exact h.elim
  | outside | signalLoad | signalStore | signalUnlock => exact h.elim
  | _ => trivial

/-- A wait that has been called can return within `n` statements. -/
def PassWithin (n : Nat) (r : SemRun ι) : Prop :=
  ∃ ops r' q, ops.length ≤ n ∧ Run SignallessStep r ops r' ∧ (r.pc q).InWait ∧
    r.passes q < r'.passes q

theorem advance_passes_le (r : SemRun ι) (p q : ι) : r.passes q ≤ (r.advance p).passes q := by
  cases hpc : r.pc p with
  | waitUnlock =>
    simp only [SemRun.advance, hpc]
    by_cases hq : q = p
    · subst hq
      simp
    · simp [hq]
  | _ => simp [SemRun.advance, hpc]

/-- A statement of one of the processes first. -/
theorem PassWithin.after {n : Nat} (p : ι) (hp : r.pc p ≠ .outside)
    (h : PassWithin n (r.advance p)) : PassWithin (n + 1) r := by
  obtain ⟨ops, r', q, hlen, hr, hw, hpass⟩ := h
  refine ⟨.next p :: ops, r', q, Nat.succ_le_succ hlen, .stepL ⟨.next hp, rfl⟩ hr, ?_,
    (advance_passes_le r p q).trans_lt hpass⟩
  by_cases hqp : q = p
  · subst hqp
    rw [advance_pc_self] at hw
    exact semNext_inWait hw
  · rwa [advance_pc_of_ne hqp] at hw

theorem PassWithin.mono {m n : Nat} (h : PassWithin m r) (hle : m ≤ n) : PassWithin n r := by
  obtain ⟨ops, r', q, hlen, hr, hw, hpass⟩ := h
  exact ⟨ops, r', q, hlen.trans hle, hr, hw, hpass⟩

section Solo

theorem pass_unlock (hp : r.pc p = .waitUnlock) : PassWithin 1 r := by
  refine ⟨[.next p], r.advance p, p, le_rfl, .single ⟨.next (by simp [hp]), rfl⟩, ?_, ?_⟩
  · rw [hp]
    trivial
  · simp [SemRun.advance, hp]

theorem pass_store {x : Int} (hp : r.pc p = .waitStore x) : PassWithin 2 r :=
  .after p (by simp [hp]) (pass_unlock (advance_pc_self.trans (by rw [hp, semNext])))

theorem pass_load (hp : r.pc p = .waitLoad) : PassWithin 3 r :=
  .after p (by simp [hp]) (pass_store (advance_pc_self.trans (by rw [hp, semNext])))

theorem pass_test (hp : r.pc p = .waitTest) (hcount : 0 < r.sem.count) : PassWithin 4 r :=
  .after p (by simp [hp]) (pass_load (advance_pc_self.trans (by rw [hp, semNext, if_pos hcount])))

theorem pass_lock (hp : r.pc p = .waitLock) (hfree : r.sem.locked = 0)
    (hcount : 0 < r.sem.count) : PassWithin 5 r := by
  refine .after p (by simp [hp]) (pass_test (p := p) ?_ ?_)
  · simp [advance_pc_self, hp, semNext, testAndSet, hfree]
  · simpa [advance_sem, hp, semNext, testAndSet] using hcount

end Solo

/-- The lock is free and there is a unit. -/
theorem pass_free (hlock : LockInv SemPc.Holds (r.sem.locked ≠ 0) r.pc)
    (hfree : r.sem.locked = 0) (hcount : 0 < r.sem.count) (hw : (r.pc p).InWait) :
    PassWithin 6 r := by
  have hnot : ¬ (r.pc p).Holds := hlock.free (by simpa using hfree) p
  cases hpc : r.pc p with
  | waitLock => exact (pass_lock hpc hfree hcount).mono (by decide)
  | retryYield =>
    refine .after p (by simp [hpc]) (pass_lock (p := p) ?_ ?_ ?_)
    · simp [advance_pc_self, hpc, semNext]
    · simpa [advance_sem, hpc, semNext] using hfree
    · simpa [advance_sem, hpc, semNext] using hcount
  | outside | signalLock =>
    rw [hpc] at hw
    exact hw.elim
  | _ =>
    rw [hpc] at hnot
    exact (hnot trivial).elim

/-- A statement of another process first. -/
theorem PassWithin.after_other {n : Nat} (hinv : SemInv v r) (hbound : v + r.signals < 2 ^ 31)
    (hq : ¬ (r.pc q).InWait) (hin : r.pc q ≠ .outside) (hw : (r.pc p).InWait)
    (h : SemInv v (r.advance q) → ((r.advance q).pc p).InWait → PassWithin n (r.advance q)) :
    PassWithin (n + 1) r := by
  have hne : p ≠ q := by
    rintro rfl
    exact hq hw
  exact .after q hin (h (hinv.next hbound hin) (by rwa [advance_pc_of_ne hne]))

/-- The lock is given back, and then there is a unit. -/
theorem pass_signalUnlock (hinv : SemInv v r) (hbound : v + r.signals < 2 ^ 31)
    (hq : r.pc q = .signalUnlock) (hcount : 0 < r.sem.count) (hw : (r.pc p).InWait) :
    PassWithin 7 r := by
  refine .after_other (q := q) hinv hbound ?_ ?_ hw fun hinv' hw' => pass_free hinv'.lock ?_ ?_ hw'
  · simp [hq, SemPc.InWait]
  · simp [hq]
  · simp [advance_sem, hq, semNext, spinlockUnlock]
  · simpa [advance_sem, hq, semNext, spinlockUnlock] using hcount

theorem pass_signalStore {x : Int} (hinv : SemInv v r) (hbound : v + r.signals < 2 ^ 31)
    (hq : r.pc q = .signalStore x) (hw : (r.pc p).InWait) : PassWithin 8 r := by
  have hknow := hinv.knows q
  rw [hq] at hknow
  obtain rfl : x = r.sem.count := hknow
  obtain ⟨n, htotal, hsum⟩ := hinv.signals
  have hone := htotal.le q
  simp only [hq, SemPc.toSignal] at hone
  have hnonneg := hinv.nonneg
  have haccount := hinv.account
  refine .after_other (q := q) hinv hbound ?_ ?_ hw fun hinv' hw' =>
    pass_signalUnlock (q := q) hinv' hbound ?_ ?_ hw'
  · simp [hq, SemPc.InWait]
  · simp [hq]
  · rw [advance_pc_self, hq, semNext]
  · simp only [advance_sem, hq, semNext]
    rw [storeInt_eq (by omega) (by omega)]
    omega

theorem pass_signalLoad (hinv : SemInv v r) (hbound : v + r.signals < 2 ^ 31)
    (hq : r.pc q = .signalLoad) (hw : (r.pc p).InWait) : PassWithin 9 r := by
  refine .after_other (q := q) hinv hbound ?_ ?_ hw fun hinv' hw' =>
    pass_signalStore (q := q) (x := r.sem.count) hinv' hbound ?_ hw'
  · simp [hq, SemPc.InWait]
  · simp [hq]
  · rw [advance_pc_self, hq, semNext]

/-- The lock is free, and there is a unit or a signal on its way. -/
theorem pass_unlocked (hinv : SemInv v r) (hbound : v + r.signals < 2 ^ 31)
    (hfree : r.sem.locked = 0) (hw : (r.pc p).InWait)
    (hunit : 0 < r.sem.count ∨ ∃ q, (r.pc q).toSignal ≠ 0) : PassWithin 10 r := by
  rcases hunit with hcount | ⟨q, hq⟩
  · exact (pass_free hinv.lock hfree hcount hw).mono (by decide)
  · have hnot : ¬ (r.pc q).Holds := hinv.lock.free (by simpa using hfree) q
    cases hpc : r.pc q with
    | signalLock =>
      refine .after_other (q := q) hinv hbound ?_ ?_ hw fun hinv' hw' =>
        pass_signalLoad (q := q) hinv' hbound ?_ hw'
      · simp [hpc, SemPc.InWait]
      · simp [hpc]
      · simp [advance_pc_self, hpc, semNext, testAndSet, hfree]
    | signalLoad | signalStore =>
      rw [hpc] at hnot
      exact (hnot trivial).elim
    | _ => simp [hpc, SemPc.toSignal] at hq

/-- A holder that found no unit gives the lock back first. -/
theorem pass_retry (hinv : SemInv v r) (hbound : v + r.signals < 2 ^ 31)
    (hq : r.pc q = .retryUnlock) (hw : (r.pc p).InWait)
    (hsignal : ∃ i, (r.pc i).toSignal ≠ 0) : PassWithin 11 r := by
  have hin : r.pc q ≠ .outside := by simp [hq]
  refine .after q hin (pass_unlocked (p := p) (hinv.next hbound hin) hbound ?_ ?_ (.inr ?_))
  · simp [advance_sem, hq, semNext, spinlockUnlock]
  · by_cases hpq : p = q
    · subst hpq
      rw [advance_pc_self, hq]
      trivial
    · rwa [advance_pc_of_ne hpq]
  · obtain ⟨i, hi⟩ := hsignal
    have hiq : i ≠ q := by
      rintro rfl
      simp [hq, SemPc.toSignal] at hi
    exact ⟨i, by rwa [advance_pc_of_ne hiq]⟩

/-- Where waits are not stuck, the one who has the lock, if there is one, either gets past
`sem_wait` itself or leaves the lock to others who do. -/
theorem pass_of_not_stuck (hinv : SemInv v r) (howned : SemOwned r)
    (hbound : v + r.signals < 2 ^ 31) (hw : (r.pc p).InWait) (h : ¬ Stuck r) :
    PassWithin 12 r := by
  have hunit : 0 < r.sem.count ∨ (∃ q, (r.pc q).toSignal ≠ 0) ∨ ∃ q, r.pc q = .waitUnlock := by
    by_contra hnone
    push Not at hnone
    exact h ⟨le_antisymm hnone.1 hinv.nonneg, hnone.2.1, hnone.2.2⟩
  by_cases hfree : r.sem.locked = 0
  · have hnot := hinv.lock.free (by simpa using hfree)
    refine (pass_unlocked hinv hbound hfree hw ?_).mono (by decide)
    rcases hunit with hcount | hsignal | ⟨q, hq⟩
    · exact .inl hcount
    · exact .inr hsignal
    · exact (hnot q (by rw [hq]; trivial)).elim
  · obtain ⟨q, hq⟩ := howned.holder hfree
    -- nobody but the holder can be at its last statement
    have hsignal : r.pc q ≠ .waitUnlock → ¬ 0 < r.sem.count → ∃ i, (r.pc i).toSignal ≠ 0 := by
      intro hne hcount
      rcases hunit with hcount' | hsignal | ⟨i, hi⟩
      · exact (hcount hcount').elim
      · exact hsignal
      · have hiq := hinv.lock.exclusive i q (by rw [hi]; trivial) hq
        exact (hne (hiq ▸ hi)).elim
    cases hpc : r.pc q with
    | waitTest =>
      by_cases hcount : 0 < r.sem.count
      · exact (pass_test hpc hcount).mono (by decide)
      · have hin : r.pc q ≠ .outside := by simp [hpc]
        have hpc' : (r.advance q).pc q = .retryUnlock := by
          rw [advance_pc_self, hpc, semNext, if_neg hcount]
        obtain ⟨i, hi⟩ := hsignal (by simp [hpc]) hcount
        have hiq : i ≠ q := by
          rintro rfl
          simp [hpc, SemPc.toSignal] at hi
        refine .after q hin (pass_retry (p := p) (hinv.next hbound hin) hbound hpc' ?_ ⟨i, ?_⟩)
        · by_cases hpq : p = q
          · subst hpq
            rw [hpc']
            trivial
          · rwa [advance_pc_of_ne hpq]
        · rwa [advance_pc_of_ne hiq]
    | waitLoad => exact (pass_load hpc).mono (by decide)
    | waitStore x => exact (pass_store hpc).mono (by decide)
    | waitUnlock => exact (pass_unlock hpc).mono (by decide)
    | retryUnlock =>
      have hle := howned.retry q hpc
      exact (pass_retry hinv hbound hpc hw (hsignal (by simp [hpc]) (by omega))).mono (by decide)
    | signalLoad => exact (pass_signalLoad hinv hbound hpc hw).mono (by decide)
    | signalStore x => exact (pass_signalStore hinv hbound hpc hw).mono (by decide)
    | signalUnlock =>
      by_cases hcount : 0 < r.sem.count
      · exact (pass_signalUnlock hinv hbound hpc hcount hw).mono (by decide)
      · obtain ⟨i, hi⟩ := hsignal (by simp [hpc]) hcount
        have hiq : i ≠ q := by
          rintro rfl
          simp [hpc, SemPc.toSignal] at hi
        refine (PassWithin.after_other (q := q) (n := 10) hinv hbound ?_ ?_ hw fun hinv' hw' =>
          pass_unlocked hinv' hbound ?_ hw' (.inr ⟨i, ?_⟩)).mono (by decide)
        · simp [hpc, SemPc.InWait]
        · simp [hpc]
        · simp [advance_sem, hpc, semNext, spinlockUnlock]
        · rwa [advance_pc_of_ne hiq]
    | outside | waitLock | signalLock | retryYield =>
      rw [hpc] at hq
      exact hq.elim

theorem signalless_signals (hr : Run SignallessStep r ops r') : r'.signals = r.signals := by
  induction hr with
  | refl => rfl
  | stepL hs _ ih =>
    obtain ⟨hs, hop⟩ := hs
    rw [ih]
    cases hs with
    | signal => simp [SemOp.isSignal] at hop
    | _ => rfl

/-- In every reachable state with a process in `sem_wait`: with no unit left, no signal on its way
and no unit just taken, no wait returns before somebody calls `sem_signal`; in every other state
one of the waits called can return within twelve statements, without a further signal. -/
theorem waits_stuck_iff (hv : 0 ≤ v) {first : List (SemOp ι)}
    (hreach : Run SemStep (.start v) first r) (hbound : v + r.signals < 2 ^ 31)
    (hw : (r.pc p).InWait) :
    (Stuck r → ∀ ops r', Run SignallessStep r ops r' → r'.passes = r.passes) ∧
      (¬ Stuck r → ∃ ops r' q, ops.length ≤ 12 ∧ Run SignallessStep r ops r' ∧
        (r.pc q).InWait ∧ r.passes q < r'.passes q) := by
  have hinv := SemInv.run hv hreach hbound
  have howned := (SemLocked.run hreach).toSemOwned
  refine ⟨fun h ops r' hr => ?_, pass_of_not_stuck hinv howned hbound hw⟩
  exact h.run hr (by rwa [signalless_signals hr]) hinv

/-- A process waits for a unit that nobody gives, or that another one is about to give. -/
theorem waits_stuck_iff_signal_made :
    (∃ r : SemRun Bool, Run SemStep (.start 0) [.wait true] r ∧
      ∀ ops r', Run SignallessStep r ops r' → r'.passes = r.passes) ∧
    ∃ r : SemRun Bool, Run SemStep (.start 0) [.wait true, .signal false] r ∧
      ∃ ops r' q, ops.length ≤ 12 ∧ Run SignallessStep r ops r' ∧ (r.pc q).InWait ∧
        r.passes q < r'.passes q := by
  have hwait : ∀ {r : SemRun Bool} {p}, r.pc p = .outside →
      SemStep r (.wait p) { r with pc := Function.update r.pc p .waitLock } := .wait
  have hsignal : ∀ {r : SemRun Bool} {p}, r.pc p = .outside → SemStep r (.signal p) _ := .signal
  constructor
  · obtain ⟨r, hr, hstuck, hpc, hsignals⟩ : ∃ r : SemRun Bool,
        Run SemStep (.start 0) [.wait true] r ∧ Stuck r ∧ r.pc true = .waitLock ∧ r.signals = 0 :=
      ⟨_, .single (hwait rfl), ⟨rfl, by decide, by decide⟩, by decide, rfl⟩
    have hboth := waits_stuck_iff (v := 0) (p := true) le_rfl hr (by rw [hsignals]; decide)
      (by rw [hpc]; trivial)
    exact ⟨r, hr, hboth.1 hstuck⟩
  · obtain ⟨r, hr, hpc, hpending, hsignals⟩ : ∃ r : SemRun Bool,
        Run SemStep (.start 0) [.wait true, .signal false] r ∧ r.pc true = .waitLock ∧
          (r.pc false).toSignal = 1 ∧ r.signals = 1 :=
      ⟨_, .stepL (hwait rfl) (.single (hsignal (by decide))), by decide, by decide, by decide⟩
    have hboth := waits_stuck_iff (v := 0) (p := true) le_rfl hr (by rw [hsignals]; decide)
      (by rw [hpc]; trivial)
    refine ⟨r, hr, hboth.2 fun hstuck => ?_⟩
    have hzero := hstuck.signal false
    omega

end Stuck

end HumanOS

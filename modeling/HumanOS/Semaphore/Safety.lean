import HumanOS.Lib.Lock
import HumanOS.Lib.Run
import HumanOS.Lib.Total
import HumanOS.Semaphore.Model

/-!
# Semaphores under every interleaving

Any number of processes, each at its own statement of `sem_wait` or `sem_signal`; a step is one
statement of one of them. What has been counted so far is kept beside the semaphore.
-/
namespace HumanOS

open Lib

variable {ι : Type*} [DecidableEq ι]

/-- The semaphore, where each process stands, the stores to `count` so far in each direction, the
calls of `sem_signal`, and for each process the waits that have returned and that it has not
answered by a signal. -/
structure SemRun (ι : Type*) where
  sem : Semaphore
  pc : ι → SemPc
  increments : Nat
  decrements : Nat
  signals : Nat
  passes : ι → Nat

inductive SemOp (ι : Type*) where
  | wait (p : ι)
  | signal (p : ι)
  | next (p : ι)

/-- Process `p` executes its statement. -/
def SemRun.advance (r : SemRun ι) (p : ι) : SemRun ι where
  sem := (semNext r.sem (r.pc p)).1
  pc := Function.update r.pc p (semNext r.sem (r.pc p)).2
  increments := match r.pc p with
    | .signalStore _ => r.increments + 1
    | _ => r.increments
  decrements := match r.pc p with
    | .waitStore _ => r.decrements + 1
    | _ => r.decrements
  signals := r.signals
  passes := match r.pc p with
    | .waitUnlock => Function.update r.passes p (r.passes p + 1)
    | _ => r.passes

inductive SemStep : SemRun ι → SemOp ι → SemRun ι → Prop
  | wait {r : SemRun ι} {p : ι} : r.pc p = .outside →
      SemStep r (.wait p) { r with pc := Function.update r.pc p .waitLock }
  | signal {r : SemRun ι} {p : ι} : r.pc p = .outside →
      SemStep r (.signal p)
        { r with
          pc := Function.update r.pc p .signalLock
          signals := r.signals + 1
          passes := Function.update r.passes p (r.passes p - 1) }
  | next {r : SemRun ι} {p : ι} : r.pc p ≠ .outside → SemStep r (.next p) (r.advance p)

/-- A step in which a process signals only after a wait of its own. -/
def DisciplinedStep (r : SemRun ι) (op : SemOp ι) (r' : SemRun ι) : Prop :=
  SemStep r op r' ∧ ∀ p, op = .signal p → 0 < r.passes p

def SemRun.start (v : Int) : SemRun ι := ⟨semInit v, fun _ => .outside, 0, 0, 0, fun _ => 0⟩

/-- Between acquiring and releasing the spinlock. -/
def SemPc.Holds : SemPc → Prop
  | .waitTest | .waitLoad | .waitStore _ | .waitUnlock | .retryUnlock => True
  | .signalLoad | .signalStore _ | .signalUnlock => True
  | _ => False

/-- The store a process in `sem_signal` still has before it. -/
def SemPc.toSignal : SemPc → Nat
  | .signalLock | .signalLoad | .signalStore _ => 1
  | _ => 0

/-- What a process knows of `count` where it stands. -/
def SemPc.Knows (count : Int) : SemPc → Prop
  | .waitLoad => 0 < count
  | .waitStore x => x = count ∧ 0 < count
  | .signalStore x => x = count
  | _ => True

theorem SemPc.Knows.of_not_holds {count : Int} {k : SemPc} (h : ¬ k.Holds) : k.Knows count := by
  cases k <;> simp_all [SemPc.Holds, SemPc.Knows]

structure SemInv (v : Int) (r : SemRun ι) : Prop where
  lock : LockInv SemPc.Holds (r.sem.locked ≠ 0) r.pc
  nonneg : 0 ≤ r.sem.count
  account : r.sem.count = v + r.increments - r.decrements
  knows : ∀ p, (r.pc p).Knows r.sem.count
  signals : ∃ n, Total (fun p => (r.pc p).toSignal) n ∧ r.increments + n = r.signals

variable {v : Int} {r r' : SemRun ι} {op : SemOp ι} {ops : List (SemOp ι)} {p q : ι} {k : SemPc}

theorem storeInt_eq {x : Int} (hlo : 0 ≤ x) (hhi : x < 2 ^ 31) : storeInt x = x := by
  unfold storeInt
  exact Int.bmod_eq_of_le (by omega) (by omega)

/-- The other processes know what they knew if `count` is the same, or if they have no lock. -/
theorem knows_update (h : ∀ q, (r.pc q).Knows r.sem.count) {count : Int} (hp : k.Knows count)
    (hother : count = r.sem.count ∨ ∀ q ≠ p, ¬ (r.pc q).Holds) (q : ι) :
    (Function.update r.pc p k q).Knows count := by
  by_cases hq : q = p
  · subst hq
    simpa using hp
  · rw [Function.update_of_ne hq]
    rcases hother with rfl | hfree
    · exact h q
    · exact .of_not_holds (hfree q hq)

/-- Where only the place of `p` changes, and not what it has to store. -/
theorem toSignal_update {n : Nat} (h : Total (fun q => (r.pc q).toSignal) n)
    (hk : k.toSignal = (r.pc p).toSignal) :
    Total (fun q => (Function.update r.pc p k q).toSignal) n := by
  refine h.congr fun q => ?_
  by_cases hq : q = p
  · subst hq
    simpa using hk
  · simp [hq]

/-- A statement that leaves `count` alone: what is left to show is about the lock. -/
theorem SemInv.quiet (h : SemInv v r) (sem : Semaphore) (p : ι) (k : SemPc)
    (hcount : sem.count = r.sem.count)
    (hlock : LockInv SemPc.Holds (sem.locked ≠ 0) (Function.update r.pc p k))
    (hknows : k.Knows r.sem.count) (hsignal : k.toSignal = (r.pc p).toSignal)
    {passes : ι → Nat} :
    SemInv v ⟨sem, Function.update r.pc p k, r.increments, r.decrements, r.signals, passes⟩ := by
  obtain ⟨n, htotal, hsum⟩ := h.signals
  refine ⟨hlock, by rw [hcount]; exact h.nonneg, by rw [hcount]; exact h.account, ?_,
    n, toSignal_update htotal hsignal, hsum⟩
  intro q
  simp only [hcount]
  exact knows_update h.knows hknows (Or.inl rfl) q

/-- The loop of `spinlock_lock`, once round. -/
theorem testAndSet_lock (p : ι) (k k' : SemPc)
    (h : LockInv SemPc.Holds (r.sem.locked ≠ 0) r.pc) (hk : ¬ k.Holds) :
    LockInv SemPc.Holds ((testAndSet r.sem).1.locked ≠ 0)
      (Function.update r.pc p (if r.sem.locked ≠ 0 then k else k')) := by
  by_cases hfree : r.sem.locked = 0
  · have hacq := h.acquire (p := p) (k := k') (by simpa using hfree)
    simpa [HumanOS.testAndSet, hfree] using hacq
  · have hmove := h.move (p := p) (k := k) (fun hh => (hk hh).elim)
    simpa [HumanOS.testAndSet, hfree] using hmove

/-- A statement keeps the lock to one holder, whatever `count` is. -/
theorem advance_lock (h : LockInv SemPc.Holds (r.sem.locked ≠ 0) r.pc) (p : ι) :
    LockInv SemPc.Holds ((r.advance p).sem.locked ≠ 0) (r.advance p).pc := by
  cases hpc : r.pc p with
  | waitLock | signalLock =>
    simp only [SemRun.advance, hpc, semNext]
    exact testAndSet_lock p _ _ h (by simp [SemPc.Holds])
  | waitTest | waitLoad | waitStore | signalLoad | signalStore =>
    simp only [SemRun.advance, hpc, semNext]
    exact h.move fun _ => by simp [hpc, SemPc.Holds]
  | outside | retryYield =>
    simp only [SemRun.advance, hpc, semNext]
    exact h.move fun hk => hk.elim
  | waitUnlock | retryUnlock | signalUnlock =>
    simp only [SemRun.advance, hpc, semNext]
    simpa [spinlockUnlock] using h.release (p := p) (by simp [hpc, SemPc.Holds]) id

/-- A statement of the holder that stores `count`. -/
theorem SemInv.store (h : SemInv v r) (p : ι) (k : SemPc) (hp : (r.pc p).Holds)
    {count : Int} {increments decrements : Nat}
    (hlock : LockInv SemPc.Holds (r.sem.locked ≠ 0) (Function.update r.pc p k))
    (hknows : k.Knows count) (hnonneg : 0 ≤ count)
    (haccount : count = v + increments - decrements)
    (hsignals : ∃ n, Total (fun q => (Function.update r.pc p k q).toSignal) n ∧
      increments + n = r.signals) {passes : ι → Nat} :
    SemInv v ⟨{ r.sem with count }, Function.update r.pc p k, increments, decrements, r.signals,
      passes⟩ := by
  refine ⟨hlock, hnonneg, haccount, ?_, hsignals⟩
  intro q
  refine knows_update h.knows hknows (Or.inr fun q hq hq' => ?_) q
  exact hq (h.lock.exclusive q p hq' hp)

theorem SemInv.wait (h : SemInv v r) (hp : r.pc p = .outside) :
    SemInv v { r with pc := Function.update r.pc p .waitLock } := by
  refine h.quiet r.sem p .waitLock rfl (h.lock.move ?_) trivial ?_
  · simp [SemPc.Holds]
  · simp [hp, SemPc.toSignal]

theorem SemInv.signal (h : SemInv v r) (hp : r.pc p = .outside) :
    SemInv v { r with
      pc := Function.update r.pc p .signalLock
      signals := r.signals + 1
      passes := Function.update r.passes p (r.passes p - 1) } := by
  obtain ⟨n, htotal, hsum⟩ := h.signals
  refine ⟨h.lock.move ?_, h.nonneg, h.account, ?_, n + 1, ?_, ?_⟩
  · simp [SemPc.Holds]
  · exact knows_update h.knows trivial (Or.inl rfl)
  · refine htotal.add (p := p) ?_ fun q hq => ?_
    · simp [hp, SemPc.toSignal]
    · simp [hq]
  · simp only
    omega

/-- The bound on the signals keeps `count` within an `int`. -/
theorem SemInv.count_le (h : SemInv v r) : r.sem.count ≤ v + r.signals := by
  obtain ⟨n, -, hsum⟩ := h.signals
  have haccount := h.account
  omega

theorem SemInv.next (h : SemInv v r) (hbound : v + r.signals < 2 ^ 31) (hp : r.pc p ≠ .outside) :
    SemInv v (r.advance p) := by
  have hknow := h.knows p
  have hle := h.count_le
  have hnonneg := h.nonneg
  have haccount := h.account
  have hlock := advance_lock h.lock p
  obtain ⟨n, htotal, hsum⟩ := h.signals
  cases hpc : r.pc p with
  | outside => exact (hp hpc).elim
  | waitLock | signalLock =>
    simp only [SemRun.advance, hpc, semNext] at hlock ⊢
    refine h.quiet (testAndSet r.sem).1 p _ rfl hlock ?_ ?_
    · split <;> trivial
    · rw [hpc]
      split <;> rfl
  | waitTest =>
    simp only [SemRun.advance, hpc, semNext] at hlock ⊢
    refine h.quiet r.sem p _ rfl hlock ?_ ?_
    · split
      · assumption
      · trivial
    · rw [hpc]
      split <;> rfl
  | waitLoad =>
    rw [hpc] at hknow
    simp only [SemRun.advance, hpc, semNext] at hlock ⊢
    exact h.quiet r.sem p (.waitStore _) rfl hlock ⟨rfl, hknow⟩ (by simp [hpc, SemPc.toSignal])
  | waitStore x =>
    rw [hpc] at hknow
    obtain ⟨rfl, hpos⟩ := hknow
    simp only [SemRun.advance, hpc, semNext] at hlock ⊢
    rw [storeInt_eq (by omega) (by omega)]
    refine h.store p .waitUnlock (by simp [hpc, SemPc.Holds]) hlock trivial (by omega) (by omega) ?_
    exact ⟨n, toSignal_update htotal (by simp [hpc, SemPc.toSignal]), hsum⟩
  | waitUnlock =>
    simp only [SemRun.advance, hpc, semNext] at hlock ⊢
    exact h.quiet (spinlockUnlock r.sem) p .outside rfl hlock trivial
      (by simp [hpc, SemPc.toSignal])
  | retryUnlock =>
    simp only [SemRun.advance, hpc, semNext] at hlock ⊢
    exact h.quiet (spinlockUnlock r.sem) p .retryYield rfl hlock trivial
      (by simp [hpc, SemPc.toSignal])
  | retryYield =>
    simp only [SemRun.advance, hpc, semNext] at hlock ⊢
    exact h.quiet r.sem p .waitLock rfl hlock trivial (by simp [hpc, SemPc.toSignal])
  | signalLoad =>
    simp only [SemRun.advance, hpc, semNext] at hlock ⊢
    exact h.quiet r.sem p (.signalStore _) rfl hlock rfl (by simp [hpc, SemPc.toSignal])
  | signalStore x =>
    rw [hpc] at hknow
    obtain rfl : x = r.sem.count := hknow
    -- this signal has not been counted as an increment yet
    obtain ⟨m, rfl, hm⟩ := htotal.sub (p := p)
      (fun q => (Function.update r.pc p .signalUnlock q).toSignal)
      (by simp [hpc, SemPc.toSignal]) (fun q hq => by simp [hq])
    simp only [SemRun.advance, hpc, semNext] at hlock ⊢
    rw [storeInt_eq (by omega) (by omega)]
    refine h.store p .signalUnlock (by simp [hpc, SemPc.Holds]) hlock trivial (by omega) ?_ ?_
    · push_cast
      omega
    · exact ⟨m, hm, by omega⟩
  | signalUnlock =>
    simp only [SemRun.advance, hpc, semNext] at hlock ⊢
    exact h.quiet (spinlockUnlock r.sem) p .outside rfl hlock trivial
      (by simp [hpc, SemPc.toSignal])

theorem SemStep.inv (hs : SemStep r op r') (hbound : v + r'.signals < 2 ^ 31) (h : SemInv v r) :
    SemInv v r' := by
  cases hs with
  | wait hp => exact h.wait hp
  | signal hp => exact h.signal hp
  | next hp => exact h.next hbound hp

theorem SemStep.signals_le (hs : SemStep r op r') : r.signals ≤ r'.signals := by
  cases hs with
  | wait => exact le_rfl
  | signal => exact Nat.le_succ _
  | next => exact le_rfl

theorem SemInv.start (hv : 0 ≤ v) : SemInv v (.start v : SemRun ι) where
  lock := ⟨fun _ _ hp => hp.elim, fun _ _ hp => hp⟩
  nonneg := hv
  account := by simp [SemRun.start, semInit]
  knows := fun _ => trivial
  signals := ⟨0, Total.zero, rfl⟩

/-- The invariant holds in every state reached before the bound on the signals. -/
theorem SemInv.run (hv : 0 ≤ v) (hr : Run SemStep (.start v) ops r)
    (hbound : v + r.signals < 2 ^ 31) : SemInv v r := by
  have hinv := hr.invariant (fun r : SemRun ι => v + r.signals < 2 ^ 31 → SemInv v r)
    (fun s a t hs h hb => ?_) fun _ => .start hv
  · exact hinv hbound
  · have hle := hs.signals_le
    exact hs.inv hb (h (by omega))

section Discipline

/-- The unit a process has taken out of `count`, in a call that has not returned yet or that
gives it back. -/
def SemPc.owes : SemPc → Nat
  | .waitUnlock | .signalLock | .signalLoad | .signalStore _ => 1
  | _ => 0

/-- `count` and the units taken out of it add up to the initial value. -/
def UnitsKept (v : Int) (r : SemRun ι) : Prop :=
  ∃ n, Total (fun p => r.passes p + (r.pc p).owes) n ∧ r.sem.count + n = v

/-- A step that moves no unit. -/
theorem UnitsKept.move (h : UnitsKept v r) (hcount : r'.sem.count = r.sem.count)
    (hp : r'.passes p + (r'.pc p).owes = r.passes p + (r.pc p).owes)
    (hother : ∀ q ≠ p, r'.passes q = r.passes q ∧ r'.pc q = r.pc q) : UnitsKept v r' := by
  obtain ⟨n, htotal, hsum⟩ := h
  refine ⟨n, htotal.congr fun q => ?_, by rw [hcount, hsum]⟩
  by_cases hq : q = p
  · subst hq
    exact hp
  · rw [(hother q hq).1, (hother q hq).2]

theorem advance_other (hq : q ≠ p) :
    (r.advance p).passes q = r.passes q ∧ (r.advance p).pc q = r.pc q := by
  refine ⟨?_, Function.update_of_ne hq _ _⟩
  cases hpc : r.pc p with
  | waitUnlock => simp [SemRun.advance, hpc, Function.update_of_ne hq]
  | _ => simp [SemRun.advance, hpc]

theorem UnitsKept.next (h : UnitsKept v r) (hinv : SemInv v r) (hbound : v + r.signals < 2 ^ 31) :
    UnitsKept v (r.advance p) := by
  have hknow := hinv.knows p
  have hle := hinv.count_le
  have hnonneg := hinv.nonneg
  obtain ⟨m, hpending, hsum⟩ := hinv.signals
  cases hpc : r.pc p with
  | waitStore x =>
    rw [hpc] at hknow
    obtain ⟨rfl, hpos⟩ := hknow
    obtain ⟨n, htotal, hunits⟩ := h
    refine ⟨n + 1, htotal.add (p := p) ?_ fun q hq => ?_, ?_⟩
    · simp [SemRun.advance, hpc, semNext, SemPc.owes]
    · rw [(advance_other hq).1, (advance_other hq).2]
    · simp only [SemRun.advance, hpc, semNext]
      rw [storeInt_eq (by omega) (by omega)]
      push_cast
      omega
  | signalStore x =>
    rw [hpc] at hknow
    obtain rfl : x = r.sem.count := hknow
    have hone := hpending.le p
    simp only [hpc, SemPc.toSignal] at hone
    have haccount := hinv.account
    obtain ⟨n, htotal, hunits⟩ := h
    obtain ⟨l, rfl, hl⟩ := htotal.sub (p := p)
      (fun q => (r.advance p).passes q + ((r.advance p).pc q).owes)
      (by simp [SemRun.advance, hpc, semNext, SemPc.owes])
      (fun q hq => by rw [(advance_other hq).1, (advance_other hq).2])
    refine ⟨l, hl, ?_⟩
    simp only [SemRun.advance, hpc, semNext]
    rw [storeInt_eq (by omega) (by omega)]
    push_cast at hunits
    omega
  | waitLock | signalLock | waitTest =>
    refine h.move (p := p) (by simp [SemRun.advance, hpc, semNext, testAndSet]) ?_
      fun q hq => advance_other hq
    simp only [SemRun.advance, hpc, semNext, Function.update_self]
    split <;> rfl
  | _ =>
    refine h.move (p := p) ?_ ?_ fun q hq => advance_other hq
    · simp [SemRun.advance, hpc, semNext, spinlockUnlock]
    · simp [SemRun.advance, hpc, semNext, SemPc.owes]

theorem DisciplinedStep.units (hs : DisciplinedStep r op r') (hbound : v + r'.signals < 2 ^ 31)
    (hinv : SemInv v r) (h : UnitsKept v r) : UnitsKept v r' := by
  obtain ⟨hs, hown⟩ := hs
  cases hs with
  | @wait p hp =>
    refine h.move (p := p) rfl ?_ fun q hq => ⟨rfl, Function.update_of_ne hq _ _⟩
    simp [hp, SemPc.owes]
  | @signal p hp =>
    have hpos := hown p rfl
    refine h.move (p := p) rfl ?_ fun q hq =>
      ⟨Function.update_of_ne hq _ _, Function.update_of_ne hq _ _⟩
    simp only [Function.update_self, hp, SemPc.owes]
    omega
  | next hp => exact h.next hinv hbound

theorem UnitsKept.run (hv : 0 ≤ v) (hr : Run DisciplinedStep (.start v) ops r)
    (hbound : v + r.signals < 2 ^ 31) : SemInv v r ∧ UnitsKept v r := by
  have hinv := hr.invariant
    (fun r : SemRun ι => v + r.signals < 2 ^ 31 → SemInv v r ∧ UnitsKept v r)
    (fun s a t hs h hb => ?_) fun _ => ⟨.start hv, 0, Total.zero, by simp [SemRun.start, semInit]⟩
  · exact hinv hbound
  · have hle := hs.1.signals_le
    obtain ⟨hi, hu⟩ := h (by omega)
    exact ⟨hs.1.inv hb hi, hs.units hb hi hu⟩

end Discipline

/-- What holds under every interleaving. -/
structure SemaphoreSafe (v : Int) (r : SemRun ι) : Prop where
  exclusive : ∀ p q, (r.pc p).Holds → (r.pc q).Holds → p = q
  nonneg : 0 ≤ r.sem.count
  account : r.sem.count = v + r.increments - r.decrements

/-- Semaphores are safe under every interleaving, and a semaphore of one unit keeps the processes
that wait before they signal out of each other's critical sections. -/
theorem semaphore_safety (hv : 0 ≤ v) :
    (∀ ops (r : SemRun ι), Run SemStep (.start v) ops r → r.signals < 2 ^ 31 - v →
      SemaphoreSafe v r) ∧
    (v = 1 → ∀ ops (r : SemRun ι), Run DisciplinedStep (.start v) ops r →
      r.signals < 2 ^ 31 - v → ∀ p q, 0 < r.passes p → 0 < r.passes q → p = q) := by
  constructor
  · intro ops r hr hbound
    have hinv := SemInv.run hv hr (by omega)
    exact ⟨hinv.lock.exclusive, hinv.nonneg, hinv.account⟩
  · rintro rfl ops r hr hbound p q hp hq
    obtain ⟨hinv, n, htotal, hsum⟩ := UnitsKept.run hv hr (by omega)
    by_contra hne
    have htwo := htotal.two_le (p := p) (q := q) (Nat.add_pos_left hp _) (Nat.add_pos_left hq _) hne
    have hnonneg := hinv.nonneg
    omega

/-- One of two processes gets past `sem_wait`; the other one is then at `sem_wait` for nothing. -/
theorem semaphore_safety_one_unit :
    ∃ r : SemRun Bool, Run DisciplinedStep (.start 1) [.wait true, .next true, .next true,
        .next true, .next true, .next true, .wait false, .next false, .next false] r ∧
      0 < r.passes true ∧ 0 ≤ r.sem.count ∧ ∀ p, 0 < r.passes p → p = true := by
  have hnext : ∀ {r : SemRun Bool} {p}, r.pc p ≠ .outside →
      DisciplinedStep r (.next p) (r.advance p) := fun hp => ⟨.next hp, by simp⟩
  have hwait : ∀ {r : SemRun Bool} {p}, r.pc p = .outside →
      DisciplinedStep r (.wait p) { r with pc := Function.update r.pc p .waitLock } :=
    fun hp => ⟨.wait hp, by simp⟩
  obtain ⟨r, hr, hpass, hsignals⟩ : ∃ r : SemRun Bool, Run DisciplinedStep (.start 1)
      [.wait true, .next true, .next true, .next true, .next true, .next true, .wait false,
        .next false, .next false] r ∧ 0 < r.passes true ∧ r.signals = 0 :=
    ⟨_, .stepL (hwait rfl) (.stepL (hnext (by decide)) (.stepL (hnext (by decide))
      (.stepL (hnext (by decide)) (.stepL (hnext (by decide)) (.stepL (hnext (by decide))
      (.stepL (hwait (by decide)) (.stepL (hnext (by decide)) (.single (hnext (by decide)))))))))),
      by decide, by decide⟩
  have hbound : (r.signals : Int) < 2 ^ 31 - 1 := by
    rw [hsignals]
    decide
  have hsafe := semaphore_safety (ι := Bool) (v := 1) (by decide)
  have hany := hsafe.1 _ r (hr.mono fun _ _ _ h => h.1) hbound
  exact ⟨r, hr, hpass, hany.nonneg, fun p hp => hsafe.2 rfl _ r hr hbound p true hp hpass⟩

end HumanOS

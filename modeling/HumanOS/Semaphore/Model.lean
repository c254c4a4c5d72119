import Mathlib.Tactic.Ring

/-!
# Spinlocks and semaphores

`kernel/spinlock.c` and `kernel/semaphore.c`, taken apart into the accesses to shared memory: each
statement of `sem_wait` and `sem_signal` is a step, and changing `count` is two of them. The
pointers are not NULL.
-/
namespace HumanOS

/-- `semaphore_t`, with the `locked` of its spinlock. -/
structure Semaphore where
  count : Int
  locked : Nat

/-- `sem_init` with `spinlock_init`. -/
def semInit (value : Int) : Semaphore := ⟨value, 0⟩

/-- `__sync_lock_test_and_set` of the lock to 1, with the old value. -/
def testAndSet (s : Semaphore) : Semaphore × Nat := ({ s with locked := 1 }, s.locked)

/-- `spinlock_unlock`. -/
def spinlockUnlock (s : Semaphore) : Semaphore := { s with locked := 0 }

/-- A value as it is stored into an `int`. -/
def storeInt (x : Int) : Int := x.bmod (2 ^ 32)

/-- The statement a process executes next, with the value it has loaded. -/
inductive SemPc where
  | outside
  | waitLock
  | waitTest
  | waitLoad
  | waitStore (x : Int)
  | waitUnlock
  | retryUnlock
  | retryYield
  | signalLock
  | signalLoad
  | signalStore (x : Int)
  | signalUnlock
deriving DecidableEq

/-- One statement of `sem_wait` or `sem_signal`; the loop of `spinlock_lock` goes on while the
old value is not 0. -/
def semNext (s : Semaphore) : SemPc → Semaphore × SemPc
  | .outside => (s, .outside)
  | .waitLock =>
    let (s, old) := testAndSet s
    (s, if old ≠ 0 then .waitLock else .waitTest)
  | .waitTest => (s, if s.count > 0 then .waitLoad else .retryUnlock)
  | .waitLoad => (s, .waitStore s.count)
  | .waitStore x => ({ s with count := storeInt (x - 1) }, .waitUnlock)
  | .waitUnlock => (spinlockUnlock s, .outside)
  | .retryUnlock => (spinlockUnlock s, .retryYield)
  | .retryYield => (s, .waitLock)
  | .signalLock =>
    let (s, old) := testAndSet s
    (s, if old ≠ 0 then .signalLock else .signalLoad)
  | .signalLoad => (s, .signalStore s.count)
  | .signalStore x => ({ s with count := storeInt (x + 1) }, .signalUnlock)
  | .signalUnlock => (spinlockUnlock s, .outside)

end HumanOS

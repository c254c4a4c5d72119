import Mathlib.Logic.Function.Basic

/-! Processes around one lock: who holds it is read off where each process stands. -/
namespace HumanOS.Lib

variable {ι κ : Type*} [DecidableEq ι] {holds : κ → Prop} {locked : Prop} {pc : ι → κ} {p : ι}
variable {k : κ}

/-- At most one process holds the lock, and none while it is free. -/
structure LockInv (holds : κ → Prop) (locked : Prop) (pc : ι → κ) : Prop where
  exclusive : ∀ p q, holds (pc p) → holds (pc q) → p = q
  free : ¬ locked → ∀ p, ¬ holds (pc p)

namespace LockInv

/-- A process that takes the free lock. -/
theorem acquire (h : LockInv holds locked pc) (hfree : ¬ locked) :
    LockInv holds True (Function.update pc p k) := by
  refine ⟨fun q r hq hr => ?_, fun hno => (hno trivial).elim⟩
  by_cases hqp : q = p <;> by_cases hrp : r = p
  · rw [hqp, hrp]
  · rw [Function.update_of_ne hrp] at hr
    exact (h.free hfree r hr).elim
  · rw [Function.update_of_ne hqp] at hq
    exact (h.free hfree q hq).elim
  · rw [Function.update_of_ne hqp] at hq
    exact (h.free hfree q hq).elim

/-- A process that moves on with the lock, or without it. -/
theorem move (h : LockInv holds locked pc) (hsame : holds k → holds (pc p)) :
    LockInv holds locked (Function.update pc p k) := by
  have hback : ∀ q, holds (Function.update pc p k q) → holds (pc q) := by
    intro q hq
    by_cases hqp : q = p
    · subst hqp
      rw [Function.update_self] at hq
      exact hsame hq
    · rwa [Function.update_of_ne hqp] at hq
  exact ⟨fun q r hq hr => h.exclusive q r (hback q hq) (hback r hr),
    fun hfree q hq => h.free hfree q (hback q hq)⟩

/-- The holder gives the lock back. -/
theorem release (h : LockInv holds locked pc) (hheld : holds (pc p)) (hleft : ¬ holds k) :
    LockInv holds False (Function.update pc p k) := by
  have hnone : ∀ q, ¬ holds (Function.update pc p k q) := by
    intro q hq
    by_cases hqp : q = p
    · subst hqp
      rw [Function.update_self] at hq
      exact hleft hq
    · rw [Function.update_of_ne hqp] at hq
      exact hqp (h.exclusive q p hq hheld)
  exact ⟨fun q _ hq => (hnone q hq).elim, fun _ => hnone⟩

end LockInv

end HumanOS.Lib

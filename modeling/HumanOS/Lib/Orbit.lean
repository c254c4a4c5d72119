import Mathlib.Data.Finset.Card
import Mathlib.Logic.Function.Iterate

/-! Walks of a function that go on for as long as they are inside a set. -/
namespace HumanOS.Lib

variable {α : Type*} {f : α → α} {inside : α → Prop} {p : α} {n fuel : Nat} {ps : List α}

/-- The walk from `p` is inside for `n` steps and then outside. -/
structure Leaves (f : α → α) (inside : α → Prop) (n : Nat) (p : α) : Prop where
  stays : ∀ j < n, inside (f^[j] p)
  out : ¬ inside (f^[n] p)

/-- The places of a walk, as far as the fuel lasts. -/
def visits (f : α → α) (inside : α → Prop) [DecidablePred inside] : Nat → α → Option (List α)
  | 0, _ => none
  | fuel + 1, p => if inside p then (visits f inside fuel (f p)).map (p :: ·) else some []

namespace Leaves

theorem zero (hp : ¬ inside p) : Leaves f inside 0 p :=
  ⟨fun _ hj => absurd hj (Nat.not_lt_zero _), hp⟩

theorem cons (hp : inside p) (h : Leaves f inside n (f p)) : Leaves f inside (n + 1) p := by
  refine ⟨fun j hj => ?_, h.out⟩
  cases j with
  | zero => exact hp
  | succ j => exact h.stays j (by omega)

theorem head (h : Leaves f inside (n + 1) p) : inside p := h.stays 0 (by omega)

theorem tail (h : Leaves f inside (n + 1) p) : Leaves f inside n (f p) :=
  ⟨fun j hj => h.stays (j + 1) (by omega), h.out⟩

/-- No place is visited twice: the walk would go round for ever. -/
theorem injOn (h : Leaves f inside n p) : Set.InjOn (fun j => f^[j] p) (Finset.range n) := by
  have hne : ∀ i j, i < j → j < n → f^[i] p ≠ f^[j] p := by
    intro i j hij hj heq
    have hback : f^[n - j + i] p = f^[n] p := by
      rw [Function.iterate_add_apply, heq, ← Function.iterate_add_apply, Nat.sub_add_cancel hj.le]
    exact h.out (hback ▸ h.stays (n - j + i) (by omega))
  intro i hi j hj heq
  simp only [Finset.coe_range, Set.mem_Iio] at hi hj
  rcases Nat.lt_trichotomy i j with hlt | rfl | hlt
  · exact absurd heq (hne i j hlt hj)
  · rfl
  · exact absurd heq.symm (hne j i hlt hi)

/-- A walk that leaves a finite set leaves it after at most one step for each place. -/
theorem le_card {S : Finset α} (h : Leaves f inside n p) (hS : ∀ j < n, f^[j] p ∈ S) :
    n ≤ S.card := by
  have hcard := Finset.card_le_card_of_injOn _ (fun j hj => hS j (Finset.mem_range.mp hj)) h.injOn
  rwa [Finset.card_range] at hcard

end Leaves

section Visits

variable [DecidablePred inside]

/-- The fuel lasts if it is more than the steps inside. -/
theorem visits_isSome : (visits f inside fuel p).isSome ↔ ∃ n < fuel, Leaves f inside n p := by
  induction fuel generalizing p with
  | zero => simp [visits]
  | succ fuel ih =>
    by_cases hp : inside p
    · simp only [visits, hp, if_true, Option.isSome_map, ih]
      constructor
      · rintro ⟨n, hn, h⟩
        exact ⟨n + 1, by omega, h.cons hp⟩
      · rintro ⟨n, hn, h⟩
        cases n with
        | zero => exact absurd hp h.out
        | succ n => exact ⟨n, by omega, h.tail⟩
    · simp only [visits, hp, if_false, Option.isSome_some, true_iff]
      exact ⟨0, by omega, .zero hp⟩

end Visits

end HumanOS.Lib

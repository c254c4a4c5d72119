import Mathlib.Data.Fintype.Order
import Mathlib.Data.Set.Finite.Basic
import Mathlib.Logic.Relation
import Mathlib.Order.WellFounded

/-! Relations in which nobody has two successors: where following them leads. -/
namespace HumanOS.Lib

open Relation

variable {α : Type*} {r : α → α → Prop} {a b : α}

/-- Following `r` from `a` one comes into a cycle. -/
def LeadsToCycle (r : α → α → Prop) (a : α) : Prop := ∃ b, ReflTransGen r a b ∧ TransGen r b b

/-- Where everybody has at most one successor, the way into the cycle is the only way. -/
theorem LeadsToCycle.step (hunique : ∀ x y z, r x y → r x z → y = z) (h : LeadsToCycle r a)
    (hab : r a b) : LeadsToCycle r b := by
  obtain ⟨c, hac, hc⟩ := h
  rcases ReflTransGen.cases_head hac with rfl | ⟨b', hab', hbc⟩
  · obtain ⟨b', hab', hba⟩ := TransGen.head'_iff.mp hc
    obtain rfl := hunique _ _ _ hab hab'
    exact ⟨a, hba, hc⟩
  · obtain rfl := hunique _ _ _ hab hab'
    exact ⟨c, hbc, hc⟩

theorem LeadsToCycle.exists_step (h : LeadsToCycle r a) : ∃ b, r a b := by
  obtain ⟨c, hac, hc⟩ := h
  rcases ReflTransGen.cases_head hac with rfl | ⟨b, hab, -⟩
  · obtain ⟨b, hab, -⟩ := TransGen.head'_iff.mp hc
    exact ⟨b, hab⟩
  · exact ⟨b, hab⟩

/-- Nobody on the way into a cycle is without a successor. -/
theorem LeadsToCycle.no_end (hunique : ∀ x y z, r x y → r x z → y = z) (h : LeadsToCycle r a)
    (hab : ReflTransGen r a b) : LeadsToCycle r b := by
  induction hab with
  | refl => exact h
  | tail _ hbc ih => exact ih.step hunique hbc

/-- Among finitely many, a way without an end comes into a cycle. -/
theorem leadsToCycle_of_no_end (hfin : {b | ReflTransGen r a b}.Finite)
    (hnext : ∀ b, ReflTransGen r a b → ∃ c, r b c) : LeadsToCycle r a := by
  by_contra hno
  -- without a cycle the way strictly descends in a finite set
  have hirrefl : ∀ b, ReflTransGen r a b → ¬ TransGen r b b := fun b hb hbb => hno ⟨b, hb, hbb⟩
  have : Finite {b // ReflTransGen r a b} := hfin
  let later : {b // ReflTransGen r a b} → {b // ReflTransGen r a b} → Prop :=
    fun x y => TransGen r y.1 x.1
  have : IsTrans _ later := ⟨fun _ _ _ hxy hyz => hyz.trans hxy⟩
  have : Std.Irrefl later := ⟨fun x => hirrefl x.1 x.2⟩
  obtain ⟨m, -, hm⟩ := (Finite.wellFounded_of_trans_of_irrefl later).has_min Set.univ
    ⟨⟨a, .refl⟩, trivial⟩
  obtain ⟨c, hc⟩ := hnext m.1 m.2
  exact hm ⟨c, m.2.tail hc⟩ trivial (.single hc)

/-- What grows along `r` keeps it free of cycles. -/
theorem not_leadsToCycle_of_rank {f : α → Nat} (hrank : ∀ x y, r x y → f x < f y) :
    ¬ LeadsToCycle r a := by
  rintro ⟨b, -, hb⟩
  have hlt : ∀ x y, TransGen r x y → f x < f y := by
    intro x y hxy
    induction hxy with
    | single h => exact hrank _ _ h
    | tail _ h ih => exact ih.trans (hrank _ _ h)
  exact Nat.lt_irrefl _ (hlt b b hb)

end HumanOS.Lib

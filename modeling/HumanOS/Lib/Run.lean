import Mathlib.Logic.Relation

/-! Finite labelled runs of a step relation, and the invariant rules over them. -/
namespace HumanOS.Lib

variable {σ α : Type*} {step : σ → α → σ → Prop} {s t u : σ} {a : α} {as bs : List α}

/-- The run that takes the listed labels one after the other. -/
inductive Run (step : σ → α → σ → Prop) : σ → List α → σ → Prop
  | refl {s : σ} : Run step s [] s
  | stepL {s t u : σ} {a : α} {as : List α} :
      step s a t → Run step t as u → Run step s (a :: as) u

namespace Run

theorem single (h : step s a t) : Run step s [a] t := .stepL h .refl

theorem append (h : Run step s as t) (h' : Run step t bs u) : Run step s (as ++ bs) u := by
  induction h with
  | refl => exact h'
  | stepL hs _ ih => exact .stepL hs (ih h')

/-- What every step preserves, every run preserves. -/
theorem invariant (Inv : σ → Prop) (hstep : ∀ s a t, step s a t → Inv s → Inv t)
    (h : Run step s as t) (hs : Inv s) : Inv t := by
  induction h with
  | refl => exact hs
  | stepL h _ ih => exact ih (hstep _ _ _ h hs)

/-- Where every step does what a function does to the state that represents the other, so does a
run. -/
theorem simulates {τ : Type*} {next : τ → α → τ} (R : σ → τ → Prop) {b : τ}
    (hstep : ∀ s a t b, step s a t → R s b → R t (next b a)) (h : Run step s as t) (hs : R s b) :
    R t (as.foldl next b) := by
  induction h generalizing b with
  | refl => exact hs
  | stepL h _ ih => exact ih (hstep _ _ _ _ h hs)

/-- A run of a smaller relation is a run of a larger one. -/
theorem mono {step' : σ → α → σ → Prop} (hle : ∀ s a t, step s a t → step' s a t)
    (h : Run step s as t) : Run step' s as t := by
  induction h with
  | refl => exact .refl
  | stepL h _ ih => exact .stepL (hle _ _ _ h) ih

/-- What holds of all labels of a run holds of the label of each step. -/
theorem labels {P : α → Prop} (h : Run step s as t) (hP : ∀ a ∈ as, P a) :
    Run (fun s a t => step s a t ∧ P a) s as t := by
  induction h with
  | refl => exact .refl
  | stepL h _ ih => exact .stepL ⟨h, hP _ (by simp)⟩ (ih fun a ha => hP a (by simp [ha]))

/-- One step for each element of a list, while `Inv` allows it. -/
theorem foldl {β : Type*} {f : σ → β → σ} {g : β → α} (Inv : σ → Prop)
    (hstep : ∀ s b, Inv s → step s (g b) (f s b) ∧ Inv (f s b)) (bs : List β) (hs : Inv s) :
    Run step s (bs.map g) (bs.foldl f s) := by
  induction bs generalizing s with
  | nil => exact .refl
  | cons b bs ih => exact .stepL (hstep s b hs).1 (ih (hstep s b hs).2)

end Run

end HumanOS.Lib

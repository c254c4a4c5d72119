import Mathlib.Data.Multiset.AddSub
import Mathlib.Logic.Function.Basic

/-! The sum of a weight over arbitrarily many processes, finitely many of which have any. -/
namespace HumanOS.Lib

variable {ι : Type*} [DecidableEq ι] {w w' : ι → Nat} {n : Nat} {p q : ι}

/-- The weights add up to `n`. -/
def Total (w : ι → Nat) (n : Nat) : Prop := ∃ H : Multiset ι, (∀ p, H.count p = w p) ∧ H.card = n

namespace Total

theorem zero : Total (fun _ : ι => 0) 0 := ⟨0, by simp, by simp⟩

/-- One more at `p`. -/
theorem add (h : Total w n) (hp : w' p = w p + 1) (hother : ∀ q ≠ p, w' q = w q) :
    Total w' (n + 1) := by
  obtain ⟨H, hcount, hcard⟩ := h
  refine ⟨p ::ₘ H, fun q => ?_, by simp [hcard]⟩
  by_cases hq : q = p
  · subst hq
    simp [hcount, hp]
  · simp [hcount, hother q hq, Multiset.count_cons_of_ne hq]

/-- One less at `p`. -/
theorem sub (h : Total w n) (w' : ι → Nat) (hp : w p = w' p + 1) (hother : ∀ q ≠ p, w' q = w q) :
    ∃ m, n = m + 1 ∧ Total w' m := by
  obtain ⟨H, hcount, hcard⟩ := h
  have hmem : p ∈ H := by
    rw [← Multiset.count_pos, hcount, hp]
    omega
  have hpos : 0 < H.card := Multiset.card_pos_iff_exists_mem.mpr ⟨p, hmem⟩
  refine ⟨n - 1, by omega, H.erase p, fun q => ?_, by
    rw [Multiset.card_erase_of_mem hmem, hcard, Nat.pred_eq_sub_one]⟩
  by_cases hq : q = p
  · subst hq
    rw [Multiset.count_erase_self, hcount, hp, Nat.add_sub_cancel]
  · rw [Multiset.count_erase_of_ne hq, hcount, hother q hq]

/-- Nothing changed. -/
theorem congr (h : Total w n) (heq : ∀ q, w' q = w q) : Total w' n := by
  rwa [funext heq]

/-- A weight is part of the sum. -/
theorem le (h : Total w n) (p : ι) : w p ≤ n := by
  obtain ⟨H, hcount, hcard⟩ := h
  rw [← hcount, ← hcard]
  exact Multiset.count_le_card p H

/-- Two processes with a weight make at least two. -/
theorem two_le (h : Total w n) (hp : 0 < w p) (hq : 0 < w q) (hne : p ≠ q) : 2 ≤ n := by
  obtain ⟨m, rfl, hm⟩ := h.sub (p := p) (Function.update w p (w p - 1))
    (by rw [Function.update_self]; omega) (fun r hr => Function.update_of_ne hr _ _)
  have hle := hm.le q
  rw [Function.update_of_ne hne.symm] at hle
  omega

end Total

end HumanOS.Lib

import HumanOS.Lib.Run
import Mathlib.Data.Finset.Card
import Mathlib.Order.Bounds.Basic

/-! A pool that hands out its least free element and takes back what it has handed out. -/
namespace HumanOS.Lib

/-- What is free, and what is handed out, the latest first. -/
structure Pool (α : Type*) where
  free : Finset α
  held : List α

inductive PoolOp (α : Type*) where
  | take (x : α)
  | give (x : α)

variable {α : Type*} {F : Finset α} {s t : Pool α}

inductive PoolStep [LinearOrder α] : Pool α → PoolOp α → Pool α → Prop
  | take {s : Pool α} {x : α} : IsLeast (s.free : Set α) x →
      PoolStep s (.take x) ⟨s.free.erase x, x :: s.held⟩
  | give {s : Pool α} {x : α} : x ∈ s.held → PoolStep s (.give x) ⟨insert x s.free, s.held.erase x⟩

/-- The pool is `F`, each element of it either free or handed out once. -/
structure Pool.Splits (F : Finset α) (s : Pool α) : Prop where
  nodup : s.held.Nodup
  apart : ∀ x ∈ s.held, x ∉ s.free
  mem : ∀ x, x ∈ F ↔ x ∈ s.free ∨ x ∈ s.held

theorem Pool.splits_start : Pool.Splits F ⟨F, []⟩ := ⟨List.nodup_nil, by simp, by simp⟩

variable [LinearOrder α]

theorem PoolStep.splits {a : PoolOp α} (hs : PoolStep s a t) (h : s.Splits F) : t.Splits F := by
  cases hs with
  | take hx =>
    rename_i x
    have hfree : x ∈ s.free := hx.1
    refine ⟨List.nodup_cons.mpr ⟨fun hin => h.apart x hin hfree, h.nodup⟩, ?_, ?_⟩
    · intro y hy
      rcases List.mem_cons.mp hy with rfl | hy
      · simp
      · simp [h.apart y hy]
    · intro y
      by_cases hyx : y = x
      · subst hyx
        simp [h.mem, hfree]
      · simp [h.mem, hyx]
  | give hx =>
    rename_i x
    refine ⟨h.nodup.erase x, ?_, ?_⟩
    · intro y hy
      obtain ⟨hyx, hy⟩ := (h.nodup.mem_erase_iff).mp hy
      simp [hyx, h.apart y hy]
    · intro y
      by_cases hyx : y = x
      · subst hyx
        simp [h.mem, hx]
      · simp [h.mem, hyx, h.nodup.mem_erase_iff]

theorem Pool.Splits.run {as : List (PoolOp α)} (hr : Run PoolStep s as t) (h : s.Splits F) :
    t.Splits F :=
  hr.invariant (fun s => s.Splits F) (fun _ _ _ hs h => hs.splits h) h

/-- What is handed out is missing from the free part. -/
theorem Pool.Splits.card (h : s.Splits F) : s.free.card + s.held.length = F.card := by
  rw [← List.toFinset_card_of_nodup h.nodup, ← Finset.card_union_of_disjoint]
  · congr 1
    ext x
    simp [h.mem]
  · rw [Finset.disjoint_right]
    intro x hx
    exact h.apart x (List.mem_toFinset.mp hx)

end HumanOS.Lib

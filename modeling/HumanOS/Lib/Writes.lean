import Mathlib.Data.List.Induction
import Mathlib.Logic.Function.Basic

/-! Histories of writes to a function: what is read at a key is what was written there last. -/
namespace HumanOS.Lib

variable {α κ β : Type*} [DecidableEq κ]

/-- The last element of a history that writes to the key. -/
def lastAt (key : α → κ) (ops : List α) (k : κ) : Option α :=
  ops.reverse.find? fun a => key a = k

theorem lastAt_concat {key : α → κ} {ops : List α} {a : α} {k : κ} :
    lastAt key (ops ++ [a]) k = if key a = k then some a else lastAt key ops k := by
  by_cases hk : key a = k <;> simp [lastAt, hk]

/-- Writing one after the other, each element at its own key. -/
def writeAll (key : α → κ) (val : α → β) (m : κ → β) (ops : List α) : κ → β :=
  ops.foldl (fun m a => Function.update m (key a) (val a)) m

theorem writeAll_concat {key : α → κ} {val : α → β} {m : κ → β} {ops : List α} {a : α} :
    writeAll key val m (ops ++ [a]) =
      Function.update (writeAll key val m ops) (key a) (val a) := by
  simp [writeAll]

/-- The last write to a key decides what is found there. -/
theorem writeAll_apply {key : α → κ} {val : α → β} {m : κ → β} {ops : List α} {k : κ} :
    writeAll key val m ops k = ((lastAt key ops k).map val).getD (m k) := by
  induction ops using List.reverseRecOn with
  | nil => rfl
  | append_singleton ops a ih =>
    rw [writeAll_concat, lastAt_concat]
    by_cases hk : key a = k
    · subst hk
      simp
    · rw [Function.update_of_ne (Ne.symm hk), if_neg hk, ih]

/-- A key that nobody writes to keeps its value. -/
theorem writeAll_of_not_mem {key : α → κ} {val : α → β} {m : κ → β} {ops : List α} {k : κ}
    (hk : ∀ a ∈ ops, key a ≠ k) : writeAll key val m ops k = m k := by
  have hnone : lastAt key ops k = none := by
    apply List.find?_eq_none.mpr
    intro a ha
    simpa using hk a (List.mem_reverse.mp ha)
  rw [writeAll_apply, hnone]
  rfl

/-- A key that one element writes to holds what that element wrote. -/
theorem writeAll_of_mem {key : α → κ} {val : α → β} {m : κ → β} {ops : List α} {a : α}
    (ha : a ∈ ops) (hone : ∀ b ∈ ops, key b = key a → b = a) :
    writeAll key val m ops (key a) = val a := by
  rw [writeAll_apply]
  cases hlast : lastAt key ops (key a) with
  | none =>
    have hnone := List.find?_eq_none.mp hlast a (List.mem_reverse.mpr ha)
    simp at hnone
  | some b =>
    have hb := List.mem_reverse.mp (List.mem_of_find?_eq_some hlast)
    have hkey : key b = key a := by simpa using List.find?_some hlast
    rw [hone b hb hkey]
    rfl

end HumanOS.Lib

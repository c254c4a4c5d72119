import Mathlib.Logic.Function.Basic
import Mathlib.Data.List.Basic

/-!
A circular buffer of `n` cells with one cell kept free: written at the head, read at the tail.
-/
namespace HumanOS.Lib.Ring

variable {α : Type*} {n head tail k : Nat} {buf : Nat → α} {c : α}

/-- How many cells are filled. -/
def size (n head tail : Nat) : Nat := (head + n - tail) % n

/-- The filled cells, the oldest first. -/
def contents (n : Nat) (buf : Nat → α) (head tail : Nat) : List α :=
  (List.range (size n head tail)).map fun k => buf ((tail + k) % n)

/-- A sum of two indices wraps at most once. -/
theorem mod_wrap (hk : k < 2 * n) : k % n = if k < n then k else k - n := by
  split
  · exact Nat.mod_eq_of_lt ‹_›
  · rw [Nat.mod_eq_sub_mod (by omega), Nat.mod_eq_of_lt (by omega)]

theorem size_eq (hh : head < n) (ht : tail < n) :
    size n head tail = if tail ≤ head then head - tail else head + n - tail := by
  rw [size, mod_wrap (by omega)]
  split <;> split <;> omega

@[simp] theorem length_contents : (contents n buf head tail).length = size n head tail := by
  simp [contents]

theorem size_lt (hh : head < n) (ht : tail < n) : size n head tail < n := by
  rw [size_eq hh ht]
  split <;> omega

theorem contents_self (ht : tail < n) : contents n buf tail tail = [] := by
  simp [contents, size_eq ht ht]

/-- The head cannot move on exactly when all cells but one are filled. -/
theorem full_iff (hh : head < n) (ht : tail < n) :
    (head + 1) % n = tail ↔ size n head tail = n - 1 := by
  rw [mod_wrap (by omega), size_eq hh ht]
  split <;> split <;> omega

/-- Writing at the head appends. -/
theorem contents_push (hh : head < n) (ht : tail < n) (hroom : (head + 1) % n ≠ tail) :
    contents n (Function.update buf head c) ((head + 1) % n) tail =
      contents n buf head tail ++ [c] := by
  have hnext : (head + 1) % n < n := Nat.mod_lt _ (by omega)
  have hsize : size n ((head + 1) % n) tail = size n head tail + 1 := by
    rw [size_eq hnext ht, size_eq hh ht]
    rw [mod_wrap (by omega)] at hroom ⊢
    by_cases hlt : head + 1 < n
    · simp only [hlt, if_true] at hroom ⊢
      split <;> split <;> omega
    · simp only [hlt, if_false] at hroom ⊢
      split <;> split <;> omega
  have hlast : (tail + size n head tail) % n = head := by
    rw [size_eq hh ht, mod_wrap (by split <;> omega)]
    split <;> split <;> omega
  rw [contents, hsize, List.range_succ, List.map_append, contents]
  congr 1
  · apply List.map_congr_left
    intro k hk
    have hk' := List.mem_range.mp hk
    have hne : (tail + k) % n ≠ head := by
      rw [size_eq hh ht] at hk'
      rw [mod_wrap (by split at hk' <;> omega)]
      split <;> split at hk' <;> omega
    rw [Function.update_of_ne hne]
  · simp [hlast]

/-- Moving the tail on removes the oldest. -/
theorem contents_pop (hh : head < n) (ht : tail < n) (hne : head ≠ tail) :
    contents n buf head tail = buf tail :: contents n buf head ((tail + 1) % n) := by
  have hnext : (tail + 1) % n < n := Nat.mod_lt _ (by omega)
  have hsize : size n head tail = size n head ((tail + 1) % n) + 1 := by
    rw [size_eq hh hnext, size_eq hh ht, mod_wrap (by omega)]
    split <;> split <;> split <;> omega
  rw [contents, hsize, List.range_succ_eq_map, List.map_cons, List.map_map, contents]
  congr 1
  · rw [Nat.add_zero, Nat.mod_eq_of_lt ht]
  · apply List.map_congr_left
    intro k _
    simp only [Function.comp_apply]
    rw [Nat.mod_add_mod]
    congr 2
    omega

end HumanOS.Lib.Ring

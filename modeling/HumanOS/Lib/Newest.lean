import Mathlib.Data.List.Basic
import Mathlib.Data.Nat.ModEq
import Mathlib.Logic.Function.Basic

/-! Slots that are written round and round, and the entry that each of them holds. -/
namespace HumanOS.Lib

variable {α : Type*} {m n j : Nat} {slots : Nat → α} {entries : List α} {x : α}

/-- Of `n` entries, the newest one in the slot of entry `j`. -/
def newest (m n j : Nat) : Nat := j + m * ((n - 1 - j) / m)

theorem newest_lt (hj : j < n) : newest m n j < n := by
  have hmul := Nat.mul_div_le (n - 1 - j) m
  unfold newest
  omega

/-- An entry is the newest of its slot while at most `m` have come since. -/
theorem newest_self_iff (hm : 0 < m) (hj : j < n) : newest m n j = j ↔ n ≤ j + m := by
  unfold newest
  constructor
  · intro h
    have hmul : m * ((n - 1 - j) / m) = 0 := by omega
    rcases Nat.mul_eq_zero.mp hmul with hzero | hzero
    · omega
    · have hlt := Nat.lt_of_div_eq_zero hm hzero
      omega
  · intro h
    rw [Nat.div_eq_of_lt (by omega), Nat.mul_zero, Nat.add_zero]

theorem newest_same (hj : j ≤ n) (h : j % m = n % m) : newest m (n + 1) j = n := by
  have hdvd : m ∣ n - j := (Nat.modEq_iff_dvd' hj).mp h
  unfold newest
  rw [Nat.add_sub_cancel, Nat.mul_div_cancel' hdvd]
  omega

theorem newest_other (hj : j < n) (h : j % m ≠ n % m) : newest m (n + 1) j = newest m n j := by
  have hdvd : ¬ m ∣ n - j := fun hdvd => h ((Nat.modEq_iff_dvd' hj.le).mpr hdvd)
  have hsucc : n - j = (n - 1 - j) + 1 := by omega
  unfold newest
  rw [Nat.add_sub_cancel, hsucc, Nat.succ_div, if_neg (hsucc ▸ hdvd), Nat.add_zero]

/-- Every slot holds the newest of its entries. -/
def HoldsNewest (m : Nat) (slots : Nat → α) (entries : List α) : Prop :=
  ∀ j < entries.length, entries[newest m entries.length j]? = some (slots (j % m))

theorem HoldsNewest.push (h : HoldsNewest m slots entries) :
    HoldsNewest m (Function.update slots (entries.length % m) x) (entries ++ [x]) := by
  intro j hj
  rw [List.length_append, List.length_singleton] at hj ⊢
  by_cases hslot : j % m = entries.length % m
  · rw [newest_same (by omega) hslot, hslot, Function.update_self]
    simp
  · have hlt : j < entries.length := by
      refine Nat.lt_of_le_of_ne (by omega) ?_
      rintro rfl
      exact hslot rfl
    rw [newest_other hlt hslot, Function.update_of_ne hslot,
      List.getElem?_append_left (newest_lt hlt)]
    exact h j hlt

/-- Reading the slot of an entry gives the entry while it is the newest there, or by accident. -/
theorem HoldsNewest.read_iff (h : HoldsNewest m slots entries) (hm : 0 < m)
    (hj : j < entries.length) :
    entries[j]? = some (slots (j % m)) ↔
      entries.length ≤ j + m ∨ entries[newest m entries.length j]? = entries[j]? := by
  rw [← h j hj]
  constructor
  · intro heq
    exact Or.inr heq.symm
  · rintro (hrecent | heq)
    · rw [(newest_self_iff hm hj).mpr hrecent]
    · exact heq.symm

end HumanOS.Lib

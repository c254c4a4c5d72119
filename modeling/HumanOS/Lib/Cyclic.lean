import Mathlib.Data.Nat.Init

/-! Places on a cycle and how far it is from one to the next. -/
namespace HumanOS.Lib

variable {n c i j k t : Nat}

/-- The steps from `c` round to `i` on a cycle of `n` places; from a place to itself all of them. -/
def gap (n c i : Nat) : Nat := if c < i then i - c else i + n - c

theorem gap_self : gap n c c = n := by
  simp [gap]

theorem gap_pos (hc : c < n) : 0 < gap n c i := by
  unfold gap
  split <;> omega

theorem gap_le (hi : i < n) : gap n c i ≤ n := by
  unfold gap
  split <;> omega

theorem gap_lt (hi : i < n) (hne : i ≠ c) : gap n c i < n := by
  unfold gap
  split <;> omega

/-- Walking `gap n c i` steps from `c` leads to `i`. -/
theorem add_gap_mod (hc : c < n) (hi : i < n) : (c + gap n c i) % n = i := by
  unfold gap
  split
  · rw [show c + (i - c) = i by omega, Nat.mod_eq_of_lt hi]
  · rw [show c + (i + n - c) = i + n by omega, Nat.add_mod_right, Nat.mod_eq_of_lt hi]

/-- No shorter walk does. -/
theorem gap_of_add_mod (hc : c < n) (hk : 0 < k) (hkn : k ≤ n) : gap n c ((c + k) % n) = k := by
  rcases Nat.lt_or_ge (c + k) n with h | h
  · rw [Nat.mod_eq_of_lt h]
    unfold gap
    split <;> omega
  · rw [Nat.mod_eq_sub_mod h, Nat.mod_eq_of_lt (by omega)]
    unfold gap
    split <;> omega

/-- Having walked to a place before `i`, the rest of the way is left. -/
theorem gap_of_gap_lt (hc : c < n) (hi : i < n) (h : gap n c t < gap n c i) :
    gap n t i + gap n c t = gap n c i := by
  unfold gap at h ⊢
  split at h <;> split at h <;> split <;> omega

/-- A place appended to the cycle lengthens the way by at most one step. -/
theorem gap_append_le (h : n ≤ k) : gap k c i ≤ gap n c i + (k - n) := by
  unfold gap
  split <;> omega

/-- Places appended to the cycle come after those already passed. -/
theorem gap_append_mono (h : n ≤ k) (hc : c < n) (hi : i < n) (ht : t < n)
    (hle : gap n c i ≤ gap n c t) : gap k c i ≤ gap k c t := by
  unfold gap at hle ⊢
  split at hle <;> split at hle <;> split <;> omega

end HumanOS.Lib

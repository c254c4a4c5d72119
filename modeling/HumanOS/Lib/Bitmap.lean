import Mathlib.Data.Finset.Card
import Mathlib.Data.Finset.Range
import Mathlib.Logic.Function.Basic
import Mathlib.Tactic.Ring

/-! Arrays of `w`-bit words read as one long sequence of bits. -/
namespace HumanOS.Lib.Bitmap

variable {w : Nat} {m : Nat → BitVec w} {i j k n : Nat}

/-- Bit `i` of the sequence: words in order, least significant bit first. -/
def bit (m : Nat → BitVec w) (i : Nat) : Bool := (m (i / w)).getLsbD (i % w)

def setBit (m : Nat → BitVec w) (i : Nat) : Nat → BitVec w :=
  Function.update m (i / w) (m (i / w) ||| 1#w <<< (i % w))

def clearBit (m : Nat → BitVec w) (i : Nat) : Nat → BitVec w :=
  Function.update m (i / w) (m (i / w) &&& ~~~(1#w <<< (i % w)))

theorem getLsbD_mask (hj : j < w) (hk : k < w) :
    (1#w <<< j).getLsbD k = decide (k = j) := by
  simp only [BitVec.getLsbD_shiftLeft, hk, decide_true, Bool.true_and, BitVec.getLsbD_one]
  by_cases h : k = j
  · subst h
    simp
    omega
  · simp [h]
    omega

/-- Testing a word against a one-bit mask reads that bit. -/
theorem and_mask_eq_zero (x : BitVec w) (hj : j < w) :
    x &&& (1#w <<< j) = 0#w ↔ x.getLsbD j = false := by
  constructor
  · intro h
    have hbit := congrArg (fun y : BitVec w => y.getLsbD j) h
    simpa [BitVec.getLsbD_and, getLsbD_mask hj hj] using hbit
  · intro h
    apply BitVec.eq_of_getLsbD_eq
    intro k hk
    rw [BitVec.getLsbD_and, getLsbD_mask hj hk]
    by_cases hkj : k = j
    · subst hkj
      simp [h]
    · simp [hkj]

theorem same_word (h : k / w = i / w) (hm : k % w = i % w) : k = i := by
  rw [← Nat.div_add_mod k w, ← Nat.div_add_mod i w, h, hm]

theorem bit_setBit (hw : 0 < w) : bit (setBit m i) k = (decide (k = i) || bit m k) := by
  unfold bit setBit
  by_cases hword : k / w = i / w
  · rw [hword, Function.update_self, BitVec.getLsbD_or,
      getLsbD_mask (Nat.mod_lt i hw) (Nat.mod_lt k hw)]
    by_cases hk : k % w = i % w
    · simp [same_word hword hk]
    · have hne : k ≠ i := fun he => hk (by rw [he])
      simp [hk, hne]
  · rw [Function.update_of_ne hword]
    have hne : k ≠ i := fun he => hword (by rw [he])
    simp [hne]

theorem bit_clearBit (hw : 0 < w) : bit (clearBit m i) k = (!decide (k = i) && bit m k) := by
  unfold bit clearBit
  by_cases hword : k / w = i / w
  · rw [hword, Function.update_self, BitVec.getLsbD_and, BitVec.getLsbD_not,
      getLsbD_mask (Nat.mod_lt i hw) (Nat.mod_lt k hw)]
    by_cases hk : k % w = i % w
    · simp [same_word hword hk]
    · have hne : k ≠ i := fun he => hk (by rw [he])
      simp [hk, hne, Nat.mod_lt k hw]
  · rw [Function.update_of_ne hword]
    have hne : k ≠ i := fun he => hword (by rw [he])
    simp [hne]

/-- The bits determine the words. -/
theorem eq_of_bits {m' : Nat → BitVec w} (hw : 0 < w) (h : ∀ k, bit m k = bit m' k) : m = m' := by
  funext i
  apply BitVec.eq_of_getLsbD_eq
  intro j hj
  have hbit := h (w * i + j)
  rwa [bit, bit, Nat.mul_add_div hw, Nat.div_eq_of_lt hj, Nat.add_zero, Nat.mul_add_mod,
    Nat.mod_eq_of_lt hj] at hbit

/-- Clearing a bit that was just set gives back the words. -/
theorem clearBit_setBit (hw : 0 < w) (hb : bit m k = false) : clearBit (setBit m k) k = m := by
  refine eq_of_bits hw fun j => ?_
  rw [bit_clearBit hw, bit_setBit hw]
  by_cases hk : j = k
  · simp [hk, hb]
  · simp [hk]

/-- How many of the first `n` bits are clear. -/
def clearCount (m : Nat → BitVec w) (n : Nat) : Nat :=
  ((Finset.range n).filter fun i => bit m i = false).card

theorem clearCount_le : clearCount m n ≤ n := by
  unfold clearCount
  simpa using Finset.card_filter_le (Finset.range n) fun i => bit m i = false

theorem clearCount_pos : 0 < clearCount m n ↔ ∃ i < n, bit m i = false := by
  simp [clearCount, Finset.card_pos, Finset.filter_nonempty_iff]

theorem clearCount_congr {m' : Nat → BitVec w} (h : ∀ i < n, bit m i = bit m' i) :
    clearCount m n = clearCount m' n := by
  unfold clearCount
  congr 1
  apply Finset.filter_congr
  intro i hi
  rw [h i (Finset.mem_range.mp hi)]

theorem clearCount_eq_self (h : ∀ i < n, bit m i = false) : clearCount m n = n := by
  unfold clearCount
  rw [Finset.filter_true_of_mem (fun i hi => h i (Finset.mem_range.mp hi)), Finset.card_range]

theorem clearCount_eq_zero (h : ∀ i < n, bit m i = true) : clearCount m n = 0 := by
  by_contra hne
  obtain ⟨i, hi, hb⟩ := clearCount_pos.mp (Nat.pos_of_ne_zero hne)
  simp [h i hi] at hb

/-- Set bits at the front are not counted. -/
theorem clearCount_add_le {a : Nat} (ha : a ≤ n) (h : ∀ i < a, bit m i = true) :
    clearCount m n + a ≤ n := by
  have hsub : (Finset.range n).filter (fun i => bit m i = false) ⊆
      (Finset.range n) \ (Finset.range a) := by
    intro i hi
    obtain ⟨hin, hb⟩ := Finset.mem_filter.mp hi
    refine Finset.mem_sdiff.mpr ⟨hin, fun hia => ?_⟩
    simp [h i (Finset.mem_range.mp hia)] at hb
  have hcard := Finset.card_le_card hsub
  rw [Finset.card_sdiff_of_subset (Finset.range_subset_range.mpr ha), Finset.card_range,
    Finset.card_range] at hcard
  unfold clearCount
  omega

/-- Clear bits at the end are counted. -/
theorem le_clearCount_add {a : Nat} (h : ∀ i, a ≤ i → i < n → bit m i = false) :
    n ≤ clearCount m n + a := by
  have hsub : (Finset.range n) \ (Finset.range a) ⊆
      (Finset.range n).filter fun i => bit m i = false := by
    intro i hi
    obtain ⟨hin, hia⟩ := Finset.mem_sdiff.mp hi
    refine Finset.mem_filter.mpr ⟨hin, h i ?_ (Finset.mem_range.mp hin)⟩
    simpa using hia
  have hcard := Finset.card_le_card hsub
  have hle := Finset.le_card_sdiff (Finset.range a) (Finset.range n)
  rw [Finset.card_range, Finset.card_range] at hle
  unfold clearCount
  omega

/-- A clear bit is counted above its place, not at it. -/
theorem clearCount_lt {j : Nat} (hb : bit m i = false) (hij : i < j) :
    clearCount m i < clearCount m j := by
  have hsub : (Finset.range i).filter (fun k => bit m k = false) ⊆
      (Finset.range j).filter fun k => bit m k = false :=
    Finset.filter_subset_filter _ (Finset.range_subset_range.mpr hij.le)
  have hnew : i ∈ (Finset.range j).filter fun k => bit m k = false := by simp [hij, hb]
  exact Finset.card_lt_card ((Finset.ssubset_iff_of_subset hsub).mpr ⟨i, hnew, by simp⟩)

/-- Setting a clear bit below `n` takes one off the count. -/
theorem clearCount_setBit (hw : 0 < w) (hi : i < n) (hb : bit m i = false) :
    clearCount (setBit m i) n + 1 = clearCount m n := by
  have herase : (Finset.range n).filter (fun k => bit (setBit m i) k = false) =
      ((Finset.range n).filter fun k => bit m k = false).erase i := by
    ext k
    simp only [Finset.mem_filter, Finset.mem_erase, bit_setBit hw]
    by_cases hk : k = i <;> simp [hk]
  unfold clearCount
  rw [herase, Finset.card_erase_add_one]
  simp [hi, hb]

/-- Clearing a set bit below `n` adds one to the count. -/
theorem clearCount_clearBit (hw : 0 < w) (hi : i < n) (hb : bit m i = true) :
    clearCount (clearBit m i) n = clearCount m n + 1 := by
  have hclear : bit (clearBit m i) i = false := by simp [bit_clearBit hw]
  have hback := clearCount_setBit hw hi hclear
  rw [← hback]
  congr 1
  apply clearCount_congr
  intro k _
  rw [bit_setBit hw, bit_clearBit hw]
  by_cases hk : k = i <;> simp [hk, hb]

/-- A bounded `for` loop that returns at its first hit. -/
theorem findSome?_range_eq_some {β : Type*} {f : Nat → Option β} {b : β} :
    (List.range n).findSome? f = some b ↔ ∃ i < n, f i = some b ∧ ∀ j < i, f j = none := by
  induction n with
  | zero => simp
  | succ n ih =>
    rw [List.range_succ, List.findSome?_append, Option.or_eq_some_iff, ih]
    simp only [List.findSome?_eq_none_iff, List.mem_range, List.findSome?_singleton]
    constructor
    · rintro (⟨i, hi, hf, hlow⟩ | ⟨hlow, hf⟩)
      · exact ⟨i, by omega, hf, hlow⟩
      · exact ⟨n, by omega, hf, hlow⟩
    · rintro ⟨i, hi, hf, hlow⟩
      by_cases hin : i < n
      · exact Or.inl ⟨i, hin, hf, hlow⟩
      · have he : i = n := by omega
        subst he
        exact Or.inr ⟨hlow, hf⟩

/-- The lowest clear bit among the words `0 .. n - 1`, found word by word. -/
theorem lowest_clear {p : Nat} (hw : 0 < w) (hp : bit m p = false)
    (hlow : ∀ q < p, bit m q = true) :
    (∀ i < p / w, ∀ j < w, (m i).getLsbD j = true) ∧
      (m (p / w)).getLsbD (p % w) = false ∧
      ∀ j < p % w, (m (p / w)).getLsbD j = true := by
  refine ⟨?_, hp, ?_⟩
  · intro i hi j hj
    have hlt : w * i + j < p := by
      have hmul : w * (i + 1) ≤ w * (p / w) := Nat.mul_le_mul_left w hi
      have hdiv := Nat.div_add_mod p w
      rw [Nat.mul_add, Nat.mul_one] at hmul
      omega
    have hbit := hlow _ hlt
    simpa [bit, Nat.mul_add_div hw, Nat.mul_add_mod, Nat.div_eq_of_lt hj,
      Nat.mod_eq_of_lt hj] using hbit
  · intro j hj
    have hdiv := Nat.div_add_mod p w
    have hjw : j < w := lt_trans hj (Nat.mod_lt p hw)
    have hbit := hlow (w * (p / w) + j) (by omega)
    simpa [bit, Nat.mul_add_div hw, Nat.mul_add_mod, Nat.div_eq_of_lt hjw,
      Nat.mod_eq_of_lt hjw] using hbit

end HumanOS.Lib.Bitmap

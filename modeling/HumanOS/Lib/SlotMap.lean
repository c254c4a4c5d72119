import Mathlib.Data.Set.Card

/-! A finite map kept in a fixed number of slots, each empty or holding one key and its value. -/
namespace HumanOS.Lib

variable {ι K V : Type*} {slots slots' : ι → Option (K × V)} {m : K → Option V}
variable {i j : ι} {k : K} {v w : V}

/-- The slots hold the map `m`, no key twice. -/
structure SlotMap (slots : ι → Option (K × V)) (m : K → Option V) : Prop where
  iff : ∀ k v, m k = some v ↔ ∃ i, slots i = some (k, v)
  inj : ∀ i j k v w, slots i = some (k, v) → slots j = some (k, w) → i = j

namespace SlotMap

theorem get (h : SlotMap slots m) (hi : slots i = some (k, v)) : m k = some v :=
  (h.iff k v).mpr ⟨i, hi⟩

theorem eq_none (h : SlotMap slots m) : m k = none ↔ ∀ i v, slots i ≠ some (k, v) := by
  constructor
  · intro hk i v hi
    simp [h.get hi] at hk
  · intro hk
    cases hm : m k with
    | none => rfl
    | some v =>
      obtain ⟨i, hi⟩ := (h.iff k v).mp hm
      exact (hk i v hi).elim

/-- Slots in which no key stands twice hold a map. -/
theorem of_inj (hinj : ∀ i j k v w, slots i = some (k, v) → slots j = some (k, w) → i = j) :
    ∃ m : K → Option V, SlotMap slots m := by
  classical
  refine ⟨fun k => if h : ∃ v i, slots i = some (k, v) then some h.choose else none,
    fun k v => ⟨fun hv => ?_, ?_⟩, hinj⟩
  · by_cases h : ∃ v i, slots i = some (k, v)
    · rw [dif_pos h] at hv
      obtain rfl := Option.some.inj hv
      exact h.choose_spec
    · rw [dif_neg h] at hv
      simp at hv
  · rintro ⟨i, hi⟩
    have h : ∃ v i, slots i = some (k, v) := ⟨v, i, hi⟩
    obtain ⟨j, hj⟩ := h.choose_spec
    obtain rfl := hinj i j k _ _ hi hj
    rw [hi, Option.some.injEq, Prod.mk.injEq] at hj
    rw [dif_pos h, ← hj.2]

variable [DecidableEq ι] [DecidableEq K]

/-- Writing a key into a slot that is empty or holds that key already. -/
theorem write (h : SlotMap slots m) (hkey : m k = none ∨ ∃ w, slots i = some (k, w))
    (hslot : slots i = none ∨ ∃ w, slots i = some (k, w)) :
    SlotMap (Function.update slots i (some (k, v))) (Function.update m k (some v)) := by
  have hother : ∀ j ≠ i, ∀ w, slots j ≠ some (k, w) := by
    intro j hj w hw
    rcases hkey with hnone | ⟨w', hw'⟩
    · exact h.eq_none.mp hnone j w hw
    · exact hj (h.inj j i k w w' hw hw')
  constructor
  · intro k' v'
    by_cases hk : k' = k
    · subst hk
      rw [Function.update_self]
      constructor
      · intro he
        exact ⟨i, by rw [Function.update_self, Option.some.inj he]⟩
      · rintro ⟨j, hj⟩
        by_cases hji : j = i
        · subst hji
          rw [Function.update_self, Option.some.injEq, Prod.mk.injEq] at hj
          rw [hj.2]
        · rw [Function.update_of_ne hji] at hj
          exact (hother j hji v' hj).elim
    · rw [Function.update_of_ne hk, h.iff]
      constructor
      · rintro ⟨j, hj⟩
        have hji : j ≠ i := by
          rintro rfl
          rcases hslot with hnone | ⟨w, hw⟩
          · simp [hnone] at hj
          · rw [hw, Option.some.injEq, Prod.mk.injEq] at hj
            exact hk hj.1.symm
        exact ⟨j, by rwa [Function.update_of_ne hji]⟩
      · rintro ⟨j, hj⟩
        by_cases hji : j = i
        · subst hji
          rw [Function.update_self, Option.some.injEq, Prod.mk.injEq] at hj
          exact (hk hj.1.symm).elim
        · exact ⟨j, by rwa [Function.update_of_ne hji] at hj⟩
  · intro a b k' x y ha hb
    by_cases hai : a = i <;> by_cases hbi : b = i
    · rw [hai, hbi]
    · subst hai
      rw [Function.update_self, Option.some.injEq, Prod.mk.injEq] at ha
      rw [Function.update_of_ne hbi, ← ha.1] at hb
      exact (hother b hbi y hb).elim
    · subst hbi
      rw [Function.update_self, Option.some.injEq, Prod.mk.injEq] at hb
      rw [Function.update_of_ne hai, ← hb.1] at ha
      exact (hother a hai x ha).elim
    · rw [Function.update_of_ne hai] at ha
      rw [Function.update_of_ne hbi] at hb
      exact h.inj a b k' x y ha hb

/-- Emptying the slot of a key. -/
theorem erase (h : SlotMap slots m) (hi : slots i = some (k, v)) :
    SlotMap (Function.update slots i none) (Function.update m k none) := by
  constructor
  · intro k' v'
    by_cases hk : k' = k
    · subst hk
      rw [Function.update_self]
      refine ⟨fun he => by simp at he, ?_⟩
      rintro ⟨j, hj⟩
      by_cases hji : j = i
      · subst hji
        simp at hj
      · rw [Function.update_of_ne hji] at hj
        exact (hji (h.inj j i k' v' v hj hi)).elim
    · rw [Function.update_of_ne hk, h.iff]
      constructor
      · rintro ⟨j, hj⟩
        have hji : j ≠ i := by
          rintro rfl
          rw [hi, Option.some.injEq, Prod.mk.injEq] at hj
          exact hk hj.1.symm
        exact ⟨j, by rwa [Function.update_of_ne hji]⟩
      · rintro ⟨j, hj⟩
        by_cases hji : j = i
        · subst hji
          simp at hj
        · exact ⟨j, by rwa [Function.update_of_ne hji] at hj⟩
  · intro a b k' x y ha hb
    by_cases hai : a = i
    · subst hai
      simp at ha
    · by_cases hbi : b = i
      · subst hbi
        simp at hb
      · rw [Function.update_of_ne hai] at ha
        rw [Function.update_of_ne hbi] at hb
        exact h.inj a b k' x y ha hb

omit [DecidableEq ι] [DecidableEq K]

/-- As many keys as occupied slots. -/
theorem ncard_eq (h : SlotMap slots m) : {k | m k ≠ none}.ncard = {i | slots i ≠ none}.ncard := by
  symm
  refine Set.ncard_congr
    (fun i hi => ((slots i).get (Option.isSome_iff_ne_none.mpr hi)).1) ?_ ?_ ?_
  · intro i hi
    obtain ⟨⟨k, v⟩, hs⟩ := Option.ne_none_iff_exists'.mp hi
    simp [hs, h.get hs]
  · intro i j hi hj he
    obtain ⟨⟨k, v⟩, hs⟩ := Option.ne_none_iff_exists'.mp hi
    obtain ⟨⟨k', v'⟩, hs'⟩ := Option.ne_none_iff_exists'.mp hj
    simp only [hs, hs', Option.get_some] at he
    exact h.inj i j k v v' hs (he ▸ hs')
  · intro k hk
    obtain ⟨v, hv⟩ := Option.ne_none_iff_exists'.mp hk
    obtain ⟨i, hi⟩ := (h.iff k v).mp hv
    exact ⟨i, by simp [hi], by simp [hi]⟩

/-- The map has as many keys as there are slots exactly when no slot is empty. -/
theorem full_iff [Fintype ι] (h : SlotMap slots m) :
    Fintype.card ι ≤ {k | m k ≠ none}.ncard ↔ ∀ i, slots i ≠ none := by
  rw [h.ncard_eq, ← Nat.card_eq_fintype_card, ← Set.ncard_univ]
  constructor
  · intro hle i
    have huniv := Set.eq_of_subset_of_ncard_le (Set.subset_univ {i | slots i ≠ none}) hle
      Set.finite_univ
    have hmem : i ∈ {i | slots i ≠ none} := huniv ▸ Set.mem_univ i
    exact hmem
  · intro hall
    rw [show {i | slots i ≠ none} = Set.univ from Set.eq_univ_of_forall hall]

theorem ncard_le [Fintype ι] (h : SlotMap slots m) :
    {k | m k ≠ none}.ncard ≤ Fintype.card ι := by
  rw [h.ncard_eq, ← Nat.card_eq_fintype_card, ← Set.ncard_univ]
  exact Set.ncard_le_ncard (Set.subset_univ _) Set.finite_univ

end SlotMap

end HumanOS.Lib

import HumanOS.Lib.Run
import HumanOS.Pmm.Model

/-! Counters and bitmap agree in every state the operations reach. -/
namespace HumanOS

open Lib Lib.Bitmap

variable {s t : Pmm} {i k p addr : Nat}

namespace Pmm

/-- The page's bit: true when the page is marked used. -/
def pageUsed (s : Pmm) (i : Nat) : Bool := bit s.bitmap i

/-- The counters are consistent with the bitmap, and the bitmap covers every page. -/
structure Accounted (s : Pmm) : Prop where
  total : s.usedPages + s.freePages = s.totalPages
  free : s.freePages = clearCount s.bitmap s.totalPages
  covered : s.totalPages ≤ 32 * s.bitmapSize
  bound : s.totalPages ≤ 2 ^ 20

/-- Page `i` is the lowest free page. -/
def Lowest (s : Pmm) (i : Nat) : Prop := s.pageUsed i = false ∧ ∀ q < i, s.pageUsed q = true

@[simp] theorem vgaPuts_pageUsed {text : String} {color : Nat} :
    (s.vgaPuts text color).pageUsed i = s.pageUsed i := rfl

@[simp] theorem vgaPuts_totalPages {text : String} {color : Nat} :
    (s.vgaPuts text color).totalPages = s.totalPages := rfl

@[simp] theorem vgaPuts_freePages {text : String} {color : Nat} :
    (s.vgaPuts text color).freePages = s.freePages := rfl

@[simp] theorem take_totalPages : (s.take i).totalPages = s.totalPages := rfl

@[simp] theorem release_totalPages : (s.release i).totalPages = s.totalPages := rfl

theorem mask_test : (s.bitmap (i / 32) &&& (1#32 <<< (i % 32)) = 0#32) ↔ s.pageUsed i = false :=
  and_mask_eq_zero _ (Nat.mod_lt i (by decide))

@[simp] theorem take_pageUsed : (s.take i).pageUsed k = (decide (k = i) || s.pageUsed k) :=
  bit_setBit (m := s.bitmap) (by decide)

@[simp] theorem release_pageUsed :
    (s.release i).pageUsed k = (!decide (k = i) && s.pageUsed k) :=
  bit_clearBit (m := s.bitmap) (by decide)

theorem vgaPuts_accounted {text : String} {color : Nat} (h : s.Accounted) :
    (s.vgaPuts text color).Accounted := ⟨h.total, h.free, h.covered, h.bound⟩

theorem take_accounted (h : s.Accounted) (hi : i < s.totalPages) (hb : s.pageUsed i = false) :
    (s.take i).Accounted := by
  have hcount := clearCount_setBit (by decide) hi hb
  have htotal := h.total
  have hfree := h.free
  have hbound := h.bound
  have hsub : sub32 s.freePages 1 = s.freePages - 1 := sub32_of_le (by omega) (by omega)
  have hadd : add32 s.usedPages 1 = s.usedPages + 1 := add32_of_lt (by omega)
  refine ⟨?_, ?_, h.covered, hbound⟩
  · simp only [take, hsub, hadd]
    omega
  · change sub32 s.freePages 1 = clearCount (setBit s.bitmap i) s.totalPages
    omega

theorem release_accounted (h : s.Accounted) (hi : i < s.totalPages) (hb : s.pageUsed i = true) :
    (s.release i).Accounted := by
  have hcount := clearCount_clearBit (by decide) hi hb
  have hle : clearCount (clearBit s.bitmap i) s.totalPages ≤ s.totalPages := clearCount_le
  have htotal := h.total
  have hfree := h.free
  have hbound := h.bound
  have hsub : sub32 s.usedPages 1 = s.usedPages - 1 := sub32_of_le (by omega) (by omega)
  have hadd : add32 s.freePages 1 = s.freePages + 1 := add32_of_lt (by omega)
  refine ⟨?_, ?_, h.covered, hbound⟩
  · simp only [release, hsub, hadd]
    omega
  · change add32 s.freePages 1 = clearCount (clearBit s.bitmap i) s.totalPages
    omega

end Pmm

open Pmm

theorem scanWord_eq_some {word : BitVec 32} {j : Nat} :
    scanWord word = some j ↔
      j < 32 ∧ word.getLsbD j = false ∧ ∀ k < j, word.getLsbD k = true := by
  unfold scanWord
  split
  · simp only [List.find?_range_eq_some, decide_eq_true_eq, List.mem_range, Bool.not_eq_eq_eq_not,
      Bool.not_true, decide_eq_false_iff_not]
    constructor
    · rintro ⟨hj, hlt, hlow⟩
      refine ⟨hlt, (and_mask_eq_zero word hlt).mp hj, fun k hk => ?_⟩
      simpa using (and_mask_eq_zero word (hk.trans hlt)).not.mp (hlow k hk)
    · rintro ⟨hlt, hj, hlow⟩
      refine ⟨(and_mask_eq_zero word hlt).mpr hj, hlt, fun k hk => ?_⟩
      exact (and_mask_eq_zero word (hk.trans hlt)).not.mpr (by simp [hlow k hk])
  · rename_i hfull
    simp only [ne_eq, Decidable.not_not] at hfull
    subst hfull
    simp only [reduceCtorEq, false_iff, not_and]
    intro hlt hj
    have hones : (0xFFFFFFFF#32).getLsbD j = true := by
      rw [show 0xFFFFFFFF#32 = BitVec.allOnes 32 from rfl, BitVec.getLsbD_allOnes]
      simpa using hlt
    simp [hones] at hj

theorem scanWord_eq_none {word : BitVec 32} :
    scanWord word = none ↔ ∀ j < 32, word.getLsbD j = true := by
  constructor
  · intro h j
    induction j using Nat.strong_induction_on with
    | _ j ih =>
      intro hj
      by_contra hb
      have hsome : scanWord word = some j :=
        scanWord_eq_some.mpr ⟨hj, by simpa using hb, fun k hk => ih k hk (hk.trans hj)⟩
      simp [h] at hsome
  · intro h
    cases hs : scanWord word with
    | none => rfl
    | some j =>
      obtain ⟨hj, hb, -⟩ := scanWord_eq_some.mp hs
      simp [h j hj] at hb

/-- The nested scans find the lowest clear bit of the bitmap. -/
theorem pmmFindFree_eq_some :
    pmmFindFree s = some p ↔ p < 32 * s.bitmapSize ∧ s.Lowest p := by
  simp only [pmmFindFree, findSome?_range_eq_some, Option.map_eq_some_iff, Option.map_eq_none_iff,
    scanWord_eq_some, scanWord_eq_none]
  constructor
  · rintro ⟨i, hi, ⟨j, ⟨hj, hb, hword⟩, rfl⟩, hlow⟩
    have hdiv : (i * 32 + j) / 32 = i := by omega
    have hmod : (i * 32 + j) % 32 = j := by omega
    refine ⟨by omega, by simpa [pageUsed, bit, hdiv, hmod] using hb, fun q hq => ?_⟩
    by_cases hqi : q / 32 = i
    · simpa [pageUsed, bit, hqi] using hword (q % 32) (by omega)
    · exact hlow (q / 32) (by omega) (q % 32) (Nat.mod_lt q (by decide))
  · rintro ⟨hp, hb, hlow⟩
    obtain ⟨hwords, hbit, hbits⟩ := lowest_clear (by decide) hb hlow
    exact ⟨p / 32, by omega, ⟨p % 32, ⟨Nat.mod_lt p (by decide), hbit, hbits⟩, by omega⟩, hwords⟩

theorem exists_lowest (h : s.Accounted) (hf : s.freePages ≠ 0) :
    ∃ p < s.totalPages, s.Lowest p := by
  obtain ⟨i, hi, hb⟩ := clearCount_pos.mp (by rw [← h.free]; omega)
  have hex : ∃ p, s.pageUsed p = false := ⟨i, hb⟩
  refine ⟨Nat.find hex, lt_of_le_of_lt (Nat.find_min' hex hb) hi, Nat.find_spec hex, ?_⟩
  intro q hq
  simpa using Nat.find_min hex hq

theorem Pmm.Lowest.unique (hi : s.Lowest i) (hk : s.Lowest k) : i = k := by
  rcases lt_trichotomy i k with h | h | h
  · simpa [hi.1] using hk.2 i h
  · exact h
  · simpa [hk.1] using hi.2 k h

theorem pmmFindFree_eq_none :
    pmmFindFree s = none ↔ ∀ p < 32 * s.bitmapSize, s.pageUsed p = true := by
  constructor
  · intro hnone p hp
    by_contra hb
    have hex : ∃ q, s.pageUsed q = false := ⟨p, by simpa using hb⟩
    have hlow : s.Lowest (Nat.find hex) :=
      ⟨Nat.find_spec hex, fun q hq => by simpa using Nat.find_min hex hq⟩
    have hle : Nat.find hex ≤ p := Nat.find_min' hex (by simpa using hb)
    have hsome := pmmFindFree_eq_some.mpr ⟨lt_of_le_of_lt hle hp, hlow⟩
    simp [hnone] at hsome
  · intro hall
    cases hfind : pmmFindFree s with
    | none => rfl
    | some p =>
      obtain ⟨hp, hclear, -⟩ := pmmFindFree_eq_some.mp hfind
      simp [hall p hp] at hclear

/-- What the allocator does in any state whatever: it looks at the counter first, and then takes
the lowest clear bit of the words in use, if there is one. -/
theorem pmmAllocPage_any (s : Pmm) :
    (s.freePages = 0 ∧ pmmAllocPage s = (s.vgaPuts "[PMM] Out of memory!\n" 0x1C, 0)) ∨
    (s.freePages ≠ 0 ∧ (∀ p < 32 * s.bitmapSize, s.pageUsed p = true) ∧
      pmmAllocPage s = (s, 0)) ∨
    ∃ p < 32 * s.bitmapSize, s.Lowest p ∧ s.freePages ≠ 0 ∧
      pmmAllocPage s = (s.take p, p * pageSize) := by
  by_cases hf : s.freePages = 0
  · exact Or.inl ⟨hf, by simp [pmmAllocPage, hf]⟩
  · cases hfind : pmmFindFree s with
    | none =>
      have hall := pmmFindFree_eq_none.mp hfind
      exact Or.inr (Or.inl ⟨hf, hall, by simp [pmmAllocPage, hf, hfind]⟩)
    | some p =>
      obtain ⟨hp, hlow⟩ := pmmFindFree_eq_some.mp hfind
      exact Or.inr (Or.inr ⟨p, hp, hlow, hf, by simp [pmmAllocPage, hf, hfind]⟩)

/-- A page that was handed out is the lowest clear one, and not page 0. -/
theorem pmmAllocPage_page (hne : (pmmAllocPage s).2 ≠ 0) :
    ∃ p < 32 * s.bitmapSize, 0 < p ∧ s.Lowest p ∧ s.freePages ≠ 0 ∧
      pmmAllocPage s = (s.take p, p * pageSize) := by
  rcases pmmAllocPage_any s with ⟨-, heq⟩ | ⟨-, -, heq⟩ | ⟨p, hp, hlow, hf, heq⟩
  · simp [heq] at hne
  · simp [heq] at hne
  · refine ⟨p, hp, Nat.pos_of_ne_zero fun hz => hne ?_, hlow, hf, heq⟩
    rw [heq, hz, Nat.zero_mul]

@[simp] theorem pmmAllocPage_totalPages : (pmmAllocPage s).1.totalPages = s.totalPages := by
  rcases pmmAllocPage_any s with ⟨-, heq⟩ | ⟨-, -, heq⟩ | ⟨p, -, -, -, heq⟩ <;> rw [heq]
  · rfl
  · rfl

@[simp] theorem pmmAllocPage_bitmapSize : (pmmAllocPage s).1.bitmapSize = s.bitmapSize := by
  rcases pmmAllocPage_any s with ⟨-, heq⟩ | ⟨-, -, heq⟩ | ⟨p, -, -, -, heq⟩ <;> rw [heq]
  · rfl
  · rfl

/-- A page in use is not touched. -/
theorem pmmAllocPage_keeps (hk : s.pageUsed k = true) : (pmmAllocPage s).1.pageUsed k = true := by
  rcases pmmAllocPage_any s with ⟨-, heq⟩ | ⟨-, -, heq⟩ | ⟨p, -, -, -, heq⟩ <;> rw [heq]
  · exact hk
  · exact hk
  · simp [hk]

/-- With consistent counters the allocator either reports that no page is free, or hands out
the lowest free page, which lies below `total_pages`. -/
theorem pmmAllocPage_cases (h : s.Accounted) :
    (s.freePages = 0 ∧ pmmAllocPage s = (s.vgaPuts "[PMM] Out of memory!\n" 0x1C, 0)) ∨
    ∃ p < s.totalPages, s.Lowest p ∧ s.freePages ≠ 0 ∧
      pmmAllocPage s = (s.take p, p * pageSize) := by
  rcases pmmAllocPage_any s with ⟨hf, heq⟩ | ⟨hf, hall, -⟩ | ⟨p, -, hlow, hf, heq⟩
  · exact Or.inl ⟨hf, heq⟩
  · obtain ⟨p, hp, hlow⟩ := exists_lowest h hf
    have hcovered := h.covered
    have hused := hall p (by omega)
    simp [hlow.1] at hused
  · obtain ⟨q, hq, hqlow⟩ := exists_lowest h hf
    exact Or.inr ⟨p, hlow.unique hqlow ▸ hq, hlow, hf, heq⟩

/-- The state after an allocation depends on nothing but the page found. -/
theorem pmmAllocPage_lowest (h : s.Accounted) (hp : p < s.totalPages) (hlow : s.Lowest p) :
    pmmAllocPage s = (s.take p, p * pageSize) := by
  have hf : s.freePages ≠ 0 := by
    have := clearCount_pos.mpr ⟨p, hp, hlow.1⟩
    rw [← h.free] at this
    omega
  rcases pmmAllocPage_cases h with ⟨hz, -⟩ | ⟨q, -, hq, -, heq⟩
  · exact (hf hz).elim
  · rwa [hlow.unique hq]

theorem pmmFreePage_cases (s : Pmm) (addr : Nat) :
    (addr % pageSize ≠ 0 ∧
      pmmFreePage s addr = s.vgaPuts "[PMM] Invalid address alignment\n" 0x1C) ∨
    (addr % pageSize = 0 ∧ s.pageUsed (addr / pageSize) = false ∧
      pmmFreePage s addr = s.vgaPuts "[PMM] Double free detected\n" 0x1C) ∨
    (addr % pageSize = 0 ∧ s.pageUsed (addr / pageSize) = true ∧
      pmmFreePage s addr = s.release (addr / pageSize)) := by
  by_cases ha : addr % pageSize = 0
  · cases hb : s.pageUsed (addr / pageSize) with
    | false => exact Or.inr (Or.inl ⟨ha, rfl, by simp [pmmFreePage, ha, mask_test, hb]⟩)
    | true => exact Or.inr (Or.inr ⟨ha, rfl, by simp [pmmFreePage, ha, mask_test, hb]⟩)
  · exact Or.inl ⟨ha, by simp [pmmFreePage, ha]⟩

theorem pmmMarkUsed_cases (s : Pmm) (addr : Nat) :
    (s.pageUsed (addr / pageSize) = true ∧ pmmMarkUsed s addr = s) ∨
    (s.pageUsed (addr / pageSize) = false ∧ pmmMarkUsed s addr = s.take (addr / pageSize)) := by
  cases hb : s.pageUsed (addr / pageSize) <;> simp [pmmMarkUsed, mask_test, hb]

theorem pmmMarkFree_cases (s : Pmm) (addr : Nat) :
    (s.pageUsed (addr / pageSize) = false ∧ pmmMarkFree s addr = s) ∨
    (s.pageUsed (addr / pageSize) = true ∧ pmmMarkFree s addr = s.release (addr / pageSize)) := by
  cases hb : s.pageUsed (addr / pageSize) <;> simp [pmmMarkFree, mask_test, hb]

theorem pmmAllocPage_accounted (h : s.Accounted) : (pmmAllocPage s).1.Accounted := by
  rcases pmmAllocPage_cases h with ⟨-, heq⟩ | ⟨p, hp, hlow, -, heq⟩
  · rw [heq]
    exact vgaPuts_accounted h
  · rw [heq]
    exact take_accounted h hp hlow.1

theorem pmmFreePage_accounted (h : s.Accounted) (ha : addr / pageSize < s.totalPages) :
    (pmmFreePage s addr).Accounted := by
  rcases pmmFreePage_cases s addr with ⟨-, heq⟩ | ⟨-, -, heq⟩ | ⟨-, hb, heq⟩
  · rw [heq]
    exact vgaPuts_accounted h
  · rw [heq]
    exact vgaPuts_accounted h
  · rw [heq]
    exact release_accounted h ha hb

theorem pmmMarkUsed_accounted (h : s.Accounted) (ha : addr / pageSize < s.totalPages) :
    (pmmMarkUsed s addr).Accounted := by
  rcases pmmMarkUsed_cases s addr with ⟨-, heq⟩ | ⟨hb, heq⟩
  · rwa [heq]
  · rw [heq]
    exact take_accounted h ha hb

theorem pmmMarkFree_accounted (h : s.Accounted) (ha : addr / pageSize < s.totalPages) :
    (pmmMarkFree s addr).Accounted := by
  rcases pmmMarkFree_cases s addr with ⟨-, heq⟩ | ⟨hb, heq⟩
  · rwa [heq]
  · rw [heq]
    exact release_accounted h ha hb

@[simp] theorem pmmMarkUsed_totalPages : (pmmMarkUsed s addr).totalPages = s.totalPages := by
  rcases pmmMarkUsed_cases s addr with ⟨-, heq⟩ | ⟨-, heq⟩ <;> simp [heq]

@[simp] theorem pmmMarkFree_totalPages : (pmmMarkFree s addr).totalPages = s.totalPages := by
  rcases pmmMarkFree_cases s addr with ⟨-, heq⟩ | ⟨-, heq⟩ <;> simp [heq]

/-- The freshly initialised bitmap is all clear. -/
theorem pmmInit_accounted (s : Pmm) (memSize : Nat) : (pmmInit s memSize).Accounted := by
  have hclear : ∀ n ≤ 32 * (pmmInit s memSize).bitmapSize,
      clearCount (pmmInit s memSize).bitmap n = n := by
    intro n hn
    apply clearCount_eq_self
    intro i hi
    simp only [pmmInit] at hn ⊢
    split at hn <;> rename_i hcap <;> simp only [hcap, if_true, if_false, bit] at hn ⊢ <;>
      rw [if_pos (by omega)] <;> simp
  have hcovered : (pmmInit s memSize).totalPages ≤ 32 * (pmmInit s memSize).bitmapSize := by
    simp only [pmmInit]
    split <;> simp only <;> omega
  refine ⟨?_, ?_, hcovered, ?_⟩
  · simp [pmmInit]
  · rw [hclear _ hcovered]
    rfl
  · simp only [pmmInit]
    split <;> simp only <;> omega

end HumanOS

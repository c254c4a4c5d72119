import HumanOS.Heap.Pages
import HumanOS.Lib.Chain

/-!
# The heap invariant

The blocks of the list own disjoint runs of used pages. Every operation keeps this as long as
new blocks get consecutive pages and a fusion does not make a block outgrow its own pages.
-/
namespace HumanOS

open Lib Pmm

variable {limit need fuel size : Nat} {R : Set Nat} {h h' : Heap} {live bs l r : List Nat}
  {b c n x p a q : Nat}

/-- How many pages a block of that size covers; a header always takes one. -/
def spanOf (size : Nat) : Nat := max 1 ((size + (pageSize - 1)) / pageSize)

namespace Heap

/-- The pages the block at `b` covers. -/
def span (h : Heap) (b : Nat) : Nat := spanOf (h.block b).size

/-- The block list, followed through the headers. -/
def Chain (h : Heap) (bs : List Nat) : Prop :=
  Linked (fun b => (h.block b).next) (fun b => (h.block b).prev) 0 h.head bs

/-- The test of the first-fit walk. -/
def Fits (h : Heap) (need b : Nat) : Prop := (h.block b).used = false ∧ need ≤ (h.block b).size

/-- The page runs of two blocks do not meet. -/
def Apart (h : Heap) (b c : Nat) : Prop :=
  b / pageSize + h.span b ≤ c / pageSize ∨ c / pageSize + h.span c ≤ b / pageSize

end Heap

/-- The listed blocks own disjoint runs of used pages below `limit`, none of them a page of the
other owners `R`, and the pointers handed out are those of listed used blocks. -/
structure HeapInv (limit : Nat) (R : Set Nat) (h : Heap) (live bs : List Nat) : Prop where
  accounted : h.pmm.Accounted
  page0 : h.pmm.pageUsed 0 = true
  reserved : ∀ g ∈ R, h.pmm.pageUsed g = true ∧
    ∀ b ∈ bs, g < b / pageSize ∨ b / pageSize + h.span b ≤ g
  chain : h.Chain bs
  aligned : ∀ b ∈ bs, b % pageSize = 0
  inside : ∀ b ∈ bs, b / pageSize + h.span b ≤ h.pmm.totalPages ∧ b / pageSize + h.span b ≤ limit
  owned : ∀ b ∈ bs, ∀ k < h.span b, h.pmm.pageUsed (b / pageSize + k) = true
  apart : ∀ b ∈ bs, ∀ c ∈ bs, b ≠ c → h.Apart b c
  handed : ∀ p ∈ live, ∃ b ∈ bs, p = b + headerSize ∧ (h.block b).used = true
  nodup : live.Nodup

theorem spanOf_pos : 0 < spanOf size := by
  unfold spanOf
  omega

theorem le_spanOf_mul : size ≤ spanOf size * pageSize := by
  simp only [spanOf, pageSize]
  omega

namespace HeapInv

theorem ne_zero (hi : HeapInv limit R h live bs) (hb : b ∈ bs) : b ≠ 0 := hi.chain.ne_null hb

theorem page_pos (hi : HeapInv limit R h live bs) (hb : b ∈ bs) : 0 < b / pageSize := by
  have hne := hi.ne_zero hb
  have hal := hi.aligned b hb
  simp only [pageSize] at hal ⊢
  omega

theorem page_mul (hi : HeapInv limit R h live bs) (hb : b ∈ bs) : b / pageSize * pageSize = b :=
  Nat.div_mul_cancel (Nat.dvd_of_mod_eq_zero (hi.aligned b hb))

/-- A listed block's bytes end below the last page of 4 GB. -/
theorem size_lt (hi : HeapInv limit R h live bs) (hb : b ∈ bs) :
    h.span b * pageSize + pageSize ≤ 2 ^ 32 := by
  have hpos := hi.page_pos hb
  have hin := (hi.inside b hb).1
  have hbound := hi.accounted.bound
  simp only [pageSize] at hpos hin ⊢
  omega

theorem ptr_lt (hi : HeapInv limit R h live bs) (hb : b ∈ bs) :
    b + headerSize < 2 ^ 32 := by
  have hin := (hi.inside b hb).1
  have hspan : 0 < h.span b := spanOf_pos
  have hbound := hi.accounted.bound
  have hal := hi.aligned b hb
  simp only [pageSize, headerSize] at hin hal ⊢
  omega

theorem pagesFor_eq (hi : HeapInv limit R h live bs) (hb : b ∈ bs) :
    pagesFor (h.block b).size ≤ h.span b ∧
      pagesFor (h.block b).size = ((h.block b).size + (pageSize - 1)) / pageSize := by
  have hlt := hi.size_lt hb
  have hle : (h.block b).size ≤ h.span b * pageSize := le_spanOf_mul
  have heq : pagesFor (h.block b).size = ((h.block b).size + (pageSize - 1)) / pageSize := by
    unfold pagesFor
    rw [add32_of_lt (by simp only [pageSize] at hlt hle ⊢; omega)]
  refine ⟨?_, heq⟩
  rw [heq]
  exact le_max_right _ _

/-- Marking more pages as used disturbs nothing. -/
theorem of_pmm {u : Pmm} (hi : HeapInv limit R h live bs) (hu : u.Accounted)
    (ht : u.totalPages = h.pmm.totalPages)
    (hmono : ∀ k, h.pmm.pageUsed k = true → u.pageUsed k = true) :
    HeapInv limit R { h with pmm := u } live bs where
  accounted := hu
  page0 := hmono 0 hi.page0
  reserved := fun g hg => ⟨hmono g (hi.reserved g hg).1, (hi.reserved g hg).2⟩
  chain := hi.chain
  aligned := hi.aligned
  inside := fun b hb => ⟨ht ▸ (hi.inside b hb).1, (hi.inside b hb).2⟩
  owned := fun b hb k hk => hmono _ (hi.owned b hb k hk)
  apart := hi.apart
  handed := hi.handed
  nodup := hi.nodup

/-- Changing `used` flags keeps every clause but the one about live pointers. -/
theorem of_used {live' : List Nat} (hi : HeapInv limit R h live bs) (hpmm : h'.pmm = h.pmm)
    (hhead : h'.head = h.head)
    (hsize : ∀ x, (h'.block x).size = (h.block x).size)
    (hnext : ∀ x, (h'.block x).next = (h.block x).next)
    (hprev : ∀ x, (h'.block x).prev = (h.block x).prev)
    (hlive : ∀ p ∈ live', ∃ b ∈ bs, p = b + headerSize ∧ (h'.block b).used = true)
    (hnodup : live'.Nodup) : HeapInv limit R h' live' bs := by
  have hspan : ∀ x, h'.span x = h.span x := fun x => by simp [Heap.span, hsize]
  refine ⟨hpmm ▸ hi.accounted, hpmm ▸ hi.page0, ?_, ?_, hi.aligned, ?_, ?_, ?_, hlive, hnodup⟩
  · intro g hg
    simpa [hpmm, hspan] using hi.reserved g hg
  · unfold Heap.Chain
    rw [hhead]
    exact hi.chain.congr (fun b _ => hnext b) (fun b _ => hprev b)
  · intro b hb
    rw [hspan, hpmm]
    exact hi.inside b hb
  · intro b hb k hk
    rw [hspan] at hk
    rw [hpmm]
    exact hi.owned b hb k hk
  · intro b hb c hc hne
    simpa [Heap.Apart, hspan] using hi.apart b hb c hc hne

end HeapInv

section Walks

/-- The walk to the last block ends after one step a block. -/
theorem lastBlock_seg {prev : Nat → Nat}
    (hs : Seg (fun b => (h.block b).next) prev 0 p a (l ++ [b]) q 0) :
    lastBlock h fuel a = if l.length < fuel then some b else none := by
  induction l generalizing p a fuel with
  | nil =>
    obtain ⟨rfl, -, -, -, hnull⟩ := hs
    cases fuel with
    | zero => rfl
    | succ fuel => simp [lastBlock, show (h.block a).next = 0 from hnull]
  | cons d l ih =>
    obtain ⟨rfl, -, -, htail⟩ := hs
    cases fuel with
    | zero => rfl
    | succ fuel =>
      have hne : (h.block a).next ≠ 0 := by
        cases l with
        | nil => exact fun he => htail.2.1 (htail.1.symm.trans he)
        | cons e l => exact fun he => htail.2.1 (htail.1.symm.trans he)
      simp [lastBlock, hne, ih htail]

/-- What the first-fit walk can return: the end of the list only if no listed block fits. -/
theorem findFit_seg
    (hs : Seg (fun b => (h.block b).next) (fun b => (h.block b).prev) 0 p a bs q 0)
    (hf : findFit h need fuel a = some x) :
    (x = 0 ∧ ∀ b ∈ bs, ¬ h.Fits need b) ∨ (x ∈ bs ∧ h.Fits need x) := by
  induction bs generalizing p a fuel with
  | nil =>
    obtain ⟨-, rfl⟩ := hs
    cases fuel with
    | zero => simp [findFit] at hf
    | succ fuel =>
      simp [findFit] at hf
      exact Or.inl ⟨hf.symm, by simp⟩
  | cons d bs ih =>
    obtain ⟨rfl, hne, -, htail⟩ := hs
    cases fuel with
    | zero => simp [findFit] at hf
    | succ fuel =>
      simp only [findFit, hne, if_false] at hf
      split at hf
      · rename_i hfit
        obtain rfl := Option.some.inj hf
        exact Or.inr ⟨by simp, hfit⟩
      · rename_i hfit
        rcases ih htail hf with ⟨hz, hnone⟩ | ⟨hx, hfit'⟩
        · refine Or.inl ⟨hz, fun b hb => ?_⟩
          rcases List.mem_cons.mp hb with rfl | hb
          · exact hfit
          · exact hnone b hb
        · exact Or.inr ⟨by simp [hx], hfit'⟩

/-- The first-fit walk ends after one step a block and one for the end of the list. -/
theorem findFit_terminates
    (hs : Seg (fun b => (h.block b).next) (fun b => (h.block b).prev) 0 p a bs q 0)
    (hf : bs.length < fuel) : ∃ x, findFit h need fuel a = some x := by
  induction bs generalizing p a fuel with
  | nil =>
    obtain ⟨-, rfl⟩ := hs
    cases fuel with
    | zero => simp at hf
    | succ fuel => exact ⟨0, by simp [findFit]⟩
  | cons d bs ih =>
    obtain ⟨rfl, hne, -, htail⟩ := hs
    cases fuel with
    | zero => simp at hf
    | succ fuel =>
      simp only [findFit, hne, if_false]
      split
      · exact ⟨_, rfl⟩
      · exact ih htail (by simpa using hf)

end Walks

end HumanOS

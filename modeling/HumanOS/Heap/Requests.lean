import HumanOS.Heap.Rollback

/-!
# What a request gets

The sizes of a request are computed in 32 bits three times over: rounded up to a multiple of 4,
with the header added, and rounded up to pages. Near `2 ^ 32` each of these wraps round.
-/
namespace HumanOS

open Lib Pmm

variable {h h' : Heap} {b x a f size need fuel : Nat} {u : Pmm}

/-- The pointers of the block list are 32-bit words. -/
structure Heap.Words (h : Heap) : Prop where
  head : h.head < 2 ^ 32
  next : ∀ b, (h.block b).next < 2 ^ 32

/-- Memory that `kmalloc` returns is as large as was asked for: the block's recorded size holds
the request and the header, and a new block, made when the walk found none, has its pages. -/
def GivesEnough (h : Heap) (size : Nat) : Prop :=
  ∀ fuel h' p, kmalloc fuel h size = some (h', p) → p ≠ 0 →
    size + headerSize ≤ (h'.block (sub32 p headerSize)).size ∧
    (findFit h (blockBytes size) fuel h.head = some 0 →
      (h'.block (sub32 p headerSize)).size ≤ (h.pmm.freePages - h'.pmm.freePages) * pageSize)

/-- The request is one whose sizes do not wrap on the path it takes, or it cannot be served. -/
def RequestFits (h : Heap) (size : Nat) : Prop :=
  size = 0 ∨ ∀ fuel b, findFit h (blockBytes size) fuel h.head = some b →
    if b = 0 then
      size + 4112 ≤ 2 ^ 32 ∨ h.pmm.available < pagesAsked size ∨ h.pmm.pageUsed 0 = false
    else size + 19 < 2 ^ 32 ∨ size + headerSize ≤ (h.block b).size ∨ add32 b headerSize = 0

section Sizes

theorem blockBytes_enough (hs : size + 19 < 2 ^ 32) : size + headerSize ≤ blockBytes size := by
  simp only [blockBytes, align4, add32, headerSize]
  omega

/-- From `2 ^ 32 - 19` on, what is left of the size is at most a header. -/
theorem blockBytes_wrapped (hs : 2 ^ 32 ≤ size + 19) (hlt : size < 2 ^ 32) :
    blockBytes size ≤ headerSize := by
  simp only [blockBytes, align4, add32, headerSize]
  omega

theorem pagesAsked_enough (hs : size + 4112 ≤ 2 ^ 32) :
    blockBytes size ≤ pagesAsked size * pageSize := by
  simp only [pagesAsked, pagesFor, blockBytes, align4, add32, headerSize, pageSize]
  omega

/-- From `2 ^ 32 - 4111` on, as long as the header does not wrap, one page is asked for. -/
theorem pagesAsked_wrapped (hs : 2 ^ 32 < size + 4112) (hlt : size + 19 < 2 ^ 32) :
    pagesAsked size * pageSize < blockBytes size := by
  simp only [pagesAsked, pagesFor, blockBytes, align4, add32, headerSize, pageSize]
  omega

/-- From `2 ^ 32 - 4111` on a new block is too small, by its size or by its pages. -/
theorem wrapped_too_small (hs : 2 ^ 32 < size + 4112) (hlt : size < 2 ^ 32)
    (hsize : size + headerSize ≤ blockBytes size) :
    pagesAsked size * pageSize < blockBytes size := by
  by_cases hhead : size + 19 < 2 ^ 32
  · exact pagesAsked_wrapped hs hhead
  · have hless := blockBytes_wrapped (by omega) hlt
    simp only [headerSize] at hsize hless
    omega

end Sizes

section Walks

theorem findFit_word (hw : h.Words) (ha : a < 2 ^ 32) (hf : findFit h need fuel a = some b) :
    b < 2 ^ 32 := by
  induction fuel generalizing a with
  | zero => simp [findFit] at hf
  | succ fuel ih =>
    simp only [findFit] at hf
    split at hf
    · rw [← Option.some.inj hf]
      decide
    · split at hf
      · rwa [← Option.some.inj hf]
      · exact ih (hw.next a) hf

/-- A list that was walked to its end is walked to its end again, with a new header on it. -/
theorem lastBlock_returns (hf : findFit h need fuel a = some 0) (ha : a ≠ 0) :
    ∃ last, lastBlock (h.withBlock u f x) fuel a = some last := by
  induction fuel generalizing a with
  | zero => simp [findFit] at hf
  | succ fuel ih =>
    simp only [findFit, ha, if_false] at hf
    split at hf
    · exact (ha (Option.some.inj hf)).elim
    · by_cases hend : ((h.withBlock u f x).block a).next = 0
      · exact ⟨a, by rw [lastBlock, if_pos hend]⟩
      · have hnext : ((h.withBlock u f x).block a).next = (h.block a).next := by
          by_cases hnew : a = f * pageSize
          · simp [Heap.withBlock, hnew] at hend
          · simp [Heap.withBlock, hnew]
        rw [hnext] at hend
        obtain ⟨last, hlast⟩ := ih hf hend
        exact ⟨last, by rw [lastBlock, hnext, if_neg hend, hlast]⟩

theorem appendBlock_returns (hf : findFit h need fuel h.head = some 0) :
    ∃ h', appendBlock fuel (h.withBlock u f x) (f * pageSize) = some h' := by
  unfold appendBlock
  split
  · exact ⟨_, rfl⟩
  · rename_i hhead
    obtain ⟨last, hlast⟩ := lastBlock_returns (u := u) (f := f) (x := x) hf hhead
    rw [show (h.withBlock u f x).head = h.head from rfl, hlast]
    exact ⟨_, rfl⟩

/-- Appending a block leaves the size in its header. -/
theorem appendBlock_size (ha : appendBlock fuel h b = some h') :
    (h'.block x).size = (h.block x).size := by
  unfold appendBlock at ha
  split at ha
  · rw [← Option.some.inj ha]
  · obtain ⟨last, -, hrest⟩ := Option.bind_eq_some_iff.mp ha
    rw [← Option.some.inj hrest]
    simp only [Heap.modify, Function.update_apply]
    split <;> split <;> simp_all

end Walks

section Create

/-- `create_block` succeeds exactly if the PMM has the pages and page 0 is not one of them. -/
theorem createBlock_served (size : Nat) (hs : h.pmm.Typed) : (createBlock h size).2 ≠ 0 ↔
    pagesAsked size ≤ h.pmm.available ∧ h.pmm.pageUsed 0 = true := by
  have hpos : 1 ≤ pagesAsked size := le_max_left _ _
  rcases createBlock_any size hs with ⟨hnone, u, heq, -⟩ | ⟨-, hclear, heq⟩ |
    ⟨f, hf, hlow, ⟨hle, u, qs, heq, -⟩ | ⟨hless, -, u, qs, -, -, heq⟩⟩
  · exact iff_of_false (by simp [heq]) (by omega)
  · exact iff_of_false (by simp [heq]) (by simp [hclear])
  · refine iff_of_true ?_ ⟨hle, hlow.2 0 hf⟩
    simp only [heq, pageSize]
    omega
  · exact iff_of_false (by simp [heq]) (by omega)

/-- The new block and the pages it cost. -/
theorem createBlock_taken (hs : h.pmm.Typed) (hne : (createBlock h size).2 ≠ 0) :
    ∃ u f, createBlock h size = (h.withBlock u f (blockBytes size), f * pageSize) ∧ f < 2 ^ 20 ∧
      u.freePages + pagesAsked size = h.pmm.freePages := by
  rcases createBlock_any size hs with ⟨-, u, heq, -⟩ | ⟨-, -, heq⟩ |
    ⟨f, -, -, ⟨-, u, qs, heq, htook, hlen⟩ | ⟨-, -, u, qs, -, -, heq⟩⟩
  · simp [heq] at hne
  · simp [heq] at hne
  · have hin := htook.inside f (by simp)
    have hwords := hs.words
    exact ⟨u, f, heq, by omega, hlen ▸ htook.free⟩
  · simp [heq] at hne

/-- The header behind the pointer that `kmalloc` returns. -/
theorem sub32_add32_header (hb : b < 2 ^ 32) : sub32 (add32 b headerSize) headerSize = b := by
  simp only [sub32, add32, headerSize]
  omega

/-- A new block records the bytes computed and has the pages computed. -/
theorem created_size (hs : h.pmm.Typed) (hne : (createBlock h (align4 size)).2 ≠ 0)
    (ha : appendBlock fuel (createBlock h (align4 size)).1 (createBlock h (align4 size)).2 =
      some h') :
    (h'.block (sub32 (add32 (createBlock h (align4 size)).2 headerSize) headerSize)).size =
      blockBytes size ∧ h.pmm.freePages - h'.pmm.freePages = pagesAsked size := by
  obtain ⟨u, f, heq, hf, hfree⟩ := createBlock_taken hs hne
  rw [heq] at ha ⊢
  rw [pagesAsked_align4] at hfree
  have hpmm : h'.pmm = u := (appendBlock_frame ha).1
  refine ⟨?_, by rw [hpmm]; omega⟩
  rw [sub32_add32_header (by simp only [pageSize]; omega), appendBlock_size ha]
  simp [Heap.withBlock, blockBytes_align4]

end Create

section Requests

/-- A request that finds no block and can be served is given a new one. -/
theorem kmalloc_creates (hs : h.pmm.Typed) (hz : size ≠ 0)
    (hfind : findFit h (blockBytes size) fuel h.head = some 0)
    (hpages : pagesAsked size ≤ h.pmm.available) (hpage0 : h.pmm.pageUsed 0 = true) :
    ∃ h' p, kmalloc fuel h size = some (h', p) ∧ p ≠ 0 ∧
      (h'.block (sub32 p headerSize)).size = blockBytes size ∧
      h.pmm.freePages - h'.pmm.freePages = pagesAsked size := by
  have hne : (createBlock h (align4 size)).2 ≠ 0 := by
    refine (createBlock_served (align4 size) hs).mpr ⟨?_, hpage0⟩
    rwa [pagesAsked_align4]
  obtain ⟨u, f, heq, -⟩ := createBlock_taken hs hne
  obtain ⟨h', ha⟩ : ∃ h', appendBlock fuel (createBlock h (align4 size)).1
      (createBlock h (align4 size)).2 = some h' := by
    rw [heq]
    exact appendBlock_returns hfind
  have hk := kmalloc_walk fuel h hz
  rw [hfind, Option.bind_some] at hk
  simp only [ne_eq, not_true_eq_false, if_false, if_neg hne, ha, Option.map_some] at hk
  refine ⟨h', _, hk, ?_, created_size hs hne ha⟩
  rw [heq]
  exact payload_ne_zero

/-- A request that finds a block is given that block. -/
theorem kmalloc_reuses (hz : size ≠ 0) (hb : b ≠ 0)
    (hfind : findFit h (blockBytes size) fuel h.head = some b) :
    kmalloc fuel h size = some (markUsed h b, add32 b headerSize) := by
  rw [kmalloc_walk fuel h hz, hfind, Option.bind_some, if_pos hb]

theorem GivesEnough.requestFits (hall : GivesEnough h size) (hs : h.pmm.Typed) (hw : h.Words)
    (hlt : size < 2 ^ 32) : RequestFits h size := by
  by_cases hz : size = 0
  · exact Or.inl hz
  refine Or.inr fun fuel b hfind => ?_
  by_cases hb : b = 0
  · subst hb
    rw [if_pos rfl]
    by_contra hbad
    simp only [not_or, not_le, not_lt, Bool.not_eq_false] at hbad
    obtain ⟨hlarge, hpages, hpage0⟩ := hbad
    obtain ⟨h', p, hk, hp, hbytes, htaken⟩ := kmalloc_creates hs hz hfind hpages hpage0
    obtain ⟨hsize, hnew⟩ := hall fuel h' p hk hp
    have hroom := hnew hfind
    rw [hbytes] at hsize hroom
    rw [htaken] at hroom
    exact absurd hroom (wrapped_too_small hlarge hlt hsize).not_ge
  · rw [if_neg hb]
    by_cases hnull : add32 b headerSize = 0
    · exact Or.inr (Or.inr hnull)
    · obtain ⟨hsize, -⟩ := hall fuel _ _ (kmalloc_reuses hz hb hfind) hnull
      rw [sub32_add32_header (findFit_word hw hw.head hfind), markUsed_block] at hsize
      exact Or.inr (Or.inl hsize)

theorem RequestFits.givesEnough (hreq : RequestFits h size) (hs : h.pmm.Typed) (hw : h.Words) :
    GivesEnough h size := by
  intro fuel h' p hk hp
  rcases kmalloc_inv hk with ⟨-, -, hp0⟩ | ⟨b, hb, hz, hfind, rfl, rfl⟩ |
    ⟨hz, hfind, ⟨-, -, hp0⟩ | ⟨hne, ha, rfl⟩⟩
  · exact (hp hp0).elim
  · have hcond := hreq.resolve_left hz fuel b hfind
    rw [if_neg hb] at hcond
    rw [sub32_add32_header (findFit_word hw hw.head hfind), markUsed_block]
    refine ⟨?_, fun hnone => ?_⟩
    · rcases hcond with hsmall | hlarge | hnull
      · exact (blockBytes_enough hsmall).trans (findFit_fits hfind hb).2
      · exact hlarge
      · exact (hp hnull).elim
    · rw [hfind] at hnone
      exact (hb (Option.some.inj hnone)).elim
  · exact (hp hp0).elim
  · have hcond := hreq.resolve_left hz fuel 0 hfind
    rw [if_pos rfl] at hcond
    obtain ⟨hpages, hpage0⟩ := (createBlock_served (align4 size) hs).mp hne
    rw [pagesAsked_align4] at hpages
    obtain ⟨hbytes, htaken⟩ := created_size hs hne ha
    rw [hbytes, htaken]
    rcases hcond with hsmall | hless | hclear
    · exact ⟨blockBytes_enough (by omega), fun _ => pagesAsked_enough hsmall⟩
    · omega
    · simp [hclear] at hpage0

end Requests

/-- `kmalloc` gives what was asked for exactly on such requests. -/
theorem kmalloc_enough_iff (hs : h.pmm.Typed) (hw : h.Words) (hlt : size < 2 ^ 32) :
    GivesEnough h size ↔ RequestFits h size :=
  ⟨fun hall => hall.requestFits hs hw hlt, fun hreq => hreq.givesEnough hs hw⟩

theorem smallHeap_words : smallHeap.Words := ⟨by decide, fun _ => Nat.two_pow_pos 32⟩

theorem kmalloc_enough_iff_small :
    (kmalloc 1 smallHeap 100).isSome = true ∧ GivesEnough smallHeap 100 := by
  refine ⟨by decide, (kmalloc_enough_iff smallHeap_typed smallHeap_words (by decide)).mpr ?_⟩
  refine Or.inr fun fuel b _ => ?_
  split
  · exact Or.inl (by decide)
  · exact Or.inl (by decide)

/-- The whole address space but one byte is asked for; a header without room behind it comes
back. -/
theorem kmalloc_gives_header_only :
    ¬ ∀ (h : Heap) (size : Nat), h.pmm.Typed → h.Words → size < 2 ^ 32 → GivesEnough h size := by
  intro hall
  have hvals : (kmalloc 1 smallHeap 0xFFFFFFFF).map (fun r => (r.2, (r.1.block 4096).size)) =
      some (4112, 16) := by decide
  obtain ⟨⟨h', p⟩, hk, hvals⟩ := Option.map_eq_some_iff.mp hvals
  simp only [Prod.mk.injEq] at hvals
  obtain ⟨rfl, hsize⟩ := hvals
  have henough := (hall smallHeap 0xFFFFFFFF smallHeap_typed smallHeap_words (by decide) 1 h' 4112
    hk (by decide)).1
  rw [show sub32 4112 headerSize = 4096 by decide, hsize] at henough
  exact absurd henough (by decide)

end HumanOS

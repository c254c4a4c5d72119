import HumanOS.Heap.Invariant

/-! `kmalloc` keeps the heap invariant when a new block gets consecutive pages. -/
namespace HumanOS

open Lib Pmm

variable {limit need fuel size : Nat} {R : Set Nat} {h h' : Heap} {live bs l r : List Nat}
  {b c n x p a q : Nat}

/-- The size `create_block` writes into the header. -/
def blockBytes (size : Nat) : Nat := add32 (align4 size) headerSize

/-- `create_block` rounds up the size that `kmalloc` has rounded up already. -/
theorem blockBytes_align4 : blockBytes (align4 size) = blockBytes size := by
  simp only [blockBytes, align4, add32]
  omega

/-- A listed free block is large enough, so that `kmalloc` takes no page. -/
def Heap.HasFit (h : Heap) (need : Nat) : Prop := ∃ bs, h.Chain bs ∧ ∃ b ∈ bs, h.Fits need b

/-- Rounding the block up to pages does not wrap, and the pages the allocator would hand out
for it are consecutive. -/
structure PagesFit (limit : Nat) (h : Heap) (size : Nat) : Prop where
  rounds : blockBytes size + (pageSize - 1) < 2 ^ 32
  run : ContiguousBelow limit h.pmm (spanOf (blockBytes size))

/-- The heap after `create_block` has put a block on page `f`. -/
def Heap.withBlock (h : Heap) (u : Pmm) (f bytes : Nat) : Heap :=
  { h with
    pmm := u
    block := Function.update h.block (f * pageSize) ⟨bytes, true, 0, 0⟩
    total := add32 h.total bytes
    used := add32 h.used bytes }

/-- `create_block` fails and changes no page, or takes a run of free pages. -/
theorem createBlock_cases (hacc : h.pmm.Accounted) (hp0 : h.pmm.pageUsed 0 = true)
    (hfit : PagesFit limit h size) :
    (∃ u, createBlock h size = ({ h with pmm := u }, 0) ∧ SamePages h.pmm u) ∨
    (∃ u f, createBlock h size = (h.withBlock u f (blockBytes size), f * pageSize) ∧ 0 < f ∧
      TookRun h.pmm u f (spanOf (blockBytes size)) ∧
      ∀ k < spanOf (blockBytes size),
        f + k < h.pmm.totalPages ∧ f + k < limit ∧ h.pmm.pageUsed (f + k) = false) := by
  rcases pmmAllocPage_cases hacc with ⟨-, halloc⟩ | ⟨f, hf, hlow, hfree, halloc⟩
  · refine Or.inl ⟨h.pmm.vgaPuts "[PMM] Out of memory!\n" 0x1C, ?_, vgaPuts_accounted hacc, rfl,
      fun _ => rfl⟩
    simp [createBlock, halloc]
  · have hpos : 0 < f := by
      rcases Nat.eq_zero_or_pos f with rfl | hpos
      · simp [Lowest, hp0] at hlow
      · exact hpos
    have hpage : f * pageSize ≠ 0 := by simp [pageSize]; omega
    have hrun := hfit.run f hlow
    have hspan : spanOf (blockBytes size) = 1 + (pagesFor (blockBytes size) - 1) := by
      unfold spanOf pagesFor
      rw [add32_of_lt hfit.rounds]
      omega
    have hfirst := (TookRun.zero (f := f) hacc).step hlow.2 hf hlow.1
    rcases allocRest_contiguous (n := pagesFor (blockBytes size) - 1) hfirst.2 (by omega) hlow.2
      (fun k hk => ⟨(hrun k (by omega)).1, (hrun k (by omega)).2.2⟩) with
      ⟨u, hrest, htook⟩ | ⟨u, hrest, hsame⟩
    · rw [Nat.zero_add, ← hspan] at htook
      refine Or.inr ⟨u, f, ?_, hpos, htook, fun k hk => hrun k ?_⟩
      · simp only [Nat.add_zero, Nat.zero_add] at hrest
        unfold blockBytes at hrest
        simp only [createBlock, halloc, hpage, if_false, hrest]
        rfl
      · have hle := htook.free
        omega
    · refine Or.inl ⟨u, ?_, hsame⟩
      simp only [Nat.add_zero, Nat.zero_add] at hrest
      unfold blockBytes at hrest
      simp only [createBlock, halloc, hpage, if_false, hrest]

namespace HeapInv

/-- A page that was free holds no listed block. -/
theorem fresh (hi : HeapInv limit R h live bs) (hclear : h.pmm.pageUsed n = false) :
    n * pageSize ∉ bs := by
  intro hmem
  have hpage : n * pageSize / pageSize = n := Nat.mul_div_cancel _ (by decide)
  have hown := hi.owned _ hmem 0 spanOf_pos
  rw [hpage, Nat.add_zero, hclear] at hown
  simp at hown

/-- A run of free pages lies off every listed block. -/
theorem apart_free {f m : Nat} (hi : HeapInv limit R h live bs) (hm : 0 < m)
    (hclear : ∀ k < m, h.pmm.pageUsed (f + k) = false) (hc : c ∈ bs) :
    c / pageSize + h.span c ≤ f ∨ f + m ≤ c / pageSize := by
  by_contra hmeet
  have hspan : 0 < h.span c := spanOf_pos
  obtain ⟨k, hk, j, hj, he⟩ : ∃ k < m, ∃ j < h.span c, c / pageSize + j = f + k := by
    rcases Nat.lt_or_ge f (c / pageSize) with hlt | hge
    · exact ⟨c / pageSize - f, by omega, 0, hspan, by omega⟩
    · exact ⟨0, hm, f - c / pageSize, by omega, by omega⟩
  have hown := hi.owned c hc j hj
  rw [he, hclear k hk] at hown
  simp at hown

/-- A new block on free pages, listed behind the others. -/
theorem addBlock {u : Pmm} {f bytes : Nat} (hi : HeapInv limit R h live bs)
    (htook : TookRun h.pmm u f (spanOf bytes))
    (hclear : ∀ k < spanOf bytes,
      f + k < h.pmm.totalPages ∧ f + k < limit ∧ h.pmm.pageUsed (f + k) = false)
    (hpmm : h'.pmm = u) (hchain : h'.Chain (bs ++ [f * pageSize]))
    (hnew : (h'.block (f * pageSize)).size = bytes ∧ (h'.block (f * pageSize)).used = true)
    (hold : ∀ c ∈ bs, (h'.block c).size = (h.block c).size ∧
      (h'.block c).used = (h.block c).used) :
    HeapInv limit R h' ((f * pageSize + headerSize) :: live) (bs ++ [f * pageSize]) := by
  have hpage : f * pageSize / pageSize = f := Nat.mul_div_cancel _ (by decide)
  have hspan : ∀ c ∈ bs, h'.span c = h.span c := fun c hc => by simp [Heap.span, hold c hc]
  have hspanNew : h'.span (f * pageSize) = spanOf bytes := by simp [Heap.span, hnew]
  have hpos : 0 < spanOf bytes := spanOf_pos
  have hend := hclear (spanOf bytes - 1) (by omega)
  have hsep : ∀ c ∈ bs, c / pageSize + h.span c ≤ f ∨ f + spanOf bytes ≤ c / pageSize :=
    fun c hc => hi.apart_free hpos (fun k hk => (hclear k hk).2.2) hc
  have hmem : ∀ c, c ∈ bs ++ [f * pageSize] → c ∈ bs ∨ c = f * pageSize := by simp
  refine ⟨hpmm ▸ htook.accounted, ?_, ?_, hchain, ?_, ?_, ?_, ?_, ?_, ?_⟩
  · rw [hpmm, htook.pages, hi.page0, Bool.or_true]
  · intro g hg
    obtain ⟨hused, hapart⟩ := hi.reserved g hg
    refine ⟨by rw [hpmm, htook.pages, hused, Bool.or_true], fun c hc => ?_⟩
    rcases hmem c hc with hc | rfl
    · rw [hspan c hc]
      exact hapart c hc
    · rw [hspanNew, hpage]
      by_contra hin
      have hfree := (hclear (g - f) (by omega)).2.2
      rw [Nat.add_sub_cancel' (by omega), hused] at hfree
      simp at hfree
  · intro c hc
    rcases hmem c hc with hc | rfl
    · exact hi.aligned c hc
    · exact Nat.mul_mod_left _ _
  · intro c hc
    rw [hpmm, htook.total]
    rcases hmem c hc with hc | rfl
    · rw [hspan c hc]
      exact hi.inside c hc
    · rw [hspanNew, hpage]
      omega
  · intro c hc k hk
    rw [hpmm, htook.pages]
    rcases hmem c hc with hc | rfl
    · rw [hspan c hc] at hk
      rw [hi.owned c hc k hk, Bool.or_true]
    · rw [hspanNew] at hk
      simp [hpage, hk]
  · intro c hc d hd hne
    unfold Heap.Apart
    rcases hmem c hc with hc | rfl <;> rcases hmem d hd with hd | rfl
    · rw [hspan c hc, hspan d hd]
      exact hi.apart c hc d hd hne
    · rw [hspan c hc, hspanNew, hpage]
      exact hsep c hc
    · rw [hspan d hd, hspanNew, hpage]
      exact (hsep d hd).symm
    · exact (hne rfl).elim
  · intro p hp
    rcases List.mem_cons.mp hp with rfl | hp
    · exact ⟨f * pageSize, by simp, rfl, hnew.2⟩
    · obtain ⟨b, hb, hpb, hu⟩ := hi.handed p hp
      exact ⟨b, by simp [hb], hpb, by rw [(hold b hb).2, hu]⟩
  · refine List.nodup_cons.mpr ⟨fun hp => ?_, hi.nodup⟩
    obtain ⟨b, hb, hpb, -⟩ := hi.handed _ hp
    have hclear0 := (hclear 0 hpos).2.2
    refine hi.fresh hclear0 ?_
    rw [Nat.add_zero]
    rwa [Nat.add_right_cancel hpb]

end HeapInv

/-- The end of `kmalloc` puts a fresh block behind the last one. -/
theorem appendBlock_chain (hc : h.Chain bs) (hx : x ∉ bs) (hx0 : x ≠ 0)
    (hlink : (h.block x).next = 0 ∧ (h.block x).prev = 0)
    (ha : appendBlock fuel h x = some h') :
    h'.Chain (bs ++ [x]) ∧ h'.pmm = h.pmm ∧
      ∀ c, (h'.block c).size = (h.block c).size ∧ (h'.block c).used = (h.block c).used := by
  rcases List.eq_nil_or_concat bs with rfl | ⟨l, d, rfl⟩
  · have hhead : h.head = 0 := Linked.nil_iff.mp hc
    simp only [appendBlock, hhead, if_true, Option.some.injEq] at ha
    subst ha
    exact ⟨Linked.single hx0 hlink.1 hlink.2, rfl, fun c => ⟨rfl, rfl⟩⟩
  · rw [List.concat_eq_append] at hc hx ⊢
    have hhead : h.head ≠ 0 := by
      intro hz
      cases l with
      | nil => exact hc.ne_null (x := d) (by simp) (hc.head_eq ▸ hz)
      | cons e l => exact hc.ne_null (x := e) (by simp) (hc.head_eq ▸ hz)
    obtain ⟨q, hq⟩ := id hc
    simp only [appendBlock, hhead, if_false, lastBlock_seg hq] at ha
    split at ha
    · simp at ha
      have hdx : d ≠ x := fun he => hx (by simp [he])
      have hblock : ∀ c, h'.block c =
          { h.block c with
            next := if c = d then x else (h.block c).next
            prev := if c = x then d else (h.block c).prev } := by
        intro c
        rw [← ha]
        by_cases hcx : c = x
        · subst hcx
          simp [Heap.modify, hdx.symm]
        · by_cases hcd : c = d
          · subst hcd
            simp [Heap.modify, hcx]
          · simp [Heap.modify, hcx, hcd]
      refine ⟨?_, by rw [← ha]; rfl, fun c => by simp [hblock]⟩
      have hhead' : h'.head = h.head := by rw [← ha]; rfl
      unfold Heap.Chain
      rw [hhead']
      apply Linked.concat hc hx0
      · simp [hblock, hdx.symm, hlink.1]
      · simp [hblock]
      · simp [hblock]
      · intro e he
        have hne : e ≠ d := by
          rintro rfl
          have hdup := hc.nodup
          simp [List.nodup_append] at hdup
          exact hdup.2 e he rfl
        simp [hblock, hne]
      · intro e he
        have hne : e ≠ x := fun heq => hx (heq ▸ he)
        simp [hblock, hne]
    · simp at ha

section Outcomes

/-- The state of `kmalloc` once it has taken a listed block. -/
def markUsed (h : Heap) (b : Nat) : Heap :=
  { h.modify b fun x => { x with used := true } with used := add32 h.used (h.block b).size }

theorem markUsed_block : (markUsed h b).block x =
    { h.block x with used := decide (x = b) || (h.block x).used } := by
  by_cases hx : x = b
  · subst hx
    simp [markUsed, Heap.modify]
  · simp [markUsed, Heap.modify, hx]

/-- The calls of `kmalloc`, once its size is not 0: the walk, then one of three outcomes. -/
theorem kmalloc_walk (fuel : Nat) (h : Heap) (hz : size ≠ 0) : kmalloc fuel h size =
    (findFit h (blockBytes size) fuel h.head).bind fun b =>
      if b ≠ 0 then some (markUsed h b, add32 b headerSize)
      else if (createBlock h (align4 size)).2 = 0 then some ((createBlock h (align4 size)).1, 0)
      else (appendBlock fuel (createBlock h (align4 size)).1 (createBlock h (align4 size)).2).map
        fun h' => (h', add32 (createBlock h (align4 size)).2 headerSize) := by
  simp only [kmalloc, hz, if_false, blockBytes]
  change Option.bind _ _ = _
  congr 1
  funext b
  by_cases hb : b = 0
  · simp only [hb, ne_eq, not_true_eq_false, if_false]
    split
    · rfl
    · cases appendBlock fuel (createBlock h (align4 size)).1 (createBlock h (align4 size)).2 <;> rfl
  · simp [hb, markUsed, Heap.modify]

/-- What a call of `kmalloc` that returns has done. -/
theorem kmalloc_inv (hk : kmalloc fuel h size = some (h', p)) :
    (size = 0 ∧ h' = h ∧ p = 0) ∨
    (∃ b ≠ 0, size ≠ 0 ∧ findFit h (blockBytes size) fuel h.head = some b ∧
      h' = markUsed h b ∧ p = add32 b headerSize) ∨
    size ≠ 0 ∧ findFit h (blockBytes size) fuel h.head = some 0 ∧
      (((createBlock h (align4 size)).2 = 0 ∧ h' = (createBlock h (align4 size)).1 ∧ p = 0) ∨
      ((createBlock h (align4 size)).2 ≠ 0 ∧
        appendBlock fuel (createBlock h (align4 size)).1 (createBlock h (align4 size)).2 = some h' ∧
        p = add32 (createBlock h (align4 size)).2 headerSize)) := by
  by_cases hz : size = 0
  · simp only [kmalloc, hz, if_true, Option.some.injEq, Prod.mk.injEq] at hk
    exact Or.inl ⟨hz, hk.1.symm, hk.2.symm⟩
  · rw [kmalloc_walk fuel h hz] at hk
    obtain ⟨b, hfind, hk⟩ := Option.bind_eq_some_iff.mp hk
    by_cases hb : b = 0
    · subst hb
      simp only [ne_eq, not_true_eq_false, if_false] at hk
      refine Or.inr (Or.inr ⟨hz, hfind, ?_⟩)
      by_cases hnull : (createBlock h (align4 size)).2 = 0
      · rw [if_pos hnull] at hk
        obtain ⟨rfl, rfl⟩ := Prod.mk.inj (Option.some.inj hk)
        exact Or.inl ⟨hnull, rfl, rfl⟩
      · rw [if_neg hnull] at hk
        obtain ⟨h2, ha, hpair⟩ := Option.map_eq_some_iff.mp hk
        obtain ⟨rfl, rfl⟩ := Prod.mk.inj hpair
        exact Or.inr ⟨hnull, ha, rfl⟩
    · simp only [ne_eq, hb, not_false_eq_true, if_true] at hk
      obtain ⟨rfl, rfl⟩ := Prod.mk.inj (Option.some.inj hk)
      exact Or.inr (Or.inl ⟨b, hb, hz, hfind, rfl, rfl⟩)

end Outcomes

section Kmalloc

/-- The pages `kmalloc` needs are there in one run, or it needs none. -/
def AllocFits (limit : Nat) (h : Heap) (size : Nat) : Prop :=
  size = 0 ∨ h.HasFit (blockBytes size) ∨ PagesFit limit h size

/-- Handing out a listed free block again. -/
theorem HeapInv.reuse (hi : HeapInv limit R h live bs) (hb : b ∈ bs)
    (hfree : (h.block b).used = false) (hpmm : h'.pmm = h.pmm) (hhead : h'.head = h.head)
    (hblock : ∀ x, h'.block x = { h.block x with used := decide (x = b) || (h.block x).used }) :
    HeapInv limit R h' ((b + headerSize) :: live) bs := by
  apply hi.of_used hpmm hhead
  · simp [hblock]
  · simp [hblock]
  · simp [hblock]
  · intro p hp
    rcases List.mem_cons.mp hp with rfl | hp
    · exact ⟨b, hb, rfl, by simp [hblock]⟩
    · obtain ⟨c, hc, hpc, hu⟩ := hi.handed p hp
      exact ⟨c, hc, hpc, by simp [hblock, hu]⟩
  · refine List.nodup_cons.mpr ⟨fun hp => ?_, hi.nodup⟩
    obtain ⟨c, -, hpc, hu⟩ := hi.handed _ hp
    rw [← Nat.add_right_cancel hpc, hfree] at hu
    simp at hu

theorem AllocFits.pages (hfit : AllocFits limit h size) (hz : size ≠ 0) (hc : h.Chain bs)
    (hnone : ∀ b ∈ bs, ¬ h.Fits (blockBytes size) b) : PagesFit limit h size := by
  rcases hfit with hzero | ⟨cs, ⟨q, hq⟩, b, hb, hfits⟩ | hpages
  · exact (hz hzero).elim
  · obtain ⟨q', hq'⟩ := hc
    rw [Linked.unique hq hq'] at hb
    exact (hnone b hb hfits).elim
  · exact hpages

/-- A block just created and appended. -/
theorem HeapInv.create {u : Pmm} {f bytes : Nat} (hi : HeapInv limit R h live bs) (hpos : 0 < f)
    (htook : TookRun h.pmm u f (spanOf bytes))
    (hclear : ∀ k < spanOf bytes,
      f + k < h.pmm.totalPages ∧ f + k < limit ∧ h.pmm.pageUsed (f + k) = false)
    (ha : appendBlock fuel (h.withBlock u f bytes) (f * pageSize) = some h') :
    HeapInv limit R h' ((f * pageSize + headerSize) :: live) (bs ++ [f * pageSize]) ∧
      (h'.block (f * pageSize)).size = bytes := by
  have hfresh : f * pageSize ∉ bs := hi.fresh (hclear 0 spanOf_pos).2.2
  have hne : ∀ c ∈ bs, c ≠ f * pageSize := fun c hc he => hfresh (he ▸ hc)
  have hsame : ∀ c ∈ bs, (h.withBlock u f bytes).block c = h.block c := by
    intro c hc
    simp [Heap.withBlock, hne c hc]
  have hchain : (h.withBlock u f bytes).Chain bs :=
    Linked.congr hi.chain (fun c hc => by simp [hsame c hc]) (fun c hc => by simp [hsame c hc])
  have hf0 : f * pageSize ≠ 0 := by
    simp only [pageSize]
    omega
  obtain ⟨hchain', hpmm, hblock⟩ :=
    appendBlock_chain hchain hfresh hf0 (by simp [Heap.withBlock]) ha
  refine ⟨hi.addBlock htook hclear hpmm hchain' ?_ fun c hc => ?_, ?_⟩
  · simp [hblock, Heap.withBlock]
  · simp [hblock, hsame c hc]
  · simp [hblock, Heap.withBlock]

/-- `kmalloc` keeps the invariant, with the returned pointer live and its block large enough. -/
theorem HeapInv.kmalloc (hi : HeapInv limit R h live bs) (hfit : AllocFits limit h size)
    (hk : kmalloc fuel h size = some (h', p)) :
    ∃ bs', HeapInv limit R h' (if p = 0 then live else p :: live) bs' ∧
      (p ≠ 0 → blockBytes size ≤ (h'.block (p - headerSize)).size) := by
  obtain ⟨q, hq⟩ := id hi.chain
  rcases kmalloc_inv hk with ⟨-, rfl, rfl⟩ | ⟨b, hb0, -, hfind, rfl, rfl⟩ | ⟨hz, hfind, hcreate⟩
  · exact ⟨bs, by simpa using hi, by simp⟩
  · rcases findFit_seg hq hfind with ⟨hnull, -⟩ | ⟨hmem, hfree, hsize⟩
    · exact (hb0 hnull).elim
    · rw [add32_of_lt (hi.ptr_lt hmem), if_neg (by simp [headerSize])]
      refine ⟨bs, hi.reuse hmem hfree rfl rfl fun c => markUsed_block, fun _ => ?_⟩
      rwa [Nat.add_sub_cancel, markUsed_block]
  · have hnone : ∀ b ∈ bs, ¬ h.Fits (blockBytes size) b := by
      rcases findFit_seg hq hfind with ⟨-, hnone⟩ | ⟨hmem, -⟩
      · exact hnone
      · exact (hi.ne_zero hmem rfl).elim
    have hpages : PagesFit limit h (align4 size) := by
      have hpages := hfit.pages hz hi.chain hnone
      refine ⟨?_, ?_⟩ <;> rw [blockBytes_align4]
      · exact hpages.rounds
      · exact hpages.run
    rcases createBlock_cases hi.accounted hi.page0 hpages with
      ⟨u, hmade, hsame⟩ | ⟨u, f, hmade, hpos, htook, hclear⟩
    · rw [hmade] at hcreate
      obtain ⟨-, rfl, rfl⟩ | ⟨hne, -⟩ := hcreate
      · exact ⟨bs, hi.of_pmm hsame.accounted hsame.total fun k hk => by rw [hsame.pages, hk],
          by simp⟩
      · exact (hne rfl).elim
    · rw [hmade] at hcreate
      obtain ⟨hnull, -⟩ | ⟨-, happend, rfl⟩ := hcreate
      · simp only [pageSize] at hnull
        omega
      · obtain ⟨hinv, hsize⟩ := hi.create hpos htook hclear happend
        rw [add32_of_lt (hinv.ptr_lt (by simp)), if_neg (by simp [headerSize])]
        refine ⟨_, hinv, fun _ => ?_⟩
        rw [Nat.add_sub_cancel, hsize, blockBytes_align4]

/-- Whatever the other pages are, a new header is written on a page that was free. -/
theorem createBlock_made (hn : (createBlock h size).2 ≠ 0) :
    ∃ u f, createBlock h size = (h.withBlock u f (blockBytes size), f * pageSize) ∧
      f < 32 * h.pmm.bitmapSize ∧ h.pmm.pageUsed f = false ∧ u.pageUsed f = true := by
  by_cases hnull : (pmmAllocPage h.pmm).2 = 0
  · simp [createBlock, hnull] at hn
  · obtain ⟨f, hf, hpos, hlow, -, halloc⟩ := pmmAllocPage_page hnull
    have hpage : f * pageSize ≠ 0 := by
      simp only [pageSize]
      omega
    revert hn
    simp only [createBlock, halloc, hpage, if_false]
    split
    · simp
    · rename_i u hrest
      refine fun _ => ⟨u, f, rfl, hf, hlow.1, ?_⟩
      have hkeep := allocRest_keeps (q := f) (congrArg Prod.snd hrest) (by simp)
      rwa [hrest] at hkeep

/-- The walk to the end of the list, made for a new block, comes to an end. -/
theorem appendBlock_terminates {prev : Nat → Nat}
    (hc : Linked (fun b => (h.block b).next) prev 0 h.head bs) (hf : bs.length ≤ fuel) :
    ∃ h', appendBlock fuel h x = some h' := by
  rcases List.eq_nil_or_concat bs with rfl | ⟨l, d, rfl⟩
  · have hhead : h.head = 0 := Linked.nil_iff.mp hc
    exact ⟨{ h with head := x }, by simp [appendBlock, hhead]⟩
  · rw [List.concat_eq_append] at hc hf
    by_cases hhead : h.head = 0
    · exact ⟨{ h with head := x }, by simp [appendBlock, hhead]⟩
    · obtain ⟨q, hq⟩ := hc
      have hlt : l.length < fuel := by simpa [Nat.add_one_le_iff] using hf
      simp [appendBlock, hhead, lastBlock_seg hq, hlt]

/-- The walk ends even if the new header has been written over a listed one. -/
theorem Heap.Chain.append_terminates {u : Pmm} {f bytes : Nat} (hc : h.Chain bs)
    (hf : bs.length ≤ fuel) :
    ∃ h', appendBlock fuel (h.withBlock u f bytes) (f * pageSize) = some h' := by
  by_cases hmem : f * pageSize ∈ bs
  · obtain ⟨l, r, rfl⟩ := List.append_of_mem hmem
    have hnot : ∀ d ∈ l, d ≠ f * pageSize := by
      rintro d hd rfl
      have hdup := hc.nodup
      simp [List.nodup_append] at hdup
      exact (hdup.2.2 _ hd).1 rfl
    have hcut : Linked (fun b => ((h.withBlock u f bytes).block b).next)
        (fun b => (h.block b).prev) 0 h.head (l ++ [f * pageSize]) :=
      Linked.cut hc (by simp [withBlock]) fun d hd => by simp [withBlock, hnot d hd]
    refine appendBlock_terminates hcut ?_
    rw [List.length_append] at hf ⊢
    simp only [List.length_cons, List.length_nil] at hf ⊢
    omega
  · refine appendBlock_terminates (Linked.congr hc (fun d hd => ?_) fun _ _ => rfl) hf
    have hne : d ≠ f * pageSize := fun he => hmem (he ▸ hd)
    simp [withBlock, hne]

/-- Both walks of `kmalloc` end on a proper list, whatever the pages turn out to be. -/
theorem Heap.Chain.kmalloc_terminates (hc : h.Chain bs) (hf : bs.length < fuel) :
    ∃ r, kmalloc fuel h size = some r := by
  by_cases hz : size = 0
  · exact ⟨(h, 0), by simp [kmalloc, hz]⟩
  · obtain ⟨q, hq⟩ := id hc
    obtain ⟨b, hfind⟩ : ∃ b, findFit h (blockBytes size) fuel h.head = some b :=
      findFit_terminates hq hf
    rw [kmalloc_walk fuel h hz, hfind, Option.bind_some]
    split
    · exact ⟨_, rfl⟩
    · by_cases hnew : (createBlock h (align4 size)).2 = 0
      · rw [if_pos hnew]
        exact ⟨_, rfl⟩
      · obtain ⟨u, f, heq, -⟩ := createBlock_made hnew
        obtain ⟨h2, ha⟩ : ∃ h2, appendBlock fuel (h.withBlock u f (blockBytes (align4 size)))
            (f * pageSize) = some h2 := hc.append_terminates hf.le
        rw [if_neg hnew, heq, ha]
        exact ⟨_, rfl⟩

end Kmalloc

end HumanOS

import HumanOS.Heap.Effects
import HumanOS.Heap.Ownership
import Mathlib.Data.List.Chain

/-!
# The bookkeeping of the block list

The list of blocks and the two counters, whatever the pages behind the blocks are. `kmalloc` and
`kfree` keep them in step with each other as long as a new header is not written over a listed
one.
-/
namespace HumanOS

open Lib Pmm

variable {h h' : Heap} {bs l r : List Nat} {b c n x p fuel size : Nat}

namespace Heap

/-- The sizes of blocks, added up as integers. -/
def sizes (h : Heap) (bs : List Nat) : Nat := (bs.map fun b => (h.block b).size).sum

def usedBlocks (h : Heap) (bs : List Nat) : List Nat := bs.filter fun b => (h.block b).used

def freeBlocks (h : Heap) (bs : List Nat) : List Nat := bs.filter fun b => !(h.block b).used

/-- Of two blocks, one is in use. -/
def Busy (h : Heap) (b c : Nat) : Prop := (h.block b).used = true ∨ (h.block c).used = true

/-- The block list, at addresses of a 4 GB machine. -/
structure Listed (h : Heap) (bs : List Nat) : Prop where
  chain : h.Chain bs
  address : ∀ b ∈ bs, b + headerSize < 2 ^ 32
  words : h.pmm.bitmapSize ≤ 32768

/-- No two free blocks are neighbours in the list. -/
structure Tidy (h : Heap) (bs : List Nat) : Prop extends h.Listed bs where
  settled : bs.IsChain h.Busy

/-- The counters agree with the list. -/
structure Counts (h : Heap) (bs : List Nat) : Prop where
  total : h.total = h.sizes bs % 2 ^ 32
  used : h.used = h.sizes (h.usedBlocks bs) % 2 ^ 32

structure WellFormed (h : Heap) (bs : List Nat) : Prop extends h.Tidy bs, h.Counts bs

/-- The used blocks other than `b` are the same before and after, with their sizes. -/
structure UsedKept (h h' : Heap) (bs bs' : List Nat) (b : Nat) : Prop where
  listed : ∀ c ≠ b, (c ∈ bs' ∧ (h'.block c).used = true) ↔ (c ∈ bs ∧ (h.block c).used = true)
  size : ∀ c ≠ b, c ∈ bs → (h.block c).used = true → (h'.block c).size = (h.block c).size

@[simp] theorem sizes_append : h.sizes (l ++ r) = h.sizes l + h.sizes r := by simp [sizes]

@[simp] theorem sizes_cons : h.sizes (b :: r) = (h.block b).size + h.sizes r := by simp [sizes]

@[simp] theorem sizes_nil : h.sizes [] = 0 := rfl

@[simp] theorem usedBlocks_append : h.usedBlocks (l ++ r) = h.usedBlocks l ++ h.usedBlocks r :=
  List.filter_append ..

theorem usedBlocks_cons_used (hu : (h.block b).used = true) :
    h.usedBlocks (b :: r) = b :: h.usedBlocks r := List.filter_cons_of_pos hu

theorem usedBlocks_cons_free (hu : (h.block b).used = false) :
    h.usedBlocks (b :: r) = h.usedBlocks r := List.filter_cons_of_neg (by simp [hu])

theorem sizes_congr (hsize : ∀ b ∈ bs, (h'.block b).size = (h.block b).size) :
    h'.sizes bs = h.sizes bs := by
  unfold sizes
  rw [List.map_congr_left hsize]

theorem usedBlocks_congr (hused : ∀ b ∈ bs, (h'.block b).used = (h.block b).used) :
    h'.usedBlocks bs = h.usedBlocks bs := List.filter_congr hused

/-- Blocks whose headers are the same weigh the same. -/
theorem usedSizes_congr (hused : ∀ b ∈ bs, (h'.block b).used = (h.block b).used)
    (hsize : ∀ b ∈ bs, (h'.block b).size = (h.block b).size) :
    h'.sizes (h'.usedBlocks bs) = h.sizes (h.usedBlocks bs) := by
  rw [usedBlocks_congr hused]
  exact sizes_congr fun b hb => hsize b (List.mem_of_mem_filter hb)

theorem sizes_split : h.sizes (h.usedBlocks bs) + h.sizes (h.freeBlocks bs) = h.sizes bs := by
  induction bs with
  | nil => rfl
  | cons b bs ih =>
    cases hu : (h.block b).used with
    | true =>
      have hfree : h.freeBlocks (b :: bs) = h.freeBlocks bs :=
        List.filter_cons_of_neg (by simp [hu])
      rw [usedBlocks_cons_used hu, hfree, sizes_cons, sizes_cons]
      omega
    | false =>
      have hfree : h.freeBlocks (b :: bs) = b :: h.freeBlocks bs :=
        List.filter_cons_of_pos (by simp [hu])
      rw [usedBlocks_cons_free hu, hfree, sizes_cons, sizes_cons]
      omega

/-- `heap_get_free` is the size of all free blocks. -/
theorem Counts.free (hc : h.Counts bs) :
    heapGetFree h = h.sizes (h.freeBlocks bs) % 2 ^ 32 := by
  have hsum : h.sizes (h.usedBlocks bs) + h.sizes (h.freeBlocks bs) = h.sizes bs := sizes_split
  rw [heapGetFree, hc.total, hc.used, sub32]
  omega

end Heap

section Frames

theorem fuseNext_frame : (fuseNext h b).total = h.total ∧ (fuseNext h b).used = h.used := by
  unfold fuseNext
  dsimp only
  split
  · split <;> exact ⟨rfl, rfl⟩
  · exact ⟨rfl, rfl⟩

theorem fuseNext_size (hx : x ≠ b) : ((fuseNext h b).block x).size = (h.block x).size := by
  by_cases hcond : (h.block b).next ≠ 0 ∧ (h.block (h.block b).next).used = false
  · rw [fuseNext_block hcond.1 hcond.2, if_neg hx]
  · rw [fuseNext_skip hcond]

/-- Only a free predecessor grows. -/
theorem fusePrev_size (hx : (h.block x).used = true) :
    ((fusePrev h b).block x).size = (h.block x).size := by
  unfold fusePrev
  dsimp only
  split
  · rename_i hcond
    have hne : x ≠ (h.block b).prev := by
      rintro rfl
      simp [hcond.2] at hx
    split <;> simp only [Heap.modify, Function.update_apply] <;> grind
  · rfl

@[simp] theorem fuseNext_busy : (fuseNext h b).Busy = h.Busy := by
  funext c d
  simp [Heap.Busy, fuseNext_used]

@[simp] theorem fusePrev_busy : (fusePrev h b).Busy = h.Busy := by
  funext c d
  simp [Heap.Busy, fusePrev_used]

end Frames

section Kfree

namespace Heap

theorem Listed.markFree (hc : h.Listed bs) : (markFree h b).Listed bs := by
  refine ⟨Linked.congr hc.chain (fun c _ => ?_) (fun c _ => ?_), hc.address, hc.words⟩ <;>
    rw [markFree_block]

theorem Counts.markFree (hc : h.Counts (l ++ b :: r)) (hdup : (l ++ b :: r).Nodup)
    (hu : (h.block b).used = true) : (markFree h b).Counts (l ++ b :: r) := by
  have hsize : ∀ c, ((HumanOS.markFree h b).block c).size = (h.block c).size := fun c => by
    rw [markFree_block]
  have hkeep : ∀ c ≠ b, ((HumanOS.markFree h b).block c).used = (h.block c).used := by
    intro c hcb
    simp [markFree_block, hcb]
  have hfree : ((HumanOS.markFree h b).block b).used = false := by simp [markFree_block]
  refine ⟨hc.total.trans (by rw [sizes_congr fun c _ => hsize c]), ?_⟩
  have hl : ∀ c ∈ l, c ≠ b := by grind
  have hr : ∀ c ∈ r, c ≠ b := by grind
  have hbefore := hc.used
  rw [usedBlocks_append, usedBlocks_cons_used hu, sizes_append, sizes_cons] at hbefore
  rw [usedBlocks_append, usedBlocks_cons_free hfree, sizes_append,
    usedSizes_congr (fun c hcl => hkeep c (hl c hcl)) fun c _ => hsize c,
    usedSizes_congr (fun c hcr => hkeep c (hr c hcr)) fun c _ => hsize c,
    show (HumanOS.markFree h b).used = sub32 h.used (h.block b).size from rfl, hbefore, sub32]
  omega

/-- A free block swallows its free successor. -/
theorem Listed.fuse (hc : h.Listed (l ++ b :: n :: r)) (hn : (h.block n).used = false) :
    (fuseNext h b).Listed (l ++ b :: r) := by
  refine ⟨hc.chain.fuse hn, fun c hcm => hc.address c (by grind), ?_⟩
  exact (fuseNext_kept (bitmapSize_kept _) rfl).trans_le hc.words

theorem Counts.fuse (hs : h.Counts (l ++ b :: n :: r)) (hc : h.Chain (l ++ b :: n :: r))
    (hb : (h.block b).used = false) (hn : (h.block n).used = false) :
    (fuseNext h b).Counts (l ++ b :: r) := by
  have hdup := hc.nodup
  obtain ⟨htotal, hused⟩ := fuseNext_frame (h := h) (b := b)
  have hl : ∀ c ∈ l, c ≠ b := by grind
  have hr : ∀ c ∈ r, c ≠ b := by grind
  have hsize : ((fuseNext h b).block b).size = add32 (h.block b).size (h.block n).size := by
    rw [hc.fuse_block hn, if_pos rfl]
  refine ⟨?_, ?_⟩
  · rw [htotal, hs.total]
    simp only [sizes_append, sizes_cons]
    rw [sizes_congr fun c hcl => fuseNext_size (hl c hcl),
      sizes_congr fun c hcr => fuseNext_size (hr c hcr), hsize, add32]
    omega
  · rw [hused, hs.used, usedBlocks_append, usedBlocks_append, usedBlocks_cons_free hb,
      usedBlocks_cons_free hn, usedBlocks_cons_free (fuseNext_used.trans hb), sizes_append,
      sizes_append,
      usedSizes_congr (fun c _ => fuseNext_used) fun c hcl => fuseNext_size (hl c hcl),
      usedSizes_congr (fun c _ => fuseNext_used) fun c hcr => fuseNext_size (hr c hcr)]

/-- As long as the sizes add up without wrapping round, the block grows and none is lost. -/
theorem Chain.fuse_grows (hc : h.Chain (l ++ b :: n :: r)) (hn : (h.block n).used = false)
    (hsum : h.sizes (l ++ b :: n :: r) < 2 ^ 32) :
    (fuseNext h b).sizes (l ++ b :: r) < 2 ^ 32 ∧
      ((fuseNext h b).block b).size = (h.block b).size + (h.block n).size := by
  have hdup := hc.nodup
  have hl : ∀ c ∈ l, c ≠ b := by grind
  have hr : ∀ c ∈ r, c ≠ b := by grind
  simp only [sizes_append, sizes_cons] at hsum ⊢
  have hsize : ((fuseNext h b).block b).size = (h.block b).size + (h.block n).size := by
    rw [hc.fuse_block hn, if_pos rfl, add32_of_lt (by omega)]
  rw [sizes_congr fun c hcl => fuseNext_size (hl c hcl),
    sizes_congr fun c hcr => fuseNext_size (hr c hcr), hsize]
  omega

/-- The first fusion of `kfree`, taken or not: the block behind is then in use. -/
theorem Listed.fuseNext_settles (hc : h.Listed (l ++ b :: r)) (hb : (h.block b).used = false)
    (hr : r.IsChain h.Busy) :
    ∃ r', (fuseNext h b).Listed (l ++ b :: r') ∧
      (h.Counts (l ++ b :: r) → (fuseNext h b).Counts (l ++ b :: r')) ∧ r'.IsChain h.Busy ∧
      (∀ y ∈ r'.head?, (h.block y).used = true) ∧
      (∀ c, (h.block c).used = true → (c ∈ r' ↔ c ∈ r)) ∧
      (h.sizes (l ++ b :: r) < 2 ^ 32 → (fuseNext h b).sizes (l ++ b :: r') < 2 ^ 32 ∧
        (h.block b).size ≤ ((fuseNext h b).block b).size) := by
  have hnext := Linked.next_eq hc.chain
  cases r with
  | nil =>
    have hskip : fuseNext h b = h := fuseNext_skip fun hcond => hcond.1 hnext
    rw [hskip]
    exact ⟨[], hc, id, hr, by simp, by simp, fun hsum => ⟨hsum, le_rfl⟩⟩
  | cons n r =>
    change (h.block b).next = n at hnext
    cases hn : (h.block n).used with
    | true =>
      have hskip : fuseNext h b = h := fuseNext_skip fun hcond => by simp [hnext, hn] at hcond
      rw [hskip]
      exact ⟨n :: r, hc, id, hr, by simp [hn], by simp, fun hsum => ⟨hsum, le_rfl⟩⟩
    | false =>
      rw [List.isChain_cons] at hr
      refine ⟨r, hc.fuse hn, fun hs => hs.fuse hc.chain hb hn, hr.2, fun y hy => ?_,
        fun c hused => ?_, fun hsum => ?_⟩
      · exact (hr.1 y hy).resolve_left (by simp [hn])
      · have hne : c ≠ n := by
          rintro rfl
          simp [hn] at hused
        simp [hne]
      · obtain ⟨hlt, hsize⟩ := hc.chain.fuse_grows hn hsum
        exact ⟨hlt, by omega⟩

/-- The second fusion, taken or not: the block before is then in use. -/
theorem Listed.fusePrev_settles (hc : h.Listed (l ++ b :: r)) (hb : (h.block b).used = false)
    (hl : l.IsChain h.Busy) :
    ∃ l' m, (fusePrev h b).Listed (l' ++ m :: r) ∧
      (h.Counts (l ++ b :: r) → (fusePrev h b).Counts (l' ++ m :: r)) ∧ (h.block m).used = false ∧
      l'.IsChain h.Busy ∧ (∀ y ∈ l'.getLast?, (h.block y).used = true) ∧
      (∀ c, (h.block c).used = true → (c ∈ l' ↔ c ∈ l)) ∧
      (h.sizes (l ++ b :: r) < 2 ^ 32 → (fusePrev h b).sizes (l' ++ m :: r) < 2 ^ 32 ∧
        (h.block b).size ≤ ((fusePrev h b).block m).size) := by
  rcases List.eq_nil_or_concat l with rfl | ⟨l, q, rfl⟩
  · have hskip : fusePrev h b = h := fusePrev_skip fun hcond => hcond.1 (Linked.prev_head hc.chain)
    rw [hskip]
    exact ⟨[], b, hc, id, hb, hl, by simp, by simp, fun hsum => ⟨hsum, le_rfl⟩⟩
  · have hlist : l.concat q ++ b :: r = l ++ q :: b :: r := by simp
    rw [List.concat_eq_append] at hl ⊢
    rw [hlist] at hc
    obtain ⟨hnext, hprev⟩ := hc.chain.mid
    have hq0 : q ≠ 0 := hc.chain.ne_null (by simp)
    have hb0 : b ≠ 0 := hc.chain.ne_null (by simp)
    cases hq : (h.block q).used with
    | true =>
      have hskip : fusePrev h b = h := fusePrev_skip fun hcond => by simp [hprev, hq] at hcond
      rw [hskip]
      exact ⟨l ++ [q], b, by simpa using hc, id, hb, hl, by simp [hq], by simp,
        fun hsum => ⟨hsum, le_rfl⟩⟩
    | false =>
      rw [fusePrev_eq_fuseNext hprev hq0 hq hnext hb0 hb]
      rw [List.isChain_append] at hl
      refine ⟨l, q, hc.fuse hb, fun hs => ?_, hq, hl.1, fun y hy => ?_, fun c hused => ?_,
        fun hsum => ?_⟩
      · rw [List.append_assoc, List.singleton_append] at hs
        exact hs.fuse hc.chain hq hb
      · exact (hl.2.2 y hy q (by simp)).resolve_right (by simp [hq])
      · have hne : c ≠ q := by
          rintro rfl
          simp [hq] at hused
        simp [hne]
      · obtain ⟨hlt, hsize⟩ := hc.chain.fuse_grows hb (by rwa [← hlist, List.concat_eq_append])
        exact ⟨hlt, by omega⟩

/-- Lists without free neighbours may be joined by a block whose neighbours are in use. -/
theorem settled_join (hl : l.IsChain h.Busy) (hr : r.IsChain h.Busy)
    (hbefore : ∀ y ∈ l.getLast?, (h.block y).used = true)
    (hbehind : ∀ y ∈ r.head?, (h.block y).used = true) : (l ++ b :: r).IsChain h.Busy := by
  rw [List.isChain_append, List.isChain_cons]
  exact ⟨hl, ⟨fun y hy => Or.inr (hbehind y hy), hr⟩, fun x hx _ _ => Or.inl (hbefore x hx)⟩

theorem markFree_settled (hb : b ∉ l) (hl : l.IsChain h.Busy) :
    l.IsChain (HumanOS.markFree h b).Busy := by
  refine hl.imp_of_mem_imp fun x y hx hy hbusy => ?_
  have hxb : x ≠ b := fun he => hb (he ▸ hx)
  have hyb : y ≠ b := fun he => hb (he ▸ hy)
  simpa [Busy, markFree_block, hxb, hyb] using hbusy

/-- `kfree` of a used listed block, in all four cases of fusion. The block that then holds its
bytes is free and, if the sizes add up without wrapping round, no smaller. -/
theorem Tidy.kfree (ht : h.Tidy bs) (hb : b ∈ bs) (hu : (h.block b).used = true) :
    ∃ bs', (kfree h (b + headerSize)).Tidy bs' ∧
      (h.Counts bs → (kfree h (b + headerSize)).Counts bs') ∧
      UsedKept h (kfree h (b + headerSize)) bs bs' b ∧
      ((kfree h (b + headerSize)).block b).used = false ∧
      (h.sizes bs < 2 ^ 32 → ∃ m ∈ bs', (kfree h (b + headerSize)).Fits (h.block b).size m) := by
  rw [kfree_eq (ht.address b hb) hu]
  obtain ⟨l, r, rfl⟩ := List.append_of_mem hb
  have hdup := ht.chain.nodup
  have hchain := ht.settled
  rw [List.isChain_append] at hchain
  have hl := markFree_settled (b := b) (by grind) hchain.1
  have hr := markFree_settled (b := b) (by grind) (List.isChain_of_isChain_cons hchain.2.1)
  have hfree : ((HumanOS.markFree h b).block b).used = false := by simp [markFree_block]
  have hsame : ∀ c, ((HumanOS.markFree h b).block c).size = (h.block c).size := fun c => by
    rw [markFree_block]
  obtain ⟨r', hnext, hcount, hr', hbehind, hmemr, hgrow⟩ :=
    ht.toListed.markFree.fuseNext_settles hfree hr
  obtain ⟨l', m, hprev, hcount', hm, hl', hbefore, hmeml, hgrow'⟩ :=
    hnext.fusePrev_settles (fuseNext_used.trans hfree) (by simpa using hl)
  simp only [fuseNext_busy, fuseNext_used] at hm hl' hbefore hmeml
  have hflag : ∀ c, ((fusePrev (fuseNext (HumanOS.markFree h b) b) b).block c).used =
      ((HumanOS.markFree h b).block c).used := fun c => fusePrev_used.trans fuseNext_used
  refine ⟨l' ++ m :: r', ⟨hprev, ?_⟩, fun hs => hcount' (hcount (hs.markFree hdup hu)),
    ⟨fun c hcb => ?_, fun c hcb _ hused => ?_⟩, ?_, fun hsum => ?_⟩
  · simpa using settled_join hl' hr' hbefore hbehind
  · have hkeep : ((HumanOS.markFree h b).block c).used = (h.block c).used := by
      simp [markFree_block, hcb]
    rw [hflag, hkeep]
    refine and_congr_left fun hused => ?_
    have hcm : c ≠ m := by
      rintro rfl
      rw [hkeep, hused] at hm
      simp at hm
    rw [← hkeep] at hused
    simp [hcb, hcm, hmeml c hused, hmemr c hused]
  · have hkeep : ((HumanOS.markFree h b).block c).used = true := by
      simpa [markFree_block, hcb] using hused
    rw [fusePrev_size (fuseNext_used.trans hkeep), fuseNext_size hcb, hsame]
  · rw [hflag, hfree]
  · rw [← sizes_congr fun c _ => hsame c] at hsum
    obtain ⟨hlt, hle⟩ := hgrow hsum
    obtain ⟨-, hle'⟩ := hgrow' hlt
    rw [hsame] at hle
    exact ⟨m, by simp, by rw [hflag, hm], by omega⟩

end Heap

end Kfree

section Kmalloc

namespace Heap

/-- The pages a call has taken hold no listed header. -/
def FreshPages (h h' : Heap) (bs : List Nat) : Prop :=
  ∀ page, h.pmm.pageUsed page = false → h'.pmm.pageUsed page = true →
    ∀ b ∈ bs, b / pageSize ≠ page

/-- The pointer is that of a listed block, newly in use and large enough. -/
def Handed (h h' : Heap) (bs bs' : List Nat) (bytes p : Nat) : Prop :=
  ∃ b ∈ bs', p = b + headerSize ∧ (h'.block b).used = true ∧ bytes ≤ (h'.block b).size ∧
    (b ∈ bs → (h.block b).used = false)

/-- Handing out a listed free block. -/
theorem Tidy.markUsed (ht : h.Tidy bs) : (markUsed h b).Tidy bs := by
  refine ⟨⟨Linked.congr ht.chain (fun c _ => ?_) (fun c _ => ?_), ht.address, ht.words⟩, ?_⟩
  · rw [markUsed_block]
  · rw [markUsed_block]
  · refine ht.settled.imp fun x y hbusy => ?_
    simp only [Busy, markUsed_block, Bool.or_eq_true] at hbusy ⊢
    exact hbusy.imp Or.inr Or.inr

theorem Counts.markUsed (hs : h.Counts bs) (hdup : bs.Nodup) (hb : b ∈ bs)
    (hfree : (h.block b).used = false) : (markUsed h b).Counts bs := by
  obtain ⟨l, r, rfl⟩ := List.append_of_mem hb
  have hsize : ∀ c, ((HumanOS.markUsed h b).block c).size = (h.block c).size := fun c => by
    rw [markUsed_block]
  have hkeep : ∀ c ≠ b, ((HumanOS.markUsed h b).block c).used = (h.block c).used := by
    intro c hcb
    simp [markUsed_block, hcb]
  have hset : ((HumanOS.markUsed h b).block b).used = true := by simp [markUsed_block]
  refine ⟨hs.total.trans (by rw [sizes_congr fun c _ => hsize c]), ?_⟩
  have hl : ∀ c ∈ l, c ≠ b := by grind
  have hr : ∀ c ∈ r, c ≠ b := by grind
  have hbefore := hs.used
  rw [usedBlocks_append, usedBlocks_cons_free hfree, sizes_append] at hbefore
  rw [usedBlocks_append, usedBlocks_cons_used hset, sizes_append, sizes_cons, hsize,
    usedSizes_congr (fun c hcl => hkeep c (hl c hcl)) fun c _ => hsize c,
    usedSizes_congr (fun c hcr => hkeep c (hr c hcr)) fun c _ => hsize c,
    show (HumanOS.markUsed h b).used = add32 h.used (h.block b).size from rfl, hbefore, add32]
  omega

/-- A new block behind the others. -/
theorem Tidy.append {u : Pmm} {f bytes : Nat} (ht : h.Tidy bs) (hf : 0 < f ∧ f < 2 ^ 20)
    (hfresh : f * pageSize ∉ bs) (hwords : u.bitmapSize ≤ 32768)
    (ha : appendBlock fuel (h.withBlock u f bytes) (f * pageSize) = some h') :
    h'.Tidy (bs ++ [f * pageSize]) ∧ (h.Counts bs → h'.Counts (bs ++ [f * pageSize])) ∧
      (h'.block (f * pageSize)).size = bytes ∧ (h'.block (f * pageSize)).used = true ∧
      ∀ c ∈ bs, (h'.block c).size = (h.block c).size ∧ (h'.block c).used = (h.block c).used := by
  have hne : ∀ c ∈ bs, c ≠ f * pageSize := fun c hc he => hfresh (he ▸ hc)
  have hsame : ∀ c ∈ bs, (h.withBlock u f bytes).block c = h.block c := by
    intro c hc
    simp [withBlock, hne c hc]
  have hchain : (h.withBlock u f bytes).Chain bs :=
    Linked.congr ht.chain (fun c hc => by simp [hsame c hc]) (fun c hc => by simp [hsame c hc])
  have hf0 : f * pageSize ≠ 0 := by
    simp only [pageSize]
    omega
  obtain ⟨hchain', -, hblock⟩ := appendBlock_chain hchain hfresh hf0 (by simp [withBlock]) ha
  obtain ⟨hpmm, htotal, hused⟩ := appendBlock_frame ha
  have hold : ∀ c ∈ bs, (h'.block c).size = (h.block c).size ∧
      (h'.block c).used = (h.block c).used := fun c hc => by simp [hblock, hsame c hc]
  have hnewSize : (h'.block (f * pageSize)).size = bytes := by simp [hblock, withBlock]
  have hnewUsed : (h'.block (f * pageSize)).used = true := by simp [hblock, withBlock]
  refine ⟨⟨⟨hchain', fun c hc => ?_, ?_⟩, ?_⟩, fun hs => ⟨?_, ?_⟩, hnewSize, hnewUsed, hold⟩
  · rcases List.mem_append.mp hc with hc | hc
    · exact ht.address c hc
    · rw [List.mem_singleton.mp hc]
      simp only [pageSize, headerSize]
      omega
  · rw [hpmm]
    exact hwords
  · refine List.isChain_append.mpr ⟨?_, List.isChain_singleton _, fun x _ y hy => ?_⟩
    · refine ht.settled.imp_of_mem_imp fun x y hx hy hbusy => ?_
      rwa [Busy, (hold x hx).2, (hold y hy).2]
    · simp only [List.head?_cons, Option.mem_def, Option.some.injEq] at hy
      exact Or.inr (hy ▸ hnewUsed)
  · rw [htotal, sizes_append, sizes_cons, sizes_nil, hnewSize,
      sizes_congr fun c hc => (hold c hc).1,
      show (h.withBlock u f bytes).total = add32 h.total bytes from rfl, hs.total, add32]
    omega
  · rw [hused, usedBlocks_append, usedBlocks_cons_used hnewUsed, sizes_append, sizes_cons, hnewSize,
      usedSizes_congr (fun c hc => (hold c hc).2) fun c hc => (hold c hc).1,
      show (h.withBlock u f bytes).used = add32 h.used bytes from rfl, hs.used, add32]
    simp [usedBlocks]

/-- Blocks that keep size and flag are kept. -/
theorem UsedKept.of_same {bs' : List Nat} (hmem : ∀ c ≠ b, c ∈ bs' ↔ c ∈ bs)
    (hused : ∀ c ≠ b, c ∈ bs → (h'.block c).used = (h.block c).used)
    (hsize : ∀ c ≠ b, c ∈ bs → (h'.block c).size = (h.block c).size) :
    UsedKept h h' bs bs' b := by
  refine ⟨fun c hcb => ?_, fun c hcb hc _ => hsize c hcb hc⟩
  rw [hmem c hcb]
  exact and_congr_right fun hc => by rw [hused c hcb hc]

/-- `kmalloc` in each of its outcomes. -/
theorem Tidy.kmalloc (ht : h.Tidy bs) (hk : kmalloc fuel h size = some (h', p))
    (hfresh : FreshPages h h' bs) :
    ∃ bs', h'.Tidy bs' ∧ (h.Counts bs → h'.Counts bs') ∧ UsedKept h h' bs bs' (p - headerSize) ∧
      (p ≠ 0 → Handed h h' bs bs' (blockBytes size) p) := by
  obtain ⟨q, hq⟩ := id ht.chain
  rcases kmalloc_inv hk with ⟨-, rfl, rfl⟩ | ⟨b, hb0, -, hfind, rfl, rfl⟩ |
    ⟨-, -, ⟨hnull, rfl, rfl⟩ | ⟨hmade, happend, rfl⟩⟩
  · exact ⟨bs, ht, id, .of_same (fun _ _ => Iff.rfl) (fun _ _ _ => rfl) (fun _ _ _ => rfl), by simp⟩
  · rcases findFit_seg hq hfind with ⟨hnull, -⟩ | ⟨hmem, hfree, hsize⟩
    · exact (hb0 hnull).elim
    · rw [add32_of_lt (ht.address b hmem), Nat.add_sub_cancel]
      refine ⟨bs, ht.markUsed, fun hs => hs.markUsed ht.chain.nodup hmem hfree,
        .of_same (fun _ _ => Iff.rfl) (fun c hcb _ => ?_) (fun c _ _ => ?_),
        fun _ => ⟨b, hmem, rfl, ?_, ?_, fun _ => hfree⟩⟩
      · simp [markUsed_block, hcb]
      · rw [markUsed_block]
      · simp [markUsed_block]
      · rwa [markUsed_block]
  · rw [createBlock_null hnull]
    refine ⟨bs, ⟨⟨ht.chain, ht.address, ?_⟩, ht.settled⟩, fun hs => ⟨hs.total, hs.used⟩,
      .of_same (fun _ _ => Iff.rfl) (fun _ _ _ => rfl) (fun _ _ _ => rfl), by simp⟩
    exact (createBlock_kept (bitmapSize_kept _) rfl).trans_le ht.words
  · obtain ⟨u, f, heq, hf, hclear, hset⟩ := createBlock_made hmade
    have hwords : (createBlock h (align4 size)).1.pmm.bitmapSize = h.pmm.bitmapSize :=
      createBlock_kept (bitmapSize_kept _) rfl
    have hlimit := ht.words
    rw [heq] at happend hwords hmade ⊢
    have hpos : 0 < f := Nat.pos_of_ne_zero fun hz => hmade (by simp [hz])
    have hpmm := (appendBlock_frame happend).1
    have hnew : f * pageSize ∉ bs := fun hmem =>
      hfresh f hclear (by rw [hpmm]; exact hset) _ hmem (Nat.mul_div_cancel _ (by decide))
    obtain ⟨htidy, hcount, hsize, hused, hold⟩ :=
      ht.append ⟨hpos, by omega⟩ hnew (hwords.trans_le hlimit) happend
    rw [add32_of_lt (htidy.address _ (by simp)), Nat.add_sub_cancel]
    refine ⟨_, htidy, hcount, .of_same (fun c hcb => by simp [hcb]) (fun c _ hc => (hold c hc).2)
      (fun c _ hc => (hold c hc).1), fun _ => ⟨_, by simp, rfl, hused, ?_, fun hmem => ?_⟩⟩
    · rw [hsize, blockBytes_align4]
    · exact (hnew hmem).elim

end Heap

end Kmalloc

/-- The list and the counters of a well-formed heap stay well formed: `kmalloc` returns, and
both it and `kfree` of a used block keep the other used blocks as they are. -/
theorem heap_bookkeeping (hw : h.WellFormed bs) :
    (∀ fuel size, bs.length < fuel → ∃ r, kmalloc fuel h size = some r) ∧
    (∀ fuel size h' p, kmalloc fuel h size = some (h', p) → h.FreshPages h' bs →
      ∃ bs', h'.WellFormed bs' ∧ h.UsedKept h' bs bs' (p - headerSize) ∧
        (p ≠ 0 → h.Handed h' bs bs' (blockBytes size) p) ∧
        heapGetFree h' = h'.sizes (h'.freeBlocks bs') % 2 ^ 32) ∧
    (∀ b ∈ bs, (h.block b).used = true →
      ∃ bs', (kfree h (b + headerSize)).WellFormed bs' ∧
        h.UsedKept (kfree h (b + headerSize)) bs bs' b ∧
        ((kfree h (b + headerSize)).block b).used = false ∧
        heapGetFree (kfree h (b + headerSize)) =
          (kfree h (b + headerSize)).sizes ((kfree h (b + headerSize)).freeBlocks bs') % 2 ^ 32) ∧
    heapGetFree h = h.sizes (h.freeBlocks bs) % 2 ^ 32 := by
  refine ⟨fun fuel size hf => hw.chain.kmalloc_terminates hf, fun fuel size h' p hk hfresh => ?_,
    fun b hb hu => ?_, hw.free⟩
  · obtain ⟨bs', htidy, hcount, hkept, hhanded⟩ := hw.toTidy.kmalloc hk hfresh
    have hs := hcount hw.toCounts
    exact ⟨bs', ⟨htidy, hs⟩, hkept, hhanded, hs.free⟩
  · obtain ⟨bs', htidy, hcount, hkept, hfree, -⟩ := hw.toTidy.kfree hb hu
    have hs := hcount hw.toCounts
    exact ⟨bs', ⟨htidy, hs⟩, hkept, hfree, hs.free⟩

/-- Four blocks on the small machine, the first and the third given back. -/
theorem smallHeap_neighbours : ∃ h : Heap,
    (h.head = 4096 ∧ h.block 4096 = ⟨116, false, 8192, 0⟩ ∧
      h.block 8192 = ⟨216, true, 12288, 4096⟩ ∧ h.block 12288 = ⟨116, false, 16384, 8192⟩ ∧
      h.block 16384 = ⟨68, true, 0, 12288⟩) ∧
    (h.total = 516 ∧ h.used = 284 ∧ h.pmm.bitmapSize = 2) ∧
    (∀ page ∈ [1, 2, 3, 4], h.pmm.pageUsed page = true) ∧
    (kmalloc 5 h 60).map Prod.snd = some 4112 := by
  have hvals : ((⟨smallHeap, []⟩ : HeapRun).exec 5 [.kmalloc 100, .kmalloc 200, .kmalloc 100,
      .kmalloc 50, .kfree 4112, .kfree 12304]).map (fun t =>
        ((t.heap.head, [4096, 8192, 12288, 16384].map t.heap.block),
          (t.heap.total, t.heap.used, t.heap.pmm.bitmapSize),
          [1, 2, 3, 4].map t.heap.pmm.pageUsed, (kmalloc 5 t.heap 60).map Prod.snd)) =
      some ((4096, [⟨116, false, 8192, 0⟩, ⟨216, true, 12288, 4096⟩, ⟨116, false, 16384, 8192⟩,
        ⟨68, true, 0, 12288⟩]), (516, 284, 2), [true, true, true, true], some 4112) := by
    decide +kernel
  obtain ⟨⟨h, live⟩, -, hvals⟩ := Option.map_eq_some_iff.mp hvals
  simp only [List.map_cons, List.map_nil, Prod.mk.injEq, List.cons.injEq, and_true] at hvals
  obtain ⟨⟨hhead, hblocks⟩, hcounts, hpages, hptr⟩ := hvals
  exact ⟨h, ⟨hhead, hblocks⟩, hcounts, by simpa using hpages, hptr⟩

/-- A used block between two free ones: a request takes the first again, and the release of the
one between fuses all three. -/
theorem heap_bookkeeping_neighbours : ∃ h : Heap, h.WellFormed [4096, 8192, 12288, 16384] ∧
    (∃ h' bs', kmalloc 5 h 60 = some (h', 4112) ∧ h'.WellFormed bs' ∧
      heapGetFree h' = h'.sizes (h'.freeBlocks bs') % 2 ^ 32) ∧
    ∃ bs', (kfree h 8208).WellFormed bs' ∧ ((kfree h 8208).block 16384).size = 68 ∧
      heapGetFree (kfree h 8208) =
        (kfree h 8208).sizes ((kfree h 8208).freeBlocks bs') % 2 ^ 32 := by
  obtain ⟨h, ⟨hhead, hfirst, hsecond, hthird, hlast⟩, ⟨htotal, hused, hwords⟩, hpages, hptr⟩ :=
    smallHeap_neighbours
  have hw : h.WellFormed [4096, 8192, 12288, 16384] := by
    refine ⟨⟨⟨⟨16384, ?_⟩, by decide, by omega⟩, ?_⟩, ?_, ?_⟩
    · simp [Seg, hhead, hfirst, hsecond, hthird, hlast]
    · simp [Heap.Busy, hsecond, hlast]
    · simp [htotal, hfirst, hsecond, hthird, hlast]
    · simp [hused, Heap.usedBlocks, hfirst, hsecond, hthird, hlast]
  obtain ⟨-, hmalloc, hfree, -⟩ := heap_bookkeeping hw
  obtain ⟨⟨h', p⟩, hk, hp⟩ := Option.map_eq_some_iff.mp hptr
  obtain rfl : p = 4112 := hp
  have hfresh : h.FreshPages h' [4096, 8192, 12288, 16384] := by
    have hlisted : ∀ b ∈ [4096, 8192, 12288, 16384], b / pageSize ∈ [1, 2, 3, 4] := by decide
    rintro page hclear - b hb rfl
    rw [hpages _ (hlisted b hb)] at hclear
    simp at hclear
  obtain ⟨bs', hw', -, -, hsum⟩ := hmalloc 5 60 h' 4112 hk hfresh
  obtain ⟨cs, hw'', hkept, -, hsum'⟩ := hfree 8192 (by simp) (by simp [hsecond])
  have hsame := hkept.size 16384 (by decide) (by simp) (by simp [hlast])
  exact ⟨h, hw, ⟨h', bs', hk, hw', hsum⟩, cs, hw'', hsame.trans (by simp [hlast]), hsum'⟩

end HumanOS

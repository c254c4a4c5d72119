import HumanOS.Heap.Invariant

/-! `kfree` keeps the heap invariant when its fusions do not outgrow a block's pages. -/
namespace HumanOS

open Lib Pmm

variable {limit need fuel size : Nat} {R : Set Nat} {h h' : Heap} {live bs l r : List Nat}
  {b c n x p a q : Nat}

section Fusion

/-- The headers after the successor of `b` has been fused into `b`. -/
theorem fuseNext_block (hn : (h.block b).next ≠ 0)
    (hfree : (h.block (h.block b).next).used = false) :
    (fuseNext h b).block x =
      { size := if x = b then add32 (h.block b).size (h.block (h.block b).next).size
          else (h.block x).size
        used := (h.block x).used
        next := if x = b then (h.block (h.block b).next).next else (h.block x).next
        prev := if x = (h.block (h.block b).next).next ∧ x ≠ 0 then b else (h.block x).prev } := by
  have hcond : (h.block b).next ≠ 0 ∧ (h.block (h.block b).next).used = false := ⟨hn, hfree⟩
  unfold fuseNext
  simp only [hcond, if_true, ne_eq, not_false_eq_true, and_self]
  by_cases hself : (h.block b).next = b
  · by_cases hxb : x = b <;> simp_all [Heap.modify]
  · by_cases hz : (h.block (h.block b).next).next = 0
    · by_cases hxb : x = b <;> simp_all [Heap.modify]
    · by_cases hxb : x = b <;> by_cases hxn : x = (h.block (h.block b).next).next <;>
        simp_all [Heap.modify, Function.update_apply]

/-- The pages given back are counted from the fused block's own size. -/
theorem fuseNext_pmm (hn : (h.block b).next ≠ 0)
    (hfree : (h.block (h.block b).next).used = false) (hne : (h.block b).next ≠ b) :
    (fuseNext h b).pmm =
      freePages (h.block b).next (pagesFor (h.block (h.block b).next).size) h.pmm := by
  have hcond : (h.block b).next ≠ 0 ∧ (h.block (h.block b).next).used = false := ⟨hn, hfree⟩
  have hpmm : (fuseNext h b).pmm = freePages (h.block b).next
      (pagesFor ((fuseNext h b).block (h.block b).next).size) h.pmm := by
    unfold fuseNext
    simp only [hcond, if_true, ne_eq, not_false_eq_true, and_self]
    split <;> rfl
  rw [hpmm, fuseNext_block hn hfree]
  simp [hne]

theorem fuseNext_head : (fuseNext h b).head = h.head := by
  unfold fuseNext
  simp only
  split <;> [split; skip] <;> rfl

theorem fuseNext_skip (hcond : ¬ ((h.block b).next ≠ 0 ∧ (h.block (h.block b).next).used = false)) :
    fuseNext h b = h := by
  unfold fuseNext
  simp only [hcond, if_false]

/-- Fusing a block into a free predecessor is the predecessor fusing its successor. -/
theorem fusePrev_eq_fuseNext (hp : (h.block b).prev = p) (hpz : p ≠ 0)
    (hpu : (h.block p).used = false) (hnext : (h.block p).next = b) (hbz : b ≠ 0)
    (hbu : (h.block b).used = false) : fusePrev h b = fuseNext h p := by
  unfold fusePrev fuseNext
  simp only [hp, hnext, hpz, hpu, hbz, hbu, ne_eq, not_false_eq_true, and_self, if_true]

theorem fusePrev_skip (hcond : ¬ ((h.block b).prev ≠ 0 ∧ (h.block (h.block b).prev).used = false)) :
    fusePrev h b = h := by
  unfold fusePrev
  simp only [hcond, if_false]

/-- A block with a successor splits the list. -/
theorem Heap.Chain.split_next (hc : h.Chain bs) (hb : b ∈ bs) (hn : (h.block b).next ≠ 0) :
    ∃ l r, bs = l ++ b :: (h.block b).next :: r := by
  obtain ⟨l, r, rfl⟩ := List.append_of_mem hb
  cases r with
  | nil => exact (hn hc.next_last).elim
  | cons d r => exact ⟨l, r, by rw [← hc.mid.1]⟩

/-- A block with a predecessor splits the list. -/
theorem Heap.Chain.split_prev (hc : h.Chain bs) (hb : b ∈ bs) (hp : (h.block b).prev ≠ 0) :
    ∃ l r, bs = l ++ (h.block b).prev :: b :: r := by
  obtain ⟨l, r, rfl⟩ := List.append_of_mem hb
  rcases List.eq_nil_or_concat l with rfl | ⟨l, d, rfl⟩
  · exact (hp hc.prev_head).elim
  · have hmid := Linked.mid (l := l) (b := d) (n := b) (r := r) (by simpa [Heap.Chain] using hc)
    exact ⟨l, r, by simp [hmid.2]⟩

/-- The headers once the free block `n` is fused into `b`. -/
theorem Heap.Chain.fuse_block (hc : h.Chain (l ++ b :: n :: r))
    (hfree : (h.block n).used = false) : (fuseNext h b).block x =
      { size := if x = b then add32 (h.block b).size (h.block n).size else (h.block x).size
        used := (h.block x).used
        next := if x = b then (h.block n).next else (h.block x).next
        prev := if x = (h.block n).next ∧ x ≠ 0 then b else (h.block x).prev } := by
  obtain ⟨hnext, -⟩ := hc.mid
  have hn0 : n ≠ 0 := hc.ne_null (by simp)
  rw [fuseNext_block] <;> simp_all

theorem Heap.Chain.fuse (hc : h.Chain (l ++ b :: n :: r))
    (hfree : (h.block n).used = false) : (fuseNext h b).Chain (l ++ b :: r) := by
  have hdup := hc.nodup
  unfold Heap.Chain
  rw [fuseNext_head]
  apply Linked.unlink hc
  · simp [hc.fuse_block hfree]
  · intro hne
    simp only [hc.fuse_block hfree]
    simp [hne]
  · intro d hd
    have hdb : d ≠ b := by grind
    simp [hc.fuse_block hfree, hdb]
  · intro d hd hne
    simp [hc.fuse_block hfree, hne]

namespace HeapInv

/-- The pages of `n` are given back. -/
theorem fuse_gave (hi : HeapInv limit R h live (l ++ b :: n :: r))
    (hfree : (h.block n).used = false) :
    GaveRun h.pmm (fuseNext h b).pmm (n / pageSize) (pagesFor (h.block n).size) := by
  obtain ⟨hnext, -⟩ := hi.chain.mid
  have hdup := hi.chain.nodup
  have hn : n ∈ l ++ b :: n :: r := by simp
  have hne : n ≠ b := by grind
  have hpmm : (fuseNext h b).pmm = freePages n (pagesFor (h.block n).size) h.pmm := by
    rw [fuseNext_pmm] <;> simp_all [hi.ne_zero hn]
  obtain ⟨hpages, -⟩ := hi.pagesFor_eq hn
  have hin := (hi.inside n hn).1
  have hrun := freePages_gave (f := n / pageSize) (n := pagesFor (h.block n).size) hi.accounted
    (by omega) (fun k hk => hi.owned n hn k (by omega))
  rwa [hi.page_mul hn, ← hpmm] at hrun

/-- If the grown block still fits the pages it had, every block covers the pages it covered. -/
theorem fuse_span (hi : HeapInv limit R h live (l ++ b :: n :: r))
    (hfree : (h.block n).used = false)
    (hfit : spanOf ((h.block b).size + (h.block n).size) = h.span b) :
    (fuseNext h b).span c = h.span c := by
  have hsum : add32 (h.block b).size (h.block n).size = (h.block b).size + (h.block n).size := by
    have hle : (h.block b).size + (h.block n).size ≤ _ := le_spanOf_mul
    have hlt := hi.size_lt (b := b) (by simp)
    rw [hfit] at hle
    exact add32_of_lt (by simp only [pageSize] at hle hlt; omega)
  by_cases hcb : c = b
  · subst hcb
    simp only [Heap.span, hi.chain.fuse_block hfree, if_true, hsum] at hfit ⊢
    exact hfit
  · simp [Heap.span, hi.chain.fuse_block hfree, hcb]

/-- Fusing a free successor into a free block keeps the invariant if the grown block still
fits the pages it had. -/
theorem fuse (hi : HeapInv limit R h live (l ++ b :: n :: r))
    (hfree : (h.block n).used = false)
    (hfit : spanOf ((h.block b).size + (h.block n).size) = h.span b) :
    HeapInv limit R (fuseNext h b) live (l ++ b :: r) := by
  have hdup := hi.chain.nodup
  have hn : n ∈ l ++ b :: n :: r := by simp
  have hkeep : ∀ c ∈ l ++ b :: r, c ∈ l ++ b :: n :: r := by grind
  have hnot : ∀ c ∈ l ++ b :: r, c ≠ n := by grind
  have hspan : ∀ c, (fuseNext h b).span c = h.span c := fun _ => hi.fuse_span hfree hfit
  have hgave := hi.fuse_gave hfree
  obtain ⟨hpages, -⟩ := hi.pagesFor_eq hn
  refine ⟨hgave.accounted, hgave.used hi.page0 (Or.inl (hi.page_pos hn)), ?_, hi.chain.fuse hfree,
    fun c hc => hi.aligned c (hkeep c hc), ?_, ?_, ?_, ?_, hi.nodup⟩
  · intro g hg
    obtain ⟨hused, hapart⟩ := hi.reserved g hg
    have hout := hapart n hn
    refine ⟨hgave.used hused (by omega), fun c hc => ?_⟩
    rw [hspan c]
    exact hapart c (hkeep c hc)
  · intro c hc
    rw [hspan c, hgave.total]
    exact hi.inside c (hkeep c hc)
  · intro c hc k hk
    rw [hspan c] at hk
    have hapart := hi.apart c (hkeep c hc) n hn (hnot c hc)
    unfold Heap.Apart at hapart
    exact hgave.used (hi.owned c (hkeep c hc) k hk) (by omega)
  · intro c hc d hd hne
    simpa [Heap.Apart, hspan] using hi.apart c (hkeep c hc) d (hkeep d hd) hne
  · intro p hp
    obtain ⟨c, hc, hpc, hu⟩ := hi.handed p hp
    have hcn : c ≠ n := by
      rintro rfl
      simp [hfree] at hu
    exact ⟨c, by grind, hpc, by simpa [hi.chain.fuse_block hfree] using hu⟩

end HeapInv

end Fusion

section Free

/-- The size a freed block has once a free successor has been fused into it. -/
def grownSize (h : Heap) (b : Nat) : Nat :=
  if (h.block b).next ≠ 0 ∧ (h.block (h.block b).next).used = false then
    (h.block b).size + (h.block (h.block b).next).size
  else (h.block b).size

/-- Freeing the block makes neither it nor a free predecessor outgrow its own pages. -/
structure FusionFits (h : Heap) (b : Nat) : Prop where
  next : spanOf (grownSize h b) = h.span b
  prev : (h.block b).prev ≠ 0 → (h.block (h.block b).prev).used = false →
    spanOf ((h.block (h.block b).prev).size + grownSize h b) = h.span (h.block b).prev

theorem sub_header (hb : b + headerSize < 2 ^ 32) : sub32 (b + headerSize) headerSize = b := by
  rw [sub32_of_le (Nat.le_add_left _ _) hb]
  omega

/-- The state of `kfree` before the fusions. -/
def markFree (h : Heap) (b : Nat) : Heap :=
  { h.modify b fun x => { x with used := false } with used := sub32 h.used (h.block b).size }

theorem markFree_block : (markFree h b).block x =
    { h.block x with used := if x = b then false else (h.block x).used } := by
  by_cases hx : x = b
  · subst hx
    simp [markFree, Heap.modify]
  · simp [markFree, Heap.modify, hx]

/-- On a live pointer `kfree` marks the block free and tries both fusions. -/
theorem kfree_eq (hb : b + headerSize < 2 ^ 32) (hu : (h.block b).used = true) :
    kfree h (b + headerSize) = fusePrev (fuseNext (markFree h b) b) b := by
  have hne : b + headerSize ≠ 0 := by simp [headerSize]
  rw [kfree, if_neg hne]
  simp [sub_header hb, hu, markFree, Heap.modify]

theorem HeapInv.markFree (hi : HeapInv limit R h live bs) :
    HeapInv limit R (markFree h b) (live.erase (b + headerSize)) bs := by
  have hpmm : (HumanOS.markFree h b).pmm = h.pmm := rfl
  apply hi.of_used hpmm rfl
  · intro x
    rw [markFree_block]
  · intro x
    rw [markFree_block]
  · intro x
    rw [markFree_block]
  · intro p hp'
    obtain ⟨hne, hmem⟩ := (hi.nodup.mem_erase_iff).mp hp'
    obtain ⟨c, hc, rfl, hu⟩ := hi.handed p hmem
    have hcb : c ≠ b := fun he => hne (by rw [he])
    exact ⟨c, hc, rfl, by simp [markFree_block, hcb, hu]⟩
  · exact hi.nodup.erase _

/-- The first fusion of `kfree`, taken or not. -/
theorem HeapInv.fuseNext_free (hi : HeapInv limit R h live bs) (hb : b ∈ bs)
    (hu : (h.block b).used = false) (hfit : spanOf (grownSize h b) = h.span b) :
    ∃ bs', HeapInv limit R (fuseNext h b) live bs' ∧ b ∈ bs' ∧
      ((fuseNext h b).block b).prev = (h.block b).prev ∧
      ((fuseNext h b).block b).used = false ∧
      ((fuseNext h b).block b).size = grownSize h b ∧
      ∀ c ≠ b, ((fuseNext h b).block c).size = (h.block c).size ∧
        ((fuseNext h b).block c).used = (h.block c).used := by
  by_cases hcond : (h.block b).next ≠ 0 ∧ (h.block (h.block b).next).used = false
  · obtain ⟨l, r, hbs⟩ := hi.chain.split_next hb hcond.1
    rw [hbs] at hi
    have hgrown : grownSize h b = (h.block b).size + (h.block (h.block b).next).size := by
      rw [grownSize, if_pos hcond]
    have hfused := hi.fuse hcond.2 (hgrown ▸ hfit)
    have hblock := fun x => fuseNext_block (x := x) hcond.1 hcond.2
    have hsum : add32 (h.block b).size (h.block (h.block b).next).size = grownSize h b := by
      have hle : grownSize h b ≤ _ := le_spanOf_mul
      have hlt := hi.size_lt (b := b) (by simp)
      rw [hfit] at hle
      rw [hgrown] at hle ⊢
      exact add32_of_lt (by simp only [pageSize] at hle hlt; omega)
    have hback : b ≠ (h.block (h.block b).next).next := by
      have hnext := Linked.next_eq (l := l ++ [b]) (b := (h.block b).next) (r := r)
        (by simpa [Heap.Chain] using hi.chain)
      have hdup := hi.chain.nodup
      have hz := hi.ne_zero (b := b) (by simp)
      cases r with
      | nil => simpa [hnext] using hz
      | cons d r => grind
    refine ⟨l ++ b :: r, hfused, by simp, ?_, ?_, ?_, ?_⟩
    · simp [hblock, hback]
    · simp [hblock, hu]
    · simp [hblock, hsum]
    · intro c hc
      simp [hblock, hc]
  · have hskip := fuseNext_skip hcond
    rw [hskip]
    refine ⟨bs, hi, hb, rfl, hu, ?_, fun c _ => ⟨rfl, rfl⟩⟩
    rw [grownSize, if_neg hcond]

/-- `kfree` of a live pointer keeps the invariant when its fusions fit. -/
theorem HeapInv.kfree (hi : HeapInv limit R h live bs) (hp : p ∈ live)
    (hfit : FusionFits h (p - headerSize)) :
    ∃ bs', HeapInv limit R (kfree h p) (live.erase p) bs' := by
  obtain ⟨b, hb, rfl, hu⟩ := hi.handed p hp
  rw [Nat.add_sub_cancel] at hfit
  rw [kfree_eq (hi.ptr_lt hb) hu]
  have hmark := hi.markFree (b := b)
  have hgrown : grownSize (HumanOS.markFree h b) b = grownSize h b := by
    by_cases hself : (h.block b).next = b
    · obtain ⟨l, r, hbs⟩ := hi.chain.split_next hb (by rw [hself]; exact hi.ne_zero hb)
      have hdup := hi.chain.nodup
      rw [hbs, hself] at hdup
      simp [List.nodup_append] at hdup
    · simp [grownSize, markFree_block, hself]
  have hnext : spanOf (grownSize (HumanOS.markFree h b) b) = (HumanOS.markFree h b).span b := by
    rw [hgrown, hfit.next]
    simp [Heap.span, markFree_block]
  obtain ⟨bs', hinv, hb', hprev, hfree, hsize, hrest⟩ :=
    hmark.fuseNext_free hb (by simp [markFree_block]) hnext
  set h2 := fuseNext (HumanOS.markFree h b) b
  by_cases hcond : (h2.block b).prev ≠ 0 ∧ (h2.block (h2.block b).prev).used = false
  · obtain ⟨l, r, hbs⟩ := hinv.chain.split_prev hb' hcond.1
    set q := (h2.block b).prev
    have hq : q = (h.block b).prev := by rw [hprev, markFree_block]
    rw [hbs] at hinv
    have hqb : q ≠ b := by
      have hdup := hinv.chain.nodup
      simp [List.nodup_append] at hdup
      exact hdup.2.1.1.1
    have hqsize : (h2.block q).size = (h.block q).size := by
      rw [(hrest q hqb).1, markFree_block]
    have hqused : (h.block q).used = false := by
      have hkeep := hcond.2
      rw [(hrest q hqb).2, markFree_block] at hkeep
      simpa [hqb] using hkeep
    have hmid := hinv.chain.mid
    rw [fusePrev_eq_fuseNext rfl hcond.1 hcond.2 hmid.1 (hi.ne_zero hb) hfree]
    refine ⟨l ++ q :: r, hinv.fuse hfree ?_⟩
    have hspan := hfit.prev (hq ▸ hcond.1) (hq ▸ hqused)
    rw [← hq] at hspan
    rw [hsize, hgrown, hqsize, hspan, Heap.span, Heap.span, hqsize]
  · rw [fusePrev_skip hcond]
    exact ⟨bs', hinv⟩

end Free

end HumanOS

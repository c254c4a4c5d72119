import HumanOS.Heap.Alloc
import HumanOS.Heap.Free
import HumanOS.Lib.Run

/-!
# Ownership and list integrity over whole runs

Runs of `kmalloc`, `kfree` and `pmm_alloc_page` from a freshly initialised heap. The heap does
not check that the pages of a new block are consecutive, nor that the blocks it fuses are
neighbours in memory; runs in which both happen to be so keep every live block intact.
-/
namespace HumanOS

open Lib Pmm

/-- The heap, with the pointers returned by `kmalloc` and not yet given to `kfree`. -/
structure HeapRun where
  heap : Heap
  live : List Nat

inductive HeapOp where
  | kmalloc (size : Nat)
  | kfree (ptr : Nat)
  | pmmAllocPage
deriving DecidableEq, Repr

/-- One call; `kfree` is applied to a live pointer. -/
inductive HeapStep : HeapRun → HeapOp → HeapRun → Prop
  | kmalloc {h h' : Heap} {live : List Nat} {fuel size p : Nat} :
      kmalloc fuel h size = some (h', p) →
      HeapStep ⟨h, live⟩ (.kmalloc size) ⟨h', if p = 0 then live else p :: live⟩
  | kfree {h : Heap} {live : List Nat} {p : Nat} : p ∈ live →
      HeapStep ⟨h, live⟩ (.kfree p) ⟨kfree h p, live.erase p⟩
  | pmmAllocPage {h : Heap} {live : List Nat} :
      HeapStep ⟨h, live⟩ .pmmAllocPage ⟨{ h with pmm := (pmmAllocPage h.pmm).1 }, live⟩

/-- The calls of a run, executed with that much fuel for each walk. -/
def HeapRun.exec (fuel : Nat) (s : HeapRun) : List HeapOp → Option HeapRun
  | [] => some s
  | .kmalloc size :: ops => do
    let (h, p) ← HumanOS.kmalloc fuel s.heap size
    exec fuel ⟨h, if p = 0 then s.live else p :: s.live⟩ ops
  | .kfree p :: ops =>
    if p ∈ s.live then exec fuel ⟨HumanOS.kfree s.heap p, s.live.erase p⟩ ops else none
  | .pmmAllocPage :: ops =>
    exec fuel ⟨{ s.heap with pmm := (HumanOS.pmmAllocPage s.heap.pmm).1 }, s.live⟩ ops

/-- The state before a call is one where the unchecked assumptions of the heap come true, with
all pages taken below `limit`; at `2 ^ 20` that bound is the whole address space. -/
def OpFits (limit : Nat) (h : Heap) : HeapOp → Prop
  | .kmalloc size => AllocFits limit h size
  | .kfree ptr => FusionFits h (ptr - headerSize)
  | .pmmAllocPage => ∀ f < h.pmm.totalPages, h.pmm.Lowest f → f < limit

/-- A call in such a state. -/
def FittingStep (limit : Nat) (s : HeapRun) (op : HeapOp) (t : HeapRun) : Prop :=
  HeapStep s op t ∧ OpFits limit s.heap op

variable {limit fuel : Nat} {h : Heap} {s t : HeapRun} {op : HeapOp} {ops : List HeapOp}
variable {bs : List Nat} {R : Set Nat}

/-- The bytes of the block behind a pointer, header included. -/
def Heap.bytes (h : Heap) (ptr : Nat) : Set Nat :=
  Set.Ico (ptr - headerSize) (ptr - headerSize + (h.block (ptr - headerSize)).size)

/-- Live blocks share no byte, and the PMM counts every page they touch as used, so that the
next page it hands out is none of theirs. -/
structure OwnsBytes (s : HeapRun) : Prop where
  disjoint : s.live.Pairwise fun p q => ∀ a ∈ s.heap.bytes p, a ∉ s.heap.bytes q
  marked : ∀ p ∈ s.live, ∀ a ∈ s.heap.bytes p, s.heap.pmm.pageUsed (a / pageSize) = true
  kept : ∀ p ∈ s.live, ∀ a ∈ s.heap.bytes p, (pmmAllocPage s.heap.pmm).2 ≠ 0 →
    (pmmAllocPage s.heap.pmm).2 / pageSize ≠ a / pageSize

/-- The blocks reached from `heap_head` are `bs`: a finite list without repetition, linked both
ways, that holds every live block and that `kmalloc` walks to its end. -/
structure ListSound (s : HeapRun) (bs : List Nat) : Prop where
  chain : s.heap.Chain bs
  acyclic : bs.Nodup
  back : ∀ b ∈ bs, (s.heap.block b).next ≠ 0 →
    (s.heap.block b).next ∈ bs ∧ (s.heap.block (s.heap.block b).next).prev = b
  first : s.heap.head ≠ 0 → (s.heap.block s.heap.head).prev = 0
  listed : ∀ p ∈ s.live, p - headerSize ∈ bs
  returns : ∀ size, ∃ fuel r, kmalloc fuel s.heap size = some r

theorem HeapRun.exec_run (he : s.exec fuel ops = some t) : Run HeapStep s ops t := by
  induction ops generalizing s with
  | nil =>
    obtain rfl := Option.some.inj he
    exact .refl
  | cons op ops ih =>
    cases op with
    | kmalloc size =>
      obtain ⟨⟨h, p⟩, hk, hrest⟩ := Option.bind_eq_some_iff.mp he
      exact .stepL (.kmalloc hk) (ih hrest)
    | kfree p =>
      simp only [exec] at he
      split at he
      · rename_i hp
        exact .stepL (.kfree hp) (ih he)
      · simp at he
    | pmmAllocPage => exact .stepL .pmmAllocPage (ih he)

theorem heapInit_inv (hacc : h.pmm.Accounted) (h0 : h.pmm.pageUsed 0 = true)
    (hR : ∀ g ∈ R, h.pmm.pageUsed g = true) : HeapInv limit R (heapInit h) [] [] where
  accounted := hacc
  page0 := h0
  reserved := fun g hg => ⟨hR g hg, by simp⟩
  chain := Linked.nil_iff.mpr rfl
  aligned := by simp
  inside := by simp
  owned := by simp
  apart := by simp
  handed := by simp
  nodup := by simp

/-- Taking a page for another owner leaves the heap as it is. -/
theorem HeapInv.pmmAllocPage {live : List Nat} (hi : HeapInv limit R h live bs) :
    HeapInv limit R { h with pmm := (pmmAllocPage h.pmm).1 } live bs := by
  rcases pmmAllocPage_cases hi.accounted with ⟨-, halloc⟩ | ⟨p, hp, hlow, -, halloc⟩
  · rw [halloc]
    exact hi.of_pmm (vgaPuts_accounted hi.accounted) rfl fun _ hk => hk
  · rw [halloc]
    exact hi.of_pmm (take_accounted hi.accounted hp hlow.1) rfl fun k hk => by simp [hk]

theorem FittingStep.inv (hs : FittingStep limit s op t)
    (hi : ∃ bs, HeapInv limit R s.heap s.live bs) : ∃ bs, HeapInv limit R t.heap t.live bs := by
  obtain ⟨bs, hi⟩ := hi
  obtain ⟨hstep, hfit⟩ := hs
  cases hstep with
  | kmalloc hk =>
    obtain ⟨bs', hinv, -⟩ := hi.kmalloc hfit hk
    exact ⟨bs', hinv⟩
  | kfree hp => exact hi.kfree hp hfit
  | pmmAllocPage => exact ⟨bs, hi.pmmAllocPage⟩

theorem FittingStep.run_inv (hacc : h.pmm.Accounted) (h0 : h.pmm.pageUsed 0 = true)
    (hR : ∀ g ∈ R, h.pmm.pageUsed g = true)
    (hr : Run (FittingStep limit) ⟨heapInit h, []⟩ ops t) :
    ∃ bs, HeapInv limit R t.heap t.live bs :=
  hr.invariant (fun s => ∃ bs, HeapInv limit R s.heap s.live bs)
    (fun _ _ _ hs hi => hs.inv hi) ⟨[], heapInit_inv hacc h0 hR⟩

section Checked

instance {b : Nat} : Decidable (FusionFits h b) :=
  decidable_of_iff (spanOf (grownSize h b) = h.span b ∧ ((h.block b).prev ≠ 0 →
      (h.block (h.block b).prev).used = false →
      spanOf ((h.block (h.block b).prev).size + grownSize h b) = h.span (h.block b).prev))
    ⟨fun hb => ⟨hb.1, hb.2⟩, fun hb => ⟨hb.next, hb.prev⟩⟩

/-- `OpFits`, looked up in the state: the block the walk finds, or the run of free pages. -/
def opFits (limit fuel : Nat) (h : Heap) : HeapOp → Bool
  | .kmalloc size =>
    decide (size = 0) || (findFit h (blockBytes size) fuel h.head).any (· ≠ 0) ||
      decide (blockBytes size + (pageSize - 1) < 2 ^ 32) &&
        (pmmFindFree h.pmm).any fun f =>
          decide (∀ k < min (spanOf (blockBytes size)) h.pmm.freePages,
            f + k < h.pmm.totalPages ∧ f + k < limit ∧ h.pmm.pageUsed (f + k) = false)
  | .kfree ptr => decide (FusionFits h (ptr - headerSize))
  | .pmmAllocPage => (pmmFindFree h.pmm).any fun f => decide (f < limit)

theorem HeapInv.opFits {live : List Nat} (hi : HeapInv limit R h live bs)
    (hok : opFits limit fuel h op = true) : OpFits limit h op := by
  cases op with
  | kmalloc size =>
    simp only [HumanOS.opFits, Bool.or_eq_true, Bool.and_eq_true, decide_eq_true_eq,
      Option.any_eq_true] at hok
    rcases hok with (hz | ⟨b, hfind, hb⟩) | ⟨hrounds, f, hf, hrun⟩
    · exact Or.inl hz
    · obtain ⟨q, hq⟩ := id hi.chain
      rcases findFit_seg hq hfind with ⟨hz, -⟩ | ⟨hmem, hfits⟩
      · exact absurd hz hb
      · exact Or.inr (Or.inl ⟨bs, hi.chain, b, hmem, hfits⟩)
    · refine Or.inr (Or.inr ⟨hrounds, fun g hg => ?_⟩)
      rwa [hg.unique (pmmFindFree_eq_some.mp hf).2]
  | kfree ptr => exact of_decide_eq_true (p := FusionFits h (ptr - headerSize)) hok
  | pmmAllocPage =>
    simp only [HumanOS.opFits, Option.any_eq_true, decide_eq_true_eq] at hok
    obtain ⟨f, hf, hlt⟩ := hok
    intro g _ hg
    rwa [hg.unique (pmmFindFree_eq_some.mp hf).2]

/-- The calls of a run, each after a look at the state before it. -/
def HeapRun.execFitting (limit fuel : Nat) (s : HeapRun) : List HeapOp → Option HeapRun
  | [] => some s
  | op :: ops =>
    if opFits limit fuel s.heap op then
      (s.exec fuel [op]).bind fun t => t.execFitting limit fuel ops
    else none

theorem HeapRun.execFitting_run (hi : ∃ bs, HeapInv limit R s.heap s.live bs)
    (he : s.execFitting limit fuel ops = some t) : Run (FittingStep limit) s ops t := by
  induction ops generalizing s with
  | nil =>
    obtain rfl := Option.some.inj he
    exact .refl
  | cons op ops ih =>
    simp only [execFitting] at he
    split at he
    · rename_i hok
      obtain ⟨u, hu, hrest⟩ := Option.bind_eq_some_iff.mp he
      obtain ⟨bs, hinv⟩ := hi
      cases HeapRun.exec_run hu with
      | stepL hstep hend =>
        cases hend
        have hfit : FittingStep limit s op u := ⟨hstep, hinv.opFits hok⟩
        exact .stepL hfit (ih (hfit.inv ⟨bs, hinv⟩) hrest)
    · simp at he

/-- Runs from a freshly initialised heap. -/
theorem execFitting_heapInit (hacc : h.pmm.Accounted) (h0 : h.pmm.pageUsed 0 = true)
    (he : (⟨heapInit h, []⟩ : HeapRun).execFitting limit fuel ops = some t) :
    Run (FittingStep limit) ⟨heapInit h, []⟩ ops t :=
  HeapRun.execFitting_run (R := ∅) ⟨[], heapInit_inv hacc h0 (by simp)⟩ he

end Checked

/-- A byte of a listed block lies on one of the pages the block covers. -/
theorem HeapInv.byte_page {live : List Nat} {b a : Nat} (hi : HeapInv limit R h live bs)
    (hb : b ∈ bs) (ha : a ∈ h.bytes (b + headerSize)) :
    b / pageSize ≤ a / pageSize ∧ a / pageSize < b / pageSize + h.span b := by
  have hal := hi.aligned b hb
  have hle : (h.block b).size ≤ h.span b * pageSize := le_spanOf_mul
  obtain ⟨hlo, hhi⟩ := ha
  rw [Nat.add_sub_cancel] at hlo hhi
  simp only [pageSize] at hal hle ⊢
  omega

theorem HeapInv.ownsBytes (hi : HeapInv limit R s.heap s.live bs) : OwnsBytes s := by
  have hmarked : ∀ p ∈ s.live, ∀ a ∈ s.heap.bytes p,
      s.heap.pmm.pageUsed (a / pageSize) = true := by
    intro p hp a ha
    obtain ⟨b, hb, rfl, -⟩ := hi.handed p hp
    obtain ⟨hlo, hhi⟩ := hi.byte_page hb ha
    have hown := hi.owned b hb (a / pageSize - b / pageSize) (by omega)
    rwa [Nat.add_sub_cancel' hlo] at hown
  refine ⟨?_, hmarked, ?_⟩
  · refine List.Pairwise.imp_of_mem ?_ hi.nodup
    intro p q hp hq hne
    obtain ⟨b, hb, rfl, -⟩ := hi.handed p hp
    obtain ⟨c, hc, rfl, -⟩ := hi.handed q hq
    have hapart := hi.apart b hb c hc fun he => hne (by rw [he])
    intro a ha ha'
    have hpb := hi.byte_page hb ha
    have hpc := hi.byte_page hc ha'
    unfold Heap.Apart at hapart
    omega
  · intro p hp a ha hnz hsame
    rcases pmmAllocPage_cases hi.accounted with ⟨-, halloc⟩ | ⟨f, -, hlow, -, halloc⟩
    · simp [halloc] at hnz
    · have hpage : f * pageSize / pageSize = f := Nat.mul_div_cancel _ (by decide)
      rw [halloc, hpage] at hsame
      have hused := hmarked p hp a ha
      rw [← hsame, hlow.1] at hused
      simp at hused

theorem HeapInv.listSound (hi : HeapInv limit R s.heap s.live bs) : ListSound s bs where
  chain := hi.chain
  acyclic := hi.chain.nodup
  back := by
    intro b hb hn
    obtain ⟨l, r, hbs⟩ := hi.chain.split_next hb hn
    refine ⟨by rw [hbs]; simp, ?_⟩
    have hc := hi.chain
    rw [hbs] at hc
    exact hc.mid.2
  first := by
    intro hh
    have hc := hi.chain
    cases bs with
    | nil => exact (hh (Linked.nil_iff.mp hc)).elim
    | cons b bs =>
      rw [hc.head_eq]
      exact hc.prev_head
  listed := by
    intro p hp
    obtain ⟨b, hb, rfl, -⟩ := hi.handed p hp
    rwa [Nat.add_sub_cancel]
  returns := fun _ => ⟨bs.length + 1, hi.chain.kmalloc_terminates (Nat.lt_succ_self _)⟩

/-- A small machine: 64 pages, the first one reserved, and an empty heap. -/
def smallHeap : Heap :=
  heapInit ⟨pmmMarkUsed (pmmInit Pmm.powerOn (64 * pageSize)) 0, fun _ => ⟨0, false, 0, 0⟩, 0, 0, 0⟩

theorem smallHeap_accounted : smallHeap.pmm.Accounted := by
  have hinit := pmmInit_accounted Pmm.powerOn (64 * pageSize)
  have hpage : 0 / pageSize < (pmmInit Pmm.powerOn (64 * pageSize)).totalPages := by decide
  exact pmmMarkUsed_accounted hinit hpage

theorem smallHeap_page0 : smallHeap.pmm.pageUsed 0 = true := by decide

/-- Four blocks on the small machine, the third on two pages, and a page. The first block is given
back and taken again, then the first and the second are given back and fused, and the fused block
is taken. -/
def reusingOps : List HeapOp :=
  [.kmalloc 100, .kmalloc 200, .kmalloc 5000, .kmalloc 50, .pmmAllocPage, .kfree 4112, .kmalloc 60,
    .kfree 4112, .kfree 8208, .kmalloc 300]

theorem reusingOps_run : ∃ t : HeapRun, t.live = [4112, 20496, 12304] ∧
    Run (FittingStep (2 ^ 20)) ⟨heapInit smallHeap, []⟩ reusingOps t := by
  have hlive : ((⟨heapInit smallHeap, []⟩ : HeapRun).execFitting (2 ^ 20) 8 reusingOps).map
      HeapRun.live = some [4112, 20496, 12304] := by decide +kernel
  obtain ⟨t, ht, hl⟩ := Option.map_eq_some_iff.mp hlive
  exact ⟨t, hl, execFitting_heapInit smallHeap_accounted smallHeap_page0 ht⟩

/-- Every live block owns its bytes and its pages in every state of such a run. -/
theorem heap_ownership (hacc : h.pmm.Accounted) (h0 : h.pmm.pageUsed 0 = true)
    (hr : Run (FittingStep (2 ^ 20)) ⟨heapInit h, []⟩ ops t) : OwnsBytes t := by
  obtain ⟨bs, hi⟩ := FittingStep.run_inv (R := ∅) hacc h0 (by simp) hr
  exact hi.ownsBytes

theorem heap_ownership_reusing : ∃ t : HeapRun, t.live = [4112, 20496, 12304] ∧
    Run (FittingStep (2 ^ 20)) ⟨heapInit smallHeap, []⟩ reusingOps t ∧ OwnsBytes t := by
  obtain ⟨t, hlive, hrun⟩ := reusingOps_run
  exact ⟨t, hlive, hrun, heap_ownership smallHeap_accounted smallHeap_page0 hrun⟩

/-- Two freed neighbours are fused, the pages of the second go back to the PMM, and the fused
block is handed out again with all its bytes. -/
theorem heap_ownership_fails_after_fusion :
    ¬ ∀ (h : Heap) (ops : List HeapOp) (t : HeapRun), h.pmm.Accounted →
      h.pmm.pageUsed 0 = true → Run HeapStep ⟨heapInit h, []⟩ ops t → OwnsBytes t := by
  intro hall
  have hlive : ((⟨smallHeap, []⟩ : HeapRun).exec 4 [.kmalloc 4000, .kmalloc 4000, .kfree 4112,
      .kfree 8208, .kmalloc 8000, .kmalloc 100]).map
      (fun t => (t.live, (t.heap.block 4096).size, (t.heap.block 8192).size)) =
      some ([8208, 4112], 8032, 116) := by decide +kernel
  obtain ⟨t, ht, hvals⟩ := Option.map_eq_some_iff.mp hlive
  simp only [Prod.mk.injEq] at hvals
  obtain ⟨hl, hsize, hsize'⟩ := hvals
  have hown := hall smallHeap _ t smallHeap_accounted smallHeap_page0 (HeapRun.exec_run ht)
  have hdis := hown.disjoint
  rw [hl] at hdis
  have hpair := List.rel_of_pairwise_cons hdis (List.mem_singleton_self 4112)
  have hfirst : 8192 ∈ t.heap.bytes 8208 := by simp [Heap.bytes, headerSize, hsize']
  have hsecond : 8192 ∈ t.heap.bytes 4112 := by simp [Heap.bytes, headerSize, hsize]
  exact hpair 8192 hfirst hsecond

/-- The block list is sound in every state of such a run. -/
theorem heap_list_integrity (hacc : h.pmm.Accounted) (h0 : h.pmm.pageUsed 0 = true)
    (hr : Run (FittingStep (2 ^ 20)) ⟨heapInit h, []⟩ ops t) : ∃ bs, ListSound t bs := by
  obtain ⟨bs, hi⟩ := FittingStep.run_inv (R := ∅) hacc h0 (by simp) hr
  exact ⟨bs, hi.listSound⟩

theorem heap_list_integrity_reusing : ∃ t : HeapRun, t.live = [4112, 20496, 12304] ∧
    Run (FittingStep (2 ^ 20)) ⟨heapInit smallHeap, []⟩ reusingOps t ∧ ∃ bs, ListSound t bs := by
  obtain ⟨t, hlive, hrun⟩ := reusingOps_run
  exact ⟨t, hlive, hrun, heap_list_integrity smallHeap_accounted smallHeap_page0 hrun⟩

/-- A fusion gives back a page that a later block owns; the page is handed out once more, its
header is written over and the block becomes its own successor. -/
theorem heap_list_integrity_fails_with_cycle :
    ¬ ∀ (h : Heap) (ops : List HeapOp) (t : HeapRun), h.pmm.Accounted →
      h.pmm.pageUsed 0 = true → Run HeapStep ⟨heapInit h, []⟩ ops t → ∃ bs, ListSound t bs := by
  intro hall
  have hvals : ((⟨smallHeap, []⟩ : HeapRun).exec 4 [.kmalloc 4000, .kmalloc 4000, .kmalloc 4000,
      .kfree 8208, .kfree 12304, .kmalloc 8100, .kfree 4112, .kmalloc 100, .kmalloc 100,
      .kmalloc 100]).map (fun t => (t.live, (t.heap.block 12288).next)) =
      some ([12304, 8208, 4112, 12304], 12288) := by decide +kernel
  obtain ⟨t, ht, hvals⟩ := Option.map_eq_some_iff.mp hvals
  obtain ⟨hl, hnext⟩ := Prod.mk.inj hvals
  obtain ⟨bs, hsound⟩ :=
    hall smallHeap _ t smallHeap_accounted smallHeap_page0 (HeapRun.exec_run ht)
  have hmem : 12288 ∈ bs := hsound.listed 12304 (by simp [hl])
  obtain ⟨l, r, hbs⟩ := hsound.chain.split_next hmem (by simp [hnext])
  have hdup := hsound.acyclic
  rw [hbs, hnext] at hdup
  simp [List.nodup_append] at hdup

end HumanOS

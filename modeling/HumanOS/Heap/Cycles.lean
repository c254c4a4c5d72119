import HumanOS.Heap.Bookkeeping

/-!
# Repeated calls

Allocating and freeing the same size again and again, and freeing the same pointer twice. Both
rest on the list having no two free neighbours: a block that was free before it was handed out
finds nothing to fuse with when it comes back.
-/
namespace HumanOS

open Lib Pmm

variable {h h' t : Heap} {bs : List Nat} {b n p q x fuel size : Nat}

section Cycles

/-- `kmalloc(n)` and `kfree` of its result, `k` times; `none` if a call does not return or
returns NULL. -/
def cycles (fuel n : Nat) : Nat → Heap → Option Heap
  | 0, h => some h
  | k + 1, h => do
    let (h', p) ← kmalloc fuel h n
    if p = 0 then none else cycles fuel n k (kfree h' p)

/-- A free block has no free successor. -/
theorem Heap.Tidy.fuseNext_idle (ht : h.Tidy bs) (hb : b ∈ bs) (hfree : (h.block b).used = false) :
    fuseNext h b = h := by
  refine fuseNext_skip fun hcond => ?_
  obtain ⟨l, r, hbs⟩ := ht.chain.split_next hb hcond.1
  have hchain := ht.settled
  rw [hbs, List.isChain_append_cons_cons] at hchain
  have hbusy := hchain.2.1
  simp [Busy, hfree, hcond.2] at hbusy

/-- A free block has no free predecessor. -/
theorem Heap.Tidy.fusePrev_idle (ht : h.Tidy bs) (hb : b ∈ bs) (hfree : (h.block b).used = false) :
    fusePrev h b = h := by
  refine fusePrev_skip fun hcond => ?_
  obtain ⟨l, r, hbs⟩ := ht.chain.split_prev hb hcond.1
  have hchain := ht.settled
  rw [hbs, List.isChain_append_cons_cons] at hchain
  have hbusy := hchain.2.1
  simp [Busy, hfree, hcond.2] at hbusy

/-- Taking a free block and freeing it at once is no change. -/
theorem markFree_markUsed (hfree : (h.block b).used = false) (hlt : h.used < 2 ^ 32) :
    markFree (markUsed h b) b = h := by
  have hsize : ((markUsed h b).block b).size = (h.block b).size := by rw [markUsed_block]
  have hblock : (markFree (markUsed h b) b).block = h.block := by
    funext x
    rw [markFree_block, markUsed_block]
    by_cases hx : x = b
    · subst hx
      simp [← hfree]
    · simp [hx]
  have hused : (markFree (markUsed h b) b).used = h.used := by
    rw [show (markFree (markUsed h b) b).used =
      sub32 (add32 h.used (h.block b).size) ((markUsed h b).block b).size from rfl, hsize, sub32,
      add32]
    omega
  obtain ⟨pmm, block, head, total, used⟩ := h
  simp only [markFree, markUsed, Heap.modify] at hblock hused ⊢
  simp only [hblock, hused]

/-- When a listed block fits, a cycle takes it and puts everything back as it was. -/
theorem cycle_restores (ht : h.Tidy bs) (hlt : h.used < 2 ^ 32) (hz : size ≠ 0)
    (hfit : ∃ m ∈ bs, h.Fits (blockBytes size) m) (hf : bs.length < fuel) :
    ∃ h' p, kmalloc fuel h size = some (h', p) ∧ p ≠ 0 ∧ kfree h' p = h := by
  obtain ⟨q, hq⟩ := id ht.chain
  obtain ⟨b, hfind⟩ : ∃ b, findFit h (blockBytes size) fuel h.head = some b :=
    findFit_terminates hq hf
  rcases findFit_seg hq hfind with ⟨-, hnone⟩ | ⟨hmem, hfree, -⟩
  · obtain ⟨m, hm, hfits⟩ := hfit
    exact (hnone m hm hfits).elim
  · have hb : b ≠ 0 := ht.chain.ne_null hmem
    have hptr := ht.address b hmem
    refine ⟨markUsed h b, b + headerSize, ?_, by simp [headerSize], ?_⟩
    · rw [kmalloc_walk fuel h hz, hfind, Option.bind_some, if_pos hb, add32_of_lt hptr]
    · rw [kfree_eq hptr (by simp [markUsed_block]), markFree_markUsed hfree hlt,
        ht.fuseNext_idle hmem hfree, ht.fusePrev_idle hmem hfree]

theorem fusePrev_counter : (fusePrev h b).used = h.used := by
  unfold fusePrev
  dsimp only
  split <;> [split; skip] <;> rfl

theorem kfree_counter (hb : b + headerSize < 2 ^ 32) (hu : (h.block b).used = true) :
    (kfree h (b + headerSize)).used < 2 ^ 32 := by
  rw [kfree_eq hb hu, fusePrev_counter, fuseNext_frame.2]
  exact Nat.mod_lt _ (by decide)

/-- After one allocation of a size and its release, further cycles of that size all succeed and
change nothing at all. -/
theorem cycles_steady (ht : h.Tidy bs) (hk : kmalloc fuel h n = some (h', p)) (hp : p ≠ 0)
    (hfresh : h.FreshPages h' bs) (hsum : ∀ cs, h'.Chain cs → h'.sizes cs < 2 ^ 32) :
    ∃ bs', (kfree h' p).Tidy bs' ∧
      ∀ k fuel, bs'.length < fuel → cycles fuel n k (kfree h' p) = some (kfree h' p) := by
  have hz : n ≠ 0 := by
    rintro rfl
    simp only [kmalloc, if_true, Option.some.injEq, Prod.mk.injEq] at hk
    exact hp hk.2.symm
  obtain ⟨cs, htidy, -, -, hhanded⟩ := ht.kmalloc hk hfresh
  obtain ⟨b, hb, rfl, hused, hsize, -⟩ := hhanded hp
  obtain ⟨bs', hfreed, -, -, -, hfit⟩ := htidy.kfree hb hused
  obtain ⟨m, hm, hfree, hle⟩ := hfit (hsum cs htidy.chain)
  refine ⟨bs', hfreed, fun k fuel hf => ?_⟩
  obtain ⟨h2, p, hcycle, hp2, hback⟩ :=
    cycle_restores hfreed (kfree_counter (htidy.address b hb) hused) hz ⟨m, hm, hfree, by omega⟩ hf
  induction k with
  | zero => rfl
  | succ k ih =>
    rw [cycles, hcycle]
    simp [hp2, hback, ih]

/-- A used block and a free one too small for the request: the first cycle makes a block of its own,
which its release fuses with the free one. -/
theorem cycles_steady_free_neighbour : ∃ h h' : Heap, h.Tidy [4096, 8192] ∧
    (h.block 8192).used = false ∧ kmalloc 4 h 200 = some (h', 12304) ∧
    ∃ fuel, cycles fuel 200 50 (kfree h' 12304) = some (kfree h' 12304) := by
  have hvals : ((⟨smallHeap, []⟩ : HeapRun).exec 4 [.kmalloc 100, .kmalloc 100, .kfree 8208]).bind
      (fun t => (kmalloc 4 t.heap 200).map fun r =>
        ((t.heap.head, [4096, 8192].map t.heap.block),
          (t.heap.pmm.bitmapSize, [1, 2].map t.heap.pmm.pageUsed),
          (r.2, r.1.head), [4096, 8192, 12288].map r.1.block)) =
      some ((4096, [⟨116, true, 8192, 0⟩, ⟨116, false, 0, 4096⟩]), (2, [true, true]),
        (12304, 4096),
        [⟨116, true, 8192, 0⟩, ⟨116, false, 12288, 4096⟩, ⟨216, true, 0, 8192⟩]) := by
    decide +kernel
  obtain ⟨⟨h, live⟩, -, hvals⟩ := Option.bind_eq_some_iff.mp hvals
  obtain ⟨⟨h', p⟩, hk, hvals⟩ := Option.map_eq_some_iff.mp hvals
  simp only [List.map_cons, List.map_nil, Prod.mk.injEq, List.cons.injEq, and_true] at hvals
  obtain ⟨⟨hhead, hfirst, hsecond⟩, ⟨hwords, hpages⟩, ⟨rfl, hhead'⟩, hfirst', hsecond', hthird'⟩ :=
    hvals
  have ht : h.Tidy [4096, 8192] := by
    refine ⟨⟨⟨8192, ?_⟩, by decide, by omega⟩, ?_⟩
    · simp [Seg, hhead, hfirst, hsecond]
    · simp [Heap.Busy, hfirst]
  have hfresh : h.FreshPages h' [4096, 8192] := by
    have hlisted : ∀ b ∈ [4096, 8192], b / pageSize = 1 ∨ b / pageSize = 2 := by decide
    rintro page hclear - b hb rfl
    rcases hlisted b hb with hpage | hpage
    · simp [hpage, hpages.1] at hclear
    · simp [hpage, hpages.2] at hclear
  have hsum : ∀ cs, h'.Chain cs → h'.sizes cs < 2 ^ 32 := by
    rintro cs ⟨q, hq⟩
    have hthree : Seg (fun b => (h'.block b).next) (fun b => (h'.block b).prev) 0 0 h'.head
        [4096, 8192, 12288] 12288 0 := by simp [Seg, hhead', hfirst', hsecond', hthird']
    rw [Linked.unique hq hthree]
    simp [hfirst', hsecond', hthird']
  obtain ⟨bs', -, hsteady⟩ := cycles_steady ht hk (by decide) hfresh hsum
  exact ⟨h, h', ht, by simp [hsecond], hk, bs'.length + 1, hsteady 50 _ (Nat.lt_succ_self _)⟩

end Cycles

section DoubleFree

/-- The pointer of a listed block in use. -/
def Heap.LivePtr (h : Heap) (bs : List Nat) (p : Nat) : Prop :=
  ∃ b ∈ bs, p = b + headerSize ∧ (h.block b).used = true

/-- `kfree` of a live pointer other than `p`. -/
inductive FreeOther (p : Nat) : Heap → Nat → Heap → Prop
  | kfree {h : Heap} {bs : List Nat} {q : Nat} : h.Chain bs → h.LivePtr bs q → q ≠ p →
      FreeOther p h q (kfree h q)

/-- No `kfree` takes a flag back. -/
theorem kfree_stays_free (hx : (h.block x).used = false) : ((kfree h p).block x).used = false := by
  unfold kfree
  split
  · exact hx
  · dsimp only
    split
    · exact hx
    · rw [fusePrev_used, fuseNext_used]
      simp only [Heap.modify, Function.update_apply]
      split
      · rfl
      · exact hx

/-- A second `kfree` of a pointer prints a warning and changes nothing else, however many other
pointers were freed in between. -/
theorem double_free_harmless {qs : List Nat} (ht : h.Tidy bs) (hp : h.LivePtr bs p)
    (hr : Run (FreeOther p) (kfree h p) qs t) :
    kfree t p = { t with pmm := t.pmm.vgaPuts "[HEAP] Double free detected\n" 0x1C } ∧
      ∃ bs', t.Tidy bs' := by
  obtain ⟨b, hb, rfl, hu⟩ := hp
  have hinv : (t.block b).used = false ∧ ∃ bs', t.Tidy bs' := by
    refine hr.invariant (fun t => (t.block b).used = false ∧ ∃ bs', t.Tidy bs') ?_ ?_
    · rintro s q t ⟨hc, ⟨c, hmem, rfl, hused⟩, -⟩ ⟨hfree, bs', htidy⟩
      obtain ⟨_, hseg⟩ := hc
      obtain ⟨_, hseg'⟩ := htidy.chain
      rw [Linked.unique hseg hseg'] at hmem
      obtain ⟨cs, htidy', -⟩ := htidy.kfree hmem hused
      exact ⟨kfree_stays_free hfree, cs, htidy'⟩
    · obtain ⟨cs, htidy, -, -, hfree, -⟩ := ht.kfree hb hu
      exact ⟨hfree, cs, htidy⟩
  refine ⟨?_, hinv.2⟩
  have hne : b + headerSize ≠ 0 := by simp [headerSize]
  simp only [kfree, hne, if_false, sub_header (ht.address b hb), hinv.1, if_true]

/-- Two blocks on the small machine; the first is freed between the two frees of the second, and
swallows it. -/
theorem double_free_harmless_fused :
    ∃ h t : Heap, Run (FreeOther 8208) (kfree h 8208) [4112] t ∧
      kfree t 8208 = { t with pmm := t.pmm.vgaPuts "[HEAP] Double free detected\n" 0x1C } := by
  have hvals : ((⟨smallHeap, []⟩ : HeapRun).exec 2 [.kmalloc 100, .kmalloc 100]).map (fun t =>
      (t.heap.head, t.heap.block 4096, t.heap.block 8192, t.heap.pmm.bitmapSize)) =
      some (4096, ⟨116, true, 8192, 0⟩, ⟨116, true, 0, 4096⟩, 2) := by decide +kernel
  obtain ⟨⟨h, live⟩, -, hvals⟩ := Option.map_eq_some_iff.mp hvals
  simp only [Prod.mk.injEq] at hvals
  obtain ⟨hhead, hfirst, hsecond, hwords⟩ := hvals
  have ht : h.Tidy [4096, 8192] := by
    refine ⟨⟨⟨8192, ?_⟩, by decide, by omega⟩, ?_⟩
    · simp [Seg, hhead, hfirst, hsecond]
    · simp [Heap.Busy, hfirst]
  have hlive : h.LivePtr [4096, 8192] 8208 := ⟨8192, by simp, rfl, by simp [hsecond]⟩
  obtain ⟨bs', htidy, -, hkept, -⟩ := ht.kfree (b := 8192) (by simp) (by simp [hsecond])
  have hother : (kfree h 8208).LivePtr bs' 4112 := by
    obtain ⟨hmem, hused⟩ := (hkept.listed 4096 (by decide)).mpr ⟨by simp, by simp [hfirst]⟩
    exact ⟨4096, hmem, rfl, hused⟩
  have hr : Run (FreeOther 8208) (kfree h 8208) [4112] (kfree (kfree h 8208) 4112) :=
    .single (.kfree htidy.chain hother (by decide))
  exact ⟨h, _, hr, (double_free_harmless ht hlive hr).1⟩

end DoubleFree

end HumanOS

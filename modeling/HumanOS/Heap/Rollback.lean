import HumanOS.Heap.Effects
import HumanOS.Heap.Ownership

/-!
# Failed allocations

What `create_block` does to the PMM in any state, fragmented or with counters that do not agree
with the bitmap: it takes the lowest clear pages one by one, and when they run out gives back as
many pages counted from the first.
-/
namespace HumanOS

open Lib Lib.Bitmap Pmm

variable {s t u : Pmm} {h h' : Heap} {f k n p fuel size : Nat} {ps qs : List Nat}

/-- The counters are 32-bit words and the bitmap has no more words than it was given. -/
structure Pmm.Typed (s : Pmm) : Prop where
  used : s.usedPages < 2 ^ 32
  free : s.freePages < 2 ^ 32
  words : s.bitmapSize ≤ 32768

/-- How many pages `pmm_alloc_page` can hand out one after the other. -/
def Pmm.available (s : Pmm) : Nat := min s.freePages (clearCount s.bitmap (32 * s.bitmapSize))

/-- The pages `ps` have been taken one after the other, each the lowest clear one at its time. -/
structure Took (s t : Pmm) (ps : List Nat) : Prop where
  pages : ∀ k, t.pageUsed k = (decide (k ∈ ps) || s.pageUsed k)
  clear : ∀ p ∈ ps, s.pageUsed p = false
  sorted : ps.Pairwise (· < ·)
  lowest : ∀ p ∈ ps, ∀ k, t.pageUsed k = false → p < k
  inside : ∀ p ∈ ps, p < 32 * s.bitmapSize
  size : t.bitmapSize = s.bitmapSize
  total : t.totalPages = s.totalPages
  free : t.freePages + ps.length = s.freePages
  used : t.usedPages = (s.usedPages + ps.length) % 2 ^ 32
  count : clearCount t.bitmap (32 * s.bitmapSize) + ps.length =
    clearCount s.bitmap (32 * s.bitmapSize)

namespace Took

theorem refl (hs : s.Typed) : Took s s [] where
  pages := by simp
  clear := by simp
  sorted := .nil
  lowest := by simp
  inside := by simp
  size := rfl
  total := rfl
  free := rfl
  used := (Nat.mod_eq_of_lt hs.used).symm
  count := rfl

theorem puts (h : Took s t ps) {text : String} {color : Nat} :
    Took s (t.vgaPuts text color) ps :=
  ⟨h.pages, h.clear, h.sorted, h.lowest, h.inside, h.size, h.total, h.free, h.used, h.count⟩

/-- One more page, the lowest clear one. -/
theorem take (h : Took s t ps) (hs : s.Typed) (hp : p < 32 * s.bitmapSize) (hlow : t.Lowest p)
    (hfree : t.freePages ≠ 0) : Took s (t.take p) (ps ++ [p]) := by
  have hnot : p ∉ ps := by
    intro hmem
    have hset := h.pages p
    rw [decide_eq_true hmem, hlow.1] at hset
    simp at hset
  have hclear : s.pageUsed p = false := by
    have hbit := h.pages p
    rw [decide_eq_false hnot, hlow.1] at hbit
    simpa using hbit.symm
  have hbound := hs.free
  have hcounter := h.free
  refine ⟨fun k => ?_, fun q hq => ?_, ?_, fun q hq k hk => ?_, fun q hq => ?_, h.size, h.total,
    ?_, ?_, ?_⟩
  · rw [take_pageUsed, h.pages]
    by_cases hk : k = p <;> simp [hk]
  · rcases List.mem_append.mp hq with hq | hq
    · exact h.clear q hq
    · rwa [List.mem_singleton.mp hq]
  · refine List.pairwise_append.mpr ⟨h.sorted, List.pairwise_singleton _ _, fun q hq r hr => ?_⟩
    rw [List.mem_singleton.mp hr]
    exact h.lowest q hq p hlow.1
  · rw [take_pageUsed, Bool.or_eq_false_iff, decide_eq_false_iff_not] at hk
    rcases List.mem_append.mp hq with hq | hq
    · exact h.lowest q hq k hk.2
    · rw [List.mem_singleton.mp hq]
      by_contra hle
      have hused := hlow.2 k (by omega)
      simp [hk.2] at hused
  · rcases List.mem_append.mp hq with hq | hq
    · exact h.inside q hq
    · rwa [List.mem_singleton.mp hq]
  · rw [show (t.take p).freePages = sub32 t.freePages 1 from rfl,
      sub32_of_le (by omega) (by omega), List.length_append, List.length_singleton]
    omega
  · rw [show (t.take p).usedPages = add32 t.usedPages 1 from rfl, add32, h.used,
      List.length_append, List.length_singleton]
    omega
  · have hcount : clearCount (setBit t.bitmap p) (32 * s.bitmapSize) + 1 =
        clearCount t.bitmap (32 * s.bitmapSize) := clearCount_setBit (by decide) hp hlow.1
    have hsum := h.count
    rw [show (t.take p).bitmap = setBit t.bitmap p from rfl, List.length_append,
      List.length_singleton]
    omega

theorem length_le (h : Took s t ps) : ps.length ≤ s.available := by
  have hfree := h.free
  have hcount := h.count
  unfold Pmm.available
  omega

/-- A call takes one more page as long as there is one, and else changes nothing. -/
theorem alloc (h : Took s t ps) (hs : s.Typed) :
    (ps.length < s.available ∧ ∃ p, pmmAllocPage t = (t.take p, p * pageSize) ∧
      Took s (t.take p) (ps ++ [p])) ∨
    (ps.length = s.available ∧ (pmmAllocPage t).2 = 0 ∧ Took s (pmmAllocPage t).1 ps) := by
  have hle := h.length_le
  have hfree := h.free
  have hcount := h.count
  rcases pmmAllocPage_any t with ⟨hf, heq⟩ | ⟨-, hfull, heq⟩ | ⟨p, hp, hlow, hf, heq⟩
  · refine Or.inr ⟨?_, by rw [heq], by rw [heq]; exact h.puts⟩
    unfold Pmm.available at hle ⊢
    omega
  · refine Or.inr ⟨?_, by rw [heq], by rw [heq]; exact h⟩
    rw [h.size] at hfull
    have hzero : clearCount t.bitmap (32 * s.bitmapSize) = 0 := clearCount_eq_zero hfull
    unfold Pmm.available at hle ⊢
    omega
  · rw [h.size] at hp
    have hnext := h.take hs hp hlow hf
    refine Or.inl ⟨?_, p, heq, hnext⟩
    have hlonger := hnext.length_le
    rw [List.length_append, List.length_singleton] at hlonger
    omega

/-- Counting up from the first page taken never overtakes the pages taken. -/
theorem le_getElem (h : Took s t (f :: ps)) (hk : k < (f :: ps).length) :
    f + k ≤ (f :: ps)[k] := by
  induction k with
  | zero => simp
  | succ k ih =>
    have hprev := ih (by omega)
    have hlt : (f :: ps)[k] < (f :: ps)[k + 1] :=
      List.pairwise_iff_getElem.mp h.sorted k (k + 1) (by omega) hk (by omega)
    omega

theorem used_run (h : Took s t (f :: ps)) (hk : k < (f :: ps).length) :
    t.pageUsed (f + k) = true := by
  have hle := h.le_getElem hk
  by_contra hb
  have hlt := h.lowest _ (List.getElem_mem hk) (f + k) (by simpa using hb)
  omega

theorem run_inside (h : Took s t (f :: ps)) (hs : s.Typed) : f + (f :: ps).length ≤ 2 ^ 20 := by
  have hlast : ps.length < (f :: ps).length := by simp
  have hle := h.le_getElem hlast
  have hlt := h.inside _ (List.getElem_mem hlast)
  have hwords := hs.words
  rw [List.length_cons]
  omega

/-- If the run from the first page on was clear, it is what was taken. -/
theorem run_taken (h : Took s t (f :: ps))
    (hrun : ∀ k < (f :: ps).length, s.pageUsed (f + k) = false) :
    ∀ p ∈ f :: ps, p < f + (f :: ps).length := by
  intro p hp
  by_contra hge
  have hsub : Finset.image (f + ·) (Finset.range (f :: ps).length) ⊆
      (f :: ps).toFinset.erase p := by
    intro q hq
    obtain ⟨k, hk, rfl⟩ := Finset.mem_image.mp hq
    rw [Finset.mem_range] at hk
    refine Finset.mem_erase.mpr ⟨by omega, List.mem_toFinset.mpr ?_⟩
    by_contra hnot
    have hclear : t.pageUsed (f + k) = false := by
      rw [h.pages, hrun k hk, decide_eq_false hnot]
      rfl
    have hlt := h.lowest p hp _ hclear
    omega
  have hcard := Finset.card_le_card hsub
  rw [Finset.card_image_of_injective _ (add_right_injective f), Finset.card_range,
    Finset.card_erase_of_mem (List.mem_toFinset.mpr hp),
    List.toFinset_card_of_nodup (h.sorted.imp (fun hlt => Nat.ne_of_lt hlt))] at hcard
  rw [List.length_cons] at hcard
  omega

end Took

/-- A run of used pages has been given back, in any state. -/
structure Released (s t : Pmm) (f n : Nat) : Prop where
  pages : ∀ k, t.pageUsed k = (!decide (f ≤ k ∧ k < f + n) && s.pageUsed k)
  total : t.totalPages = s.totalPages
  size : t.bitmapSize = s.bitmapSize
  free : t.freePages = (s.freePages + n) % 2 ^ 32
  used : (t.usedPages + n) % 2 ^ 32 = s.usedPages ∧ t.usedPages < 2 ^ 32

theorem freePages_released (hfree : s.freePages < 2 ^ 32) (hcount : s.usedPages < 2 ^ 32)
    (hn : f + n ≤ 2 ^ 20) (hused : ∀ k < n, s.pageUsed (f + k) = true) :
    Released s (freePages (f * pageSize) n s) f n := by
  induction n with
  | zero =>
    refine ⟨fun k => ?_, rfl, rfl, (Nat.mod_eq_of_lt hfree).symm, Nat.mod_eq_of_lt hcount, hcount⟩
    simp [freePages]
    omega
  | succ n ih =>
    obtain ⟨hpages, htotal, hsize, hfree', hused', hlt⟩ :=
      ih (by omega) fun k hk => hused k (by omega)
    have hset : (freePages (f * pageSize) n s).pageUsed (f + n) = true := by
      simp [hpages, hused n (by omega)]
    rw [freePages_succ (by omega) hset]
    generalize freePages (f * pageSize) n s = t at *
    refine ⟨fun k => release_run hpages, htotal, hsize, ?_, ?_, Nat.mod_lt _ (by decide)⟩
    · rw [show (t.release (f + n)).freePages = add32 t.freePages 1 from rfl, add32, hfree']
      omega
    · rw [show (t.release (f + n)).usedPages = sub32 t.usedPages 1 from rfl, sub32]
      omega

/-- The rollback of `create_block` restores the counters, and the bitmap exactly if the pages
taken were consecutive. -/
theorem Took.rollback (h : Took s t (f :: ps)) (hs : s.Typed) :
    (freePages (f * pageSize) (f :: ps).length t).totalPages = s.totalPages ∧
    (freePages (f * pageSize) (f :: ps).length t).usedPages = s.usedPages ∧
    (freePages (f * pageSize) (f :: ps).length t).freePages = s.freePages ∧
    ((freePages (f * pageSize) (f :: ps).length t).bitmap = s.bitmap ↔
      ∀ k < (f :: ps).length, s.pageUsed (f + k) = false) := by
  have hfree := h.free
  have hcount := h.used
  have hin := h.run_inside hs
  have hbound := hs.free
  have hlt := hs.used
  have hrel := freePages_released (s := t) (by omega) (by omega) hin fun k hk => h.used_run hk
  generalize freePages (f * pageSize) (f :: ps).length t = u at *
  have hfree' := hrel.free
  obtain ⟨hused', hlt'⟩ := hrel.used
  refine ⟨hrel.total.trans h.total, by omega, by omega, fun heq k hk => ?_, fun hrun => ?_⟩
  · have hbit : u.pageUsed (f + k) = s.pageUsed (f + k) := by rw [pageUsed, heq, pageUsed]
    rw [← hbit, hrel.pages, decide_eq_true ⟨Nat.le_add_right f k, Nat.add_lt_add_left hk f⟩]
    rfl
  · have htaken := h.run_taken hrun
    refine eq_of_bits (by decide) fun k => ?_
    change u.pageUsed k = s.pageUsed k
    rw [hrel.pages, h.pages]
    by_cases hin : f ≤ k ∧ k < f + (f :: ps).length
    · have hclear := hrun (k - f) (by omega)
      rw [Nat.add_sub_cancel' hin.1] at hclear
      rw [decide_eq_true hin, hclear]
      rfl
    · have hnot : k ∉ f :: ps := by
        intro hmem
        have hle : f ≤ k := by
          rcases List.mem_cons.mp hmem with rfl | hmem
          · exact le_rfl
          · exact (List.rel_of_pairwise_cons h.sorted hmem).le
        exact hin ⟨hle, htaken k hmem⟩
      rw [decide_eq_false hin, decide_eq_false hnot]
      simp

section Create

/-- How many pages `create_block` asks for. -/
def pagesAsked (size : Nat) : Nat := max 1 (pagesFor (blockBytes size))

/-- The page loop of `create_block`: it gets all its pages, or takes all there are and rolls
back. -/
theorem allocRest_any (h : Took s t (f :: ps)) (hs : s.Typed) :
    ((f :: ps).length + n ≤ s.available ∧ ∃ u qs,
      allocRest (f * pageSize) (f :: ps).length n t = (u, true) ∧ Took s u (f :: qs) ∧
      (f :: qs).length = (f :: ps).length + n) ∨
    (s.available < (f :: ps).length + n ∧ ∃ u qs, Took s u (f :: qs) ∧
      (f :: qs).length = s.available ∧
      allocRest (f * pageSize) (f :: ps).length n t =
        (freePages (f * pageSize) (f :: qs).length u, false)) := by
  induction n generalizing t ps with
  | zero => exact Or.inl ⟨h.length_le, t, ps, rfl, h, rfl⟩
  | succ n ih =>
    rcases h.alloc hs with ⟨-, p, heq, hnext⟩ | ⟨hlen, hnull, hsame⟩
    · rw [List.cons_append] at hnext
      have hpos : f < p := List.rel_of_pairwise_cons hnext.sorted (by simp)
      have hne : p * pageSize = (p * pageSize - 1) + 1 := by
        simp only [pageSize]
        omega
      have hloop : allocRest (f * pageSize) (f :: ps).length (n + 1) t =
          allocRest (f * pageSize) ((f :: ps).length + 1) n (t.take p) := by
        rw [allocRest, heq, hne]
      have hlen : (f :: ps).length + 1 = (f :: (ps ++ [p])).length := by simp
      rw [hloop, hlen, show (f :: ps).length + (n + 1) = (f :: (ps ++ [p])).length + n by
        rw [← hlen]; omega]
      exact ih hnext
    · refine Or.inr ⟨by omega, _, ps, hsame, hlen, ?_⟩
      have hpair : pmmAllocPage t = ((pmmAllocPage t).1, 0) := Prod.ext rfl hnull
      rw [allocRest, hpair]

/-- What `create_block` can do, in any state: fail on the first page, take page 0 and think it
failed, get all its pages, or run out of them and roll back. -/
theorem createBlock_any (size : Nat) (hs : h.pmm.Typed) :
    (h.pmm.available = 0 ∧ ∃ u, createBlock h size = ({ h with pmm := u }, 0) ∧
      Took h.pmm u []) ∨
    (0 < h.pmm.available ∧ h.pmm.pageUsed 0 = false ∧
      createBlock h size = ({ h with pmm := h.pmm.take 0 }, 0)) ∨
    ∃ f, 0 < f ∧ h.pmm.Lowest f ∧
      ((pagesAsked size ≤ h.pmm.available ∧ ∃ u qs,
        createBlock h size = (h.withBlock u f (blockBytes size), f * pageSize) ∧
        Took h.pmm u (f :: qs) ∧ (f :: qs).length = pagesAsked size) ∨
      (h.pmm.available < pagesAsked size ∧ 0 < h.pmm.available ∧ ∃ u qs, Took h.pmm u (f :: qs) ∧
        (f :: qs).length = h.pmm.available ∧ createBlock h size =
          ({ h with pmm := freePages (f * pageSize) (f :: qs).length u }, 0))) := by
  rcases (Took.refl hs).alloc hs with ⟨hlen, f, heq, hnext⟩ | ⟨hlen, hnull, hsame⟩
  · rw [List.nil_append] at hnext
    have hlow : h.pmm.Lowest f := by
      refine ⟨hnext.clear f (by simp), fun q hq => ?_⟩
      by_contra hb
      have hne : q ≠ f := by omega
      have hlt := hnext.lowest f (by simp) q (by simpa [hne] using hb)
      omega
    rcases Nat.eq_zero_or_pos f with rfl | hpos
    · refine Or.inr (Or.inl ⟨hlen, hlow.1, ?_⟩)
      simp [createBlock, heq]
    · have hpage : f * pageSize ≠ 0 := by
        simp only [pageSize]
        omega
      refine Or.inr (Or.inr ⟨f, hpos, hlow, ?_⟩)
      have hasked : [f].length + (pagesFor (blockBytes size) - 1) = pagesAsked size := by
        simp only [List.length_singleton, pagesAsked]
        omega
      rcases allocRest_any (n := pagesFor (blockBytes size) - 1) hnext hs with
        ⟨hle, u, qs, hrest, htook, hlen'⟩ | ⟨hlt, u, qs, htook, hlen', hrest⟩
      · rw [hasked] at hle hlen'
        refine Or.inl ⟨hle, u, qs, ?_, htook, hlen'⟩
        rw [List.length_singleton, blockBytes] at hrest
        simp only [createBlock, heq, hpage, if_false, hrest]
        rfl
      · rw [hasked] at hlt
        refine Or.inr ⟨hlt, hlen, u, qs, htook, hlen', ?_⟩
        rw [List.length_singleton, blockBytes] at hrest
        simp only [createBlock, heq, hpage, if_false, hrest]
  · refine Or.inl ⟨hlen.symm, _, ?_, hsame⟩
    simp [createBlock, hnull]

end Create

section Failure

/-- A call has left the heap and the PMM as they were, the console aside. -/
structure Unchanged (h h' : Heap) : Prop where
  blocks : h'.block = h.block
  head : h'.head = h.head
  total : h'.total = h.total
  used : h'.used = h.used
  bitmap : h'.pmm.bitmap = h.pmm.bitmap
  totalPages : h'.pmm.totalPages = h.pmm.totalPages
  usedPages : h'.pmm.usedPages = h.pmm.usedPages
  freePages : h'.pmm.freePages = h.pmm.freePages

/-- Asking for `n` pages and not getting them leaves no trace: no page can be handed out at all,
or page 0 is in use, and there are enough pages or those that are left are consecutive. -/
def Pmm.Restores (s : Pmm) (n : Nat) : Prop :=
  s.available = 0 ∨ s.pageUsed 0 = true ∧
    (n ≤ s.available ∨ ∀ f, s.Lowest f → ∀ k < s.available, s.pageUsed (f + k) = false)

/-- When no listed block fits, the PMM is in a state that a failure does not spoil. The pointer
to a block found in the list is never NULL for headers at page starts. -/
def FailsCleanly (h : Heap) (size : Nat) : Prop :=
  size = 0 ∨ ∀ fuel b, findFit h (blockBytes size) fuel h.head = some b →
    if b = 0 then h.pmm.Restores (pagesAsked size) else add32 b headerSize ≠ 0

theorem pagesAsked_align4 : pagesAsked (align4 size) = pagesAsked size := by
  rw [pagesAsked, blockBytes_align4, pagesAsked]

/-- A pointer behind a header on a page is not NULL. -/
theorem payload_ne_zero : add32 (f * pageSize) headerSize ≠ 0 := by
  simp only [add32, pageSize, headerSize]
  omega

/-- Taking no page leaves the PMM as it was. -/
theorem Took.unchanged (h : Took s t []) (hs : s.Typed) : t.bitmap = s.bitmap ∧
    t.totalPages = s.totalPages ∧ t.usedPages = s.usedPages ∧ t.freePages = s.freePages := by
  refine ⟨eq_of_bits (by decide) fun k => ?_, h.total, ?_, h.free⟩
  · change t.pageUsed k = s.pageUsed k
    simpa using h.pages k
  · rw [h.used, List.length_nil, Nat.add_zero, Nat.mod_eq_of_lt hs.used]

theorem Unchanged.refl : Unchanged h h := ⟨rfl, rfl, rfl, rfl, rfl, rfl, rfl, rfl⟩

/-- A `create_block` that fails leaves everything as it was exactly under that condition. -/
theorem createBlock_failed (size : Nat) (hs : h.pmm.Typed)
    (hnull : (createBlock h size).2 = 0) :
    Unchanged h (createBlock h size).1 ↔ h.pmm.Restores (pagesAsked size) := by
  rcases createBlock_any size hs with ⟨hnone, u, heq, htook⟩ | ⟨hpos, hclear, heq⟩ |
    ⟨f, hpos, hlow, ⟨-, u, qs, heq, -, -⟩ | ⟨hlt, hav, u, qs, htook, hlen, heq⟩⟩
  · obtain ⟨hbitmap, htotal, hused, hfree⟩ := htook.unchanged hs
    rw [heq]
    exact iff_of_true ⟨rfl, rfl, rfl, rfl, hbitmap, htotal, hused, hfree⟩ (Or.inl hnone)
  · rw [heq]
    refine iff_of_false (fun hsame => ?_) ?_
    · have hbit : (h.pmm.take 0).pageUsed 0 = h.pmm.pageUsed 0 := by
        rw [pageUsed, hsame.bitmap, pageUsed]
      rw [hclear] at hbit
      simp at hbit
    · rintro (hnone | ⟨hused, -⟩)
      · omega
      · simp [hclear] at hused
  · rw [heq] at hnull
    simp only [pageSize] at hnull
    omega
  · obtain ⟨htotal, hused, hfree, hbitmap⟩ := htook.rollback hs
    rw [hlen] at hbitmap
    rw [heq]
    constructor
    · intro hsame
      have hrun := hbitmap.mp (hlen ▸ hsame.bitmap)
      refine Or.inr ⟨hlow.2 0 hpos, Or.inr fun g hg k hk => ?_⟩
      rw [hg.unique hlow]
      exact hrun k hk
    · rintro (hnone | ⟨-, hle | hrun⟩)
      · omega
      · omega
      · exact ⟨rfl, rfl, rfl, rfl, hlen ▸ hbitmap.mpr (hrun f hlow), htotal, hused, hfree⟩

/-- A `create_block` that succeeds had enough pages, and page 0 is in use. -/
theorem createBlock_succeeded (size : Nat) (hs : h.pmm.Typed)
    (hne : (createBlock h size).2 ≠ 0) :
    h.pmm.Restores (pagesAsked size) ∧ ∃ f, (createBlock h size).2 = f * pageSize := by
  rcases createBlock_any size hs with ⟨-, u, heq, -⟩ | ⟨-, -, heq⟩ |
    ⟨f, hpos, hlow, ⟨hle, u, qs, heq, -, -⟩ | ⟨-, -, u, qs, -, -, heq⟩⟩
  · simp [heq] at hne
  · simp [heq] at hne
  · exact ⟨Or.inr ⟨hlow.2 0 hpos, Or.inl hle⟩, f, by rw [heq]⟩
  · simp [heq] at hne

/-- In any state, reachable or not. -/
theorem failed_kmalloc_iff (hs : h.pmm.Typed) :
    (∀ fuel h', kmalloc fuel h size = some (h', 0) → Unchanged h h') ↔ FailsCleanly h size := by
  have hfailed := createBlock_failed (align4 size) hs
  have hmade := createBlock_succeeded (align4 size) hs
  rw [pagesAsked_align4] at hfailed hmade
  by_cases hz : size = 0
  · refine iff_of_true (fun fuel h' hk => ?_) (Or.inl hz)
    simp only [kmalloc, hz, if_true, Option.some.injEq, Prod.mk.injEq, and_true] at hk
    rw [← hk]
    exact .refl
  constructor
  · refine fun hall => Or.inr fun fuel b hfind => ?_
    have hk := kmalloc_walk fuel h hz
    rw [hfind, Option.bind_some] at hk
    by_cases hb : b = 0
    · simp only [hb, ne_eq, not_true_eq_false, if_false, if_true] at hk ⊢
      by_cases hnull : (createBlock h (align4 size)).2 = 0
      · rw [if_pos hnull] at hk
        exact (hfailed hnull).mp (hall fuel _ hk)
      · exact (hmade hnull).1
    · simp only [ne_eq, hb, not_false_eq_true, if_true, if_false] at hk ⊢
      intro hnull
      rw [hnull] at hk
      have hused := congrArg HeapBlock.used (congrFun (hall fuel _ hk).blocks b)
      rw [markUsed_block, (findFit_fits hfind hb).1] at hused
      simp at hused
  · intro hclean fuel h' hk
    rcases kmalloc_inv hk with ⟨hzero, -⟩ | ⟨b, hb, -, hfind, -, hptr⟩ | ⟨-, hfind, hcreate⟩
    · exact (hz hzero).elim
    · have hcond := hclean.resolve_left hz fuel b hfind
      rw [if_neg hb] at hcond
      exact (hcond hptr.symm).elim
    · have hcond := hclean.resolve_left hz fuel 0 hfind
      rw [if_pos rfl] at hcond
      obtain ⟨hnull, rfl, -⟩ | ⟨hmadeit, -, hptr⟩ := hcreate
      · exact (hfailed hnull).mpr hcond
      · obtain ⟨f, hpage⟩ := (hmade hmadeit).2
        rw [hpage] at hptr
        exact (payload_ne_zero hptr.symm).elim

/-- The counters stay 32-bit words. -/
theorem typed_kept : KeptByPages Pmm.Typed where
  alloc := by
    intro s hs
    refine ⟨?_, ?_, pmmAllocPage_bitmapSize.trans_le hs.words⟩ <;> unfold pmmAllocPage <;>
      split
    · exact hs.used
    · split
      · exact Nat.mod_lt _ (by decide)
      · exact hs.used
    · exact hs.free
    · split
      · exact Nat.mod_lt _ (by decide)
      · exact hs.free
  free := by
    intro s addr hs
    rcases pmmFreePage_cases s addr with ⟨-, heq⟩ | ⟨-, -, heq⟩ | ⟨-, -, heq⟩ <;> rw [heq]
    · exact ⟨hs.used, hs.free, hs.words⟩
    · exact ⟨hs.used, hs.free, hs.words⟩
    · exact ⟨Nat.mod_lt _ (by decide), Nat.mod_lt _ (by decide), hs.words⟩
  puts := fun hs => ⟨hs.used, hs.free, hs.words⟩

theorem HeapStep.typed {r r' : HeapRun} {op : HeapOp} (hs : r.heap.pmm.Typed)
    (hr : HeapStep r op r') : r'.heap.pmm.Typed := by
  cases hr with
  | kmalloc hk => exact kmalloc_kept typed_kept hs hk
  | kfree _ => exact kfree_kept typed_kept hs
  | pmmAllocPage => exact typed_kept.alloc hs

/-- From whatever state the calls start, in every state they reach a failed `kmalloc` changes
nothing, exactly under that condition on the state before. -/
theorem failed_kmalloc_unchanged_iff {live : List Nat} {ops : List HeapOp} {r : HeapRun}
    (hs : h.pmm.Typed) (hr : Run HeapStep ⟨h, live⟩ ops r) :
    (∀ fuel h', kmalloc fuel r.heap size = some (h', 0) → Unchanged r.heap h') ↔
      FailsCleanly r.heap size := by
  have htyped : r.heap.pmm.Typed :=
    hr.invariant (fun r => r.heap.pmm.Typed) (fun _ _ _ hstep ht => hstep.typed ht) hs
  exact failed_kmalloc_iff htyped

theorem smallHeap_typed : smallHeap.pmm.Typed := ⟨by decide, by decide, by decide⟩

/-- More than the small machine has is asked for: all its pages are taken and given back. -/
theorem failed_kmalloc_unchanged_iff_small :
    ∃ h', kmalloc 1 smallHeap 300000 = some (h', 0) ∧ Unchanged smallHeap h' := by
  have hk : kmalloc 1 smallHeap 300000 = some ((createBlock smallHeap 300000).1, 0) := by
    have hnull : (createBlock smallHeap 300000).2 = 0 := by decide +kernel
    rw [kmalloc_walk 1 smallHeap (by decide)]
    simp [findFit, show smallHeap.head = 0 from rfl, show align4 300000 = 300000 by decide, hnull]
  have hlow : smallHeap.pmm.Lowest 1 := by
    refine ⟨by decide, fun q hq => ?_⟩
    obtain rfl : q = 0 := by omega
    exact smallHeap_page0
  have hclean : FailsCleanly smallHeap 300000 := by
    refine Or.inr fun fuel b hfind => ?_
    have hb : b = 0 := by
      cases fuel with
      | zero => simp [findFit] at hfind
      | succ fuel => simpa [findFit, show smallHeap.head = 0 from rfl] using hfind.symm
    rw [if_pos hb]
    have hrun : ∀ k < smallHeap.pmm.available, smallHeap.pmm.pageUsed (1 + k) = false := by
      decide +kernel
    refine Or.inr ⟨smallHeap_page0, Or.inr fun f hf k hk => ?_⟩
    rw [hf.unique hlow]
    exact hrun k hk
  have hrun : Run HeapStep ⟨smallHeap, []⟩ [] ⟨smallHeap, []⟩ := .refl
  exact ⟨_, hk, (failed_kmalloc_unchanged_iff smallHeap_typed hrun).mpr hclean 1 _ hk⟩

/-- Pages 2 and 5 are free when a large request fails; pages 2 and 3 are given back, and page 3
belongs to a live block. -/
theorem failed_kmalloc_changes_bitmap :
    ¬ ∀ (h h' : Heap) (ops : List HeapOp) (t : HeapRun) (fuel size : Nat), h.pmm.Accounted →
      h.pmm.pageUsed 0 = true → Run HeapStep ⟨heapInit h, []⟩ ops t →
      kmalloc fuel t.heap size = some (h', 0) → Unchanged t.heap h' := by
  intro hall
  have hvals : ((⟨smallHeap, []⟩ : HeapRun).exec 8 [.kmalloc 100, .kmalloc 100, .kmalloc 100,
      .kmalloc 100, .kmalloc 100, .kmalloc 237552, .kfree 4112, .kfree 8208, .kfree 16400,
      .kfree 20496]).bind (fun t => (kmalloc 8 t.heap 20000).map fun r =>
        (r.2, t.heap.pmm.pageUsed 3, r.1.pmm.pageUsed 3)) = some (0, true, false) := by
    decide +kernel
  obtain ⟨t, ht, hvals⟩ := Option.bind_eq_some_iff.mp hvals
  obtain ⟨⟨h', p⟩, hk, hvals⟩ := Option.map_eq_some_iff.mp hvals
  simp only [Prod.mk.injEq] at hvals
  obtain ⟨rfl, hbefore, hafter⟩ := hvals
  have hsame := hall smallHeap h' _ t 8 20000 smallHeap_accounted smallHeap_page0
    (HeapRun.exec_run ht) hk
  rw [pageUsed, hsame.bitmap, ← pageUsed, hbefore] at hafter
  simp at hafter

end Failure

end HumanOS

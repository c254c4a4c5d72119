import HumanOS.Heap.Model
import HumanOS.Pmm.Accounting

/-! What `create_block` and `kfree` do to the bitmap when the pages they touch are consecutive. -/
namespace HumanOS

open Lib Lib.Bitmap Pmm

variable {s t u : Pmm} {f i k n : Nat}

/-- The two PMM states mark the same pages, with consistent counters in the second. -/
structure SamePages (s t : Pmm) : Prop where
  accounted : t.Accounted
  total : t.totalPages = s.totalPages
  pages : ∀ k, t.pageUsed k = s.pageUsed k

/-- The second state has taken the `i` pages from `f` on. -/
structure TookRun (s t : Pmm) (f i : Nat) : Prop where
  accounted : t.Accounted
  total : t.totalPages = s.totalPages
  pages : ∀ k, t.pageUsed k = (decide (f ≤ k ∧ k < f + i) || s.pageUsed k)
  free : t.freePages + i = s.freePages

/-- The second state has given back the `i` pages from `f` on. -/
structure GaveRun (s t : Pmm) (f i : Nat) : Prop where
  accounted : t.Accounted
  total : t.totalPages = s.totalPages
  pages : ∀ k, t.pageUsed k = (!decide (f ≤ k ∧ k < f + i) && s.pageUsed k)

/-- The pages an allocation of `n` pages would take are consecutive and below `limit`: from the
lowest free page on, as many as are wanted and free. -/
def ContiguousBelow (limit : Nat) (s : Pmm) (n : Nat) : Prop :=
  ∀ f, s.Lowest f → ∀ k < min n s.freePages,
    f + k < s.totalPages ∧ f + k < limit ∧ s.pageUsed (f + k) = false

/-- A page outside the run given back is still in use. -/
theorem GaveRun.used (h : GaveRun s t f i) (hk : s.pageUsed k = true) (hout : k < f ∨ f + i ≤ k) :
    t.pageUsed k = true := by
  have hnot : ¬ (f ≤ k ∧ k < f + i) := by omega
  rw [h.pages, hk, decide_eq_false hnot]
  rfl

theorem TookRun.zero (h : s.Accounted) : TookRun s s f 0 :=
  ⟨h, rfl, fun k => by simp, rfl⟩

/-- Taking the next page of the run: it is the lowest free one. -/
theorem TookRun.step (h : TookRun s t f i) (hbelow : ∀ q < f, s.pageUsed q = true)
    (hlt : f + i < s.totalPages) (hclear : s.pageUsed (f + i) = false) :
    pmmAllocPage t = (t.take (f + i), (f + i) * pageSize) ∧
      TookRun s (t.take (f + i)) f (i + 1) := by
  have hlow : t.Lowest (f + i) := by
    refine ⟨by simp [h.pages, hclear], fun q hq => ?_⟩
    by_cases hqf : q < f
    · simp [h.pages, hbelow q hqf]
    · simp only [h.pages, Bool.or_eq_true, decide_eq_true_eq]
      exact Or.inl ⟨by omega, hq⟩
  have htotal := h.total
  have hacc := take_accounted h.accounted (by omega) hlow.1
  refine ⟨pmmAllocPage_lowest h.accounted (by omega) hlow, hacc, htotal, fun k => ?_, ?_⟩
  · simp only [take_pageUsed, h.pages]
    by_cases hk : k = f + i
    · subst hk
      simp
    · by_cases hrun : f ≤ k ∧ k < f + i
      · simp [hrun.1, hrun.2, show k < f + (i + 1) by omega]
      · have hnot : ¬ (f ≤ k ∧ k < f + (i + 1)) := by omega
        simp [hk, hrun, hnot]
  · have hpos : t.freePages ≠ 0 := by
      have hcount := clearCount_pos.mpr ⟨f + i, htotal ▸ hlt, hlow.1⟩
      rw [h.accounted.free]
      exact hcount.ne'
    have hbound := h.accounted.bound
    have hsum := h.accounted.total
    have hfree := h.free
    have hsub : (t.take (f + i)).freePages = t.freePages - 1 :=
      sub32_of_le (by omega) (by omega)
    omega

/-- When no page is left the allocator reports it and changes no page. -/
theorem pmmAllocPage_empty (h : t.Accounted) (hf : t.freePages = 0) :
    (pmmAllocPage t).2 = 0 ∧ SamePages t (pmmAllocPage t).1 := by
  have heq : pmmAllocPage t = (t.vgaPuts "[PMM] Out of memory!\n" 0x1C, 0) := by
    simp [pmmAllocPage, hf]
  rw [heq]
  exact ⟨rfl, vgaPuts_accounted h, rfl, fun _ => rfl⟩

/-- The loops give one page after the other back. -/
theorem freePages_succ (hn : f + n < 2 ^ 20)
    (hset : (freePages (f * pageSize) n s).pageUsed (f + n) = true) :
    freePages (f * pageSize) (n + 1) s = (freePages (f * pageSize) n s).release (f + n) := by
  have haddr : add32 (f * pageSize) (n * pageSize) = (f + n) * pageSize := by
    rw [add32_of_lt (by simp only [pageSize]; omega), Nat.add_mul]
  have hpage : (f + n) * pageSize / pageSize = f + n := Nat.mul_div_cancel _ (by decide)
  have hlast : freePages (f * pageSize) (n + 1) s =
      pmmFreePage (freePages (f * pageSize) n s) ((f + n) * pageSize) := by
    rw [← haddr]
    simp [freePages, List.range_succ]
  rcases pmmFreePage_cases (freePages (f * pageSize) n s) ((f + n) * pageSize) with
    ⟨hal, -⟩ | ⟨-, hfree, -⟩ | ⟨-, -, heq⟩
  · exact (hal (Nat.mul_mod_left _ _)).elim
  · rw [hpage, hset] at hfree
    simp at hfree
  · rw [hlast, heq, hpage]

/-- Clearing the page behind a run clears a longer run. -/
theorem release_run (hpages : ∀ k, t.pageUsed k = (!decide (f ≤ k ∧ k < f + n) && s.pageUsed k)) :
    (t.release (f + n)).pageUsed k =
      (!decide (f ≤ k ∧ k < f + (n + 1)) && s.pageUsed k) := by
  rw [release_pageUsed, hpages]
  by_cases hk : k = f + n
  · subst hk
    simp
  · by_cases hrun : f ≤ k ∧ k < f + n
    · simp [hrun.1, hrun.2, show k < f + (n + 1) by omega]
    · have hnot : ¬ (f ≤ k ∧ k < f + (n + 1)) := by omega
      simp [hk, hrun, hnot]

/-- Giving back used pages one after the other. -/
theorem freePages_gave (h : s.Accounted) (hn : f + n ≤ s.totalPages)
    (hused : ∀ k < n, s.pageUsed (f + k) = true) :
    GaveRun s (freePages (f * pageSize) n s) f n := by
  induction n with
  | zero => exact ⟨h, rfl, fun k => by simp [freePages]; omega⟩
  | succ n ih =>
    obtain ⟨hacc, htotal, hpages⟩ := ih (by omega) (fun k hk => hused k (by omega))
    have hbound := h.bound
    have hset : (freePages (f * pageSize) n s).pageUsed (f + n) = true := by
      simp [hpages, hused n (by omega)]
    rw [freePages_succ (by omega) hset]
    exact ⟨release_accounted hacc (by omega) hset, htotal, fun k => release_run hpages⟩

/-- Giving back a run that was just taken restores the bitmap. -/
theorem TookRun.giveBack (h : TookRun s t f i) (hi : f + i ≤ s.totalPages)
    (hclear : ∀ k < i, s.pageUsed (f + k) = false) :
    SamePages s (freePages (f * pageSize) i t) := by
  have hgave := freePages_gave h.accounted (n := i) (by rw [h.total]; exact hi)
    (fun k hk => by simp [h.pages, hk])
  refine ⟨hgave.accounted, hgave.total.trans h.total, fun k => ?_⟩
  rw [hgave.pages, h.pages]
  by_cases hrun : f ≤ k ∧ k < f + i
  · have hk := hclear (k - f) (by omega)
    rw [show f + (k - f) = k by omega] at hk
    simp [hrun, hk]
  · simp [hrun]

/-- The page loop of `create_block`, when it gets all its pages, frees none. -/
theorem allocRest_keeps {page q : Nat} (hr : (allocRest page i n s).2 = true)
    (hq : s.pageUsed q = true) : (allocRest page i n s).1.pageUsed q = true := by
  induction n generalizing i s with
  | zero => exact hq
  | succ n ih =>
    have halloc := pmmAllocPage_keeps hq
    rcases hp : pmmAllocPage s with ⟨t, _ | a⟩
    · simp [allocRest, hp] at hr
    · rw [hp] at halloc
      simp only [allocRest, hp] at hr ⊢
      exact ih hr halloc

/-- The page loop of `create_block` on a contiguous run: it takes the whole run, or, when the
free pages run out, gives everything back. -/
theorem allocRest_contiguous (h : TookRun s t f i) (hi : 0 < i)
    (hbelow : ∀ q < f, s.pageUsed q = true)
    (hrun : ∀ k < min (i + n) s.freePages, f + k < s.totalPages ∧ s.pageUsed (f + k) = false) :
    (∃ u, allocRest (f * pageSize) i n t = (u, true) ∧ TookRun s u f (i + n)) ∨
    (∃ u, allocRest (f * pageSize) i n t = (u, false) ∧ SamePages s u) := by
  induction n generalizing t i with
  | zero => exact Or.inl ⟨t, rfl, h⟩
  | succ n ih =>
    have hfree := h.free
    by_cases hlast : t.freePages = 0
    · obtain ⟨hnull, hsame⟩ := pmmAllocPage_empty h.accounted hlast
      have htook : TookRun s (pmmAllocPage t).1 f i := by
        refine ⟨hsame.accounted, hsame.total.trans h.total,
          fun k => (hsame.pages k).trans (h.pages k), ?_⟩
        have hempty : (pmmAllocPage t).1.freePages = t.freePages := by
          simp [pmmAllocPage, hlast]
        omega
      have hend : f + i ≤ s.totalPages := by
        have hprev := (hrun (i - 1) (by omega)).1
        omega
      refine Or.inr ⟨_, ?_, htook.giveBack hend (fun k hk => (hrun k (by omega)).2)⟩
      have hpair : pmmAllocPage t = ((pmmAllocPage t).1, 0) := Prod.ext rfl hnull
      rw [allocRest, hpair]
    · obtain ⟨hlt, hclear⟩ := hrun i (by omega)
      obtain ⟨halloc, hstep⟩ := h.step hbelow hlt hclear
      have hpos : (f + i) * pageSize = ((f + i) * pageSize - 1) + 1 := by
        simp only [pageSize]
        omega
      have hunfold : allocRest (f * pageSize) i (n + 1) t =
          allocRest (f * pageSize) (i + 1) n (t.take (f + i)) := by
        rw [allocRest, halloc, hpos]
      rw [hunfold, show i + (n + 1) = i + 1 + n by omega]
      exact ih hstep (by omega) (by rwa [show i + 1 + n = i + (n + 1) by omega])

end HumanOS

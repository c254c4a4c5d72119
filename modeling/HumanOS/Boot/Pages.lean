import HumanOS.Heap.Requests
import HumanOS.Paging.Mapped
import HumanOS.Pmm.Boot

/-!
# The pages taken at boot

Whatever way the memory was counted, `paging_init` and the first calls of `kmalloc` take the
lowest free pages one after the other, so that the place of each in the order of the free pages
says which it is.
-/
namespace HumanOS

open Lib Lib.Bitmap Pmm

variable {s t u b : Pmm} {pg : Paging} {h h' : Heap} {mem : Nat → UInt8} {magic : Word}
variable {mbi : MultibootInfo} {fuel f n p page size : Nat} {ps qs : List Nat}

section Boot

theorem take_typed (hs : s.Typed) : (s.take page).Typed :=
  ⟨Nat.mod_lt _ (by decide), Nat.mod_lt _ (by decide), hs.words⟩

theorem release_typed (hs : s.Typed) : (s.release page).Typed :=
  ⟨Nat.mod_lt _ (by decide), Nat.mod_lt _ (by decide), hs.words⟩

theorem protectFirst2MB_typed (hs : s.Typed) : (protectFirst2MB s).Typed := by
  refine List.foldlRecOn (List.range 512) (fun s i => pmmMarkUsed s (i * pageSize))
    (motive := Pmm.Typed) hs fun u hu i _ => ?_
  unfold pmmMarkUsed
  dsimp only
  split
  · exact take_typed hu
  · exact hu

theorem freeEntry_typed (hs : s.Typed) (e : MmapEntry) : (freeEntry s e).Typed := by
  unfold freeEntry
  split
  · refine List.foldlRecOn _ _ (motive := Pmm.Typed) hs fun u hu i _ => ?_
    unfold pmmMarkFree
    dsimp only
    split
    · exact hu
    · exact release_typed hu
  · exact hs

/-- A bitmap of the size that was computed, or of the size there is room for. -/
theorem sized_typed {n : Nat} (hn : n < 2 ^ 32) :
    (if (n / pageSize + 31) / 32 > 32768 then (32768, 32768 * 32)
      else ((n / pageSize + 31) / 32, n / pageSize) : Nat × Nat).1 ≤ 32768 ∧
    (if (n / pageSize + 31) / 32 > 32768 then (32768, 32768 * 32)
      else ((n / pageSize + 31) / 32, n / pageSize) : Nat × Nat).2 < 2 ^ 32 := by
  split
  · exact ⟨le_rfl, by decide⟩
  · dsimp only [pageSize] at *
    exact ⟨by omega, by omega⟩

theorem pmmInit_typed {n : Nat} (hn : n < 2 ^ 32) : (pmmInit .powerOn n).Typed :=
  ⟨Nat.two_pow_pos 32, (sized_typed hn).2, (sized_typed hn).1⟩

theorem reserveAll_typed (maxUsable : Nat) : (reserveAll .powerOn maxUsable).Typed := by
  have hsize : (if maxUsable > 0xFFFFFFFF then 0xFFFFFFFF else maxUsable) < 2 ^ 32 := by
    split <;> omega
  exact ⟨(sized_typed hsize).2, Nat.two_pow_pos 32, (sized_typed hsize).1⟩

/-- Every boot path leaves counters that are words. -/
theorem bootPmm_typed (hb : bootPmm fuel mem magic mbi = some b) : b.Typed := by
  unfold bootPmm at hb
  split at hb
  · obtain rfl := Option.some.inj hb
    exact pmmInit_typed (by omega)
  · split at hb
    · obtain ⟨maxUsable, entries, hstages⟩ := pmmInitMultiboot_stages hb
      rw [hstages]
      refine protectFirst2MB_typed ?_
      exact List.foldlRecOn entries _ (motive := Pmm.Typed) (reserveAll_typed maxUsable)
        fun u hu e _ => freeEntry_typed hu e
    · split at hb
      · obtain rfl := Option.some.inj hb
        exact protectFirst2MB_typed (pmmInit_typed (BitVec.isLt _))
      · obtain rfl := Option.some.inj hb
        exact protectFirst2MB_typed (pmmInit_typed (by omega))

end Boot

section Pages

theorem Took.available (h : Took s t ps) : t.available = s.available - ps.length := by
  have hfree := h.free
  have hcount := h.count
  unfold Pmm.available
  rw [h.size]
  omega

theorem Took.typed (h : Took s t ps) (hs : s.Typed) : t.Typed := by
  have hfree := h.free
  have hbound := hs.free
  refine ⟨?_, by omega, ?_⟩
  · rw [h.used]
    exact Nat.mod_lt _ (by decide)
  · rw [h.size]
    exact hs.words

theorem Took.clear_before {n : Nat} (h : Took s t ps) (hn : t.pageUsed n = false) :
    s.pageUsed n = false := by
  have hpages := h.pages n
  rw [hn] at hpages
  exact (Bool.or_eq_false_iff.mp hpages.symm).2

/-- The pages taken lie below every page left, so they are counted below it. -/
theorem Took.clearCount_below (h : Took s t ps) (hn : t.pageUsed n = false) :
    clearCount s.bitmap n = clearCount t.bitmap n + ps.length := by
  have hsplit : (Finset.range n).filter (fun k => bit s.bitmap k = false) =
      (Finset.range n).filter (fun k => bit t.bitmap k = false) ∪ ps.toFinset := by
    ext k
    have hpages : bit t.bitmap k = (decide (k ∈ ps) || bit s.bitmap k) := h.pages k
    simp only [Finset.mem_union, Finset.mem_filter, Finset.mem_range, List.mem_toFinset, hpages]
    by_cases hk : k ∈ ps
    · have hlt := h.lowest k hk n hn
      have hclear : bit s.bitmap k = false := h.clear k hk
      simp [hk, hlt, hclear]
    · simp [hk]
  have hdisjoint : Disjoint ((Finset.range n).filter fun k => bit t.bitmap k = false)
      ps.toFinset := by
    refine Finset.disjoint_left.mpr fun k hk hmem => ?_
    have hpages : bit t.bitmap k = (decide (k ∈ ps) || bit s.bitmap k) := h.pages k
    rw [(Finset.mem_filter.mp hk).2, decide_eq_true (List.mem_toFinset.mp hmem)] at hpages
    simp at hpages
  have hnodup : ps.Nodup := h.sorted.imp Nat.ne_of_lt
  unfold clearCount
  rw [hsplit, Finset.card_union_of_disjoint hdisjoint, List.toFinset_card_of_nodup hnodup]

theorem page_lt (hs : s.Typed) (h : Took s t (p :: ps)) : p < 2 ^ 20 := by
  have hin := h.inside p (by simp)
  have hwords := hs.words
  omega

/-- The first page taken was the lowest free one. -/
theorem Took.head_lowest (h : Took s t (p :: ps)) : s.Lowest p := by
  refine ⟨h.clear p (by simp), fun q hq => ?_⟩
  by_contra hclear
  have hnot : q ∉ p :: ps := by
    intro hmem
    rcases List.mem_cons.mp hmem with rfl | hmem
    · exact Nat.lt_irrefl q hq
    · exact Nat.lt_asymm hq (List.rel_of_pairwise_cons h.sorted hmem)
  have hpages := h.pages q
  rw [decide_eq_false hnot, Bool.false_or] at hpages
  have hlt := h.lowest p (by simp) q (by simpa [hpages] using hclear)
  omega

/-- The free page with `n` free ones below it. -/
def Pmm.NthFree (s : Pmm) (n page : Nat) : Prop :=
  s.pageUsed page = false ∧ clearCount s.bitmap page = n

theorem Pmm.NthFree.unique {q : Nat} (hp : s.NthFree n p) (hq : s.NthFree n q) : p = q := by
  have hle : ∀ {i j : Nat}, s.NthFree n i → s.NthFree n j → i ≤ j := by
    intro i j hi hj
    by_contra hlt
    have hcount := clearCount_lt (m := s.bitmap) hj.1 (Nat.lt_of_not_le hlt)
    rw [hi.2, hj.2] at hcount
    omega
  exact Nat.le_antisymm (hle hp hq) (hle hq hp)

theorem Pmm.Lowest.nthFree (h : s.Lowest p) : s.NthFree 0 p := ⟨h.1, clearCount_eq_zero h.2⟩

/-- A page left is as many places further up as pages were taken. -/
theorem Took.nthFree (h : Took s t ps) (hp : t.NthFree n p) : s.NthFree (n + ps.length) p :=
  ⟨h.clear_before hp.1, by rw [h.clearCount_below hp.1, hp.2]⟩

/-- The lowest clear page is page 0 unless that one is in use. -/
theorem Took.page0 (h : Took s t (p :: ps)) : s.pageUsed 0 = decide (p ≠ 0) ∧
    t.pageUsed 0 = true := by
  by_cases hp : p = 0
  · subst hp
    have hused := h.pages 0
    rw [decide_eq_true List.mem_cons_self, Bool.true_or] at hused
    exact ⟨h.clear 0 List.mem_cons_self, hused⟩
  · have hused : t.pageUsed 0 = true := by
      by_contra hclear
      exact absurd (h.lowest p (by simp) 0 (by simpa using hclear)) (Nat.not_lt_zero p)
    have hnot : 0 ∉ ps := by
      intro hmem
      exact absurd (List.rel_of_pairwise_cons h.sorted hmem) (Nat.not_lt_zero p)
    refine ⟨?_, hused⟩
    have hpages := h.pages 0
    rw [hused] at hpages
    simpa [hp, hnot, Ne.symm hp] using hpages.symm

/-- The directory page is 0: taken for a failure. -/
theorem pagingInit_null (pg : Paging)
    (hnull : (pmmAllocPage (s.vgaPuts "[PAGING] Initializing...\n" 0x1A)).2 = 0) :
    (pagingInit s pg).1 = (pmmAllocPage (s.vgaPuts "[PAGING] Initializing...\n" 0x1A)).1.vgaPuts
        "[PAGING] Failed to allocate page directory\n" 0x1C ∧
    (pagingInit s pg).2.enabled = pg.enabled := by
  simp only [pagingInit, hnull, if_true]
  exact ⟨trivial, trivial⟩

/-- There is a directory page and no page for the table. -/
theorem pagingInit_noTable {f : Nat} (pg : Paging) (hf0 : f * pageSize ≠ 0)
    (hf : pmmAllocPage (s.vgaPuts "[PAGING] Initializing...\n" 0x1A) = (t, f * pageSize))
    (hnull : (pmmAllocPage t).2 = 0) :
    (pagingInit s pg).1 =
      (pmmAllocPage t).1.vgaPuts "[PAGING] Failed to allocate page table\n" 0x1C ∧
    (pagingInit s pg).2.enabled = pg.enabled := by
  simp only [pagingInit, hf, hf0, if_false, mapDirectory, hnull, if_true]
  exact ⟨trivial, rfl⟩

/-- There are both. -/
theorem pagingInit_done {f g : Nat} {u : Pmm} (pg : Paging) (hf0 : f * pageSize ≠ 0)
    (hg0 : g * pageSize ≠ 0)
    (hf : pmmAllocPage (s.vgaPuts "[PAGING] Initializing...\n" 0x1A) = (t, f * pageSize))
    (hg : pmmAllocPage t = (u, g * pageSize)) :
    (pagingInit s pg).1 = u.vgaPuts "[PAGING] Enabled (identity-mapped first 4 MB)\n" 0x1A ∧
    (pagingInit s pg).2.enabled = true := by
  simp only [pagingInit, hf, hf0, if_false, mapDirectory, hg, hg0]
  exact ⟨trivial, trivial⟩

/-- `paging_init` takes a page for the directory and one for the table. Page 0 passes for a
failure, as no page does. -/
theorem pagingInit_takes (hs : s.Typed) (hoff : pg.enabled = false) :
    ∃ ps, Took s (pagingInit s pg).1 ps ∧
      ps.length = min (if s.pageUsed 0 then 2 else 1) s.available ∧
      ((pagingInit s pg).2.enabled = true ↔ ps.length = 2) ∧
      (ps ≠ [] → (pagingInit s pg).1.pageUsed 0 = true) := by
  have hstart : Took s (s.vgaPuts "[PAGING] Initializing...\n" 0x1A) [] := (Took.refl hs).puts
  rcases hstart.alloc hs with ⟨hav, f, hf, htook⟩ | ⟨hav, hnull, htook⟩
  · rw [List.nil_append] at htook
    rw [List.length_nil] at hav
    obtain ⟨hzero, hused⟩ := htook.page0
    by_cases hf0 : f = 0
    · have hnull : (pmmAllocPage (s.vgaPuts "[PAGING] Initializing...\n" 0x1A)).2 = 0 := by
        rw [hf, hf0, Nat.zero_mul]
      obtain ⟨hpmm, hon⟩ := pagingInit_null pg hnull
      rw [hf] at hpmm
      refine ⟨[f], hpmm ▸ htook.puts, ?_, by simp [hon, hoff], fun _ => by rw [hpmm]; exact hused⟩
      rw [hzero, hf0, List.length_singleton]
      simp only [ne_eq, not_true_eq_false, decide_false, Bool.false_eq_true, if_false]
      omega
    · have hpage : f * pageSize ≠ 0 := by
        simp only [pageSize]
        omega
      rw [hzero, decide_eq_true hf0, if_pos rfl]
      rcases htook.alloc hs with ⟨hav', g, hg, htook'⟩ | ⟨hav', hnull, htook'⟩
      · have hlt : f < g := List.rel_of_pairwise_cons htook'.sorted (by simp)
        have hpage' : g * pageSize ≠ 0 := by
          simp only [pageSize]
          omega
        obtain ⟨hpmm, hon⟩ := pagingInit_done pg hpage hpage' hf hg
        rw [List.length_singleton] at hav'
        refine ⟨[f, g], hpmm ▸ htook'.puts, ?_, by simp [hon], fun _ => ?_⟩
        · rw [Nat.min_eq_left (by omega)]
          rfl
        · rw [hpmm, vgaPuts_pageUsed]
          exact htook'.page0.2
      · obtain ⟨hpmm, hon⟩ := pagingInit_noTable pg hpage hf hnull
        rw [List.length_singleton] at hav'
        refine ⟨[f], hpmm ▸ htook'.puts, ?_, by simp [hon, hoff], fun _ => ?_⟩
        · rw [Nat.min_eq_right (by omega), ← hav']
          rfl
        · rw [hpmm, vgaPuts_pageUsed]
          exact htook'.page0.2
  · obtain ⟨hpmm, hon⟩ := pagingInit_null pg hnull
    rw [List.length_nil] at hav
    refine ⟨[], ?_, ?_, by simp [hon, hoff], fun h => absurd rfl h⟩
    · rw [hpmm]
      exact htook.puts
    · rw [← hav, Nat.min_zero, List.length_nil]

/-- After `paging_init` all addresses are seen in their places, or those below 4 MB only. -/
theorem pagingInit_translate {a : Nat} (hoff : pg.enabled = false) (ha : a < 2 ^ 32) :
    (pagingInit s pg).2.translate a = some a ↔
      ((pagingInit s pg).2.enabled = true → a < 1024 * pageSize) := by
  cases hon : (pagingInit s pg).2.enabled with
  | false => simp [Paging.translate, hon]
  | true =>
    obtain ⟨f, g, -, -, -, -, -, -, -, hbuilt⟩ := pagingInit_pages hoff hon
    by_cases hlow : a < 1024 * pageSize
    · simp [hbuilt.translate_eq hlow, hlow]
    · simp [hbuilt.translate_beyond (Nat.le_of_not_lt hlow) ha, hlow]

/-- A page left below 4 MB lies above the directory and the table, which are mapped then as all
that is below 4 MB. -/
theorem pagingInit_maps {a : Nat} (hoff : pg.enabled = false)
    (hon : (pagingInit s pg).2.enabled = true)
    (hclear : (pagingInit s pg).1.pageUsed page = false) (hpage : page < 1024)
    (ha : a < 1024 * pageSize) : (pagingInit s pg).2.Identity a := by
  obtain ⟨f, g, -, -, -, hf, hg, -, -, hbuilt⟩ := pagingInit_pages hoff hon
  rw [hbuilt.pmm, vgaPuts_pageUsed, take_pageUsed, Bool.or_eq_false_iff] at hclear
  have hbelow : ¬ page < g := fun hlt => by simp [hg.2 page hlt] at hclear
  rw [take_pageUsed, Bool.or_eq_false_iff] at hclear
  have hbelow' : ¬ page < f := fun hlt => by simp [hf.2 page hlt] at hclear
  exact hbuilt.identity (by omega) (by omega) ha

end Pages

section Processes

/-- A request that no block of the list serves takes the lowest pages. -/
theorem kmalloc_takes (hs : h.pmm.Typed) (hz : size ≠ 0)
    (hfind : findFit h (blockBytes size) fuel h.head = some 0)
    (hpages : pagesAsked size ≤ h.pmm.available) (hpage0 : h.pmm.pageUsed 0 = true) :
    ∃ h' u f qs, kmalloc fuel h size = some (h', f * pageSize + headerSize) ∧
      Took h.pmm u (f :: qs) ∧ (f :: qs).length = pagesAsked size ∧
      appendBlock fuel (h.withBlock u f (blockBytes size)) (f * pageSize) = some h' := by
  have hne : (createBlock h (align4 size)).2 ≠ 0 :=
    (createBlock_served (align4 size) hs).mpr ⟨by rwa [pagesAsked_align4], hpage0⟩
  rcases createBlock_any (align4 size) hs with ⟨-, u, heq, -⟩ | ⟨-, -, heq⟩ |
    ⟨f, -, -, ⟨-, u, qs, heq, htook, hlen⟩ | ⟨-, -, u, qs, -, -, heq⟩⟩
  · simp [heq] at hne
  · simp [heq] at hne
  · rw [pagesAsked_align4] at hlen
    rw [blockBytes_align4] at heq
    obtain ⟨h', ha⟩ := appendBlock_returns (u := u) (f := f) (x := blockBytes size) hfind
    refine ⟨h', u, f, qs, ?_, htook, hlen, ha⟩
    have hin := htook.inside f (by simp)
    have hwords := hs.words
    have haddr : add32 (f * pageSize) headerSize = f * pageSize + headerSize := by
      simp only [add32, pageSize, headerSize]
      omega
    have hpage : f * pageSize ≠ 0 := by rwa [heq] at hne
    rw [kmalloc_walk fuel h hz, hfind, Option.bind_some, heq]
    simp only [ne_eq, not_true_eq_false, if_false, if_neg hpage, ha, Option.map_some, haddr]
  · simp [heq] at hne

/-- A request for more pages than there are is refused. -/
theorem kmalloc_refused (hs : h.pmm.Typed) (hz : size ≠ 0)
    (hfind : findFit h (blockBytes size) fuel h.head = some 0)
    (hless : h.pmm.available < pagesAsked size) :
    (createBlock h (align4 size)).2 = 0 ∧
      kmalloc fuel h size = some ((createBlock h (align4 size)).1, 0) := by
  have hnull : (createBlock h (align4 size)).2 = 0 := by
    by_contra hne
    have hserved := ((createBlock_served (align4 size) hs).mp hne).1
    rw [pagesAsked_align4] at hserved
    omega
  refine ⟨hnull, ?_⟩
  rw [kmalloc_walk fuel h hz, hfind, Option.bind_some, if_neg (by simp), if_pos hnull]

/-- With one page at most the refusal changes nothing. -/
theorem refused_available (hs : h.pmm.Typed) (hnull : (createBlock h size).2 = 0)
    (hpage0 : 0 < h.pmm.available → h.pmm.pageUsed 0 = true) (hone : h.pmm.available ≤ 1) :
    (createBlock h size).1.head = h.head ∧
      (createBlock h size).1.pmm.available = h.pmm.available := by
  have hrestores : h.pmm.Restores (pagesAsked size) := by
    rcases Nat.eq_zero_or_pos h.pmm.available with hnone | hsome
    · exact .inl hnone
    · refine .inr ⟨hpage0 hsome, .inr fun f hlow k hk => ?_⟩
      obtain rfl : k = 0 := by omega
      exact hlow.1
  have hsame := (createBlock_failed size hs hnull).mpr hrestores
  have hsize : (createBlock h size).1.pmm.bitmapSize = h.pmm.bitmapSize :=
    createBlock_kept (bitmapSize_kept h.pmm.bitmapSize) rfl
  refine ⟨hsame.head, ?_⟩
  rw [Pmm.available, hsame.bitmap, hsame.freePages, hsize, Pmm.available]

end Processes

end HumanOS

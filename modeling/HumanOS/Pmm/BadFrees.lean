import HumanOS.Pmm.Boot

/-!
# Frees of addresses that were never handed out

`pmm_free_page` looks at the bit of the address and at nothing else. After `pmm_init` the bits
beyond the end of memory are clear and such a free is rejected; `pmm_init_multiboot` sets the
whole last word, and the protection of the first 2 MB may reach beyond a small memory.
-/
namespace HumanOS

open Lib Lib.Bitmap Pmm

variable {s t b u : Pmm} {op : PageCall} {ops : List PageCall} {d i n fuel : Nat}
variable {mem : Nat → UInt8} {mmapAddr mmapLength : Nat}

/-- No memory comes into being: the counters stay in range and no page beyond the end of memory
is handed out. -/
structure NoMemoryMade (s : Pmm) : Prop where
  free : s.freePages ≤ s.totalPages
  used : ∀ addr : Word, s.usedPages = 0 → (pmmFreePage s addr.toNat).usedPages = 0
  address : (pmmAllocPage s).2 ≠ 0 → (pmmAllocPage s).2 < s.totalPages * pageSize

/-- Consistent counters, and no bit set beyond the end of memory. -/
structure Sealed (s : Pmm) : Prop where
  accounted : s.Accounted
  beyond : ∀ k, s.totalPages ≤ k → s.pageUsed k = false

section Sealed

theorem Sealed.step (h : Sealed s) (hs : PageStep s op t) : Sealed t := by
  have hin : InRangeStep s op t := by
    refine ⟨hs, ?_⟩
    rintro page ⟨-, -, -, -, hused⟩
    by_contra hge
    simp [h.beyond page (by omega)] at hused
  refine ⟨hin.accounted h.accounted, fun k hk => ?_⟩
  rw [hs.totalPages] at hk
  have hclear := h.beyond k hk
  cases hs with
  | alloc =>
    rcases pmmAllocPage_cases h.accounted with ⟨-, heq⟩ | ⟨p, hp, -, -, heq⟩
    · rwa [heq]
    · have hne : k ≠ p := by omega
      simp [heq, hclear, hne]
  | @free addr =>
    rcases pmmFreePage_cases s addr.toNat with ⟨-, heq⟩ | ⟨-, -, heq⟩ | ⟨-, -, heq⟩
    · rwa [heq]
    · rwa [heq]
    · simp [heq, hclear]

theorem Sealed.noMemoryMade (h : Sealed s) : NoMemoryMade s := by
  have htotal := h.accounted.total
  refine ⟨by omega, fun addr hzero => ?_, fun hne => ?_⟩
  · -- With no page in use every bit is clear, and the free is rejected.
    have hall : ∀ k, s.pageUsed k = false := by
      intro k
      by_cases hk : k < s.totalPages
      · by_contra hb
        have hle : clearCount (clearBit s.bitmap k) s.totalPages ≤ s.totalPages := clearCount_le
        have hclear := clearCount_clearBit (m := s.bitmap) (by decide) hk
          (by simpa [pageUsed] using hb)
        have hfree := h.accounted.free
        omega
      · exact h.beyond k (by omega)
    rcases pmmFreePage_cases s addr.toNat with ⟨-, heq⟩ | ⟨-, -, heq⟩ | ⟨-, hb, -⟩
    · rw [heq]
      exact hzero
    · rw [heq]
      exact hzero
    · simp [hall] at hb
  · rcases pmmAllocPage_cases h.accounted with ⟨-, heq⟩ | ⟨p, hp, -, -, heq⟩
    · simp [heq] at hne
    · rw [heq]
      exact Nat.mul_lt_mul_of_pos_right hp (by decide)

theorem pmmInit_sealed (memSize : Nat) : Sealed (pmmInit .powerOn memSize) := by
  refine ⟨pmmInit_accounted _ _, fun k _ => ?_⟩
  simp [pageUsed, bit, pmmInit, powerOn]

end Sealed

section Ledger

/-- Over the whole bitmap `free_pages` differs from the number of clear bits by a constant. -/
structure Balanced (d : Nat) (s : Pmm) : Prop where
  bound : s.freePages < 2 ^ 32
  drift : (s.freePages + d) % 2 ^ 32 = clearCount s.bitmap (2 ^ 20)

theorem Balanced.take (h : Balanced d s) (hi : i < 2 ^ 20) (hb : s.pageUsed i = false) :
    Balanced d (s.take i) := by
  have hcount : clearCount (setBit s.bitmap i) (2 ^ 20) + 1 = clearCount s.bitmap (2 ^ 20) :=
    clearCount_setBit (by decide) hi hb
  have hdrift := h.drift
  have hbound := h.bound
  refine ⟨Nat.mod_lt _ (by decide), ?_⟩
  change (sub32 s.freePages 1 + d) % 2 ^ 32 = clearCount (setBit s.bitmap i) (2 ^ 20)
  simp only [sub32]
  omega

theorem Balanced.release (h : Balanced d s) (hi : i < 2 ^ 20) (hb : s.pageUsed i = true) :
    Balanced d (s.release i) := by
  have hcount : clearCount (clearBit s.bitmap i) (2 ^ 20) = clearCount s.bitmap (2 ^ 20) + 1 :=
    clearCount_clearBit (by decide) hi hb
  have hle : clearCount (clearBit s.bitmap i) (2 ^ 20) ≤ 2 ^ 20 := clearCount_le
  have hdrift := h.drift
  have hbound := h.bound
  refine ⟨Nat.mod_lt _ (by decide), ?_⟩
  change (add32 s.freePages 1 + d) % 2 ^ 32 = clearCount (clearBit s.bitmap i) (2 ^ 20)
  simp only [add32]
  omega

theorem Balanced.markUsed (h : Balanced d s) (hi : i < 2 ^ 20) :
    Balanced d (pmmMarkUsed s (i * pageSize)) := by
  have hpage : i * pageSize / pageSize = i := Nat.mul_div_cancel _ (by decide)
  rcases pmmMarkUsed_cases s (i * pageSize) with ⟨-, heq⟩ | ⟨hb, heq⟩ <;> rw [heq]
  · exact h
  · rw [hpage] at hb ⊢
    exact h.take hi hb

theorem Balanced.markFree (h : Balanced d s) (hi : i < 2 ^ 20) :
    Balanced d (pmmMarkFree s (i * pageSize)) := by
  have hpage : i * pageSize / pageSize = i := Nat.mul_div_cancel _ (by decide)
  rcases pmmMarkFree_cases s (i * pageSize) with ⟨-, heq⟩ | ⟨hb, heq⟩ <;> rw [heq]
  · exact h
  · rw [hpage] at hb ⊢
    exact h.release hi hb

theorem Balanced.freeEntries (h : Balanced d s) (ht : s.totalPages ≤ 2 ^ 20)
    (entries : List MmapEntry) : Balanced d (entries.foldl freeEntry s) := by
  have hfold : Balanced d (entries.foldl freeEntry s) ∧
      (entries.foldl freeEntry s).totalPages ≤ 2 ^ 20 := by
    refine List.foldlRecOn (motive := fun t : Pmm => Balanced d t ∧ t.totalPages ≤ 2 ^ 20) _ _
      ⟨h, ht⟩ fun t hinv e _ => ?_
    obtain ⟨hbal, htotal⟩ := hinv
    unfold freeEntry
    split
    · refine List.foldlRecOn (motive := fun u : Pmm => Balanced d u ∧ u.totalPages ≤ 2 ^ 20) _ _
        ⟨hbal, htotal⟩ fun u hu page hpage => ?_
      rw [List.mem_range'_1] at hpage
      rw [pmmMarkFree_totalPages]
      exact ⟨hu.1.markFree (by omega), hu.2⟩
    · exact ⟨hbal, htotal⟩
  exact hfold.1

theorem Balanced.protectFirst2MB (h : Balanced d s) : Balanced d (protectFirst2MB s) :=
  List.foldlRecOn (motive := Balanced d) _ _ h fun t ht i hi =>
    ht.markUsed (by have := List.mem_range.mp hi; omega)

/-- A counter that has not wrapped is no larger than the clear bits allow. -/
theorem Balanced.low_used (h : Balanced d s) (hd : d ≤ 2 ^ 20) (hfree : s.freePages ≤ 2 ^ 20)
    (hlow : ∀ k < 512, s.pageUsed k = true) : s.freePages + d + 512 ≤ 2 ^ 20 := by
  have hset : clearCount s.bitmap (2 ^ 20) + 512 ≤ 2 ^ 20 :=
    clearCount_add_le (by decide) hlow
  have hdrift := h.drift
  rw [Nat.mod_eq_of_lt (by omega)] at hdrift
  omega

end Ledger

section Stages

theorem reserveAll_bitmapSize :
    (reserveAll s n).bitmapSize = ((reserveAll s n).totalPages + 31) / 32 := by
  simp only [reserveAll]
  split <;> split <;> rfl

theorem reserveAll_pageUsed {k : Nat} : (reserveAll .powerOn n).pageUsed k =
    decide (k < 32 * (reserveAll .powerOn n).bitmapSize) := by
  have hword : (reserveAll .powerOn n).bitmap (k / 32) =
      if k / 32 < (reserveAll .powerOn n).bitmapSize then BitVec.allOnes 32 else 0#32 := rfl
  have hlt : k / 32 < (reserveAll .powerOn n).bitmapSize ↔
      k < 32 * (reserveAll .powerOn n).bitmapSize := by omega
  rw [pageUsed, bit, hword]
  by_cases hk : k < 32 * (reserveAll .powerOn n).bitmapSize
  · rw [if_pos (hlt.mpr hk), BitVec.getLsbD_allOnes, decide_eq_true hk]
    exact decide_eq_true (Nat.mod_lt k (by decide))
  · rw [if_neg (mt hlt.mp hk), decide_eq_false hk]
    simp

/-- The memory map frees no page beyond the end of memory. -/
theorem freeEntries_beyond {k : Nat} (entries : List MmapEntry) (hk : s.totalPages ≤ k) :
    (entries.foldl freeEntry s).pageUsed k = s.pageUsed k ∧
      (entries.foldl freeEntry s).bitmapSize = s.bitmapSize := by
  have hmark : ∀ (u : Pmm) (page : Nat), page ≠ k →
      (pmmMarkFree u (page * pageSize)).pageUsed k = u.pageUsed k ∧
        (pmmMarkFree u (page * pageSize)).bitmapSize = u.bitmapSize := by
    intro u page hne
    have hpage : page * pageSize / pageSize = page := Nat.mul_div_cancel _ (by decide)
    rcases pmmMarkFree_cases u (page * pageSize) with ⟨-, heq⟩ | ⟨-, heq⟩ <;> rw [heq]
    · exact ⟨rfl, rfl⟩
    · rw [hpage]
      exact ⟨by simp [Ne.symm hne], rfl⟩
  have hfold : (entries.foldl freeEntry s).totalPages = s.totalPages ∧
      (entries.foldl freeEntry s).pageUsed k = s.pageUsed k ∧
      (entries.foldl freeEntry s).bitmapSize = s.bitmapSize := by
    refine List.foldlRecOn (motive := fun t : Pmm => t.totalPages = s.totalPages ∧
      t.pageUsed k = s.pageUsed k ∧ t.bitmapSize = s.bitmapSize) _ _ ⟨rfl, rfl, rfl⟩
      fun t ht e _ => ?_
    unfold freeEntry
    split
    · refine List.foldlRecOn (motive := fun u : Pmm => u.totalPages = s.totalPages ∧
        u.pageUsed k = s.pageUsed k ∧ u.bitmapSize = s.bitmapSize) _ _ ht fun u hu page hpage => ?_
      rw [List.mem_range'_1] at hpage
      obtain ⟨hbit, hsize⟩ := hmark u page (by omega)
      rw [pmmMarkFree_totalPages, hbit, hsize]
      exact hu
    · exact ht
  exact hfold.2

theorem protectFirst2MB_bitmapSize : (protectFirst2MB s).bitmapSize = s.bitmapSize := by
  refine List.foldlRecOn (motive := fun t : Pmm => t.bitmapSize = s.bitmapSize) _ _ rfl
    fun t ht i _ => ?_
  rcases pmmMarkUsed_cases t (i * pageSize) with ⟨-, heq⟩ | ⟨-, heq⟩ <;> rw [heq]
  · exact ht
  · exact ht

/-- What `pmm_init_multiboot` leaves, whatever the map: every bit of the words in use is set
beyond the end of memory, and none beyond these words but for the first 2 MB. -/
structure MultibootDone (b : Pmm) : Prop where
  words : b.bitmapSize = (b.totalPages + 31) / 32
  beyond : ∀ k, b.totalPages ≤ k → b.pageUsed k = decide (k < 512 ∨ k < 32 * b.bitmapSize)
  low : ∀ k < 512, b.pageUsed k = true
  bound : b.totalPages < 2 ^ 20
  balanced : ∃ d, Balanced d b ∧ d ≤ 2 ^ 20 ∧ 2 ^ 20 ≤ d + 32 * b.bitmapSize
  accounted : 512 ≤ 32 * b.bitmapSize → b.Accounted

theorem pmmInitMultiboot_done
    (hb : pmmInitMultiboot fuel mem .powerOn mmapAddr mmapLength = some b) : MultibootDone b := by
  obtain ⟨maxUsable, entries, hstages⟩ := pmmInitMultiboot_stages hb
  have hacc := reserveAll_accounted .powerOn maxUsable
  have hwords : (reserveAll .powerOn maxUsable).bitmapSize = _ := reserveAll_bitmapSize
  have hbits := fun k => reserveAll_pageUsed (n := maxUsable) (k := k)
  have hbound : (reserveAll .powerOn maxUsable).totalPages < 2 ^ 20 := by
    simp only [reserveAll, pageSize]
    split <;> split <;> simp only <;> omega
  have hstart : Balanced (clearCount (reserveAll .powerOn maxUsable).bitmap (2 ^ 20))
      (reserveAll .powerOn maxUsable) := by
    have hle : clearCount (reserveAll .powerOn maxUsable).bitmap (2 ^ 20) ≤ 2 ^ 20 := clearCount_le
    refine ⟨by simp [reserveAll], ?_⟩
    rw [show (reserveAll .powerOn maxUsable).freePages = 0 from rfl, Nat.zero_add,
      Nat.mod_eq_of_lt (by omega)]
  generalize reserveAll .powerOn maxUsable = r at *
  obtain ⟨hacc', htotal⟩ := freeEntries_accounted entries hacc
  have hbeyond := fun k (hk : r.totalPages ≤ k) => (freeEntries_beyond entries hk).1
  have hsize := (freeEntries_beyond entries (le_refl r.totalPages)).2
  have hfinal := (hstart.freeEntries hacc.bound entries).protectFirst2MB
  generalize entries.foldl freeEntry r = t at *
  have hsize' : b.bitmapSize = r.bitmapSize := by
    rw [hstages, protectFirst2MB_bitmapSize, hsize]
  have htotal' : b.totalPages = r.totalPages := by
    rw [hstages, protectFirst2MB_totalPages, htotal]
  have hmarked : ∀ k, b.pageUsed k = (decide (k < 512) || t.pageUsed k) := by
    intro k
    rw [hstages, protectFirst2MB_pageUsed]
  rw [← hsize', ← htotal'] at hwords
  refine ⟨hwords, fun k hk => ?_, fun k hk => ?_, by omega, ?_, fun hlow => ?_⟩
  · rw [htotal'] at hk
    rw [hmarked, hbeyond k hk, hbits, ← hsize', Bool.decide_or]
  · simp [hmarked, hk]
  · refine ⟨_, hstages ▸ hfinal, clearCount_le, ?_⟩
    rw [hsize']
    refine le_clearCount_add fun i hi _ => ?_
    have hbit := hbits i
    rw [decide_eq_false (by omega)] at hbit
    exact hbit
  · rw [hstages]
    refine (protectFirst2MB_marked hacc' fun k hk hle => ?_).1
    rw [hbeyond k (by omega), hbits]
    simp only [decide_eq_true_eq]
    omega

end Stages

section Violations

/-- With no page in use beyond the end of memory, the counters run negative. -/
theorem MultibootDone.covers (h : MultibootDone b) (hfree : b.freePages ≤ b.totalPages) :
    512 ≤ 32 * b.bitmapSize := by
  obtain ⟨d, hbal, hd, hlow⟩ := h.balanced
  have hbound := h.bound
  have hset := hbal.low_used hd (by omega) h.low
  omega

/-- Taking pages until the counter is 0. -/
theorem exhaust (hs : s.Accounted) : ∃ ops u, Run PageStep s ops u ∧ u.freePages = 0 ∧
    u.Accounted ∧ u.totalPages = s.totalPages ∧ u.bitmapSize = s.bitmapSize ∧
    ∀ k, s.totalPages ≤ k → u.pageUsed k = s.pageUsed k := by
  induction hn : s.freePages generalizing s with
  | zero => exact ⟨[], s, .refl, hn, hs, rfl, rfl, fun _ _ => rfl⟩
  | succ n ih =>
    rcases pmmAllocPage_cases hs with ⟨hf, -⟩ | ⟨p, hp, hlow, -, heq⟩
    · omega
    · have hbound := hs.bound
      have htotal := hs.total
      have hless : (s.take p).freePages = n := by
        rw [show (s.take p).freePages = sub32 s.freePages 1 from rfl,
          sub32_of_le (by omega) (by omega)]
        omega
      obtain ⟨ops, u, hrun, hzero, hacc, htot, hsize, hkeep⟩ :=
        ih (take_accounted hs hp hlow.1) hless
      have hstep : PageStep s .alloc (s.take p) := by
        have hs' : PageStep s .alloc (pmmAllocPage s).1 := .alloc
        rwa [heq] at hs'
      refine ⟨.alloc :: ops, u, .stepL hstep hrun, hzero, hacc, htot, hsize, fun k hk => ?_⟩
      have hne : k ≠ p := by omega
      rw [hkeep k hk, take_pageUsed, decide_eq_false hne, Bool.false_or]

/-- A set bit right beyond the end of memory is freed and handed out. -/
theorem stray_page_handed_out (hs : s.Accounted) (hpos : 0 < s.totalPages)
    (hword : s.totalPages < 32 * s.bitmapSize) (hbound : s.totalPages < 2 ^ 20)
    (hset : s.pageUsed s.totalPages = true) :
    ∃ ops u, Run PageStep s ops u ∧ ¬ NoMemoryMade u := by
  obtain ⟨ops, u, hrun, hzero, hacc, htotal, hsize, hkeep⟩ := exhaust hs
  have hall : ∀ q < s.totalPages, u.pageUsed q = true := by
    intro q hq
    by_contra hb
    have hcount := clearCount_pos.mpr ⟨q, htotal ▸ hq, by simpa [pageUsed] using hb⟩
    rw [← hacc.free] at hcount
    omega
  have haddr : (BitVec.ofNat 32 (s.totalPages * pageSize)).toNat = s.totalPages * pageSize := by
    rw [BitVec.toNat_ofNat, Nat.mod_eq_of_lt]
    simp only [pageSize]
    omega
  have hpage : s.totalPages * pageSize / pageSize = s.totalPages :=
    Nat.mul_div_cancel _ (by decide)
  have hused : u.pageUsed s.totalPages = true := (hkeep _ le_rfl).trans hset
  have hfreed : PageStep u (.free (BitVec.ofNat 32 (s.totalPages * pageSize)))
      (u.release s.totalPages) := by
    have hstep : PageStep u (.free (BitVec.ofNat 32 (s.totalPages * pageSize))) _ := .free
    rw [haddr] at hstep
    rcases pmmFreePage_cases u (s.totalPages * pageSize) with ⟨hal, -⟩ | ⟨-, hb, -⟩ | ⟨-, -, heq⟩
    · exact (hal (Nat.mul_mod_left _ _)).elim
    · rw [hpage, hused] at hb
      simp at hb
    · rwa [heq, hpage] at hstep
  refine ⟨ops ++ [.free (BitVec.ofNat 32 (s.totalPages * pageSize))], u.release s.totalPages,
    hrun.append (.single hfreed), fun hmade => ?_⟩
  have hlow : (u.release s.totalPages).Lowest s.totalPages := by
    refine ⟨by simp, fun q hq => ?_⟩
    have hne : q ≠ s.totalPages := by omega
    simp [hall q hq, hne]
  have hone : (u.release s.totalPages).freePages = 1 := by
    rw [show (u.release s.totalPages).freePages = add32 u.freePages 1 from rfl, hzero]
    rfl
  have hsize' : (u.release s.totalPages).bitmapSize = s.bitmapSize := hsize
  have haddress := hmade.address
  rw [release_totalPages, htotal] at haddress
  rcases pmmAllocPage_any (u.release s.totalPages) with ⟨hf, -⟩ | ⟨-, hfull, -⟩ | ⟨p, -, hp, -, heq⟩
  · omega
  · have hclear := hfull s.totalPages (by omega)
    simp at hclear
  · rw [heq, hp.unique hlow] at haddress
    exact absurd (haddress (by simp only [pageSize]; omega)) (lt_irrefl _)

end Violations

/-- Bad frees make no memory after `pmm_init`, and after `pmm_init_multiboot` exactly if the
memory is a whole number of bitmap words and at least 2 MB. -/
theorem bad_frees_make_no_memory (fuel : Nat) (mem : Nat → UInt8) (mmapAddr mmapLength : Nat) :
    (∀ memSize ops t, Run PageStep (pmmInit .powerOn memSize) ops t → NoMemoryMade t) ∧
    (∀ b, pmmInitMultiboot fuel mem .powerOn mmapAddr mmapLength = some b →
      ((∀ ops t, Run PageStep b ops t → NoMemoryMade t) ↔
        512 ≤ b.totalPages ∧ b.totalPages % 32 = 0)) := by
  have hrun : ∀ {b ops t}, Sealed b → Run PageStep b ops t → NoMemoryMade t := fun hb hr =>
    (hr.invariant Sealed (fun _ _ _ hs h => h.step hs) hb).noMemoryMade
  refine ⟨fun memSize ops t hr => hrun (pmmInit_sealed memSize) hr, ?_⟩
  intro b hb
  have hdone := pmmInitMultiboot_done hb
  have hwords := hdone.words
  constructor
  · intro hall
    have hcovers := hdone.covers (hall [] b .refl).free
    have hwhole : b.totalPages % 32 = 0 := by
      by_contra hpart
      obtain ⟨ops, u, hr, hmade⟩ := stray_page_handed_out (hdone.accounted hcovers) (by omega)
        (by omega) hdone.bound (by
          rw [hdone.beyond _ le_rfl]
          exact decide_eq_true (Or.inr (by omega)))
      exact hmade (hall ops u hr)
    exact ⟨by omega, hwhole⟩
  · rintro ⟨hlow, hwhole⟩ ops t hr
    refine hrun ⟨hdone.accounted (by omega), fun k hk => ?_⟩ hr
    rw [hdone.beyond k hk]
    exact decide_eq_false (by omega)

/-- The memory a map of one type 1 entry from address 0 on stands for. -/
theorem oneEntry_totalPages {len : Nat}
    (hmap : WellFormedMap mem mmapAddr mmapLength [⟨20, 0, len, 1⟩]) (hlen : len < 2 ^ 32) :
    ∃ b, pmmInitMultiboot 2 mem .powerOn mmapAddr mmapLength = some b ∧
      b.totalPages = len / pageSize := by
  refine ⟨_, pmmInitMultiboot_wellFormed hmap Nat.one_lt_two, ?_⟩
  rw [protectFirst2MB_totalPages,
    (freeEntries_accounted _ (reserveAll_accounted .powerOn (highestUsable _))).2]
  have hhigh : highestUsable [⟨20, 0, len, 1⟩] = len := by
    simp only [highestUsable, List.foldl_cons, List.foldl_nil, raiseUsable, MmapEntry.endAddr,
      if_true, Nat.zero_add]
    rw [Nat.mod_eq_of_lt (by omega)]
    split <;> omega
  rw [hhigh]
  simp only [reserveAll, pageSize]
  split <;> split <;> simp only <;> omega

/-- On a machine of 4 MB a page beyond the end and an unaligned address are freed. -/
theorem bad_frees_make_no_memory_4MB :
    ∃ b t, pmmInitMultiboot 2 oneEntryMap .powerOn 0x9000 24 = some b ∧
      Run PageStep b [.free 0x400000, .free 0x1234] t ∧ NoMemoryMade t := by
  have hmap : WellFormedMap oneEntryMap 0x9000 24 [⟨20, 0, 0x400000, 1⟩] :=
    ⟨⟨by decide, by decide, by simp [MapTiles]⟩, by decide⟩
  obtain ⟨b, hb, htotal⟩ := oneEntry_totalPages hmap (by decide)
  have hrun : Run PageStep b [.free 0x400000, .free 0x1234]
      (pmmFreePage (pmmFreePage b 0x400000) 0x1234) := .stepL .free (.single .free)
  have hsize : b.totalPages = 1024 := htotal.trans (by decide)
  exact ⟨b, _, hb, hrun, ((bad_frees_make_no_memory 2 oneEntryMap 0x9000 24).2 b hb).mpr
    ⟨by omega, by omega⟩ _ _ hrun⟩

/-- One usable entry of 4 MB and one page. -/
def oddMap (a : Nat) : UInt8 :=
  [20, 0, 0, 0, 0, 0, 0, 0, 0, 0, 0, 0, 0, 0x10, 0x40, 0, 0, 0, 0, 0, 1, 0, 0, 0].getD
    (a - 0x9000) 0

/-- On a machine of 1025 pages the page right beyond the end is freed and handed out. -/
theorem bad_frees_make_memory :
    ¬ ∀ (fuel : Nat) (mem : Nat → UInt8) (mmapAddr mmapLength : Nat) (b t : Pmm)
      (ops : List PageCall), pmmInitMultiboot fuel mem .powerOn mmapAddr mmapLength = some b →
      Run PageStep b ops t → NoMemoryMade t := by
  intro hall
  have hmap : WellFormedMap oddMap 0x9000 24 [⟨20, 0, 0x401000, 1⟩] :=
    ⟨⟨by decide, by decide, by simp [MapTiles]⟩, by decide⟩
  obtain ⟨b, hb, htotal⟩ := oneEntry_totalPages hmap (by decide)
  have hsize : b.totalPages = 1025 := htotal.trans (by decide)
  have hdone := pmmInitMultiboot_done hb
  have hwords := hdone.words
  obtain ⟨ops, u, hrun, hmade⟩ := stray_page_handed_out (hdone.accounted (by omega)) (by omega)
    (by omega) hdone.bound (by
      rw [hdone.beyond _ le_rfl]
      exact decide_eq_true (Or.inr (by omega)))
  exact hmade (hall 2 oddMap 0x9000 24 b u ops hb hrun)

end HumanOS

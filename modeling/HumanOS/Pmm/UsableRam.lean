import HumanOS.Pmm.Multiboot

/-!
# Which pages a memory map frees

The regions of the map are any 64-bit intervals. `pmm_init_multiboot` turns their bounds into
page numbers, both rounded down and cut to 32 bits: right for an end, and for a start only where
a page starts there.
-/
namespace HumanOS

open Lib Lib.Bitmap Pmm

variable {s : Pmm} {e : MmapEntry} {entries : List MmapEntry} {k fuel : Nat} {mem : Nat → UInt8}
variable {mmapAddr mmapLength : Nat}

/-- A byte of usable RAM. -/
def UsableByte (entries : List MmapEntry) (a : Nat) : Prop :=
  ∃ e ∈ entries, e.type = 1 ∧ e.addr ≤ a ∧ a < e.addr + e.len

/-- A page of which every byte is usable RAM. -/
def UsablePage (entries : List MmapEntry) (k : Nat) : Prop :=
  ∀ a, k * pageSize ≤ a → a < (k + 1) * pageSize → UsableByte entries a

/-- The page lies wholly in the entry. -/
def MmapEntry.Holds (e : MmapEntry) (k : Nat) : Prop :=
  e.type = 1 ∧ e.addr ≤ k * pageSize ∧ (k + 1) * pageSize ≤ e.addr + e.len

/-- The page is one that the second walk frees for the entry. -/
def MmapEntry.Frees (e : MmapEntry) (k : Nat) : Prop :=
  e.type = 1 ∧ e.addr / pageSize % 2 ^ 32 ≤ k ∧ k < e.endAddr / pageSize % 2 ^ 32

/-- Below the end of memory only usable RAM from 2 MB on is free, and every page of a usable
region is. -/
structure OnlyRamFreed (entries : List MmapEntry) (b : Pmm) : Prop where
  ram : ∀ k < b.totalPages, b.pageUsed k = false →
    UsablePage entries k ∧ 0x200000 ≤ k * pageSize
  all : ∀ k, 512 ≤ k → k < b.totalPages → (∃ e ∈ entries, e.Holds k) → b.pageUsed k = false

/-- The pages of the memory a map stands for. -/
def mapPages (entries : List MmapEntry) : Nat := min (highestUsable entries) 0xFFFFFFFF / pageSize

/-- The entries whose bounds are rounded or cut wrongly do no harm. -/
structure RoundsWell (entries : List MmapEntry) : Prop where
  /-- An entry that starts inside a page frees that page as well: what lies before the entry is
  RAM of other entries. -/
  start : ∀ e ∈ entries, e.type = 1 → e.addr % pageSize ≠ 0 → e.addr < 2 ^ 44 →
    512 ≤ e.addr / pageSize → e.addr / pageSize < mapPages entries →
    e.addr / pageSize < e.endAddr / pageSize % 2 ^ 32 →
    ∀ a, e.addr / pageSize * pageSize ≤ a → a < e.addr → UsableByte entries a
  /-- An entry from 16 TB on frees pages that are not its own: they are RAM of other entries. -/
  high : ∀ e ∈ entries, 2 ^ 44 ≤ e.addr → ∀ k, 512 ≤ k → k < mapPages entries → e.Frees k →
    UsablePage entries k
  /-- An entry that ends at 16 TB or above does not free all its pages: other entries do. -/
  long : ∀ e ∈ entries, 2 ^ 44 ≤ e.addr + e.len → ∀ k, 512 ≤ k → k < mapPages entries →
    e.Holds k → e.endAddr / pageSize % 2 ^ 32 ≤ k → ∃ e' ∈ entries, e'.Frees k

section Freed

/-- The second walk clears the bits of the pages that some entry frees. -/
theorem freeEntry_pageUsed (hk : k < s.totalPages) :
    (freeEntry s e).pageUsed k = false ↔ s.pageUsed k = false ∨ e.Frees k := by
  have hmark : ∀ (u : Pmm) (page : Nat), (pmmMarkFree u (page * pageSize)).pageUsed k =
      (!decide (k = page) && u.pageUsed k) := by
    intro u page
    have hpage : page * pageSize / pageSize = page := Nat.mul_div_cancel _ (by decide)
    rcases pmmMarkFree_cases u (page * pageSize) with ⟨hb, heq⟩ | ⟨-, heq⟩ <;> rw [hpage] at *
    · rw [heq]
      by_cases hkp : k = page
      · rw [hkp, hb]
        simp
      · simp [hkp]
    · simp [heq]
  have hfold : ∀ (l : List Nat) (u : Pmm),
      (l.foldl (fun s page => pmmMarkFree s (page * pageSize)) u).pageUsed k = false ↔
        u.pageUsed k = false ∨ k ∈ l := by
    intro l
    induction l with
    | nil => simp
    | cons page l ih =>
      intro u
      rw [List.foldl_cons, ih, hmark]
      simp only [Bool.and_eq_false_iff, Bool.not_eq_eq_eq_not, Bool.not_false, decide_eq_true_eq,
        List.mem_cons]
      tauto
  unfold freeEntry MmapEntry.Frees
  split
  · rename_i htype
    rw [hfold, List.mem_range'_1]
    refine or_congr_right ?_
    simp only [htype, true_and]
    omega
  · rename_i htype
    simp [htype]

theorem freeEntries_pageUsed (hs : s.Accounted) (hk : k < s.totalPages) :
    (entries.foldl freeEntry s).pageUsed k = false ↔
      s.pageUsed k = false ∨ ∃ e ∈ entries, e.Frees k := by
  induction entries generalizing s with
  | nil => simp
  | cons e entries ih =>
    obtain ⟨hacc, htotal⟩ := freeEntry_accounted (e := e) hs
    rw [List.foldl_cons, ih hacc (by omega), freeEntry_pageUsed hk]
    simp only [List.mem_cons, exists_eq_or_imp]
    tauto

theorem reserveAll_mapPages :
    (reserveAll s (highestUsable entries)).totalPages = mapPages entries := by
  simp only [reserveAll, mapPages, pageSize]
  split <;> split <;> simp only <;> omega

/-- The bitmap that `pmm_init_multiboot` leaves: free is what some entry frees, from 2 MB on. -/
structure Booted (entries : List MmapEntry) (b : Pmm) : Prop where
  pages : b.totalPages = mapPages entries
  free : ∀ k < mapPages entries,
    b.pageUsed k = false ↔ 512 ≤ k ∧ ∃ e ∈ entries, e.Frees k

theorem multiboot_booted (entries : List MmapEntry) (s : Pmm) :
    Booted entries (protectFirst2MB (entries.foldl freeEntry
      (reserveAll s (highestUsable entries)))) := by
  have hacc := reserveAll_accounted s (highestUsable entries)
  have htotal : (reserveAll s (highestUsable entries)).totalPages = mapPages entries :=
    reserveAll_mapPages
  refine ⟨?_, fun k hk => ?_⟩
  · rw [protectFirst2MB_totalPages, (freeEntries_accounted _ hacc).2, htotal]
  · have hused : (reserveAll s (highestUsable entries)).pageUsed k = true := by
      by_contra hb
      have hcount := clearCount_pos.mpr ⟨k, htotal ▸ hk, by simpa [pageUsed] using hb⟩
      rw [← hacc.free] at hcount
      simp [reserveAll] at hcount
    rw [protectFirst2MB_pageUsed, Bool.or_eq_false_iff, freeEntries_pageUsed hacc (by omega)]
    simp [hused]

end Freed

section Rounding

/-- The end is rounded the right way, as far as it is not cut. -/
theorem MmapEntry.Frees.end_le (h : e.Frees k) (hsum : e.addr + e.len < 2 ^ 64) :
    (k + 1) * pageSize ≤ e.addr + e.len := by
  have hend : e.endAddr = e.addr + e.len := Nat.mod_eq_of_lt hsum
  have hk := h.2.2
  rw [hend] at hk
  simp only [pageSize] at hk ⊢
  omega

/-- A page that starts in the entry which frees it is usable. -/
theorem MmapEntry.Frees.usable (h : e.Frees k) (he : e ∈ entries)
    (hsum : e.addr + e.len < 2 ^ 64) (hstart : e.addr ≤ k * pageSize) :
    UsablePage entries k := by
  intro a hle hlt
  have hend := h.end_le hsum
  exact ⟨e, he, h.1, by omega, by omega⟩

theorem MmapEntry.Holds.frees (h : e.Holds k) (hk : k < e.endAddr / pageSize % 2 ^ 32) :
    e.Frees k := by
  refine ⟨h.1, ?_, hk⟩
  have hstart := h.2.1
  simp only [pageSize] at hstart ⊢
  omega

/-- The page an entry starts in, if the entry frees it. -/
theorem RoundsWell.usable (h : RoundsWell entries) (he : e ∈ entries)
    (hsum : e.addr + e.len < 2 ^ 64) (hlow : 512 ≤ k) (hk : k < mapPages entries)
    (hf : e.Frees k) : UsablePage entries k := by
  by_cases hstart : e.addr ≤ k * pageSize
  · exact hf.usable he hsum hstart
  by_cases hhigh : 2 ^ 44 ≤ e.addr
  · exact h.high e he hhigh k hlow hk hf
  · obtain ⟨htype, hfirst, hlast⟩ := hf
    have hpage : e.addr / pageSize = k := by
      simp only [pageSize] at hfirst hstart ⊢
      omega
    have hodd : e.addr % pageSize ≠ 0 := by
      simp only [pageSize] at hpage hstart ⊢
      omega
    have hend := MmapEntry.Frees.end_le ⟨htype, hfirst, hlast⟩ hsum
    intro a hle hlt
    rcases Nat.lt_or_ge a e.addr with hbefore | hin
    · refine h.start e he htype hodd (by omega) ?_ ?_ ?_ a ?_ hbefore <;> rwa [hpage]
    · exact ⟨e, he, htype, hin, by omega⟩

theorem Booted.roundsWell {b : Pmm} (hb : Booted entries b) (h : OnlyRamFreed entries b) :
    RoundsWell entries := by
  have htotal := hb.pages
  refine ⟨fun e he htype _ _ hlow hk hlast a hle hlt => ?_,
    fun e he _ k hlow hk hf => ?_, fun e he _ k hlow hk hholds _ => ?_⟩
  · have hfrees : e.Frees (e.addr / pageSize) := ⟨htype, Nat.mod_le _ _, hlast⟩
    have hclear := (hb.free _ hk).mpr ⟨hlow, e, he, hfrees⟩
    refine (h.ram _ (by omega) hclear).1 a hle ?_
    simp only [pageSize] at hle ⊢
    omega
  · exact (h.ram k (by omega) ((hb.free k hk).mpr ⟨hlow, e, he, hf⟩)).1
  · exact ((hb.free k hk).mp (h.all k hlow (by omega) ⟨e, he, hholds⟩)).2

theorem Booted.onlyRamFreed {b : Pmm} (hb : Booted entries b)
    (hsum : ∀ e ∈ entries, e.addr + e.len < 2 ^ 64) (h : RoundsWell entries) :
    OnlyRamFreed entries b := by
  refine ⟨fun k hk hclear => ?_, fun k hlow hk hin => ?_⟩
  · rw [hb.pages] at hk
    obtain ⟨hlow, e, he, hf⟩ := (hb.free k hk).mp hclear
    refine ⟨h.usable he (hsum e he) hlow hk hf, ?_⟩
    simp only [pageSize]
    omega
  · rw [hb.pages] at hk
    obtain ⟨e, he, hholds⟩ := hin
    refine (hb.free k hk).mpr ⟨hlow, ?_⟩
    rcases Nat.lt_or_ge k (e.endAddr / pageSize % 2 ^ 32) with hlt | hcut
    · exact ⟨e, he, hholds.frees hlt⟩
    · refine h.long e he ?_ k hlow hk hholds hcut
      have hend : e.endAddr = e.addr + e.len := Nat.mod_eq_of_lt (hsum e he)
      have hlast := hholds.2.2
      rw [hend] at hcut
      simp only [pageSize] at hcut hlast
      omega

end Rounding

/-- Only real RAM is freed, and all of it, exactly if the entries round well. -/
theorem only_ram_freed_iff (hmap : WellFormedMap mem mmapAddr mmapLength entries)
    (hsum : ∀ e ∈ entries, e.addr + e.len < 2 ^ 64) (hfuel : entries.length < fuel) :
    ∃ b, pmmInitMultiboot fuel mem s mmapAddr mmapLength = some b ∧
      (OnlyRamFreed entries b ↔ RoundsWell entries) := by
  have hbooted := multiboot_booted entries s
  refine ⟨_, pmmInitMultiboot_wellFormed hmap hfuel, ?_⟩
  constructor
  · intro h
    exact hbooted.roundsWell h
  · intro h
    exact hbooted.onlyRamFreed hsum h

/-- One entry of 4 MB on a page boundary. -/
theorem only_ram_freed_iff_one_entry :
    ∃ b, pmmInitMultiboot 2 oneEntryMap .powerOn 0x9000 24 = some b ∧
      OnlyRamFreed [⟨20, 0, 0x400000, 1⟩] b := by
  have hmap : WellFormedMap oneEntryMap 0x9000 24 [⟨20, 0, 0x400000, 1⟩] :=
    ⟨⟨by decide, by decide, by simp [MapTiles]⟩, by decide⟩
  obtain ⟨b, hb, hiff⟩ := only_ram_freed_iff (s := .powerOn) hmap (by simp) Nat.one_lt_two
  refine ⟨b, hb, hiff.mpr ⟨?_, ?_, ?_⟩⟩ <;> simp

/-- One entry that starts 2048 bytes behind a page boundary. -/
def unalignedMap (a : Nat) : UInt8 :=
  [20, 0, 0, 0, 0, 8, 0x30, 0, 0, 0, 0, 0, 0, 0, 0x10, 0, 0, 0, 0, 0, 1, 0, 0, 0].getD
    (a - 0x9000) 0

/-- The page in which the entry starts is freed, and its first half is no RAM. -/
theorem half_page_freed :
    ¬ ∀ (mem : Nat → UInt8) (mmapAddr mmapLength fuel : Nat) (entries : List MmapEntry) (b : Pmm),
      WellFormedMap mem mmapAddr mmapLength entries → (∀ e ∈ entries, e.addr + e.len < 2 ^ 64) →
      (∀ e ∈ entries, ∀ e' ∈ entries, e.type = 1 → e'.type ≠ 1 →
        e.addr + e.len ≤ e'.addr ∨ e'.addr + e'.len ≤ e.addr) →
      pmmInitMultiboot fuel mem .powerOn mmapAddr mmapLength = some b →
      OnlyRamFreed entries b := by
  intro hall
  have hmap : WellFormedMap unalignedMap 0x9000 24 [⟨20, 0x300800, 0x100000, 1⟩] :=
    ⟨⟨by decide, by decide, by simp [MapTiles]⟩, by decide⟩
  have hpages : mapPages [⟨20, 0x300800, 0x100000, 1⟩] = 0x400 := by decide
  have hfreed := hall _ _ _ 2 _ _ hmap (by simp) (by simp)
    (pmmInitMultiboot_wellFormed hmap Nat.one_lt_two)
  have hbooted := multiboot_booted [⟨20, 0x300800, 0x100000, 1⟩] .powerOn
  have hclear := (hbooted.free 0x300 (by rw [hpages]; decide)).mpr
    ⟨by decide, ⟨20, 0x300800, 0x100000, 1⟩, List.mem_singleton_self _,
      by simp [MmapEntry.Frees, MmapEntry.endAddr, pageSize]⟩
  have hbyte := (hfreed.ram 0x300 (by rw [hbooted.pages, hpages]; decide) hclear).1 0x300000
    (by decide) (by decide)
  simp [UsableByte] at hbyte

end HumanOS

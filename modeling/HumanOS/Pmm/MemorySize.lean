import HumanOS.Pmm.BadFrees
import HumanOS.Pmm.UsableRam

/-!
# The size of memory at boot

`kernel_main` scales the kilobytes of `mem_lower` and `mem_upper` to bytes in 32 bits, and on every
path 512 pages are marked used, however few there are.
-/
namespace HumanOS

open Lib Lib.Bitmap Pmm

variable {s b : Pmm} {memSize fuel : Nat} {mem : Nat → UInt8} {mbi : MultibootInfo}
variable {entries : List MmapEntry}

/-- The counters as integers: every page is used or free, and no counter has wrapped. -/
structure CountersAgree (s : Pmm) : Prop where
  sum : s.usedPages + s.freePages = s.totalPages
  free : s.freePages ≤ s.totalPages

theorem Pmm.Accounted.countersAgree (h : s.Accounted) : CountersAgree s := by
  have htotal := h.total
  exact ⟨htotal, by omega⟩

/-- The memory in kilobytes that the boot loader reports. -/
def MultibootInfo.memKB (mbi : MultibootInfo) : Nat := mbi.memLower.toNat + mbi.memUpper.toNat

section Init

theorem pmmInit_totalPages (hn : memSize < 2 ^ 32) :
    (pmmInit s memSize).totalPages = memSize / pageSize := by
  have hwords : ¬ (memSize / pageSize + 31) / 32 > 32768 := by
    simp only [pageSize]
    omega
  simp only [pmmInit, hwords, if_false]

theorem pmmInit_balanced (hn : memSize < 2 ^ 32) :
    Balanced (2 ^ 20 - memSize / pageSize) (pmmInit .powerOn memSize) := by
  have hfree : (pmmInit .powerOn memSize).freePages = memSize / pageSize :=
    pmmInit_totalPages (s := .powerOn) hn
  have hclear : clearCount (pmmInit .powerOn memSize).bitmap (2 ^ 20) = 2 ^ 20 := by
    have hle := le_clearCount_add (m := (pmmInit .powerOn memSize).bitmap) (a := 0) (n := 2 ^ 20)
      fun i _ _ => by simp [bit, pmmInit, powerOn]
    have hge : clearCount (pmmInit .powerOn memSize).bitmap (2 ^ 20) ≤ 2 ^ 20 := clearCount_le
    omega
  have hpages : memSize / pageSize < 2 ^ 20 := by
    simp only [pageSize]
    omega
  refine ⟨by omega, ?_⟩
  rw [hfree, hclear, Nat.mod_eq_of_lt (by omega)]
  omega

/-- Protecting 2 MB after `pmm_init` is sound exactly if they exist. -/
theorem protected_countersAgree_iff (hn : memSize < 2 ^ 32) :
    CountersAgree (protectFirst2MB (pmmInit .powerOn memSize)) ↔ 512 ≤ memSize / pageSize := by
  have htotal : (pmmInit .powerOn memSize).totalPages = memSize / pageSize :=
    pmmInit_totalPages hn
  constructor
  · intro h
    have hfree := h.free
    rw [protectFirst2MB_totalPages, htotal] at hfree
    have hpages : memSize / pageSize < 2 ^ 20 := by
      simp only [pageSize]
      omega
    have hlow := (pmmInit_balanced hn).protectFirst2MB.low_used (by omega) (by omega)
      fun k hk => by simp [protectFirst2MB_pageUsed, hk]
    omega
  · intro hle
    exact (protectFirst2MB_accounted (pmmInit_accounted _ _) (by omega)).1.countersAgree

end Init

section Boot

/-- The kilobytes are scaled modulo 4 GB. -/
theorem scaled_memKB :
    ((mbi.memLower + mbi.memUpper) * 1024).toNat = mbi.memKB % 2 ^ 22 * 1024 := by
  have hkilo : (1024 : Word).toNat = 1024 := rfl
  simp only [BitVec.toNat_mul, BitVec.toNat_add, MultibootInfo.memKB, hkilo]
  omega

/-- The path of `mem_lower` and `mem_upper` is sound exactly from 2 MB to below 4 GB. -/
theorem sized_boot_iff (fuel : Nat) (mem : Nat → UInt8) (hmap : mbi.flags &&& 1 <<< 6 = 0)
    (hsize : mbi.flags &&& 0x01 ≠ 0) :
    ∃ b, bootPmm fuel mem 0x2BADB002 mbi = some b ∧
      (CountersAgree b ∧ b.totalPages = min (mbi.memKB / 4) (2 ^ 20) ↔
        2048 ≤ mbi.memKB ∧ mbi.memKB < 2 ^ 22) := by
  have hboot : bootPmm fuel mem 0x2BADB002 mbi =
      some (protectFirst2MB (pmmInit .powerOn (mbi.memKB % 2 ^ 22 * 1024))) := by
    simp only [bootPmm, ne_eq, not_true_eq_false, if_false, hmap, hsize, if_true,
      not_false_eq_true, scaled_memKB]
  refine ⟨_, hboot, ?_⟩
  have hlt : mbi.memKB % 2 ^ 22 * 1024 < 2 ^ 32 := by omega
  rw [protected_countersAgree_iff hlt, protectFirst2MB_totalPages, pmmInit_totalPages hlt]
  simp only [pageSize]
  omega

/-- The path of the memory map is sound exactly if the bitmap words in use cover 2 MB. -/
theorem mapped_boot_iff (hflag : mbi.flags &&& 1 <<< 6 ≠ 0)
    (hwf : WellFormedMap mem mbi.mmapAddr.toNat mbi.mmapLength.toNat entries)
    (hfuel : entries.length < fuel) :
    ∃ b, bootPmm fuel mem 0x2BADB002 mbi = some b ∧
      (CountersAgree b ↔ 481 * pageSize ≤ highestUsable entries) := by
  have hwalk := pmmInitMultiboot_wellFormed (s := .powerOn) hwf hfuel
  have hboot : bootPmm fuel mem 0x2BADB002 mbi =
      pmmInitMultiboot fuel mem .powerOn mbi.mmapAddr.toNat mbi.mmapLength.toNat := by
    simp only [bootPmm, ne_eq, not_true_eq_false, if_false, hflag, not_false_eq_true, if_true]
  refine ⟨_, hboot.trans hwalk, ?_⟩
  have hdone := pmmInitMultiboot_done hwalk
  have hwords := hdone.words
  rw [protectFirst2MB_totalPages, (freeEntries_accounted _ (reserveAll_accounted _ _)).2,
    reserveAll_mapPages] at hwords
  have hcover : 512 ≤ 32 * (protectFirst2MB (entries.foldl freeEntry
      (reserveAll .powerOn (highestUsable entries)))).bitmapSize ↔
      481 * pageSize ≤ highestUsable entries := by
    rw [hwords]
    simp only [mapPages, pageSize]
    omega
  rw [← hcover]
  exact ⟨fun h => hdone.covers h.free, fun h => (hdone.accounted h).countersAgree⟩

end Boot

/-- The memory arithmetic of the two boot paths is sound for these sizes and no others. -/
theorem boot_memory_arithmetic_iff (fuel : Nat) (mem : Nat → UInt8) (mbi : MultibootInfo) :
    (mbi.flags &&& 1 <<< 6 = 0 → mbi.flags &&& 0x01 ≠ 0 →
      ∃ b, bootPmm fuel mem 0x2BADB002 mbi = some b ∧
        (CountersAgree b ∧ b.totalPages = min (mbi.memKB / 4) (2 ^ 20) ↔
          2048 ≤ mbi.memKB ∧ mbi.memKB < 2 ^ 22)) ∧
    (mbi.flags &&& 1 <<< 6 ≠ 0 → ∀ entries,
      WellFormedMap mem mbi.mmapAddr.toNat mbi.mmapLength.toNat entries → entries.length < fuel →
      ∃ b, bootPmm fuel mem 0x2BADB002 mbi = some b ∧
        (CountersAgree b ↔ 481 * pageSize ≤ highestUsable entries)) :=
  ⟨sized_boot_iff fuel mem, fun hflag _ hwf hfuel => mapped_boot_iff hflag hwf hfuel⟩

/-- A machine of 64 MB, and one with a map of 4 MB. -/
theorem boot_memory_arithmetic_64MB :
    (∃ b, bootPmm 0 (fun _ => 0) 0x2BADB002 ⟨1, 640, 64896, 0, 0⟩ = some b ∧
      CountersAgree b ∧ b.totalPages = 16384) ∧
    (∃ b, bootPmm 2 oneEntryMap 0x2BADB002 ⟨64, 0, 0, 24, 0x9000⟩ = some b ∧
      CountersAgree b) := by
  have hmap : WellFormedMap oneEntryMap 0x9000 24 [⟨20, 0, 0x400000, 1⟩] :=
    ⟨⟨by decide, by decide, by simp [MapTiles]⟩, by decide⟩
  obtain ⟨b, hb, hiff⟩ := (boot_memory_arithmetic_iff 0 (fun _ => 0) ⟨1, 640, 64896, 0, 0⟩).1
    (by decide) (by decide)
  obtain ⟨b', hb', hiff'⟩ := (boot_memory_arithmetic_iff 2 oneEntryMap
    ⟨64, 0, 0, 24, 0x9000⟩).2 (by decide) _ hmap Nat.one_lt_two
  exact ⟨⟨b, hb, hiff.mpr (by decide)⟩, ⟨b', hb', hiff'.mpr (by decide)⟩⟩

/-- On a machine of 4 GB no page is left, and 512 of them are taken. -/
theorem boot_memory_arithmetic_wraps :
    ¬ ∀ (fuel : Nat) (mem : Nat → UInt8) (mbi : MultibootInfo) (b : Pmm),
      mbi.flags &&& 1 <<< 6 = 0 → mbi.flags &&& 0x01 ≠ 0 →
      bootPmm fuel mem 0x2BADB002 mbi = some b →
      CountersAgree b ∧ b.totalPages = min (mbi.memKB / 4) (2 ^ 20) := by
  intro hall
  have hmap : (⟨1, 640, 0x3FFD80, 0, 0⟩ : MultibootInfo).flags &&& 1 <<< 6 = 0 := by decide
  have hsize : (⟨1, 640, 0x3FFD80, 0, 0⟩ : MultibootInfo).flags &&& 0x01 ≠ 0 := by decide
  obtain ⟨b, hb, hiff⟩ := sized_boot_iff 0 (fun _ => 0) hmap hsize
  have hsound := hiff.mp (hall 0 (fun _ => 0) _ b hmap hsize hb)
  simp [MultibootInfo.memKB] at hsound

end HumanOS

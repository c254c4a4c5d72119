import HumanOS.Lib.Stack
import HumanOS.Pmm.Multiboot

/-!
# Boot paths and the meaning of NULL

`kernel_main` sets up the PMM in one of four ways. NULL is the address of page 0 as well, so what
`pmm_alloc_page` reports is right as long as page 0 stays in use.
-/
namespace HumanOS

open Lib Lib.Bitmap Pmm

/-- The fields of `multiboot_info_t` that `kernel_main` reads. -/
structure MultibootInfo where
  flags : Word
  memLower : Word
  memUpper : Word
  mmapLength : Word
  mmapAddr : Word

/-- The PMM part of `kernel_main`; `fuel` is for the walks over the memory map. -/
def bootPmm (fuel : Nat) (mem : Nat → UInt8) (magic : Word) (mbi : MultibootInfo) : Option Pmm :=
  if magic ≠ 0x2BADB002 then some (pmmInit .powerOn (128 * 1024 * 1024))
  else if mbi.flags &&& 1 <<< 6 ≠ 0 then
    pmmInitMultiboot fuel mem .powerOn mbi.mmapAddr.toNat mbi.mmapLength.toNat
  else if mbi.flags &&& 0x01 ≠ 0 then
    some (protectFirst2MB (pmmInit .powerOn ((mbi.memLower + mbi.memUpper) * 1024).toNat))
  else some (protectFirst2MB (pmmInit .powerOn (128 * 1024 * 1024)))

/-- The calls of the PMM's clients, on any address. -/
inductive PageCall where
  | alloc
  | free (addr : Word)
deriving DecidableEq, Repr

inductive PageStep : Pmm → PageCall → Pmm → Prop
  | alloc {s : Pmm} : PageStep s .alloc (pmmAllocPage s).1
  | free {s : Pmm} {addr : Word} : PageStep s (.free addr) (pmmFreePage s addr.toNat)

/-- The page a call gives back: none if `pmm_free_page` rejects the address. -/
def PageCall.Frees (s : Pmm) (op : PageCall) (page : Nat) : Prop :=
  ∃ addr : Word, op = .free addr ∧ addr.toNat % pageSize = 0 ∧ page = addr.toNat / pageSize ∧
    s.pageUsed page = true

/-- A call that gives back no page beyond the end of memory. -/
def InRangeStep (s : Pmm) (op : PageCall) (t : Pmm) : Prop :=
  PageStep s op t ∧ ∀ page, op.Frees s page → page < s.totalPages

/-- A call that gives back neither such a page nor page 0. -/
def CarefulStep (s : Pmm) (op : PageCall) (t : Pmm) : Prop :=
  PageStep s op t ∧ ∀ page, op.Frees s page → 0 < page ∧ page < s.totalPages

/-- NULL means that no page is free, and that nothing has changed. -/
structure ReportsFailure (s : Pmm) : Prop where
  null_iff : (pmmAllocPage s).2 = 0 ↔ ∀ k < s.totalPages, s.pageUsed k = true
  unchanged : (pmmAllocPage s).2 = 0 → (pmmAllocPage s).1.bitmap = s.bitmap ∧
    (pmmAllocPage s).1.totalPages = s.totalPages ∧ (pmmAllocPage s).1.usedPages = s.usedPages ∧
    (pmmAllocPage s).1.freePages = s.freePages

variable {s t b : Pmm} {op : PageCall} {ops : List PageCall} {fuel page : Nat} {mem : Nat → UInt8}
variable {magic : Word} {mbi : MultibootInfo}

section Boot

/-- On every boot path with at least 2 MB the counters agree with the bitmap. -/
theorem bootPmm_accounted (hb : bootPmm fuel mem magic mbi = some b)
    (hsize : 512 ≤ b.totalPages) : b.Accounted := by
  have hprotect : ∀ {u : Pmm}, u.Accounted → 512 ≤ (protectFirst2MB u).totalPages →
      (protectFirst2MB u).Accounted := by
    intro u hu hle
    rw [protectFirst2MB_totalPages] at hle
    exact (protectFirst2MB_accounted hu hle).1
  unfold bootPmm at hb
  split at hb
  · obtain rfl := Option.some.inj hb
    exact pmmInit_accounted _ _
  · split at hb
    · obtain ⟨maxUsable, entries, hstages⟩ := pmmInitMultiboot_stages hb
      rw [hstages] at hsize ⊢
      exact hprotect (freeEntries_accounted entries (reserveAll_accounted _ _)).1 hsize
    · split at hb
      · obtain rfl := Option.some.inj hb
        exact hprotect (pmmInit_accounted _ _) hsize
      · obtain rfl := Option.some.inj hb
        exact hprotect (pmmInit_accounted _ _) hsize

/-- With the Multiboot magic page 0 is protected. -/
theorem bootPmm_page0 (hb : bootPmm fuel mem 0x2BADB002 mbi = some b) : b.pageUsed 0 = true := by
  have hprotect : ∀ u : Pmm, (protectFirst2MB u).pageUsed 0 = true := fun u => by
    simp [protectFirst2MB_pageUsed]
  simp only [bootPmm, ne_eq, not_true_eq_false, if_false] at hb
  split at hb
  · obtain ⟨maxUsable, entries, hstages⟩ := pmmInitMultiboot_stages hb
    rw [hstages]
    exact hprotect _
  · split at hb
    · obtain rfl := Option.some.inj hb
      exact hprotect _
    · obtain rfl := Option.some.inj hb
      exact hprotect _

end Boot

section Calls

theorem PageStep.totalPages (h : PageStep s op t) : t.totalPages = s.totalPages := by
  cases h with
  | alloc => exact pmmAllocPage_totalPages
  | @free addr =>
    rcases pmmFreePage_cases s addr.toNat with ⟨-, heq⟩ | ⟨-, -, heq⟩ | ⟨-, -, heq⟩ <;> simp [heq]

theorem InRangeStep.accounted (h : InRangeStep s op t) (hs : s.Accounted) : t.Accounted := by
  obtain ⟨hstep, hrange⟩ := h
  cases hstep with
  | alloc => exact pmmAllocPage_accounted hs
  | @free addr =>
    rcases pmmFreePage_cases s addr.toNat with ⟨-, heq⟩ | ⟨-, -, heq⟩ | ⟨hal, hb, heq⟩
    · rw [heq]
      exact vgaPuts_accounted hs
    · rw [heq]
      exact vgaPuts_accounted hs
    · rw [heq]
      exact release_accounted hs (hrange _ ⟨addr, rfl, hal, rfl, hb⟩) hb

/-- A call that does not give back page 0 leaves it in use. -/
theorem CarefulStep.page0 (h : CarefulStep s op t) (hs : s.pageUsed 0 = true) :
    t.pageUsed 0 = true := by
  obtain ⟨hstep, hcare⟩ := h
  cases hstep with
  | alloc => exact pmmAllocPage_keeps hs
  | @free addr =>
    rcases pmmFreePage_cases s addr.toNat with ⟨-, heq⟩ | ⟨-, -, heq⟩ | ⟨hal, hb, heq⟩
    · rwa [heq]
    · rwa [heq]
    · have hpos := (hcare _ ⟨addr, rfl, hal, rfl, hb⟩).1
      rw [heq, release_pageUsed, hs]
      simp only [Bool.and_true, Bool.not_eq_eq_eq_not, Bool.not_true, decide_eq_false_iff_not]
      omega

/-- With consistent counters the report is right exactly if page 0 is in use. -/
theorem reportsFailure_iff (hs : s.Accounted) (hpos : 0 < s.totalPages) :
    ReportsFailure s ↔ s.pageUsed 0 = true := by
  rcases pmmAllocPage_cases hs with ⟨hf, heq⟩ | ⟨p, hp, hlow, -, heq⟩
  · -- No page is free: the counter is 0, and so is the number of clear bits.
    have hall : ∀ k < s.totalPages, s.pageUsed k = true := by
      intro k hk
      by_contra hb
      have hcount := clearCount_pos.mpr ⟨k, hk, by simpa [pageUsed] using hb⟩
      rw [← hs.free] at hcount
      omega
    refine iff_of_true ⟨by rw [heq]; exact iff_of_true rfl hall, fun _ => ?_⟩ (hall 0 hpos)
    rw [heq]
    exact ⟨rfl, rfl, rfl, rfl⟩
  · constructor
    · intro hrep
      by_contra hb
      have hzero : p = 0 := hlow.unique ⟨by simpa using hb, fun q hq => by omega⟩
      have hused := hrep.null_iff.mp (by rw [heq, hzero, Nat.zero_mul]) 0 hpos
      exact hb hused
    · intro h0
      have hne : (pmmAllocPage s).2 ≠ 0 := by
        rw [heq]
        intro hz
        have hzero : p = 0 := by
          simp only [pageSize] at hz
          omega
        have hclear := hlow.1
        rw [hzero, h0] at hclear
        simp at hclear
      refine ⟨iff_of_false hne fun hall => ?_, fun hz => (hne hz).elim⟩
      have hused := hall p hp
      simp [hlow.1] at hused

end Calls

/-- On every boot path with at least 2 MB and in every run that frees no page beyond the end of
memory, `pmm_alloc_page` reports failure as it should exactly while page 0 is in use; with the
Multiboot magic, and as long as nobody frees page 0, it always is. -/
theorem alloc_reports_failure_while_page0_used (hboot : bootPmm fuel mem magic mbi = some b)
    (hsize : 512 ≤ b.totalPages) :
    (∀ ops t, Run InRangeStep b ops t → (ReportsFailure t ↔ t.pageUsed 0 = true)) ∧
    (magic = 0x2BADB002 → ∀ ops t, Run CarefulStep b ops t → ReportsFailure t) := by
  have hrun : ∀ ops t, Run InRangeStep b ops t → (ReportsFailure t ↔ t.pageUsed 0 = true) := by
    intro ops t hr
    obtain ⟨hacc, htotal⟩ := hr.invariant
      (fun t => t.Accounted ∧ t.totalPages = b.totalPages)
      (fun _ _ _ hs h => ⟨hs.accounted h.1, hs.1.totalPages.trans h.2⟩)
      ⟨bootPmm_accounted hboot hsize, rfl⟩
    exact reportsFailure_iff hacc (by omega)
  refine ⟨hrun, ?_⟩
  rintro rfl ops t hr
  have hin : Run InRangeStep b ops t :=
    hr.mono fun _ _ _ hs => ⟨hs.1, fun page hpage => (hs.2 page hpage).2⟩
  exact (hrun ops t hin).mpr (hr.invariant (fun t => t.pageUsed 0 = true)
    (fun _ _ _ hs h => hs.page0 h) (bootPmm_page0 hboot))

/-- Without memory information: a page is taken and given back. -/
theorem alloc_reports_failure_while_page0_used_no_info :
    ∃ b t, bootPmm 0 (fun _ => 0) 0x2BADB002 ⟨0, 0, 0, 0, 0⟩ = some b ∧
      Run CarefulStep b [.alloc, .free 0x200000] t ∧ ReportsFailure t := by
  have hboot : bootPmm 0 (fun _ => 0) 0x2BADB002 ⟨0, 0, 0, 0, 0⟩ =
      some (protectFirst2MB (pmmInit .powerOn (128 * 1024 * 1024))) := by simp [bootPmm]
  have htotal : (protectFirst2MB (pmmInit .powerOn (128 * 1024 * 1024))).totalPages = 32768 := by
    rw [protectFirst2MB_totalPages]
    decide
  generalize protectFirst2MB (pmmInit .powerOn (128 * 1024 * 1024)) = b at *
  have hrun : Run CarefulStep b [.alloc, .free 0x200000]
      (pmmFreePage (pmmAllocPage b).1 0x200000) := by
    refine .stepL ⟨.alloc, ?_⟩ (.single ⟨.free, ?_⟩)
    · rintro page ⟨addr, hop, -⟩
      simp at hop
    · rintro page ⟨addr, hop, -, rfl, -⟩
      obtain rfl := PageCall.free.inj hop
      rw [pmmAllocPage_totalPages, htotal]
      decide
  exact ⟨b, _, hboot, hrun,
    (alloc_reports_failure_while_page0_used hboot (by omega)).2 rfl _ _ hrun⟩

/-- Not loaded by Multiboot, the first page handed out is page 0. -/
theorem alloc_hides_page0 :
    ¬ ∀ (fuel : Nat) (mem : Nat → UInt8) (magic : Word) (mbi : MultibootInfo) (b t : Pmm)
      (ops : List PageCall), bootPmm fuel mem magic mbi = some b → Run PageStep b ops t →
      ReportsFailure t := by
  intro hall
  have hrep := hall 0 (fun _ => 0) 0 ⟨0, 0, 0, 0, 0⟩ _ _ [] (if_pos (by decide)) .refl
  rw [reportsFailure_iff (pmmInit_accounted _ _) (by decide)] at hrep
  simp [pageUsed, bit, pmmInit, pageSize] at hrep

end HumanOS

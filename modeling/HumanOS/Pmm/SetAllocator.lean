import HumanOS.Lib.Pool
import HumanOS.Pmm.Accounting

/-!
# The page allocator as a pool of pages

`pmm_alloc_page` and `pmm_free_page` on the addresses handed out act as a pool of page numbers
that always gives its least free page.
-/
namespace HumanOS

open Lib Lib.Bitmap Pmm

variable {s t : Pmm} {p addr : Nat}

section Undo

theorem release_take (h : s.Accounted) (hp : p < s.totalPages) (hb : s.pageUsed p = false) :
    (s.take p).release p = s := by
  have hfree : 0 < s.freePages := by
    rw [h.free]
    exact clearCount_pos.mpr ⟨p, hp, hb⟩
  have htotal := h.total
  have hbound := h.bound
  have hused : sub32 (add32 s.usedPages 1) 1 = s.usedPages := by
    rw [add32_of_lt (by omega), sub32_of_le (by omega) (by omega)]
    omega
  have hleft : add32 (sub32 s.freePages 1) 1 = s.freePages := by
    rw [sub32_of_le (by omega) (by omega), add32_of_lt (by omega)]
    omega
  have hbitmap : clearBit (setBit s.bitmap p) p = s.bitmap := clearBit_setBit (by decide) hb
  cases s
  simp only [take, release] at hused hleft ⊢
  rw [hused, hleft]
  congr 1

end Undo

section Runs

/-- The pages below `total_pages` whose bit is clear. -/
def Pmm.freeSet (s : Pmm) : Finset Nat :=
  (Finset.range s.totalPages).filter fun k => s.pageUsed k = false

theorem mem_freeSet : p ∈ s.freeSet ↔ p < s.totalPages ∧ s.pageUsed p = false := by
  simp [Pmm.freeSet]

theorem card_freeSet (h : s.Accounted) : s.freeSet.card = s.freePages := h.free.symm

/-- The allocator and the addresses it has handed out and not got back. -/
structure PmmClients where
  pmm : Pmm
  held : List Nat

inductive ClientOp where
  | alloc
  | free (addr : Nat)

/-- A call of `pmm_alloc_page`, which hands out nothing when no page is free, or of
`pmm_free_page` on an address that is held. -/
inductive ClientStep : PmmClients → ClientOp → PmmClients → Prop
  | allocNone {c} : c.pmm.freePages = 0 →
      ClientStep c .alloc { c with pmm := (pmmAllocPage c.pmm).1 }
  | alloc {c} : c.pmm.freePages ≠ 0 →
      ClientStep c .alloc ⟨(pmmAllocPage c.pmm).1, (pmmAllocPage c.pmm).2 :: c.held⟩
  | free {c addr} : addr ∈ c.held →
      ClientStep c (.free addr) ⟨pmmFreePage c.pmm addr, c.held.erase addr⟩

variable {c c' : PmmClients} {op : ClientOp} {ops : List ClientOp} {P : Pool Nat} {F : Finset Nat}

/-- The pool of page numbers that the allocator and its clients stand for. -/
structure Represents (c : PmmClients) (P : Pool Nat) : Prop where
  accounted : c.pmm.Accounted
  free : P.free = c.pmm.freeSet
  held : c.held = P.held.map (· * pageSize)
  inside : ∀ p ∈ P.held, p < c.pmm.totalPages

theorem freeSet_take (hp : p < s.totalPages) : (s.take p).freeSet = s.freeSet.erase p := by
  ext k
  by_cases hk : k = p
  · subst hk
    simp [mem_freeSet]
  · simp [mem_freeSet, hk]

theorem freeSet_release (hp : p < s.totalPages) : (s.release p).freeSet = insert p s.freeSet := by
  ext k
  by_cases hk : k = p
  · subst hk
    simp [mem_freeSet, hp]
  · simp [mem_freeSet, hk]

/-- The lowest clear bit is the least free page. -/
theorem Pmm.Lowest.isLeast (hp : p < s.totalPages) (hlow : s.Lowest p) :
    IsLeast (s.freeSet : Set Nat) p := by
  refine ⟨by simpa [mem_freeSet] using ⟨hp, hlow.1⟩, ?_⟩
  intro q hq
  by_contra hlt
  have hused := hlow.2 q (by omega)
  have hfree := (mem_freeSet.mp hq).2
  simp [hused] at hfree

/-- A page handed out is in use. -/
theorem Represents.used (h : Represents c P) (hP : P.Splits F) (hp : p ∈ P.held) :
    c.pmm.pageUsed p = true := by
  have hnot := hP.apart p hp
  rw [h.free, mem_freeSet] at hnot
  by_contra hu
  exact hnot ⟨h.inside p hp, by simpa using hu⟩

/-- One call is one step of the pool, or none at all. -/
theorem ClientStep.represents (hs : ClientStep c op c') (h : Represents c P) (hP : P.Splits F) :
    ∃ as P', Run PoolStep P as P' ∧ Represents c' P' := by
  cases hs with
  | allocNone hfull =>
    refine ⟨[], P, .refl, ?_⟩
    rcases pmmAllocPage_cases h.accounted with ⟨-, heq⟩ | ⟨p, -, -, hfree, -⟩
    · rw [heq]
      exact ⟨vgaPuts_accounted h.accounted, h.free, h.held, h.inside⟩
    · exact (hfree hfull).elim
  | alloc hroom =>
    rcases pmmAllocPage_cases h.accounted with ⟨hfull, -⟩ | ⟨p, hp, hlow, -, heq⟩
    · exact (hroom hfull).elim
    · have hleast : IsLeast (P.free : Set Nat) p := by
        rw [h.free]
        exact hlow.isLeast hp
      refine ⟨[.take p], _, .single (.take hleast), ?_⟩
      rw [heq]
      refine ⟨take_accounted h.accounted hp hlow.1, ?_, by simp [h.held], ?_⟩
      · rw [freeSet_take hp, h.free]
      · intro q hq
        rcases List.mem_cons.mp hq with rfl | hq
        · exact hp
        · exact h.inside q hq
  | free hmem =>
    rw [h.held] at hmem
    obtain ⟨p, hp, rfl⟩ := List.mem_map.mp hmem
    have hpage : p * pageSize / pageSize = p := Nat.mul_div_cancel _ (by decide)
    have hused := h.used hP hp
    have hrelease : pmmFreePage c.pmm (p * pageSize) = c.pmm.release p := by
      rcases pmmFreePage_cases c.pmm (p * pageSize) with ⟨hal, -⟩ | ⟨-, hb, -⟩ | ⟨-, -, heq⟩
      · exact (hal (Nat.mul_mod_left _ _)).elim
      · simp [hpage, hused] at hb
      · rw [heq, hpage]
    refine ⟨[.give p], _, .single (.give hp), ?_⟩
    rw [hrelease]
    refine ⟨release_accounted h.accounted (h.inside p hp) hused, ?_, ?_, ?_⟩
    · rw [freeSet_release (h.inside p hp), h.free]
    · have hinj : Function.Injective (· * pageSize : Nat → Nat) := by
        intro x y hxy
        simpa [pageSize] using hxy
      rw [h.held, List.map_erase hinj]
    · intro q hq
      exact h.inside q (List.mem_of_mem_erase hq)

/-- A whole run of calls is a run of the pool. -/
theorem Represents.run (hr : Run ClientStep c ops c') (h : Represents c P) (hP : P.Splits F) :
    ∃ as P', Run PoolStep P as P' ∧ Represents c' P' := by
  induction hr generalizing P with
  | refl => exact ⟨[], P, .refl, h⟩
  | stepL hs _ ih =>
    obtain ⟨as, P1, hP1, h1⟩ := hs.represents h hP
    obtain ⟨bs, P2, hP2, h2⟩ := ih h1 (hP.run hP1)
    exact ⟨as ++ bs, P2, hP1.append hP2, h2⟩

/-- What the allocator promises from a state on. -/
structure AllocatesLowest (s : Pmm) : Prop where
  /-- A call takes the lowest clear bit and leaves every other bit alone. -/
  lowest : 0 < s.freePages → ∃ p < s.totalPages, s.Lowest p ∧
    (pmmAllocPage s).2 = p * pageSize ∧ (pmmAllocPage s).1.pageUsed p = true ∧
    ∀ k ≠ p, (pmmAllocPage s).1.pageUsed k = s.pageUsed k
  /-- Giving the page back undoes the call. -/
  restores : 0 < s.freePages → pmmFreePage (pmmAllocPage s).1 (pmmAllocPage s).2 = s
  /-- No address is held twice. -/
  distinct : ∀ ops c, Run ClientStep ⟨s, []⟩ ops c → c.held.Nodup
  /-- Nothing is handed out that was in use at the start. -/
  fresh : ∀ ops c, Run ClientStep ⟨s, []⟩ ops c →
    ∀ a ∈ c.held, a % pageSize = 0 ∧ s.pageUsed (a / pageSize) = false
  /-- `used_pages` counts the addresses held. -/
  growth : ∀ ops c, Run ClientStep ⟨s, []⟩ ops c → c.pmm.usedPages = s.usedPages + c.held.length
  /-- The calls are those of the pool of free pages. -/
  refines : ∀ ops c, Run ClientStep ⟨s, []⟩ ops c →
    ∃ as P, Run PoolStep ⟨s.freeSet, []⟩ as P ∧ Represents c P

theorem ClientStep.totalPages (hs : ClientStep c op c') :
    c'.pmm.totalPages = c.pmm.totalPages := by
  cases hs with
  | allocNone => exact pmmAllocPage_totalPages
  | alloc => exact pmmAllocPage_totalPages
  | @free addr =>
    rcases pmmFreePage_cases c.pmm addr with ⟨-, heq⟩ | ⟨-, -, heq⟩ | ⟨-, -, heq⟩ <;> simp [heq]

/-- The calls of `pmm_alloc_page` and `pmm_free_page` are those of a pool of pages. -/
theorem pmm_refines_set_allocator (h : s.Accounted) : AllocatesLowest s := by
  have hrun : ∀ ops c, Run ClientStep ⟨s, []⟩ ops c →
      ∃ as P, Run PoolStep ⟨s.freeSet, []⟩ as P ∧ Represents c P := fun ops c hr =>
    Represents.run hr ⟨h, rfl, rfl, by simp⟩ Pool.splits_start
  refine ⟨fun hf => ?_, fun hf => ?_, fun ops c hr => ?_, fun ops c hr a ha => ?_,
    fun ops c hr => ?_, hrun⟩
  · rcases pmmAllocPage_cases h with ⟨hfull, -⟩ | ⟨p, hp, hlow, -, heq⟩
    · omega
    · rw [heq]
      exact ⟨p, hp, hlow, rfl, by simp, fun k hk => by simp [hk]⟩
  · rcases pmmAllocPage_cases h with ⟨hfull, -⟩ | ⟨p, hp, hlow, -, heq⟩
    · omega
    · have hpage : p * pageSize / pageSize = p := Nat.mul_div_cancel _ (by decide)
      rw [heq]
      rcases pmmFreePage_cases (s.take p) (p * pageSize) with ⟨hal, -⟩ | ⟨-, hb, -⟩ | ⟨-, -, hfree⟩
      · exact (hal (Nat.mul_mod_left _ _)).elim
      · simp [hpage] at hb
      · rw [hfree, hpage, release_take h hp hlow.1]
  · obtain ⟨as, P, hP, hrep⟩ := hrun ops c hr
    have hinj : Function.Injective (· * pageSize : Nat → Nat) := by
      intro x y hxy
      simpa [pageSize] using hxy
    rw [hrep.held]
    exact (Pool.splits_start.run hP).nodup.map hinj
  · obtain ⟨as, P, hP, hrep⟩ := hrun ops c hr
    rw [hrep.held] at ha
    obtain ⟨p, hp, rfl⟩ := List.mem_map.mp ha
    have hin := ((Pool.splits_start.run hP).mem p).mpr (Or.inr hp)
    rw [Nat.mul_div_cancel _ (by decide)]
    exact ⟨Nat.mul_mod_left _ _, (mem_freeSet.mp hin).2⟩
  · obtain ⟨as, P, hP, hrep⟩ := hrun ops c hr
    have hcard := (Pool.splits_start.run hP).card
    have htotal : c.pmm.totalPages = s.totalPages :=
      hr.invariant (fun c => c.pmm.totalPages = s.totalPages)
        (fun _ _ _ hs ht => hs.totalPages.trans ht) rfl
    rw [hrep.free, card_freeSet hrep.accounted, card_freeSet h] at hcard
    have hlen : c.held.length = P.held.length := by simp [hrep.held]
    have hend := hrep.accounted.total
    have hstart := h.total
    omega

/-- On a machine of two pages: both handed out, the first one given back and taken again. -/
theorem pmm_refines_set_allocator_two_pages :
    ∃ c, Run ClientStep ⟨pmmInit .powerOn 8192, []⟩ [.alloc, .alloc, .free 0, .alloc] c ∧
      c.held = [0, 4096] ∧ c.pmm.usedPages = 2 := by
  have hstart : (pmmInit .powerOn 8192).Accounted := pmmInit_accounted _ _
  obtain ⟨c, hr, hheld⟩ : ∃ c, Run ClientStep ⟨pmmInit .powerOn 8192, []⟩
      [.alloc, .alloc, .free 0, .alloc] c ∧ c.held = [0, 4096] :=
    ⟨_, .stepL (.alloc (by decide +kernel)) (.stepL (.alloc (by decide +kernel))
      (.stepL (.free (by decide +kernel)) (.single (.alloc (by decide +kernel))))),
      by decide +kernel⟩
  refine ⟨c, hr, hheld, ?_⟩
  rw [(pmm_refines_set_allocator hstart).growth _ c hr, hheld]
  rfl

end Runs

end HumanOS

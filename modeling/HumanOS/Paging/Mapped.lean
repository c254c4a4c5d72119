import HumanOS.Heap.Ownership
import HumanOS.Paging.Model
import HumanOS.Pmm.Multiboot

/-!
# What the kernel hands out is mapped

`paging_init` maps the first 4 MB, while the PMM and the heap hand out any page of the machine.
-/
namespace HumanOS

open Lib Pmm

variable {s t : Pmm} {pg : Paging} {a f g : Nat}

/-- The tables translate the address to itself. -/
structure Paging.Identity (pg : Paging) (a : Nat) : Prop where
  directory : (pg.directoryEntry a).present = true
  table : (pg.entries (pg.table a) (tableIndex a)).present = true
  physical : pageGetPhysical pg a = some a

/-- What a successful `paging_init` leaves: two pages taken, the first 4 MB mapped. The lowest free
pages were taken, so that a directory or table beyond 4 MB means that the first 4 MB are full. -/
structure PagingReady (t : Pmm) (pg : Paging) : Prop where
  accounted : t.Accounted
  page0 : t.pageUsed 0 = true
  directoryUsed : t.pageUsed (pg.pageDirectory / pageSize) = true
  tableUsed : t.pageUsed (pg.pageTables 0 / pageSize) = true
  identity : (∀ a < 1024 * pageSize, pg.Identity a) ∨ ∀ page < 1024, t.pageUsed page = true
  unmapped : ∀ a, 1024 * pageSize ≤ a → a < 2 ^ 32 → (pg.directoryEntry a).present = false

theorem dirIndex_eq (ha : a < 1024 * pageSize) : dirIndex a = 0 := by
  simp only [dirIndex, pageSize] at ha ⊢
  omega

theorem tableIndex_eq (ha : a < 1024 * pageSize) : tableIndex a = a / pageSize := by
  simp only [tableIndex, pageSize] at ha ⊢
  omega

/-- What a successful `paging_init` leaves: pages `f` and `g` taken for the directory and its one
table, which maps its pages to themselves. -/
structure PagingBuilt (s t : Pmm) (pg : Paging) (f g : Nat) : Prop where
  pmm : t = ((s.take f).take g).vgaPuts "[PAGING] Enabled (identity-mapped first 4 MB)\n" 0x1A
  directory : pg.pageDirectory = f * pageSize
  table : pg.pageTables 0 = g * pageSize
  cr3 : pg.cr3 = f * pageSize
  enabled : pg.enabled = true
  directoryEntry : ∀ i < 1024, pg.entries (f * pageSize) i =
    if i = 0 then ⟨true, true, true, g * pageSize / 2 ^ 12⟩ else clearEntry
  tableEntry : ∀ i < 1024, pg.entries (g * pageSize) i = ⟨true, true, true, i⟩

namespace PagingBuilt

/-- The directory entry of an address in the first 4 MB leads to the table. -/
theorem first (hb : PagingBuilt s t pg f g) :
    pg.entries (f * pageSize) 0 = ⟨true, true, true, g⟩ := by
  rw [hb.directoryEntry 0 (by decide), if_pos rfl]
  congr 1
  exact Nat.mul_div_cancel g (by decide)

theorem page (hb : PagingBuilt s t pg f g) (ha : a < 1024 * pageSize) :
    pg.entries (g * 2 ^ 12) (tableIndex a) = ⟨true, true, true, a / pageSize⟩ := by
  rw [tableIndex_eq ha]
  refine hb.tableEntry _ ?_
  simp only [pageSize] at ha ⊢
  omega

theorem translate_eq (hb : PagingBuilt s t pg f g) (ha : a < 1024 * pageSize) :
    pg.translate a = some a := by
  have haddr : a / pageSize * 2 ^ 12 + a % 2 ^ 12 = a := Nat.div_add_mod' a pageSize
  simp [-Nat.reducePow, Paging.translate, hb.enabled, hb.cr3, dirIndex_eq ha, hb.first, hb.page ha,
    haddr]

theorem absent (hb : PagingBuilt s t pg f g) (hlo : 1024 * pageSize ≤ a) (hhi : a < 2 ^ 32) :
    (pg.entries (f * pageSize) (dirIndex a)).present = false := by
  have hidx : dirIndex a ≠ 0 ∧ dirIndex a < 1024 := by
    simp only [dirIndex, pageSize] at hlo ⊢
    omega
  rw [hb.directoryEntry _ hidx.2, if_neg hidx.1]
  rfl

theorem translate_beyond (hb : PagingBuilt s t pg f g) (hlo : 1024 * pageSize ≤ a)
    (hhi : a < 2 ^ 32) : pg.translate a = none := by
  simp [Paging.translate, hb.enabled, hb.cr3, hb.absent hlo hhi]

theorem loadEntry_eq {i : Nat} (hb : PagingBuilt s t pg f g) (ha : a < 1024 * pageSize) :
    pg.loadEntry a i = some (pg.entries a i) := by
  rw [Paging.loadEntry, hb.translate_eq ha, Option.map_some]

/-- With the directory and the table in the first 4 MB, all addresses there are mapped to
themselves. -/
theorem identity (hb : PagingBuilt s t pg f g) (hf : f < 1024) (hg : g < 1024)
    (ha : a < 1024 * pageSize) : pg.Identity a := by
  have hde : pg.directoryEntry a = ⟨true, true, true, g⟩ := by
    rw [Paging.directoryEntry, hb.directory, dirIndex_eq ha, hb.first]
  have hload : pg.loadEntry pg.pageDirectory (dirIndex a) = some ⟨true, true, true, g⟩ := by
    rw [hb.directory, hb.loadEntry_eq (by simp only [pageSize]; omega), dirIndex_eq ha, hb.first]
  have htable : pg.loadEntry (g * 2 ^ 12) (tableIndex a) =
      some ⟨true, true, true, a / pageSize⟩ := by
    rw [hb.loadEntry_eq (by simp only [pageSize]; omega), hb.page ha]
  have haddr : a / pageSize * 2 ^ 12 + a % 2 ^ 12 = a := Nat.div_add_mod' a pageSize
  refine ⟨by rw [hde], by rw [Paging.table, hde, hb.page ha], ?_⟩
  simp [-Nat.reducePow, pageGetPhysical, hload, htable, haddr]

end PagingBuilt

theorem pagingInit_built
    (hf : pmmAllocPage (s.vgaPuts "[PAGING] Initializing...\n" 0x1A) =
      ((s.vgaPuts "[PAGING] Initializing...\n" 0x1A).take f, f * pageSize))
    (hg : pmmAllocPage ((s.vgaPuts "[PAGING] Initializing...\n" 0x1A).take f) =
      (((s.vgaPuts "[PAGING] Initializing...\n" 0x1A).take f).take g, g * pageSize))
    (hf0 : f * pageSize ≠ 0) (hg0 : g * pageSize ≠ 0) (hne : g * pageSize ≠ f * pageSize) :
    PagingBuilt (s.vgaPuts "[PAGING] Initializing...\n" 0x1A) (pagingInit s pg).1
      (pagingInit s pg).2 f g := by
  constructor
  · simp [pagingInit, hf, hf0, mapDirectory, hg, hg0]
  · simp [pagingInit, hf, hf0, mapDirectory, hg, hg0, Paging.fill, Paging.setEntry]
  · simp [pagingInit, hf, hf0, mapDirectory, hg, hg0, Paging.fill, Paging.setEntry]
  · simp [pagingInit, hf, hf0, mapDirectory, hg, hg0, Paging.fill, Paging.setEntry]
  · simp [pagingInit, hf, hf0, mapDirectory, hg, hg0]
  · intro i hi
    by_cases hz : i = 0 <;>
      simp [pagingInit, hf, hf0, mapDirectory, hg, hg0, Paging.fill, Paging.setEntry, hne.symm,
        pageTableEntries, hz, hi]
  · intro i hi
    simp [pagingInit, hf, hf0, mapDirectory, hg, hg0, Paging.fill, Paging.setEntry, hne,
      pageTableEntries, hi]
    simp only [pageSize]
    omega

theorem PagingBuilt.ready (hb : PagingBuilt s t pg f g)
    (hacc : ((s.take f).take g).Accounted) (hf : 0 < f) (hlow : s.Lowest f)
    (hglow : (s.take f).Lowest g) : PagingReady t pg := by
  have hfp : f * pageSize / pageSize = f := Nat.mul_div_cancel _ (by decide)
  have hgp : g * pageSize / pageSize = g := Nat.mul_div_cancel _ (by decide)
  refine ⟨?_, ?_, ?_, ?_, ?_, ?_⟩
  · rw [hb.pmm]
    exact vgaPuts_accounted hacc
  · rw [hb.pmm]
    simp [hlow.2 0 hf]
  · rw [hb.pmm, hb.directory, hfp]
    simp
  · rw [hb.pmm, hb.table, hgp]
    simp
  · by_cases hin : f < 1024 ∧ g < 1024
    · exact Or.inl fun a ha => hb.identity hin.1 hin.2 ha
    · refine Or.inr fun page hpage => ?_
      rw [hb.pmm, vgaPuts_pageUsed, take_pageUsed]
      by_cases hfar : 1024 ≤ f
      · simp [hlow.2 page (by omega)]
      · rw [hglow.2 page (by omega), Bool.or_true]
  · intro a hlo hhi
    rw [Paging.directoryEntry, hb.directory]
    exact hb.absent hlo hhi

/-- A `paging_init` that succeeds has taken two pages, neither of them page 0. -/
theorem pagingInit_pages (hoff : pg.enabled = false) (hon : (pagingInit s pg).2.enabled = true) :
    ∃ f g, 0 < f ∧ 0 < g ∧ f ≠ g ∧
      (s.vgaPuts "[PAGING] Initializing...\n" 0x1A).Lowest f ∧
      ((s.vgaPuts "[PAGING] Initializing...\n" 0x1A).take f).Lowest g ∧
      pmmAllocPage (s.vgaPuts "[PAGING] Initializing...\n" 0x1A) =
        ((s.vgaPuts "[PAGING] Initializing...\n" 0x1A).take f, f * pageSize) ∧
      pmmAllocPage ((s.vgaPuts "[PAGING] Initializing...\n" 0x1A).take f) =
        (((s.vgaPuts "[PAGING] Initializing...\n" 0x1A).take f).take g, g * pageSize) ∧
      PagingBuilt (s.vgaPuts "[PAGING] Initializing...\n" 0x1A) (pagingInit s pg).1
        (pagingInit s pg).2 f g := by
  have hdir : (pmmAllocPage (s.vgaPuts "[PAGING] Initializing...\n" 0x1A)).2 ≠ 0 := by
    intro hz
    simp [pagingInit, hz, hoff] at hon
  obtain ⟨f, -, hf, hlow, -, halloc⟩ := pmmAllocPage_page hdir
  have hf0 : f * pageSize ≠ 0 := by simp only [pageSize]; omega
  have htab : (pmmAllocPage ((s.vgaPuts "[PAGING] Initializing...\n" 0x1A).take f)).2 ≠ 0 := by
    intro hz
    simp [pagingInit, halloc, hf0, mapDirectory, hz, Paging.fill, hoff] at hon
  obtain ⟨g, -, hg, hglow, -, hgalloc⟩ := pmmAllocPage_page htab
  have hg0 : g * pageSize ≠ 0 := by simp only [pageSize]; omega
  have hne : f ≠ g := by
    rintro rfl
    simpa using hglow.1
  have hne' : g * pageSize ≠ f * pageSize := by
    simp only [pageSize]
    omega
  exact ⟨f, g, hf, hg, hne, hlow, hglow, halloc, hgalloc,
    pagingInit_built halloc hgalloc hf0 hg0 hne'⟩

theorem pagingInit_ready (hs : s.Accounted) (hoff : pg.enabled = false)
    (hon : (pagingInit s pg).2.enabled = true) :
    PagingReady (pagingInit s pg).1 (pagingInit s pg).2 := by
  obtain ⟨f, g, hf, -, -, hlow, hglow, halloc, hgalloc, hbuilt⟩ := pagingInit_pages hoff hon
  have hs' : (s.vgaPuts "[PAGING] Initializing...\n" 0x1A).Accounted := vgaPuts_accounted hs
  have hacc := pmmAllocPage_accounted hs'
  rw [halloc] at hacc
  have hgacc := pmmAllocPage_accounted hacc
  rw [hgalloc] at hgacc
  exact hbuilt.ready hgacc hf hlow hglow

variable {h : Heap} {u : HeapRun} {ops : List HeapOp}

/-- The heap at boot: `heap_init`, then `paging_init` on the same PMM. -/
def bootHeap (h : Heap) (pg : Paging) : Heap :=
  { heapInit h with pmm := (pagingInit h.pmm pg).1 }

/-- The state before a call is one where the pages the call takes are consecutive and lie in the
first 4 MB, a fusion stays within its pages, and the size asked for does not wrap when it is
rounded up. -/
def OpMapped (h : Heap) (op : HeapOp) : Prop :=
  OpFits 1024 h op ∧ ∀ size, op = .kmalloc size → size + 3 + headerSize < 2 ^ 32

def MappedStep (s : HeapRun) (op : HeapOp) (t : HeapRun) : Prop :=
  HeapStep s op t ∧ OpMapped s.heap op

/-- The calls `Ok` admits in this state return memory that is mapped to itself. -/
structure HandsOutMapped (Ok : Heap → HeapOp → Prop) (pg : Paging) (s : HeapRun) : Prop where
  page : Ok s.heap .pmmAllocPage → (pmmAllocPage s.heap.pmm).2 ≠ 0 →
    pg.Identity (pmmAllocPage s.heap.pmm).2
  payload : ∀ fuel size h' p, Ok s.heap (.kmalloc size) →
    kmalloc fuel s.heap size = some (h', p) → p ≠ 0 → ∀ a, p ≤ a → a < p + size → pg.Identity a

/-- The pages of the directory and of the table stay in use and outside every live block. -/
structure TablesKept (pg : Paging) (s : HeapRun) : Prop where
  used : ∀ g ∈ ({pg.pageDirectory / pageSize, pg.pageTables 0 / pageSize} : Set Nat),
    s.heap.pmm.pageUsed g = true
  apart : ∀ g ∈ ({pg.pageDirectory / pageSize, pg.pageTables 0 / pageSize} : Set Nat),
    ∀ p ∈ s.live, ∀ a ∈ s.heap.bytes p, a / pageSize ≠ g

/-- A block size that does not wrap covers the payload. -/
theorem le_blockBytes {size : Nat} (hsize : size + 3 + headerSize < 2 ^ 32) :
    size + headerSize ≤ blockBytes size := by
  simp only [blockBytes, align4, add32, headerSize] at hsize ⊢
  omega

theorem HeapInv.payload_below {R : Set Nat} {live bs : List Nat} {p : Nat}
    (hi : HeapInv 1024 R h live bs) (hp : p ∈ live)
    (ha : a < p - headerSize + (h.block (p - headerSize)).size) : a < 1024 * pageSize := by
  obtain ⟨b, hb, rfl, -⟩ := hi.handed p hp
  rw [Nat.add_sub_cancel] at ha
  have hin := (hi.inside b hb).2
  have hal := hi.aligned b hb
  have hle : (h.block b).size ≤ h.span b * pageSize := le_spanOf_mul
  simp only [pageSize] at hin hal hle ⊢
  omega

/-- The pages in use after `paging_init` are reserved. Where they are all of the first 4 MB, no
call that stays there hands anything out. -/
theorem HeapInv.handsOutMapped {R : Set Nat} {bs : List Nat} (hready : PagingReady t pg)
    (hR : ∀ page, t.pageUsed page = true → page ∈ R)
    (hi : HeapInv 1024 R u.heap u.live bs) : HandsOutMapped OpMapped pg u where
  page := by
    intro hok hne
    rcases pmmAllocPage_cases hi.accounted with ⟨-, halloc⟩ | ⟨f, hf, hlow, -, halloc⟩
    · simp [halloc] at hne
    · have hlt := hok.1 f hf hlow
      rcases hready.identity with hall | hfull
      · rw [halloc]
        exact hall _ (by simp only [pageSize]; omega)
      · have hused := (hi.reserved f (hR f (hfull f hlt))).1
        rw [hlow.1] at hused
        simp at hused
  payload := by
    intro fuel size h' p hok hk hp a hlo hhi
    obtain ⟨bs', hinv, hsize⟩ := hi.kmalloc hok.1 hk
    rw [if_neg hp] at hinv
    have hblock := (le_blockBytes (hok.2 size rfl)).trans (hsize hp)
    obtain ⟨b, hb, hpb, -⟩ := hinv.handed p (by simp)
    rcases hready.identity with hall | hfull
    · refine hall a (hinv.payload_below (p := p) (by simp) ?_)
      omega
    · have hspan := hinv.inside b hb
      have hpos : 0 < h'.span b := spanOf_pos
      have hout := (hinv.reserved _ (hR _ (hfull (b / pageSize) (by omega)))).2 b hb
      omega

theorem HeapInv.tablesKept {R : Set Nat} {bs : List Nat} (hready : PagingReady t pg)
    (hR : ∀ page, t.pageUsed page = true → page ∈ R)
    (hi : HeapInv 1024 R u.heap u.live bs) : TablesKept pg u := by
  have hmem : ∀ g ∈ ({pg.pageDirectory / pageSize, pg.pageTables 0 / pageSize} : Set Nat),
      g ∈ R := by
    rintro g (rfl | rfl)
    · exact hR _ hready.directoryUsed
    · exact hR _ hready.tableUsed
  refine ⟨fun g hg => (hi.reserved g (hmem g hg)).1, ?_⟩
  rintro g hg p hp a ha rfl
  obtain ⟨b, hb, rfl, -⟩ := hi.handed p hp
  have hpage := hi.byte_page hb ha
  have hout := (hi.reserved _ (hmem _ hg)).2 b hb
  omega

/-- After a successful `paging_init`, in every state of a run whose calls stay within the first
4 MB, such a call returns mapped memory, and the tables it is mapped by are left alone. -/
theorem kernel_memory_mapped (hs : h.pmm.Accounted) (hoff : pg.enabled = false)
    (hon : (pagingInit h.pmm pg).2.enabled = true)
    (hr : Run MappedStep ⟨bootHeap h pg, []⟩ ops u) :
    HandsOutMapped OpMapped (pagingInit h.pmm pg).2 u ∧ TablesKept (pagingInit h.pmm pg).2 u := by
  have hready := pagingInit_ready hs hoff hon
  have hfit : Run (FittingStep 1024) ⟨bootHeap h pg, []⟩ ops u :=
    hr.mono fun _ _ _ hstep => ⟨hstep.1, hstep.2.1⟩
  obtain ⟨bs, hi⟩ := FittingStep.run_inv (h := { h with pmm := (pagingInit h.pmm pg).1 })
    (R := {page | (pagingInit h.pmm pg).1.pageUsed page = true}) hready.accounted hready.page0
    (fun _ hg => hg) hfit
  exact ⟨hi.handsOutMapped hready fun _ hp => hp, hi.tablesKept hready fun _ hp => hp⟩

/-- The statics of `paging.c` at boot. -/
def Paging.powerOn : Paging := ⟨0, fun _ => 0, fun _ _ => clearEntry, 0, false⟩

/-- On the small machine, where paging takes pages 1 and 2: two blocks and a page, then the first
block is given back and taken again. -/
def mappedOps : List HeapOp :=
  [.kmalloc 100, .pmmAllocPage, .kmalloc 5000, .kfree 12304, .kmalloc 60]

theorem kernel_memory_mapped_small : ∃ u : HeapRun, u.live = [12304, 20496] ∧
    Run MappedStep ⟨bootHeap smallHeap Paging.powerOn, []⟩ mappedOps u ∧
    HandsOutMapped OpMapped (pagingInit smallHeap.pmm Paging.powerOn).2 u ∧
    TablesKept (pagingInit smallHeap.pmm Paging.powerOn).2 u := by
  have hlive : ((⟨bootHeap smallHeap Paging.powerOn, []⟩ : HeapRun).execFitting 1024 4
      mappedOps).map HeapRun.live = some [12304, 20496] := by decide +kernel
  obtain ⟨u, hu, hl⟩ := Option.map_eq_some_iff.mp hlive
  have hready : PagingReady (pagingInit smallHeap.pmm Paging.powerOn).1
      (pagingInit smallHeap.pmm Paging.powerOn).2 :=
    pagingInit_ready smallHeap_accounted rfl (by decide)
  have hfit : Run (FittingStep 1024) ⟨bootHeap smallHeap Paging.powerOn, []⟩ mappedOps u :=
    execFitting_heapInit
      (h := { smallHeap with pmm := (pagingInit smallHeap.pmm Paging.powerOn).1 })
      hready.accounted hready.page0 hu
  have hsizes : ∀ op ∈ mappedOps, ∀ size, op = .kmalloc size → size + 3 + headerSize < 2 ^ 32 := by
    intro op hop size rfl
    simp only [mappedOps, List.mem_cons, HeapOp.kmalloc.injEq, List.not_mem_nil, or_false,
      reduceCtorEq, false_or] at hop
    simp only [headerSize]
    omega
  have hrun : Run MappedStep ⟨bootHeap smallHeap Paging.powerOn, []⟩ mappedOps u :=
    (hfit.labels hsizes).mono fun _ _ _ hs => ⟨hs.1.1, hs.1.2, hs.2⟩
  exact ⟨u, hl, hrun, kernel_memory_mapped smallHeap_accounted rfl (by decide) hrun⟩

/-- Pages handed out one after the other from a free run. -/
theorem allocs_took {f n : Nat} (hacc : h.pmm.Accounted) (hbelow : ∀ q < f, h.pmm.pageUsed q = true)
    (hclear : ∀ k < n, f + k < h.pmm.totalPages ∧ h.pmm.pageUsed (f + k) = false) :
    ∃ t : Pmm, Run HeapStep ⟨h, []⟩ (List.replicate n .pmmAllocPage) ⟨{ h with pmm := t }, []⟩ ∧
      TookRun h.pmm t f n := by
  induction n with
  | zero => exact ⟨h.pmm, .refl, .zero hacc⟩
  | succ n ih =>
    obtain ⟨t, hrun, htook⟩ := ih fun k hk => hclear k (by omega)
    obtain ⟨halloc, hstep⟩ := htook.step hbelow (hclear n (by omega)).1 (hclear n (by omega)).2
    refine ⟨t.take (f + n), ?_, hstep⟩
    rw [List.replicate_succ']
    have hlast : HeapStep ⟨{ h with pmm := t }, []⟩ .pmmAllocPage
        ⟨{ h with pmm := t.take (f + n) }, []⟩ := by
      have hs : HeapStep ⟨{ h with pmm := t }, []⟩ .pmmAllocPage
          ⟨{ h with pmm := (pmmAllocPage t).1 }, []⟩ := .pmmAllocPage
      rwa [halloc] at hs
    exact hrun.append (.single hlast)

/-- With two free pages in a row `paging_init` succeeds and takes them. -/
theorem pagingInit_took {f : Nat} (pg : Paging) (hs : s.Accounted) (hpos : 0 < f)
    (hbelow : ∀ q < f, s.pageUsed q = true)
    (hclear : ∀ k < 2, f + k < s.totalPages ∧ s.pageUsed (f + k) = false) :
    TookRun s (pagingInit s pg).1 f 2 ∧ (pagingInit s pg).2.enabled = true := by
  have hputs : ∀ {t : Pmm} {i : Nat} (text : String), TookRun s t f i →
      TookRun s (t.vgaPuts text 0x1A) f i := fun _ ht =>
    ⟨vgaPuts_accounted ht.accounted, ht.total, ht.pages, ht.free⟩
  have hzero := hputs "[PAGING] Initializing...\n" (TookRun.zero (f := f) hs)
  obtain ⟨halloc, hone⟩ := hzero.step hbelow (hclear 0 (by decide)).1 (hclear 0 (by decide)).2
  obtain ⟨halloc', htwo⟩ := hone.step hbelow (hclear 1 (by decide)).1 (hclear 1 (by decide)).2
  have hf0 : (f + 0) * pageSize ≠ 0 := by simp only [pageSize]; omega
  have hf1 : (f + (0 + 1)) * pageSize ≠ 0 := by simp only [pageSize]; omega
  simp only [pagingInit, halloc, hf0, if_false, mapDirectory, halloc', hf1]
  exact ⟨hputs _ htwo, trivial⟩

/-- On a machine of 8 MB with the first 2 MB protected, the page after 510 others is the first
one beyond 4 MB. -/
theorem allocs_leave_map (pg : Paging) (hacc : h.pmm.Accounted) (htotal : h.pmm.totalPages = 2048)
    (hused : ∀ k < 2048, h.pmm.pageUsed k = decide (k < 512)) :
    (pagingInit h.pmm pg).2.enabled = true ∧
      ∃ u, Run HeapStep ⟨bootHeap h pg, []⟩ (List.replicate 510 .pmmAllocPage) u ∧
        (pmmAllocPage u.heap.pmm).2 = 1024 * pageSize := by
  obtain ⟨htook, hon⟩ := pagingInit_took (f := 512) pg hacc (by decide)
    (fun q hq => by rw [hused q (by omega)]; simpa using hq)
    (fun k hk => ⟨by omega, by rw [hused _ (by omega)]; simp⟩)
  have hpages : ∀ k < 2048, (bootHeap h pg).pmm.pageUsed k = decide (k < 514) := by
    intro k hk
    refine (htook.pages k).trans ?_
    rw [hused k hk]
    by_cases hlt : k < 512 <;> by_cases hlt' : k < 514 <;> simp_all
    omega
  have htotal' : (bootHeap h pg).pmm.totalPages = 2048 := htook.total.trans htotal
  obtain ⟨t, hrun, hbig⟩ := allocs_took (h := bootHeap h pg) (f := 514) (n := 510)
    htook.accounted (fun q hq => by rw [hpages q (by omega)]; simpa using hq)
    (fun k hk => ⟨by omega, by rw [hpages _ (by omega)]; simp⟩)
  obtain ⟨halloc, -⟩ := hbig.step (fun q hq => by rw [hpages q (by omega)]; simpa using hq)
    (by omega) (by rw [hpages _ (by omega)]; simp)
  exact ⟨hon, _, hrun, by rw [halloc]⟩

/-- After 510 pages the allocator leaves the first 4 MB, and the page it returns is not mapped. -/
theorem kernel_memory_not_mapped :
    ¬ ∀ (h : Heap) (pg : Paging) (ops : List HeapOp) (u : HeapRun), h.pmm.Accounted →
      pg.enabled = false → (pagingInit h.pmm pg).2.enabled = true →
      Run HeapStep ⟨bootHeap h pg, []⟩ ops u →
      HandsOutMapped (fun _ _ => True) (pagingInit h.pmm pg).2 u := by
  intro hall
  have hsize : (pmmInit Pmm.powerOn (8 * 2 ^ 20)).totalPages = 2048 := by decide
  obtain ⟨hacc, htotal⟩ :=
    protectFirst2MB_accounted (pmmInit_accounted Pmm.powerOn (8 * 2 ^ 20)) (by omega)
  have hused : ∀ k < 2048,
      (protectFirst2MB (pmmInit Pmm.powerOn (8 * 2 ^ 20))).pageUsed k = decide (k < 512) := by
    intro k hk
    have hinit : (pmmInit Pmm.powerOn (8 * 2 ^ 20)).pageUsed k = false := by
      simp [pageUsed, Bitmap.bit, pmmInit, pageSize, show k / 32 < 64 by omega]
    rw [protectFirst2MB_pageUsed, hinit, Bool.or_false]
  generalize protectFirst2MB (pmmInit Pmm.powerOn (8 * 2 ^ 20)) = s at *
  obtain ⟨hon, u, hrun, hpage⟩ := allocs_leave_map
    (h := ⟨s, fun _ => ⟨0, false, 0, 0⟩, 0, 0, 0⟩) Paging.powerOn hacc (htotal.trans hsize) hused
  have hmapped := (hall _ Paging.powerOn _ u hacc rfl hon hrun).page trivial
  rw [hpage] at hmapped
  have hdir := (hmapped (by decide)).directory
  rw [(pagingInit_ready hacc rfl hon).unmapped _ le_rfl (by decide)] at hdir
  simp at hdir

end HumanOS

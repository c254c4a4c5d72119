import HumanOS.Lib.Stack
import HumanOS.Lib.Writes
import HumanOS.Paging.Mapped

/-!
# Paging as a partial map of pages

`page_map` and `page_unmap` write single entries of a table found through the directory. What
`page_get_physical` then reads is a partial map from page numbers to frames, as long as the pages
the calls themselves go through stay in their places: those of the directory and of the table,
that are reached at virtual addresses, and those of the code that makes the calls.
-/
namespace HumanOS

open Lib Pmm

/-- What a page is mapped to. -/
structure Mapping where
  frame : Nat
  rw : Bool
  user : Bool
deriving DecidableEq, Repr

/-- Page numbers to what they are mapped to. -/
abbrev PageMap := Nat → Option Mapping

/-- The calls that change the tables. -/
inductive PageOp where
  | map (virtualAddr physicalAddr flags : Word)
  | unmap (virtualAddr : Word)
deriving DecidableEq, Repr

namespace PageOp

def addr : PageOp → Nat
  | map virtualAddr _ _ => virtualAddr.toNat
  | unmap virtualAddr => virtualAddr.toNat

/-- The page a call is about. -/
def page (op : PageOp) : Nat := op.addr / pageSize

/-- What the call maps its page to. -/
def mapping : PageOp → Option Mapping
  | map _ physicalAddr flags =>
    if flags.toNat &&& pagePresent ≠ 0 then
      some ⟨physicalAddr.toNat / pageSize, flags.toNat &&& pageWrite ≠ 0,
        flags.toNat &&& pageUser ≠ 0⟩
    else none
  | unmap _ => none

end PageOp

/-- Every page mapped to itself. -/
def PageMap.identity : PageMap := fun page => some ⟨page, true, true⟩

/-- The map after a history of calls. -/
def PageMap.after (ops : List PageOp) : PageMap :=
  writeAll PageOp.page PageOp.mapping identity ops

/-- The address a map translates to; 0 for none. -/
def PageMap.translate (m : PageMap) (a : Nat) : Nat :=
  match m (a / pageSize) with
  | some e => e.frame * pageSize + a % pageSize
  | none => 0

/-- The page is seen at its own address. -/
def Paging.InPlace (pg : Paging) (page : Nat) : Prop :=
  pg.translate (page * pageSize) = some (page * pageSize)

instance (pg : Paging) (page : Nat) : Decidable (pg.InPlace page) :=
  inferInstanceAs (Decidable (_ = _))

/-- The function that is called. -/
def PageOp.exec (k : Pmm × Paging) : PageOp → Option (Pmm × Paging)
  | map virtualAddr physicalAddr flags =>
    pageMap k.1 k.2 virtualAddr.toNat physicalAddr.toNat flags.toNat
  | unmap virtualAddr => (pageUnmap k.2 virtualAddr.toNat).map fun pg => (k.1, pg)

/-- One call by code that needs the pages `own` in their places when it calls and when the call
returns: those of its text, its statics and its stack. -/
def pageCall (own : List Nat) (k : Pmm × Paging) (op : PageOp) : Option (Pmm × Paging) := do
  if ∀ page ∈ own, k.2.InPlace page then
    let t ← op.exec k
    if ∀ page ∈ own, t.2.InPlace page then return t else none
  else none

def pageRun (own : List Nat) (k : Pmm × Paging) (ops : List PageOp) : Option (Pmm × Paging) :=
  ops.foldlM (pageCall own) k

/-- The pages of the directory and of its one table. -/
def Paging.tablePages (pg : Paging) : List Nat :=
  [pg.pageDirectory / pageSize, pg.pageTables 0 / pageSize]

/-- A call that leaves the page in its place: it is about another one, or maps it to itself. -/
def PageOp.Keeps (op : PageOp) (page : Nat) : Prop :=
  op.page = page → ∃ rw user, op.mapping = some ⟨page, rw, user⟩

def consolePage : Nat := vgaBuffer / pageSize

/-- A call that prints: `page_map` where there is no table. -/
def PageOp.Prints (pg : Paging) : PageOp → Prop
  | map virtualAddr _ _ => (pg.directoryEntry virtualAddr.toNat).present = false
  | unmap _ => False

/-- A call that leaves the pages of the tables and `own` in their places, and prints only if the
page of the console is one of these. -/
structure PageOp.Allowed (pg : Paging) (own : List Nat) (op : PageOp) : Prop where
  keeps : ∀ page ∈ pg.tablePages ++ own, op.Keeps page
  console : op.Prints pg → consolePage ∈ own

/-- The table entry an address is translated by. -/
def Paging.tableEntry (pg : Paging) (a : Nat) : PageEntry :=
  pg.entries (pg.table a) (tableIndex a)

/-- What an entry maps its page to. -/
def PageEntry.mapping (e : PageEntry) : Option Mapping :=
  if e.present = false then none else some ⟨e.frame, e.rw, e.user⟩

variable {s : Pmm} {pg : Paging} {k t : Pmm × Paging} {op : PageOp} {ops : List PageOp}
variable {m : PageMap} {own kept : List Nat} {a f g page : Nat}

/-- A directory whose only table is another page, both in the first 4 MB, with paging on. -/
structure OneTable (pg : Paging) (f g : Nat) : Prop where
  directory : pg.pageDirectory = f * pageSize
  table : pg.pageTables 0 = g * pageSize
  cr3 : pg.cr3 = f * pageSize
  enabled : pg.enabled = true
  first : (pg.entries (f * pageSize) 0).present = true ∧
    (pg.entries (f * pageSize) 0).frame = g
  others : ∀ i < 1024, i ≠ 0 → (pg.entries (f * pageSize) i).present = false
  low : f < 1024 ∧ g < 1024
  apart : f ≠ g

/-- The tables hold the map, as far as the directory reaches. -/
structure Holds (pg : Paging) (m : PageMap) : Prop where
  entry : ∀ a < 2 ^ 32, (pg.directoryEntry a).present = true →
    (pg.tableEntry a).mapping = m (a / pageSize)

/-- The map leaves these pages in their places. -/
def PageMap.KeepsPages (m : PageMap) (kept : List Nat) : Prop :=
  ∀ page ∈ kept, ∃ rw user, m page = some ⟨page, rw, user⟩

theorem PagingBuilt.oneTable {t : Pmm} (h : PagingBuilt s t pg f g) (hne : f ≠ g)
    (hf : f < 1024) (hg : g < 1024) : OneTable pg f g := by
  refine ⟨h.directory, h.table, h.cr3, h.enabled, ?_, fun i hi hi0 => ?_, ⟨hf, hg⟩, hne⟩
  · rw [h.first]
    exact ⟨rfl, rfl⟩
  · rw [h.directoryEntry i hi, if_neg hi0]
    rfl

@[simp] theorem setEntry_pageDirectory {table i : Nat} {e : PageEntry} :
    (pg.setEntry table i e).pageDirectory = pg.pageDirectory := rfl

namespace OneTable

/-- Of the 32-bit addresses the directory covers the first 4 MB. -/
theorem present_iff (h : OneTable pg f g) (ha : a < 2 ^ 32) :
    (pg.directoryEntry a).present = true ↔ a < 1024 * pageSize := by
  have hdir : dirIndex a = 0 ↔ a < 1024 * pageSize := by
    simp only [dirIndex, pageSize]
    omega
  have hlt : dirIndex a < 1024 := by
    simp only [dirIndex]
    omega
  rw [← hdir, Paging.directoryEntry, h.directory]
  by_cases hz : dirIndex a = 0
  · simp [hz, h.first.1]
  · simp [hz, h.others _ hlt hz]

theorem table_eq (h : OneTable pg f g) (ha : a < 1024 * pageSize) : pg.table a = g * pageSize := by
  rw [Paging.table, Paging.directoryEntry, h.directory, dirIndex_eq ha, h.first.2]
  rfl

theorem page_ne (h : OneTable pg f g) : f * pageSize ≠ g * pageSize := by
  have hapart := h.apart
  simp only [pageSize]
  omega

/-- Writing to the table leaves the directory alone. -/
theorem setEntry {i : Nat} {e : PageEntry} (h : OneTable pg f g) :
    OneTable (pg.setEntry (g * pageSize) i e) f g := by
  have hsame : (pg.setEntry (g * pageSize) i e).entries (f * pageSize) =
      pg.entries (f * pageSize) := by simp [Paging.setEntry, h.page_ne]
  exact ⟨h.directory, h.table, h.cr3, h.enabled, by rw [hsame]; exact h.first,
    by rw [hsame]; exact h.others, h.low, h.apart⟩

/-- The processor goes through the same entries as the calls. -/
theorem translate_eq (h : OneTable pg f g) (ha : a < 1024 * pageSize) :
    pg.translate a = (pg.tableEntry a).mapping.map fun e => e.frame * pageSize + a % pageSize := by
  have hframe : (pg.entries (f * pageSize) 0).frame * 2 ^ 12 = g * pageSize := by
    rw [h.first.2]
    rfl
  rw [Paging.tableEntry, h.table_eq ha]
  by_cases he : (pg.entries (g * pageSize) (tableIndex a)).present = false
  · simp [-Nat.reducePow, Paging.translate, PageEntry.mapping, h.enabled, h.cr3, dirIndex_eq ha,
      h.first.1, hframe, he]
  · simp [-Nat.reducePow, Paging.translate, PageEntry.mapping, h.enabled, h.cr3, dirIndex_eq ha,
      h.first.1, hframe, he]
    rfl

/-- A page of the first 4 MB that the map leaves in its place is seen there. -/
theorem inPlace (h : OneTable pg f g) (hm : Holds pg m) (hkeeps : m.KeepsPages kept)
    (hpage : page ∈ kept) (hlow : page < 1024) : pg.InPlace page := by
  have ha : page * pageSize < 1024 * pageSize := by
    simp only [pageSize]
    omega
  have hlt : page * pageSize < 2 ^ 32 := by
    simp only [pageSize]
    omega
  obtain ⟨rw', user, hsame⟩ := hkeeps page hpage
  have hentry := hm.entry _ hlt ((h.present_iff hlt).mpr ha)
  rw [Nat.mul_div_cancel page (by decide), hsame] at hentry
  rw [Paging.InPlace, h.translate_eq ha, hentry]
  simp

end OneTable

theorem Paging.InPlace.loadEntry {i : Nat} (h : pg.InPlace page) :
    pg.loadEntry (page * pageSize) i = some (pg.entries (page * pageSize) i) := by
  rw [Paging.loadEntry, h, Option.map_some]

theorem Paging.InPlace.storeEntry {i : Nat} {e : PageEntry} (h : pg.InPlace page) :
    pg.storeEntry (page * pageSize) i e = some (pg.setEntry (page * pageSize) i e) := by
  rw [Paging.storeEntry, h, Option.map_some]

section Calls

theorem addr_lt (op : PageOp) : op.addr < 2 ^ 32 := by
  cases op with
  | map virtualAddr physicalAddr flags => exact virtualAddr.isLt
  | unmap virtualAddr => exact virtualAddr.isLt

/-- The directory entry is read where it stands. -/
theorem OneTable.loadDirectory (h : OneTable pg f g) (hf : pg.InPlace f) :
    pg.loadEntry pg.pageDirectory (dirIndex a) = some (pg.directoryEntry a) := by
  rw [Paging.directoryEntry, h.directory]
  exact hf.loadEntry

/-- A directory entry that is present leads to the table. -/
theorem OneTable.frame_eq (h : OneTable pg f g) (ha : a < 2 ^ 32)
    (hp : (pg.directoryEntry a).present = true) :
    (pg.directoryEntry a).frame * 2 ^ 12 = g * pageSize := h.table_eq ((h.present_iff ha).mp hp)

theorem OneTable.tablePages (h : OneTable pg f g) : pg.tablePages = [f, g] := by
  rw [Paging.tablePages, h.directory, h.table, Nat.mul_div_cancel f (by decide),
    Nat.mul_div_cancel g (by decide)]

/-- What is allowed depends on the places of the tables only. -/
theorem OneTable.allowed {pg' : Paging} (h : OneTable pg f g) (h' : OneTable pg' f g)
    (hok : op.Allowed pg own) : op.Allowed pg' own := by
  refine ⟨?_, fun hprints => hok.console ?_⟩
  · rw [h'.tablePages, ← h.tablePages]
    exact hok.keeps
  · cases op with
    | map virtualAddr physicalAddr flags =>
      have habsent : (pg'.directoryEntry virtualAddr.toNat).present = false := hprints
      refine Bool.eq_false_iff.mpr fun hp => ?_
      have hlow := (h.present_iff virtualAddr.isLt).mp hp
      rw [(h'.present_iff virtualAddr.isLt).mpr hlow] at habsent
      simp at habsent
    | unmap virtualAddr => exact hprints

/-- What a call can do while the pages it goes through are in their places: nothing where the
directory has no table, else write one entry. -/
theorem exec_cases (ht : OneTable k.2 f g) (hf : k.2.InPlace f) (hg : k.2.InPlace g)
    (hconsole : op.Prints k.2 → k.2.InPlace consolePage) :
    ∃ t, op.exec k = some t ∧
      (((k.2.directoryEntry op.addr).present = false ∧ t.2 = k.2) ∨
        ((k.2.directoryEntry op.addr).present = true ∧ ∃ e : PageEntry, e.mapping = op.mapping ∧
          t.2 = k.2.setEntry (g * pageSize) (tableIndex op.addr) e)) := by
  cases op with
  | map virtualAddr physicalAddr flags =>
    have hload := ht.loadDirectory (a := virtualAddr.toNat) hf
    cases hp : (k.2.directoryEntry virtualAddr.toNat).present with
    | false => exact ⟨_, pageMap_absent hload hp (hconsole hp), Or.inl ⟨hp, rfl⟩⟩
    | true =>
      have hframe := ht.frame_eq virtualAddr.isLt hp
      refine ⟨_, pageMap_present hload hp (by rw [hframe]; exact hg.storeEntry),
        Or.inr ⟨hp, _, ?_, rfl⟩⟩
      by_cases hflag : flags.toNat &&& pagePresent = 0
      · simp [PageEntry.mapping, PageOp.mapping, hflag]
      · simp [PageEntry.mapping, PageOp.mapping, hflag, pageSize]
  | unmap virtualAddr =>
    have hload := ht.loadDirectory (a := virtualAddr.toNat) hf
    cases hp : (k.2.directoryEntry virtualAddr.toNat).present with
    | false =>
      exact ⟨_, congrArg (Option.map _) (pageUnmap_absent hload hp), Or.inl ⟨hp, rfl⟩⟩
    | true =>
      have hframe := ht.frame_eq virtualAddr.isLt hp
      refine ⟨_, congrArg (Option.map _) (pageUnmap_present hload hp
        (by rw [hframe]; exact hg.loadEntry) (by rw [hframe]; exact hg.storeEntry)),
        Or.inr ⟨hp, _, ?_, rfl⟩⟩
      simp [PageEntry.mapping, PageOp.mapping]

/-- The tables hold the map, and the pages the calls go through are in their places. -/
structure Refined (own : List Nat) (f g : Nat) (pg : Paging) (m : PageMap) : Prop where
  table : OneTable pg f g
  holds : Holds pg m
  kept : m.KeepsPages (f :: g :: own)
  low : ∀ page ∈ own, page < 1024

namespace Refined

theorem inPlace (h : Refined own f g pg m) (hpage : page ∈ f :: g :: own) : pg.InPlace page := by
  refine h.table.inPlace h.holds h.kept hpage ?_
  rcases List.mem_cons.mp hpage with rfl | hrest
  · exact h.table.low.1
  · rcases List.mem_cons.mp hrest with rfl | hown
    · exact h.table.low.2
    · exact h.low page hown

/-- What one call does: it keeps the directory, writes the entry of its page only, and does
nothing where the directory has no table. -/
theorem exec_cases (h : Refined own f g k.2 m) (hok : op.Allowed k.2 own) :
    ∃ t, op.exec k = some t ∧ OneTable t.2 f g ∧
      (∀ a, t.2.directoryEntry a = k.2.directoryEntry a) ∧
      (∀ a < 1024 * pageSize, a / pageSize ≠ op.page → t.2.tableEntry a = k.2.tableEntry a) ∧
      ((k.2.directoryEntry op.addr).present = true →
        (t.2.tableEntry op.addr).mapping = op.mapping) ∧
      ((k.2.directoryEntry op.addr).present = false → t.2 = k.2) := by
  have ht := h.table
  obtain ⟨t, hexec, ⟨hp, heq⟩ | ⟨hp, e, hmap, heq⟩⟩ :=
    HumanOS.exec_cases ht (h.inPlace (by simp)) (h.inPlace (by simp)) fun hprints =>
      h.inPlace (by simp [hok.console hprints])
  · refine ⟨t, hexec, ?_⟩
    rw [heq]
    exact ⟨ht, fun _ => rfl, fun _ _ _ => rfl, fun hpresent => by simp [hp] at hpresent,
      fun _ => rfl⟩
  · have hlow := (ht.present_iff (addr_lt op)).mp hp
    have hset : OneTable (k.2.setEntry (g * pageSize) (tableIndex op.addr) e) f g := ht.setEntry
    refine ⟨t, hexec, ?_⟩
    rw [heq]
    refine ⟨hset, fun a => ?_, fun a ha hne => ?_, fun _ => ?_, fun hpresent => by
      simp [hp] at hpresent⟩
    · rw [Paging.directoryEntry, Paging.directoryEntry, setEntry_pageDirectory, ht.directory]
      simp [Paging.setEntry, ht.page_ne]
    · have hidx : tableIndex a ≠ tableIndex op.addr := by
        rw [tableIndex_eq ha, tableIndex_eq hlow]
        exact hne
      rw [Paging.tableEntry, Paging.tableEntry, hset.table_eq ha, ht.table_eq ha]
      simp [Paging.setEntry, hidx]
    · rw [Paging.tableEntry, hset.table_eq hlow, ← hmap]
      simp [Paging.setEntry]

/-- One call is one write to the map. -/
theorem exec (h : Refined own f g k.2 m) (hok : op.Allowed k.2 own) (hexec : op.exec k = some t) :
    Refined own f g t.2 (Function.update m op.page op.mapping) := by
  obtain ⟨t', hexec', ht, hdir, hother, hwritten, -⟩ := h.exec_cases hok
  obtain rfl : t = t' := Option.some.inj (hexec.symm.trans hexec')
  refine ⟨ht, ⟨fun a ha hp => ?_⟩, fun page hpage => ?_, h.low⟩
  · rw [hdir] at hp
    have hlow := (h.table.present_iff ha).mp hp
    by_cases hsame : a / pageSize = op.page
    · have hlow' : op.addr < 1024 * pageSize := by
        simp only [PageOp.page, pageSize] at hsame hlow ⊢
        omega
      have hidx : tableIndex a = tableIndex op.addr := by
        rw [tableIndex_eq hlow, tableIndex_eq hlow', hsame, PageOp.page]
      rw [hsame, Function.update_self, ← hwritten ((h.table.present_iff (addr_lt op)).mpr hlow'),
        Paging.tableEntry, Paging.tableEntry, ht.table_eq hlow, ht.table_eq hlow', hidx]
    · rw [Function.update_of_ne hsame, hother a hlow hsame]
      exact h.holds.entry a ha hp
  · by_cases hsame : page = op.page
    · have hmem : page ∈ k.2.tablePages ++ own := by
        rw [h.table.tablePages]
        exact hpage
      obtain ⟨rw', user, hmap⟩ := hok.keeps page hmem hsame.symm
      exact ⟨rw', user, by rw [hsame, Function.update_self, hmap, hsame]⟩
    · rw [Function.update_of_ne hsame]
      exact h.kept page hpage

/-- The call returns, to code that is still in its place. -/
theorem call_cases (h : Refined own f g k.2 m) (hok : op.Allowed k.2 own) :
    ∃ t, pageCall own k op = some t ∧
      Refined own f g t.2 (Function.update m op.page op.mapping) ∧
      (∀ a, t.2.directoryEntry a = k.2.directoryEntry a) ∧
      (∀ a < 1024 * pageSize, a / pageSize ≠ op.page → t.2.tableEntry a = k.2.tableEntry a) ∧
      ((k.2.directoryEntry op.addr).present = false → t.2 = k.2) := by
  obtain ⟨t, hexec, -, hdir, hother, -, hnothing⟩ := h.exec_cases hok
  have ht := h.exec hok hexec
  have hbefore : ∀ page ∈ own, k.2.InPlace page := fun page hpage => h.inPlace (by simp [hpage])
  have hafter : ∀ page ∈ own, t.2.InPlace page := fun page hpage => ht.inPlace (by simp [hpage])
  refine ⟨t, ?_, ht, hdir, hother, hnothing⟩
  rw [pageCall, if_pos hbefore, hexec, Option.bind_eq_bind, Option.bind_some, if_pos hafter]
  rfl

theorem pageRun_concat (own : List Nat) (k : Pmm × Paging) (ops : List PageOp) (op : PageOp) :
    pageRun own k (ops ++ [op]) = (pageRun own k ops).bind fun t => pageCall own t op := by
  rw [pageRun, List.foldlM_append]
  simp only [List.foldlM_cons, List.foldlM_nil, bind_pure]
  rfl

/-- A whole history of calls returns, and is the history of writes to the map. -/
theorem run (h : Refined own f g k.2 PageMap.identity) (hok : ∀ op ∈ ops, op.Allowed k.2 own) :
    ∃ t, pageRun own k ops = some t ∧ Refined own f g t.2 (PageMap.after ops) := by
  induction ops using List.reverseRecOn with
  | nil => exact ⟨k, rfl, h⟩
  | append_singleton ops op ih =>
    obtain ⟨t, hrun, ht⟩ := ih fun o ho => hok o (by simp [ho])
    obtain ⟨u, hcall, hu, -⟩ := ht.call_cases (h.table.allowed ht.table (hok op (by simp)))
    refine ⟨u, by rw [pageRun_concat, hrun, Option.bind_some, hcall], ?_⟩
    rw [PageMap.after, writeAll_concat]
    exact hu

/-- The address read is the one the map translates to. -/
theorem translate (h : Refined own f g pg m) (ha : a < 2 ^ 32)
    (hp : (pg.directoryEntry a).present = true) :
    pageGetPhysical pg a = some (m.translate a) := by
  have hentry := h.holds.entry a ha hp
  have hload := h.table.loadDirectory (a := a) (h.inPlace (by simp))
  have hpage : pg.loadEntry ((pg.directoryEntry a).frame * 2 ^ 12) (tableIndex a) =
      some (pg.tableEntry a) := by
    rw [h.table.frame_eq ha hp, Paging.tableEntry,
      h.table.table_eq ((h.table.present_iff ha).mp hp)]
    exact (h.inPlace (by simp)).loadEntry
  rw [pageGetPhysical_present hload hp hpage, PageMap.translate, ← hentry, PageEntry.mapping]
  by_cases he : (pg.tableEntry a).present = false
  · simp [he]
  · simp [he, pageSize]

end Refined

end Calls

section Boot

/-- What `page_get_physical` has to return after a history: the frame of the last `page_map` of
the page with `PAGE_PRESENT`, 0 after any other call on it, and the address itself before. -/
def expectedPhysical (ops : List PageOp) (w : Word) : Nat :=
  match lastAt PageOp.page ops (w.toNat / pageSize) with
  | some (.map _ physicalAddr flags) =>
    if flags.toNat &&& pagePresent ≠ 0 then
      physicalAddr.toNat / pageSize * pageSize + w.toNat % pageSize
    else 0
  | some (.unmap _) => 0
  | none => w.toNat

theorem translate_after {w : Word} :
    (PageMap.after ops).translate w.toNat = expectedPhysical ops w := by
  rw [PageMap.translate, PageMap.after, writeAll_apply, expectedPhysical]
  cases lastAt PageOp.page ops (w.toNat / pageSize) with
  | none =>
    simp only [Option.map_none, Option.getD_none, PageMap.identity]
    exact Nat.div_add_mod' _ _
  | some op =>
    cases op with
    | map virtualAddr physicalAddr flags =>
      by_cases hflag : flags.toNat &&& pagePresent = 0
      · simp [PageOp.mapping, hflag]
      · simp [PageOp.mapping, hflag]
    | unmap virtualAddr => rfl

/-- The tables behave as a partial map of pages from this state on, over the calls that are `Ok`. -/
structure RefinesPageMap (Ok : PageOp → Prop) (own : List Nat) (k : Pmm × Paging) : Prop where
  /-- No call faults. -/
  returns : ∀ ops, (∀ op ∈ ops, Ok op) → (pageRun own k ops).isSome
  /-- Reading an address the directory covers. -/
  physical : ∀ ops t (w : Word), (∀ op ∈ ops, Ok op) → pageRun own k ops = some t →
    (t.2.directoryEntry w.toNat).present = true →
    pageGetPhysical t.2 w.toNat = some (expectedPhysical ops w)
  /-- A call leaves the other pages alone. -/
  frame : ∀ ops op t u (w : Word), (∀ o ∈ ops, Ok o) → Ok op → pageRun own k ops = some t →
    pageCall own t op = some u → w.toNat / pageSize ≠ op.page →
    pageGetPhysical u.2 w.toNat = pageGetPhysical t.2 w.toNat ∧
    ((t.2.directoryEntry w.toNat).present = true →
      (u.2.tableEntry w.toNat).rw = (t.2.tableEntry w.toNat).rw ∧
      (u.2.tableEntry w.toNat).user = (t.2.tableEntry w.toNat).user)
  /-- A call on an address the directory does not cover changes nothing. -/
  absent : ∀ ops op t u, (∀ o ∈ ops, Ok o) → Ok op → pageRun own k ops = some t →
    pageCall own t op = some u → (t.2.directoryEntry op.addr).present = false → u.2 = t.2
  /-- The tables hold the map that the history of calls makes of the identity. -/
  refines : ∀ ops t, (∀ op ∈ ops, Ok op) → pageRun own k ops = some t →
    Holds t.2 (PageMap.after ops)

theorem PagingBuilt.refined {t : Pmm} (h : PagingBuilt s t pg f g) (hne : f ≠ g) (hf : f < 1024)
    (hg : g < 1024) (hown : ∀ page ∈ own, page < 1024) : Refined own f g pg PageMap.identity := by
  have ht := h.oneTable hne hf hg
  refine ⟨ht, ⟨fun a ha hp => ?_⟩, fun page _ => ⟨true, true, rfl⟩, hown⟩
  have hlow := (ht.present_iff ha).mp hp
  rw [Paging.tableEntry, ht.table_eq hlow]
  exact congrArg PageEntry.mapping (h.page hlow)

/-- A page that is read at the same entries is read the same. -/
theorem Refined.physical_congr {pg' : Paging} {m' : PageMap} (h : Refined own f g pg m)
    (h' : Refined own f g pg' m') (hdir : pg'.directoryEntry a = pg.directoryEntry a)
    (ha : a < 2 ^ 32) (hpage : m' (a / pageSize) = m (a / pageSize)) :
    pageGetPhysical pg' a = pageGetPhysical pg a := by
  cases hp : (pg.directoryEntry a).present with
  | false =>
    have hload := h.table.loadDirectory (a := a) (h.inPlace (by simp))
    have hload' := h'.table.loadDirectory (a := a) (h'.inPlace (by simp))
    rw [pageGetPhysical_absent hload hp, pageGetPhysical_absent hload' (by rw [hdir, hp])]
  | true =>
    rw [h.translate ha hp, h'.translate ha (by rw [hdir, hp]), PageMap.translate, hpage,
      PageMap.translate]

/-- After a successful `paging_init` that finds its pages in the first 4 MB, the tables behave as a
partial map of pages, that starts as the identity, as long as no call moves the page of the
directory or of the table, one that the code needs, or that of the console if anything is to be
printed. -/
theorem paging_refines_map (hoff : pg.enabled = false)
    (hon : (pagingInit s pg).2.enabled = true)
    (hlow : ∀ page ∈ (pagingInit s pg).2.tablePages ++ own, page < 1024) :
    RefinesPageMap (PageOp.Allowed (pagingInit s pg).2 own) own (pagingInit s pg) := by
  obtain ⟨f, g, -, -, hne, -, -, -, -, hbuilt⟩ := pagingInit_pages hoff hon
  have hstart : Refined own f g (pagingInit s pg).2 PageMap.identity := by
    have hpages : (pagingInit s pg).2.tablePages = [f, g] := by
      rw [Paging.tablePages, hbuilt.directory, hbuilt.table, Nat.mul_div_cancel f (by decide),
        Nat.mul_div_cancel g (by decide)]
    rw [hpages] at hlow
    exact hbuilt.refined hne (hlow f (by simp)) (hlow g (by simp)) fun page hpage =>
      hlow page (by simp [hpage])
  have hrun : ∀ ops t, (∀ op ∈ ops, op.Allowed (pagingInit s pg).2 own) →
      pageRun own (pagingInit s pg) ops = some t → Refined own f g t.2 (PageMap.after ops) := by
    intro ops t hok ht
    obtain ⟨t', ht', hinv⟩ := hstart.run hok
    rwa [Option.some.inj (ht.symm.trans ht')]
  have hcall : ∀ {ops op t u}, (∀ o ∈ ops, o.Allowed (pagingInit s pg).2 own) →
      op.Allowed (pagingInit s pg).2 own → pageRun own (pagingInit s pg) ops = some t →
      pageCall own t op = some u → ∃ m', Refined own f g u.2 m' ∧
        (∀ page ≠ op.page, m' page = PageMap.after ops page) ∧
        (∀ a, u.2.directoryEntry a = t.2.directoryEntry a) ∧
        (∀ a < 1024 * pageSize, a / pageSize ≠ op.page → u.2.tableEntry a = t.2.tableEntry a) ∧
        ((t.2.directoryEntry op.addr).present = false → u.2 = t.2) := by
    intro ops op t u hok hop ht hu
    have hinv := hrun ops t hok ht
    obtain ⟨u', hu', hnext, hsame⟩ := hinv.call_cases (hstart.table.allowed hinv.table hop)
    obtain rfl : u = u' := Option.some.inj (hu.symm.trans hu')
    exact ⟨_, hnext, fun page hpage => Function.update_of_ne hpage _ _, hsame⟩
  refine ⟨fun ops hok => ?_, fun ops t w hok ht hp => ?_,
    fun ops op t u w hok hop ht hu hpage => ?_, fun ops op t u hok hop ht hu habsent => ?_,
    fun ops t hok ht => (hrun ops t hok ht).holds⟩
  · obtain ⟨t, ht, -⟩ := hstart.run hok
    rw [ht, Option.isSome_some]
  · rw [(hrun ops t hok ht).translate w.isLt hp, translate_after]
  · have hinv := hrun ops t hok ht
    obtain ⟨m', hnext, hmap, hdir, hother, -⟩ := hcall hok hop ht hu
    refine ⟨hinv.physical_congr hnext (hdir _) w.isLt (hmap _ hpage), fun hp => ?_⟩
    rw [hother _ ((hinv.table.present_iff w.isLt).mp hp) hpage]
    exact ⟨rfl, rfl⟩
  · obtain ⟨m', -, -, -, -, hnothing⟩ := hcall hok hop ht hu
    exact hnothing habsent

/-- A page of the kernel's text, and the one of the console. -/
def ownPages : List Nat := [0x100, consolePage]

/-- On the small machine, where paging takes pages 1 and 2: a page mapped elsewhere with an
unaligned target, the table's own page mapped to itself once more, a page unmapped, and a call
where there is no table. -/
def smallCalls : List PageOp :=
  [.map 0x5123 0x9ABC 3, .map 0x2FFF 0x2000 1, .unmap 0x6FFF, .map 0x400000 0x9000 3]

theorem paging_refines_map_small : ∃ t,
    pageRun ownPages (pagingInit smallHeap.pmm Paging.powerOn) smallCalls = some t ∧
    pageGetPhysical t.2 0x5004 = some 0x9004 ∧ pageGetPhysical t.2 0x6004 = some 0 ∧
    pageGetPhysical t.2 0x7004 = some 0x7004 := by
  have href : RefinesPageMap (PageOp.Allowed (pagingInit smallHeap.pmm Paging.powerOn).2 ownPages)
      ownPages (pagingInit smallHeap.pmm Paging.powerOn) :=
    paging_refines_map rfl (by decide) (by decide)
  have hok : ∀ op ∈ smallCalls,
      op.Allowed (pagingInit smallHeap.pmm Paging.powerOn).2 ownPages := by
    have hmoved : ∀ op ∈ smallCalls,
        ∀ page ∈ (pagingInit smallHeap.pmm Paging.powerOn).2.tablePages ++ ownPages,
          op.page = page → page = 2 ∧ op.mapping = some ⟨2, false, false⟩ := by decide
    refine fun op hop => ⟨fun page hpage hsame => ?_, fun _ => by simp [ownPages]⟩
    obtain ⟨rfl, hmap⟩ := hmoved op hop page hpage hsame
    exact ⟨false, false, hmap⟩
  have hread : (pageRun ownPages (pagingInit smallHeap.pmm Paging.powerOn) smallCalls).map
      (fun t => ((t.2.directoryEntry 0x5004).present, (t.2.directoryEntry 0x6004).present,
        (t.2.directoryEntry 0x7004).present)) = some (true, true, true) := by decide
  obtain ⟨t, ht, hpresent⟩ := Option.map_eq_some_iff.mp hread
  simp only [Prod.mk.injEq] at hpresent
  obtain ⟨hmapped, hunmapped, hother⟩ := hpresent
  exact ⟨t, ht, href.physical _ t 0x5004 hok ht hmapped, href.physical _ t 0x6004 hok ht hunmapped,
    href.physical _ t 0x7004 hok ht hother⟩

/-- A machine of 8 MB whose first 4 MB are in use. -/
def upperPmm : Pmm :=
  ⟨fun w => if w < 32 then BitVec.allOnes 32 else 0#32, 2048, 1024, 1024, 64, []⟩

/-- None of it can be left out. With the page of the table mapped elsewhere, another page is read
as the table; with a page of the code unmapped, with the console's unmapped when something is
printed, or with a directory beyond 4 MB, a call does not return. -/
theorem paging_moves_its_own_pages :
    (¬ ∀ (own : List Nat) (s : Pmm) (pg : Paging) (ops : List PageOp) (t : Pmm × Paging)
      (w : Word), pg.enabled = false → (pagingInit s pg).2.enabled = true →
      (∀ page ∈ (pagingInit s pg).2.tablePages ++ own, page < 1024) →
      (∀ op ∈ ops, ∀ page ∈ consolePage :: own, op.Keeps page) →
      pageRun own (pagingInit s pg) ops = some t →
      (t.2.directoryEntry w.toNat).present = true →
      pageGetPhysical t.2 w.toNat = some (expectedPhysical ops w)) ∧
    (¬ ∀ (own : List Nat) (s : Pmm) (pg : Paging) (ops : List PageOp), pg.enabled = false →
      (pagingInit s pg).2.enabled = true →
      (∀ page ∈ (pagingInit s pg).2.tablePages ++ own, page < 1024) →
      (∀ op ∈ ops, ∀ page ∈ consolePage :: (pagingInit s pg).2.tablePages, op.Keeps page) →
      (pageRun own (pagingInit s pg) ops).isSome) ∧
    (¬ ∀ (own : List Nat) (s : Pmm) (pg : Paging) (ops : List PageOp), pg.enabled = false →
      (pagingInit s pg).2.enabled = true →
      (∀ page ∈ (pagingInit s pg).2.tablePages ++ own, page < 1024) →
      (∀ op ∈ ops, ∀ page ∈ (pagingInit s pg).2.tablePages ++ own, op.Keeps page) →
      (pageRun own (pagingInit s pg) ops).isSome) ∧
    ¬ ∀ (own : List Nat) (s : Pmm) (pg : Paging) (ops : List PageOp), pg.enabled = false →
      (pagingInit s pg).2.enabled = true → (∀ page ∈ own, page < 1024) →
      (∀ op ∈ ops, op.Allowed (pagingInit s pg).2 own) →
      (pageRun own (pagingInit s pg) ops).isSome := by
  refine ⟨fun hall => ?_, fun hall => ?_, fun hall => ?_, fun hall => ?_⟩
  · have hother : ∀ op ∈ [PageOp.map 0x2000 0x9000 3], ∀ page ∈ consolePage :: ownPages,
        op.page ≠ page := by decide
    have hread : (pageRun ownPages (pagingInit smallHeap.pmm Paging.powerOn)
        [.map 0x2000 0x9000 3]).map (fun t =>
          ((t.2.directoryEntry 0x5004).present, pageGetPhysical t.2 0x5004)) =
        some (true, some 0) := by decide
    obtain ⟨t, ht, hvals⟩ := Option.map_eq_some_iff.mp hread
    obtain ⟨hpresent, hzero⟩ := Prod.mk.inj hvals
    have hphysical := hall ownPages smallHeap.pmm Paging.powerOn _ t 0x5004 rfl (by decide)
      (by decide) (fun op hop page hpage heq => absurd heq (hother op hop page hpage)) ht hpresent
    have hexpected : expectedPhysical [.map 0x2000 0x9000 3] 0x5004 = 0x5004 := by decide
    rw [hexpected] at hphysical
    exact absurd (hzero.symm.trans hphysical) (by decide)
  · have hother : ∀ op ∈ [PageOp.unmap 0x100000],
        ∀ page ∈ consolePage :: (pagingInit smallHeap.pmm Paging.powerOn).2.tablePages,
          op.page ≠ page := by decide
    have hsome := hall ownPages smallHeap.pmm Paging.powerOn _ rfl (by decide) (by decide)
      fun op hop page hpage heq => absurd heq (hother op hop page hpage)
    have hfault : (pageRun ownPages (pagingInit smallHeap.pmm Paging.powerOn)
        [.unmap 0x100000]).isSome = false := by decide
    rw [hsome] at hfault
    simp at hfault
  · have hother : ∀ op ∈ [PageOp.unmap 0xB8000, .map 0x400000 0x9000 3],
        ∀ page ∈ (pagingInit smallHeap.pmm Paging.powerOn).2.tablePages ++ [0x100],
          op.page ≠ page := by decide
    have hsome := hall [0x100] smallHeap.pmm Paging.powerOn _ rfl (by decide) (by decide)
      fun op hop page hpage heq => absurd heq (hother op hop page hpage)
    have hfault : (pageRun [0x100] (pagingInit smallHeap.pmm Paging.powerOn)
        [.unmap 0xB8000, .map 0x400000 0x9000 3]).isSome = false := by decide
    rw [hsome] at hfault
    simp at hfault
  · have hother : ∀ op ∈ [PageOp.unmap 0x5000],
        ∀ page ∈ (pagingInit upperPmm Paging.powerOn).2.tablePages ++ [],
          op.page ≠ page := by decide +kernel
    have hok : ∀ op ∈ [PageOp.unmap 0x5000],
        op.Allowed (pagingInit upperPmm Paging.powerOn).2 [] := by
      refine fun op hop => ⟨fun page hpage heq => absurd heq (hother op hop page hpage), ?_⟩
      obtain rfl := List.mem_singleton.mp hop
      exact False.elim
    have hsome := hall [] upperPmm Paging.powerOn _ rfl (by decide +kernel) (by simp) hok
    have hfault : (pageRun [] (pagingInit upperPmm Paging.powerOn) [.unmap 0x5000]).isSome =
        false := by decide +kernel
    rw [hsome] at hfault
    simp at hfault

end Boot

end HumanOS

import HumanOS.Pmm.Model

/-!
# Paging

The page directory and tables of `kernel/paging.c`. Directory and tables are pages of 1024
entries, found by their physical address; of an entry the model keeps the bits that some function
of the source sets to anything but zero. Addresses are 32-bit naturals. Once paging is on, the
directory and the tables are read and written at virtual addresses.
-/
namespace HumanOS

open Lib

def pageTableEntries : Nat := 1024

def pagePresent : Nat := 0x001

def pageWrite : Nat := 0x002

def pageUser : Nat := 0x004

/-- `page_entry_t`. -/
structure PageEntry where
  present : Bool
  rw : Bool
  user : Bool
  frame : Nat
deriving DecidableEq, Repr

/-- The statics of `paging.c`, the entries in memory, and the control registers it writes. -/
structure Paging where
  pageDirectory : Nat
  pageTables : Nat → Nat
  entries : Nat → Nat → PageEntry
  cr3 : Nat
  enabled : Bool

namespace Paging

/-- Rewrite entry `i` of the page at `table`. -/
def setEntry (pg : Paging) (table i : Nat) (e : PageEntry) : Paging :=
  { pg with
    entries := Function.update pg.entries table (Function.update (pg.entries table) i e) }

/-- Rewrite all 1024 entries of the page at `table`. -/
def fill (pg : Paging) (table : Nat) (f : Nat → PageEntry) : Paging :=
  { pg with
    entries := Function.update pg.entries table
      fun i => if i < pageTableEntries then f i else pg.entries table i }

end Paging

/-- The entry the clearing loops write. -/
def clearEntry : PageEntry := ⟨false, false, false, 0⟩

/-- One turn of the loop over directory indices: a fresh table that maps its 4 MB to itself. -/
def mapDirectory (s : Pmm) (pg : Paging) (dirIndex : Nat) : Pmm × Paging × Bool :=
  let (s, table) := pmmAllocPage s
  let pg := { pg with pageTables := Function.update pg.pageTables dirIndex table }
  if table = 0 then (s.vgaPuts "[PAGING] Failed to allocate page table\n" 0x1C, pg, false)
  else
    let pg := pg.fill table fun _ => clearEntry
    let pg := pg.fill table fun tableIndex =>
      ⟨true, true, true, (dirIndex * 1024 + tableIndex) * pageSize / 2 ^ 12⟩
    (s, pg.setEntry pg.pageDirectory dirIndex ⟨true, true, true, table / 2 ^ 12⟩, true)

/-- `paging_init`: the loop over directory indices runs for index 0 only. -/
def pagingInit (s : Pmm) (pg : Paging) : Pmm × Paging :=
  let s := s.vgaPuts "[PAGING] Initializing...\n" 0x1A
  let (s, directory) := pmmAllocPage s
  let pg := { pg with pageDirectory := directory }
  if directory = 0 then
    (s.vgaPuts "[PAGING] Failed to allocate page directory\n" 0x1C, pg)
  else
    let pg := pg.fill directory fun _ => clearEntry
    match mapDirectory s pg 0 with
    | (s, pg, false) => (s, pg)
    | (s, pg, true) =>
      (s.vgaPuts "[PAGING] Enabled (identity-mapped first 4 MB)\n" 0x1A,
        { pg with cr3 := pg.pageDirectory, enabled := true })

def dirIndex (virtualAddr : Nat) : Nat := virtualAddr / 2 ^ 22

def tableIndex (virtualAddr : Nat) : Nat := virtualAddr / 2 ^ 12 % 1024

/-- The directory entry that covers an address. -/
def Paging.directoryEntry (pg : Paging) (virtualAddr : Nat) : PageEntry :=
  pg.entries pg.pageDirectory (dirIndex virtualAddr)

/-- The table the directory entry points to. -/
def Paging.table (pg : Paging) (virtualAddr : Nat) : Nat :=
  (pg.directoryEntry virtualAddr).frame * 2 ^ 12

/-- Where the processor finds an address: in its place while paging is off, else by the entries
from `cr3` on; `none` is a page fault. In ring 0, with CR0.WP clear, `rw` and `user` bar nothing. -/
def Paging.translate (pg : Paging) (a : Nat) : Option Nat :=
  if pg.enabled = false then some a
  else
    let d := pg.entries pg.cr3 (dirIndex a)
    let e := pg.entries (d.frame * 2 ^ 12) (tableIndex a)
    if d.present = false ∨ e.present = false then none
    else some (e.frame * 2 ^ 12 + a % 2 ^ 12)

/-- Read entry `i` of the page seen at the address `table`. -/
def Paging.loadEntry (pg : Paging) (table i : Nat) : Option PageEntry :=
  (pg.translate table).map fun page => pg.entries page i

/-- Rewrite entry `i` of the page seen at the address `table`. -/
def Paging.storeEntry (pg : Paging) (table i : Nat) (e : PageEntry) : Option Paging :=
  (pg.translate table).map fun page => pg.setEntry page i e

/-- `VGA_BUFFER`; the screen lies on its page. -/
def vgaBuffer : Nat := 0xB8000

/-- `page_map`; the console is the one of the PMM. A call that changes an entry ends in `invlpg`,
so that the next one finds the tables as they stand in memory. There is no result either where
the stores to the screen go elsewhere. -/
def pageMap (s : Pmm) (pg : Paging) (virtualAddr physicalAddr flags : Nat) :
    Option (Pmm × Paging) := do
  let d ← pg.loadEntry pg.pageDirectory (dirIndex virtualAddr)
  if d.present = false then
    if pg.translate vgaBuffer = some vgaBuffer then
      return (s.vgaPuts "[PAGING] Page table not present\n" 0x1C, pg)
    else none
  else
    let pg ← pg.storeEntry (d.frame * 2 ^ 12) (tableIndex virtualAddr)
      ⟨flags &&& pagePresent ≠ 0, flags &&& pageWrite ≠ 0, flags &&& pageUser ≠ 0,
        physicalAddr / 2 ^ 12⟩
    return (s, pg)

/-- `page_unmap`. -/
def pageUnmap (pg : Paging) (virtualAddr : Nat) : Option Paging := do
  let d ← pg.loadEntry pg.pageDirectory (dirIndex virtualAddr)
  if d.present = false then return pg
  else
    let e ← pg.loadEntry (d.frame * 2 ^ 12) (tableIndex virtualAddr)
    pg.storeEntry (d.frame * 2 ^ 12) (tableIndex virtualAddr) { e with present := false }

/-- `page_get_physical`. -/
def pageGetPhysical (pg : Paging) (virtualAddr : Nat) : Option Nat := do
  let d ← pg.loadEntry pg.pageDirectory (dirIndex virtualAddr)
  if d.present = false then return 0
  else
    let e ← pg.loadEntry (d.frame * 2 ^ 12) (tableIndex virtualAddr)
    if e.present = false then return 0
    else return e.frame * 2 ^ 12 + virtualAddr % 2 ^ 12

section Calls

variable {s : Pmm} {pg pg' : Paging} {d e : PageEntry} {virtualAddr physicalAddr flags : Nat}

theorem pageMap_absent (hd : pg.loadEntry pg.pageDirectory (dirIndex virtualAddr) = some d)
    (hp : d.present = false) (hscreen : pg.translate vgaBuffer = some vgaBuffer) :
    pageMap s pg virtualAddr physicalAddr flags =
      some (s.vgaPuts "[PAGING] Page table not present\n" 0x1C, pg) := by
  simp [pageMap, hd, hp, hscreen]

theorem pageMap_present (hd : pg.loadEntry pg.pageDirectory (dirIndex virtualAddr) = some d)
    (hp : d.present = true) (hstore : pg.storeEntry (d.frame * 2 ^ 12) (tableIndex virtualAddr)
      ⟨flags &&& pagePresent ≠ 0, flags &&& pageWrite ≠ 0, flags &&& pageUser ≠ 0,
        physicalAddr / 2 ^ 12⟩ = some pg') :
    pageMap s pg virtualAddr physicalAddr flags = some (s, pg') := by
  simp only [pageMap, hd, hp, hstore, Option.bind_eq_bind, Option.bind_some, Bool.true_eq_false,
    if_false]
  rfl

theorem pageUnmap_absent (hd : pg.loadEntry pg.pageDirectory (dirIndex virtualAddr) = some d)
    (hp : d.present = false) : pageUnmap pg virtualAddr = some pg := by
  simp [pageUnmap, hd, hp]

theorem pageUnmap_present (hd : pg.loadEntry pg.pageDirectory (dirIndex virtualAddr) = some d)
    (hp : d.present = true)
    (he : pg.loadEntry (d.frame * 2 ^ 12) (tableIndex virtualAddr) = some e)
    (hstore : pg.storeEntry (d.frame * 2 ^ 12) (tableIndex virtualAddr)
      { e with present := false } = some pg') :
    pageUnmap pg virtualAddr = some pg' := by
  simp only [pageUnmap, hd, hp, he, hstore, Option.bind_eq_bind, Option.bind_some,
    Bool.true_eq_false, if_false]

theorem pageGetPhysical_absent (hd : pg.loadEntry pg.pageDirectory (dirIndex virtualAddr) = some d)
    (hp : d.present = false) : pageGetPhysical pg virtualAddr = some 0 := by
  simp [pageGetPhysical, hd, hp]

theorem pageGetPhysical_present
    (hd : pg.loadEntry pg.pageDirectory (dirIndex virtualAddr) = some d) (hp : d.present = true)
    (he : pg.loadEntry (d.frame * 2 ^ 12) (tableIndex virtualAddr) = some e) :
    pageGetPhysical pg virtualAddr = some
      (if e.present = false then 0 else e.frame * 2 ^ 12 + virtualAddr % 2 ^ 12) := by
  simp only [pageGetPhysical, hd, hp, he, Option.bind_eq_bind, Option.bind_some,
    Bool.true_eq_false, if_false]
  split <;> rfl

end Calls

end HumanOS

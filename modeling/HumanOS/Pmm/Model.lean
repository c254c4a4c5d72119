import HumanOS.Lib.Bitmap
import HumanOS.Lib.Bytes

/-!
# The physical memory manager

The state and the operations of `kernel/pmm.c`. One bit a page, set when the page is in use;
the words of the static bitmap are a function of their index. Counters are 32-bit naturals.
The console collects the error texts, each with its colour; the boot banners are left out.
-/
namespace HumanOS

open Lib

def pageSize : Nat := 4096

/-- `pmm_t` with the static `pmm_bitmap` and the console its error paths print to. -/
structure Pmm where
  bitmap : Nat → BitVec 32
  totalPages : Nat
  usedPages : Nat
  freePages : Nat
  bitmapSize : Nat
  console : List (String × Nat)

namespace Pmm

/-- The zeroed statics before either initialiser runs. -/
def powerOn : Pmm := ⟨fun _ => 0#32, 0, 0, 0, 0, []⟩

def vgaPuts (s : Pmm) (text : String) (color : Nat) : Pmm :=
  { s with console := s.console ++ [(text, color)] }

/-- Set the page's bit and move one page from the free to the used counter. -/
def take (s : Pmm) (pageIndex : Nat) : Pmm :=
  { s with
    bitmap := Function.update s.bitmap (pageIndex / 32)
      (s.bitmap (pageIndex / 32) ||| 1#32 <<< (pageIndex % 32))
    usedPages := add32 s.usedPages 1
    freePages := sub32 s.freePages 1 }

/-- Clear the page's bit and move one page from the used to the free counter. -/
def release (s : Pmm) (pageIndex : Nat) : Pmm :=
  { s with
    bitmap := Function.update s.bitmap (pageIndex / 32)
      (s.bitmap (pageIndex / 32) &&& ~~~(1#32 <<< (pageIndex % 32)))
    usedPages := sub32 s.usedPages 1
    freePages := add32 s.freePages 1 }

end Pmm

/-- `pmm_init`: the bitmap address argument is unused in the source as well. -/
def pmmInit (s : Pmm) (memSize : Nat) : Pmm :=
  let totalPages := memSize / pageSize
  let bitmapSize := (totalPages + 31) / 32
  let (bitmapSize, totalPages) :=
    if bitmapSize > 32768 then (32768, 32768 * 32) else (bitmapSize, totalPages)
  { s with
    totalPages, bitmapSize
    usedPages := 0
    freePages := totalPages
    bitmap := fun i => if i < bitmapSize then 0#32 else s.bitmap i }

/-- The inner scan of `pmm_alloc_page`: the first clear bit of a word that is not full. -/
def scanWord (word : BitVec 32) : Option Nat :=
  if word ≠ 0xFFFFFFFF#32 then (List.range 32).find? fun j => word &&& (1#32 <<< j) = 0#32
  else none

/-- The outer scan of `pmm_alloc_page`, as the index of the page found. -/
def pmmFindFree (s : Pmm) : Option Nat :=
  (List.range s.bitmapSize).findSome? fun i => (scanWord (s.bitmap i)).map fun j => i * 32 + j

/-- `pmm_alloc_page`; the returned address 0 is NULL. -/
def pmmAllocPage (s : Pmm) : Pmm × Nat :=
  if s.freePages = 0 then (s.vgaPuts "[PMM] Out of memory!\n" 0x1C, 0)
  else
    match pmmFindFree s with
    | some pageIndex => (s.take pageIndex, pageIndex * pageSize)
    | none => (s, 0)

/-- `pmm_free_page`. -/
def pmmFreePage (s : Pmm) (addr : Nat) : Pmm :=
  if addr % pageSize ≠ 0 then s.vgaPuts "[PMM] Invalid address alignment\n" 0x1C
  else
    let pageIndex := addr / pageSize
    if s.bitmap (pageIndex / 32) &&& (1#32 <<< (pageIndex % 32)) = 0#32 then
      s.vgaPuts "[PMM] Double free detected\n" 0x1C
    else s.release pageIndex

/-- `pmm_mark_used`. -/
def pmmMarkUsed (s : Pmm) (addr : Nat) : Pmm :=
  let pageIndex := addr / pageSize
  if s.bitmap (pageIndex / 32) &&& (1#32 <<< (pageIndex % 32)) = 0#32 then s.take pageIndex else s

/-- `pmm_mark_free`. -/
def pmmMarkFree (s : Pmm) (addr : Nat) : Pmm :=
  let pageIndex := addr / pageSize
  if s.bitmap (pageIndex / 32) &&& (1#32 <<< (pageIndex % 32)) = 0#32 then s
  else s.release pageIndex

end HumanOS

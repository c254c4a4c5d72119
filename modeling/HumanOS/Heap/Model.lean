import HumanOS.Pmm.Model

/-!
# The kernel heap

The block list of `kernel/heap.c`. A block's header sits at the start of the page its block
begins with, so headers at different addresses never overlap and the header memory is a map
from header addresses. Address 0 is NULL. The two list walks of `kmalloc` take fuel: `none`
means that the walk has not come to an end yet.
-/
namespace HumanOS

open Lib

/-- `heap_block_t`. -/
structure HeapBlock where
  size : Nat
  used : Bool
  next : Nat
  prev : Nat
deriving DecidableEq, Repr

/-- `sizeof(heap_block_t)`. -/
def headerSize : Nat := 16

/-- The statics of the heap, the headers in memory, and the PMM the pages come from. -/
structure Heap where
  pmm : Pmm
  block : Nat → HeapBlock
  head : Nat
  total : Nat
  used : Nat

/-- Rewrite the header at address `a`. -/
def Heap.modify (h : Heap) (a : Nat) (f : HeapBlock → HeapBlock) : Heap :=
  { h with block := Function.update h.block a (f (h.block a)) }

/-- `heap_init`. -/
def heapInit (h : Heap) : Heap := { h with head := 0, total := 0, used := 0 }

def align4 (size : Nat) : Nat := add32 size 3 / 4 * 4

/-- `(bytes + PAGE_SIZE - 1) / PAGE_SIZE` in 32 bits. -/
def pagesFor (bytes : Nat) : Nat := add32 bytes (pageSize - 1) / pageSize

/-- The loops that give `n` consecutive pages from `page` on back to the PMM. -/
def freePages (page n : Nat) (s : Pmm) : Pmm :=
  (List.range n).foldl (fun s j => pmmFreePage s (add32 page (j * pageSize))) s

/-- The loop of `create_block` that takes the remaining pages one at a time, `i` being held
already; on failure it gives back `i` pages counted from the first. -/
def allocRest (page : Nat) : Nat → Nat → Pmm → Pmm × Bool
  | _, 0, s => (s, true)
  | i, n + 1, s =>
    match pmmAllocPage s with
    | (s', 0) => (freePages page i s', false)
    | (s', _ + 1) => allocRest page (i + 1) n s'

/-- `create_block`. -/
def createBlock (h : Heap) (size : Nat) : Heap × Nat :=
  let totalSize := add32 (align4 size) headerSize
  let pages := pagesFor totalSize
  let (pmm, page) := pmmAllocPage h.pmm
  if page = 0 then ({ h with pmm }, 0)
  else
    match allocRest page 1 (pages - 1) pmm with
    | (pmm, false) => ({ h with pmm }, 0)
    | (pmm, true) =>
      ({ h with
          pmm
          block := Function.update h.block page ⟨totalSize, true, 0, 0⟩
          total := add32 h.total totalSize
          used := add32 h.used totalSize }, page)

/-- The first-fit walk of `kmalloc`: the block found, or 0 at the end of the list. -/
def findFit (h : Heap) (need : Nat) : Nat → Nat → Option Nat
  | 0, _ => none
  | fuel + 1, b =>
    if b = 0 then some 0
    else if (h.block b).used = false ∧ need ≤ (h.block b).size then some b
    else findFit h need fuel (h.block b).next

/-- The walk of `kmalloc` to the last block. -/
def lastBlock (h : Heap) : Nat → Nat → Option Nat
  | 0, _ => none
  | fuel + 1, b => if (h.block b).next = 0 then some b else lastBlock h fuel (h.block b).next

/-- The end of `kmalloc`: put a new block at the end of the list. -/
def appendBlock (fuel : Nat) (h : Heap) (newBlock : Nat) : Option Heap :=
  if h.head = 0 then some { h with head := newBlock }
  else do
    let last ← lastBlock h fuel h.head
    let h := h.modify last fun b => { b with next := newBlock }
    return h.modify newBlock fun b => { b with prev := last }

/-- `kmalloc`; the returned pointer 0 is NULL. -/
def kmalloc (fuel : Nat) (h : Heap) (size : Nat) : Option (Heap × Nat) :=
  if size = 0 then some (h, 0)
  else do
    let alignedSize := align4 size
    let block ← findFit h (add32 alignedSize headerSize) fuel h.head
    if block ≠ 0 then
      let h := h.modify block fun b => { b with used := true }
      return ({ h with used := add32 h.used (h.block block).size }, add32 block headerSize)
    else
      let (h, newBlock) := createBlock h alignedSize
      if newBlock = 0 then return (h, 0)
      else
        let h ← appendBlock fuel h newBlock
        return (h, add32 newBlock headerSize)

/-- The fusion of a freed block with a free successor in the list. -/
def fuseNext (h : Heap) (block : Nat) : Heap :=
  let next := (h.block block).next
  if next ≠ 0 ∧ (h.block next).used = false then
    let h := h.modify block fun b => { b with size := add32 b.size (h.block next).size }
    let h := h.modify block fun b => { b with next := (h.block next).next }
    let h :=
      if (h.block next).next ≠ 0 then
        h.modify (h.block next).next fun b => { b with prev := block }
      else h
    { h with pmm := freePages next (pagesFor (h.block next).size) h.pmm }
  else h

/-- The fusion of a freed block with a free predecessor in the list. -/
def fusePrev (h : Heap) (block : Nat) : Heap :=
  let prev := (h.block block).prev
  if prev ≠ 0 ∧ (h.block prev).used = false then
    let h := h.modify prev fun b => { b with size := add32 b.size (h.block block).size }
    let h := h.modify prev fun b => { b with next := (h.block block).next }
    let h :=
      if (h.block block).next ≠ 0 then
        h.modify (h.block block).next fun b => { b with prev := prev }
      else h
    { h with pmm := freePages block (pagesFor (h.block block).size) h.pmm }
  else h

/-- `kfree`. -/
def kfree (h : Heap) (ptr : Nat) : Heap :=
  if ptr = 0 then h
  else
    let block := sub32 ptr headerSize
    if (h.block block).used = false then
      { h with pmm := h.pmm.vgaPuts "[HEAP] Double free detected\n" 0x1C }
    else
      let h := h.modify block fun b => { b with used := false }
      let h := { h with used := sub32 h.used (h.block block).size }
      fusePrev (fuseNext h block) block

/-- `heap_get_free`. -/
def heapGetFree (h : Heap) : Nat := sub32 h.total h.used

end HumanOS

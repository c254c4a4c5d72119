import HumanOS.Heap.Ownership
import HumanOS.Lib.Writes
import HumanOS.Scheduler.Model
import HumanOS.Vfs.Model

/-!
# The ELF loader

`kernel/elf.c` over the heap, the file system and the scheduler. The file is read into an array on
the stack; a pointer into it is an index modulo `2 ^ 32`, and what lies beyond the array is whatever
the stack holds there. The loader keeps account of the indices it reads there and of those it
writes in a segment, beside the size it asked for.
-/
namespace HumanOS

open Lib

def elfMagic : Nat := 0x464C457F

def etRel : Nat := 1

def etExec : Nat := 2

def em386 : Nat := 3

def ptLoad : Nat := 1

/-- The fields of `Elf32_Ehdr` that the loader reads. -/
structure Elf32Ehdr where
  magic : Nat
  eType : Nat
  eMachine : Nat
  eEntry : Nat
  ePhoff : Nat
  ePhnum : Nat
deriving DecidableEq, Repr

/-- `sizeof(Elf32_Ehdr)`. -/
def ehdrSize : Nat := 52

/-- The packed header at the start of the buffer. -/
def ehdrAt (buffer : Nat → UInt8) : Elf32Ehdr where
  magic := loadLE buffer 0 4
  eType := loadLE buffer 16 2
  eMachine := loadLE buffer 18 2
  eEntry := loadLE buffer 24 4
  ePhoff := loadLE buffer 28 4
  ePhnum := loadLE buffer 44 2

/-- The fields of `Elf32_Phdr` that the loader reads. -/
structure Elf32Phdr where
  pType : Nat
  pOffset : Nat
  pVaddr : Nat
  pFilesz : Nat
  pMemsz : Nat
deriving DecidableEq, Repr

/-- The index of `phdr[i]` in the buffer. -/
def phdrIndex (header : Elf32Ehdr) (i : Nat) : Nat := (header.ePhoff + 32 * i) % 2 ^ 32

/-- The buffer behind a pointer into it. -/
def bufferFrom (buffer : Nat → UInt8) (start k : Nat) : UInt8 := buffer ((start + k) % 2 ^ 32)

/-- The packed header `phdr[i]`. -/
def phdrAt (buffer : Nat → UInt8) (header : Elf32Ehdr) (i : Nat) : Elf32Phdr where
  pType := loadLE (bufferFrom buffer (phdrIndex header i)) 0 4
  pOffset := loadLE (bufferFrom buffer (phdrIndex header i)) 4 4
  pVaddr := loadLE (bufferFrom buffer (phdrIndex header i)) 8 4
  pFilesz := loadLE (bufferFrom buffer (phdrIndex header i)) 16 4
  pMemsz := loadLE (bufferFrom buffer (phdrIndex header i)) 20 4

/-- `elf_validate`; `none` is the NULL pointer. -/
def elfValidate : Option Elf32Ehdr → Bool
  | none => false
  | some header =>
    if header.magic ≠ elfMagic then false
    else if header.eMachine ≠ em386 then false
    else if header.eType ≠ etExec ∧ header.eType ≠ etRel then false
    else true

/-- What the loader works on: file system, heap, the bytes of memory by their address, the
variable behind `entry_point` and the console. -/
structure Loader where
  vfs : Vfs
  run : HeapRun
  mem : Word → UInt8
  entryPoint : Nat
  console : List (String × Nat)
  reads : List Nat
  writes : List (Nat × Nat)

namespace Loader

def puts (l : Loader) (text : String) (color : Nat) : Loader :=
  { l with console := l.console ++ [(text, color)] }

/-- The bytes of a name as the console shows them. -/
def nameText (name : List UInt8) : String := String.ofList (name.map fun b => Char.ofNat b.toNat)

/-- The lines that end with the name of the file. -/
def report (l : Loader) (text : String) (color : Nat) (filename : List UInt8) : Loader :=
  ((l.puts text color).puts (nameText filename) 0x0F).puts "\n" 0x0F

/-- `n` bytes of the buffer are read from index `a` on. -/
def reading (l : Loader) (a n : Nat) : Loader :=
  { l with reads := l.reads ++ (List.range n).map fun k => (a + k) % 2 ^ 32 }

/-- The loops over `dest[k]`, in a segment for which `size` bytes were asked. -/
def store (l : Loader) (segMem size : Nat) (ks : List Nat) (f : Nat → UInt8) : Loader :=
  { l with
    mem := writeAll (fun k => BitVec.ofNat 32 segMem + BitVec.ofNat 32 k) f l.mem ks
    writes := l.writes ++ ks.map (·, size) }

end Loader

/-- `kmalloc` with the pointers it has returned. -/
def HeapRun.alloc (fuel : Nat) (r : HeapRun) (size : Nat) : Option (HeapRun × Nat) :=
  (kmalloc fuel r.heap size).map fun (h, p) => (⟨h, if p = 0 then r.live else p :: r.live⟩, p)

/-- The argument of `kmalloc` for a segment. -/
def Elf32Phdr.request (phdr : Elf32Phdr) : Nat := if phdr.pMemsz > 0 then phdr.pMemsz else 512

/-- The bytes the copy loop moves. -/
def Elf32Phdr.copied (phdr : Elf32Phdr) (readBytes : Nat) : Nat := min phdr.pFilesz readBytes

/-- `e_entry` passes the test of a segment, whose end is a 32-bit sum. -/
def Elf32Phdr.HasEntry (phdr : Elf32Phdr) (entry : Nat) : Prop :=
  entry ≥ phdr.pVaddr ∧ entry < add32 phdr.pVaddr phdr.pMemsz

instance (phdr : Elf32Phdr) (entry : Nat) : Decidable (phdr.HasEntry entry) :=
  inferInstanceAs (Decidable (_ ∧ _))

/-- What is done for a `PT_LOAD` segment once it has memory: copy, clear the rest, and move the
entry point into it. -/
def loadSegment (buffer : Nat → UInt8) (readBytes entry phdrIdx : Nat) (phdr : Elf32Phdr)
    (segMem : Nat) (l : Loader) : Loader :=
  let l := (l.reading (phdrIdx + 4) 4).reading (phdrIdx + 16) 4
  let n := phdr.copied readBytes
  let l := (l.reading phdr.pOffset n).store segMem phdr.request (List.range n)
    (bufferFrom buffer phdr.pOffset)
  let l := l.store segMem phdr.request
    (List.range' phdr.pFilesz (phdr.pMemsz - phdr.pFilesz)) fun _ => 0
  let l := l.reading (phdrIdx + 8) 4
  if phdr.HasEntry entry then { l with entryPoint := add32 segMem (entry - phdr.pVaddr) } else l

/-- The loop over the program headers, for those left. The result is `none` while a walk of
`kmalloc` has not come to an end. -/
def loadSegments (fuel : Nat) (buffer : Nat → UInt8) (readBytes : Nat) (header : Elf32Ehdr) :
    List Nat → Loader → Loader × Option Int
  | [], l => (l, some 0)
  | i :: is, l =>
    let phdr := phdrAt buffer header i
    let l := l.reading (phdrIndex header i) 4
    if phdr.pType = ptLoad then
      let l := l.reading (phdrIndex header i + 20) 4
      match l.run.alloc fuel phdr.request with
      | none => (l, none)
      | some (run, segMem) =>
        let l := { l with run }
        if segMem = 0 then
          (l.puts "[ELF] Error: Out of memory loading segment\n" 0x0C, some (-1))
        else
          loadSegments fuel buffer readBytes header is
            (loadSegment buffer readBytes header.eEntry (phdrIndex header i) phdr segMem l)
    else loadSegments fuel buffer readBytes header is l

/-- `elf_load_from_vfs` once the file is in the buffer. -/
def elfLoadBuffer (fuel : Nat) (buffer : Nat → UInt8) (readBytes : Int) (filename : List UInt8)
    (l : Loader) : Loader × Option Int :=
  if readBytes < ehdrSize then
    (l.report "[ELF] Error: File too small or not found: " 0x0C filename, some (-1))
  else
    let header := ehdrAt buffer
    let l := l.reading 0 ehdrSize
    if elfValidate (some header) = false then
      (l.report "[ELF] Error: Invalid 32-bit x86 ELF format: " 0x0C filename, some (-1))
    else
      match loadSegments fuel buffer readBytes.toNat header (List.range header.ePhnum)
          { l with entryPoint := header.eEntry } with
      | (l, some 0) => (l.report "[ELF] Successfully Loaded Binary: " 0x0A filename, some 0)
      | (l, code) => (l, code)

/-- `elf_load_from_vfs`. `stack` is what the uninitialised `buffer` holds and `sectorStack` the same
for the `sector_buf` of `vfs_read_file`; `none` for a pointer is NULL. -/
def elfLoadFromVfs (fuel : Nat) (ok : Nat → Bool) (stack sectorStack : Nat → UInt8) (l : Loader)
    (filename : Option (List UInt8)) (entryPoint : Option Nat) : Loader × Option Int :=
  match filename, entryPoint with
  | some filename, some entryPoint =>
    let (vfs, buffer, readBytes) :=
      vfsReadFile ok l.vfs (some filename) (some stack) 1024 sectorStack
    elfLoadBuffer fuel (buffer.getD stack) readBytes filename { l with vfs, entryPoint }
  | _, _ => (l, some (-1))

/-- `sizeof(process_t)`. -/
def processSize : Nat := 4188

/-- `scheduler_add_user_process` with its call of `kmalloc`, which a full table does not reach. -/
def addUserProcess (fuel : Nat) (r : HeapRun) (s : Sched) (entry : Word) (name : String) :
    Option (HeapRun × Sched) :=
  if s.processCount ≥ maxProcesses then some (r, schedulerAddUserProcess s 0 entry name)
  else
    (r.alloc fuel processSize).map fun (r, proc) =>
      (r, schedulerAddUserProcess s (BitVec.ofNat 32 proc) entry name)

/-- `elf_run`. -/
def elfRun (fuel : Nat) (ok : Nat → Bool) (stack sectorStack : Nat → UInt8) (l : Loader)
    (s : Sched) (filename : Option (List UInt8)) : Loader × Sched × Option Int :=
  match elfLoadFromVfs fuel ok stack sectorStack l filename (some 0) with
  | (l, none) => (l, s, none)
  | (l, some code) =>
    if code = 0 ∧ l.entryPoint ≠ 0 then
      match addUserProcess fuel l.run s (BitVec.ofNat 32 l.entryPoint)
          (Loader.nameText (filename.getD [])) with
      | none => (l, s, none)
      | some (run, s) => ({ l with run }, s, some 0)
    else (l, s, some (-1))

end HumanOS

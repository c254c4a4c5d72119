import HumanOS.Lib.Bytes
import Mathlib.Data.List.FinRange

/-!
# The file system

The file table of `kernel/vfs.c` and the ATA disk under it. A sector is a function from byte
offsets, of which the first 512 count. The calls to the disk are numbered, and `ok` says which
of them succeed; a failed call changes neither disk nor buffer. Strings of callers are the
bytes before their NUL, and `none` is the NULL pointer.
-/
namespace HumanOS

open Lib

abbrev maxFilename : Nat := 20

abbrev maxFiles : Nat := 16

def maxFileSize : Nat := 1024

def vfsMetadataLba : Nat := 100

def vfsDataStartLba : Nat := 101

/-- `vfs_file_t`. -/
structure VfsFile where
  name : Fin maxFilename → UInt8
  size : Nat
  startLba : Nat
  used : Nat

abbrev FileTable := Fin maxFiles → VfsFile

/-- The static `file_table`, the sectors of the disk, the number of disk calls made so far and
the console. -/
structure Vfs where
  table : FileTable
  disk : Nat → Nat → UInt8
  calls : Nat
  console : List (String × Nat)

def Vfs.puts (v : Vfs) (text : String) (color : Nat) : Vfs :=
  { v with console := v.console ++ [(text, color)] }

/-- Byte `k` of the packed 32 bytes of an entry. -/
def VfsFile.byte (f : VfsFile) (k : Nat) : UInt8 :=
  if h : k < maxFilename then f.name ⟨k, h⟩
  else if k < 24 then byteLE f.size (k - 20)
  else if k < 28 then byteLE f.startLba (k - 24)
  else byteLE f.used (k - 28)

/-- Entry `i` of a metadata sector. -/
def diskFile (buf : Nat → UInt8) (i : Fin maxFiles) : VfsFile where
  name := fun k => buf (32 * i + k)
  size := loadLE buf (32 * i + 20) 4
  startLba := loadLE buf (32 * i + 24) 4
  used := loadLE buf (32 * i + 28) 4

/-- The metadata sector that holds a table. -/
def tableSector (table : FileTable) (k : Nat) : UInt8 :=
  if h : k / 32 < maxFiles then (table ⟨k / 32, h⟩).byte (k % 32) else 0

/-- The string that starts at the name of an entry. -/
def VfsFile.nameString (f : VfsFile) : List UInt8 :=
  ((List.range 32).map f.byte).takeWhile (· ≠ 0)

/-- `strcmp_impl`. -/
def strcmpImpl : List UInt8 → List UInt8 → Nat
  | [], [] => 0
  | a :: s1, b :: s2 => if a ≠ b then 1 else strcmpImpl s1 s2
  | _, _ => 1

/-- `strcpy_impl` into a name: at most 19 bytes and a NUL, the rest of the field is kept. -/
def strcpyImpl (dest : Fin maxFilename → UInt8) (src : List UInt8) : Fin maxFilename → UInt8 :=
  fun k =>
    if k < min src.length (maxFilename - 1) then src.getD k 0
    else if k = min src.length (maxFilename - 1) then 0
    else dest k

section Disk

variable (ok : Nat → Bool)

/-- `ata_read_sector`: the buffer afterwards, and whether the call succeeded. -/
def ataReadSector (v : Vfs) (lba : Nat) (buffer : Nat → UInt8) : Vfs × (Nat → UInt8) × Bool :=
  if ok v.calls then ({ v with calls := v.calls + 1 }, v.disk lba, true)
  else ({ v with calls := v.calls + 1 }, buffer, false)

/-- `ata_write_sector`. -/
def ataWriteSector (v : Vfs) (lba : Nat) (buffer : Nat → UInt8) : Vfs × Bool :=
  if ok v.calls then
    ({ v with calls := v.calls + 1, disk := Function.update v.disk lba buffer }, true)
  else ({ v with calls := v.calls + 1 }, false)

/-- The test an entry of the metadata sector has to pass to be taken over. -/
def VfsFile.accepted (f : VfsFile) : Bool := f.used = 1 ∧ f.size ≤ maxFileSize

/-- What a rejected or deleted entry becomes. -/
def VfsFile.cleared (f : VfsFile) : VfsFile :=
  { f with used := 0, size := 0, name := Function.update f.name 0 0 }

/-- The table after loading a metadata sector over it. -/
def loadTable (buf : Nat → UInt8) (table : FileTable) : FileTable := fun i =>
  if (diskFile buf i).accepted then diskFile buf i else (table i).cleared

/-- `vfs_sync_from_disk`. -/
def vfsSyncFromDisk (v : Vfs) : Vfs :=
  match ataReadSector ok v vfsMetadataLba fun _ => 0 with
  | (v, buf, true) =>
    let found := ((List.finRange maxFiles).filter fun i => (diskFile buf i).accepted).length
    ((({ v with table := loadTable buf v.table }.puts "[VFS] Loaded " 0x0B).puts
      (toString found) 0x0F).puts " files from disk\n" 0x0B)
  | (v, _, false) => v.puts "[VFS] ERROR: Failed to read metadata from disk!\n" 0x04

/-- `vfs_sync_to_disk`. -/
def vfsSyncToDisk (v : Vfs) : Vfs :=
  match ataWriteSector ok v vfsMetadataLba (tableSector v.table) with
  | (v, true) => v.puts "[VFS] Metadata synced to disk (sector 100)\n" 0x0B
  | (v, false) => v.puts "[VFS] ERROR: Failed to sync metadata to disk!\n" 0x04

def Vfs.setEntry (v : Vfs) (i : Fin maxFiles) (f : VfsFile) : Vfs :=
  { v with table := Function.update v.table i f }

/-- The bytes of an ASCII literal. -/
def asciiBytes (text : String) : List UInt8 := text.toList.map fun c => UInt8.ofNat c.toNat

def readmeName : List UInt8 := asciiBytes "readme.txt"

def initMsg : List UInt8 := asciiBytes "Welcome to HumanOS File System on ATA Disk!"

/-- The table `vfs_init` starts from. -/
def clearTable (table : FileTable) : FileTable := fun i =>
  { (table i).cleared with startLba := vfsDataStartLba + i * 2 }

/-- `vfs_init`. -/
def vfsInit (v : Vfs) : Vfs :=
  let v := vfsSyncFromDisk ok { v with table := clearTable v.table }
  let v :=
    if (v.table 0).used = 0 then
      let v := v.setEntry 0
        { name := strcpyImpl (v.table 0).name readmeName
          used := 1
          startLba := vfsDataStartLba
          size := initMsg.length + 1 }
      let sectorBuf : Nat → UInt8 := fun k => initMsg.getD k 0
      vfsSyncToDisk ok (ataWriteSector ok v (v.table 0).startLba sectorBuf).1
    else v
  v.puts "[VFS] Virtual File System Mounted on ATA Hard Disk (/)\n" 0x0A

/-- The loops that look for a used entry of that name. -/
def findName (table : FileTable) (name : List UInt8) : Option (Fin maxFiles) :=
  (List.finRange maxFiles).find? fun i =>
    (table i).used ≠ 0 ∧ strcmpImpl (table i).nameString name = 0

/-- The loop that looks for a free entry. -/
def findFree (table : FileTable) : Option (Fin maxFiles) :=
  (List.finRange maxFiles).find? fun i => (table i).used = 0

/-- `vfs_create_file`, with its result as an index; `none` is the result -1. -/
def vfsCreate (v : Vfs) (name : Option (List UInt8)) : Vfs × Option (Fin maxFiles) :=
  match name with
  | none => (v, none)
  | some [] => (v, none)
  | some name =>
    let v := vfsSyncFromDisk ok v
    match findName v.table name with
    | some i => (v, some i)
    | none =>
      match findFree v.table with
      | some i =>
        let v := v.setEntry i
          { used := 1
            size := 0
            startLba := vfsDataStartLba + i * 2
            name := strcpyImpl (v.table i).name name }
        (vfsSyncToDisk ok v, some i)
      | none => (v, none)

/-- An index as the `int` the source returns. -/
def indexCode : Option (Fin maxFiles) → Int
  | some i => i
  | none => -1

/-- `vfs_create_file`. -/
def vfsCreateFile (v : Vfs) (name : Option (List UInt8)) : Vfs × Int :=
  let (v, i) := vfsCreate ok v name
  (v, indexCode i)

/-- The data part of `vfs_write_file`: one sector, and a second one beyond 512 bytes. -/
def vfsWriteData (v : Vfs) (i : Fin maxFiles) (content : Nat → UInt8) (len : Nat) : Vfs :=
  let buf : Nat → UInt8 := fun k => if k < len then content k else 0
  let v := (ataWriteSector ok v (v.table i).startLba buf).1
  if len > 512 then
    let buf : Nat → UInt8 := fun k => if k + 512 < len then content (k + 512) else 0
    (ataWriteSector ok v (add32 (v.table i).startLba 1) buf).1
  else v

/-- `vfs_write_file`; `content` is the memory behind the pointer. -/
def vfsWriteFile (v : Vfs) (name : Option (List UInt8)) (content : Nat → UInt8) (len : Nat) :
    Vfs × Int :=
  match vfsCreate ok v name with
  | (v, none) => (v, -1)
  | (v, some i) =>
    let len := if len > maxFileSize then maxFileSize else len
    let v := v.setEntry i { v.table i with size := len }
    (vfsSyncToDisk ok (vfsWriteData ok v i content len), len)

/-- `vfs_read_file`: the buffer afterwards and the result. `stack` is what the uninitialised
`sector_buf` holds. -/
def vfsReadFile (v : Vfs) (name : Option (List UInt8)) (buffer : Option (Nat → UInt8))
    (maxLen : Nat) (stack : Nat → UInt8) : Vfs × Option (Nat → UInt8) × Int :=
  match name, buffer with
  | some name, some buffer =>
    if maxLen = 0 then (v, some buffer, -1)
    else
      let v := vfsSyncFromDisk ok v
      match findName v.table name with
      | some i =>
        let size := (v.table i).size
        let n := if size > maxLen - 1 then maxLen - 1 else size
        let (v, sectorBuf, _) := ataReadSector ok v (v.table i).startLba stack
        let buffer := fun j => if j < n ∧ j < 512 then sectorBuf j else buffer j
        let (v, buffer) :=
          if n > 512 then
            let (v, sectorBuf, _) := ataReadSector ok v (add32 (v.table i).startLba 1) sectorBuf
            (v, fun j => if 512 ≤ j ∧ j < n then sectorBuf (j - 512) else buffer j)
          else (v, buffer)
        (v, some (Function.update buffer n 0), n)
      | none => (v, some buffer, -1)
  | _, buffer => (v, buffer, -1)

/-- One line of `vfs_list_files`. -/
def listLine (v : Vfs) (f : VfsFile) : Vfs :=
  let digits := toString f.size
  (((((v.puts "  FILE     " 0x0F).puts ("".pushn ' ' (12 - digits.length)) 0x0F).puts
    digits 0x0F).puts "   " 0x0F).puts
    (String.ofList (f.nameString.map fun b => Char.ofNat b.toNat)) 0x0A).puts "\n" 0x0F

/-- `vfs_list_files`. -/
def vfsListFiles (v : Vfs) : Vfs :=
  let v := vfsSyncFromDisk ok v
  let v := v.puts "  Type      Size (Bytes)   Filename\n" 0x0B
  let v := v.puts "  ----      ------------   --------\n" 0x0B
  let files := (List.finRange maxFiles).filter fun i => (v.table i).used ≠ 0
  let v := files.foldl (fun v i => listLine v (v.table i)) v
  if files = [] then v.puts "  (No files stored on disk)\n" 0x0F else v

/-- `vfs_delete_file`. -/
def vfsDeleteFile (v : Vfs) (name : Option (List UInt8)) : Vfs × Int :=
  match name with
  | none => (v, -1)
  | some [] => (v, -1)
  | some name =>
    let v := vfsSyncFromDisk ok v
    match findName v.table name with
    | some i => (vfsSyncToDisk ok (v.setEntry i (v.table i).cleared), 0)
    | none => (v, -1)

/-- `vfs_get_filename`: the name copied out, `none` where the result is 0. -/
def vfsGetFilename (v : Vfs) (index : Nat) : Option (List UInt8) :=
  if h : index < maxFiles then
    let f := v.table ⟨index, h⟩
    if f.used = 0 then none else some (f.nameString.take (maxFilename - 1))
  else none

/-- `vfs_sync`. -/
def vfsSync (v : Vfs) : Vfs := vfsSyncToDisk ok v

end Disk

end HumanOS

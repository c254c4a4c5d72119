import HumanOS.Lib.Port

/-!
# The disk driver

`drivers/ata.c` against any device behind the ports. Buffers are functions from byte offsets, and
`none` is the NULL pointer; `ata_get_sector_count` and `ata_get_model` return two of the fields.
-/
namespace HumanOS

open Lib

/-- The statics of the driver, and the device. -/
structure Ata (σ : Type*) where
  dev : σ
  diskSectorCount : Nat
  diskModel : List UInt8
  diskPresent : Bool
  useSecondary : Bool
  useSlave : Bool

namespace Ata

variable {σ : Type*}

/-- The helpers that choose a port by the channel. -/
def channelPort (a : Ata σ) (primary secondary : Nat) : Nat :=
  if a.useSecondary then secondary else primary

def ataDataPort (a : Ata σ) : Nat := a.channelPort 0x1F0 0x170

def ataCommStatPort (a : Ata σ) : Nat := a.channelPort 0x1F7 0x177

def ataDriveHeadPort (a : Ata σ) : Nat := a.channelPort 0x1F6 0x176

def ataSeccountPort (a : Ata σ) : Nat := a.channelPort 0x1F2 0x172

def ataLbaLoPort (a : Ata σ) : Nat := a.channelPort 0x1F3 0x173

def ataLbaMidPort (a : Ata σ) : Nat := a.channelPort 0x1F4 0x174

def ataLbaHiPort (a : Ata σ) : Nat := a.channelPort 0x1F5 0x175

def timeout : Nat := 100000

def statErr : UInt8 := 0x01

def statDrq : UInt8 := 0x08

def statBsy : UInt8 := 0x80

def cmdReadSectors : UInt8 := 0x20

def cmdWriteSectors : UInt8 := 0x30

def cmdCacheFlush : UInt8 := 0xE7

def cmdIdentify : UInt8 := 0xEC

/-- The test in the loop of `ata_wait_bsy`. -/
def bsyVerdict (_left : Nat) (status : UInt8) : Option Bool :=
  if status = 0xFF then some false
  else if status &&& statBsy = 0 then some true
  else none

/-- The test in the loop of `ata_wait_drq`. -/
def drqVerdict (_left : Nat) (status : UInt8) : Option Bool :=
  if status = 0xFF then some false
  else if status &&& statDrq ≠ 0 then some true
  else none

/-- The tests in and after the loop that waits for the data of `IDENTIFY`: an answer to the last
poll comes too late. -/
def identifyVerdict (left : Nat) (status : UInt8) : Option Bool :=
  if status &&& statErr ≠ 0 then some false
  else if status &&& statDrq ≠ 0 then some (left ≠ 0)
  else none

section Driver

variable (D : Device σ)

def inb (a : Ata σ) (port : Nat) : Ata σ × UInt8 :=
  ({ a with dev := (D.inb a.dev port).2 }, (D.inb a.dev port).1)

def outb (a : Ata σ) (port : Nat) (value : UInt8) : Ata σ :=
  { a with dev := D.outb a.dev port value }

/-- The loops that poll the status port. -/
def pollStatus (a : Ata σ) (verdict : Nat → UInt8 → Option Bool) : Ata σ × Bool :=
  let out := poll D a.ataCommStatPort verdict timeout a.dev
  ({ a with dev := out.1 }, out.2)

/-- `ata_wait_bsy`. -/
def ataWaitBsy (a : Ata σ) : Ata σ × Bool := a.pollStatus D bsyVerdict

/-- `ata_wait_drq`. -/
def ataWaitDrq (a : Ata σ) : Ata σ × Bool := a.pollStatus D drqVerdict

/-- The loops that read 256 words from the data port. -/
def readData (a : Ata σ) : Ata σ × List UInt16 :=
  let out := readWords D a.ataDataPort 256 a.dev
  ({ a with dev := out.1 }, out.2)

/-- The loop that writes words to the data port. -/
def writeData (a : Ata σ) (words : List UInt16) : Ata σ :=
  { a with dev := writeWords D a.ataDataPort words a.dev }

/-- `head_val`. -/
def headVal (useSlave : Bool) (lba : Nat) : UInt8 :=
  (if useSlave then (0xF0 : UInt8) else 0xE0) ||| UInt8.ofNat ((lba >>> 24) &&& 0x0F)

/-- Address a sector and send a command. -/
def ataCommand (a : Ata σ) (lba : Nat) (command : UInt8) : Ata σ :=
  let a := a.outb D a.ataDriveHeadPort (headVal a.useSlave lba)
  let a := a.outb D a.ataSeccountPort 1
  let a := a.outb D a.ataLbaLoPort (UInt8.ofNat lba)
  let a := a.outb D a.ataLbaMidPort (UInt8.ofNat (lba >>> 8))
  let a := a.outb D a.ataLbaHiPort (UInt8.ofNat (lba >>> 16))
  a.outb D a.ataCommStatPort command

/-- Words stored through a `uint16_t*` at the start of a buffer. -/
def storeWords (words : List UInt16) (buffer : Nat → UInt8) : Nat → UInt8 := fun k =>
  if k < 2 * words.length then
    let word := words.getD (k / 2) 0
    if k % 2 = 0 then word.toUInt8 else (word >>> 8).toUInt8
  else buffer k

/-- The words a `uint16_t*` at the start of a buffer reads. -/
def loadWords (buffer : Nat → UInt8) (n : Nat) : List UInt16 :=
  (List.range n).map fun i =>
    (buffer (2 * i)).toUInt16 ||| ((buffer (2 * i + 1)).toUInt16 <<< 8)

/-- What the two sector calls share, up to where the data move: whether they do. -/
def ataOpen (a : Ata σ) (lba : Nat) (command : UInt8) : Ata σ × Bool :=
  if a.diskPresent = false then (a, false)
  else
    match a.ataWaitBsy D with
    | (a, false) => (a, false)
    | (a, true) =>
      match (a.ataCommand D lba command).ataWaitBsy D with
      | (a, false) => (a, false)
      | (a, true) => a.ataWaitDrq D

/-- `ata_read_sector`: the buffer afterwards and the result. -/
def ataReadSector (a : Ata σ) (lba : Nat) (buffer : Option (Nat → UInt8)) :
    Ata σ × Option (Nat → UInt8) × Int :=
  match buffer with
  | none => (a, none, -1)
  | some buf =>
    match a.ataOpen D lba cmdReadSectors with
    | (a, false) => (a, some buf, -1)
    | (a, true) =>
      let (a, words) := a.readData D
      (a, some (storeWords words buf), 0)

/-- `ata_write_sector`. -/
def ataWriteSector (a : Ata σ) (lba : Nat) (buffer : Option (Nat → UInt8)) : Ata σ × Int :=
  match buffer with
  | none => (a, -1)
  | some buf =>
    match a.ataOpen D lba cmdWriteSectors with
    | (a, false) => (a, -1)
    | (a, true) =>
      let a := a.writeData D (loadWords buf 256)
      let a := a.outb D a.ataCommStatPort cmdCacheFlush
      ((a.ataWaitBsy D).1, 0)

/-- `ata_flush`. -/
def ataFlush (a : Ata σ) : Ata σ :=
  if a.diskPresent = false then a
  else
    match a.ataWaitBsy D with
    | (a, false) => a
    | (a, true) => ((a.outb D a.ataCommStatPort cmdCacheFlush).ataWaitBsy D).1

/-- Words 27 to 46 of the answer to `IDENTIFY`, high bytes first, and a NUL. -/
def modelBytes (words : List UInt16) : List UInt8 :=
  ((List.range 20).flatMap fun i =>
    let val := words.getD (27 + i) 0
    [(val >>> 8).toUInt8, val.toUInt8]) ++ [0]

/-- The sectors of a disk by words 60 and 61. -/
def sectorCount (words : List UInt16) : Nat :=
  let count := (words.getD 61 0).toNat <<< 16 ||| (words.getD 60 0).toNat
  if count = 0 then 10485760 else count

/-- What `ata_probe_drive` does once the data of `IDENTIFY` are there. -/
def takeIdentity (a : Ata σ) : Ata σ :=
  let (a, words) := a.readData D
  { a with
    diskModel := modelBytes words
    diskSectorCount := sectorCount words
    diskPresent := true }

/-- The start of `ata_probe_drive`: select the drive, give it time, and send `IDENTIFY`. -/
def sendIdentify (a : Ata σ) (bus drive : Bool) : Ata σ :=
  let a := { a with useSecondary := bus, useSlave := drive }
  let a := a.outb D a.ataDriveHeadPort (if drive then 0xB0 else 0xA0)
  let a := (List.range 4).foldl (fun a _ => (a.inb D a.ataCommStatPort).1) a
  let a := a.outb D a.ataSeccountPort 0
  let a := a.outb D a.ataLbaLoPort 0
  let a := a.outb D a.ataLbaMidPort 0
  let a := a.outb D a.ataLbaHiPort 0
  a.outb D a.ataCommStatPort cmdIdentify

/-- `ata_probe_drive`. -/
def ataProbeDrive (a : Ata σ) (bus drive : Bool) : Ata σ × Bool :=
  let a := a.sendIdentify D bus drive
  let (a, status) := a.inb D a.ataCommStatPort
  if status = 0 ∨ status = 0xFF then (a, false)
  else
    match a.ataWaitBsy D with
    | (a, false) => (a, false)
    | (a, true) =>
      -- `||` reads the second port only where the first one shows 0
      let (a, mid) := a.inb D a.ataLbaMidPort
      if mid ≠ 0 then (a, false)
      else
        let (a, hi) := a.inb D a.ataLbaHiPort
        if hi ≠ 0 then (a, false)
        else
          match a.pollStatus D identifyVerdict with
          | (a, false) => (a, false)
          | (a, true) => (a.takeIdentity D, true)

/-- `ata_identify`, from the drives that are left to be probed. -/
def identifyLoop (a : Ata σ) : List (Bool × Bool) → Ata σ × Bool
  | [] => ({ a with diskPresent := false }, false)
  | (bus, drive) :: rest =>
    match a.ataProbeDrive D bus drive with
    | (a, true) => (a, true)
    | (a, false) => identifyLoop a rest

/-- `ata_identify`. -/
def ataIdentify (a : Ata σ) : Ata σ × Bool :=
  a.identifyLoop D [(false, false), (false, true), (true, false), (true, true)]

/-- `ata_init`, without what it prints. -/
def ataInit (a : Ata σ) : Ata σ :=
  match a.ataIdentify D with
  | (a, true) => a
  | (a, false) => { a with diskPresent := false }

end Driver

end Ata

end HumanOS

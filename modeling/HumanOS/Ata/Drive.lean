import HumanOS.Ata.Model
import HumanOS.Vfs.Model

/-!
# A drive behind the ports

A disk as the ATA commands for it are documented: a command keeps it busy for a while, then it
asks for data or shows an error. How long it takes, and which transfers it refuses, is left open.
Only the drive that the drive/head register selects answers, and a busy one takes no command.
-/
namespace HumanOS

open Lib

namespace Ata

/-- What the drive is at. `busy` is left after that many further reads of the status. -/
inductive DrivePhase where
  | idle (err : Bool)
  | busy (left : Nat) (next : DrivePhase)
  | dataIn (words : List UInt16)
  | dataOut (lba : Nat) (words : List UInt16)

/-- Busy for `n` reads of the status. -/
def DrivePhase.wait : Nat → DrivePhase → DrivePhase
  | 0, next => next
  | n + 1, next => .busy n next

/-- The registers, the sectors, the answer to `IDENTIFY` and the transfers asked for so far. -/
structure Drive where
  driveHead : UInt8
  lbaLo : UInt8
  lbaMid : UInt8
  lbaHi : UInt8
  phase : DrivePhase
  sectors : Nat → Nat → UInt8
  identity : List UInt16
  transfers : Nat

/-- How a drive handles one transfer: the time until the data can move, whether it takes the
transfer at all, and the times it is busy after the data of a write and for the flush. -/
structure Handling where
  latency : Nat
  accepted : Bool
  settle : Nat
  flush : Nat

/-- Where a drive sits and how it behaves. -/
structure Placed where
  secondary : Bool
  slave : Bool
  identifyLatency : Nat
  handling : Nat → Handling

namespace Drive

/-- Status register: BSY, RDY, DRQ and ERR. -/
def status (d : Drive) : UInt8 :=
  match d.phase with
  | .idle err => if err then 0x41 else 0x40
  | .busy _ _ => 0x80
  | .dataIn _ => 0x48
  | .dataOut _ _ => 0x48

/-- The sector the registers address. -/
def lba (d : Drive) : Nat :=
  d.driveHead.toNat % 16 * 2 ^ 24 + d.lbaHi.toNat * 2 ^ 16 + d.lbaMid.toNat * 2 ^ 8 +
    d.lbaLo.toNat

/-- Time goes by with every read of the status. -/
def tick (d : Drive) : Drive :=
  match d.phase with
  | .busy left next => { d with phase := .wait left next }
  | _ => d

def selected (d : Drive) (place : Placed) : Bool := (d.driveHead &&& 0x10 ≠ 0) = place.slave

/-- A command. -/
def command (d : Drive) (place : Placed) (cmd : UInt8) : Drive :=
  match d.phase with
  | .idle _ =>
    let h := place.handling d.transfers
    if cmd = cmdReadSectors then
      { d with
        transfers := d.transfers + 1
        phase := .wait h.latency
          (if h.accepted then .dataIn (loadWords (d.sectors d.lba) 256) else .idle true) }
    else if cmd = cmdWriteSectors then
      { d with
        transfers := d.transfers + 1
        phase := .wait h.latency (if h.accepted then .dataOut d.lba [] else .idle true) }
    else if cmd = cmdCacheFlush then
      { d with phase := .wait (place.handling (d.transfers - 1)).flush (.idle false) }
    else if cmd = cmdIdentify then
      { d with phase := .wait place.identifyLatency (.dataIn d.identity) }
    else { d with phase := .idle true }
  | _ => d

/-- A word read from the data port. -/
def readWord (d : Drive) : UInt16 × Drive :=
  match d.phase with
  | .dataIn [word] => (word, { d with phase := .idle false })
  | .dataIn (word :: words) => (word, { d with phase := .dataIn words })
  | _ => (0, d)

/-- A word written to the data port; the last one of a sector stores it. -/
def writeWord (d : Drive) (place : Placed) (word : UInt16) : Drive :=
  match d.phase with
  | .dataOut lba words =>
    if words.length + 1 = 256 then
      { d with
        sectors := Function.update d.sectors lba (storeWords (words ++ [word]) (d.sectors lba))
        phase := .wait (place.handling (d.transfers - 1)).settle (.idle false) }
    else { d with phase := .dataOut lba (words ++ [word]) }
  | _ => d

end Drive

/-- A port of the channel. -/
def Placed.port (place : Placed) (offset : Nat) : Nat :=
  (if place.secondary then 0x170 else 0x1F0) + offset

/-- The machine with one drive; where nothing is connected the bus floats. -/
def driveDevice (place : Placed) : Device Drive where
  inb d port :=
    if port = place.port 7 then
      if d.selected place then (d.status, d.tick) else (0, d)
    else if port = place.port 4 then (d.lbaMid, d)
    else if port = place.port 5 then (d.lbaHi, d)
    else (0xFF, d)
  inw d port := if port = place.port 0 then d.readWord else (0xFFFF, d)
  outb d port value :=
    if port = place.port 7 then
      if d.selected place then d.command place value else d
    else if port = place.port 6 then { d with driveHead := value }
    else if port = place.port 3 then { d with lbaLo := value }
    else if port = place.port 4 then { d with lbaMid := value }
    else if port = place.port 5 then { d with lbaHi := value }
    else d
  outw d port word := if port = place.port 0 then d.writeWord place word else d

end Ata

end HumanOS

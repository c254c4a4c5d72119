import HumanOS.Ata.Drive
import Mathlib.Tactic.IntervalCases

/-!
# The driver on a drive

The driver, on a drive that answers in time, is the disk the file system is written for: a call
moves the sector, or fails and changes nothing. Addresses have 28 bits.
-/
namespace HumanOS

open Lib

namespace Ata

variable {place : Placed} {a b : Ata Drive} {d : Drive} {n k lba : Nat} {phase next : DrivePhase}
variable {buf : Nat → UInt8} {words : List UInt16}

section Words

theorem word_low (lo hi : UInt8) : (lo.toUInt16 ||| (hi.toUInt16 <<< 8)).toUInt8 = lo := by
  apply UInt8.eq_of_toBitVec_eq
  simp

theorem word_high (lo hi : UInt8) :
    ((lo.toUInt16 ||| (hi.toUInt16 <<< 8)) >>> 8).toUInt8 = hi := by
  apply UInt8.eq_of_toBitVec_eq
  simp only [UInt16.toBitVec_toUInt8, UInt16.toBitVec_shiftRight, UInt16.toBitVec_or,
    UInt8.toBitVec_toUInt16, UInt16.toBitVec_shiftLeft]
  ext i hi
  simp [hi, show 8 + i < 16 by omega, show i < 16 by omega]

theorem loadWords_length : (loadWords buf n).length = n := by
  simp [loadWords]

/-- What is loaded as words and stored again are the same bytes. -/
theorem storeWords_loadWords {buf' : Nat → UInt8} (hk : k < 2 * n) :
    storeWords (loadWords buf n) buf' k = buf k := by
  have hlt : k / 2 < n := by omega
  simp only [storeWords, loadWords_length, if_pos hk]
  simp only [loadWords, List.getD_eq_getElem?_getD, List.getElem?_map, List.getElem?_range hlt,
    Option.map_some, Option.getD_some]
  split
  · rw [word_low, show 2 * (k / 2) = k by omega]
  · rw [word_high, show 2 * (k / 2) + 1 = k by omega]

end Words

section Registers

theorem headVal_bits (slave : Bool) (lba : Nat) :
    (headVal slave lba).toNat % 16 = lba / 2 ^ 24 % 16 ∧
      (headVal slave lba &&& 0x10 ≠ 0 ↔ slave = true) := by
  have hx : (lba >>> 24) &&& 0x0F = lba / 2 ^ 24 % 16 := by
    rw [Nat.shiftRight_eq_div_pow]
    exact Nat.and_two_pow_sub_one_eq_mod _ 4
  have hlt : lba / 2 ^ 24 % 16 < 16 := Nat.mod_lt _ (by decide)
  unfold headVal
  rw [hx]
  generalize lba / 2 ^ 24 % 16 = x at hlt
  interval_cases x <;> cases slave <;> decide

/-- The registers hold the low 28 bits of the address. -/
theorem lba_registers (h : d.driveHead = headVal place.slave lba) (hlo : d.lbaLo = UInt8.ofNat lba)
    (hmid : d.lbaMid = UInt8.ofNat (lba >>> 8)) (hhi : d.lbaHi = UInt8.ofNat (lba >>> 16)) :
    d.lba = lba % 2 ^ 28 := by
  simp only [Drive.lba, h, hlo, hmid, hhi, (headVal_bits place.slave lba).1, UInt8.toNat_ofNat',
    Nat.shiftRight_eq_div_pow]
  omega

end Registers

section Waits

/-- The drive has come to the end of its waiting. -/
def DrivePhase.Settled : DrivePhase → Prop
  | .busy _ _ => False
  | _ => True

theorem driveDevice_status (hsel : d.selected place = true) :
    (driveDevice place).inb d (place.port 7) = (d.status, d.tick) := by
  simp [driveDevice, hsel]

theorem tick_settled (h : d.phase.Settled) : d.tick = d := by
  unfold Drive.tick
  cases hp : d.phase with
  | busy left next => simp [hp, DrivePhase.Settled] at h
  | _ => rfl

/-- Waiting for a busy drive. -/
theorem poll_busy {stop : Nat → UInt8 → Option Bool} {t : Nat} (hsel : d.selected place = true)
    (hstop : ∀ left, stop left 0x80 = none) (hn : n ≤ t) :
    poll (driveDevice place) (place.port 7) stop t { d with phase := .wait n next } =
      poll (driveDevice place) (place.port 7) stop (t - n) { d with phase := next } := by
  have hwait := poll_wait (driveDevice place) (place.port 7) stop
    (n := t - n) (k := n) (f := fun j => { d with phase := .wait (n - j) next }) ?_
  · rw [Nat.sub_add_cancel hn, Nat.sub_self] at hwait
    exact hwait
  · intro j hj left
    obtain ⟨m, hm⟩ : ∃ m, n - j = m + 1 := ⟨n - j - 1, by omega⟩
    have hbusy := driveDevice_status (d := { d with phase := .busy m next }) hsel
    simp only [hm, DrivePhase.wait, hbusy]
    exact ⟨hstop left, by rw [show n - (j + 1) = m by omega]; rfl⟩

theorem bsyVerdict_settled (left : Nat) (h : d.phase.Settled) :
    bsyVerdict left d.status = some true := by
  unfold Drive.status bsyVerdict
  cases hp : d.phase with
  | idle err => cases err <;> decide
  | busy left next => simp [hp, DrivePhase.Settled] at h
  | dataIn words => exact if_pos (show (0x48 : UInt8) &&& statBsy = 0 by decide)
  | dataOut lba words => exact if_pos (show (0x48 : UInt8) &&& statBsy = 0 by decide)

end Waits

/-- The driver has found the drive. -/
structure Found (place : Placed) (a : Ata Drive) : Prop where
  present : a.diskPresent = true
  channel : a.useSecondary = place.secondary
  position : a.useSlave = place.slave

/-- The ports of the driver are those of the drive. -/
theorem channelPort_eq (h : a.useSecondary = place.secondary) (offset : Nat) :
    a.channelPort (0x1F0 + offset) (0x170 + offset) = place.port offset := by
  unfold channelPort Placed.port
  rw [h]
  split <;> rfl

section Driver

theorem ataWaitBsy_wait (n : Nat) (next : DrivePhase) (hch : a.useSecondary = place.secondary)
    (hsel : d.selected place = true) (hd : a.dev = { d with phase := .wait n next })
    (hn : n < timeout) (hnext : next.Settled) :
    a.ataWaitBsy (driveDevice place) = ({ a with dev := { d with phase := next } }, true) := by
  have hport : a.ataCommStatPort = place.port 7 := channelPort_eq hch 7
  have hsel' : ({ d with phase := next } : Drive).selected place = true := hsel
  obtain ⟨m, hm⟩ : ∃ m, timeout - n = m + 1 := ⟨timeout - n - 1, by omega⟩
  have hstop := bsyVerdict_settled (d := { d with phase := next }) m hnext
  simp only [ataWaitBsy, pollStatus, hport, hd]
  rw [poll_busy hsel (fun _ => rfl) hn.le, hm, poll_stop]
  · rw [driveDevice_status hsel', tick_settled (d := { d with phase := next }) hnext]
  · rw [driveDevice_status hsel']
    exact hstop

theorem port_inj {i j : Nat} : place.port i = place.port j ↔ i = j := by
  unfold Placed.port
  omega

/-- The drive with the registers of an address. -/
def Drive.addressed (d : Drive) (place : Placed) (lba : Nat) : Drive :=
  { d with
    driveHead := headVal place.slave lba
    lbaLo := UInt8.ofNat lba
    lbaMid := UInt8.ofNat (lba >>> 8)
    lbaHi := UInt8.ofNat (lba >>> 16) }

theorem addressed_selected (d : Drive) (place : Placed) (lba : Nat) :
    (d.addressed place lba).selected place = true := by
  have hbit := (headVal_bits place.slave lba).2
  cases hs : place.slave <;> simp_all [Drive.selected, Drive.addressed]

theorem addressed_lba (d : Drive) (place : Placed) (lba : Nat) :
    (d.addressed place lba).lba = lba % 2 ^ 28 := lba_registers rfl rfl rfl rfl

theorem ataCommand_drive (hch : a.useSecondary = place.secondary)
    (hpos : a.useSlave = place.slave) (lba : Nat) (cmd : UInt8) :
    a.ataCommand (driveDevice place) lba cmd =
      { a with dev := (a.dev.addressed place lba).command place cmd } := by
  -- the ports do not depend on the device
  have hunfold : a.ataCommand (driveDevice place) lba cmd = { a with
      dev := [(a.ataDriveHeadPort, headVal a.useSlave lba), (a.ataSeccountPort, 1),
        (a.ataLbaLoPort, UInt8.ofNat lba), (a.ataLbaMidPort, UInt8.ofNat (lba >>> 8)),
        (a.ataLbaHiPort, UInt8.ofNat (lba >>> 16)), (a.ataCommStatPort, cmd)].foldl
          (fun d out => (driveDevice place).outb d out.1 out.2) a.dev } := rfl
  have hsel := addressed_selected a.dev place lba
  rw [hunfold, ataDriveHeadPort, ataSeccountPort, ataLbaLoPort, ataLbaMidPort, ataLbaHiPort,
    ataCommStatPort, channelPort_eq hch 6, channelPort_eq hch 2, channelPort_eq hch 3,
    channelPort_eq hch 4, channelPort_eq hch 5, channelPort_eq hch 7, hpos]
  simp only [List.foldl_cons, List.foldl_nil, driveDevice, port_inj, Nat.reduceEqDiff, if_false,
    if_true]
  unfold Drive.addressed at hsel ⊢
  rw [if_pos hsel]

/-- The times of the drive are within those of the driver. -/
structure Placed.Prompt (place : Placed) : Prop where
  identify : place.identifyLatency < timeout
  latency : ∀ n, (place.handling n).latency < timeout
  settle : ∀ n, (place.handling n).settle < timeout
  flush : ∀ n, (place.handling n).flush < timeout

/-- Between two calls the drive is idle. -/
structure Ready (place : Placed) (a : Ata Drive) : Prop extends Found place a where
  selected : a.dev.selected place = true
  idle : ∃ err, a.dev.phase = .idle err

/-- The transfer the drive is asked for next. -/
def Placed.upcoming (place : Placed) (d : Drive) : Handling := place.handling d.transfers

/-- The phase in which the data of a transfer move. -/
def openPhase (d : Drive) (lba : Nat) (write : Bool) : DrivePhase :=
  if write then .dataOut (lba % 2 ^ 28) [] else .dataIn (loadWords (d.sectors (lba % 2 ^ 28)) 256)

theorem openPhase_settled (write : Bool) : (openPhase d lba write).Settled := by
  cases write <;> trivial

/-- The command of a transfer. -/
def transferCommand (write : Bool) : UInt8 := if write then cmdWriteSectors else cmdReadSectors

/-- The drive that was asked for a transfer, in that phase. -/
def Drive.asked (d : Drive) (place : Placed) (lba : Nat) (phase : DrivePhase) : Drive :=
  { d with
    driveHead := headVal place.slave lba
    lbaLo := UInt8.ofNat lba
    lbaMid := UInt8.ofNat (lba >>> 8)
    lbaHi := UInt8.ofNat (lba >>> 16)
    transfers := d.transfers + 1
    phase }

theorem asked_selected (d : Drive) (phase : DrivePhase) :
    (d.asked place lba phase).selected place = true :=
  addressed_selected d place lba

/-- Where the drive gets to with a transfer. -/
def answerPhase (place : Placed) (d : Drive) (lba : Nat) (write : Bool) : DrivePhase :=
  if (place.upcoming d).accepted then openPhase d lba write else .idle true

theorem answerPhase_settled (write : Bool) : (answerPhase place d lba write).Settled := by
  unfold answerPhase
  split
  · exact openPhase_settled write
  · trivial

/-- The drive takes the command. -/
theorem command_opens {err : Bool} (hidle : d.phase = .idle err) (write : Bool) :
    (d.addressed place lba).command place (transferCommand write) =
      d.asked place lba (.wait (place.upcoming d).latency (answerPhase place d lba write)) := by
  have hphase : (d.addressed place lba).phase = .idle err := hidle
  have hlba := addressed_lba d place lba
  cases write with
  | false =>
    simp only [Drive.command, hphase, hlba]
    exact if_pos rfl
  | true =>
    have hne : transferCommand true ≠ cmdReadSectors := by decide
    simp only [Drive.command, hphase, hlba, if_neg hne]
    exact if_pos rfl

/-- The drive shows whether the data can move. -/
theorem ataWaitDrq_answer (hch : a.useSecondary = place.secondary) {write : Bool}
    (hd : a.dev = d.asked place lba (answerPhase place d lba write)) :
    a.ataWaitDrq (driveDevice place) = (a, (place.upcoming d).accepted) := by
  have hport : a.ataCommStatPort = place.port 7 := channelPort_eq hch 7
  have hsel : a.dev.selected place = true := hd ▸ asked_selected _ _
  have htick : a.dev.tick = a.dev := by
    rw [hd]
    exact tick_settled (d := d.asked place lba _) (answerPhase_settled write)
  have hstatus := driveDevice_status hsel
  rw [htick] at hstatus
  simp only [ataWaitDrq, pollStatus, hport]
  cases haccept : (place.upcoming d).accepted with
  | true =>
    have hverdict : drqVerdict (timeout - 1) a.dev.status = some true := by
      rw [hd, answerPhase, if_pos haccept]
      cases write <;> exact if_pos (show (0x48 : UInt8) &&& statDrq ≠ 0 by decide)
    rw [show timeout = timeout - 1 + 1 from rfl, poll_stop (by rw [hstatus]; exact hverdict),
      hstatus]
  | false =>
    rw [poll_never fun left => ?_]
    rw [hstatus]
    refine ⟨?_, rfl⟩
    rw [hd, answerPhase, haccept]
    exact if_neg (show ¬ (0x41 : UInt8) &&& statDrq ≠ 0 by decide)

/-- Up to the data: the drive asks for them, or has refused. -/
theorem ataOpen_drive (hprompt : place.Prompt) (h : Ready place a) (lba : Nat) (write : Bool) :
    a.ataOpen (driveDevice place) lba (transferCommand write) =
      ({ a with dev := a.dev.asked place lba (answerPhase place a.dev lba write) },
        (place.upcoming a.dev).accepted) := by
  obtain ⟨err, hidle⟩ := h.idle
  have hpresent : ¬ a.diskPresent = false := by simp [h.present]
  have hfirst : a.ataWaitBsy (driveDevice place) = (a, true) := by
    rw [ataWaitBsy_wait 0 (.idle err) h.channel h.selected (by
      rw [DrivePhase.wait, ← hidle]) (by decide) trivial, ← hidle]
  have hcommand := ataCommand_drive h.channel h.position lba (transferCommand write)
  rw [command_opens hidle] at hcommand
  have hsecond : (a.ataCommand (driveDevice place) lba (transferCommand write)).ataWaitBsy
      (driveDevice place) =
        ({ a with dev := a.dev.asked place lba (answerPhase place a.dev lba write) }, true) := by
    rw [hcommand]
    exact ataWaitBsy_wait _ _ (a := { a with dev := a.dev.asked place lba _ })
      (d := a.dev.asked place lba (.idle err)) h.channel (asked_selected _ _) rfl
      (hprompt.latency a.dev.transfers) (answerPhase_settled write)
  have hthird := ataWaitDrq_answer (d := a.dev)
    (a := { a with dev := a.dev.asked place lba (answerPhase place a.dev lba write) }) h.channel rfl
  simp only [ataOpen, if_neg hpresent, hfirst, hsecond]
  exact hthird

/-- The words a drive has ready are the words that are read. -/
theorem readWords_drive (place : Placed) (hd : d.phase = .dataIn words) (hne : words ≠ []) :
    readWords (driveDevice place) (place.port 0) words.length d =
      ({ d with phase := .idle false }, words) := by
  induction words generalizing d with
  | nil => exact absurd rfl hne
  | cons word words ih =>
    cases words with
    | nil => simp [readWords, driveDevice, Drive.readWord, hd]
    | cons word' words =>
      have hstep : (driveDevice place).inw d (place.port 0) =
          (word, { d with phase := .dataIn (word' :: words) }) := by
        simp [driveDevice, Drive.readWord, hd]
      rw [List.length_cons, readWords, hstep]
      simp only
      rw [ih rfl (by simp)]

/-- The words written to a drive that wants them, short of a whole sector. -/
theorem writeWords_part (place : Placed) {done : List UInt16} (hd : d.phase = .dataOut lba done)
    (hlen : done.length + words.length < 256) :
    writeWords (driveDevice place) (place.port 0) words d =
      { d with phase := .dataOut lba (done ++ words) } := by
  induction words generalizing d done with
  | nil => simp [writeWords, ← hd]
  | cons word words ih =>
    simp only [List.length_cons] at hlen
    have hstep : (driveDevice place).outw d (place.port 0) word =
        { d with phase := .dataOut lba (done ++ [word]) } := by
      simp [driveDevice, Drive.writeWord, hd, show done.length ≠ 255 by omega]
    have hrest := ih (d := { d with phase := .dataOut lba (done ++ [word]) }) rfl
      (by simp; omega)
    simp only [writeWords, List.foldl_cons, hstep] at hrest ⊢
    rw [hrest]
    simp

/-- A whole sector of words is stored. -/
theorem writeWords_drive (place : Placed) (hd : d.phase = .dataOut lba [])
    (hlen : words.length = 256) :
    writeWords (driveDevice place) (place.port 0) words d =
      { d with
        sectors := Function.update d.sectors lba (storeWords words (d.sectors lba))
        phase := .wait (place.handling (d.transfers - 1)).settle (.idle false) } := by
  obtain ⟨first, last, rfl⟩ : ∃ first last, words = first ++ [last] :=
    ⟨words.dropLast, words.getLast (by rintro rfl; simp at hlen),
      (List.dropLast_concat_getLast _).symm⟩
  have hfirst : first.length = 255 := by simpa using hlen
  have hpart := writeWords_part place hd (show [].length + first.length < 256 by simp [hfirst])
  simp only [writeWords, List.foldl_append, List.foldl_cons, List.foldl_nil] at hpart ⊢
  rw [hpart]
  simp [driveDevice, Drive.writeWord, hfirst]

/-- After the data the drive comes to rest, whether it takes the flush or is still at work. -/
theorem flush_settles {m : Nat} (hprompt : place.Prompt) (hch : a.useSecondary = place.secondary)
    (hsel : d.selected place = true) (hd : a.dev = { d with phase := .wait m (.idle false) })
    (hm : m < timeout) :
    ((a.outb (driveDevice place) a.ataCommStatPort cmdCacheFlush).ataWaitBsy
      (driveDevice place)).1 = { a with dev := { d with phase := .idle false } } := by
  have hport : a.ataCommStatPort = place.port 7 := channelPort_eq hch 7
  have hsel' : a.dev.selected place = true := hd ▸ hsel
  have hout : (driveDevice place).outb a.dev (place.port 7) cmdCacheFlush =
      a.dev.command place cmdCacheFlush := by
    simp [driveDevice, hsel']
  cases m with
  | zero =>
    -- the drive is done already and takes the flush
    have hflush : a.dev.command place cmdCacheFlush =
        { d with phase := .wait (place.handling (d.transfers - 1)).flush (.idle false) } := by
      rw [hd]
      rfl
    rw [ataWaitBsy_wait (a := a.outb (driveDevice place) a.ataCommStatPort cmdCacheFlush) (d := d)
      (place.handling (d.transfers - 1)).flush (.idle false) hch hsel
      (by rw [outb, hport, hout, hflush]) (hprompt.flush _) trivial]
    rfl
  | succ m =>
    have hbusy : a.dev.command place cmdCacheFlush =
        { d with phase := .wait (m + 1) (.idle false) } := by
      rw [hd]
      rfl
    rw [ataWaitBsy_wait (a := a.outb (driveDevice place) a.ataCommStatPort cmdCacheFlush) (d := d)
      (m + 1) (.idle false) hch hsel (by rw [outb, hport, hout, hbusy]) hm trivial]
    rfl

/-- A read on a ready drive. -/
theorem ataReadSector_drive (hprompt : place.Prompt) (h : Ready place a) (lba : Nat)
    (buf : Nat → UInt8) :
    a.ataReadSector (driveDevice place) lba (some buf) =
      if (place.upcoming a.dev).accepted then
        ({ a with dev := a.dev.asked place lba (.idle false) },
          some (storeWords (loadWords (a.dev.sectors (lba % 2 ^ 28)) 256) buf), 0)
      else ({ a with dev := a.dev.asked place lba (.idle true) }, some buf, -1) := by
  have hopen := ataOpen_drive hprompt h lba false
  rw [show transferCommand false = cmdReadSectors from rfl] at hopen
  simp only [ataReadSector, hopen]
  cases haccept : (place.upcoming a.dev).accepted with
  | false => simp only [answerPhase, haccept, Bool.false_eq_true, if_false]
  | true =>
    have hport : ∀ x, ({ a with dev := x } : Ata Drive).ataDataPort = place.port 0 :=
      fun _ => channelPort_eq h.channel 0
    have hwords := readWords_drive place
      (d := a.dev.asked place lba (openPhase a.dev lba false))
      rfl
      (List.ne_nil_of_length_eq_add_one (n := 255) loadWords_length)
    rw [loadWords_length] at hwords
    simp only [answerPhase, haccept, if_true, readData, hport, hwords]
    rfl

/-- A write on a ready drive. -/
theorem ataWriteSector_drive (hprompt : place.Prompt) (h : Ready place a) (lba : Nat)
    (buf : Nat → UInt8) :
    a.ataWriteSector (driveDevice place) lba (some buf) =
      if (place.upcoming a.dev).accepted then
        ({ a with dev := { a.dev.asked place lba (.idle false) with
            sectors := Function.update a.dev.sectors (lba % 2 ^ 28)
              (storeWords (loadWords buf 256) (a.dev.sectors (lba % 2 ^ 28))) } }, 0)
      else ({ a with dev := a.dev.asked place lba (.idle true) }, -1) := by
  have hopen := ataOpen_drive hprompt h lba true
  rw [show transferCommand true = cmdWriteSectors from rfl] at hopen
  simp only [ataWriteSector, hopen]
  cases haccept : (place.upcoming a.dev).accepted with
  | false => simp only [answerPhase, haccept, Bool.false_eq_true, if_false]
  | true =>
    have hwords := writeWords_drive place
      (d := a.dev.asked place lba (openPhase a.dev lba true)) rfl
      (show (loadWords buf 256).length = 256 from loadWords_length)
    have hport : ∀ x, ({ a with dev := x } : Ata Drive).ataDataPort = place.port 0 :=
      fun _ => channelPort_eq h.channel 0
    simp only [answerPhase, haccept, if_true, writeData, hport, hwords]
    refine congrArg (·, 0) (flush_settles hprompt (a := { a with dev := _ })
      (d := { a.dev.asked place lba (.idle false) with
        sectors := Function.update a.dev.sectors (lba % 2 ^ 28)
          (storeWords (loadWords buf 256) (a.dev.sectors (lba % 2 ^ 28))) })
      h.channel (asked_selected a.dev (.idle false)) rfl
      (hprompt.settle a.dev.transfers))

end Driver

section Simulation

/-- A call of the file system to the driver, with the buffer it passes. -/
inductive SectorCall where
  | read (lba : Nat) (buffer : Nat → UInt8)
  | write (lba : Nat) (buffer : Nat → UInt8)

/-- The call to the sector that 28 address bits name. -/
def SectorCall.wrapped : SectorCall → SectorCall
  | .read lba buffer => .read (lba % 2 ^ 28) buffer
  | .write lba buffer => .write (lba % 2 ^ 28) buffer

/-- The bytes of a sector buffer. -/
def sectorBytes (buffer : Nat → UInt8) : List UInt8 := (List.range 512).map buffer

theorem sectorBytes_congr {buf' : Nat → UInt8} (h : ∀ k < 512, buf k = buf' k) :
    sectorBytes buf = sectorBytes buf' :=
  List.map_congr_left fun k hk => h k (List.mem_range.mp hk)

/-- A call of the driver: whether it returned 0, and the buffer a read leaves. -/
def driverCall {σ : Type*} (D : Device σ) (a : Ata σ) :
    SectorCall → Ata σ × Bool × List UInt8
  | .read lba buffer =>
    let out := a.ataReadSector D lba (some buffer)
    (out.1, out.2.2 = 0, sectorBytes (out.2.1.getD buffer))
  | .write lba buffer =>
    let out := a.ataWriteSector D lba (some buffer)
    (out.1, out.2 = 0, [])

/-- The same call on the disk of the file system. -/
def diskCall (ok : Nat → Bool) (v : Vfs) : SectorCall → Vfs × Bool × List UInt8
  | .read lba buffer =>
    let out := HumanOS.ataReadSector ok v lba buffer
    (out.1, out.2.2, sectorBytes out.2.1)
  | .write lba buffer =>
    let out := HumanOS.ataWriteSector ok v lba buffer
    (out.1, out.2, [])

/-- One call after the other, with what each of them returned. -/
def runCalls {σ ρ : Type*} (call : σ → SectorCall → σ × ρ) (s : σ) :
    List SectorCall → σ × List ρ
  | [] => (s, [])
  | c :: cs =>
    let out := runCalls call (call s c).1 cs
    (out.1, (call s c).2 :: out.2)

/-- The disk of the file system is the one in the drive. -/
structure Mirrors (place : Placed) (a : Ata Drive) (v : Vfs) : Prop extends Ready place a where
  calls : a.dev.transfers = v.calls
  sectors : ∀ lba, ∀ k < 512, a.dev.sectors lba k = v.disk lba k

/-- Which transfers the drive takes. -/
def Placed.takes (place : Placed) (n : Nat) : Bool := (place.handling n).accepted

variable {v : Vfs}

theorem Mirrors.asked {v' : Vfs} {err : Bool} (h : Mirrors place a v)
    (hcalls : v'.calls = v.calls + 1) (hdisk : v'.disk = v.disk) :
    Mirrors place { a with dev := a.dev.asked place lba (.idle err) } v' where
  present := h.present
  channel := h.channel
  position := h.position
  selected := asked_selected _ _
  idle := ⟨err, rfl⟩
  calls := by rw [hcalls, ← h.calls]; rfl
  sectors := by rw [hdisk]; exact h.sectors

/-- One call. -/
theorem Mirrors.call (hprompt : place.Prompt) (h : Mirrors place a v) (c : SectorCall) :
    Mirrors place (driverCall (driveDevice place) a c).1 (diskCall place.takes v c.wrapped).1 ∧
      (driverCall (driveDevice place) a c).2 = (diskCall place.takes v c.wrapped).2 := by
  have htakes : place.takes v.calls = (place.upcoming a.dev).accepted := by
    rw [Placed.takes, Placed.upcoming, h.calls]
  cases c with
  | read lba buf =>
    simp only [driverCall, diskCall, SectorCall.wrapped, ataReadSector_drive hprompt h.toReady,
      HumanOS.ataReadSector, htakes]
    cases (place.upcoming a.dev).accepted with
    | false => exact ⟨h.asked rfl rfl, rfl⟩
    | true =>
      refine ⟨h.asked rfl rfl, ?_⟩
      have hbytes : ∀ k < 512, storeWords (loadWords (a.dev.sectors (lba % 2 ^ 28)) 256) buf k =
          v.disk (lba % 2 ^ 28) k := by
        intro k hk
        rw [storeWords_loadWords hk]
        exact h.sectors _ k hk
      simp only [if_true, Option.getD_some, sectorBytes_congr hbytes, decide_true]
  | write lba buf =>
    simp only [driverCall, diskCall, SectorCall.wrapped, ataWriteSector_drive hprompt h.toReady,
      HumanOS.ataWriteSector, htakes]
    cases (place.upcoming a.dev).accepted with
    | false => exact ⟨h.asked rfl rfl, rfl⟩
    | true =>
      simp only [if_true]
      refine ⟨⟨⟨⟨h.present, h.channel, h.position⟩,
        asked_selected a.dev (.idle false), false, rfl⟩,
        congrArg (· + 1) h.calls, fun l k hk => ?_⟩, rfl⟩
      by_cases hl : l = lba % 2 ^ 28
      · subst hl
        simp only [Function.update_self]
        exact storeWords_loadWords hk
      · simp only [Function.update_of_ne hl]
        exact h.sectors l k hk

/-- Any sequence of calls. -/
theorem Mirrors.run (hprompt : place.Prompt) (h : Mirrors place a v) (cs : List SectorCall) :
    Mirrors place (runCalls (driverCall (driveDevice place)) a cs).1
        (runCalls (diskCall place.takes) v (cs.map SectorCall.wrapped)).1 ∧
      (runCalls (driverCall (driveDevice place)) a cs).2 =
        (runCalls (diskCall place.takes) v (cs.map SectorCall.wrapped)).2 := by
  induction cs generalizing a v with
  | nil => exact ⟨h, rfl⟩
  | cons c cs ih =>
    obtain ⟨hnext, hresult⟩ := h.call hprompt c
    obtain ⟨hlast, hresults⟩ := ih hnext
    simp only [List.map_cons, runCalls]
    exact ⟨hlast, by rw [hresult, hresults]⟩

end Simulation

end Ata

end HumanOS

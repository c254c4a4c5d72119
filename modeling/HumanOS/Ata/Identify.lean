import HumanOS.Ata.Refinement

/-!
# Finding the drive

`ata_init` probes the four places a drive can sit at, one after the other, and stays with the
first that answers.
-/
namespace HumanOS

open Lib

namespace Ata

variable {place : Placed} {a : Ata Drive} {d : Drive} {v : Vfs} {bus drive : Bool}

/-- The ports of the other channel are not those of the drive. -/
theorem foreign_port (hbus : a.useSecondary ≠ place.secondary) {i j : Nat} (hi : i < 8)
    (hj : j < 8) : a.channelPort (0x1F0 + i) (0x170 + i) ≠ place.port j := by
  unfold channelPort Placed.port
  cases hs : a.useSecondary <;> cases hp : place.secondary <;> simp_all <;> omega

theorem foreign_inb (hbus : a.useSecondary ≠ place.secondary) {i : Nat} (hi : i < 8) :
    (driveDevice place).inb d (a.channelPort (0x1F0 + i) (0x170 + i)) = (0xFF, d) := by
  simp [driveDevice, foreign_port hbus hi]

theorem foreign_outb (hbus : a.useSecondary ≠ place.secondary) {i : Nat} (hi : i < 8)
    (value : UInt8) :
    (driveDevice place).outb d (a.channelPort (0x1F0 + i) (0x170 + i)) value = d := by
  simp [driveDevice, foreign_port hbus hi]

/-- What `sendIdentify` does to a device. -/
theorem sendIdentify_dev {σ : Type*} (D : Device σ) (a : Ata σ) (bus drive : Bool) :
    let b := { a with useSecondary := bus, useSlave := drive }
    a.sendIdentify D bus drive = { b with
      dev := [(b.ataSeccountPort, 0), (b.ataLbaLoPort, 0), (b.ataLbaMidPort, 0),
          (b.ataLbaHiPort, 0), (b.ataCommStatPort, cmdIdentify)].foldl
        (fun d (out : Nat × UInt8) => D.outb d out.1 out.2)
        ((List.range 4).foldl (fun d _ => (D.inb d b.ataCommStatPort).2)
          (D.outb b.dev b.ataDriveHeadPort (if drive then 0xB0 else 0xA0))) } := rfl

/-- Nothing answers on the other channel. -/
theorem probe_elsewhere (hbus : bus ≠ place.secondary) (drive : Bool) :
    a.ataProbeDrive (driveDevice place) bus drive =
      ({ a with useSecondary := bus, useSlave := drive }, false) := by
  have hin : ∀ i < 8, ∀ d, (driveDevice place).inb d
      (({ a with useSecondary := bus, useSlave := drive } : Ata Drive).channelPort (0x1F0 + i)
        (0x170 + i)) = (0xFF, d) := fun i hi d => foreign_inb hbus hi
  have hout : ∀ i < 8, ∀ d value, (driveDevice place).outb d
      (({ a with useSecondary := bus, useSlave := drive } : Ata Drive).channelPort (0x1F0 + i)
        (0x170 + i)) value = d := fun i hi d value => foreign_outb hbus hi value
  have hsend : a.sendIdentify (driveDevice place) bus drive =
      { a with useSecondary := bus, useSlave := drive } := by
    rw [sendIdentify_dev]
    simp only [List.foldl_cons, List.foldl_nil, ataSeccountPort, ataLbaLoPort, ataLbaMidPort,
      ataLbaHiPort, ataCommStatPort, ataDriveHeadPort]
    rw [hout 6 (by decide), hout 2 (by decide), hout 3 (by decide), hout 4 (by decide),
      hout 5 (by decide), hout 7 (by decide), List.foldl_fixed']
    intro _
    rw [hin 7 (by decide)]
  simp only [ataProbeDrive, hsend, inb, ataCommStatPort, hin 7 (by decide)]
  exact if_pos (.inr trivial)

/-- The drive after the registers for `IDENTIFY` were written. -/
def Drive.probed (d : Drive) (drive : Bool) : Drive :=
  { d with driveHead := if drive then 0xB0 else 0xA0, lbaLo := 0, lbaMid := 0, lbaHi := 0 }

theorem probed_selected (place : Placed) (d : Drive) (drive : Bool) :
    (d.probed drive).selected place = decide (drive = place.slave) := by
  cases drive <;> cases hs : place.slave <;> simp [Drive.selected, Drive.probed, hs] <;> decide

/-- An idle drive shows the same status however often it is read. -/
theorem inb_idle {err : Bool} (hidle : d.phase = .idle err) :
    ((driveDevice place).inb d (place.port 7)).2 = d := by
  have htick : d.tick = d := tick_settled (by rw [hidle]; trivial)
  simp only [driveDevice, if_true]
  split
  · exact htick
  · rfl

theorem command_identify {err : Bool} (hidle : d.phase = .idle err) :
    d.command place cmdIdentify =
      { d with phase := .wait place.identifyLatency (.dataIn d.identity) } := by
  simp only [Drive.command, hidle]
  rfl

/-- `IDENTIFY` on the channel of the drive. -/
theorem sendIdentify_drive {err : Bool} (hidle : a.dev.phase = .idle err) (drive : Bool) :
    a.sendIdentify (driveDevice place) place.secondary drive =
      { a with
        useSecondary := place.secondary
        useSlave := drive
        dev := if drive = place.slave then
            { a.dev.probed drive with
              phase := .wait place.identifyLatency (.dataIn a.dev.identity) }
          else a.dev.probed drive } := by
  have hport : ∀ i, ({ a with useSecondary := place.secondary, useSlave := drive } :
      Ata Drive).channelPort (0x1F0 + i) (0x170 + i) = place.port i := fun i => channelPort_eq rfl i
  have hsel := probed_selected place a.dev drive
  rw [sendIdentify_dev]
  simp only [List.foldl_cons, List.foldl_nil, ataSeccountPort, ataLbaLoPort, ataLbaMidPort,
    ataLbaHiPort, ataCommStatPort, ataDriveHeadPort]
  rw [hport 6, hport 2, hport 3, hport 4, hport 5, hport 7,
    show (driveDevice place).outb a.dev (place.port 6) (if drive then 0xB0 else 0xA0) =
      { a.dev with driveHead := if drive then 0xB0 else 0xA0 } by
        simp [driveDevice, port_inj],
    List.foldl_fixed' fun _ =>
      inb_idle (d := { a.dev with driveHead := if drive then 0xB0 else 0xA0 }) hidle]
  simp only [driveDevice, port_inj, Nat.reduceEqDiff, if_false, if_true]
  simp only [Drive.probed] at hsel ⊢
  by_cases hdrive : drive = place.slave
  · rw [if_pos hdrive, if_pos (hsel.trans (decide_eq_true hdrive))]
    exact congrArg (fun dev => { a with useSecondary := place.secondary, useSlave := drive, dev })
      (command_identify (d := a.dev.probed drive) hidle)
  · rw [if_neg hdrive, if_neg (by rw [hsel]; simp [hdrive])]

/-- The other position of the channel of the drive is empty. -/
theorem probe_other {err : Bool} (hidle : a.dev.phase = .idle err)
    (hdrive : drive ≠ place.slave) :
    a.ataProbeDrive (driveDevice place) place.secondary drive =
      ({ a with
        useSecondary := place.secondary
        useSlave := drive
        dev := a.dev.probed drive }, false) := by
  have hport : ∀ x, ({ a with
      useSecondary := place.secondary, useSlave := drive, dev := x } : Ata Drive).ataCommStatPort =
        place.port 7 := fun _ => channelPort_eq rfl 7
  have hsel := probed_selected place a.dev drive
  simp only [ataProbeDrive, sendIdentify_drive hidle, hdrive, if_false, inb, hport]
  simp only [driveDevice, if_true, hsel, hdrive, decide_false, Bool.false_eq_true, if_false]
  exact if_pos (.inl trivial)

/-- The status of a drive that works on `IDENTIFY` or has its answer. -/
theorem probed_status (n : Nat) (words : List UInt16) :
    ({ d with phase := .wait n (.dataIn words) } : Drive).status ≠ 0 ∧
    ({ d with phase := .wait n (.dataIn words) } : Drive).status ≠ 0xFF := by
  cases n <;> simp [DrivePhase.wait, Drive.status]

theorem tick_wait (n : Nat) (hnext : next.Settled) :
    ({ d with phase := .wait n next } : Drive).tick = { d with phase := .wait (n - 1) next } := by
  cases n with
  | zero => exact tick_settled (d := { d with phase := next }) hnext
  | succ n => rfl

/-- The answer to `IDENTIFY` is there at the first look. -/
theorem identify_ready (hch : a.useSecondary = place.secondary) (hsel : a.dev.selected place = true)
    (hd : a.dev.phase = .dataIn words) :
    a.pollStatus (driveDevice place) identifyVerdict = (a, true) := by
  have hport : a.ataCommStatPort = place.port 7 := channelPort_eq hch 7
  have htick : a.dev.tick = a.dev := tick_settled (by rw [hd]; trivial)
  have hstatus : a.dev.status = 0x48 := by rw [Drive.status, hd]
  simp only [pollStatus, hport]
  rw [show timeout = timeout - 1 + 1 from rfl, poll_stop (show _ = some true from ?_),
    driveDevice_status hsel, htick]
  rw [driveDevice_status hsel, hstatus]
  exact show identifyVerdict (timeout - 1) 0x48 = some true by decide

/-- The driver reads the answer. -/
theorem takeIdentity_drive (hch : a.useSecondary = place.secondary)
    (hd : a.dev.phase = .dataIn words) (hlen : words.length = 256) :
    a.takeIdentity (driveDevice place) =
      { a with
        diskModel := modelBytes words
        diskSectorCount := sectorCount words
        diskPresent := true
        dev := { a.dev with phase := .idle false } } := by
  have hport : a.ataDataPort = place.port 0 := channelPort_eq hch 0
  have hread := readWords_drive place hd
    (List.ne_nil_of_length_eq_add_one (n := 255) hlen)
  rw [hlen] at hread
  simp only [takeIdentity, readData, hport, hread]

/-- The drive answers where it is. -/
theorem probe_here {err : Bool} (hprompt : place.Prompt) (hidle : a.dev.phase = .idle err)
    (hlen : a.dev.identity.length = 256) :
    a.ataProbeDrive (driveDevice place) place.secondary place.slave =
      ({ a with
        useSecondary := place.secondary
        useSlave := place.slave
        diskModel := modelBytes a.dev.identity
        diskSectorCount := sectorCount a.dev.identity
        diskPresent := true
        dev := { a.dev.probed place.slave with phase := .idle false } }, true) := by
  have hport : ∀ x, ({ a with
      useSecondary := place.secondary, useSlave := place.slave, dev := x } :
        Ata Drive).ataCommStatPort = place.port 7 := fun _ => channelPort_eq rfl 7
  have hsel : ∀ phase, ({ a.dev.probed place.slave with phase := phase } : Drive).selected place =
      true := by
    intro phase
    exact (probed_selected place a.dev place.slave).trans (decide_eq_true rfl)
  have hstatus := probed_status (d := a.dev.probed place.slave) place.identifyLatency
    a.dev.identity
  have hwait := ataWaitBsy_wait (place.identifyLatency - 1) (.dataIn a.dev.identity)
    (d := a.dev.probed place.slave) (a := { a with
      useSecondary := place.secondary
      useSlave := place.slave
      dev := { a.dev.probed place.slave with
        phase := .wait (place.identifyLatency - 1) (.dataIn a.dev.identity) } })
    rfl (hsel _) rfl (by have := hprompt.identify; omega) trivial
  simp only [ataProbeDrive, sendIdentify_drive hidle, if_true, inb, hport,
    driveDevice_status (hsel _), tick_wait _ (show (DrivePhase.dataIn _).Settled from trivial),
    hstatus.1, hstatus.2, or_self, if_false, hwait]
  have hmid : ∀ x, ({ a with
      useSecondary := place.secondary, useSlave := place.slave, dev := x } :
        Ata Drive).ataLbaMidPort = place.port 4 := fun _ => channelPort_eq rfl 4
  have hhi : ∀ x, ({ a with
      useSecondary := place.secondary, useSlave := place.slave, dev := x } :
        Ata Drive).ataLbaHiPort = place.port 5 := fun _ => channelPort_eq rfl 5
  have hzero : ∀ phase, ∀ i ∈ [4, 5], (driveDevice place).inb
      { a.dev.probed place.slave with phase := phase } (place.port i) =
        (0, { a.dev.probed place.slave with phase := phase }) := by
    intro phase i hi
    simp only [List.mem_cons, List.not_mem_nil, or_false] at hi
    obtain rfl | rfl := hi <;> simp [driveDevice, port_inj, Drive.probed]
  simp only [hmid, hhi, hzero _ 4 (by decide), hzero _ 5 (by decide), ne_eq, not_true_eq_false,
    if_false]
  rw [identify_ready rfl (hsel _) rfl]
  exact congrArg (·, true) (takeIdentity_drive rfl rfl hlen)

/-- What finding the drive comes to. -/
structure Identified (place : Placed) (a b : Ata Drive) : Prop extends Ready place b where
  model : b.diskModel = modelBytes a.dev.identity
  count : b.diskSectorCount = sectorCount a.dev.identity
  sectors : b.dev.sectors = a.dev.sectors
  transfers : b.dev.transfers = a.dev.transfers

/-- The drive is found wherever it stands in the order of the probes. -/
theorem identifyLoop_drive {err : Bool} {l : List (Bool × Bool)} (hprompt : place.Prompt)
    (hidle : a.dev.phase = .idle err) (hlen : a.dev.identity.length = 256)
    (hmem : (place.secondary, place.slave) ∈ l) :
    ∃ b, a.identifyLoop (driveDevice place) l = (b, true) ∧ Identified place a b := by
  induction l generalizing a with
  | nil => simp at hmem
  | cons probe l ih =>
    obtain ⟨bus, drive⟩ := probe
    rw [identifyLoop]
    by_cases hbus : bus = place.secondary
    · subst hbus
      by_cases hdrive : drive = place.slave
      · subst hdrive
        have hsel := probed_selected place a.dev place.slave
        rw [probe_here hprompt hidle hlen]
        exact ⟨_, rfl, ⟨⟨⟨rfl, rfl, rfl⟩, hsel.trans (decide_eq_true rfl), false, rfl⟩,
          rfl, rfl, rfl, rfl⟩⟩
      · obtain ⟨b, hloop, hb⟩ := ih (a := { a with
          useSecondary := place.secondary
          useSlave := drive
          dev := a.dev.probed drive }) hidle hlen (by simpa [Ne.symm hdrive] using hmem)
        rw [probe_other hidle hdrive]
        exact ⟨b, hloop, ⟨hb.toReady, hb.model, hb.count, hb.sectors, hb.transfers⟩⟩
    · obtain ⟨b, hloop, hb⟩ := ih (a := { a with
        useSecondary := bus
        useSlave := drive }) hidle hlen (by simpa [Ne.symm hbus] using hmem)
      rw [probe_elsewhere hbus]
      exact ⟨b, hloop, ⟨hb.toReady, hb.model, hb.count, hb.sectors, hb.transfers⟩⟩

theorem ataInit_drive {err : Bool} (hprompt : place.Prompt) (hidle : a.dev.phase = .idle err)
    (hlen : a.dev.identity.length = 256) : Identified place a (a.ataInit (driveDevice place)) := by
  have hmem : (place.secondary, place.slave) ∈
      [(false, false), (false, true), (true, false), (true, true)] := by
    cases place.secondary <;> cases place.slave <;> simp
  obtain ⟨b, hloop, hb⟩ := identifyLoop_drive hprompt hidle hlen hmem
  rw [ataInit, ataIdentify, hloop]
  exact hb

/-- A drive on the secondary channel that refuses every third transfer. -/
def slowPlace : Placed where
  secondary := true
  slave := true
  identifyLatency := 3
  handling n := ⟨n % 5, n % 3 ≠ 2, 1, 4⟩

/-- The driver before `ata_init`, and an empty disk. -/
def coldDriver : Ata Drive where
  dev := ⟨0, 0, 0, 0, .idle false, fun _ _ => 0, List.replicate 256 0, 0⟩
  diskSectorCount := 0
  diskModel := []
  diskPresent := false
  useSecondary := false
  useSlave := false

end Ata

end HumanOS

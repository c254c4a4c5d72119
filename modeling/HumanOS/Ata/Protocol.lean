import HumanOS.Ata.Model

/-!
# What the driver does at the ports

Whatever the device answers, a sector call polls the status port of its channel for so long,
addresses the sector, and moves the 256 words or gives up before the first of them.
-/
namespace HumanOS

open Lib

namespace Ata

variable {σ : Type*} {D : Device σ} {a b c : Ata (σ × List Access)} {xs ys : List Access}
variable {verdict : Nat → UInt8 → Option Bool} {buf : Nat → UInt8} {lba : Nat}

/-- From `a` to `b` the driver made these accesses and changed none of its statics. -/
structure Did (a : Ata (σ × List Access)) (accesses : List Access) (b : Ata (σ × List Access)) :
    Prop where
  statics : b = { a with dev := b.dev }
  log : b.dev.2 = a.dev.2 ++ accesses

theorem Did.refl : Did a [] a := ⟨rfl, by simp⟩

theorem Did.trans (hab : Did a xs b) (hbc : Did b ys c) : Did a (xs ++ ys) c := by
  refine ⟨?_, by rw [hbc.log, hab.log, List.append_assoc]⟩
  rw [hbc.statics, hab.statics]

theorem Did.channelPort (h : Did a xs b) (primary secondary : Nat) :
    b.channelPort primary secondary = a.channelPort primary secondary := by
  rw [h.statics]
  rfl

theorem Did.useSlave (h : Did a xs b) : b.useSlave = a.useSlave := by
  rw [h.statics]

/-- At most `n` reads of the status port. -/
def Polls (a : Ata σ) (n : Nat) (accesses : List Access) : Prop :=
  ∃ answers : List UInt8, answers.length ≤ n ∧
    accesses = answers.map (Access.inb a.ataCommStatPort)

theorem Polls.length_le {n : Nat} (h : Polls a n xs) : xs.length ≤ n := by
  obtain ⟨answers, hle, rfl⟩ := h
  simpa using hle

theorem Polls.append {m n : Nat} (h : Polls a m xs) (h' : Polls a n ys) :
    Polls a (m + n) (xs ++ ys) := by
  obtain ⟨answers, hle, rfl⟩ := h
  obtain ⟨answers', hle', rfl⟩ := h'
  exact ⟨answers ++ answers', by simp; omega, by simp⟩

theorem Polls.mono {m n : Nat} (h : Polls a m xs) (hle : m ≤ n) : Polls a n xs := by
  obtain ⟨answers, hlen, rfl⟩ := h
  exact ⟨answers, Nat.le_trans hlen hle, rfl⟩

theorem Polls.of_did {n : Nat} (hab : Did a xs b) (h : Polls b n ys) : Polls a n ys := by
  unfold Polls ataCommStatPort at h ⊢
  rwa [hab.channelPort] at h

theorem pollStatus_did (D : Device σ) (a : Ata (σ × List Access))
    (verdict : Nat → UInt8 → Option Bool) :
    ∃ xs, Polls a timeout xs ∧ Did a xs (a.pollStatus D.traced verdict).1 := by
  obtain ⟨answers, hle, hlog⟩ := poll_traced D a.ataCommStatPort verdict
    (n := timeout) a.dev
  exact ⟨_, ⟨answers, hle, rfl⟩, rfl, hlog⟩

theorem outb_did (a : Ata (σ × List Access)) (port : Nat) (value : UInt8) :
    Did a [.outb port value] (a.outb D.traced port value) := ⟨rfl, rfl⟩

/-- The accesses that address a sector and send a command. -/
def commandAccesses (a : Ata σ) (lba : Nat) (command : UInt8) : List Access :=
  [.outb a.ataDriveHeadPort (headVal a.useSlave lba), .outb a.ataSeccountPort 1,
    .outb a.ataLbaLoPort (UInt8.ofNat lba), .outb a.ataLbaMidPort (UInt8.ofNat (lba >>> 8)),
    .outb a.ataLbaHiPort (UInt8.ofNat (lba >>> 16)), .outb a.ataCommStatPort command]

theorem ataCommand_did (a : Ata (σ × List Access)) (lba : Nat) (command : UInt8) :
    Did a (commandAccesses a lba command) (a.ataCommand D.traced lba command) := by
  refine ⟨rfl, ?_⟩
  simp only [ataCommand, outb, Device.traced, List.append_assoc, List.cons_append, List.nil_append]
  rfl

theorem commandAccesses_did (hab : Did a xs b) (lba : Nat) (command : UInt8) :
    commandAccesses b lba command = commandAccesses a lba command := by
  simp only [commandAccesses, ataDriveHeadPort, ataSeccountPort, ataLbaLoPort, ataLbaMidPort,
    ataLbaHiPort, ataCommStatPort, hab.channelPort, hab.useSlave]

theorem readData_did (a : Ata (σ × List Access)) :
    Did a ((a.readData D.traced).2.map (Access.inw a.ataDataPort)) (a.readData D.traced).1 := by
  have hlog := readWords_traced D a.ataDataPort (n := 256) a.dev
  simp only [readData]
  generalize readWords D.traced a.ataDataPort 256 a.dev = out at hlog ⊢
  exact ⟨rfl, hlog⟩

theorem writeData_did (a : Ata (σ × List Access)) (words : List UInt16) :
    Did a (words.map (Access.outw a.ataDataPort)) (a.writeData D.traced words) :=
  ⟨rfl, writeWords_traced words a.dev⟩

/-- The drive never left its wait, or is waiting for the data of a command. -/
inductive Opened (a : Ata σ) (lba : Nat) (command : UInt8) : List Access → Bool → Prop
  | absent : a.diskPresent = false → Opened a lba command [] false
  | busy {xs : List Access} : Polls a timeout xs → Opened a lba command xs false
  | refused {xs ys : List Access} : Polls a timeout xs → Polls a (2 * timeout) ys →
      Opened a lba command (xs ++ commandAccesses a lba command ++ ys) false
  | ready {xs ys : List Access} : Polls a timeout xs → Polls a (2 * timeout) ys →
      Opened a lba command (xs ++ commandAccesses a lba command ++ ys) true

theorem Opened.length_le {ready : Bool} {command : UInt8} (h : Opened a lba command xs ready) :
    xs.length ≤ 3 * timeout + 6 := by
  cases h with
  | absent => simp
  | busy hx =>
    have := hx.length_le
    omega
  | refused hx hy =>
    have := hx.length_le
    have := hy.length_le
    simp [commandAccesses]
    omega
  | ready hx hy =>
    have := hx.length_le
    have := hy.length_le
    simp [commandAccesses]
    omega

/-- What `ata_read_sector` can have done. -/
inductive ReadTrace (a : Ata σ) (lba : Nat) (buf : Nat → UInt8) :
    List Access → (Nat → UInt8) → Int → Prop
  | failed {xs : List Access} : Opened a lba cmdReadSectors xs false →
      ReadTrace a lba buf xs buf (-1)
  | done {xs : List Access} {words : List UInt16} : Opened a lba cmdReadSectors xs true →
      words.length = 256 →
      ReadTrace a lba buf (xs ++ words.map (Access.inw a.ataDataPort)) (storeWords words buf) 0

/-- What `ata_write_sector` can have done; the answers after the flush do not matter. -/
inductive WriteTrace (a : Ata σ) (lba : Nat) (buf : Nat → UInt8) : List Access → Int → Prop
  | failed {xs : List Access} : Opened a lba cmdWriteSectors xs false →
      WriteTrace a lba buf xs (-1)
  | done {xs ys : List Access} : Opened a lba cmdWriteSectors xs true → Polls a timeout ys →
      WriteTrace a lba buf (xs ++ (loadWords buf 256).map (Access.outw a.ataDataPort) ++
        [.outb a.ataCommStatPort cmdCacheFlush] ++ ys) 0

theorem ataOpen_did (D : Device σ) (a : Ata (σ × List Access)) (lba : Nat) (command : UInt8) :
    ∃ xs, Did a xs (a.ataOpen D.traced lba command).1 ∧
      Opened a lba command xs (a.ataOpen D.traced lba command).2 := by
  by_cases hpresent : a.diskPresent = false
  · simp only [ataOpen, if_pos hpresent]
    exact ⟨[], .refl, .absent hpresent⟩
  simp only [ataOpen, if_neg hpresent, ataWaitBsy, ataWaitDrq]
  obtain ⟨xs, hx, hfirst⟩ := pollStatus_did D a bsyVerdict
  generalize a.pollStatus D.traced bsyVerdict = out at hfirst ⊢
  obtain ⟨b, ready⟩ := out
  cases ready with
  | false => exact ⟨xs, hfirst, .busy hx⟩
  | true =>
    have hcommand := hfirst.trans (ataCommand_did (D := D) b lba command)
    rw [commandAccesses_did hfirst] at hcommand
    dsimp only at hcommand ⊢
    obtain ⟨ys, hy, hbsy⟩ := pollStatus_did D (b.ataCommand D.traced lba command) bsyVerdict
    generalize (b.ataCommand D.traced lba command).pollStatus D.traced bsyVerdict = out at hbsy ⊢
    obtain ⟨c, ready⟩ := out
    have hy := hy.of_did hcommand
    have hsecond := hcommand.trans hbsy
    cases ready with
    | false =>
      refine ⟨_, hsecond, .refused hx ?_⟩
      exact hy.mono (by omega)
    | true =>
      obtain ⟨zs, hz, hdrq⟩ := pollStatus_did D c drqVerdict
      have hpolls := hy.append (hz.of_did hsecond)
      rw [← Nat.two_mul] at hpolls
      have hall := hsecond.trans hdrq
      rw [List.append_assoc] at hall
      dsimp only at hall ⊢
      generalize c.pollStatus D.traced drqVerdict = out at hall ⊢
      obtain ⟨d, ready⟩ := out
      cases ready with
      | false => exact ⟨_, hall, .refused hx hpolls⟩
      | true => exact ⟨_, hall, .ready hx hpolls⟩

theorem ataReadSector_trace (D : Device σ) (a : Ata (σ × List Access)) (lba : Nat)
    (buf : Nat → UInt8) : ∃ xs buf', Did a xs (a.ataReadSector D.traced lba (some buf)).1 ∧
      (a.ataReadSector D.traced lba (some buf)).2.1 = some buf' ∧
      ReadTrace a lba buf xs buf' (a.ataReadSector D.traced lba (some buf)).2.2 := by
  obtain ⟨xs, hdid, hopened⟩ := ataOpen_did D a lba cmdReadSectors
  simp only [ataReadSector]
  generalize a.ataOpen D.traced lba cmdReadSectors = out at hdid hopened ⊢
  obtain ⟨b, ready⟩ := out
  cases ready with
  | false => exact ⟨xs, buf, hdid, rfl, .failed hopened⟩
  | true =>
    have hread := hdid.trans (readData_did (D := D) b)
    have hlength : (b.readData D.traced).2.length = 256 := by
      simp only [readData, readWords_length]
    rw [ataDataPort, hdid.channelPort] at hread
    exact ⟨_, _, hread, rfl, .done hopened hlength⟩

theorem ataWriteSector_trace (D : Device σ) (a : Ata (σ × List Access)) (lba : Nat)
    (buf : Nat → UInt8) : ∃ xs, Did a xs (a.ataWriteSector D.traced lba (some buf)).1 ∧
      WriteTrace a lba buf xs (a.ataWriteSector D.traced lba (some buf)).2 := by
  obtain ⟨xs, hdid, hopened⟩ := ataOpen_did D a lba cmdWriteSectors
  simp only [ataWriteSector]
  generalize a.ataOpen D.traced lba cmdWriteSectors = out at hdid hopened ⊢
  obtain ⟨b, ready⟩ := out
  cases ready with
  | false => exact ⟨xs, hdid, .failed hopened⟩
  | true =>
    have hdata := hdid.trans (writeData_did (D := D) b (loadWords buf 256))
    rw [ataDataPort, hdid.channelPort] at hdata
    dsimp only at hdata ⊢
    generalize b.writeData D.traced (loadWords buf 256) = c at hdata ⊢
    have hport : c.ataCommStatPort = a.ataCommStatPort := hdata.channelPort _ _
    rw [hport]
    have hflush := hdata.trans (outb_did (D := D) c a.ataCommStatPort cmdCacheFlush)
    obtain ⟨ys, hy, hlast⟩ :=
      pollStatus_did D (c.outb D.traced a.ataCommStatPort cmdCacheFlush) bsyVerdict
    exact ⟨_, hflush.trans hlast, .done hopened (hy.of_did hflush)⟩

theorem ReadTrace.length_le {buf' : Nat → UInt8} {result : Int}
    (h : ReadTrace a lba buf xs buf' result) : xs.length ≤ 3 * timeout + 262 := by
  cases h with
  | failed hopened => exact Nat.le_trans hopened.length_le (by omega)
  | done hopened hwords =>
    have := hopened.length_le
    simp only [List.length_append, List.length_map, hwords]
    omega

theorem WriteTrace.length_le {result : Int} (h : WriteTrace a lba buf xs result) :
    xs.length ≤ 4 * timeout + 263 := by
  cases h with
  | failed hopened => exact Nat.le_trans hopened.length_le (by omega)
  | done hopened hpolls =>
    have := hopened.length_le
    have := hpolls.length_le
    simp only [List.length_append, List.length_map, loadWords, List.length_range,
      List.length_singleton]
    omega

end Ata

end HumanOS

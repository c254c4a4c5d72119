import HumanOS.Ata.Protocol
import HumanOS.Keyboard.Input
import HumanOS.Serial.Model

/-!
# Orderly ends

`power_reboot` and `power_shutdown` of `kernel/power.c` at the ports: what they send over the
serial line, to the disk and to the devices that end the machine. What they print on the screen
and do to the processes, which takes no port, is in the model of the system calls.
-/
namespace HumanOS

open Lib

section Model

variable {σ : Type*} (D : Device σ) (fuel : Nat)

/-- A text over the serial line. -/
def say (text : String) (a : Ata σ) : Option (Ata σ) :=
  (serialPuts D fuel (some (asciiBytes text)) a.dev).map fun dev => { a with dev }

def sayAll (texts : List String) (a : Ata σ) : Option (Ata σ) :=
  texts.foldlM (fun a text => say D fuel text a) a

/-- What both have in common. -/
def powerDownPorts (table : FileTable) (title last : String) (a : Ata σ) : Option (Ata σ) := do
  let a ← sayAll D fuel [title, " [1/3] Syncing file system & flushing disk cache... "] a
  let a := (a.ataWriteSector D vfsMetadataLba (some (tableSector table))).1
  let a := a.ataFlush D
  sayAll D fuel ["[OK]\n", " [2/3] Terminating user & background processes...   ", "[OK]\n", last,
    "[OK]\n"] a

/-- The loop of `power_reboot` that empties the keyboard controller. -/
def drainController : Nat → σ → Option σ
  | 0, _ => none
  | fuel + 1, s =>
    let (temp, s) := D.inb s 0x64
    let s := if temp &&& 1 ≠ 0 then (D.inb s 0x60).2 else s
    if temp &&& 2 ≠ 0 then drainController fuel s else some s

/-- `power_reboot`, up to the reset signal. -/
def powerRebootPorts (table : FileTable) (a : Ata σ) : Option (Ata σ) := do
  let a ← powerDownPorts D fuel table "\n[POWER] Initiating orderly system reboot...\n"
    " [3/3] Sending reset signal to PS/2 controller...   " a
  let dev ← drainController D fuel a.dev
  return { a with dev := D.outb dev 0x64 0xFE }

/-- The signals to the hypervisors. -/
def offSignals : List (Nat × UInt16) :=
  [(0x604, 0x2000), (0x604, 0x3400), (0xB004, 0x2000), (0x4004, 0x3400), (0x4004, 0x2000),
    (0x600, 0x3400), (0x600, 0x2000), (0x5001, 0x0000)]

/-- `power_shutdown`, up to the halt. -/
def powerShutdownPorts (table : FileTable) (a : Ata σ) : Option (Ata σ) := do
  let a ← powerDownPorts D fuel table "\n[POWER] Initiating orderly system shutdown...\n"
    " [3/3] Disabling interrupts and CPU multitasking... " a
  let a ← say D fuel "\n[POWER] System halted cleanly. Powering off...\n" a
  return { a with dev := offSignals.foldl (fun dev signal => D.outw dev signal.1 signal.2) a.dev }

end Model

variable {σ : Type*} {D : Device σ} {fuel : Nat} {c : UInt8} {bytes : List UInt8}
variable {xs ys : List Access} {s t : σ × List Access} {a b : Ata (σ × List Access)}

section Saying

/-- The byte that an access sends over the serial line. -/
def sentByte : Access → Option UInt8
  | .outb port value => if port = com1Port then some value else none
  | _ => none

/-- Nothing but the serial port is touched, and these bytes are sent. -/
structure Sends (xs : List Access) (bytes : List UInt8) : Prop where
  ports : ∀ x ∈ xs, x.port = com1Port ∨ x.port = com1Port + 5
  sent : xs.filterMap sentByte = bytes

theorem Sends.nil : Sends [] [] := ⟨by simp, rfl⟩

theorem Sends.append {more : List UInt8} (h : Sends xs bytes) (h' : Sends ys more) :
    Sends (xs ++ ys) (bytes ++ more) where
  ports := by
    intro x hx
    rcases List.mem_append.mp hx with hx | hx
    · exact h.ports x hx
    · exact h'.ports x hx
  sent := by rw [List.filterMap_append, h.sent, h'.sent]

theorem serialPutc_sends (h : serialPutc D.traced fuel c s = some t) :
    ∃ xs, t.2 = s.2 ++ xs ∧ Sends xs [c] := by
  obtain ⟨u, hwait, rfl⟩ := Option.map_eq_some_iff.mp h
  obtain ⟨answers, hlog⟩ := waitBit_traced hwait
  refine ⟨answers.map (Access.inb (com1Port + 5)) ++ [.outb com1Port c], ?_, ?_, ?_⟩
  · rw [← List.append_assoc, ← hlog]
    rfl
  · intro x hx
    rcases List.mem_append.mp hx with hx | hx
    · obtain ⟨value, -, rfl⟩ := List.mem_map.mp hx
      exact .inr rfl
    · obtain rfl := List.mem_singleton.mp hx
      exact .inl rfl
  · have hreads : (answers.map (Access.inb (com1Port + 5))).filterMap sentByte = [] := by
      simp [List.filterMap_map, sentByte]
    rw [List.filterMap_append, hreads]
    rfl

theorem putcAll_sends
    (h : bytes.foldlM (fun s c => serialPutc D.traced fuel c s) s = some t) :
    ∃ xs, t.2 = s.2 ++ xs ∧ Sends xs bytes := by
  induction bytes generalizing s with
  | nil =>
    obtain rfl : s = t := by simpa using h
    exact ⟨[], by simp, .nil⟩
  | cons c bytes ih =>
    rw [List.foldlM_cons] at h
    obtain ⟨u, hfirst, hrest⟩ := Option.bind_eq_some_iff.mp h
    obtain ⟨xs, hlog, hsends⟩ := serialPutc_sends hfirst
    obtain ⟨ys, hlog', hsends'⟩ := ih hrest
    refine ⟨xs ++ ys, ?_, hsends.append hsends'⟩
    rw [hlog', hlog, List.append_assoc]

/-- The bytes of texts on the serial line. -/
def textBytes (texts : List String) : List UInt8 :=
  texts.flatMap fun text => lineBytes (asciiBytes text)

theorem sayAll_did {texts : List String} (h : sayAll D.traced fuel texts a = some b) :
    ∃ xs, Ata.Did a xs b ∧ Sends xs (textBytes texts) := by
  unfold sayAll at h
  induction texts generalizing a with
  | nil =>
    obtain rfl : a = b := by simpa using h
    exact ⟨[], .refl, .nil⟩
  | cons text texts ih =>
    rw [List.foldlM_cons] at h
    obtain ⟨c, hfirst, hrest⟩ := Option.bind_eq_some_iff.mp h
    obtain ⟨dev, hputs, rfl⟩ := Option.map_eq_some_iff.mp hfirst
    rw [serialPuts_eq] at hputs
    obtain ⟨xs, hlog, hsends⟩ := putcAll_sends hputs
    have hdid : Ata.Did a xs { a with dev } := ⟨rfl, hlog⟩
    obtain ⟨ys, hdid', hsends'⟩ := ih hrest
    exact ⟨xs ++ ys, hdid.trans hdid', hsends.append hsends'⟩

end Saying

section Syncing

/-- What `ata_flush` can have done. -/
inductive Flushed (a : Ata σ) : List Access → Prop
  | absent : a.diskPresent = false → Flushed a []
  | busy {xs : List Access} : Ata.Polls a Ata.timeout xs → Flushed a xs
  | done {xs ys : List Access} : Ata.Polls a Ata.timeout xs → Ata.Polls a Ata.timeout ys →
      Flushed a (xs ++ [.outb a.ataCommStatPort Ata.cmdCacheFlush] ++ ys)

theorem ataFlush_did (D : Device σ) (a : Ata (σ × List Access)) :
    ∃ xs, Ata.Did a xs (a.ataFlush D.traced) ∧ Flushed a xs := by
  by_cases hpresent : a.diskPresent = false
  · rw [Ata.ataFlush, if_pos hpresent]
    exact ⟨[], .refl, .absent hpresent⟩
  rw [Ata.ataFlush, if_neg hpresent]
  obtain ⟨xs, hx, hfirst⟩ := Ata.pollStatus_did D a Ata.bsyVerdict
  simp only [Ata.ataWaitBsy]
  generalize a.pollStatus D.traced Ata.bsyVerdict = out at hfirst ⊢
  obtain ⟨b, ready⟩ := out
  cases ready with
  | false => exact ⟨xs, hfirst, .busy hx⟩
  | true =>
    have hport : b.ataCommStatPort = a.ataCommStatPort := hfirst.channelPort _ _
    have hflush := hfirst.trans (Ata.outb_did (D := D) b b.ataCommStatPort Ata.cmdCacheFlush)
    obtain ⟨ys, hy, hlast⟩ := Ata.pollStatus_did D
      (b.outb D.traced b.ataCommStatPort Ata.cmdCacheFlush) Ata.bsyVerdict
    have hall := hflush.trans hlast
    dsimp only at hall ⊢
    rw [hport] at hall ⊢
    exact ⟨_, hall, .done hx (hy.of_did hflush)⟩

/-- The accesses up to where the machine may end: the texts before, the table of the files to its
sector, the flush of the disk, and the texts after. -/
def Synced (table : FileTable) (texts texts' : List String) (a e : Ata (σ × List Access)) : Prop :=
  ∃ b c d before write flush after result,
    Ata.Did a before b ∧ Sends before (textBytes texts) ∧
    Ata.Did b write c ∧ Ata.WriteTrace b vfsMetadataLba (tableSector table) write result ∧
    Ata.Did c flush d ∧ Flushed c flush ∧
    Ata.Did d after e ∧ Sends after (textBytes texts')

theorem powerDownPorts_synced {table : FileTable} {title last : String}
    (h : powerDownPorts D.traced fuel table title last a = some b) :
    Synced table [title, " [1/3] Syncing file system & flushing disk cache... "]
      ["[OK]\n", " [2/3] Terminating user & background processes...   ", "[OK]\n", last, "[OK]\n"]
      a b := by
  obtain ⟨c, hbefore, hrest⟩ := Option.bind_eq_some_iff.mp h
  obtain ⟨before, hdid, hsends⟩ := sayAll_did hbefore
  obtain ⟨write, hwrite, htrace⟩ := Ata.ataWriteSector_trace D c vfsMetadataLba (tableSector table)
  obtain ⟨flush, hflush, hflushed⟩ := ataFlush_did D
    (c.ataWriteSector D.traced vfsMetadataLba (some (tableSector table))).1
  obtain ⟨after, hafter, hsends'⟩ := sayAll_did hrest
  exact ⟨_, _, _, _, _, _, _, _, hdid, hsends, hwrite, htrace, hflush, hflushed, hafter, hsends'⟩

end Syncing

section Ending

/-- Reads of the keyboard controller. -/
def ControllerReads (xs : List Access) : Prop :=
  ∀ x ∈ xs, ∃ value, x = .inb 0x64 value ∨ x = .inb 0x60 value

theorem drainController_reads (h : drainController D.traced fuel s = some t) :
    ∃ xs, t.2 = s.2 ++ xs ∧ ControllerReads xs := by
  induction fuel generalizing s with
  | zero => simp [drainController] at h
  | succ fuel ih =>
    -- one turn, with a byte of the keyboard or without
    have hturn : ∃ xs, (if (D.traced.inb s 0x64).1 &&& 1 ≠ 0 then
          (D.traced.inb (D.traced.inb s 0x64).2 0x60).2 else (D.traced.inb s 0x64).2).2 =
        s.2 ++ xs ∧ ControllerReads xs := by
      split
      · refine ⟨[.inb 0x64 (D.inb s.1 0x64).1, .inb 0x60 (D.inb (D.inb s.1 0x64).2 0x60).1],
          by simp [Device.traced], ?_⟩
        simp [ControllerReads]
      · exact ⟨[.inb 0x64 (D.inb s.1 0x64).1], rfl, by simp [ControllerReads]⟩
    obtain ⟨xs, hlog, hreads⟩ := hturn
    rw [drainController] at h
    dsimp only at h
    split at h
    · obtain ⟨ys, hlog', hreads'⟩ := ih h
      refine ⟨xs ++ ys, ?_, ?_⟩
      · rw [hlog', hlog, List.append_assoc]
      · intro x hx
        rcases List.mem_append.mp hx with hx | hx
        · exact hreads x hx
        · exact hreads' x hx
    · obtain rfl := Option.some.inj h
      exact ⟨xs, hlog, hreads⟩

theorem offSignals_did (D : Device σ) (a : Ata (σ × List Access)) (signals : List (Nat × UInt16)) :
    Ata.Did a (signals.map fun signal => .outw signal.1 signal.2)
      { a with dev := signals.foldl (fun dev signal => D.traced.outw dev signal.1 signal.2) a.dev }
    := by
  refine ⟨rfl, ?_⟩
  dsimp only
  induction signals generalizing a with
  | nil => simp
  | cons signal signals ih =>
    have hrest := ih { a with dev := D.traced.outw a.dev signal.1 signal.2 }
    rw [List.foldl_cons, hrest]
    simp [Device.traced]

end Ending

section Levels

/-- The bytes of what the kernel sends over the serial line. -/
def serialBytes (chars : List Char) : List UInt8 := chars.map fun c => UInt8.ofNat c.toNat

def rebootTexts : List String × List String :=
  (["\n[POWER] Initiating orderly system reboot...\n",
      " [1/3] Syncing file system & flushing disk cache... "],
    ["[OK]\n", " [2/3] Terminating user & background processes...   ", "[OK]\n",
      " [3/3] Sending reset signal to PS/2 controller...   ", "[OK]\n"])

def shutdownTexts : List String × List String :=
  (["\n[POWER] Initiating orderly system shutdown...\n",
      " [1/3] Syncing file system & flushing disk cache... "],
    ["[OK]\n", " [2/3] Terminating user & background processes...   ", "[OK]\n",
      " [3/3] Disabling interrupts and CPU multitasking... ", "[OK]\n"])

def haltText : String := "\n[POWER] System halted cleanly. Powering off...\n"

/-- The characters that the model of the system calls sends for texts. -/
def serialChars (texts : List String) : List Char :=
  texts.flatMap fun text => text.toList.flatMap fun c => if c = '\n' then ['\r', c] else [c]

theorem powerDown_serial (ok : Nat → Bool) (k : Kernel) (title last : String) :
    (powerDown ok k title last).serial = k.serial ++ serialChars
      [title, " [1/3] Syncing file system & flushing disk cache... ", "[OK]\n",
        " [2/3] Terminating user & background processes...   ", "[OK]\n", last, "[OK]\n"] := by
  simp only [powerDown, Kernel.putsBoth, Kernel.puts, Kernel.serialPuts, Kernel.onVfs,
    Kernel.onSched, serialChars, List.flatMap_cons, List.flatMap_nil, List.append_nil,
    List.append_assoc]

theorem powerReboot_serial (ok : Nat → Bool) (k : Kernel) :
    serialBytes (powerReboot ok k).serial =
      serialBytes k.serial ++ textBytes (rebootTexts.1 ++ rebootTexts.2) := by
  rw [powerReboot, powerDown_serial, serialBytes, List.map_append]
  refine congrArg (serialBytes k.serial ++ ·) ?_
  decide +kernel

theorem powerShutdown_serial (ok : Nat → Bool) (k : Kernel) :
    serialBytes (powerShutdown ok k).serial =
      serialBytes k.serial ++ textBytes (shutdownTexts.1 ++ shutdownTexts.2 ++ [haltText]) := by
  have hlast : (powerShutdown ok k).serial = (powerDown ok k
      "\n[POWER] Initiating orderly system shutdown...\n"
      " [3/3] Disabling interrupts and CPU multitasking... ").serial ++ serialChars [haltText] := by
    simp [powerShutdown, Kernel.putsBoth, Kernel.puts, Kernel.serialPuts, serialChars, haltText]
  rw [hlast, powerDown_serial, List.append_assoc, serialBytes, List.map_append]
  refine congrArg (serialBytes k.serial ++ ·) ?_
  decide +kernel

end Levels

/-- A serial port that is empty, a controller that is too, and a disk that is ready. -/
def readyDevice : Device Unit where
  inb _ port := (if port = com1Port + 5 then 0x20 else if port = 0x64 then 0x00 else 0x48, ())
  inw _ _ := (0, ())
  outb _ _ _ := ()
  outw _ _ _ := ()

end HumanOS

import HumanOS.Vfs.Model

/-!
# The shell

What `user_shell_process` of `kernel/main.c` does when Enter is pressed. The input buffer is the
memory from `input_buf` on: its 64 bytes, and whatever the stack holds behind them. The calls the
shell makes are listed with their arguments; those of the file system are carried out as well,
and of a call that may not return the list goes on with what follows if it does. A C string is
read up to its NUL, with fuel: `none` means that it has not come to an end yet.
-/
namespace HumanOS

/-- A call of the shell, strings as their bytes. -/
inductive ShellCall where
  | vgaPutc (c : UInt8) (color : Nat)
  | vgaPuts (text : List UInt8) (color : Nat)
  | vgaClear
  | sysWrite (text : List UInt8) (len : Nat)
  | elfRun (filename : List UInt8)
  | vfsListFiles
  | vfsReadFile (name : List UInt8) (maxLen : Nat)
  | vfsCreateFile (name : List UInt8)
  | vfsWriteFile (name content : List UInt8) (len : Nat)
  | vfsDeleteFile (name : List UInt8)
  | cpuPrintInfo
  | mallocFree (size : Nat)
  | sysYield
  | sysReboot
  | sysShutdown
  | sysExit (code : Nat)
deriving DecidableEq, Repr

/-- The branches of the command dispatcher. -/
inductive ShellCommand where
  | help | run | ls | diskinfo | cat | touch | write | rm | whoami | hostname | uname | sysinfo
  | ver | clear | ps | stress | reboot | shutdown | exit | unknown
deriving DecidableEq, Repr

/-- The file system and the calls made so far. -/
structure ShellRun where
  vfs : Vfs
  calls : List ShellCall

namespace ShellRun

def call (s : ShellRun) (c : ShellCall) : ShellRun := { s with calls := s.calls ++ [c] }

def putc (s : ShellRun) (c : Char) : ShellRun := s.call (.vgaPutc (UInt8.ofNat c.toNat) 0x0F)

def puts (s : ShellRun) (text : String) (color : Nat) : ShellRun :=
  s.call (.vgaPuts (asciiBytes text) color)

/-- `vga_puts` of bytes that are not a literal, in white. -/
def putBytes (s : ShellRun) (text : List UInt8) : ShellRun := s.call (.vgaPuts text 0x0F)

/-- `sys_write` to descriptor 1. -/
def write (s : ShellRun) (text : String) (len : Nat) : ShellRun :=
  s.call (.sysWrite (asciiBytes text) len)

/-- The loops that print a number digit by digit. -/
def putDigits (s : ShellRun) (n : Nat) : ShellRun := (toString n).toList.foldl putc s

end ShellRun

/-- The words of the dispatcher, in the order it tests them. -/
def commandWords : List (List UInt8 × ShellCommand) :=
  [("help", .help), ("run", .run), ("exec", .run), ("ls", .ls), ("disk", .diskinfo), ("cat", .cat),
    ("touch", .touch), ("write", .write), ("rm", .rm), ("whoami", .whoami),
    ("hostname", .hostname), ("uname", .uname), ("sysinfo", .sysinfo), ("ver", .ver),
    ("clear", .clear), ("ps", .ps), ("stress", .stress), ("reboot", .reboot),
    ("shutdown", .shutdown), ("exit", .exit)].map fun e => (asciiBytes e.1, e.2)

/-- The comparisons of the first bytes of the buffer with a word. -/
def startsWith (buf : Nat → UInt8) (word : List UInt8) : Bool :=
  (List.range word.length).all fun k => buf k = word.getD k 0

/-- The chain of tests: the first word that the buffer starts with decides. -/
def dispatch (buf : Nat → UInt8) : ShellCommand :=
  match commandWords.find? fun e => startsWith buf e.1 with
  | some e => e.2
  | none => .unknown

/-- The C string at offset `i` of the buffer. -/
def stringAt (buf : Nat → UInt8) : Nat → Nat → Option (List UInt8)
  | 0, _ => none
  | fuel + 1, i => if buf i = 0 then some [] else (stringAt buf fuel (i + 1)).map (buf i :: ·)

section Commands

variable (fuel : Nat) (ok : Nat → Bool) (stack buf : Nat → UInt8)

/-- `run` and `exec`. -/
def runCommand (s : ShellRun) : Option ShellRun :=
  let i := if buf 0 = 114 then 4 else 5
  if buf i ≠ 0 then do
    let fname ← stringAt buf fuel i
    return s.call (.elfRun fname)
  else return s.write "  Usage: run <filename.elf>" 27

/-- `cat`; the memory of `read_buf` is that of the stack. -/
def catCommand (s : ShellRun) : Option ShellRun := do
  let fname ← if buf 4 = 0 then some readmeName else stringAt buf fuel 4
  let (vfs, readBuf, r) := vfsReadFile ok s.vfs (some fname) (some stack) 512 stack
  let s := { s with vfs }.call (.vfsReadFile fname 512)
  if r ≥ 0 then
    let text := ((List.range 512).map (readBuf.getD stack)).takeWhile (· ≠ 0)
    return ((s.puts "  " 0x0F).putBytes text).putc '\n'
  else return s.write "  File not found." 17

/-- `touch`. -/
def touchCommand (s : ShellRun) : Option ShellRun :=
  if buf 6 ≠ 0 then do
    let fname ← stringAt buf fuel 6
    let s := { s with vfs := (vfsCreateFile ok s.vfs (some fname)).1 }.call (.vfsCreateFile fname)
    return ((s.puts "  File created: " 0x0A).putBytes fname).putc '\n'
  else return s

/-- The loop of `write` that copies the file name: at most `room` more bytes from offset `i`. -/
def writeName : Nat → Nat → List UInt8 × Nat
  | 0, i => ([], i)
  | room + 1, i =>
    if buf i ≠ 32 ∧ buf i ≠ 0 then
      let (fname, j) := writeName room (i + 1)
      (buf i :: fname, j)
    else ([], i)

/-- `write`. -/
def writeCommand (s : ShellRun) : Option ShellRun := do
  let (fname, i) := writeName buf 31 6
  let i := if buf i = 32 then i + 1 else i
  let text ← stringAt buf fuel i
  if fname.length > 0 ∧ text.length > 0 then
    let vfs := (vfsWriteFile ok s.vfs (some fname) (fun k => text.getD k 0) text.length).1
    let s := { s with vfs }.call (.vfsWriteFile fname text text.length)
    return ((((s.puts "  Saved " 0x0A).putDigits text.length).puts " bytes to " 0x0A).putBytes
      fname).puts " on disk!\n" 0x0A
  else return s

/-- `rm`. -/
def rmCommand (s : ShellRun) : Option ShellRun :=
  if buf 3 ≠ 0 then do
    let fname ← stringAt buf fuel 3
    let (vfs, result) := vfsDeleteFile ok s.vfs (some fname)
    let s := { s with vfs }.call (.vfsDeleteFile fname)
    if result = 0 then return ((s.puts "  File deleted: " 0x0A).putBytes fname).putc '\n'
    else return s.write "  File not found." 17
  else return s

/-- What `ata_get_model` and `ata_get_sector_count` return. -/
structure AtaInfo where
  model : List UInt8
  sectorCount : Nat

/-- `diskinfo`. The first digit loop divides `sc` down to 0 before the megabytes are taken
from it. -/
def diskinfoCommand (ata : AtaInfo) (s : ShellRun) : ShellRun :=
  let s := (s.puts "  ATA Model  : " 0x0A).putBytes ata.model
  let s := (s.puts "\n  Sectors    : " 0x0A).putDigits ata.sectorCount
  let sc := ata.sectorCount / 10 ^ 15
  ((s.puts " LBA Sectors (" 0x0F).putDigits (sc / 2048)).puts " MB)\n" 0x0F

/-- The progress report of a stress test, every so many rounds. -/
def stressProgress (every i : Nat) (total : String) (len : Nat) (s : ShellRun) : ShellRun :=
  if i % every = 0 then
    let digits := (toString i).toList.map fun c => UInt8.ofNat c.toNat
    (digits.foldl (fun s d => s.call (.sysWrite [d] 1)) s).write total len
  else s

def stressName : List UInt8 := asciiBytes "stress_test.txt"

def stressText : List UInt8 := asciiBytes "Stress test data"

/-- One round of the file system stress test. -/
def stressVfs (s : ShellRun) (i : Nat) : ShellRun :=
  let s := { s with vfs := (vfsCreateFile ok s.vfs (some stressName)).1 }.call
    (.vfsCreateFile stressName)
  let s := { s with
    vfs := (vfsWriteFile ok s.vfs (some stressName) (fun k => stressText.getD k 0) 16).1 }.call
    (.vfsWriteFile stressName stressText 16)
  let s := { s with vfs := (vfsReadFile ok s.vfs (some stressName) (some stack) 64 stack).1 }.call
    (.vfsReadFile stressName 64)
  (stressProgress 5 i "/50\r" 5 s).call .sysYield

/-- `stress`. -/
def stressCommand (s : ShellRun) : ShellRun :=
  let s := s.write "Starting stress test...\n" 25
  let s := s.write "Test 1: Memory allocation stress\n" 32
  let s := (List.range 100).foldl
    (fun s i => (stressProgress 10 i "/100\r" 6 (s.call (.mallocFree 1024))).call .sysYield) s
  let s := s.write "\nTest 1: PASSED\n" 18
  let s := s.write "Test 2: Scheduler stress (rapid yields)\n" 39
  let s := (List.range 100).foldl
    (fun s i => (stressProgress 10 i "/100\r" 6 s).call .sysYield) s
  let s := s.write "\nTest 2: PASSED\n" 18
  let s := s.write "Test 3: VFS stress\n" 20
  let s := (List.range 50).foldl (stressVfs ok stack) s
  let s := s.write "\nTest 3: PASSED\n" 17
  s.write "All stress tests PASSED - No Triple Faults detected\n" 56

/-- The branch that the dispatcher takes. -/
def performCommand (ata : AtaInfo) (s : ShellRun) : ShellCommand → Option ShellRun
  | .help => return s.write ("Commands: help, run, exec, ls, cat, touch, write, rm, diskinfo, " ++
      "sysinfo, whoami, hostname, uname, clear, ps, stress, reboot, shutdown, exit") 138
  | .run => runCommand fuel buf s
  | .ls => return { s with vfs := vfsListFiles ok s.vfs }.call .vfsListFiles
  | .diskinfo => return diskinfoCommand ata s
  | .cat => catCommand fuel ok stack buf s
  | .touch => touchCommand fuel ok buf s
  | .write => writeCommand fuel ok buf s
  | .rm => rmCommand fuel ok buf s
  | .whoami => return s.write "user" 4
  | .hostname => return s.write "humanos" 7
  | .uname => return s.write "HumanOS 0.0.1 i686 GNU/HumanOS (x86 Ring 3)" 43
  | .sysinfo => return s.call .cpuPrintInfo
  | .ver => return s.write "HumanOS v0.0.1 (x86 Ring 3 Userland)" 36
  | .clear => return s.call .vgaClear
  | .ps => return s.write "Active Processes: PID 1 (Kernel), PID 2 (UserShell)" 51
  | .stress => return stressCommand ok stack s
  | .reboot => return s.call .sysReboot
  | .shutdown => return s.call .sysShutdown
  | .exit => return (s.write "Exiting Shell..." 16).call (.sysExit 0)
  | .unknown => return s.write "Unknown command. Type 'help'." 29

end Commands

/-- `print_shell_prompt`. -/
def printShellPrompt (s : ShellRun) : ShellRun :=
  (((((s.puts "user" 0x0A).puts "@" 0x0F).puts "humanos" 0x0B).puts ":" 0x0F).puts "~" 0x0E).puts
    "$ " 0x0F

def maxHist : Nat := 10

/-- The locals of `user_shell_process`. -/
structure Shell where
  inputBuf : Nat → UInt8
  bufIdx : Nat
  cmdHistory : Nat → Nat → UInt8
  histCount : Nat
  histIdx : Nat

/-- Storing the line in the history: its bytes up to the NUL, 63 at most, and a NUL. -/
def Shell.remember (sh : Shell) : Shell :=
  let slot := sh.histCount % maxHist
  let line := ((List.range 63).map sh.inputBuf).takeWhile (· ≠ 0)
  { sh with
    cmdHistory := Function.update sh.cmdHistory slot fun k =>
      if k < line.length then sh.inputBuf k else if k = line.length then 0
      else sh.cmdHistory slot k
    histCount := sh.histCount + 1
    histIdx := sh.histCount + 1 }

/-- The Enter key. -/
def shellEnter (fuel : Nat) (ok : Nat → Bool) (stack : Nat → UInt8) (ata : AtaInfo) (sh : Shell)
    (s : ShellRun) : Option (Shell × ShellRun) := do
  let s := s.putc '\n'
  let sh := { sh with inputBuf := Function.update sh.inputBuf sh.bufIdx 0 }
  if sh.bufIdx > 0 then
    let sh := sh.remember
    let s := s.putc '\n'
    let cmd := dispatch sh.inputBuf
    let s ← performCommand fuel ok stack sh.inputBuf ata s cmd
    let s := if cmd = .clear then s else s.putc '\n'
    return ({ sh with bufIdx := 0 }, printShellPrompt s)
  else return ({ sh with bufIdx := 0 }, printShellPrompt s)

end HumanOS

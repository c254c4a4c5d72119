import HumanOS.Shell.Model
import HumanOS.Vga.Model

/-!
# The line editor

What `user_shell_process` of `kernel/main.c` does with each key, in the input buffer and on the
screen. Beside the locals of the shell the state lists the accesses made to its arrays and the
lines entered. What the body of a command prints and does to the files is given from outside;
the bytes of the input buffer that it reads are listed as well.
-/
namespace HumanOS

/-- An access to `input_buf[i]`, `cmd_history[slot][k]`, `cmds[i]` or `cmds[i][k]`. -/
inductive ShellAccess where
  | inputBuf (i : Nat)
  | cmdHistory (slot : Int) (k : Nat)
  | cmds (i : Nat)
  | cmdText (i k : Nat)
deriving DecidableEq, Repr

structure Editor where
  shell : Shell
  vga : Vga
  vfs : Vfs
  accesses : List ShellAccess
  entered : List (List UInt8)

namespace Editor

def access (e : Editor) (l : List ShellAccess) : Editor := { e with accesses := e.accesses ++ l }

def putc (e : Editor) (c : UInt8) : Editor := { e with vga := vgaPutc e.vga c 0x0F }

def setIdx (e : Editor) (n : Nat) : Editor := { e with shell := { e.shell with bufIdx := n } }

def setHistIdx (e : Editor) (n : Nat) : Editor := { e with shell := { e.shell with histIdx := n } }

/-- `input_buf[i] = c`. -/
def setBuf (e : Editor) (i : Nat) (c : UInt8) : Editor :=
  { e with
    shell := { e.shell with inputBuf := Function.update e.shell.inputBuf i c }
    accesses := e.accesses ++ [.inputBuf i] }

/-- `input_buf[buf_idx++] = c`, with its echo. -/
def type (e : Editor) (c : UInt8) : Editor :=
  ((e.setBuf e.shell.bufIdx c).setIdx (e.shell.bufIdx + 1)).putc c

/-- A character rubbed out on the screen. -/
def rubOut (e : Editor) : Editor := ((e.putc 8).putc 32).putc 8

end Editor

section History

/-- The slot of a counter, which is an `int`. -/
def histSlot (n : Nat) : Int := (BitVec.ofNat 32 n).toInt.tmod maxHist

/-- The loops that erase the line, `n` characters of it. -/
def eraseLine : Nat → Editor → Editor
  | 0, e => e
  | n + 1, e => eraseLine n (e.rubOut.setIdx n)

/-- The loops that copy a line of the history, from index `k` on. A byte is read before the room
that is left is looked at. -/
def recallLoop (idx : Nat) : Nat → Nat → Editor → Editor
  | 0, k, e => (e.access [.cmdHistory (histSlot idx) k]).setIdx k
  | room + 1, k, e =>
    let e := e.access [.cmdHistory (histSlot idx) k]
    let c := e.shell.cmdHistory (idx % maxHist) k
    if c ≠ 0 then recallLoop idx room (k + 1) ((e.setBuf k c).putc c) else e.setIdx k

/-- The copy and the NUL behind it. -/
def recallLine (e : Editor) : Editor :=
  let e := recallLoop e.shell.histIdx 63 0 e
  e.setBuf e.shell.bufIdx 0

def pressUp (e : Editor) : Editor :=
  if e.shell.histCount > 0 ∧ e.shell.histIdx > 0 then
    let e := e.setHistIdx (e.shell.histIdx - 1)
    recallLine (eraseLine e.shell.bufIdx e)
  else e

def pressDown (e : Editor) : Editor :=
  if e.shell.histIdx < e.shell.histCount then
    let e := e.setHistIdx (e.shell.histIdx + 1)
    let e := eraseLine e.shell.bufIdx e
    if e.shell.histIdx < e.shell.histCount then recallLine e else (e.setIdx 0).setBuf 0 0
  else e

end History

section Completion

/-- `cmds`, without the NULL at its end. -/
def cmds : List (List UInt8) :=
  ["help", "ls", "cat", "touch", "write", "diskinfo", "sysinfo", "whoami", "hostname", "uname",
    "clear", "ps", "reboot", "shutdown", "exit"].map asciiBytes

/-- `cmds[i][k]`. -/
def cmdByte (i k : Nat) : UInt8 := (cmds.getD i []).getD k 0

/-- The loops that compare the next `n` bytes from index `k` on: whether they are all the same,
and the index where the comparison ended. -/
def compareBytes (a b : Nat → UInt8) : Nat → Nat → Bool × Nat
  | 0, k => (true, k)
  | n + 1, k => if a k ≠ b k then (false, k + 1) else compareBytes a b n (k + 1)

/-- The accesses of the loop over the commands, up to the NULL. -/
def matchAccesses (buf : Nat → UInt8) (n : Nat) : List ShellAccess :=
  (List.range (cmds.length + 1)).map .cmds ++
    (List.range cmds.length).flatMap fun i =>
      (List.range (compareBytes buf (cmdByte i) n 0).2).flatMap fun k =>
        [.inputBuf k, .cmdText i k]

/-- The loop that appends the rest of `cmds[i]`, from its byte `k` on. -/
def appendCommand (i : Nat) : List UInt8 → Nat → Editor → Editor
  | [], k, e => e.access [.cmdText i k]
  | c :: rest, k, e => appendCommand i rest (k + 1) ((e.access [.cmdText i k]).type c)

/-- Completion of a command, where one command alone starts with the line. -/
def completeCommand (e : Editor) : Editor :=
  let buf := e.shell.inputBuf
  let n := e.shell.bufIdx
  let e := e.access (matchAccesses buf n)
  match (List.range cmds.length).filter fun i => (compareBytes buf (cmdByte i) n 0).1 with
  | [i] =>
    let e := appendCommand i ((cmds.getD i []).drop n) n e
    let e := if e.shell.bufIdx < 63 then e.type 32 else e
    e.setBuf e.shell.bufIdx 0
  | _ => e

/-- The loop that finds the length of the argument. The NUL at `buf_idx` ends it. -/
def argLength (arg : Nat → UInt8) : Nat → Nat → Nat
  | 0, k => k
  | fuel + 1, k => if arg k ≠ 0 then argLength arg fuel (k + 1) else k

/-- The loop that appends the rest of a file name. -/
def appendName (rest : List UInt8) (e : Editor) : Editor :=
  rest.foldl (fun e c => if e.shell.bufIdx < 63 then e.type c else e) e

/-- Completion of a file name, where one file alone starts with the argument. -/
def completeFile (spacePos : Nat) (e : Editor) : Editor :=
  let buf := e.shell.inputBuf
  let arg := fun k => buf (spacePos + 1 + k)
  let argLen := argLength arg e.shell.bufIdx 0
  let names := (List.range maxFiles).filterMap (vfsGetFilename e.vfs)
  let compared := fun name : List UInt8 => compareBytes arg (fun k => name.getD k 0) argLen 0
  let e := e.access ((List.range (argLen + 1)).map fun k => .inputBuf (spacePos + 1 + k))
  let e := e.access (names.flatMap fun name =>
    (List.range (compared name).2).map fun k => .inputBuf (spacePos + 1 + k))
  match names.filter fun name => (compared name).1 with
  | [matchedFilename] =>
    let e := appendName (matchedFilename.drop argLen) e
    e.setBuf e.shell.bufIdx 0
  | _ => e

def pressTab (e : Editor) : Editor :=
  if e.shell.bufIdx > 0 then
    let e := e.setBuf e.shell.bufIdx 0
    let spacePos := (List.range e.shell.bufIdx).find? fun i => e.shell.inputBuf i = 32
    let looked := (spacePos.map (· + 1)).getD e.shell.bufIdx
    let e := e.access ((List.range looked).map .inputBuf)
    match spacePos with
    | none => completeCommand e
    | some spacePos => completeFile spacePos e
  else e

end Completion

section Enter

/-- What the body of a command leaves: what it printed, and the files. Strings without an end are
followed as far as the fuel goes. -/
structure CommandEnd where
  fuel : Nat
  printed : List (UInt8 × UInt8)
  vfs : Vfs

/-- The loop that stores the line in the history, and the NUL behind it. -/
def storeAccesses (sh : Shell) : List ShellAccess :=
  let len := (((List.range 63).map sh.inputBuf).takeWhile (· ≠ 0)).length
  (List.range (len + 1)).flatMap fun k => [.inputBuf k, .cmdHistory (histSlot sh.histCount) k]

/-- The comparisons of the dispatcher, up to the first word that the line starts with. -/
def dispatchReads (buf : Nat → UInt8) : List ShellAccess :=
  let tested := commandWords.take (commandWords.findIdx (fun e => startsWith buf e.1) + 1)
  tested.flatMap fun e =>
    (List.range (compareBytes buf (fun k => e.1.getD k 0) e.1.length 0).2).map .inputBuf

/-- A C string read up to its NUL. -/
def stringReads (buf : Nat → UInt8) : Nat → Nat → List ShellAccess
  | 0, _ => []
  | fuel + 1, i => .inputBuf i :: if buf i = 0 then [] else stringReads buf fuel (i + 1)

/-- The bytes that comparing an argument with file names reads at most: a name ends within the 32
bytes of its entry, whose `used` is 1. -/
def nameReads (i : Nat) : List ShellAccess := (List.range 32).map fun k => .inputBuf (i + k)

/-- The C string that a command reads to its end: `elf_run` and `touch` print it, `write` takes its
length. -/
def argOffset (buf : Nat → UInt8) : ShellCommand → Option Nat
  | .run => some (if buf 0 = 114 then 4 else 5)
  | .touch => some 6
  | .write =>
    let i := (writeName buf 31 6).2
    some (if buf i = 32 then i + 1 else i)
  | _ => none

/-- The bytes that the body of a command reads beside it. -/
def fixedReads (buf : Nat → UInt8) : ShellCommand → List ShellAccess
  | .run => [.inputBuf 0]
  | .cat => nameReads 4
  | .write => (List.range ((writeName buf 31 6).2 - 5)).map fun k => .inputBuf (6 + k)
  | .rm => nameReads 3
  | _ => []

/-- The bytes of the input buffer that the body of a command reads. -/
def argReads (fuel : Nat) (buf : Nat → UInt8) (cmd : ShellCommand) : List ShellAccess :=
  fixedReads buf cmd ++ ((argOffset buf cmd).map (stringReads buf fuel)).getD []

/-- `print_shell_prompt` on the screen. -/
def showPrompt (s : Vga) : Vga :=
  let s := vgaPuts s (asciiBytes "user") 0x0A
  let s := vgaPuts s (asciiBytes "@") 0x0F
  let s := vgaPuts s (asciiBytes "humanos") 0x0B
  let s := vgaPuts s (asciiBytes ":") 0x0F
  let s := vgaPuts s (asciiBytes "~") 0x0E
  vgaPuts s (asciiBytes "$ ") 0x0F

/-- The Enter key for a line that is not empty, up to the prompt. -/
def enterCommand (o : CommandEnd) (e : Editor) : Editor :=
  let e := e.access (storeAccesses e.shell)
  let line := (List.range e.shell.bufIdx).map e.shell.inputBuf
  let e := { e with shell := e.shell.remember, entered := e.entered ++ [line] }
  let e := e.putc 10
  let cmd := dispatch e.shell.inputBuf
  let e := e.access (dispatchReads e.shell.inputBuf ++ argReads o.fuel e.shell.inputBuf cmd)
  let e := { e with vga := putChars e.vga o.printed, vfs := o.vfs }
  if cmd = .clear then { e with vga := vgaClear e.vga } else e.putc 10

def pressEnter (o : CommandEnd) (e : Editor) : Editor :=
  let e := (e.putc 10).setBuf e.shell.bufIdx 0
  let e := if e.shell.bufIdx > 0 then enterCommand o e else e
  { e.setIdx 0 with vga := showPrompt e.vga }

end Enter

def pressBackspace (e : Editor) : Editor :=
  if e.shell.bufIdx > 0 then (e.setIdx (e.shell.bufIdx - 1)).rubOut else e

def pressOther (c : UInt8) (e : Editor) : Editor :=
  if e.shell.bufIdx < 63 then e.type c else e

/-- The loop body of `user_shell_process` for a byte that `sys_read` returned. -/
def shellKey (o : CommandEnd) (e : Editor) (c : UInt8) : Editor :=
  if c = 13 ∨ c = 10 then pressEnter o e
  else if c = 8 then pressBackspace e
  else if c = 0x80 then pressUp e
  else if c = 0x81 then pressDown e
  else if c = 9 then pressTab e
  else pressOther c e

/-- The first prompt, after the welcome. The input buffer is not initialised; the history is
static. -/
def shellStart (vga : Vga) (vfs : Vfs) (inputBuf : Nat → UInt8) : Editor where
  shell := ⟨inputBuf, 0, fun _ _ => 0, 0, 0⟩
  vga :=
    let vga := vgaPuts vga (asciiBytes "[SYS_WRITE] ") 0x0A
    showPrompt (vgaPuts vga (asciiBytes "Type 'help' for commands list.\n\n") 0x0F)
  vfs := vfs
  accesses := []
  entered := []

end HumanOS

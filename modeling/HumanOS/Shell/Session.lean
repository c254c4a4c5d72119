import HumanOS.Shell.InStep
import HumanOS.Shell.Commands
import HumanOS.Shell.Entering
import HumanOS.Vfs.Mount

/-!
# Sessions at the shell

The file commands as a user means them, on a map from names to bytes, and the shell that is typed
at key by key, with its editor, its dispatcher and the file system on a reliable disk behind it.
-/
namespace HumanOS

open Lib

/-- A key at the shell, given what calls beside those of the screen print. -/
def sessionKey (fuel : Nat) (stack : Nat → UInt8) (ata : AtaInfo)
    (prints : ShellCall → List (UInt8 × UInt8)) (s : Editor × List ShellCall) (c : UInt8) :
    Option (Editor × List ShellCall) :=
  if c = 13 ∨ c = 10 then do
    let (shell, t) ← shellEnter fuel reliable stack ata s.1.shell ⟨s.1.vfs, []⟩
    return ({ s.1 with shell, vfs := t.vfs, vga := showCalls prints s.1.vga t.calls },
      s.2 ++ t.calls)
  else return (shellKey ⟨0, [], s.1.vfs⟩ s.1 c, s.2)

/-- The commands that work on a file. -/
inductive FileCommand where
  | cat (name : List UInt8)
  | touch (name : List UInt8)
  | write (name text : List UInt8)
  | rm (name : List UInt8)

namespace FileCommand

def name : FileCommand → List UInt8
  | .cat name => name
  | .touch name => name
  | .write name _ => name
  | .rm name => name

/-- The command as it is typed. -/
def line : FileCommand → List UInt8
  | .cat name => asciiBytes "cat " ++ name
  | .touch name => asciiBytes "touch " ++ name
  | .write name text => asciiBytes "write " ++ name ++ 32 :: text
  | .rm name => asciiBytes "rm " ++ name

/-- What a user can type: characters of the keyboard, a name that fits, at most 63 of them, and to
`write` a name without a blank and something to write. -/
structure Typable (c : FileCommand) : Prop where
  name : ValidName c.name
  printable : ∀ b ∈ c.line, 32 ≤ b ∧ b ≤ 126
  short : c.line.length ≤ 63
  write : ∀ name text, c = .write name text → 32 ∉ name ∧ text ≠ []

/-- The call a command comes to. -/
def op (stack : Nat → UInt8) : FileCommand → VfsOp
  | .cat name => .read name stack 512
  | .touch name => .create name
  | .write name text => .write name (fun k => text.getD k 0) text.length
  | .rm name => .delete name

def digits (n : Nat) : List ShellCall :=
  (toString n).toList.map fun c => .vgaPutc (UInt8.ofNat c.toNat) 0x0F

open Classical in
/-- What a command shows, given the files. -/
noncomputable def answer (m : FileMap) : FileCommand → List ShellCall
  | .cat name =>
    .vfsReadFile name 512 :: match m name with
      | some bytes => [.vgaPuts (asciiBytes "  ") 0x0F,
          .vgaPuts ((bytes.take 511).takeWhile (· ≠ 0)) 0x0F, .vgaPutc 10 0x0F]
      | none => [.sysWrite (asciiBytes "  File not found.") 17]
  | .touch name => [.vfsCreateFile name, .vgaPuts (asciiBytes "  File created: ") 0x0A,
      .vgaPuts name 0x0F, .vgaPutc 10 0x0F]
  | .write name text => [.vfsWriteFile name text text.length, .vgaPuts (asciiBytes "  Saved ") 0x0A]
      ++ digits text.length ++ [.vgaPuts (asciiBytes " bytes to ") 0x0A, .vgaPuts name 0x0F,
        .vgaPuts (asciiBytes " on disk!\n") 0x0A]
  | .rm name =>
    .vfsDeleteFile name ::
      if m name = none then [.sysWrite (asciiBytes "  File not found.") 17]
      else [.vgaPuts (asciiBytes "  File deleted: ") 0x0A, .vgaPuts name 0x0F, .vgaPutc 10 0x0F]

def command : FileCommand → ShellCommand
  | .cat _ => .cat
  | .touch _ => .touch
  | .write _ _ => .write
  | .rm _ => .rm

end FileCommand

variable {fuel n i : Nat} {stack buf : Nat → UInt8} {ata : AtaInfo} {line name text : List UInt8}
variable {s : ShellRun} {m : FileMap} {c : FileCommand} {e : Editor}

section Line

/-- The buffer holds the line as a C string. -/
structure LineIn (buf : Nat → UInt8) (typed : List UInt8) : Prop where
  bytes : ∀ k, ∀ hk : k < typed.length, buf k = typed[k]
  nul : buf typed.length = 0
  noNul : 0 ∉ typed

theorem LineIn.startsWith_eq (h : LineIn buf line) {word : List UInt8} (hword : 0 ∉ word) :
    startsWith buf word = word.isPrefixOf line := by
  rw [Bool.eq_iff_iff, startsWith_iff, List.isPrefixOf_iff_prefix, List.prefix_iff_getElem]
  constructor
  · intro hs
    have hle : word.length ≤ line.length := startsWith_le h.nul hword (startsWith_iff.mpr hs)
    refine ⟨hle, fun k hk => ?_⟩
    rw [← hs k hk, h.bytes k (by omega)]
  · rintro ⟨hle, hs⟩ k hk
    rw [h.bytes k (by omega), hs k hk]

theorem LineIn.dispatch_eq (h : LineIn buf line) : dispatch buf =
    ((commandWords.find? fun e => e.1.isPrefixOf line).map Prod.snd).getD .unknown := by
  have hfind : (commandWords.find? fun e => startsWith buf e.1) =
      commandWords.find? fun e => e.1.isPrefixOf line :=
    List.find?_congr fun e he => h.startsWith_eq (commandWords_nonzero e he)
  rw [dispatch, hfind]
  cases commandWords.find? fun e => e.1.isPrefixOf line <;> rfl

theorem FileCommand.dispatch_line (h : LineIn buf c.line) : dispatch buf = c.command := by
  rw [h.dispatch_eq]
  cases c <;> rfl

/-- A string that starts on the line is the rest of it. -/
theorem LineIn.stringAt_eq (h : LineIn buf line) (hi : i ≤ line.length)
    (hf : line.length < i + fuel) : stringAt buf fuel i = some (line.drop i) := by
  induction fuel generalizing i with
  | zero => omega
  | succ fuel ih =>
    rcases Nat.lt_or_eq_of_le hi with hlt | rfl
    · have hne : buf i ≠ 0 := by
        intro h0
        rw [h.bytes i hlt] at h0
        exact h.noNul (h0 ▸ List.getElem_mem hlt)
      rw [stringAt, if_neg hne, h.bytes i hlt, ih hlt (by omega), Option.map_some,
        List.drop_eq_getElem_cons hlt]
    · rw [stringAt, if_pos h.nul, List.drop_length]

theorem LineIn.byte_of_drop (h : LineIn buf line) {b : UInt8} {rest : List UInt8}
    (hdrop : line.drop i = b :: rest) : buf i = b ∧ b ≠ 0 ∧ line.drop (i + 1) = rest := by
  have hlt : i < line.length := by
    by_contra hge
    rw [List.drop_eq_nil_of_le (Nat.le_of_not_lt hge)] at hdrop
    exact absurd hdrop (by simp)
  rw [List.drop_eq_getElem_cons hlt] at hdrop
  obtain ⟨rfl, hrest⟩ := List.cons.inj hdrop
  exact ⟨h.bytes i hlt, fun h0 => h.noNul (h0 ▸ List.getElem_mem hlt), hrest⟩

/-- The name that `write` copies ends at the first blank. -/
theorem LineIn.writeName_eq (h : LineIn buf line) {room : Nat} {rest : List UInt8}
    (hname : 32 ∉ name) (hroom : name.length < room) (hdrop : line.drop i = name ++ 32 :: rest) :
    writeName buf room i = (name, i + name.length) := by
  induction name generalizing i room with
  | nil =>
    obtain ⟨room, rfl⟩ : ∃ r, room = r + 1 := ⟨room - 1, by simp at hroom; omega⟩
    obtain ⟨hbyte, -, -⟩ := h.byte_of_drop hdrop
    rw [writeName, if_neg (by simp [hbyte])]
    rfl
  | cons b name ih =>
    obtain ⟨room, rfl⟩ : ∃ r, room = r + 1 := ⟨room - 1, by simp at hroom; omega⟩
    obtain ⟨hbyte, hne, hrest⟩ := h.byte_of_drop hdrop
    simp only [List.mem_cons, not_or] at hname
    simp only [List.length_cons] at hroom
    have hcopied : buf i ≠ 32 ∧ buf i ≠ 0 := by
      rw [hbyte]
      exact ⟨fun hb => hname.1 hb.symm, hne⟩
    rw [writeName, if_pos hcopied, ih hname.2 (by omega) hrest, hbyte, List.length_cons]
    simp only [Prod.mk.injEq, true_and]
    omega

end Line

section Bodies

theorem takeWhile_nul {bytes rest : List UInt8} :
    (bytes ++ 0 :: rest).takeWhile (· ≠ 0) = bytes.takeWhile (· ≠ 0) := by
  induction bytes with
  | nil => rfl
  | cons b bytes ih => simp only [List.cons_append, List.takeWhile_cons, ih]

/-- A buffer that a file was read into, shown as a string. -/
theorem shown_readInto {bytes : List UInt8} :
    ((List.range 512).map (readInto stack bytes (min bytes.length 511))).takeWhile (· ≠ 0) =
      (bytes.take 511).takeWhile (· ≠ 0) := by
  have hle : min bytes.length 511 ≤ 511 := Nat.min_le_right _ _
  have htake : bytes.take 511 = bytes.take (min bytes.length 511) := by
    rw [List.take_eq_take_iff]
    omega
  have hlen : min bytes.length 511 ≤ bytes.length := Nat.min_le_left _ _
  rw [htake]
  generalize min bytes.length 511 = n at *
  have hrange : List.range 512 = List.range n ++ n :: (List.range (511 - n)).map (n + 1 + ·) := by
    rw [show 512 = n + 1 + (511 - n) by omega, List.range_add, List.range_succ, List.append_assoc]
    rfl
  have hcopied : (List.range n).map (readInto stack bytes n) = bytes.take n := by
    refine List.ext_getElem (by simp [hlen]) fun k hk hk' => ?_
    have hkn : k < n := by simpa using hk
    simp [readInto, hkn, hkn.trans_le hlen]
  have hnul : readInto stack bytes n n = 0 := by simp [readInto]
  rw [hrange, List.map_append, List.map_cons, hcopied, hnul, takeWhile_nul]

@[simp] theorem putDigits_calls : (s.putDigits n).calls = s.calls ++ FileCommand.digits n := by
  have hfold : ∀ (l : List Char) (s : ShellRun), (l.foldl ShellRun.putc s).calls =
      s.calls ++ l.map fun c => .vgaPutc (UInt8.ofNat c.toNat) 0x0F := by
    intro l
    induction l with
    | nil => simp
    | cons c l ih =>
      intro s
      rw [List.foldl_cons, ih]
      simp [ShellRun.putc, ShellRun.call]
  exact hfold _ s

@[simp] theorem putDigits_vfs : (s.putDigits n).vfs = s.vfs := by
  have hfold : ∀ (l : List Char) (s : ShellRun), (l.foldl ShellRun.putc s).vfs = s.vfs := by
    intro l
    induction l with
    | nil => simp
    | cons c l ih =>
      intro s
      rw [List.foldl_cons, ih]
      rfl
  exact hfold _ s

/-- The body of a command does what the command means. -/
def CarriesOut (c : FileCommand) (m : FileMap) (s : ShellRun) (result : Option ShellRun) : Prop :=
  ∃ t, result = some t ∧ t.calls = s.calls ++ c.answer m ∧
    ∀ stack, Stores t.vfs.disk (mapNext m (c.op stack))

theorem catCommand_performs (h : LineIn buf (FileCommand.cat name).line) (hname : name ≠ [])
    (hf : 64 ≤ fuel) (hshort : (FileCommand.cat name).line.length ≤ 63)
    (hst : Stores s.vfs.disk m) :
    CarriesOut (.cat name) m s (catCommand fuel reliable stack buf s) := by
  obtain ⟨b, rest, rfl⟩ := List.exists_cons_of_ne_nil hname
  obtain ⟨hbyte, hne, -⟩ := h.byte_of_drop
    (show (FileCommand.cat (b :: rest)).line.drop 4 = b :: rest from rfl)
  have harg : stringAt buf fuel 4 = some (b :: rest) :=
    h.stringAt_eq (by simp [FileCommand.line, asciiBytes]) (by omega)
  obtain ⟨hdisk, hret⟩ := vfsReadFile_reliable (b :: rest) stack stack hst (show 1 ≤ 512 by decide)
  simp only [catCommand, hbyte, if_neg hne, harg, Option.bind_eq_bind, Option.bind_some]
  generalize vfsReadFile reliable s.vfs (some (b :: rest)) (some stack) 512 stack = out at *
  obtain ⟨v', readBuf, r⟩ := out
  dsimp only at hdisk hret
  have hst' : ∀ stack', Stores v'.disk (mapNext m ((FileCommand.cat (b :: rest)).op stack')) :=
    fun _ => hdisk ▸ hst
  cases hm : m (b :: rest) with
  | none =>
    simp only [mapReturns, hm] at hret
    dsimp only
    rw [if_neg (by omega)]
    refine ⟨_, rfl, ?_, hst'⟩
    simp [ShellRun.write, ShellRun.call, FileCommand.answer, hm]
  | some bytes =>
    simp only [mapReturns, hm] at hret
    obtain ⟨hcode, rfl⟩ := hret
    dsimp only
    rw [if_pos (by omega)]
    refine ⟨_, rfl, ?_, hst'⟩
    rw [Option.getD_some, show 512 - 1 = 511 from rfl, shown_readInto]
    simp [ShellRun.puts, ShellRun.putBytes, ShellRun.putc, ShellRun.call, FileCommand.answer, hm]

theorem touchCommand_performs (h : LineIn buf (FileCommand.touch name).line)
    (hname : ValidName name) (hf : 64 ≤ fuel)
    (hshort : (FileCommand.touch name).line.length ≤ 63) (hst : Stores s.vfs.disk m) :
    CarriesOut (.touch name) m s (touchCommand fuel reliable buf s) := by
  obtain ⟨b, rest, rfl⟩ := List.exists_cons_of_ne_nil hname.nonempty
  obtain ⟨hbyte, hne, -⟩ := h.byte_of_drop
    (show (FileCommand.touch (b :: rest)).line.drop 6 = b :: rest from rfl)
  have harg : stringAt buf fuel 6 = some (b :: rest) :=
    h.stringAt_eq (by simp [FileCommand.line, asciiBytes]) (by omega)
  simp only [touchCommand, hbyte, ne_eq, hne, not_false_eq_true, if_true, harg,
    Option.bind_eq_bind, Option.bind_some]
  refine ⟨_, rfl, ?_, fun _ => (vfsCreateFile_reliable hst hname).1⟩
  simp [ShellRun.puts, ShellRun.putBytes, ShellRun.putc, ShellRun.call, FileCommand.answer]

theorem rmCommand_performs (h : LineIn buf (FileCommand.rm name).line) (hname : ValidName name)
    (hf : 64 ≤ fuel) (hshort : (FileCommand.rm name).line.length ≤ 63)
    (hst : Stores s.vfs.disk m) :
    CarriesOut (.rm name) m s (rmCommand fuel reliable buf s) := by
  obtain ⟨b, rest, rfl⟩ := List.exists_cons_of_ne_nil hname.nonempty
  obtain ⟨hbyte, hne, -⟩ := h.byte_of_drop
    (show (FileCommand.rm (b :: rest)).line.drop 3 = b :: rest from rfl)
  have harg : stringAt buf fuel 3 = some (b :: rest) :=
    h.stringAt_eq (by simp [FileCommand.line, asciiBytes]) (by omega)
  obtain ⟨-, hst', -, hcode⟩ := vfsDeleteFile_reliable hst hname.nonempty
  simp only [rmCommand, hbyte, ne_eq, hne, not_false_eq_true, if_true, harg,
    Option.bind_eq_bind, Option.bind_some]
  generalize vfsDeleteFile reliable s.vfs (some (b :: rest)) = out at *
  obtain ⟨v', code⟩ := out
  dsimp only at hst' hcode
  by_cases hm : m (b :: rest) = none
  · rw [if_neg (by simp [hcode, hm])]
    refine ⟨_, rfl, ?_, fun _ => hst'⟩
    simp [ShellRun.write, ShellRun.call, FileCommand.answer, hm]
  · rw [if_pos (by simp [hcode, hm])]
    refine ⟨_, rfl, ?_, fun _ => hst'⟩
    simp [ShellRun.puts, ShellRun.putBytes, ShellRun.putc, ShellRun.call, FileCommand.answer, hm]

theorem writeCommand_performs (h : LineIn buf (FileCommand.write name text).line)
    (hname : ValidName name) (hblank : 32 ∉ name) (htext : text ≠ []) (hf : 64 ≤ fuel)
    (hshort : (FileCommand.write name text).line.length ≤ 63) (hst : Stores s.vfs.disk m) :
    CarriesOut (.write name text) m s (writeCommand fuel reliable buf s) := by
  have hline : (FileCommand.write name text).line.drop 6 = name ++ 32 :: text := rfl
  have hcopy : writeName buf 31 6 = (name, 6 + name.length) :=
    h.writeName_eq hblank (hname.short.trans (by decide)) hline
  have hrest : (FileCommand.write name text).line.drop (6 + name.length) = 32 :: text := by
    rw [← List.drop_drop, hline, List.drop_left]
  obtain ⟨hbyte, -, htail⟩ := h.byte_of_drop hrest
  have harg : stringAt buf fuel (6 + name.length + 1) = some text := by
    rw [h.stringAt_eq _ (by omega), htail]
    simp [FileCommand.line, asciiBytes]
    omega
  have hpos : name.length > 0 ∧ text.length > 0 :=
    ⟨List.length_pos_of_ne_nil hname.nonempty, List.length_pos_of_ne_nil htext⟩
  simp only [writeCommand, hcopy, hbyte, if_true, harg, Option.bind_eq_bind, Option.bind_some,
    if_pos hpos]
  refine ⟨_, rfl, ?_, fun _ => ?_⟩
  · simp [ShellRun.puts, ShellRun.putBytes, ShellRun.call, FileCommand.answer]
  · simp only [ShellRun.puts, ShellRun.putBytes, ShellRun.call, putDigits_vfs]
    exact (vfsWriteFile_reliable _ _ hst hname).2.1

theorem performCommand_performs (stack : Nat → UInt8) (ata : AtaInfo) (hc : c.Typable)
    (h : LineIn buf c.line) (hf : 64 ≤ fuel) (hst : Stores s.vfs.disk m) :
    CarriesOut c m s (performCommand fuel reliable stack buf ata s c.command) := by
  cases c with
  | cat name => exact catCommand_performs h hc.name.nonempty hf hc.short hst
  | touch name => exact touchCommand_performs h hc.name hf hc.short hst
  | write name text =>
    obtain ⟨hblank, htext⟩ := hc.write name text rfl
    exact writeCommand_performs h hc.name hblank htext hf hc.short hst
  | rm name => exact rmCommand_performs h hc.name hf hc.short hst

end Bodies

section Session

/-- `print_shell_prompt`. -/
def promptCalls : List ShellCall :=
  [("user", 0x0A), ("@", 0x0F), ("humanos", 0x0B), (":", 0x0F), ("~", 0x0E), ("$ ", 0x0F)].map
    fun text => .vgaPuts (asciiBytes text.1) text.2

/-- What Enter shows for a command. -/
noncomputable def FileCommand.shown (m : FileMap) (c : FileCommand) : List ShellCall :=
  [.vgaPutc 10 0x0F, .vgaPutc 10 0x0F] ++ c.answer m ++ .vgaPutc 10 0x0F :: promptCalls

/-- What a session does to the files and what it shows. -/
noncomputable def session (stack : Nat → UInt8) (m : FileMap) :
    List FileCommand → FileMap × List ShellCall
  | [] => (m, [])
  | c :: cs =>
    let out := session stack (mapNext m (c.op stack)) cs
    (out.1, c.shown m ++ out.2)

/-- The keys of a session. -/
def sessionKeys (cs : List FileCommand) : List UInt8 := cs.flatMap fun c => c.line ++ [10]

theorem FileCommand.line_pos (c : FileCommand) : 0 < c.line.length := by
  cases c <;> simp [FileCommand.line, asciiBytes]

/-- The line that was typed, with the NUL that Enter puts behind it. -/
theorem lineIn_of_typed {sh : Shell} (hline : sh.line = line) (hnul : 0 ∉ line) :
    LineIn (Function.update sh.inputBuf sh.bufIdx 0) line := by
  subst hline
  have hlen : sh.line.length = sh.bufIdx := by simp [Shell.line]
  refine ⟨fun k hk => ?_, by simp [hlen], hnul⟩
  rw [hlen] at hk
  rw [Function.update_of_ne hk.ne]
  simp [Shell.line]

theorem shellEnter_performs (stack : Nat → UInt8) (ata : AtaInfo) {sh : Shell} (hc : c.Typable)
    (hline : sh.line = c.line) (hf : 64 ≤ fuel) (hst : Stores s.vfs.disk m) :
    ∃ sh' t, shellEnter fuel reliable stack ata sh s = some (sh', t) ∧ sh'.bufIdx = 0 ∧
      t.calls = s.calls ++ c.shown m ∧ Stores t.vfs.disk (mapNext m (c.op stack)) := by
  have hnul : 0 ∉ c.line := fun h0 => absurd (hc.printable 0 h0).1 (by decide)
  have hin := lineIn_of_typed hline hnul
  have hpos : sh.bufIdx > 0 := by
    have hlen : sh.line.length = sh.bufIdx := by simp [Shell.line]
    rw [← hlen, hline]
    exact c.line_pos
  obtain ⟨t, hperform, hcalls, hst'⟩ := performCommand_performs stack ata
    (s := (s.putc '\n').putc '\n') hc hin hf hst
  have hclear : c.command ≠ .clear := by cases c <;> simp [FileCommand.command]
  have hcommand : dispatch (Function.update sh.inputBuf sh.bufIdx 0) = c.command :=
    FileCommand.dispatch_line hin
  simp only [shellEnter, if_pos hpos, Shell.remember, hcommand, hperform, Option.bind_eq_bind,
    Option.bind_some, if_neg hclear]
  refine ⟨_, _, rfl, rfl, ?_, hst' stack⟩
  simp [printShellPrompt, ShellRun.puts, ShellRun.putc, ShellRun.call, hcalls, FileCommand.shown,
    promptCalls]

variable {prints : ShellCall → List (UInt8 × UInt8)} {calls : List ShellCall}

/-- The keys of the characters. -/
theorem sessionKey_printable {b : UInt8} (hb : 32 ≤ b ∧ b ≤ 126) (hroom : e.shell.bufIdx < 63) :
    sessionKey fuel stack ata prints (e, calls) b = some (e.type b, calls) := by
  have hkey : b ≠ 13 ∧ b ≠ 10 ∧ b ≠ 8 ∧ b ≠ 0x80 ∧ b ≠ 0x81 ∧ b ≠ 9 := by
    refine ⟨?_, ?_, ?_, ?_, ?_, ?_⟩ <;> rintro rfl <;> revert hb <;> decide
  simp [sessionKey, shellKey, pressOther, hkey, hroom]

/-- A text is typed. -/
theorem type_text (htext : ∀ b ∈ text, 32 ≤ b ∧ b ≤ 126)
    (hroom : e.shell.bufIdx + text.length ≤ 63) :
    ∃ e', text.foldlM (sessionKey fuel stack ata prints) (e, calls) = some (e', calls) ∧
      e'.vfs = e.vfs ∧ e'.shell.line = e.shell.line ++ text := by
  induction text generalizing e with
  | nil => exact ⟨e, rfl, rfl, by simp⟩
  | cons b text ih =>
    simp only [List.mem_cons, forall_eq_or_imp] at htext
    simp only [List.length_cons] at hroom
    obtain ⟨e', hkeys, hvfs, hline⟩ := ih (e := e.type b) htext.2 (by
      simp only [Editor.type, Editor.setBuf, Editor.setIdx, Editor.putc]
      omega)
    refine ⟨e', ?_, hvfs, ?_⟩
    · rw [List.foldlM_cons, sessionKey_printable htext.1 (by omega)]
      exact hkeys
    · rw [hline, type_line, List.append_assoc, List.singleton_append]

/-- A command is typed and entered. -/
theorem enter_command (hc : c.Typable) (hidle : e.shell.bufIdx = 0) (hf : 64 ≤ fuel)
    (hst : Stores e.vfs.disk m) :
    ∃ e', (c.line ++ [10]).foldlM (sessionKey fuel stack ata prints) (e, calls) =
        some (e', calls ++ c.shown m) ∧
      e'.shell.bufIdx = 0 ∧ Stores e'.vfs.disk (mapNext m (c.op stack)) := by
  obtain ⟨e₁, hkeys, hvfs, hline⟩ := type_text (e := e) hc.printable (by
    rw [hidle, Nat.zero_add]
    exact hc.short)
  have hempty : e.shell.line = [] := by simp [Shell.line, hidle]
  rw [hempty, List.nil_append] at hline
  obtain ⟨sh', t, henter, hidle', hcalls, hst'⟩ := shellEnter_performs stack ata
    (s := ⟨e₁.vfs, []⟩) hc hline hf (by rw [hvfs]; exact hst)
  rw [List.foldlM_append, hkeys]
  refine ⟨{ e₁ with shell := sh', vfs := t.vfs, vga := showCalls prints e₁.vga t.calls }, ?_,
    hidle', hst'⟩
  simp [sessionKey, henter, hcalls]

theorem enter_commands {cs : List FileCommand} (hcs : ∀ c ∈ cs, c.Typable)
    (hidle : e.shell.bufIdx = 0) (hf : 64 ≤ fuel) (hst : Stores e.vfs.disk m) :
    ∃ e', (sessionKeys cs).foldlM (sessionKey fuel stack ata prints) (e, calls) =
        some (e', calls ++ (session stack m cs).2) ∧
      Stores e'.vfs.disk (session stack m cs).1 := by
  induction cs generalizing e m calls with
  | nil => exact ⟨e, by simp [sessionKeys, session], hst⟩
  | cons c cs ih =>
    simp only [List.mem_cons, forall_eq_or_imp] at hcs
    obtain ⟨e₁, hkeys, hidle₁, hst₁⟩ := enter_command hcs.1 hidle hf hst
    obtain ⟨e', hrest, hst'⟩ : ∃ e', (sessionKeys cs).foldlM (sessionKey fuel stack ata prints)
        (e₁, calls ++ c.shown m) = some (e', _) ∧ _ := ih hcs.2 hidle₁ hst₁
    refine ⟨e', ?_, hst'⟩
    rw [sessionKeys, List.flatMap_cons, List.foldlM_append, hkeys]
    simpa [session, sessionKeys] using hrest

/-- From the first boot on, file commands typed at the shell key by key do to the files what they
mean on a map from names to bytes, and show what the map says. -/
theorem shell_session_refines_map {v : Vfs} {cs : List FileCommand}
    (hzero : ∀ lba k, v.disk lba k = 0) (hcs : ∀ c ∈ cs, c.Typable) (hf : 64 ≤ fuel) (vga : Vga)
    (inputBuf stack : Nat → UInt8) (ata : AtaInfo) (prints : ShellCall → List (UInt8 × UInt8)) :
    ∃ e', (sessionKeys cs).foldlM (sessionKey fuel stack ata prints)
        (shellStart vga (vfsInit reliable v) inputBuf, []) =
          some (e', (session stack readmeMap cs).2) ∧
      Stores e'.vfs.disk (session stack readmeMap cs).1 :=
  enter_commands hcs rfl hf (vfsInit_zero hzero)

/-- A file is written, shown and removed. -/
theorem shell_session_refines_map_three_commands :
    let cs : List FileCommand := [.write (asciiBytes "a.txt") (asciiBytes "hello there"),
      .cat (asciiBytes "a.txt"), .rm (asciiBytes "a.txt")]
    ∃ e', (sessionKeys cs).foldlM (sessionKey 64 (fun _ => 0) ⟨[], 0⟩ fun _ => [])
        (shellStart (bootScreen (fun _ => 0) 0 0 []) (vfsInit reliable blankVfs) fun _ => 0, []) =
          some (e', (session (fun _ => 0) readmeMap cs).2) ∧
      Stores e'.vfs.disk (session (fun _ => 0) readmeMap cs).1 := by
  intro cs
  refine shell_session_refines_map (fun _ _ => rfl) ?_ le_rfl _ _ _ _ _
  have hname : ValidName (asciiBytes "a.txt") := ⟨by decide, by decide, by decide⟩
  intro c hc
  simp only [cs, List.mem_cons, List.not_mem_nil, or_false] at hc
  obtain rfl | rfl | rfl := hc
  · refine ⟨hname, by decide +kernel, by decide, fun name text heq => ?_⟩
    obtain ⟨rfl, rfl⟩ := FileCommand.write.inj heq
    decide
  · exact ⟨hname, by decide +kernel, by decide, by simp⟩
  · exact ⟨hname, by decide +kernel, by decide, by simp⟩

end Session

end HumanOS

import HumanOS.Shell.Model
import HumanOS.Vfs.Mount
import Mathlib.Data.List.Find
import Mathlib.Data.List.GetD

/-!
# A command and its own line

The commands that take an argument look for it at a fixed offset, one byte behind the space
after their word. When the line is the word alone that offset lies behind the NUL, in what an
earlier line has left.
-/
namespace HumanOS

variable {sh sh' : Shell} {buf buf' : Nat → UInt8} {word : List UInt8} {cmd : ShellCommand}
variable {n i fuel room : Nat} {ok : Nat → Bool} {stack : Nat → UInt8} {ata : AtaInfo}
variable {s : ShellRun}

/-- The typed line. -/
def Shell.line (sh : Shell) : List UInt8 := (List.range sh.bufIdx).map sh.inputBuf

/-- The same line, with anything behind it in the input buffer. -/
structure SameTyped (sh sh' : Shell) : Prop where
  bufIdx : sh'.bufIdx = sh.bufIdx
  typed : ∀ k < sh.bufIdx, sh'.inputBuf k = sh.inputBuf k
  beyond : ∀ k ≥ 64, sh'.inputBuf k = sh.inputBuf k

/-- Enter comes back to the prompt in both, with the same calls and arguments made and the same
files left. -/
def SameCommand (sh sh' : Shell) : Prop :=
  ∀ fuel ≥ 64, ∀ ok stack ata s, ∃ t,
    (shellEnter fuel ok stack ata sh s).map Prod.snd = some t ∧
    (shellEnter fuel ok stack ata sh' s).map Prod.snd = some t

/-- The words of the commands that take an argument. -/
def bareWords : List (List UInt8) :=
  ["run", "exec", "cat", "touch", "write", "rm"].map asciiBytes

/-- Two buffers with the same bytes up to a NUL at `n`. -/
structure SameUpTo (n : Nat) (buf buf' : Nat → UInt8) : Prop where
  nul : buf n = 0
  same : ∀ k ≤ n, buf' k = buf k

section Reading

theorem startsWith_iff : startsWith buf word = true ↔
    ∀ k, ∀ hk : k < word.length, buf k = word[k] := by
  simp only [startsWith, List.all_eq_true, List.mem_range, decide_eq_true_eq]
  refine forall₂_congr fun k hk => ?_
  rw [List.getD_eq_getElem _ _ hk]

/-- A word without NUL that the buffer starts with is not longer than the line. -/
theorem startsWith_le (hn : buf n = 0) (hword : 0 ∉ word) (hs : startsWith buf word = true) :
    word.length ≤ n := by
  by_contra hlong
  have hbyte := startsWith_iff.mp hs n (by omega)
  rw [hn] at hbyte
  exact hword (hbyte ▸ List.getElem_mem _)

theorem SameUpTo.symm (h : SameUpTo n buf buf') : SameUpTo n buf' buf :=
  ⟨(h.same n le_rfl).trans h.nul, fun k hk => (h.same k hk).symm⟩

theorem SameUpTo.starts (h : SameUpTo n buf buf') (hword : 0 ∉ word)
    (hs : startsWith buf word = true) : startsWith buf' word = true := by
  have hle := startsWith_le h.nul hword hs
  refine startsWith_iff.mpr fun k hk => ?_
  rw [h.same k (by omega)]
  exact startsWith_iff.mp hs k hk

theorem SameUpTo.startsWith_eq (h : SameUpTo n buf buf') (hword : 0 ∉ word) :
    startsWith buf' word = startsWith buf word :=
  Bool.eq_iff_iff.mpr ⟨h.symm.starts hword, h.starts hword⟩

/-- Reading a string that starts on the line ends there. -/
theorem SameUpTo.stringAt_eq (h : SameUpTo n buf buf') (hi : i ≤ n) :
    stringAt buf' fuel i = stringAt buf fuel i := by
  induction fuel generalizing i with
  | zero => rfl
  | succ fuel ih =>
    simp only [stringAt, h.same i hi]
    split
    · rfl
    · rename_i hne
      have hlt : i < n := lt_of_le_of_ne hi fun he => hne (he ▸ h.nul)
      rw [ih hlt]

theorem stringAt_ends (hn : buf n = 0) (hi : i ≤ n) (hf : n < i + fuel) :
    ∃ text, stringAt buf fuel i = some text := by
  induction fuel generalizing i with
  | zero => omega
  | succ fuel ih =>
    simp only [stringAt]
    split
    · exact ⟨[], rfl⟩
    · rename_i hne
      have hlt : i < n := lt_of_le_of_ne hi fun he => hne (he ▸ hn)
      obtain ⟨text, htext⟩ := ih hlt (by omega)
      exact ⟨buf i :: text, by simp [htext]⟩

theorem SameUpTo.writeName_eq (h : SameUpTo n buf buf') (hi : i ≤ n) :
    writeName buf' room i = writeName buf room i ∧ (writeName buf room i).2 ≤ n := by
  induction room generalizing i with
  | zero => exact ⟨rfl, hi⟩
  | succ room ih =>
    simp only [writeName, h.same i hi]
    split
    · rename_i hne
      have hlt : i < n := lt_of_le_of_ne hi fun he => hne.2 (he ▸ h.nul)
      rw [(ih hlt).1]
      exact ⟨rfl, (ih hlt).2⟩
    · exact ⟨rfl, hi⟩

end Reading

section Dispatch

theorem commandWords_nonzero : ∀ e ∈ commandWords, 0 ∉ e.1 := by decide

theorem SameUpTo.dispatch_eq (h : SameUpTo n buf buf') : dispatch buf' = dispatch buf := by
  have hfind : (commandWords.find? fun e => startsWith buf' e.1) =
      commandWords.find? fun e => startsWith buf e.1 :=
    List.find?_congr fun e he => h.startsWith_eq (commandWords_nonzero e he)
  rw [dispatch, hfind, dispatch]

/-- A branch is taken because of its word. -/
theorem dispatch_word (hd : dispatch buf = cmd) (hne : cmd ≠ .unknown) :
    ∃ word, (word, cmd) ∈ commandWords ∧ startsWith buf word = true := by
  unfold dispatch at hd
  split at hd
  · rename_i e hfind
    refine ⟨e.1, ?_, by simpa using List.find?_some hfind⟩
    rw [← hd]
    exact List.mem_of_find?_eq_some hfind
  · exact (hne hd.symm).elim

/-- A line that is more than the word has at least one more byte. -/
theorem word_lt (hn : buf n = 0) (hword : 0 ∉ word) (hs : startsWith buf word = true)
    (hmore : (List.range n).map buf ≠ word) : word.length < n := by
  refine lt_of_le_of_ne (startsWith_le hn hword hs) fun hlen => hmore ?_
  refine List.ext_getElem (by simp [hlen]) fun k hk hk' => ?_
  rw [List.getElem_map, List.getElem_range]
  exact startsWith_iff.mp hs k hk'

end Dispatch

section Enter

/-- The NUL that Enter puts behind the line. -/
theorem SameTyped.sameUpTo (h : SameTyped sh sh') :
    SameUpTo sh.bufIdx (Function.update sh.inputBuf sh.bufIdx 0)
      (Function.update sh'.inputBuf sh'.bufIdx 0) := by
  refine ⟨by simp, fun k hk => ?_⟩
  rw [h.bufIdx]
  rcases hk.lt_or_eq with hlt | rfl
  · rw [Function.update_of_ne hlt.ne, Function.update_of_ne hlt.ne, h.typed k hlt]
  · simp

theorem bareWords_nonzero : ∀ word ∈ bareWords, 0 ∉ word := by decide

/-- The argument of a command starts on the line or at its NUL, unless the line is the word. -/
theorem argument_le (hn : buf n = 0) (hline : (List.range n).map buf ∉ bareWords)
    (hword : word ∈ bareWords) (hs : startsWith buf word = true) : word.length + 1 ≤ n :=
  word_lt hn (bareWords_nonzero word hword) hs fun heq => hline (heq ▸ hword)

/-- Where a command looks for its argument. -/
def argumentAt (buf : Nat → UInt8) : ShellCommand → Nat
  | .run => if buf 0 = 114 then 4 else 5
  | .cat => 4
  | .touch => 6
  | .write => 6
  | .rm => 3
  | _ => 0

theorem argumentAt_le (hn : buf n = 0) (hline : (List.range n).map buf ∉ bareWords)
    (hd : dispatch buf = cmd) : argumentAt buf cmd ≤ n := by
  by_cases hun : cmd = .unknown
  · subst hun
    exact Nat.zero_le n
  obtain ⟨word, hword, hs⟩ := dispatch_word hd hun
  cases cmd with
  | run =>
    obtain rfl | rfl : word = asciiBytes "run" ∨ word = asciiBytes "exec" := by
      simpa [commandWords] using hword
    · have hle : 4 ≤ n := argument_le hn hline (by simp [bareWords]) hs
      have hfirst : buf 0 = 114 := startsWith_iff.mp hs 0 (by decide)
      simpa only [argumentAt, if_pos hfirst]
    · have hle : 5 ≤ n := argument_le hn hline (by simp [bareWords]) hs
      simp only [argumentAt]
      split <;> omega
  | cat =>
    obtain rfl : word = asciiBytes "cat" := by simpa [commandWords] using hword
    exact argument_le hn hline (by simp [bareWords]) hs
  | touch =>
    obtain rfl : word = asciiBytes "touch" := by simpa [commandWords] using hword
    exact argument_le hn hline (by simp [bareWords]) hs
  | write =>
    obtain rfl : word = asciiBytes "write" := by simpa [commandWords] using hword
    exact argument_le hn hline (by simp [bareWords]) hs
  | rm =>
    obtain rfl : word = asciiBytes "rm" := by simpa [commandWords] using hword
    exact argument_le hn hline (by simp [bareWords]) hs
  | _ => exact Nat.zero_le n

/-- The text of `write` starts on the line as well: the byte it skips is a space, not the NUL. -/
theorem SameUpTo.writeText_le (h : SameUpTo n buf buf') (hle : 6 ≤ n) :
    (if buf (writeName buf 31 6).2 = 32 then (writeName buf 31 6).2 + 1
      else (writeName buf 31 6).2) ≤ n := by
  have hend : (writeName buf 31 6).2 ≤ n := (h.writeName_eq hle).2
  split
  · rename_i hspace
    refine lt_of_le_of_ne hend fun heq => ?_
    rw [heq, h.nul] at hspace
    exact absurd hspace (by decide)
  · exact hend

/-- A branch whose argument is on the line reads the line only. -/
theorem SameUpTo.perform_eq (h : SameUpTo n buf buf') (hle : argumentAt buf cmd ≤ n) :
    performCommand fuel ok stack buf' ata s cmd = performCommand fuel ok stack buf ata s cmd := by
  cases cmd with
  | run =>
    simp only [argumentAt] at hle
    simp only [performCommand, runCommand, h.same 0 (Nat.zero_le n), h.same _ hle,
      h.stringAt_eq hle]
  | cat =>
    simp only [argumentAt] at hle
    simp only [performCommand, catCommand, h.same 4 hle, h.stringAt_eq hle]
  | touch =>
    simp only [argumentAt] at hle
    simp only [performCommand, touchCommand, h.same 6 hle, h.stringAt_eq hle]
  | write =>
    simp only [argumentAt] at hle
    obtain ⟨hname, hend⟩ : writeName buf' 31 6 = writeName buf 31 6 ∧
        (writeName buf 31 6).2 ≤ n := h.writeName_eq hle
    simp only [performCommand, writeCommand, hname, h.same _ hend,
      h.stringAt_eq (h.writeText_le hle)]
  | rm =>
    simp only [argumentAt] at hle
    simp only [performCommand, rmCommand, h.same 3 hle, h.stringAt_eq hle]
  | _ => rfl

/-- And it comes to an end. -/
theorem SameUpTo.perform_returns (h : SameUpTo n buf buf') (hle : argumentAt buf cmd ≤ n)
    (hf : n < fuel) : ∃ t, performCommand fuel ok stack buf ata s cmd = some t := by
  have hends : ∀ i ≤ n, ∃ text, stringAt buf fuel i = some text := fun i hi =>
    stringAt_ends h.nul hi (by omega)
  obtain ⟨fname, hname⟩ := hends _ hle
  cases cmd with
  | run =>
    simp only [argumentAt] at hname
    simp only [performCommand, runCommand, hname]
    split <;> split <;> exact ⟨_, rfl⟩
  | cat =>
    simp only [argumentAt] at hname
    simp only [performCommand, catCommand, hname]
    split <;> dsimp only [Option.bind_eq_bind, Option.bind_some] <;> split <;> exact ⟨_, rfl⟩
  | touch =>
    simp only [argumentAt] at hname
    simp only [performCommand, touchCommand, hname]
    split <;> exact ⟨_, rfl⟩
  | write =>
    obtain ⟨text, htext⟩ := hends _ (h.writeText_le hle)
    simp only [performCommand, writeCommand, htext]
    dsimp only [Option.bind_eq_bind, Option.bind_some]
    split <;> exact ⟨_, rfl⟩
  | rm =>
    simp only [argumentAt] at hname
    simp only [performCommand, rmCommand, hname]
    split
    · dsimp only [Option.bind_eq_bind, Option.bind_some]
      split <;> exact ⟨_, rfl⟩
    · exact ⟨_, rfl⟩
  | _ => exact ⟨_, rfl⟩

/-- What Enter does with a line: the branch of the command, between newlines and the prompt. -/
theorem shellEnter_calls (hpos : 0 < sh.bufIdx) :
    (shellEnter fuel ok stack ata sh s).map Prod.snd =
      (performCommand fuel ok stack (Function.update sh.inputBuf sh.bufIdx 0) ata
        ((s.putc '\n').putc '\n') (dispatch (Function.update sh.inputBuf sh.bufIdx 0))).map
      fun t => printShellPrompt
        (if dispatch (Function.update sh.inputBuf sh.bufIdx 0) = .clear then t
          else t.putc '\n') := by
  simp only [shellEnter, gt_iff_lt, hpos, if_true, Shell.remember]
  cases performCommand fuel ok stack (Function.update sh.inputBuf sh.bufIdx 0) ata
    ((s.putc '\n').putc '\n') (dispatch (Function.update sh.inputBuf sh.bufIdx 0)) <;> rfl

/-- Two states with one line that is not a bare word do the same. -/
theorem SameTyped.sameCommand (h : SameTyped sh sh') (hlen : sh.bufIdx ≤ 63)
    (hline : sh.line ∉ bareWords) : SameCommand sh sh' := by
  intro fuel hfuel ok stack ata s
  have hsame := h.sameUpTo
  have hbytes : (List.range sh.bufIdx).map (Function.update sh.inputBuf sh.bufIdx 0) = sh.line := by
    refine List.map_congr_left fun k hk => ?_
    rw [Function.update_of_ne (List.mem_range.mp hk).ne]
  rcases Nat.eq_zero_or_pos sh.bufIdx with hzero | hpos
  · exact ⟨printShellPrompt (s.putc '\n'), by simp [shellEnter, hzero],
      by simp [shellEnter, h.bufIdx, hzero]⟩
  · have hle := argumentAt_le hsame.nul (by rwa [hbytes]) rfl
    obtain ⟨t, ht⟩ : ∃ t, performCommand fuel ok stack (Function.update sh.inputBuf sh.bufIdx 0)
        ata ((s.putc '\n').putc '\n') (dispatch (Function.update sh.inputBuf sh.bufIdx 0)) =
          some t := hsame.perform_returns hle (by omega)
    rw [shellEnter_calls hpos, shellEnter_calls (h.bufIdx ▸ hpos), hsame.dispatch_eq,
      hsame.perform_eq hle, ht]
    exact ⟨_, rfl, rfl⟩

end Enter

/-- A shell whose line is followed by what an earlier one has left. -/
def leftBehind (typed left : List UInt8) : Shell where
  inputBuf := fun k => (typed ++ 0 :: left).getD k 0
  bufIdx := typed.length
  cmdHistory := fun _ _ => 0
  histCount := 0
  histIdx := 0

section LeftBehind

variable {typed left left' : List UInt8}

theorem leftBehind_typed {k : Nat} (hk : k < typed.length) :
    (leftBehind typed left).inputBuf k = typed[k] := by
  have hk' : k < (typed ++ 0 :: left).length := by
    rw [List.length_append]
    omega
  change (typed ++ 0 :: left).getD k 0 = typed[k]
  rw [List.getD_eq_getElem _ _ hk', List.getElem_append_left hk]

theorem leftBehind_line : (leftBehind typed left).line = typed := by
  refine List.ext_getElem (by simp [Shell.line, leftBehind]) fun k hk hk' => ?_
  simp only [Shell.line, List.getElem_map, List.getElem_range]
  exact leftBehind_typed hk'

theorem leftBehind_beyond {k : Nat} (hlen : typed.length + left.length < 64) (hk : 64 ≤ k) :
    (leftBehind typed left).inputBuf k = 0 := by
  refine List.getD_eq_default _ _ ?_
  rw [List.length_append, List.length_cons]
  omega

theorem leftBehind_same (hlen : typed.length + left.length < 64)
    (hlen' : typed.length + left'.length < 64) :
    SameTyped (leftBehind typed left) (leftBehind typed left') := by
  refine ⟨rfl, fun k hk => ?_, fun k hk => ?_⟩
  · change k < typed.length at hk
    rw [leftBehind_typed hk, leftBehind_typed hk]
  · rw [leftBehind_beyond hlen' hk, leftBehind_beyond hlen hk]

end LeftBehind

/-- A bare word takes its argument from the line before. -/
theorem bareWords_differ : ∀ line ∈ bareWords,
    (shellEnter 64 reliable (fun _ => 0) ⟨[], 0⟩ (leftBehind line [])
      ⟨blankVfs, []⟩).map (fun r => r.2.calls) ≠
    (shellEnter 64 reliable (fun _ => 0) ⟨[], 0⟩ (leftBehind line (asciiBytes "a b"))
      ⟨blankVfs, []⟩).map (fun r => r.2.calls) := by
  decide +kernel

theorem bareWords_short : ∀ line ∈ bareWords, line.length ≤ 5 := by decide

/-- A bare word after `a b` and after nothing: one line, and not one command. -/
theorem bareWord_not_same {line : List UInt8} (hbare : line ∈ bareWords) :
    SameTyped (leftBehind line []) (leftBehind line (asciiBytes "a b")) ∧
    ¬ SameCommand (leftBehind line []) (leftBehind line (asciiBytes "a b")) := by
  have hshort := bareWords_short line hbare
  have hleft : (asciiBytes "a b").length = 3 := by decide
  refine ⟨leftBehind_same (by simp; omega) (by omega), fun hcmd => ?_⟩
  obtain ⟨t, ht, ht'⟩ := hcmd 64 le_rfl reliable (fun _ => 0) ⟨[], 0⟩ ⟨blankVfs, []⟩
  have hcalls := congrArg (Option.map ShellRun.calls) (ht.trans ht'.symm)
  rw [Option.map_map, Option.map_map] at hcalls
  exact bareWords_differ line hbare hcalls

/-- What Enter does depends on the typed line alone, exactly unless the line is the bare word of
a command that takes an argument. -/
theorem command_own_line_iff {line : List UInt8} (hlen : line.length ≤ 63) :
    (∀ sh sh', sh.line = line → SameTyped sh sh' → SameCommand sh sh') ↔ line ∉ bareWords := by
  constructor
  · intro hall hbare
    obtain ⟨hsame, hdiffer⟩ := bareWord_not_same hbare
    exact hdiffer (hall _ _ leftBehind_line hsame)
  · intro hline sh sh' htyped hsame
    have hidx : sh.bufIdx ≤ 63 := by
      have hlength : sh.line.length = sh.bufIdx := by simp [Shell.line]
      rw [← hlength, htyped]
      exact hlen
    exact hsame.sameCommand hidx (htyped ▸ hline)

/-- `rm x` deletes `x` whatever was typed before, also with `a b` left behind it. -/
theorem command_own_line_iff_rm_x :
    SameCommand (leftBehind (asciiBytes "rm x") []) (leftBehind (asciiBytes "rm x")
      (asciiBytes "a b")) :=
  (command_own_line_iff (by decide)).mpr (by decide : asciiBytes "rm x" ∉ bareWords) _ _
    leftBehind_line (leftBehind_same (by decide) (by decide))

/-- The line `rm` deletes the file that an earlier line has named. -/
theorem command_not_own_line :
    ¬ ∀ sh sh' : Shell, sh.bufIdx ≤ 63 → SameTyped sh sh' → SameCommand sh sh' := by
  intro hall
  obtain ⟨hsame, hdiffer⟩ := bareWord_not_same (by decide : asciiBytes "rm" ∈ bareWords)
  exact hdiffer (hall _ _ (by decide) hsame)

end HumanOS

import HumanOS.Shell.Editing

/-!
# Enter in the editor and in the shell

The editor leaves open what a command prints. Shown on the screen, the calls that the shell makes
when Enter is pressed are those of the editor, with what the calls of the command print.
-/
namespace HumanOS

variable {s s' s'' : ShellRun} {vga : Vga} {prints : ShellCall → List (UInt8 × UInt8)}
variable {made : ShellCall} {body : List ShellCall} {fuel n : Nat} {ok : Nat → Bool}
variable {stack buf : Nat → UInt8} {ata : AtaInfo} {cmd : ShellCommand} {text : List UInt8}

/-- What a call prints; `prints` says it of the calls that are not to the screen. -/
def callText (prints : ShellCall → List (UInt8 × UInt8)) : ShellCall → List (UInt8 × UInt8)
  | .vgaPutc c color => [(c, UInt8.ofNat color)]
  | .vgaPuts text color => text.map fun c => (c, UInt8.ofNat color)
  | call => prints call

/-- The screen after a call. -/
def showCall (prints : ShellCall → List (UInt8 × UInt8)) (vga : Vga) (call : ShellCall) : Vga :=
  if call = .vgaClear then vgaClear vga else putChars vga (callText prints call)

/-- The screen after the calls of the shell. -/
def showCalls (prints : ShellCall → List (UInt8 × UInt8)) (vga : Vga) (calls : List ShellCall) :
    Vga :=
  calls.foldl (showCall prints) vga

/-- More was printed, and the screen not cleared. -/
def PrintsMore (s s' : ShellRun) : Prop :=
  ∃ body, s'.calls = s.calls ++ body ∧ ∀ call ∈ body, call ≠ .vgaClear

section Calls

theorem PrintsMore.refl : PrintsMore s s := ⟨[], by simp, by simp⟩

theorem PrintsMore.trans (h : PrintsMore s s') (h' : PrintsMore s' s'') : PrintsMore s s'' := by
  obtain ⟨body, hcalls, hbody⟩ := h
  obtain ⟨body', hcalls', hbody'⟩ := h'
  refine ⟨body ++ body', by rw [hcalls', hcalls, List.append_assoc], fun call hcall => ?_⟩
  rcases List.mem_append.mp hcall with hfirst | hsecond
  · exact hbody call hfirst
  · exact hbody' call hsecond

theorem PrintsMore.call (h : PrintsMore s s') (hmade : made ≠ .vgaClear) :
    PrintsMore s (s'.call made) :=
  h.trans ⟨[made], rfl, by simpa using hmade⟩

theorem PrintsMore.vfs {v : Vfs} (h : PrintsMore s s') : PrintsMore s { s' with vfs := v } := h

theorem PrintsMore.putc {c : Char} (h : PrintsMore s s') : PrintsMore s (s'.putc c) :=
  h.call (by simp)

theorem PrintsMore.puts {str : String} (h : PrintsMore s s') : PrintsMore s (s'.puts str n) :=
  h.call (by simp)

theorem PrintsMore.putBytes (h : PrintsMore s s') : PrintsMore s (s'.putBytes text) :=
  h.call (by simp)

theorem PrintsMore.write {str : String} (h : PrintsMore s s') : PrintsMore s (s'.write str n) :=
  h.call (by simp)

theorem PrintsMore.foldl {α : Type} {f : ShellRun → α → ShellRun} (h : PrintsMore s s')
    (hf : ∀ s a, PrintsMore s (f s a)) (l : List α) : PrintsMore s (l.foldl f s') := by
  induction l generalizing s' with
  | nil => exact h
  | cons a l ih => exact ih (h.trans (hf s' a))

theorem PrintsMore.putDigits (h : PrintsMore s s') : PrintsMore s (s'.putDigits n) :=
  h.foldl (fun _ _ => PrintsMore.refl.putc) _

theorem PrintsMore.stressProgress {every i len : Nat} {total : String} (h : PrintsMore s s') :
    PrintsMore s (stressProgress every i total len s') := by
  unfold HumanOS.stressProgress
  split
  · exact (h.foldl (fun _ _ => PrintsMore.refl.call (by simp)) _).write
  · exact h

end Calls

section Commands

theorem runCommand_prints (h : runCommand fuel buf s = some s') : PrintsMore s s' := by
  rw [runCommand] at h
  generalize (if buf 0 = 114 then 4 else 5) = i at h
  rw [Option.bind_eq_bind] at h
  split at h
  · obtain ⟨fname, -, hcall⟩ := Option.bind_eq_some_iff.mp h
    rw [← Option.some.inj hcall]
    exact PrintsMore.refl.call (by simp)
  · rw [← Option.some.inj h]
    exact PrintsMore.refl.write

theorem catCommand_prints (h : catCommand fuel ok stack buf s = some s') : PrintsMore s s' := by
  rw [catCommand, Option.bind_eq_bind] at h
  -- the name is the argument or the default
  split at h
  all_goals
    obtain ⟨fname, -, hread⟩ := Option.bind_eq_some_iff.mp h
    dsimp only at hread
    split at hread
    · rw [← Option.some.inj hread]
      exact ((PrintsMore.refl.vfs.call (by simp)).puts.putBytes).putc
    · rw [← Option.some.inj hread]
      exact (PrintsMore.refl.vfs.call (by simp)).write

theorem touchCommand_prints (h : touchCommand fuel ok buf s = some s') : PrintsMore s s' := by
  rw [touchCommand, Option.bind_eq_bind] at h
  split at h
  · obtain ⟨fname, -, hcall⟩ := Option.bind_eq_some_iff.mp h
    rw [← Option.some.inj hcall]
    exact ((PrintsMore.refl.vfs.call (by simp)).puts.putBytes).putc
  · rw [← Option.some.inj h]
    exact .refl

theorem writeCommand_prints (h : writeCommand fuel ok buf s = some s') : PrintsMore s s' := by
  rw [writeCommand, Option.bind_eq_bind] at h
  obtain ⟨written, -, hwrite⟩ := Option.bind_eq_some_iff.mp h
  dsimp only at hwrite
  split at hwrite
  · rw [← Option.some.inj hwrite]
    exact ((PrintsMore.refl.vfs.call (by simp)).puts.putDigits.puts.putBytes).puts
  · rw [← Option.some.inj hwrite]
    exact .refl

theorem rmCommand_prints (h : rmCommand fuel ok buf s = some s') : PrintsMore s s' := by
  rw [rmCommand, Option.bind_eq_bind] at h
  split at h
  · obtain ⟨fname, -, hdelete⟩ := Option.bind_eq_some_iff.mp h
    dsimp only at hdelete
    split at hdelete
    · rw [← Option.some.inj hdelete]
      exact ((PrintsMore.refl.vfs.call (by simp)).puts.putBytes).putc
    · rw [← Option.some.inj hdelete]
      exact (PrintsMore.refl.vfs.call (by simp)).write
  · rw [← Option.some.inj h]
    exact .refl

theorem stressVfs_prints {i : Nat} : PrintsMore s (stressVfs ok stack s i) :=
  (((PrintsMore.refl.vfs.call (by simp)).vfs.call (by simp)).vfs.call
    (by simp)).stressProgress.call (by simp)

theorem stressCommand_prints : PrintsMore s (stressCommand ok stack s) := by
  refine PrintsMore.write (PrintsMore.write (PrintsMore.foldl ?_ (fun _ _ => stressVfs_prints) _))
  refine PrintsMore.write (PrintsMore.write (PrintsMore.foldl ?_
    (fun _ _ => PrintsMore.refl.stressProgress.call (by simp)) _))
  refine PrintsMore.write (PrintsMore.write (PrintsMore.foldl ?_
    (fun _ _ => ((PrintsMore.refl.call (by simp)).stressProgress).call (by simp)) _))
  exact PrintsMore.refl.write.write

/-- No command but `clear` clears the screen. -/
theorem performCommand_prints (hcmd : cmd ≠ .clear)
    (h : performCommand fuel ok stack buf ata s cmd = some s') : PrintsMore s s' := by
  cases cmd with
  | run => exact runCommand_prints h
  | cat => exact catCommand_prints h
  | touch => exact touchCommand_prints h
  | write => exact writeCommand_prints h
  | rm => exact rmCommand_prints h
  | clear => exact absurd rfl hcmd
  | ls =>
    rw [← Option.some.inj h]
    exact PrintsMore.refl.vfs.call (by simp)
  | diskinfo =>
    rw [← Option.some.inj h]
    exact PrintsMore.refl.puts.putBytes.puts.putDigits.puts.putDigits.puts
  | stress =>
    rw [← Option.some.inj h]
    exact stressCommand_prints
  | sysinfo =>
    rw [← Option.some.inj h]
    exact PrintsMore.refl.call (by simp)
  | reboot =>
    rw [← Option.some.inj h]
    exact PrintsMore.refl.call (by simp)
  | shutdown =>
    rw [← Option.some.inj h]
    exact PrintsMore.refl.call (by simp)
  | exit =>
    rw [← Option.some.inj h]
    exact PrintsMore.refl.write.call (by simp)
  | _ =>
    rw [← Option.some.inj h]
    exact PrintsMore.refl.write

end Commands

section Shown

variable {e : Editor} {sh' : Shell} {t : ShellRun}

theorem showCalls_append {calls : List ShellCall} : showCalls prints vga (calls ++ body) =
    showCalls prints (showCalls prints vga calls) body := List.foldl_append ..

/-- Calls that do not clear the screen print one after the other. -/
theorem showCalls_text (h : ∀ call ∈ body, call ≠ .vgaClear) :
    showCalls prints vga body = putChars vga (body.flatMap (callText prints)) := by
  induction body generalizing vga with
  | nil => rfl
  | cons call body ih =>
    have hcall := h call (List.mem_cons_self ..)
    have hfirst : showCalls prints vga (call :: body) =
        showCalls prints (showCall prints vga call) body := rfl
    rw [hfirst, ih fun c hc => h c (List.mem_cons_of_mem _ hc), showCall, if_neg hcall,
      List.flatMap_cons, putChars, putChars, putChars, List.foldl_append]

theorem puts_shown {str : String} {color : Nat} : showCalls prints vga (s.puts str color).calls =
    vgaPuts (showCalls prints vga s.calls) (asciiBytes str) (UInt8.ofNat color) := by
  rw [ShellRun.puts, ShellRun.call, showCalls_append]
  rfl

theorem prompt_shown : showCalls prints vga (printShellPrompt s).calls =
    showPrompt (showCalls prints vga s.calls) := by
  rw [printShellPrompt, puts_shown, puts_shown, puts_shown, puts_shown, puts_shown, puts_shown]
  rfl

theorem newline_shown : showCalls prints vga (s.putc '\n').calls =
    vgaPutc (showCalls prints vga s.calls) 10 0x0F := by
  simp only [ShellRun.putc, ShellRun.call, showCalls_append]
  rfl

/-- The screen between the line and the prompt. -/
theorem command_shown (s : ShellRun)
    (h : performCommand fuel ok stack buf ata s cmd = some t) :
    ∃ printed, showCalls prints vga (if cmd = .clear then t else t.putc '\n').calls =
      if cmd = .clear then vgaClear (putChars (showCalls prints vga s.calls) printed)
      else vgaPutc (putChars (showCalls prints vga s.calls) printed) 10 0x0F := by
  by_cases hclear : cmd = .clear
  · subst hclear
    refine ⟨[], ?_⟩
    rw [if_pos rfl, if_pos rfl, ← Option.some.inj h, ShellRun.call, showCalls_append]
    rfl
  · obtain ⟨body, hcalls, hbody⟩ := performCommand_prints hclear h
    refine ⟨body.flatMap (callText prints), ?_⟩
    rw [if_neg hclear, if_neg hclear, newline_shown, hcalls, showCalls_append,
      showCalls_text hbody]

theorem pressEnter_empty {o : CommandEnd} (hzero : ¬ e.shell.bufIdx > 0) : pressEnter o e =
    { ((e.putc 10).setBuf e.shell.bufIdx 0).setIdx 0 with
      vga := showPrompt (vgaPutc e.vga 10 0x0F) } := by
  have hended : ¬ ((e.putc 10).setBuf e.shell.bufIdx 0).shell.bufIdx > 0 := hzero
  rw [pressEnter, if_neg hended]
  rfl

theorem pressEnter_command {o : CommandEnd} (hpos : e.shell.bufIdx > 0) : pressEnter o e =
    { (enterCommand o ((e.putc 10).setBuf e.shell.bufIdx 0)).setIdx 0 with
      vga := showPrompt (enterCommand o ((e.putc 10).setBuf e.shell.bufIdx 0)).vga } := by
  have hended : ((e.putc 10).setBuf e.shell.bufIdx 0).shell.bufIdx > 0 := hpos
  rw [pressEnter, if_pos hended]

theorem enterCommand_shell {o : CommandEnd} : (enterCommand o e).shell = e.shell.remember := by
  unfold enterCommand
  dsimp only
  split <;> rfl

theorem enterCommand_vfs {o : CommandEnd} : (enterCommand o e).vfs = o.vfs := by
  unfold enterCommand
  dsimp only
  split <;> rfl

theorem enterCommand_vga {o : CommandEnd} : (enterCommand o e).vga =
    if dispatch e.shell.inputBuf = .clear then
      vgaClear (putChars (vgaPutc e.vga 10 0x0F) o.printed)
    else vgaPutc (putChars (vgaPutc e.vga 10 0x0F) o.printed) 10 0x0F := by
  by_cases hclear : dispatch e.shell.inputBuf = .clear
  · simp only [enterCommand, Editor.access, Shell.remember, Editor.putc, hclear, if_true]
  · simp only [enterCommand, Editor.access, Shell.remember, Editor.putc, hclear, if_false]

/-- Enter in the shell is Enter in the editor, for what the calls of the command print. -/
theorem shellEnter_pressEnter (prints : ShellCall → List (UInt8 × UInt8))
    (h : shellEnter fuel ok stack ata e.shell ⟨e.vfs, []⟩ = some (sh', t)) :
    ∃ printed, (pressEnter ⟨fuel, printed, t.vfs⟩ e).shell = sh' ∧
      (pressEnter ⟨fuel, printed, t.vfs⟩ e).vfs = t.vfs ∧
      (pressEnter ⟨fuel, printed, t.vfs⟩ e).vga = showCalls prints e.vga t.calls := by
  have hfirst : showCalls prints e.vga (ShellRun.putc ⟨e.vfs, []⟩ '\n').calls =
      vgaPutc e.vga 10 0x0F := newline_shown
  rw [shellEnter] at h
  dsimp only at h
  split at h
  · rename_i hpos
    rw [Option.bind_eq_bind] at h
    obtain ⟨t', hperform, heq⟩ := Option.bind_eq_some_iff.mp h
    obtain ⟨rfl, rfl⟩ := Prod.mk.inj (Option.some.inj heq)
    obtain ⟨printed, hshown⟩ : ∃ printed, showCalls prints e.vga _ = _ :=
      command_shown _ hperform
    rw [newline_shown, hfirst] at hshown
    refine ⟨printed, ?_⟩
    rw [pressEnter_command hpos, prompt_shown, hshown]
    refine ⟨?_, ?_, ?_⟩
    · simp only [Editor.setIdx, enterCommand_shell]
      rfl
    · simp only [Editor.setIdx, enterCommand_vfs]
    · simp only [enterCommand_vga, Editor.setBuf, Editor.putc, Shell.remember]
  · rename_i hzero
    obtain ⟨rfl, rfl⟩ := Prod.mk.inj (Option.some.inj h)
    refine ⟨[], ?_⟩
    rw [pressEnter_empty hzero, prompt_shown, hfirst]
    refine ⟨rfl, rfl, ?_⟩
    simp only

end Shown

end HumanOS

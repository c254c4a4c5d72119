import HumanOS.Lib.Run
import HumanOS.Shell.Editing

/-!
# The line and the screen

Whatever keys are pressed, the row of the cursor shows the prompt and the line behind it. The
accesses to the arrays stay inside of them as long as no command reads a string that does not
end in the input buffer.
-/
namespace HumanOS

open Lib

variable {P : ShellAccess → Prop} {e e' : Editor} {c : UInt8} {o : CommandEnd}

/-- The keys: printable characters, backspace, Tab, Enter and the arrows. -/
def IsKeyChar (c : UInt8) : Prop :=
  (32 ≤ c ∧ c ≤ 126) ∨ c = 8 ∨ c = 9 ∨ c = 10 ∨ c = 13 ∨ c = 0x80 ∨ c = 0x81

/-- A key, with printable names where it completes one. -/
structure GivenKey (e : Editor) (c : UInt8) : Prop where
  key : IsKeyChar c
  names : c = 9 → PrintableNames e.vfs

/-- A key after which the commands entered can still be counted: `hist_count` is an `int`. -/
structure CountedKey (e : Editor) (c : UInt8) : Prop extends GivenKey e c where
  count : c = 13 ∨ c = 10 → 0 < e.shell.bufIdx → e.shell.histCount + 1 < 2 ^ 31

/-- Beside that, a string that a command reads to its end has one in the input buffer. -/
structure WithinLimits (e : Editor) (c : UInt8) : Prop extends CountedKey e c where
  argument : c = 13 ∨ c = 10 → 0 < e.shell.bufIdx → ArgumentEnds e.shell.entered

/-- A key that is allowed, and what the command did if it was Enter. -/
def KeyStep (allowed : Editor → UInt8 → Prop) (e : Editor) (k : UInt8 × CommandEnd) (e' : Editor) :
    Prop :=
  allowed e k.1 ∧ e' = shellKey k.2 e k.1

/-- The screen as `vga_init` and the boot messages leave it. -/
def bootScreen (buffer : Int → UInt16) (x y : Int) (messages : List (UInt8 × UInt8)) : Vga :=
  putChars (vgaInit ⟨buffer, x, y, []⟩) messages

/-- The buffer and the screen are in step. -/
structure InStep (e : Editor) : Prop where
  idx : e.shell.bufIdx ≤ 63
  accesses : ∀ a ∈ e.accesses, a.InBounds
  cursor : e.vga.cursorX = 16 + e.shell.bufIdx
  row : e.vga.cursorRow =
    promptText ++ e.shell.line ++ List.replicate (64 - e.shell.bufIdx) 32

theorem EditorAt.inStep (h : EditorAt ShellAccess.InBounds e e.shell.bufIdx) : InStep e := by
  have hlength : (promptText ++ e.shell.line).length = 16 + e.shell.bufIdx := by
    rw [List.length_append, line_length]
    rfl
  have hshown : e.vga.Shows (promptText ++ e.shell.line) := h.shown
  refine ⟨h.le, h.accesses, ?_, ?_⟩
  · rw [hshown.cursor, hlength]
    push_cast
    rfl
  · have hrest : 80 - (16 + e.shell.bufIdx) = 64 - e.shell.bufIdx := by omega
    rw [hshown.cursorRow_eq, hlength, hrest]

section Keys

theorem pressBackspace_at (h : EditorAt P e e.shell.bufIdx) :
    EditorAt P (pressBackspace e) (pressBackspace e).shell.bufIdx := by
  rw [pressBackspace]
  split
  · rename_i hpos
    obtain ⟨n, hn⟩ := Nat.exists_eq_succ_of_ne_zero (Nat.pos_iff_ne_zero.mp hpos)
    rw [hn] at h ⊢
    exact h.setIdx.rubOut
  · exact h

theorem pressOther_at (hP : ∀ a, a.InBounds → P a) (h : EditorAt P e e.shell.bufIdx)
    (hc : IsPlain c) : EditorAt P (pressOther c e) (pressOther c e).shell.bufIdx :=
  typeIfRoom_at hP h hc

/-- What every key preserves. -/
theorem shellKey_at (hP : ∀ a, a.InBounds → P a) (h : EditorAt P e e.shell.bufIdx)
    (hkey : CountedKey e c)
    (harg : c = 13 ∨ c = 10 → 0 < e.shell.bufIdx →
      ∀ x ∈ argReads o.fuel e.shell.entered (dispatch e.shell.entered), P x) :
    EditorAt P (shellKey o e c) (shellKey o e c).shell.bufIdx := by
  unfold shellKey
  split
  · rename_i henter
    exact pressEnter_at hP h (hkey.count henter) (harg henter)
  · rename_i henter
    split
    · exact pressBackspace_at h
    · split
      · exact pressUp_at hP h
      · split
        · exact pressDown_at hP h
        · split
          · rename_i htab
            exact pressTab_at hP h (hkey.names htab)
          · rename_i hbs hup hdown htab
            refine pressOther_at hP h (isPlain_printable ?_)
            rcases hkey.key with hprintable | rfl | rfl | rfl | rfl | rfl | rfl
            · exact hprintable
            all_goals simp_all

end Keys

section Start

theorem newlineEnd_shows {s : Vga} {color : UInt8} {text : List UInt8} (h : s.BlankBehind) :
    (vgaPuts s (text ++ [10]) color).Shows [] := by
  have hlast : vgaPuts s (text ++ [10]) color = vgaPutc (vgaPuts s text color) 10 color := by
    simp [vgaPuts, putChars]
  rw [hlast]
  exact newline_shows (h.putChars _)

theorem shellStart_at {s : Vga} {vfs : Vfs} {inputBuf : Nat → UInt8} (h : s.BlankBehind) :
    EditorAt P (shellStart s vfs inputBuf) (shellStart s vfs inputBuf).shell.bufIdx := by
  have hwelcome : asciiBytes "Type 'help' for commands list.\n\n" =
      asciiBytes "Type 'help' for commands list.\n" ++ [10] := by decide
  have hshown : (shellStart s vfs inputBuf).vga.Shows promptText := by
    simp only [shellStart]
    rw [hwelcome]
    exact showPrompt_shows (newlineEnd_shows (h.putChars _))
  refine ⟨Nat.zero_le _, fun k hk => absurd hk (Nat.not_lt_zero k), ?_, ?_, Nat.le_refl _, ?_, ?_⟩
  · have hempty : (List.range (shellStart s vfs inputBuf).shell.bufIdx).map
        (shellStart s vfs inputBuf).shell.inputBuf = [] := rfl
    rw [hempty, List.append_nil]
    exact hshown
  · intro slot c hc
    have hempty : (shellStart s vfs inputBuf).shell.historyLine slot = [] :=
      takeWhile_range_le (Nat.zero_le _) (by simp) fun _ => rfl
    rw [hempty] at hc
    simp at hc
  · show (0 : Nat) < 2 ^ 31
    omega
  · intro a ha
    simp [shellStart] at ha

theorem bootScreen_blank (buffer : Int → UInt16) (x y : Int) (messages : List (UInt8 × UInt8)) :
    (bootScreen buffer x y messages).BlankBehind :=
  (vgaInit_shows (by simp)).toBlankBehind.putChars messages

end Start

/-- In every run within the limits, the buffer and the screen are in step. -/
theorem line_editor_in_step (buffer : Int → UInt16) (x y : Int)
    (messages : List (UInt8 × UInt8)) (vfs : Vfs) (inputBuf : Nat → UInt8)
    (keys : List (UInt8 × CommandEnd))
    (h : Run (KeyStep WithinLimits) (shellStart (bootScreen buffer x y messages) vfs inputBuf)
      keys e) :
    InStep e := by
  refine EditorAt.inStep (h.invariant (fun e => EditorAt ShellAccess.InBounds e e.shell.bufIdx)
    ?_ (shellStart_at (bootScreen_blank buffer x y messages)))
  rintro e k e' ⟨hlimits, rfl⟩ hat
  exact shellKey_at (fun _ ha => ha) hat hlimits.toCountedKey fun henter hpos x hx =>
    argumentEnds_iff.mp (hlimits.argument henter hpos) _ x hx

section Runs

/-- No files. -/
def Vfs.empty : Vfs := ⟨fun _ => ⟨fun _ => 0, 0, 0, 0⟩, fun _ _ => 0, 0, []⟩

/-- A command that prints nothing and leaves no files. -/
def CommandEnd.silent : CommandEnd := ⟨64, [], .empty⟩

/-- A text typed, for commands that print nothing. -/
def typedKeys (text : String) : List (UInt8 × CommandEnd) :=
  (asciiBytes text).map fun c => (c, .silent)

/-- The state after some keys. -/
def pressed (e : Editor) (keys : List (UInt8 × CommandEnd)) : Editor :=
  keys.foldl (fun e k => shellKey k.2 e k.1) e

theorem pressed_run {allowed : Editor → UInt8 → Prop} {keys : List (UInt8 × CommandEnd)}
    (h : ∀ e, ∀ k ∈ keys, allowed e k.1) : Run (KeyStep allowed) e keys (pressed e keys) := by
  induction keys generalizing e with
  | nil => exact .refl
  | cons k keys ih =>
    refine .stepL ⟨h e k (List.mem_cons_self ..), rfl⟩ (ih fun e k hk => ?_)
    exact h e k (List.mem_cons_of_mem _ hk)

/-- The shell started with the same byte all over its input buffer. -/
def startFilled (b : UInt8) : Editor :=
  shellStart (bootScreen (fun _ => 0) 0 0 []) .empty fun _ => b

theorem givenKey_printable (h : 32 ≤ c ∧ c ≤ 126) : GivenKey e c := by
  refine ⟨Or.inl h, ?_⟩
  rintro rfl
  exact absurd h (by decide)

theorem givenKey_enter : GivenKey e 10 :=
  ⟨Or.inr (Or.inr (Or.inr (Or.inl rfl))), fun htab => absurd htab (by decide)⟩

theorem not_enter (h : 32 ≤ c ∧ c ≤ 126) : ¬ (c = 13 ∨ c = 10) := by
  rintro (rfl | rfl) <;> exact absurd h (by decide)

theorem withinLimits_printable (h : 32 ≤ c ∧ c ≤ 126) : WithinLimits e c :=
  ⟨⟨givenKey_printable h, fun hc => absurd hc (not_enter h)⟩, fun hc => absurd hc (not_enter h)⟩

/-- "ls" and Enter. -/
theorem line_editor_in_step_ls : InStep (pressed (startFilled 0) (typedKeys "ls\n")) := by
  have henter : WithinLimits (pressed (startFilled 0) (typedKeys "ls")) 10 := by
    have hnone : argOffset (pressed (startFilled 0) (typedKeys "ls")).shell.entered
        (dispatch (pressed (startFilled 0) (typedKeys "ls")).shell.entered) = none := by
      decide +kernel
    refine ⟨⟨givenKey_enter, fun _ _ => by decide +kernel⟩, fun _ _ i hi => ?_⟩
    rw [hnone] at hi
    simp at hi
  refine line_editor_in_step (fun _ => 0) 0 0 [] .empty (fun _ => 0) (typedKeys "ls\n") ?_
  exact .stepL ⟨withinLimits_printable (by decide), rfl⟩
    (.stepL ⟨withinLimits_printable (by decide), rfl⟩ (.single ⟨henter, rfl⟩))

theorem touch_keys : ∀ k ∈ typedKeys "touch\n", (32 ≤ k.1 ∧ k.1 ≤ 126) ∨ k.1 = 10 := by decide

/-- The name of `touch` is looked for behind the line, in an input buffer that nothing was stored
to, and is followed out of it. -/
theorem line_editor_runs_over : ¬ ∀ buffer x y messages vfs inputBuf keys e,
    Run (KeyStep GivenKey) (shellStart (bootScreen buffer x y messages) vfs inputBuf) keys e →
      InStep e := by
  intro hall
  have hrun : Run (KeyStep GivenKey) (startFilled 65) (typedKeys "touch\n")
      (pressed (startFilled 65) (typedKeys "touch\n")) := by
    refine pressed_run fun e k hk => ?_
    rcases touch_keys k hk with hprintable | henter
    · exact givenKey_printable hprintable
    · rw [henter]
      exact givenKey_enter
  have hread : ShellAccess.inputBuf 64 ∈
      (pressed (startFilled 65) (typedKeys "touch\n")).accesses := by decide +kernel
  exact absurd ((hall _ _ _ _ _ _ _ _ hrun).accesses _ hread) (Nat.lt_irrefl 64)

end Runs

end HumanOS

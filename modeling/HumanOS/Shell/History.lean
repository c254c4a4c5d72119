import HumanOS.Lib.Newest
import HumanOS.Shell.InStep

/-!
# The history

The lines entered go round the ten slots of `cmd_history`, while the arrows move over all of
them. A line comes back from its slot as long as no later one has been stored there.
-/
namespace HumanOS

open Lib

variable {e e' e'' : Editor} {c : UInt8} {o : CommandEnd} {n k idx room : Nat}

/-- An arrow that puts a line of the history into the input line. -/
def Recalls (e : Editor) (c : UInt8) : Prop :=
  (c = 0x80 ∧ 0 < e.shell.histCount ∧ 0 < e.shell.histIdx) ∨
    (c = 0x81 ∧ e.shell.histIdx + 1 < e.shell.histCount)

/-- The `hist_idx` that an arrow moves to. -/
def arrowIdx (e : Editor) (c : UInt8) : Nat :=
  if c = 0x80 then e.shell.histIdx - 1 else e.shell.histIdx + 1

/-- The history and the counters are untouched. -/
structure SameHistory (e e' : Editor) : Prop where
  slots : e'.shell.cmdHistory = e.shell.cmdHistory
  count : e'.shell.histCount = e.shell.histCount
  idx : e'.shell.histIdx = e.shell.histIdx
  entered : e'.entered = e.entered

/-- The slots hold the newest lines entered. -/
structure HistoryKept (e : Editor) : Prop where
  count : e.shell.histCount = e.entered.length
  slots : HoldsNewest maxHist e.shell.historyLine e.entered

section Frame

theorem SameHistory.refl : SameHistory e e := ⟨rfl, rfl, rfl, rfl⟩

theorem SameHistory.trans (h : SameHistory e e') (h' : SameHistory e' e'') : SameHistory e e'' :=
  ⟨h'.slots.trans h.slots, h'.count.trans h.count, h'.idx.trans h.idx, h'.entered.trans h.entered⟩

theorem SameHistory.kept (h : SameHistory e e') (hkept : HistoryKept e) : HistoryKept e' := by
  have hlines : e'.shell.historyLine = e.shell.historyLine := by
    funext slot
    rw [Shell.historyLine, Shell.historyLine, h.slots]
  refine ⟨?_, ?_⟩
  · rw [h.count, h.entered]
    exact hkept.count
  · rw [hlines, h.entered]
    exact hkept.slots

theorem SameHistory.access {l : List ShellAccess} (h : SameHistory e e') :
    SameHistory e (e'.access l) := h.trans ⟨rfl, rfl, rfl, rfl⟩

theorem SameHistory.putc (h : SameHistory e e') : SameHistory e (e'.putc c) :=
  h.trans ⟨rfl, rfl, rfl, rfl⟩

theorem SameHistory.setIdx (h : SameHistory e e') : SameHistory e (e'.setIdx n) :=
  h.trans ⟨rfl, rfl, rfl, rfl⟩

theorem SameHistory.setBuf (h : SameHistory e e') : SameHistory e (e'.setBuf k c) :=
  h.trans ⟨rfl, rfl, rfl, rfl⟩

theorem SameHistory.type (h : SameHistory e e') : SameHistory e (e'.type c) :=
  h.setBuf.setIdx.putc

theorem SameHistory.rubOut (h : SameHistory e e') : SameHistory e e'.rubOut := h.putc.putc.putc

theorem eraseLine_same : SameHistory e (eraseLine n e) := by
  induction n generalizing e with
  | zero => exact .refl
  | succ n ih => exact SameHistory.refl.rubOut.setIdx.trans ih

theorem recallLoop_same : SameHistory e (recallLoop idx room k e) := by
  induction room generalizing k e with
  | zero => exact SameHistory.refl.access.setIdx
  | succ room ih =>
    rw [recallLoop]
    split
    · exact SameHistory.refl.access.setBuf.putc.trans ih
    · exact SameHistory.refl.access.setIdx

theorem recallLine_same : SameHistory e (recallLine e) := recallLoop_same.setBuf

theorem appendCommand_same {i : Nat} {rest : List UInt8} :
    SameHistory e (appendCommand i rest k e) := by
  induction rest generalizing k e with
  | nil => exact SameHistory.refl.access
  | cons c rest ih => exact SameHistory.refl.access.type.trans ih

theorem typeIfRoom_same : SameHistory e (if e.shell.bufIdx < 63 then e.type c else e) := by
  split
  · exact SameHistory.refl.type
  · exact .refl

theorem appendName_same {rest : List UInt8} : SameHistory e (appendName rest e) := by
  induction rest generalizing e with
  | nil => exact .refl
  | cons c rest ih => exact typeIfRoom_same.trans ih

theorem completeCommand_same : SameHistory e (completeCommand e) := by
  rw [completeCommand]
  dsimp only
  split
  · exact (SameHistory.refl.access.trans (appendCommand_same.trans typeIfRoom_same)).setBuf
  · exact SameHistory.refl.access

theorem completeFile_same {spacePos : Nat} : SameHistory e (completeFile spacePos e) := by
  rw [completeFile]
  dsimp only
  split
  · exact (SameHistory.refl.access.access.trans appendName_same).setBuf
  · exact SameHistory.refl.access.access

theorem pressTab_same : SameHistory e (pressTab e) := by
  rw [pressTab]
  split
  · dsimp only
    split
    · exact SameHistory.refl.setBuf.access.trans completeCommand_same
    · exact SameHistory.refl.setBuf.access.trans completeFile_same
  · exact .refl

theorem pressBackspace_same : SameHistory e (pressBackspace e) := by
  rw [pressBackspace]
  split
  · exact SameHistory.refl.setIdx.rubOut
  · exact .refl

end Frame

section Recall

/-- The copy is the stored line. -/
theorem recallLoop_line (hroom : k + room = 63)
    (hbefore : ∀ j < k, e.shell.cmdHistory (idx % maxHist) j ≠ 0)
    (hcopied : ∀ j < k, e.shell.inputBuf j = e.shell.cmdHistory (idx % maxHist) j) :
    (recallLoop idx room k e).shell.line = e.shell.historyLine (idx % maxHist) := by
  have hline : (List.range k).map e.shell.inputBuf =
      (List.range k).map (e.shell.cmdHistory (idx % maxHist)) :=
    List.map_congr_left fun j hj => hcopied j (List.mem_range.mp hj)
  induction room generalizing k e with
  | zero =>
    rw [Shell.historyLine, takeWhile_range_le (by omega) hbefore (by omega)]
    exact hline
  | succ room ih =>
    rw [recallLoop]
    split
    · rename_i hbyte
      have hnext : ∀ j < k + 1, (((e.access [.cmdHistory (histSlot idx) k]).setBuf k
          (e.shell.cmdHistory (idx % maxHist) k)).putc
            (e.shell.cmdHistory (idx % maxHist) k)).shell.inputBuf j =
              e.shell.cmdHistory (idx % maxHist) j := by
        intro j hj
        simp only [Editor.putc, Editor.setBuf, Editor.access, Function.update_apply]
        split
        · rename_i heq
          rw [heq]
        · exact hcopied j (by omega)
      refine ih (by omega) (fun j hj => ?_) hnext
        (List.map_congr_left fun j hj => hnext j (List.mem_range.mp hj))
      rcases Nat.lt_succ_iff_lt_or_eq.mp hj with hlt | rfl
      · exact hbefore j hlt
      · exact hbyte
    · rename_i hnul
      push Not at hnul
      rw [Shell.historyLine, takeWhile_range_le (by omega) hbefore fun _ => hnul]
      exact hline

theorem recallLine_line :
    (recallLine e).shell.line = e.shell.historyLine (e.shell.histIdx % maxHist) := by
  have hloop : (recallLoop e.shell.histIdx 63 0 e).shell.line = _ :=
    recallLoop_line rfl (by simp) (by simp)
  rw [← hloop, recallLine, Shell.line, Shell.line]
  refine List.map_congr_left fun j hj => ?_
  have hlt : j < (recallLoop e.shell.histIdx 63 0 e).shell.bufIdx := List.mem_range.mp hj
  exact Function.update_of_ne (by omega) _ _

/-- Both arrows erase the line, move on and copy. -/
theorem shellKey_recalls (h : Recalls e c) : shellKey o e c =
    recallLine (eraseLine e.shell.bufIdx (e.setHistIdx (arrowIdx e c))) := by
  rcases h with ⟨rfl, hpos⟩ | ⟨rfl, hlt⟩
  · exact if_pos hpos
  · have hmoved : SameHistory (e.setHistIdx (e.shell.histIdx + 1)) (eraseLine e.shell.bufIdx
      (e.setHistIdx (e.shell.histIdx + 1))) := eraseLine_same
    have hpress : shellKey o e 0x81 = pressDown e := rfl
    rw [hpress, pressDown, if_pos (by omega)]
    dsimp only
    rw [if_pos ?_]
    · rfl
    · have hidx := hmoved.idx
      have hcount := hmoved.count
      simp only [Editor.setHistIdx] at hidx hcount ⊢
      omega

theorem recalled_idx (h : Recalls e c) : (shellKey o e c).shell.histIdx = arrowIdx e c := by
  rw [shellKey_recalls h]
  exact (eraseLine_same.trans recallLine_same).idx

theorem recalled_line (h : Recalls e c) :
    (shellKey o e c).shell.line = e.shell.historyLine (arrowIdx e c % maxHist) := by
  have hmoved : SameHistory (e.setHistIdx (arrowIdx e c))
      (eraseLine e.shell.bufIdx (e.setHistIdx (arrowIdx e c))) := eraseLine_same
  rw [shellKey_recalls h, recallLine_line, hmoved.idx, Shell.historyLine, hmoved.slots]
  rfl

theorem arrowIdx_lt (h : Recalls e c) (hidx : e.shell.histIdx ≤ e.shell.histCount) :
    arrowIdx e c < e.shell.histCount := by
  rcases h with ⟨rfl, hcount, hpos⟩ | ⟨rfl, hlt⟩
  · rw [arrowIdx, if_pos rfl]
    omega
  · exact hlt

end Recall

section Kept

theorem setHistIdx_kept (h : HistoryKept e) : HistoryKept (e.setHistIdx n) := ⟨h.count, h.slots⟩

theorem pressUp_kept (h : HistoryKept e) : HistoryKept (pressUp e) := by
  rw [pressUp]
  split
  · exact (eraseLine_same.trans recallLine_same).kept (setHistIdx_kept h)
  · exact h

theorem pressDown_kept (h : HistoryKept e) : HistoryKept (pressDown e) := by
  rw [pressDown]
  split
  · dsimp only
    split
    · exact (eraseLine_same.trans recallLine_same).kept (setHistIdx_kept h)
    · exact eraseLine_same.setIdx.setBuf.kept (setHistIdx_kept h)
  · exact h

/-- The line entered goes into the slot of its number. -/
theorem enterCommand_kept (h : HistoryKept e) (hle : e.shell.bufIdx ≤ 63)
    (hbytes : ∀ k < e.shell.bufIdx, e.shell.inputBuf k ≠ 0)
    (hnul : e.shell.inputBuf e.shell.bufIdx = 0) : HistoryKept (enterCommand o e) := by
  have hlines : e.shell.remember.historyLine =
      Function.update e.shell.historyLine (e.entered.length % maxHist) e.shell.line := by
    funext slot
    rw [remember_historyLine hle hbytes hnul, Function.update_apply, h.count]
  have hpushed :
      HoldsNewest maxHist e.shell.remember.historyLine (e.entered ++ [e.shell.line]) := by
    rw [hlines]
    exact h.slots.push
  have hcount : e.shell.histCount + 1 = (e.entered ++ [e.shell.line]).length := by
    rw [List.length_append, List.length_singleton, h.count]
  unfold enterCommand
  dsimp only
  split
  · exact ⟨hcount, hpushed⟩
  · exact ⟨hcount, hpushed⟩

theorem pressEnter_kept {P : ShellAccess → Prop} (h : HistoryKept e)
    (hat : EditorAt P e e.shell.bufIdx) : HistoryKept (pressEnter o e) := by
  have hended : HistoryKept ((e.putc 10).setBuf e.shell.bufIdx 0) :=
    SameHistory.refl.putc.setBuf.kept h
  rw [pressEnter]
  split
  · have hentered : HistoryKept (enterCommand o ((e.putc 10).setBuf e.shell.bufIdx 0)) := by
      refine enterCommand_kept hended hat.le (fun k hk => ?_) (Function.update_self ..)
      have hlt : k < e.shell.bufIdx := hk
      have hsame : ((e.putc 10).setBuf e.shell.bufIdx 0).shell.inputBuf k = e.shell.inputBuf k :=
        Function.update_of_ne (by omega) _ _
      rw [hsame]
      exact (hat.plain k hk).nonzero
    exact ⟨hentered.count, hentered.slots⟩
  · exact ⟨hended.count, hended.slots⟩

/-- What every key preserves of the history. -/
theorem shellKey_kept {P : ShellAccess → Prop} (h : HistoryKept e)
    (hat : EditorAt P e e.shell.bufIdx) : HistoryKept (shellKey o e c) := by
  unfold shellKey
  split
  · exact pressEnter_kept h hat
  · split
    · exact pressBackspace_same.kept h
    · split
      · exact pressUp_kept h
      · split
        · exact pressDown_kept h
        · split
          · exact pressTab_same.kept h
          · exact typeIfRoom_same.kept h

end Kept

/-- In every run, an arrow brings back the line of its number exactly if that is one of the last
ten, or the line stored over it is the same. -/
theorem history_recall_iff (buffer : Int → UInt16) (x y : Int)
    (messages : List (UInt8 × UInt8)) (vfs : Vfs) (inputBuf : Nat → UInt8)
    (keys : List (UInt8 × CommandEnd)) (o : CommandEnd)
    (h : Run (KeyStep CountedKey) (shellStart (bootScreen buffer x y messages) vfs inputBuf)
      keys e) (hrecall : Recalls e c) :
    (shellKey o e c).shell.histIdx = arrowIdx e c ∧
      (e.entered[arrowIdx e c]? = some (shellKey o e c).shell.line ↔
        e.entered.length ≤ arrowIdx e c + maxHist ∨
          e.entered[newest maxHist e.entered.length (arrowIdx e c)]? =
            e.entered[arrowIdx e c]?) := by
  have hinv : EditorAt (fun _ => True) e e.shell.bufIdx ∧ HistoryKept e := by
    refine h.invariant (fun e => EditorAt (fun _ => True) e e.shell.bufIdx ∧ HistoryKept e) ?_
      ⟨shellStart_at (bootScreen_blank buffer x y messages), rfl, ?_⟩
    · rintro e k e' ⟨hkey, rfl⟩ ⟨hat, hkept⟩
      exact ⟨shellKey_at (fun _ _ => trivial) hat hkey (by simp), shellKey_kept hkept hat⟩
    · intro j hj
      simp [shellStart] at hj
  have hlt := arrowIdx_lt hrecall hinv.1.histIdx
  rw [hinv.2.count] at hlt
  rw [recalled_line hrecall]
  exact ⟨recalled_idx hrecall, hinv.2.slots.read_iff (by decide) hlt⟩

section Runs

theorem givenKey_up : GivenKey e 0x80 :=
  ⟨by simp [IsKeyChar], fun htab => absurd htab (by decide)⟩

/-- "ls", Enter and the upper arrow. -/
theorem history_recall_iff_ls :
    (pressed (startFilled 0) (typedKeys "ls\n")).entered[0]? =
      some (shellKey .silent (pressed (startFilled 0) (typedKeys "ls\n")) 0x80).shell.line := by
  have henter : CountedKey (pressed (startFilled 0) (typedKeys "ls")) 10 :=
    ⟨givenKey_enter, fun _ _ => by decide +kernel⟩
  have hrun : Run (KeyStep CountedKey) (startFilled 0) (typedKeys "ls\n")
      (pressed (startFilled 0) (typedKeys "ls\n")) :=
    .stepL ⟨(withinLimits_printable (by decide)).toCountedKey, rfl⟩
      (.stepL ⟨(withinLimits_printable (by decide)).toCountedKey, rfl⟩ (.single ⟨henter, rfl⟩))
  have hrecall : Recalls (pressed (startFilled 0) (typedKeys "ls\n")) 0x80 :=
    Or.inl ⟨rfl, by decide +kernel, by decide +kernel⟩
  have hidx : arrowIdx (pressed (startFilled 0) (typedKeys "ls\n")) 0x80 = 0 := by decide +kernel
  have hiff := (history_recall_iff (fun _ => 0) 0 0 [] .empty (fun _ => 0) (typedKeys "ls\n")
    .silent hrun hrecall).2
  rw [hidx] at hiff
  exact hiff.mpr (Or.inl (by decide +kernel))

/-- Eleven commands, and ten times the upper arrow. -/
def elevenCommands : List (UInt8 × CommandEnd) :=
  typedKeys "a\nb\nc\nd\ne\nf\ng\nh\ni\nj\nk\n" ++
    List.replicate 10 (0x80, .silent)

theorem elevenCommands_keys :
    ∀ k ∈ elevenCommands, (32 ≤ k.1 ∧ k.1 ≤ 126) ∨ k.1 = 10 ∨ k.1 = 0x80 := by
  decide +kernel

/-- Once more the arrow, and the first command comes back as the eleventh. -/
theorem history_recall_fails :
    ¬ ∀ buffer x y messages vfs inputBuf keys e c o,
      Run (KeyStep GivenKey) (shellStart (bootScreen buffer x y messages) vfs inputBuf) keys e →
        Recalls e c → e.entered[arrowIdx e c]? = some (shellKey o e c).shell.line := by
  intro hall
  have hrun : Run (KeyStep GivenKey) (startFilled 0) elevenCommands
      (pressed (startFilled 0) elevenCommands) := by
    refine pressed_run fun e k hk => ?_
    rcases elevenCommands_keys k hk with hprintable | henter | hup
    · exact givenKey_printable hprintable
    · rw [henter]
      exact givenKey_enter
    · rw [hup]
      exact givenKey_up
  have hrecall : Recalls (pressed (startFilled 0) elevenCommands) 0x80 :=
    Or.inl ⟨rfl, by decide +kernel, by decide +kernel⟩
  have hdiffer : (pressed (startFilled 0) elevenCommands).entered[arrowIdx
      (pressed (startFilled 0) elevenCommands) 0x80]? ≠
        some (shellKey .silent (pressed (startFilled 0) elevenCommands) 0x80).shell.line := by
    decide +kernel
  exact hdiffer (hall _ _ _ _ _ _ _ _ _ _ hrun hrecall)

end Runs

end HumanOS

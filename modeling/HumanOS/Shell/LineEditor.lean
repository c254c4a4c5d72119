import HumanOS.Shell.Entering
import HumanOS.Shell.History

/-!
# What the line editor is for

A line, the lines entered before it and a place among these, with one rule for each key. The keys
at the shell do to its buffers, and to the screen, what the rules say.
-/
namespace HumanOS

open Lib

/-- The editor as its user sees it. `place` is the line that the arrows have come to. -/
structure LineEditor where
  names : List (List UInt8)
  line : List UInt8
  entered : List (List UInt8)
  place : Nat

namespace LineEditor

/-- The line of that number, or the newest one that has taken its slot since. -/
def recalled (a : LineEditor) (j : Nat) : List UInt8 :=
  a.entered.getD (newest maxHist a.entered.length j) []

/-- The element of a list that has no other. -/
def sole {α : Type*} : List α → Option α
  | [found] => some found
  | _ => none

/-- The one candidate that starts with what is typed. -/
def candidate (typed : List UInt8) (candidates : List (List UInt8)) : Option (List UInt8) :=
  sole (candidates.filter (typed <+: ·))

/-- The first word is completed to a command with a blank behind it, anything later to the name of
a file, as far as the line has room. -/
def complete (names : List (List UInt8)) (line : List UInt8) : List UInt8 :=
  if 32 ∈ line then
    let arg := (line.dropWhile (· ≠ 32)).tail
    match candidate arg names with
    | some name => (line ++ name.drop arg.length).take 63
    | none => line
  else if line = [] then []
  else
    match candidate line cmds with
    | some command => command ++ [32]
    | none => line

/-- A key, and the files after the command if it was Enter. -/
def press (a : LineEditor) (key : UInt8 × List (List UInt8)) : LineEditor :=
  if key.1 = 13 ∨ key.1 = 10 then
    if a.line = [] then a
    else ⟨key.2, [], a.entered ++ [a.line], a.entered.length + 1⟩
  else if key.1 = 8 then { a with line := a.line.dropLast }
  else if key.1 = 0x80 then
    if 0 < a.place then { a with line := a.recalled (a.place - 1), place := a.place - 1 } else a
  else if key.1 = 0x81 then
    if a.place + 1 < a.entered.length then
      { a with line := a.recalled (a.place + 1), place := a.place + 1 }
    else if a.place < a.entered.length then { a with line := [], place := a.place + 1 }
    else a
  else if key.1 = 9 then { a with line := complete a.names a.line }
  else { a with line := (a.line ++ [key.1]).take 63 }

end LineEditor

/-- The names that `vfs_get_filename` finds. -/
def fileNames (v : Vfs) : List (List UInt8) :=
  (List.range maxFiles).filterMap (vfsGetFilename v)

variable {e e' : Editor} {l : LineEditor} {c : UInt8} {o : CommandEnd} {n k : Nat}

section Lines

theorem pressBackspace_line : (pressBackspace e).shell.line = e.shell.line.dropLast := by
  rw [pressBackspace]
  split
  · rename_i hpos
    obtain ⟨n, hn⟩ := Nat.exists_eq_succ_of_ne_zero (Nat.pos_iff_ne_zero.mp hpos)
    simp [Shell.line, Editor.setIdx, Editor.rubOut, Editor.putc, hn, List.range_succ]
  · rename_i hzero
    have hidx : e.shell.bufIdx = 0 := by omega
    simp [Shell.line, hidx]

theorem typeIfRoom_line (hle : e.shell.bufIdx ≤ 63) :
    (if e.shell.bufIdx < 63 then e.type c else e).shell.line = (e.shell.line ++ [c]).take 63 := by
  have hlength := line_length e.shell
  split
  · rw [type_line, List.take_of_length_le (by simp; omega)]
  · rw [List.take_append_of_le_length (by omega), List.take_of_length_le (by omega)]

theorem appendCommand_line {i : Nat} {rest : List UInt8} :
    (appendCommand i rest k e).shell.line = e.shell.line ++ rest := by
  induction rest generalizing k e with
  | nil => exact (List.append_nil _).symm
  | cons c rest ih =>
    rw [appendCommand, ih, type_line, List.append_assoc, List.singleton_append]
    rfl

theorem typeIfRoom_le (hle : e.shell.bufIdx ≤ 63) :
    (if e.shell.bufIdx < 63 then e.type c else e).shell.bufIdx ≤ 63 := by
  split
  · rw [type_bufIdx]
    omega
  · exact hle

theorem take_append_take {α : Type*} (xs ys : List α) (n : Nat) :
    (xs.take n ++ ys).take n = (xs ++ ys).take n := by
  rcases Nat.le_total xs.length n with hle | hle
  · rw [List.take_of_length_le hle]
  · rw [List.take_append_of_le_length (by simpa using hle), List.take_append_of_le_length hle,
      List.take_take, Nat.min_self]

theorem appendName_line {rest : List UInt8} (hle : e.shell.bufIdx ≤ 63) :
    (appendName rest e).shell.line = (e.shell.line ++ rest).take 63 := by
  induction rest generalizing e with
  | nil =>
    have hlength := line_length e.shell
    rw [List.append_nil, List.take_of_length_le (by omega)]
    rfl
  | cons c rest ih =>
    have hrest : appendName (c :: rest) e =
        appendName rest (if e.shell.bufIdx < 63 then e.type c else e) := rfl
    rw [hrest, ih (typeIfRoom_le hle), typeIfRoom_line hle, take_append_take,
      List.append_assoc, List.singleton_append]

end Lines

section Matching

variable {a b : Nat → UInt8}

theorem compareBytes_iff :
    (compareBytes a b n k).1 = true ↔ ∀ j, k ≤ j → j < k + n → a j = b j := by
  constructor
  · intro h j hk hj
    exact compareBytes_same h j hk hj
  · intro h
    induction n generalizing k with
    | zero => rfl
    | succ n ih =>
      rw [compareBytes, if_neg (by simpa using h k (Nat.le_refl k) (by omega))]
      exact ih fun j hk hj => h j (by omega) (by omega)

/-- Bytes that are not NUL agree with a string as far as they go if they are the start of it. -/
theorem compareBytes_isPrefix (typed text : List UInt8)
    (htyped : ∀ j, ∀ hj : j < typed.length, a j = typed[j])
    (hnonzero : ∀ c ∈ typed, c ≠ 0) :
    (compareBytes a (fun j => text.getD j 0) typed.length 0).1 = true ↔ typed <+: text := by
  rw [compareBytes_iff]
  constructor
  · intro h
    rw [List.prefix_iff_getElem?]
    intro j hj
    have hbyte := h j (Nat.zero_le j) (by omega)
    rw [htyped j hj, List.getD_eq_getElem?_getD] at hbyte
    cases htext : text[j]? with
    | none =>
      rw [htext] at hbyte
      exact absurd hbyte (hnonzero _ (List.getElem_mem hj))
    | some b =>
      rw [htext] at hbyte
      rw [hbyte]
      rfl
  · rintro ⟨rest, rfl⟩ j - hj
    rw [htyped j (by omega), List.getD_append _ _ _ _ (by omega),
      List.getD_eq_getElem _ _ (by omega)]

/-- The filter over the numbers of the commands is one over the commands. -/
theorem filter_range_getD {α : Type*} (xs : List α) (d : α) (p : α → Bool) :
    ((List.range xs.length).filter fun i => p (xs.getD i d)).map (xs.getD · d) = xs.filter p := by
  have hall : (List.range xs.length).map (xs.getD · d) = xs := by
    refine List.ext_getElem (by simp) fun i hi hi' => ?_
    rw [List.getElem_map, List.getElem_range, List.getD_eq_getElem]
  conv_rhs => rw [← hall, List.filter_map]
  rfl

theorem sole_map {α β : Type*} (f : α → β) (xs : List α) :
    LineEditor.sole (xs.map f) = (LineEditor.sole xs).map f := by
  match xs with
  | [] => rfl
  | [x] => rfl
  | x :: y :: rest => rfl

theorem sole_eq_none {α : Type*} {xs : List α} (h : ∀ x, xs = [x] → False) :
    LineEditor.sole xs = none := by
  match xs with
  | [] => rfl
  | [x] => exact absurd rfl (h x)
  | x :: y :: rest => rfl

end Matching

section Completion

theorem completeCommand_line (hbytes : ∀ k < e.shell.bufIdx, e.shell.inputBuf k ≠ 0) :
    (completeCommand e).shell.line =
      match LineEditor.candidate e.shell.line cmds with
      | some command => command ++ [32]
      | none => e.shell.line := by
  have hmatch : ∀ i, (compareBytes e.shell.inputBuf (cmdByte i) e.shell.bufIdx 0).1 =
      decide (e.shell.line <+: cmds.getD i []) := by
    intro i
    have hiff := compareBytes_isPrefix (a := e.shell.inputBuf) e.shell.line
      (cmds.getD i []) (by simp [Shell.line]) (by simpa [Shell.line] using hbytes)
    rw [line_length] at hiff
    rw [Bool.eq_iff_iff, decide_eq_true_eq]
    exact hiff
  have hfound : LineEditor.candidate e.shell.line cmds =
      (LineEditor.sole ((List.range cmds.length).filter fun i =>
        (compareBytes e.shell.inputBuf (cmdByte i) e.shell.bufIdx 0).1)).map (cmds.getD · []) := by
    have hfilter := filter_range_getD cmds [] (fun text => decide (e.shell.line <+: text))
    simp only [hmatch]
    rw [← sole_map, hfilter, LineEditor.candidate]
  rw [completeCommand]
  dsimp only
  split
  · rename_i i hone
    have hmem : i ∈ [i] := List.mem_singleton_self i
    rw [← hone, List.mem_filter, hmatch, decide_eq_true_eq] at hmem
    obtain ⟨hrange, rest, hrest⟩ := hmem
    have hshort := cmds_short i (List.mem_range.mp hrange)
    have hdrop : (cmds.getD i []).drop e.shell.bufIdx = rest := by
      rw [← hrest, ← line_length, List.drop_left]
    have hline : (appendCommand i rest e.shell.bufIdx (e.access
        (matchAccesses e.shell.inputBuf e.shell.bufIdx))).shell.line = cmds.getD i [] := by
      rw [appendCommand_line]
      exact hrest
    have hidx := line_length (appendCommand i rest e.shell.bufIdx (e.access
      (matchAccesses e.shell.inputBuf e.shell.bufIdx))).shell
    rw [hline] at hidx
    rw [hfound, hone, hdrop, setBuf_line (Nat.le_refl _), typeIfRoom_line (by omega), hline,
      List.take_of_length_le]
    · rfl
    · rw [List.length_append, List.length_singleton]
      omega
  · rename_i hnot
    rw [hfound, sole_eq_none hnot]
    rfl

theorem argLength_eq {arg : Nat → UInt8} {fuel m : Nat} (hnul : arg m = 0)
    (hbytes : ∀ j < m, arg j ≠ 0) (hk : k ≤ m) (hf : m < k + fuel) : argLength arg fuel k = m := by
  induction fuel generalizing k with
  | zero => omega
  | succ fuel ih =>
    rw [argLength]
    rcases Nat.lt_or_eq_of_le hk with hlt | rfl
    · rw [if_pos (hbytes k hlt)]
      exact ih hlt (by omega)
    · rw [if_neg (by simpa using hnul)]

theorem completeFile_line {spacePos : Nat} (hle : e.shell.bufIdx ≤ 63)
    (hpos : spacePos < e.shell.bufIdx) (hbytes : ∀ k < e.shell.bufIdx, e.shell.inputBuf k ≠ 0)
    (hnul : e.shell.inputBuf e.shell.bufIdx = 0) :
    (completeFile spacePos e).shell.line =
      let arg := e.shell.line.drop (spacePos + 1)
      match LineEditor.candidate arg (fileNames e.vfs) with
      | some name => (e.shell.line ++ name.drop arg.length).take 63
      | none => e.shell.line := by
  have hlength : (e.shell.line.drop (spacePos + 1)).length = e.shell.bufIdx - (spacePos + 1) := by
    rw [List.length_drop, line_length]
  have hargLen : argLength (fun k => e.shell.inputBuf (spacePos + 1 + k)) e.shell.bufIdx 0 =
      (e.shell.line.drop (spacePos + 1)).length := by
    refine argLength_eq ?_ (fun j hj => hbytes _ (by omega)) (Nat.zero_le _) (by omega)
    rwa [hlength, Nat.add_sub_cancel' hpos]
  have hmatch : ∀ name : List UInt8, (compareBytes (fun k => e.shell.inputBuf (spacePos + 1 + k))
      (fun k => name.getD k 0) (e.shell.line.drop (spacePos + 1)).length 0).1 =
        decide (e.shell.line.drop (spacePos + 1) <+: name) := by
    intro name
    rw [Bool.eq_iff_iff, decide_eq_true_eq]
    refine compareBytes_isPrefix _ _ (by simp [Shell.line]) fun c hc => ?_
    obtain ⟨j, hj, rfl⟩ := List.mem_map.mp (List.mem_of_mem_drop hc)
    exact hbytes j (List.mem_range.mp hj)
  rw [completeFile]
  dsimp only
  simp only [hargLen, hmatch]
  split
  · rename_i name hone
    rw [LineEditor.candidate, fileNames, hone, setBuf_line (Nat.le_refl _)]
    exact appendName_line (e := (e.access _).access _) hle
  · rename_i hnot
    rw [LineEditor.candidate, fileNames, sole_eq_none hnot]
    rfl

/-- The place of the first blank. -/
theorem firstBlank_eq {sh : Shell} {pos : Nat}
    (h : ((List.range sh.bufIdx).find? fun i => sh.inputBuf i = 32) = some pos) :
    pos < sh.bufIdx ∧ 32 ∈ sh.line ∧
      (sh.line.dropWhile (· ≠ 32)).tail = sh.line.drop (pos + 1) := by
  obtain ⟨hblank, hmem, hbefore⟩ := List.find?_range_eq_some.mp h
  have hlt := List.mem_range.mp hmem
  have hpos : pos < sh.line.length := by rwa [line_length]
  have hat : sh.line.get ⟨pos, hpos⟩ = 32 := by simpa [Shell.line] using hblank
  have hidx : sh.line.findIdx (fun c => !decide (c ≠ 32)) = pos := by
    rw [List.findIdx_eq hpos]
    refine ⟨by simpa using hat, fun j hj => ?_⟩
    simpa [Shell.line] using hbefore j hj
  refine ⟨hlt, ?_, ?_⟩
  · rw [← hat]
    exact List.get_mem ..
  · rw [List.dropWhile_eq_drop_findIdx_not, hidx, List.tail_drop]

theorem pressTab_line (hle : e.shell.bufIdx ≤ 63)
    (hbytes : ∀ k < e.shell.bufIdx, e.shell.inputBuf k ≠ 0) :
    (pressTab e).shell.line = LineEditor.complete (fileNames e.vfs) e.shell.line := by
  have hlength := line_length e.shell
  rw [pressTab]
  split
  · rename_i hpos
    have hended := setBuf_line (e := e) (c := 0) (Nat.le_refl e.shell.bufIdx)
    have hsame : ∀ k < e.shell.bufIdx, (e.setBuf e.shell.bufIdx 0).shell.inputBuf k ≠ 0 := by
      intro k hk
      have hbyte : (e.setBuf e.shell.bufIdx 0).shell.inputBuf k = e.shell.inputBuf k :=
        Function.update_of_ne (by omega) _ _
      rw [hbyte]
      exact hbytes k hk
    dsimp only
    split
    · rename_i hnone
      rw [hnone]
      have hblank : 32 ∉ e.shell.line := by
        intro hmem
        obtain ⟨j, hj, hbyte⟩ := List.mem_map.mp (hended ▸ hmem)
        exact List.find?_eq_none.mp hnone j hj (by simpa using hbyte)
      have hfull : e.shell.line ≠ [] := by
        intro hempty
        rw [hempty, List.length_nil] at hlength
        omega
      rw [LineEditor.complete, if_neg hblank, if_neg hfull, ← hended]
      exact completeCommand_line (e := (e.setBuf e.shell.bufIdx 0).access _) hsame
    · rename_i pos hsome
      rw [hsome]
      obtain ⟨hlt, hblank, harg⟩ := firstBlank_eq hsome
      rw [hended] at hblank harg
      rw [LineEditor.complete, if_pos hblank, harg, ← hended]
      exact completeFile_line (e := (e.setBuf e.shell.bufIdx 0).access _) hle hlt hsame
        (Function.update_self ..)
  · rename_i hzero
    have hempty : e.shell.line = [] := List.eq_nil_of_length_eq_zero (by omega)
    rw [hempty]
    rfl

end Completion

section Files

theorem eraseLine_vfs : (eraseLine n e).vfs = e.vfs := by
  induction n generalizing e with
  | zero => rfl
  | succ n ih =>
    rw [eraseLine, ih]
    rfl

theorem recallLoop_vfs {idx room : Nat} : (recallLoop idx room k e).vfs = e.vfs := by
  induction room generalizing k e with
  | zero => rfl
  | succ room ih =>
    rw [recallLoop]
    split
    · rw [ih]
      rfl
    · rfl

theorem recallLine_vfs : (recallLine e).vfs = e.vfs := recallLoop_vfs

theorem pressDown_vfs : (pressDown e).vfs = e.vfs := by
  have herased : (eraseLine e.shell.bufIdx (e.setHistIdx (e.shell.histIdx + 1))).vfs = e.vfs :=
    eraseLine_vfs
  rw [pressDown]
  split
  · dsimp only
    split
    · exact recallLine_vfs.trans herased
    · exact herased
  · rfl

theorem appendCommand_vfs {i : Nat} {rest : List UInt8} :
    (appendCommand i rest k e).vfs = e.vfs := by
  induction rest generalizing k e with
  | nil => rfl
  | cons c rest ih =>
    rw [appendCommand, ih]
    rfl

theorem typeIfRoom_vfs : (if e.shell.bufIdx < 63 then e.type c else e).vfs = e.vfs := by
  split
  · rfl
  · rfl

theorem appendName_vfs {rest : List UInt8} : (appendName rest e).vfs = e.vfs := by
  induction rest generalizing e with
  | nil => rfl
  | cons c rest ih => exact ih.trans typeIfRoom_vfs

theorem pressTab_vfs : (pressTab e).vfs = e.vfs := by
  have hcommand : ∀ e, (completeCommand e).vfs = e.vfs := by
    intro e
    rw [completeCommand]
    dsimp only
    split
    · exact typeIfRoom_vfs.trans appendCommand_vfs
    · rfl
  have hfile : ∀ pos e, (completeFile pos e).vfs = e.vfs := by
    intro pos e
    rw [completeFile]
    dsimp only
    split
    · exact appendName_vfs
    · rfl
  rw [pressTab]
  split
  · dsimp only
    split
    · exact hcommand _
    · exact hfile _ _
  · rfl

theorem pressBackspace_vfs : (pressBackspace e).vfs = e.vfs := by
  rw [pressBackspace]
  split
  · rfl
  · rfl

end Files

section Keys

/-- The editor of the shell is where the rules say. -/
structure Edits (e : Editor) (l : LineEditor) : Prop where
  at_ : EditorAt (fun _ => True) e e.shell.bufIdx
  kept : HistoryKept e
  names : fileNames e.vfs = l.names
  line : e.shell.line = l.line
  entered : e.entered = l.entered
  place : e.shell.histIdx = l.place

/-- A line of the history. -/
theorem HistoryKept.recalled (h : HistoryKept e) {j : Nat} (hj : j < e.entered.length) :
    e.shell.historyLine (j % maxHist) =
      e.entered.getD (newest maxHist e.entered.length j) [] := by
  rw [List.getD_eq_getElem?_getD, h.slots j hj, Option.getD_some]

theorem pressEnter_full (hpos : 0 < e.shell.bufIdx) : (pressEnter o e).vfs = o.vfs ∧
    (pressEnter o e).shell.line = [] ∧ (pressEnter o e).entered = e.entered ++ [e.shell.line] ∧
    (pressEnter o e).shell.histIdx = e.shell.histCount + 1 := by
  have hline := setBuf_line (e := e.putc 10) (c := 0) (Nat.le_refl e.shell.bufIdx)
  have hentered : (enterCommand o ((e.putc 10).setBuf e.shell.bufIdx 0)).entered =
      e.entered ++ [((e.putc 10).setBuf e.shell.bufIdx 0).shell.line] := by
    unfold enterCommand
    dsimp only
    split
    · rfl
    · rfl
  rw [pressEnter_command hpos]
  refine ⟨enterCommand_vfs, rfl, ?_, ?_⟩
  · rw [hline] at hentered
    exact hentered
  · simp only [Editor.setIdx, enterCommand_shell]
    rfl

/-- A key that leaves the files, the lines entered and the place among them as they are. -/
theorem Edits.sameHistory (h : Edits e l) (hat : EditorAt (fun _ => True) e' e'.shell.bufIdx)
    (hsame : SameHistory e e') (hvfs : e'.vfs = e.vfs) :
    Edits e' { l with line := e'.shell.line } where
  at_ := hat
  kept := hsame.kept h.kept
  names := by rw [hvfs, h.names]
  line := rfl
  entered := hsame.entered.trans h.entered
  place := hsame.idx.trans h.place

theorem Edits.enter (h : Edits e l)
    (hat : EditorAt (fun _ => True) (pressEnter o e) (pressEnter o e).shell.bufIdx) :
    Edits (pressEnter o e) (if l.line = [] then l
      else ⟨fileNames o.vfs, [], l.entered ++ [l.line], l.entered.length + 1⟩) := by
  have hkept : HistoryKept (pressEnter o e) := pressEnter_kept h.kept h.at_
  have hlength := line_length e.shell
  rw [h.line] at hlength
  split
  · rename_i hempty
    have hzero : ¬ e.shell.bufIdx > 0 := by
      rw [hempty, List.length_nil] at hlength
      omega
    rw [pressEnter_empty hzero] at hat hkept ⊢
    refine ⟨hat, hkept, h.names, ?_, h.entered, h.place⟩
    rw [hempty]
    rfl
  · rename_i hfull
    have hpos : 0 < e.shell.bufIdx := by
      rw [← hlength]
      exact List.length_pos_iff.mpr hfull
    obtain ⟨hvfs, hline, hentered, hidx⟩ := pressEnter_full (o := o) hpos
    refine ⟨hat, hkept, ?_, hline, ?_, ?_⟩
    · rw [hvfs]
    · rw [hentered, h.entered, h.line]
    · rw [hidx, h.kept.count, h.entered]

/-- An arrow that recalls a line. -/
theorem Edits.recalls (h : Edits e l) (hrecall : Recalls e c)
    (hat : EditorAt (fun _ => True) (shellKey o e c) (shellKey o e c).shell.bufIdx) :
    Edits (shellKey o e c) { l with line := l.recalled (arrowIdx e c), place := arrowIdx e c } := by
  have hlt := arrowIdx_lt hrecall h.at_.histIdx
  rw [h.kept.count] at hlt
  have hmoved : SameHistory (e.setHistIdx (arrowIdx e c)) (shellKey o e c) := by
    rw [shellKey_recalls hrecall]
    exact eraseLine_same.trans recallLine_same
  refine ⟨hat, hmoved.kept (setHistIdx_kept h.kept), ?_, ?_, hmoved.entered.trans h.entered,
    recalled_idx hrecall⟩
  · rw [shellKey_recalls hrecall, recallLine_vfs, eraseLine_vfs]
    exact h.names
  · rw [recalled_line hrecall, h.kept.recalled hlt, h.entered]
    rfl

theorem Edits.up (h : Edits e l)
    (hat : EditorAt (fun _ => True) (pressUp e) (pressUp e).shell.bufIdx) :
    Edits (pressUp e) (if 0 < l.place then
      { l with line := l.recalled (l.place - 1), place := l.place - 1 } else l) := by
  have hidx := h.at_.histIdx
  have hplace := h.place
  split
  · have hrecall : Recalls e 0x80 := .inl ⟨rfl, by omega, by omega⟩
    have hedits := h.recalls (o := ⟨0, [], e.vfs⟩) hrecall hat
    rw [arrowIdx, if_pos rfl, hplace] at hedits
    exact hedits
  · rw [pressUp, if_neg (by omega)]
    exact h

theorem Edits.down (h : Edits e l)
    (hat : EditorAt (fun _ => True) (pressDown e) (pressDown e).shell.bufIdx) :
    Edits (pressDown e) (if l.place + 1 < l.entered.length then
        { l with line := l.recalled (l.place + 1), place := l.place + 1 }
      else if l.place < l.entered.length then { l with line := [], place := l.place + 1 }
      else l) := by
  have hcount : e.shell.histCount = l.entered.length := by rw [h.kept.count, h.entered]
  have hplace := h.place
  split
  · have hrecall : Recalls e 0x81 := .inr ⟨rfl, by omega⟩
    have hedits := h.recalls (o := ⟨0, [], e.vfs⟩) hrecall hat
    rw [arrowIdx, if_neg (by decide), hplace] at hedits
    exact hedits
  · split
    · have hmoved : SameHistory (e.setHistIdx (e.shell.histIdx + 1)) (eraseLine e.shell.bufIdx
        (e.setHistIdx (e.shell.histIdx + 1))) := eraseLine_same
      have hlast : ¬ (eraseLine e.shell.bufIdx
          (e.setHistIdx (e.shell.histIdx + 1))).shell.histIdx <
            (eraseLine e.shell.bufIdx (e.setHistIdx (e.shell.histIdx + 1))).shell.histCount := by
        rw [hmoved.idx, hmoved.count]
        simp only [Editor.setHistIdx]
        omega
      have hpress : pressDown e = ((eraseLine e.shell.bufIdx
          (e.setHistIdx (e.shell.histIdx + 1))).setIdx 0).setBuf 0 0 := by
        rw [pressDown, if_pos (by omega)]
        exact if_neg hlast
      have hsame : SameHistory (e.setHistIdx (e.shell.histIdx + 1)) (pressDown e) := by
        rw [hpress]
        exact hmoved.setIdx.setBuf
      refine ⟨hat, hsame.kept (setHistIdx_kept h.kept), ?_, ?_, hsame.entered.trans h.entered, ?_⟩
      · rw [pressDown_vfs]
        exact h.names
      · rw [hpress]
        rfl
      · rw [← hplace]
        exact hsame.idx
    · rw [pressDown, if_neg (by omega)]
      exact h

/-- What a key does to the shell is what the rule of the key says. -/
theorem Edits.key (h : Edits e l) (hkey : CountedKey e c) :
    Edits (shellKey o e c) (l.press (c, fileNames o.vfs)) := by
  have hat := shellKey_at (o := o) (fun _ _ => trivial) h.at_ hkey (by simp)
  have hbytes : ∀ k < e.shell.bufIdx, e.shell.inputBuf k ≠ 0 :=
    fun k hk => (h.at_.plain k hk).nonzero
  unfold shellKey at hat ⊢
  unfold LineEditor.press
  dsimp only
  split at hat
  · rename_i henter
    rw [if_pos henter, if_pos henter]
    exact h.enter hat
  · rename_i henter
    rw [if_neg henter, if_neg henter]
    split at hat
    · rename_i hback
      rw [if_pos hback, if_pos hback, ← h.line, ← pressBackspace_line]
      exact h.sameHistory hat pressBackspace_same pressBackspace_vfs
    · rename_i hback
      rw [if_neg hback, if_neg hback]
      split at hat
      · rename_i hup
        rw [if_pos hup, if_pos hup]
        exact h.up hat
      · rename_i hup
        rw [if_neg hup, if_neg hup]
        split at hat
        · rename_i hdown
          rw [if_pos hdown, if_pos hdown]
          exact h.down hat
        · rename_i hdown
          rw [if_neg hdown, if_neg hdown]
          split at hat
          · rename_i htab
            have hline := pressTab_line h.at_.le hbytes
            rw [h.names, h.line] at hline
            rw [if_pos htab, if_pos htab, ← hline]
            exact h.sameHistory hat pressTab_same pressTab_vfs
          · rename_i htab
            rw [if_neg htab, if_neg htab, ← h.line, ← typeIfRoom_line h.at_.le]
            exact h.sameHistory hat typeIfRoom_same typeIfRoom_vfs

end Keys

/-- The editor before the first key. -/
def LineEditor.start (names : List (List UInt8)) : LineEditor := ⟨names, [], [], 0⟩

/-- The keys pressed, each with the files that a command it enters leaves. -/
def pressedKeys (keys : List (UInt8 × CommandEnd)) : List (UInt8 × List (List UInt8)) :=
  keys.map fun k => (k.1, fileNames k.2.vfs)

/-- In every run from boot the shell has the line, the lines entered and the place among them that
the rules of the keys give, and the row of the cursor shows the prompt and that line. -/
theorem shell_edits_lines (buffer : Int → UInt16) (x y : Int) (messages : List (UInt8 × UInt8))
    (vfs : Vfs) (inputBuf : Nat → UInt8) (keys : List (UInt8 × CommandEnd))
    (h : Run (KeyStep CountedKey) (shellStart (bootScreen buffer x y messages) vfs inputBuf)
      keys e) :
    let l := (pressedKeys keys).foldl LineEditor.press (.start (fileNames vfs))
    e.shell.line = l.line ∧ e.entered = l.entered ∧ e.shell.histIdx = l.place ∧
      e.vga.cursorRow = promptText ++ l.line ++ List.replicate (64 - l.line.length) 32 := by
  intro l
  have hstart : Edits (shellStart (bootScreen buffer x y messages) vfs inputBuf)
      (.start (fileNames vfs)) := by
    refine ⟨shellStart_at (bootScreen_blank buffer x y messages), ⟨rfl, ?_⟩, rfl, rfl, rfl, rfl⟩
    intro j hj
    simp [shellStart] at hj
  have hedits : Edits e l := by
    have hfold : l = keys.foldl (fun l k => l.press (k.1, fileNames k.2.vfs))
        (.start (fileNames vfs)) := List.foldl_map
    rw [hfold]
    refine h.simulates Edits ?_ hstart
    rintro e k e' l ⟨hkey, rfl⟩ hl
    exact hl.key hkey
  have hshown : e.vga.Shows (promptText ++ l.line) := by
    rw [← hedits.line]
    exact hedits.at_.shown
  have hrest : 80 - (promptText ++ l.line).length = 64 - l.line.length := by
    rw [List.length_append, show promptText.length = 16 from rfl]
    omega
  refine ⟨hedits.line, hedits.entered, hedits.place, ?_⟩
  rw [hshown.cursorRow_eq, hrest]

/-- "wr" and Tab. -/
theorem shell_edits_lines_tab :
    (pressed (startFilled 0) (typedKeys "wr\t")).shell.line = asciiBytes "write " := by
  have hnames : PrintableNames (pressed (startFilled 0) (typedKeys "wr")).vfs :=
    fun i hused => absurd rfl hused
  have htab : CountedKey (pressed (startFilled 0) (typedKeys "wr")) 9 :=
    ⟨⟨.inr (.inr (.inl rfl)), fun _ => hnames⟩, fun henter => absurd henter (by decide)⟩
  have hrun : Run (KeyStep CountedKey) (startFilled 0) (typedKeys "wr\t")
      (pressed (startFilled 0) (typedKeys "wr\t")) :=
    .stepL ⟨(withinLimits_printable (by decide)).toCountedKey, rfl⟩
      (.stepL ⟨(withinLimits_printable (by decide)).toCountedKey, rfl⟩ (.single ⟨htab, rfl⟩))
  rw [(shell_edits_lines (fun _ => 0) 0 0 [] .empty (fun _ => 0) (typedKeys "wr\t") hrun).1]
  decide +kernel

end HumanOS

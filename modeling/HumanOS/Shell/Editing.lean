import HumanOS.Shell.Commands
import HumanOS.Shell.Editor
import HumanOS.Vga.Line

/-!
# Keys and what they leave

The input buffer, its length and the screen are changed at separate places of the source.
`EditorAt` says that the first bytes of the buffer are on the screen behind the prompt, and is
followed through the steps of each key.
-/
namespace HumanOS

variable {P : ShellAccess → Prop} {e : Editor} {c : UInt8} {n k room idx : Nat} {o : CommandEnd}

def promptText : List UInt8 := asciiBytes "user@humanos:~$ "

def ShellAccess.InBounds : ShellAccess → Prop
  | .inputBuf i => i < 64
  | .cmdHistory slot k => 0 ≤ slot ∧ slot < 10 ∧ k < 64
  | .cmds i => i < 16
  | .cmdText i k => i < 15 ∧ k ≤ (HumanOS.cmds.getD i []).length

/-- A character that only goes into its cell, and that no string ends with. -/
structure IsPlain (c : UInt8) : Prop where
  nonzero : c ≠ 0
  newline : c ≠ 10
  backspace : c ≠ 8

/-- What is copied from a slot of the history. -/
def Shell.historyLine (sh : Shell) (slot : Nat) : List UInt8 :=
  ((List.range 63).map (sh.cmdHistory slot)).takeWhile (· ≠ 0)

/-- The first `n` bytes of the input buffer are on the screen behind the prompt; `P` is true of
every access made. -/
structure EditorAt (P : ShellAccess → Prop) (e : Editor) (n : Nat) : Prop where
  le : n ≤ 63
  plain : ∀ k < n, IsPlain (e.shell.inputBuf k)
  shown : e.vga.Shows (promptText ++ (List.range n).map e.shell.inputBuf)
  history : ∀ slot, ∀ c ∈ e.shell.historyLine slot, IsPlain c
  histIdx : e.shell.histIdx ≤ e.shell.histCount
  histCount : e.shell.histCount < 2 ^ 31
  accesses : ∀ a ∈ e.accesses, P a

section Steps

theorem EditorAt.access {l : List ShellAccess} (h : EditorAt P e n) (hl : ∀ a ∈ l, P a) :
    EditorAt P (e.access l) n := by
  refine { h with accesses := fun a ha => ?_ }
  rcases List.mem_append.mp ha with hold | hnew
  · exact h.accesses a hold
  · exact hl a hnew

theorem EditorAt.access_one {x : ShellAccess} (h : EditorAt P e n) (hx : P x) :
    EditorAt P (e.access [x]) n := by
  refine h.access fun a ha => ?_
  rw [List.mem_singleton.mp ha]
  exact hx

theorem EditorAt.setIdx (h : EditorAt P e n) : EditorAt P (e.setIdx k) n := { h with }

theorem EditorAt.setHistIdx (h : EditorAt P e n) (hk : k ≤ e.shell.histCount) :
    EditorAt P (e.setHistIdx k) n := { h with histIdx := hk }

theorem EditorAt.setBuf (hP : ∀ a, a.InBounds → P a) (h : EditorAt P e n) (hk : n ≤ k)
    (hlt : k < 64) : EditorAt P (e.setBuf k c) n := by
  have hsame : ∀ i < n, Function.update e.shell.inputBuf k c i = e.shell.inputBuf i :=
    fun i hi => Function.update_of_ne (by omega) _ _
  have hline : (List.range n).map (Function.update e.shell.inputBuf k c) =
      (List.range n).map e.shell.inputBuf :=
    List.map_congr_left fun i hi => hsame i (List.mem_range.mp hi)
  refine ⟨h.le, fun i hi => ?_, ?_, h.history, h.histIdx, h.histCount, ?_⟩
  · simp only [Editor.setBuf, hsame i hi]
    exact h.plain i hi
  · simp only [Editor.setBuf, hline]
    exact h.shown
  · exact (h.access_one (hP (.inputBuf k) hlt)).accesses

/-- A byte behind those shown, with its echo. -/
theorem EditorAt.echo (hP : ∀ a, a.InBounds → P a) (h : EditorAt P e n) (hn : n < 63)
    (hc : IsPlain c) : EditorAt P ((e.setBuf n c).putc c) (n + 1) := by
  have hset : EditorAt P (e.setBuf n c) n := h.setBuf hP le_rfl (by omega)
  have hbyte : (e.setBuf n c).shell.inputBuf n = c := by simp [Editor.setBuf]
  have hlength :
      (promptText ++ (List.range n).map (e.setBuf n c).shell.inputBuf).length = 16 + n := by
    rw [List.length_append, List.length_map, List.length_range]
    rfl
  refine ⟨by omega, fun i hi => ?_, ?_, h.history, h.histIdx, h.histCount, hset.accesses⟩
  · by_cases hlast : i = n
    · rw [hlast]
      exact hbyte.symm ▸ hc
    · exact hset.plain i (by omega)
  · have hput : (vgaPutc (e.setBuf n c).vga c 0x0F).Shows _ :=
      hset.shown.putc (by omega) hc.newline hc.backspace
    rw [List.range_succ, List.map_append, List.map_singleton, ← List.append_assoc]
    simp only [Editor.putc]
    rw [hbyte]
    exact hput

theorem type_eq : e.type c = ((e.setBuf e.shell.bufIdx c).putc c).setIdx (e.shell.bufIdx + 1) :=
  rfl

theorem type_bufIdx : (e.type c).shell.bufIdx = e.shell.bufIdx + 1 := rfl

theorem EditorAt.type (hP : ∀ a, a.InBounds → P a) (h : EditorAt P e e.shell.bufIdx)
    (hn : e.shell.bufIdx < 63) (hc : IsPlain c) :
    EditorAt P (e.type c) (e.type c).shell.bufIdx := by
  rw [type_bufIdx, type_eq]
  exact (h.echo hP hn hc).setIdx

theorem EditorAt.rubOut (h : EditorAt P e (n + 1)) : EditorAt P e.rubOut n := by
  have hle := h.le
  have hshown := h.shown
  rw [List.range_succ, List.map_append, List.map_singleton, ← List.append_assoc] at hshown
  have hrubbed : e.rubOut.vga.Shows (promptText ++ (List.range n).map e.shell.inputBuf) := by
    simp only [Editor.rubOut, Editor.putc]
    exact hshown.rubOut
  exact ⟨by omega, fun k hk => h.plain k (by omega), hrubbed, h.history, h.histIdx, h.histCount,
    h.accesses⟩

end Steps

section Arrows

theorem histSlot_eq (hn : n < 2 ^ 31) : histSlot n = (n % 10 : Nat) := by
  have htoNat : (BitVec.ofNat 32 n).toNat = n := by
    rw [BitVec.toNat_ofNat]
    omega
  have htoInt : (BitVec.ofNat 32 n).toInt = n := by
    rw [BitVec.toInt_eq_toNat_of_lt (by omega), htoNat]
  rw [histSlot, htoInt]
  exact Int.ofNat_tmod n 10

theorem histSlot_inBounds (hn : n < 2 ^ 31) (hk : k < 64) :
    (ShellAccess.cmdHistory (histSlot n) k).InBounds := by
  rw [histSlot_eq hn]
  exact ⟨by omega, by omega, hk⟩

/-- Bytes up to the first NUL or the end. -/
theorem takeWhile_range_le {g : Nat → UInt8} {size : Nat} (hn : n ≤ size)
    (hbyte : ∀ k < n, g k ≠ 0) (hstop : n < size → g n = 0) :
    ((List.range size).map g).takeWhile (· ≠ 0) = (List.range n).map g := by
  rcases Nat.lt_or_eq_of_le hn with hlt | rfl
  · exact takeWhile_range hlt hbyte (hstop hlt)
  · refine List.takeWhile_eq_self_iff.mpr fun b hb => ?_
    obtain ⟨k, hk, rfl⟩ := List.mem_map.mp hb
    simpa using hbyte k (List.mem_range.mp hk)

theorem mem_historyLine {sh : Shell} {slot : Nat} (hk : k < 63)
    (hbyte : ∀ j ≤ k, sh.cmdHistory slot j ≠ 0) : sh.cmdHistory slot k ∈ sh.historyLine slot := by
  have hsplit : (List.range 63).map (sh.cmdHistory slot) =
      (List.range (k + 1)).map (sh.cmdHistory slot) ++
        ((List.range (62 - k)).map (k + 1 + ·)).map (sh.cmdHistory slot) := by
    rw [← List.map_append, ← List.range_add, show k + 1 + (62 - k) = 63 by omega]
  rw [Shell.historyLine, hsplit, List.takeWhile_append_of_pos]
  · exact List.mem_append_left _ (List.mem_map_of_mem (List.mem_range.mpr (by omega)))
  · intro b hb
    obtain ⟨j, hj, rfl⟩ := List.mem_map.mp hb
    simpa using hbyte j (by have := List.mem_range.mp hj; omega)

theorem eraseLine_at (h : EditorAt P e n) : EditorAt P (eraseLine n e) 0 := by
  induction n generalizing e with
  | zero => exact h
  | succ n ih => exact ih h.rubOut.setIdx

theorem recallLoop_at (hP : ∀ a, a.InBounds → P a) (h : EditorAt P e k)
    (hidx : idx < 2 ^ 31) (hroom : k + room = 63)
    (hbefore : ∀ j < k, e.shell.cmdHistory (idx % maxHist) j ≠ 0) :
    EditorAt P (recallLoop idx room k e) (recallLoop idx room k e).shell.bufIdx := by
  induction room generalizing k e with
  | zero => exact (h.access_one (hP _ (histSlot_inBounds hidx (by omega)))).setIdx
  | succ room ih =>
    have hread : EditorAt P (e.access [.cmdHistory (histSlot idx) k]) k :=
      h.access_one (hP _ (histSlot_inBounds hidx (by omega)))
    rw [recallLoop]
    split
    · rename_i hbyte
      -- the byte is one of the stored line, since no NUL came before it
      have hall : ∀ j ≤ k, e.shell.cmdHistory (idx % maxHist) j ≠ 0 := by
        intro j hj
        rcases Nat.lt_or_eq_of_le hj with hlt | rfl
        · exact hbefore j hlt
        · exact hbyte
      have hplain := h.history _ _ (mem_historyLine (by omega) hall)
      exact ih (hread.echo hP (by omega) hplain) (by omega) fun j hj => hall j (by omega)
    · exact hread.setIdx

theorem recallLine_at (hP : ∀ a, a.InBounds → P a) (h : EditorAt P e 0)
    (hidx : e.shell.histIdx < 2 ^ 31) : EditorAt P (recallLine e) (recallLine e).shell.bufIdx := by
  have hloop : EditorAt P (recallLoop e.shell.histIdx 63 0 e) _ :=
    recallLoop_at hP h hidx (by omega) (by simp)
  have hle := hloop.le
  exact hloop.setBuf hP le_rfl (by omega)

theorem eraseLine_shell (h : e.shell.bufIdx = n) :
    (eraseLine n e).shell = { e.shell with bufIdx := 0 } := by
  induction n generalizing e with
  | zero =>
    rw [eraseLine, ← h]
  | succ n ih =>
    rw [eraseLine, ih rfl]
    rfl

theorem pressUp_at (hP : ∀ a, a.InBounds → P a) (h : EditorAt P e e.shell.bufIdx) :
    EditorAt P (pressUp e) (pressUp e).shell.bufIdx := by
  have hidx := h.histIdx
  have hcount := h.histCount
  rw [pressUp]
  split
  · have hmoved : EditorAt P (e.setHistIdx (e.shell.histIdx - 1)) e.shell.bufIdx :=
      h.setHistIdx (by omega)
    refine recallLine_at hP (eraseLine_at hmoved) ?_
    rw [eraseLine_shell rfl]
    simp only [Editor.setHistIdx]
    omega
  · exact h

theorem pressDown_at (hP : ∀ a, a.InBounds → P a) (h : EditorAt P e e.shell.bufIdx) :
    EditorAt P (pressDown e) (pressDown e).shell.bufIdx := by
  have hcount := h.histCount
  rw [pressDown]
  split
  · rename_i hlt
    have hmoved : EditorAt P (e.setHistIdx (e.shell.histIdx + 1)) e.shell.bufIdx :=
      h.setHistIdx (by omega)
    dsimp only
    split
    · refine recallLine_at hP (eraseLine_at hmoved) ?_
      rw [eraseLine_shell rfl]
      simp only [Editor.setHistIdx]
      omega
    · exact (eraseLine_at hmoved).setIdx.setBuf hP le_rfl (by omega)
  · exact h

end Arrows

section Lines

theorem line_length (sh : Shell) : sh.line.length = sh.bufIdx := by
  simp [Shell.line]

theorem setBuf_line (hk : e.shell.bufIdx ≤ k) : (e.setBuf k c).shell.line = e.shell.line := by
  refine List.map_congr_left fun j hj => ?_
  have hlt : j < e.shell.bufIdx := List.mem_range.mp hj
  exact Function.update_of_ne (by omega) _ _

/-- A character that is typed comes to the end of the line. -/
theorem type_line : (e.type c).shell.line = e.shell.line ++ [c] := by
  have hsame := setBuf_line (e := e) (c := c) (Nat.le_refl e.shell.bufIdx)
  have hsplit : (e.type c).shell.line =
      (e.setBuf e.shell.bufIdx c).shell.line ++ [(e.setBuf e.shell.bufIdx c).shell.inputBuf
        e.shell.bufIdx] := by
    simp [Shell.line, Editor.type, Editor.setIdx, Editor.putc, Editor.setBuf, List.range_succ]
  rw [hsplit, hsame]
  simp [Editor.setBuf]

end Lines

section Completion

variable {a b : Nat → UInt8}

theorem compareBytes_le : (compareBytes a b n k).2 ≤ k + n := by
  induction n generalizing k with
  | zero => exact le_rfl
  | succ n ih =>
    rw [compareBytes]
    split
    · simp only
      omega
    · have hrest := ih (k := k + 1)
      omega

/-- A comparison ends with the first difference. -/
theorem compareBytes_differ {d : Nat} (hk : k ≤ d) (hd : a d ≠ b d) :
    (compareBytes a b n k).2 ≤ d + 1 := by
  induction n generalizing k with
  | zero =>
    simp only [compareBytes]
    omega
  | succ n ih =>
    rw [compareBytes]
    split
    · simp only
      omega
    · rename_i hsame
      have hne : k ≠ d := by
        rintro rfl
        exact hsame hd
      exact ih (by omega)

theorem compareBytes_same (h : (compareBytes a b n k).1 = true) :
    ∀ j, k ≤ j → j < k + n → a j = b j := by
  induction n generalizing k with
  | zero =>
    intro j hj hlt
    omega
  | succ n ih =>
    rw [compareBytes] at h
    split at h
    · simp at h
    · rename_i hsame
      push Not at hsame
      intro j hj hlt
      rcases Nat.lt_or_eq_of_le hj with hgt | rfl
      · exact ih h j (by omega) (by omega)
      · exact hsame

theorem cmds_short : ∀ i < 15, (cmds.getD i []).length ≤ 8 := by decide

theorem cmds_plain : ∀ i < 15, ∀ c ∈ cmds.getD i [], IsPlain c := by
  have hbytes : ∀ i < 15, (cmds.getD i []).all fun c => c ≠ 0 ∧ c ≠ 10 ∧ c ≠ 8 := by decide
  intro i hi c hc
  have hbyte := List.all_eq_true.mp (hbytes i hi) c hc
  obtain ⟨hnonzero, hnewline, hbackspace⟩ := of_decide_eq_true hbyte
  exact ⟨hnonzero, hnewline, hbackspace⟩

theorem cmdByte_end {i : Nat} : cmdByte i (cmds.getD i []).length = 0 := by
  rw [cmdByte, List.getD_eq_default _ _ le_rfl]

/-- No byte behind the NUL of a command is compared, since the line has no NUL. -/
theorem matchAccesses_inBounds (hn : n ≤ 63) (hbuf : ∀ k < n, a k ≠ 0) :
    ∀ x ∈ matchAccesses a n, x.InBounds := by
  intro x hx
  rcases List.mem_append.mp hx with hcmd | hbyte
  · obtain ⟨i, hi, rfl⟩ := List.mem_map.mp hcmd
    exact List.mem_range.mp hi
  · obtain ⟨i, hi, hword⟩ := List.mem_flatMap.mp hbyte
    obtain ⟨k, hk, hpair⟩ := List.mem_flatMap.mp hword
    have hlt := List.mem_range.mp hk
    have hle : (compareBytes a (cmdByte i) n 0).2 ≤ 0 + n := compareBytes_le
    rcases List.mem_cons.mp hpair with rfl | hrest
    · show k < 64
      omega
    · rw [List.mem_singleton.mp hrest]
      refine ⟨List.mem_range.mp hi, ?_⟩
      by_contra hlong
      have hdiffer : a (cmds.getD i []).length ≠ cmdByte i (cmds.getD i []).length := by
        rw [cmdByte_end]
        exact hbuf _ (by omega)
      have hend := compareBytes_differ (n := n) (Nat.zero_le _) hdiffer
      omega

theorem appendCommand_at {i : Nat} {rest : List UInt8} (hP : ∀ a, a.InBounds → P a)
    (h : EditorAt P e e.shell.bufIdx) (hi : i < 15)
    (hlen : k + rest.length = (cmds.getD i []).length) (hroom : e.shell.bufIdx + rest.length ≤ 63)
    (hrest : ∀ c ∈ rest, IsPlain c) :
    EditorAt P (appendCommand i rest k e) (appendCommand i rest k e).shell.bufIdx := by
  induction rest generalizing k e with
  | nil =>
    rw [List.length_nil] at hlen
    exact h.access_one (hP (.cmdText i k) ⟨hi, by omega⟩)
  | cons c rest ih =>
    rw [List.length_cons] at hlen hroom
    have hread : EditorAt P (e.access [.cmdText i k]) e.shell.bufIdx :=
      h.access_one (hP (.cmdText i k) ⟨hi, by omega⟩)
    have htyped := EditorAt.type hP hread (by simp only [Editor.access]; omega)
      (hrest c (List.mem_cons_self ..))
    refine ih htyped (by omega) ?_ fun d hd => hrest d (List.mem_cons_of_mem c hd)
    rw [type_bufIdx]
    simp only [Editor.access]
    omega

/-- The line that a command was completed from is the beginning of it. -/
theorem matched_le {i : Nat} (hbuf : ∀ k < n, a k ≠ 0)
    (h : (compareBytes a (cmdByte i) n 0).1 = true) : n ≤ (cmds.getD i []).length := by
  by_contra hlong
  have hsame := compareBytes_same h (cmds.getD i []).length (Nat.zero_le _) (by omega)
  rw [cmdByte_end] at hsame
  exact hbuf _ (by omega) hsame

theorem isPlain_space : IsPlain 32 := ⟨by decide, by decide, by decide⟩

theorem typeIfRoom_at (hP : ∀ a, a.InBounds → P a) (h : EditorAt P e e.shell.bufIdx)
    (hc : IsPlain c) : EditorAt P (if e.shell.bufIdx < 63 then e.type c else e)
      (if e.shell.bufIdx < 63 then e.type c else e).shell.bufIdx := by
  split
  · rename_i hroom
    exact h.type hP hroom hc
  · exact h

theorem endLine_at (hP : ∀ a, a.InBounds → P a) (h : EditorAt P e e.shell.bufIdx) :
    EditorAt P (e.setBuf e.shell.bufIdx 0) (e.setBuf e.shell.bufIdx 0).shell.bufIdx := by
  have hle := h.le
  exact h.setBuf hP le_rfl (by omega)

theorem completeCommand_at (hP : ∀ a, a.InBounds → P a) (h : EditorAt P e e.shell.bufIdx) :
    EditorAt P (completeCommand e) (completeCommand e).shell.bufIdx := by
  have hbuf : ∀ k < e.shell.bufIdx, e.shell.inputBuf k ≠ 0 := fun k hk => (h.plain k hk).nonzero
  have hread : EditorAt P (e.access (matchAccesses e.shell.inputBuf e.shell.bufIdx))
      e.shell.bufIdx :=
    h.access fun x hx => hP x (matchAccesses_inBounds h.le hbuf x hx)
  rw [completeCommand]
  dsimp only
  split
  · rename_i i hone
    have hmem : i ∈ (List.range cmds.length).filter fun i =>
        (compareBytes e.shell.inputBuf (cmdByte i) e.shell.bufIdx 0).1 := by
      rw [hone]
      exact List.mem_singleton_self i
    obtain ⟨hrange, hmatch⟩ := List.mem_filter.mp hmem
    have hi : i < 15 := List.mem_range.mp hrange
    have hle := matched_le hbuf hmatch
    have hshort := cmds_short i hi
    have hplain : ∀ c ∈ (cmds.getD i []).drop e.shell.bufIdx, IsPlain c := fun c hc =>
      cmds_plain i hi c (List.mem_of_mem_drop hc)
    refine endLine_at hP (typeIfRoom_at hP (appendCommand_at hP hread hi ?_ ?_ hplain)
      isPlain_space)
    · rw [List.length_drop]
      omega
    · rw [List.length_drop]
      simp only [Editor.access]
      omega
  · exact hread

theorem argLength_le {fuel m : Nat} (hm : a m = 0) (hk : k ≤ m) : argLength a fuel k ≤ m := by
  induction fuel generalizing k with
  | zero => exact hk
  | succ fuel ih =>
    rw [argLength]
    split
    · rename_i hne
      have hlt : k ≠ m := by
        rintro rfl
        exact hne hm
      exact ih (by omega)
    · exact hk

theorem appendName_at {rest : List UInt8} (hP : ∀ a, a.InBounds → P a)
    (h : EditorAt P e e.shell.bufIdx) (hrest : ∀ c ∈ rest, IsPlain c) :
    EditorAt P (appendName rest e) (appendName rest e).shell.bufIdx := by
  induction rest generalizing e with
  | nil => exact h
  | cons c rest ih =>
    have htyped := typeIfRoom_at hP h (hrest c (List.mem_cons_self ..))
    exact ih htyped fun d hd => hrest d (List.mem_cons_of_mem c hd)

/-- The file names hold printable characters alone. -/
def PrintableNames (v : Vfs) : Prop :=
  ∀ i, (v.table i).used ≠ 0 → ∀ c ∈ (v.table i).nameString, 32 ≤ c ∧ c ≤ 126

theorem isPlain_printable (h : 32 ≤ c ∧ c ≤ 126) : IsPlain c := by
  refine ⟨?_, ?_, ?_⟩ <;> rintro rfl <;> exact absurd h (by decide)

theorem fileName_plain {v : Vfs} {i : Nat} {name : List UInt8} (h : PrintableNames v)
    (hname : vfsGetFilename v i = some name) : ∀ c ∈ name, IsPlain c := by
  intro c hc
  unfold vfsGetFilename at hname
  split at hname
  · rename_i hi
    dsimp only at hname
    split at hname
    · simp at hname
    · rename_i hused
      rw [← Option.some.inj hname] at hc
      exact isPlain_printable (h ⟨i, hi⟩ hused c (List.mem_of_mem_take hc))
  · simp at hname

theorem completeFile_at {spacePos : Nat} (hP : ∀ a, a.InBounds → P a)
    (h : EditorAt P e e.shell.bufIdx) (hnames : PrintableNames e.vfs)
    (hpos : spacePos < e.shell.bufIdx) (hnul : e.shell.inputBuf e.shell.bufIdx = 0) :
    EditorAt P (completeFile spacePos e) (completeFile spacePos e).shell.bufIdx := by
  have hle := h.le
  let arg := fun k => e.shell.inputBuf (spacePos + 1 + k)
  have hargLen : argLength arg e.shell.bufIdx 0 ≤ e.shell.bufIdx - spacePos - 1 := by
    refine argLength_le ?_ (Nat.zero_le _)
    simp only [arg]
    rwa [show spacePos + 1 + (e.shell.bufIdx - spacePos - 1) = e.shell.bufIdx by omega]
  -- no byte behind the NUL of the line is read
  have hinside : ∀ m ≤ argLength arg e.shell.bufIdx 0 + 1,
      ∀ x ∈ (List.range m).map fun k => ShellAccess.inputBuf (spacePos + 1 + k), P x := by
    intro m hm x hx
    obtain ⟨k, hk, rfl⟩ := List.mem_map.mp hx
    have hlt := List.mem_range.mp hk
    exact hP _ (show spacePos + 1 + k < 64 by omega)
  have hcompared : ∀ x ∈ ((List.range maxFiles).filterMap (vfsGetFilename e.vfs)).flatMap
      fun name => (List.range (compareBytes arg (fun k => name.getD k 0)
        (argLength arg e.shell.bufIdx 0) 0).2).map
          fun k => ShellAccess.inputBuf (spacePos + 1 + k), P x := by
    intro x hx
    obtain ⟨name, -, hname⟩ := List.mem_flatMap.mp hx
    have hle : (compareBytes arg (fun k => name.getD k 0) (argLength arg e.shell.bufIdx 0) 0).2 ≤
        0 + argLength arg e.shell.bufIdx 0 := compareBytes_le
    exact hinside _ (by omega) x hname
  have hread := (h.access (hinside _ le_rfl)).access hcompared
  rw [completeFile]
  dsimp only
  split
  · rename_i name hone
    have hmem := List.mem_singleton_self name
    rw [← hone] at hmem
    obtain ⟨hlisted, -⟩ := List.mem_filter.mp hmem
    obtain ⟨i, -, hname⟩ := List.mem_filterMap.mp hlisted
    have hplain := fileName_plain hnames hname
    refine endLine_at hP (appendName_at hP hread fun c hc => ?_)
    exact hplain c (List.mem_of_mem_drop hc)
  · exact hread

theorem pressTab_at (hP : ∀ a, a.InBounds → P a) (h : EditorAt P e e.shell.bufIdx)
    (hnames : PrintableNames e.vfs) :
    EditorAt P (pressTab e) (pressTab e).shell.bufIdx := by
  have hle := h.le
  have hread : ∀ m ≤ e.shell.bufIdx, ∀ x ∈ (List.range m).map ShellAccess.inputBuf, P x := by
    intro m hm x hx
    obtain ⟨k, hk, rfl⟩ := List.mem_map.mp hx
    have hlt := List.mem_range.mp hk
    exact hP (.inputBuf k) (show k < 64 by omega)
  rw [pressTab]
  split
  · have hended := endLine_at hP h
    dsimp only
    split
    · rename_i hnone
      rw [hnone]
      exact completeCommand_at hP (hended.access (hread _ le_rfl))
    · rename_i spacePos hsome
      have hpos : spacePos < e.shell.bufIdx := List.mem_range.mp (List.mem_of_find?_eq_some hsome)
      rw [hsome]
      refine completeFile_at hP (hended.access (hread _ hpos)) hnames hpos ?_
      simp [Editor.access, Editor.setBuf]
  · exact h

end Completion

section Enter

variable {buf : Nat → UInt8} {sh : Shell} {s : Vga} {slot : Nat} {x : ShellAccess}

/-- What is stored of a line that ends with its NUL. -/
theorem stored_eq (hle : sh.bufIdx ≤ 63) (hbytes : ∀ k < sh.bufIdx, sh.inputBuf k ≠ 0)
    (hnul : sh.inputBuf sh.bufIdx = 0) :
    ((List.range 63).map sh.inputBuf).takeWhile (· ≠ 0) = sh.line :=
  takeWhile_range_le hle hbytes fun _ => hnul

theorem remember_historyLine (hle : sh.bufIdx ≤ 63)
    (hbytes : ∀ k < sh.bufIdx, sh.inputBuf k ≠ 0) (hnul : sh.inputBuf sh.bufIdx = 0) :
    sh.remember.historyLine slot =
      if slot = sh.histCount % maxHist then sh.line else sh.historyLine slot := by
  have hlength := line_length sh
  by_cases hslot : slot = sh.histCount % maxHist
  · rw [if_pos hslot, Shell.historyLine]
    simp only [Shell.remember, stored_eq hle hbytes hnul, hlength, hslot, Function.update_self]
    rw [takeWhile_range_le hle]
    · refine List.map_congr_left fun k hk => ?_
      rw [if_pos (List.mem_range.mp hk)]
    · intro k hk
      rw [if_pos hk]
      exact hbytes k hk
    · intro _
      rw [if_neg (by omega), if_pos rfl]
  · rw [if_neg hslot, Shell.historyLine, Shell.historyLine]
    simp only [Shell.remember, Function.update_of_ne hslot]

/-- A literal, behind what the row holds already. -/
theorem literal_shows {before text : List UInt8} {color : UInt8} (h : s.Shows before)
    (hroom : before.length + text.length ≤ 79)
    (htext : (text.all fun c => c ≠ 10 ∧ c ≠ 8) = true) :
    (vgaPuts s text color).Shows (before ++ text) :=
  h.puts hroom fun c hc => of_decide_eq_true (List.all_eq_true.mp htext c hc)

theorem showPrompt_shows (h : s.Shows []) : (showPrompt s).Shows promptText := by
  have huser : (vgaPuts s (asciiBytes "user") 0x0A).Shows (asciiBytes "user") :=
    literal_shows h (by decide) (by decide)
  have hat : (vgaPuts _ (asciiBytes "@") 0x0F).Shows (asciiBytes "user@") :=
    literal_shows huser (by decide) (by decide)
  have hhost : (vgaPuts _ (asciiBytes "humanos") 0x0B).Shows (asciiBytes "user@humanos") :=
    literal_shows hat (by decide) (by decide)
  have hcolon : (vgaPuts _ (asciiBytes ":") 0x0F).Shows (asciiBytes "user@humanos:") :=
    literal_shows hhost (by decide) (by decide)
  have hhome : (vgaPuts _ (asciiBytes "~") 0x0E).Shows (asciiBytes "user@humanos:~") :=
    literal_shows hcolon (by decide) (by decide)
  exact literal_shows hhome (by decide) (by decide)

theorem storeAccesses_inBounds (hcount : sh.histCount < 2 ^ 31) (hx : x ∈ storeAccesses sh) :
    x.InBounds := by
  have hlen : (((List.range 63).map sh.inputBuf).takeWhile (· ≠ 0)).length ≤ 63 := by
    have hprefix := (List.takeWhile_prefix (· ≠ 0)
      (l := (List.range 63).map sh.inputBuf)).length_le
    simpa using hprefix
  obtain ⟨k, hk, hpair⟩ := List.mem_flatMap.mp hx
  have hlt := List.mem_range.mp hk
  rcases List.mem_cons.mp hpair with rfl | hrest
  · show k < 64
    omega
  · rw [List.mem_singleton.mp hrest]
    exact histSlot_inBounds hcount (by omega)

theorem commandWords_short : ∀ e ∈ commandWords, e.1.length ≤ 8 := by decide

theorem dispatchReads_inBounds (hx : x ∈ dispatchReads buf) : x.InBounds := by
  obtain ⟨e, he, hword⟩ := List.mem_flatMap.mp hx
  obtain ⟨k, hk, rfl⟩ := List.mem_map.mp hword
  have hlt := List.mem_range.mp hk
  have hshort := commandWords_short e (List.mem_of_mem_take he)
  have hle := compareBytes_le (a := buf) (b := fun k => e.1.getD k 0) (n := e.1.length) (k := 0)
  show k < 64
  omega

theorem stringReads_inBounds {fuel i : Nat} (hi : i ≤ n) (hn : n ≤ 63) (hnul : buf n = 0)
    (hx : x ∈ stringReads buf fuel i) : x.InBounds := by
  induction fuel generalizing i with
  | zero => simp [stringReads] at hx
  | succ fuel ih =>
    rcases List.mem_cons.mp hx with rfl | hrest
    · show i < 64
      omega
    · split at hrest
      · simp at hrest
      · rename_i hbyte
        have hne : i ≠ n := by
          rintro rfl
          exact hbyte hnul
        exact ih (by omega) hrest

theorem writeName_le : (writeName buf room n).2 ≤ n + room := by
  induction room generalizing n with
  | zero => exact le_rfl
  | succ room ih =>
    have hrest := ih (n := n + 1)
    rw [writeName]
    split
    · simp only
      omega
    · simp only
      omega

theorem fixedReads_inBounds {cmd : ShellCommand} (hx : x ∈ fixedReads buf cmd) : x.InBounds := by
  have hnames : ∀ i ≤ 4, x ∈ nameReads i → x.InBounds := by
    intro i hi hname
    obtain ⟨k, hk, rfl⟩ := List.mem_map.mp hname
    have hlt : k < 32 := List.mem_range.mp hk
    show i + k < 64
    omega
  cases cmd with
  | run =>
    rw [List.mem_singleton.mp hx]
    show 0 < 64
    omega
  | cat => exact hnames 4 (by omega) hx
  | write =>
    have hle : (writeName buf 31 6).2 ≤ 6 + 31 := writeName_le
    obtain ⟨k, hk, rfl⟩ := List.mem_map.mp hx
    have hlt := List.mem_range.mp hk
    show 6 + k < 64
    omega
  | rm => exact hnames 3 (by omega) hx
  | _ => simp [fixedReads] at hx

/-- The string a command reads to its end has a NUL within the input buffer. -/
def ArgumentEnds (buf : Nat → UInt8) : Prop :=
  ∀ i, argOffset buf (dispatch buf) = some i → ∃ n, i ≤ n ∧ n ≤ 63 ∧ buf n = 0

/-- A string that goes on is read on. -/
theorem mem_stringReads {i d : Nat} (h : ∀ j, i ≤ j → j < i + d → buf j ≠ 0) :
    .inputBuf (i + d) ∈ stringReads buf (d + 1) i := by
  induction d generalizing i with
  | zero => exact List.mem_cons_self ..
  | succ d ih =>
    have hrest := ih (i := i + 1) fun j hj hlt => h j (by omega) (by omega)
    rw [stringReads, if_neg (h i le_rfl (by omega))]
    rw [show i + (d + 1) = i + 1 + d by omega]
    exact List.mem_cons_of_mem _ hrest

theorem argOffset_le {cmd : ShellCommand} {i : Nat} (h : argOffset buf cmd = some i) : i ≤ 63 := by
  cases cmd with
  | run =>
    rw [← Option.some.inj h]
    split <;> omega
  | touch =>
    rw [← Option.some.inj h]
    omega
  | write =>
    have hle : (writeName buf 31 6).2 ≤ 6 + 31 := writeName_le
    rw [← Option.some.inj h]
    split <;> omega
  | _ => simp [argOffset] at h

/-- A command stays in the input buffer exactly if the string it reads ends there. -/
theorem argumentEnds_iff :
    ArgumentEnds buf ↔ ∀ fuel, ∀ x ∈ argReads fuel buf (dispatch buf), x.InBounds := by
  constructor
  · intro h fuel x hx
    rcases List.mem_append.mp hx with hfixed | hstring
    · exact fixedReads_inBounds hfixed
    · cases hoffset : argOffset buf (dispatch buf) with
      | none => simp [hoffset] at hstring
      | some i =>
        obtain ⟨n, hi, hn, hnul⟩ := h i hoffset
        rw [hoffset] at hstring
        exact stringReads_inBounds hi hn hnul hstring
  · intro h i hoffset
    have hi := argOffset_le hoffset
    by_contra hno
    push Not at hno
    -- the byte behind the input buffer is read
    have hread : .inputBuf (i + (64 - i)) ∈ stringReads buf (64 - i + 1) i :=
      mem_stringReads fun j hj hlt => hno j hj (by omega)
    have hmem : .inputBuf (i + (64 - i)) ∈ argReads (64 - i + 1) buf (dispatch buf) := by
      refine List.mem_append_right _ ?_
      rw [hoffset]
      exact hread
    have hbound : i + (64 - i) < 64 := h _ _ hmem
    omega

/-- The input buffer once Enter has ended the line. -/
def Shell.entered (sh : Shell) : Nat → UInt8 := Function.update sh.inputBuf sh.bufIdx 0

/-- All of `EditorAt` but the prompt, which is printed next. -/
structure BeforePrompt (P : ShellAccess → Prop) (e : Editor) : Prop where
  shown : e.vga.Shows []
  history : ∀ slot, ∀ c ∈ e.shell.historyLine slot, IsPlain c
  histIdx : e.shell.histIdx ≤ e.shell.histCount
  histCount : e.shell.histCount < 2 ^ 31
  accesses : ∀ a ∈ e.accesses, P a

theorem BeforePrompt.prompt (h : BeforePrompt P e) :
    EditorAt P { e.setIdx 0 with vga := showPrompt e.vga } 0 := by
  have hshown : (showPrompt e.vga).Shows (promptText ++ (List.range 0).map e.shell.inputBuf) := by
    rw [List.range_zero, List.map_nil, List.append_nil]
    exact showPrompt_shows h.shown
  refine ⟨by omega, by simp, ?_, h.history, h.histIdx, h.histCount, h.accesses⟩
  simpa only [Editor.setIdx] using hshown

theorem EditorAt.endLine (hP : ∀ a, a.InBounds → P a) (h : EditorAt P e e.shell.bufIdx) :
    BeforePrompt P ((e.putc 10).setBuf e.shell.bufIdx 0) := by
  have hset := endLine_at hP h
  exact ⟨newline_shows h.shown.toBlankBehind, h.history, h.histIdx, h.histCount, hset.accesses⟩

theorem enterCommand_before (hP : ∀ a, a.InBounds → P a) (h : BeforePrompt P e)
    (hle : e.shell.bufIdx ≤ 63) (hplain : ∀ k < e.shell.bufIdx, IsPlain (e.shell.inputBuf k))
    (hnul : e.shell.inputBuf e.shell.bufIdx = 0) (hcount : e.shell.histCount + 1 < 2 ^ 31)
    (harg : ∀ x ∈ argReads o.fuel e.shell.inputBuf (dispatch e.shell.inputBuf), P x) :
    BeforePrompt P (enterCommand o e) := by
  have hhistory : ∀ slot, ∀ c ∈ e.shell.remember.historyLine slot, IsPlain c := by
    intro slot c hc
    rw [remember_historyLine hle (fun k hk => (hplain k hk).nonzero) hnul] at hc
    split at hc
    · obtain ⟨k, hk, rfl⟩ := List.mem_map.mp hc
      exact hplain k (List.mem_range.mp hk)
    · exact h.history slot c hc
  have haccesses : ∀ x ∈ (e.accesses ++ storeAccesses e.shell) ++ (dispatchReads e.shell.inputBuf ++
      argReads o.fuel e.shell.inputBuf (dispatch e.shell.inputBuf)), P x := by
    intro x hx
    rcases List.mem_append.mp hx with hstored | hcommand
    · rcases List.mem_append.mp hstored with hold | hstore
      · exact h.accesses x hold
      · exact hP x (storeAccesses_inBounds h.histCount hstore)
    · rcases List.mem_append.mp hcommand with hdispatch | hread
      · exact hP x (dispatchReads_inBounds hdispatch)
      · exact harg x hread
  have hprinted : (putChars (vgaPutc e.vga 10 0x0F) o.printed).BlankBehind :=
    h.shown.toBlankBehind.putc.putChars o.printed
  unfold enterCommand
  dsimp only
  split
  · exact ⟨vgaInit_shows hprinted.screen.stores, hhistory, le_rfl, hcount, haccesses⟩
  · exact ⟨newline_shows hprinted, hhistory, le_rfl, hcount, haccesses⟩

theorem pressEnter_at (hP : ∀ a, a.InBounds → P a) (h : EditorAt P e e.shell.bufIdx)
    (hcount : 0 < e.shell.bufIdx → e.shell.histCount + 1 < 2 ^ 31)
    (harg : 0 < e.shell.bufIdx →
      ∀ x ∈ argReads o.fuel e.shell.entered (dispatch e.shell.entered), P x) :
    EditorAt P (pressEnter o e) (pressEnter o e).shell.bufIdx := by
  have hended := h.endLine hP
  rw [pressEnter]
  dsimp only
  split
  · rename_i hpos
    refine (enterCommand_before hP hended h.le (fun k hk => ?_) ?_ (hcount hpos)
      (harg hpos)).prompt
    · have hsame : ((e.putc 10).setBuf e.shell.bufIdx 0).shell.inputBuf k = e.shell.inputBuf k :=
        Function.update_of_ne (by simp only [Editor.setBuf, Editor.putc] at hk; omega) _ _
      rw [hsame]
      exact h.plain k hk
    · exact Function.update_self ..
  · exact hended.prompt

end Enter

end HumanOS

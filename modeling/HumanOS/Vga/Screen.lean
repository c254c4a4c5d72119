import HumanOS.Vga.Model

/-!
# What a character does to the screen

The cursor never leaves the 25 rows of 80 cells, and a character changes the cell it is put into
or, where a row ends on the last line, moves all rows up.
-/
namespace HumanOS

variable {s : Vga} {c color : UInt8} {index : Int} {entry : UInt16} {start n : Nat} {j : Int}

/-- The white space that `vga_init` and `vga_scroll` fill with. -/
def vgaBlank : UInt16 := vgaEntry 32 0x0F

/-- The cursor is on the screen, and so is every cell that was stored to. -/
structure Vga.OnScreen (s : Vga) : Prop where
  left : 0 ≤ s.cursorX
  right : s.cursorX < 80
  top : 0 ≤ s.cursorY
  bottom : s.cursorY < 25
  stores : ∀ i ∈ s.stores, 0 ≤ i ∧ i < 2000

section Loops

@[simp] theorem store_cursorX : (s.store index entry).cursorX = s.cursorX := rfl

@[simp] theorem store_cursorY : (s.store index entry).cursorY = s.cursorY := rfl

@[simp] theorem store_buffer :
    (s.store index entry).buffer = Function.update s.buffer index entry := rfl

theorem store_stores (h : ∀ i ∈ s.stores, 0 ≤ i ∧ i < 2000) (hindex : 0 ≤ index ∧ index < 2000) :
    ∀ i ∈ (s.store index entry).stores, 0 ≤ i ∧ i < 2000 := by
  intro i hi
  rcases List.mem_append.mp hi with hold | hnew
  · exact h i hold
  · rw [List.mem_singleton.mp hnew]
    exact hindex

theorem fillBlank_succ : fillBlank start s (n + 1) =
    (fillBlank start s n).store ((start + n : Nat) : Int) vgaBlank := by
  simp [fillBlank, List.range_succ, vgaBlank]

theorem fillBlank_cursor : (fillBlank start s n).cursorX = s.cursorX ∧
    (fillBlank start s n).cursorY = s.cursorY := by
  induction n with
  | zero => exact ⟨rfl, rfl⟩
  | succ n ih => simpa [fillBlank_succ] using ih

theorem fillBlank_buffer : (fillBlank start s n).buffer j =
    if start ≤ j ∧ j < start + n then vgaBlank else s.buffer j := by
  induction n with
  | zero => rw [if_neg (by omega)]; rfl
  | succ n ih =>
    rw [fillBlank_succ, store_buffer, Function.update_apply, ih]
    split
    · rw [if_pos (by omega)]
    · split
      · rw [if_pos (by omega)]
      · rw [if_neg (by omega)]

theorem fillBlank_stores (h : ∀ i ∈ s.stores, 0 ≤ i ∧ i < 2000) (hn : start + n ≤ 2000) :
    ∀ i ∈ (fillBlank start s n).stores, 0 ≤ i ∧ i < 2000 := by
  induction n with
  | zero => exact h
  | succ n ih =>
    rw [fillBlank_succ]
    exact store_stores (ih (by omega)) (by omega)

theorem moveRowsUp_succ : moveRowsUp s (n + 1) =
    (moveRowsUp s n).store n ((moveRowsUp s n).buffer (n + vgaWidth)) := by
  simp [moveRowsUp, List.range_succ]

theorem moveRowsUp_cursor : (moveRowsUp s n).cursorX = s.cursorX ∧
    (moveRowsUp s n).cursorY = s.cursorY := by
  induction n with
  | zero => exact ⟨rfl, rfl⟩
  | succ n ih => simpa [moveRowsUp_succ] using ih

/-- The row below is read before the loop comes to it. -/
theorem moveRowsUp_buffer : (moveRowsUp s n).buffer j =
    if 0 ≤ j ∧ j < n then s.buffer (j + vgaWidth) else s.buffer j := by
  induction n generalizing j with
  | zero => rw [if_neg (by omega)]; rfl
  | succ n ih =>
    rw [moveRowsUp_succ, store_buffer, Function.update_apply, ih, ih]
    by_cases hj : j = n
    · subst hj
      rw [if_pos rfl, if_neg (by omega), if_pos (by omega)]
    · rw [if_neg hj]
      split
      · rw [if_pos (by omega)]
      · rw [if_neg (by omega)]

theorem moveRowsUp_stores (h : ∀ i ∈ s.stores, 0 ≤ i ∧ i < 2000) (hn : n ≤ 2000) :
    ∀ i ∈ (moveRowsUp s n).stores, 0 ≤ i ∧ i < 2000 := by
  induction n with
  | zero => exact h
  | succ n ih =>
    rw [moveRowsUp_succ]
    exact store_stores (ih (by omega)) (by omega)

end Loops

section Rows

/-- What `vga_scroll` does when the cursor is below the last row. -/
def Vga.scrolled (s : Vga) : Vga :=
  { fillBlank 1920 (moveRowsUp s 1920) 80 with cursorY := 24 }

theorem vgaScroll_below (h : 25 ≤ s.cursorY) : vgaScroll s = s.scrolled := if_pos h

theorem vgaScroll_inside (h : s.cursorY < 25) : vgaScroll s = s := if_neg (Int.not_le.mpr h)

theorem scrolled_cursorX : s.scrolled.cursorX = s.cursorX := by
  simp only [Vga.scrolled, fillBlank_cursor, moveRowsUp_cursor]

theorem scrolled_stores (h : ∀ i ∈ s.stores, 0 ≤ i ∧ i < 2000) :
    ∀ i ∈ s.scrolled.stores, 0 ≤ i ∧ i < 2000 := by
  have hmoved : ∀ i ∈ (moveRowsUp s 1920).stores, 0 ≤ i ∧ i < 2000 :=
    moveRowsUp_stores h (by omega)
  have hfilled : ∀ i ∈ (fillBlank 1920 (moveRowsUp s 1920) 80).stores, 0 ≤ i ∧ i < 2000 :=
    fillBlank_stores hmoved (by omega)
  simpa only [Vga.scrolled] using hfilled

theorem scrolled_buffer : s.scrolled.buffer j =
    if 0 ≤ j ∧ j < 1920 then s.buffer (j + 80)
    else if 1920 ≤ j ∧ j < 2000 then vgaBlank else s.buffer j := by
  simp only [Vga.scrolled, fillBlank_buffer, moveRowsUp_buffer, vgaWidth]
  by_cases hup : 0 ≤ j ∧ j < 1920
  · rw [if_neg (by omega), if_pos (by omega), if_pos hup]
    rfl
  · rw [if_neg hup]
    by_cases hlast : 1920 ≤ j ∧ j < 2000
    · rw [if_pos (by omega), if_pos hlast]
    · rw [if_neg (by omega), if_neg (by omega), if_neg hlast]

/-- The cursor at the beginning of the next row, with the rows moved up if there is none. -/
def Vga.newRow (s : Vga) : Vga := vgaScroll { s with cursorX := 0, cursorY := s.cursorY + 1 }

theorem newRow_inside (h : s.cursorY < 24) :
    s.newRow = { s with cursorX := 0, cursorY := s.cursorY + 1 } :=
  vgaScroll_inside (by simp only; omega)

theorem newRow_last (h : 24 ≤ s.cursorY) :
    s.newRow = { s with cursorX := 0, cursorY := s.cursorY + 1 }.scrolled :=
  vgaScroll_below (by simp only; omega)

theorem Vga.OnScreen.newRow (h : s.OnScreen) : s.newRow.OnScreen := by
  have htop := h.top
  by_cases hy : s.cursorY < 24
  · rw [newRow_inside hy]
    refine ⟨?_, ?_, ?_, ?_, h.stores⟩ <;> simp only <;> omega
  · rw [newRow_last (by omega)]
    refine ⟨?_, ?_, ?_, ?_, scrolled_stores h.stores⟩
    · simp [scrolled_cursorX]
    · simp [scrolled_cursorX]
    · simp [Vga.scrolled]
    · simp [Vga.scrolled]

theorem Vga.OnScreen.store (h : s.OnScreen) (hindex : 0 ≤ index ∧ index < 2000) :
    (s.store index entry).OnScreen :=
  ⟨h.left, h.right, h.top, h.bottom, store_stores h.stores hindex⟩

theorem vgaPutc_newline : vgaPutc s 10 color = s.newRow := by
  simp [vgaPutc, vgaWidth, Vga.newRow]

theorem vgaPutc_backspace (h : s.OnScreen) : vgaPutc s 8 color =
    if s.cursorX = 0 then s
    else { s.store (s.cursorY * 80 + (s.cursorX - 1)) (vgaEntry 32 color) with
      cursorX := s.cursorX - 1 } := by
  have hleft := h.left
  have hright := h.right
  have hbottom := h.bottom
  by_cases hx : s.cursorX = 0
  · simp [vgaPutc, hx, vgaWidth, vgaScroll_inside hbottom]
  · have hpos : 0 < s.cursorX := by omega
    have hfit : ¬ ((80 : Nat) : Int) ≤ s.cursorX - 1 := by omega
    simp only [vgaPutc, show (8 : UInt8) ≠ 10 by decide, if_false, if_true, hx, hpos, vgaWidth,
      store_cursorX, ge_iff_le, hfit]
    exact vgaScroll_inside hbottom

theorem vgaPutc_char (h : s.OnScreen) (hnl : c ≠ 10) (hbs : c ≠ 8) : vgaPutc s c color =
    if s.cursorX < 79 then
      { s.store (s.cursorY * 80 + s.cursorX) (vgaEntry c color) with cursorX := s.cursorX + 1 }
    else (s.store (s.cursorY * 80 + s.cursorX) (vgaEntry c color)).newRow := by
  have hright := h.right
  have hbottom := h.bottom
  simp only [vgaPutc, hnl, hbs, if_false, vgaWidth, store_cursorX, store_cursorY, ge_iff_le]
  by_cases hx : s.cursorX < 79
  · rw [if_neg (by omega), if_pos hx]
    exact vgaScroll_inside hbottom
  · rw [if_pos (by omega), if_neg hx]
    rfl

theorem cell_inside {x y : Int} (hx : 0 ≤ x ∧ x < 80) (hy : 0 ≤ y ∧ y < 25) :
    0 ≤ y * 80 + x ∧ y * 80 + x < 2000 := by omega

theorem Vga.OnScreen.putc (h : s.OnScreen) : (vgaPutc s c color).OnScreen := by
  have hleft := h.left
  have hright := h.right
  have hrow : 0 ≤ s.cursorY ∧ s.cursorY < 25 := ⟨h.top, h.bottom⟩
  by_cases hnl : c = 10
  · rw [hnl, vgaPutc_newline]
    exact h.newRow
  · by_cases hbs : c = 8
    · rw [hbs, vgaPutc_backspace h]
      split
      · exact h
      · have hstore : (s.store (s.cursorY * 80 + (s.cursorX - 1)) (vgaEntry 32 color)).OnScreen :=
          h.store (cell_inside (by omega) hrow)
        exact ⟨by simp only; omega, by simp only; omega, h.top, h.bottom, hstore.stores⟩
    · have hstore : (s.store (s.cursorY * 80 + s.cursorX) (vgaEntry c color)).OnScreen :=
        h.store (cell_inside ⟨hleft, hright⟩ hrow)
      rw [vgaPutc_char h hnl hbs]
      split
      · exact ⟨by simp only; omega, by simp only; omega, h.top, h.bottom, hstore.stores⟩
      · exact hstore.newRow

theorem Vga.OnScreen.putChars (h : s.OnScreen) (text : List (UInt8 × UInt8)) :
    (putChars s text).OnScreen := by
  induction text generalizing s with
  | nil => exact h
  | cons c text ih => exact ih h.putc

end Rows

section Init

theorem vgaInit_onScreen (h : ∀ i ∈ s.stores, 0 ≤ i ∧ i < 2000) : (vgaInit s).OnScreen := by
  have hfilled : ∀ i ∈ (fillBlank 0 s 2000).stores, 0 ≤ i ∧ i < 2000 :=
    fillBlank_stores h (by omega)
  exact ⟨by simp [vgaInit], by simp [vgaInit], by simp [vgaInit], by simp [vgaInit],
    by simpa only [vgaInit, vgaWidth, vgaHeight] using hfilled⟩

theorem vgaInit_buffer (hj : 0 ≤ j ∧ j < 2000) : (vgaInit s).buffer j = vgaBlank := by
  simp only [vgaInit, vgaWidth, vgaHeight, fillBlank_buffer]
  rw [if_pos (by omega)]

end Init

end HumanOS

import HumanOS.Lib.Layout
import HumanOS.Vga.Screen
import Mathlib.Data.List.Induction

/-!
# The screen and the text printed so far

A text without backspaces, laid out in rows of 80, and the last 25 of these rows on the screen.
-/
namespace HumanOS

open Lib.Layout

variable {s : Vga} {c color : UInt8} {x y : Int} {text : List (UInt8 × UInt8)}
variable {rows full : List (List (UInt8 × UInt8))} {row : List (UInt8 × UInt8)}

/-- The rows of a text: a newline ends one, and so does its 80th character. -/
def textRows (text : List (UInt8 × UInt8)) : List (List (UInt8 × UInt8)) :=
  rowsFrom (fun c => c.1 = 10) 80 80 text

/-- The entry of a cell: a character in its colour, or a white space where there is none. -/
def cellEntry : Option (UInt8 × UInt8) → UInt16
  | some (c, color) => vgaEntry c color
  | none => vgaBlank

/-- The screen shows the last 25 of these rows, or all of them from the top. -/
def ShowsRows (s : Vga) (rows : List (List (UInt8 × UInt8))) : Prop :=
  ∀ i k : Nat, i < 25 → k < 80 → s.buffer (i * 80 + k) = cellEntry (windowCell 25 rows i k)

/-- The screen shows these rows and the cursor is behind the last one. -/
structure TypedRows (s : Vga) (full : List (List (UInt8 × UInt8)))
    (row : List (UInt8 × UInt8)) : Prop where
  screen : s.OnScreen
  column : s.cursorX = row.length
  line : s.cursorY = min full.length 24
  shown : ShowsRows s (full ++ [row])

namespace TypedRows

theorem of_newRow (hscreen : s.OnScreen) (hline : s.cursorY = min full.length 24)
    (hshown : ShowsRows s (full ++ [row])) : TypedRows s.newRow (full ++ [row]) [] := by
  have hlen : (full ++ [row]).length = full.length + 1 := by simp
  by_cases hy : s.cursorY < 24
  · have heq := newRow_inside hy
    refine ⟨hscreen.newRow, by rw [heq]; rfl, ?_, fun i k hi hk => ?_⟩
    · rw [heq, hlen]
      simp only
      omega
    · rw [heq, windowCell_newRow, hlen, if_pos (by omega)]
      exact hshown i k hi hk
  · have heq := newRow_last (s := s) (by omega)
    have hfull : ¬ full.length + 1 < 25 := by omega
    refine ⟨hscreen.newRow, ?_, ?_, fun i k hi hk => ?_⟩
    · rw [heq, scrolled_cursorX]
      rfl
    · rw [heq, hlen]
      simp only [Vga.scrolled]
      omega
    · rw [windowCell_newRow, hlen, if_neg hfull, heq, scrolled_buffer]
      by_cases hlast : i < 24
      · rw [if_pos (by omega), ← hshown (i + 1) k (by omega) hk]
        have hbelow : (i : Int) * 80 + k + 80 = ((i + 1 : Nat) : Int) * 80 + k := by omega
        rw [hbelow]
      · -- the row below the window is empty
        rw [if_neg (by omega), if_pos (by omega), windowCell_eq, hlen,
          List.getElem?_eq_none (by simp; omega)]
        rfl

/-- A character put at the cursor. -/
theorem shown_store (h : TypedRows s full row) (c color : UInt8) :
    ShowsRows (s.store (s.cursorY * 80 + s.cursorX) (vgaEntry c color))
      (full ++ [row ++ [(c, color)]]) := by
  intro i k hi hk
  have hline := h.line
  have hcolumn := h.column
  have hleft := h.screen.left
  have hright := h.screen.right
  rw [store_buffer, Function.update_apply, windowCell_addLast (by decide)]
  by_cases hcell : i = min full.length 24 ∧ k = row.length
  · rw [if_pos (by omega), if_pos hcell]
    rfl
  · rw [if_neg (by omega), if_neg hcell]
    exact h.shown i k hi hk

theorem putc (h : TypedRows s full row) (hbs : c ≠ 8) (color : UInt8) :
    ∃ full' row', TypedRows (vgaPutc s c color) full' row' ∧
      full' ++ [row'] = addChar (fun c => c.1 = 10) 80 full row (c, color) := by
  have hcolumn := h.column
  have hline := h.line
  by_cases hnl : c = 10
  · subst hnl
    refine ⟨full ++ [row], [], ?_, by simp [addChar]⟩
    rw [vgaPutc_newline]
    exact of_newRow h.screen h.line h.shown
  · have hstored := h.shown_store c color
    have hscreen : (s.store (s.cursorY * 80 + s.cursorX) (vgaEntry c color)).OnScreen :=
      h.screen.store (cell_inside ⟨h.screen.left, h.screen.right⟩ ⟨h.screen.top, h.screen.bottom⟩)
    have hputc : (vgaPutc s c color).OnScreen := h.screen.putc
    rw [vgaPutc_char h.screen hnl hbs] at hputc ⊢
    by_cases hx : s.cursorX < 79
    · rw [if_pos hx] at hputc ⊢
      refine ⟨full, row ++ [(c, color)], ⟨hputc, ?_, hline, hstored⟩, ?_⟩
      · simp only [List.length_append, List.length_singleton]
        omega
      · rw [addChar, if_neg (by simpa using hnl), if_pos (by omega)]
    · rw [if_neg hx] at hputc ⊢
      refine ⟨full ++ [row ++ [(c, color)]], [], of_newRow hscreen hline hstored, ?_⟩
      rw [addChar, if_neg (by simpa using hnl), if_neg (by omega)]
      simp

end TypedRows

/-- The layout of one more character. -/
theorem textRows_concat (h : textRows text = full ++ [row]) :
    textRows (text ++ [(c, color)]) = addChar (fun c => c.1 = 10) 80 full row (c, color) := by
  have hconcat := rowsFrom_concat (c := (c, color)) (by decide) (by decide) h
  rwa [show lastRoom 80 80 full = 80 from ite_self 80] at hconcat

theorem vgaInit_typed (h : ∀ i ∈ s.stores, 0 ≤ i ∧ i < 2000) : TypedRows (vgaInit s) [] [] := by
  refine ⟨vgaInit_onScreen h, rfl, rfl, fun i k hi hk => ?_⟩
  rw [vgaInit_buffer (by omega)]
  cases i with
  | zero => rfl
  | succ i => rfl

/-- After any text without backspaces. -/
theorem putChars_typed (h : ∀ i ∈ s.stores, 0 ≤ i ∧ i < 2000) (hbs : ∀ c ∈ text, c.1 ≠ 8) :
    ∃ full row, TypedRows (putChars (vgaInit s) text) full row ∧ textRows text = full ++ [row] := by
  induction text using List.reverseRecOn with
  | nil => exact ⟨[], [], vgaInit_typed h, rfl⟩
  | append_singleton text c ih =>
    obtain ⟨full, row, htyped, hrows⟩ := ih fun c hc => hbs c (by simp [hc])
    obtain ⟨full', row', htyped', hadd⟩ := htyped.putc (hbs c (by simp)) c.2
    refine ⟨full', row', ?_, ?_⟩
    · simpa [putChars] using htyped'
    · rw [hadd]
      exact textRows_concat hrows

/-- The console shows the tail of the text, whatever memory and cursor were before `vga_init`. -/
theorem console_shows_tail (buffer : Int → UInt16) (x y : Int) (text : List (UInt8 × UInt8)) :
    (putChars (vgaInit ⟨buffer, x, y, []⟩) text).OnScreen ∧
      ((∀ c ∈ text, c.1 ≠ 8) →
        ShowsRows (putChars (vgaInit ⟨buffer, x, y, []⟩) text) (textRows text)) := by
  have hstores : ∀ i ∈ (Vga.mk buffer x y []).stores, 0 ≤ i ∧ i < 2000 := by simp
  refine ⟨(vgaInit_onScreen hstores).putChars text, fun hbs => ?_⟩
  obtain ⟨full, row, htyped, hrows⟩ := putChars_typed hstores hbs
  rw [hrows]
  exact htyped.shown

/-- A newline and two characters: the second row begins with the first of them. -/
theorem console_shows_tail_two_rows :
    (putChars (vgaInit ⟨fun _ => 0, 7, 7, []⟩) [(10, 0x0F), (104, 0x0A), (105, 0x0F)]).buffer 80 =
      vgaEntry 104 0x0A := by
  have hshown := (console_shows_tail (fun _ => 0) 7 7 [(10, 0x0F), (104, 0x0A), (105, 0x0F)]).2
    (by simp)
  exact hshown 1 0 (by decide) (by decide)

end HumanOS

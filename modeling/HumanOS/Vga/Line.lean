import HumanOS.Vga.Screen
import Mathlib.Data.List.GetD

/-!
# A line on the screen

The row of the cursor while a line is typed into it and rubbed out again. Whatever is printed,
no character is left behind the cursor.
-/
namespace HumanOS

variable {s : Vga} {c color : UInt8} {text : List UInt8} {j : Int}

/-- The character in a cell. -/
def cellChar (entry : UInt16) : UInt8 := entry.toUInt8

/-- The characters in the row of the cursor. -/
def Vga.cursorRow (s : Vga) : List UInt8 :=
  (List.range vgaWidth).map fun x : Nat => cellChar (s.buffer (s.cursorY * vgaWidth + x))

/-- The cells from the cursor on are blank. -/
structure Vga.BlankBehind (s : Vga) : Prop where
  screen : s.OnScreen
  blank : ∀ j, s.cursorY * 80 + s.cursorX ≤ j → j < 2000 → cellChar (s.buffer j) = 32

/-- The row of the cursor holds the text, and the cursor stands behind it. -/
structure Vga.Shows (s : Vga) (text : List UInt8) : Prop extends s.BlankBehind where
  cursor : s.cursorX = text.length
  before : ∀ x < text.length, cellChar (s.buffer (s.cursorY * 80 + x)) = text.getD x 0

theorem cellChar_vgaEntry : cellChar (vgaEntry c color) = c := by
  apply UInt8.toNat_inj.mp
  have hc := c.toNat_lt
  simp only [cellChar, vgaEntry, UInt16.toNat_toUInt8, UInt16.toNat_or, UInt8.toNat_toUInt16,
    UInt16.toNat_shiftLeft, Nat.shiftLeft_eq]
  rw [show 2 ^ 8 = 256 by rfl]
  have hor := Nat.or_mod_two_pow (a := c.toNat) (b := color.toNat * 256 % 2 ^ 16) (n := 8)
  simp at hor ⊢
  omega

theorem cellChar_vgaBlank : cellChar vgaBlank = 32 := cellChar_vgaEntry

theorem Vga.Shows.cursorRow_eq (h : s.Shows text) :
    s.cursorRow = text ++ List.replicate (80 - text.length) 32 := by
  have hright := h.screen.right
  have hcursor := h.cursor
  have hbottom := h.screen.bottom
  refine List.ext_getElem ?_ fun x hx hx' => ?_
  · simp [Vga.cursorRow, vgaWidth]
    omega
  · have hx80 : x < 80 := by simpa [Vga.cursorRow, vgaWidth] using hx
    simp only [Vga.cursorRow, List.getElem_map, List.getElem_range, vgaWidth]
    by_cases hlt : x < text.length
    · rw [List.getElem_append_left hlt, ← List.getD_eq_getElem _ 0 hlt]
      exact h.before x hlt
    · rw [List.getElem_append_right (by omega), List.getElem_replicate]
      exact h.blank _ (by push_cast; omega) (by push_cast; omega)

section Characters

theorem newRow_shows (h : s.OnScreen)
    (hbelow : ∀ j, (s.cursorY + 1) * 80 ≤ j → j < 2000 → cellChar (s.buffer j) = 32) :
    s.newRow.Shows [] := by
  have hscreen := h.newRow
  have hbottom := h.bottom
  by_cases hy : s.cursorY < 24
  · rw [newRow_inside hy] at hscreen ⊢
    refine ⟨⟨hscreen, fun j hj hj' => hbelow j ?_ hj'⟩, rfl, by simp⟩
    simp only at hj
    omega
  · have hlast : s.cursorY = 24 := by omega
    rw [newRow_last (by omega)] at hscreen ⊢
    refine ⟨⟨hscreen, fun j hj hj' => ?_⟩, scrolled_cursorX, by simp⟩
    rw [scrolled_cursorX] at hj
    simp only [Vga.scrolled] at hj
    rw [scrolled_buffer, if_neg (by omega), if_pos (by omega)]
    exact cellChar_vgaBlank

theorem newline_shows (h : s.BlankBehind) : (vgaPutc s 10 color).Shows [] := by
  have hright := h.screen.right
  rw [vgaPutc_newline]
  exact newRow_shows h.screen fun j hj hj' => h.blank j (by omega) hj'

/-- A blank in front of the cursor, with the cursor on it. -/
theorem backspace_blank (h : s.BlankBehind) : (vgaPutc s 8 color).BlankBehind := by
  refine ⟨h.screen.putc, ?_⟩
  rw [vgaPutc_backspace h.screen]
  split
  · exact h.blank
  · intro j hj hj'
    simp only [store_cursorY, store_buffer, Function.update_apply] at hj ⊢
    split
    · exact cellChar_vgaEntry
    · exact h.blank j (by omega) hj'

theorem stored_blank (h : s.BlankBehind) (hx : s.cursorX < 79) :
    Vga.BlankBehind { s.store (s.cursorY * 80 + s.cursorX) (vgaEntry c color) with
      cursorX := s.cursorX + 1 } := by
  have hleft := h.screen.left
  have hrow : 0 ≤ s.cursorY ∧ s.cursorY < 25 := ⟨h.screen.top, h.screen.bottom⟩
  have hstore : (s.store (s.cursorY * 80 + s.cursorX) (vgaEntry c color)).OnScreen :=
    h.screen.store (cell_inside ⟨hleft, h.screen.right⟩ hrow)
  refine ⟨⟨?_, ?_, hstore.top, hstore.bottom, hstore.stores⟩, ?_⟩
  · simp only
    omega
  · simp only
    omega
  · intro j hj hj'
    simp only [store_cursorY, store_buffer, Function.update_apply] at hj ⊢
    rw [if_neg (by omega)]
    exact h.blank j (by omega) hj'

theorem Vga.BlankBehind.putc (h : s.BlankBehind) : (vgaPutc s c color).BlankBehind := by
  have hright := h.screen.right
  by_cases hnl : c = 10
  · rw [hnl]
    exact (newline_shows h).toBlankBehind
  · by_cases hbs : c = 8
    · rw [hbs]
      exact backspace_blank h
    · rw [vgaPutc_char h.screen hnl hbs]
      split
      · rename_i hx
        exact stored_blank h hx
      · -- the last cell of the row is written, and the cursor goes on behind it
        have hstore : (s.store (s.cursorY * 80 + s.cursorX) (vgaEntry c color)).OnScreen :=
          h.screen.store (cell_inside ⟨h.screen.left, hright⟩ ⟨h.screen.top, h.screen.bottom⟩)
        refine (newRow_shows hstore fun j hj hj' => ?_).toBlankBehind
        simp only [store_cursorY, store_buffer, Function.update_apply] at hj ⊢
        rw [if_neg (by omega)]
        exact h.blank j (by omega) hj'

theorem Vga.BlankBehind.putChars (h : s.BlankBehind) (text : List (UInt8 × UInt8)) :
    (putChars s text).BlankBehind := by
  induction text generalizing s with
  | nil => exact h
  | cons c text ih => exact ih h.putc

theorem vgaInit_shows (h : ∀ i ∈ s.stores, 0 ≤ i ∧ i < 2000) : (vgaInit s).Shows [] := by
  refine ⟨⟨vgaInit_onScreen h, fun j hj hj' => ?_⟩, rfl, by simp⟩
  have hj0 : 0 ≤ j := by simpa [vgaInit] using hj
  rw [vgaInit_buffer ⟨hj0, hj'⟩]
  exact cellChar_vgaBlank

/-- A character of the line, which neither ends a row nor is one that moves the cursor back. -/
theorem Vga.Shows.putc (h : s.Shows text) (hroom : text.length < 79) (hnl : c ≠ 10) (hbs : c ≠ 8) :
    (vgaPutc s c color).Shows (text ++ [c]) := by
  have hcursor := h.cursor
  have hx : s.cursorX < 79 := by omega
  rw [vgaPutc_char h.screen hnl hbs, if_pos hx]
  refine ⟨stored_blank h.toBlankBehind hx, ?_, fun x hlt => ?_⟩
  · rw [List.length_append, List.length_singleton]
    simp only
    omega
  · rw [List.length_append, List.length_singleton] at hlt
    simp only [store_cursorY, store_buffer, Function.update_apply]
    by_cases hlast : x = text.length
    · rw [if_pos (by omega), cellChar_vgaEntry, hlast,
        List.getD_append_right _ _ _ _ (Nat.le_refl _)]
      simp
    · rw [if_neg (by omega), List.getD_append _ _ _ _ (by omega)]
      exact h.before x (by omega)

/-- The cursor moved back onto a blank. -/
theorem Vga.Shows.backspace (h : s.Shows (text ++ [c])) : (vgaPutc s 8 color).Shows text := by
  have hcursor := h.cursor
  rw [List.length_append, List.length_singleton] at hcursor
  refine ⟨backspace_blank h.toBlankBehind, ?_, fun x hlt => ?_⟩
  · rw [vgaPutc_backspace h.screen, if_neg (by omega)]
    simp only
    omega
  · rw [vgaPutc_backspace h.screen, if_neg (by omega)]
    simp only [store_cursorY, store_buffer, Function.update_apply]
    rw [if_neg (by omega), h.before x (by simp; omega), List.getD_append _ _ _ _ hlt]

theorem Vga.Shows.rubOut (h : s.Shows (text ++ [c])) :
    (vgaPutc (vgaPutc (vgaPutc s 8 color) 32 color) 8 color).Shows text := by
  have hright := h.screen.right
  have hcursor := h.cursor
  rw [List.length_append, List.length_singleton] at hcursor
  have hblank : (vgaPutc (vgaPutc s 8 color) 32 color).Shows (text ++ [32]) :=
    h.backspace.putc (by omega) (by decide) (by decide)
  exact hblank.backspace

theorem Vga.Shows.puts {new : List UInt8} (h : s.Shows text)
    (hroom : text.length + new.length ≤ 79) (hnew : ∀ c ∈ new, c ≠ 10 ∧ c ≠ 8) :
    (vgaPuts s new color).Shows (text ++ new) := by
  induction new generalizing s text with
  | nil => simpa [vgaPuts, HumanOS.putChars] using h
  | cons c new ih =>
    rw [List.length_cons] at hroom
    have hc := hnew c (List.mem_cons_self ..)
    have hputc : (vgaPutc s c color).Shows (text ++ [c]) := h.putc (by omega) hc.1 hc.2
    rw [List.append_cons]
    exact ih hputc (by simp; omega) fun d hd => hnew d (List.mem_cons_of_mem c hd)

end Characters

end HumanOS

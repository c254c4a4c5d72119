import Mathlib.Data.List.Basic
import Mathlib.Tactic.Common

/-! Text laid out in rows of a fixed width, and the window that shows the last of them. -/
namespace HumanOS.Lib.Layout

variable {α : Type*} {breaks : α → Bool} {width height room n i k : Nat} {text : List α} {c : α}
variable {rows full : List (List α)} {row x : List α}

/-- The rows of a text whose first row takes `room` more characters: a new row begins after a
character that breaks the row, which is not part of it, and after one that fills it. -/
def rowsFrom (breaks : α → Bool) (width : Nat) : Nat → List α → List (List α)
  | _, [] => [[]]
  | room, c :: text =>
    if breaks c then [] :: rowsFrom breaks width width text
    else if room ≤ 1 then [c] :: rowsFrom breaks width width text
    else (rowsFrom breaks width (room - 1) text).modifyHead (c :: ·)

/-- One more character: `full` are the rows before the last one, and `row` is the last one, of at
most `room` characters. -/
def addChar (breaks : α → Bool) (room : Nat) (full : List (List α)) (row : List α) (c : α) :
    List (List α) :=
  if breaks c then full ++ [row, []]
  else if row.length + 1 < room then full ++ [row ++ [c]]
  else full ++ [row ++ [c], []]

/-- How long the last row can get. -/
def lastRoom (width room : Nat) (full : List (List α)) : Nat := if full = [] then room else width

theorem addChar_cons : addChar breaks n (x :: full) row c = x :: addChar breaks n full row c := by
  unfold addChar
  split
  · rfl
  · split <;> rfl

theorem rowsFrom_ne_nil : rowsFrom breaks width room text ≠ [] := by
  induction text generalizing room with
  | nil => simp [rowsFrom]
  | cons c text ih =>
    rw [rowsFrom]
    split
    · simp
    · split
      · simp
      · intro hnil
        exact ih (by simpa using hnil)

theorem exists_last (breaks : α → Bool) (width room : Nat) (text : List α) :
    ∃ full row, rowsFrom breaks width room text = full ++ [row] := by
  rcases List.eq_nil_or_concat' (rowsFrom breaks width room text) with hnil | hlast
  · exact absurd hnil rowsFrom_ne_nil
  · exact hlast

/-- A first row that is closed before the rest of the text begins stays as it is. -/
theorem closed_concat (h : x :: rowsFrom breaks width width text = full ++ [row])
    (ih : ∀ full, rowsFrom breaks width width text = full ++ [row] →
      rowsFrom breaks width width (text ++ [c]) =
        addChar breaks (lastRoom width width full) full row c) :
    x :: rowsFrom breaks width width (text ++ [c]) =
      addChar breaks (lastRoom width room full) full row c := by
  cases full with
  | nil =>
    simp only [List.nil_append, List.cons.injEq] at h
    exact absurd h.2 rowsFrom_ne_nil
  | cons y full =>
    simp only [List.cons_append, List.cons.injEq] at h
    obtain ⟨rfl, h⟩ := h
    rw [ih full h, addChar_cons]
    simp [lastRoom]

/-- Appending a character changes the last row only. -/
theorem rowsFrom_concat (hwidth : 0 < width) (hroom : 0 < room)
    (h : rowsFrom breaks width room text = full ++ [row]) :
    rowsFrom breaks width room (text ++ [c]) =
      addChar breaks (lastRoom width room full) full row c := by
  induction text generalizing room full row with
  | nil =>
    obtain ⟨rfl, rfl⟩ : full = [] ∧ row = [] := by
      cases full with
      | nil => simpa [rowsFrom] using h.symm
      | cons a full => simp [rowsFrom] at h
    simp only [List.nil_append, rowsFrom, addChar, lastRoom]
    split
    · rfl
    · split
      · rw [if_neg (by simp; omega)]
      · rw [if_pos (by simp; omega)]
        rfl
  | cons a text ih =>
    rw [rowsFrom] at h
    rw [List.cons_append, rowsFrom]
    by_cases hbreak : breaks a = true
    · rw [if_pos hbreak] at h ⊢
      exact closed_concat h fun full => ih hwidth
    · rw [if_neg hbreak] at h ⊢
      by_cases hlast : room ≤ 1
      · rw [if_pos hlast] at h ⊢
        exact closed_concat h fun full => ih hwidth
      · rw [if_neg hlast] at h ⊢
        obtain ⟨full', row', h'⟩ := exists_last breaks width (room - 1) text
        rw [ih (by omega) h']
        rw [h'] at h
        cases full' with
        | nil =>
          -- the text is still in its first row
          have hsplit : [] ++ [a :: row'] = full ++ [row] := h
          obtain ⟨hfull, hrow⟩ := List.append_inj' hsplit rfl
          obtain rfl := hfull
          obtain rfl := List.singleton_inj.mp hrow
          have hshort : row'.length + 1 < room - 1 ↔ (a :: row').length + 1 < room := by
            rw [List.length_cons]
            omega
          simp only [addChar, lastRoom, if_true, hshort]
          split
          · rfl
          · split <;> rfl
        | cons y full' =>
          have hsplit : ((a :: y) :: full') ++ [row'] = full ++ [row] := h
          obtain ⟨hfull, hrow⟩ := List.append_inj' hsplit rfl
          obtain rfl := hfull
          obtain rfl := List.singleton_inj.mp hrow
          simp [addChar_cons, lastRoom]

/-- The character in row `i` and column `k` of the window of the last `height` rows. -/
def windowCell (height : Nat) (rows : List (List α)) (i k : Nat) : Option α :=
  (rows.drop (rows.length - height))[i]?.bind (·[k]?)

theorem windowCell_eq : windowCell height rows i k =
    rows[rows.length - height + i]?.bind (·[k]?) := by
  rw [windowCell, List.getElem?_drop]

/-- An empty row below the others moves the window on once it is full. -/
theorem windowCell_newRow : windowCell height (rows ++ [[]]) i k =
    windowCell height rows (if rows.length < height then i else i + 1) k := by
  have hcell : ∀ j : Nat, (rows ++ [[]])[j]?.bind (·[k]?) = rows[j]?.bind (·[k]?) := by
    intro j
    rcases Nat.lt_trichotomy j rows.length with hlt | rfl | hgt
    · rw [List.getElem?_append_left hlt]
    · simp
    · rw [List.getElem?_eq_none (by simp; omega), List.getElem?_eq_none (by omega)]
  rw [windowCell_eq, windowCell_eq, hcell, List.length_append, List.length_singleton]
  congr 2
  split <;> omega

/-- A character at the end of the last row. -/
theorem windowCell_addLast (hheight : 0 < height) :
    windowCell height (full ++ [row ++ [c]]) i k =
      if i = min full.length (height - 1) ∧ k = row.length then some c
      else windowCell height (full ++ [row]) i k := by
  simp only [windowCell_eq, List.length_append, List.length_singleton]
  rcases Nat.lt_trichotomy (full.length + 1 - height + i) full.length with hlt | heq | hgt
  · rw [if_neg (by omega), List.getElem?_append_left hlt, List.getElem?_append_left hlt]
  · rw [heq]
    simp only [List.getElem?_concat_length, Option.bind_some]
    rcases Nat.lt_trichotomy k row.length with hk | rfl | hk
    · rw [if_neg (by omega), List.getElem?_append_left hk]
    · rw [if_pos ⟨by omega, rfl⟩, List.getElem?_concat_length]
    · rw [if_neg (by omega), List.getElem?_eq_none (by simp; omega),
        List.getElem?_eq_none (by omega)]
  · rw [if_neg (by omega), List.getElem?_eq_none (by simp; omega),
      List.getElem?_eq_none (by simp; omega)]

end HumanOS.Lib.Layout

import HumanOS.Lib.Bytes

/-! Packed structures of little-endian fields. -/
namespace HumanOS.Lib

variable {v n : Nat} {before after : List (Nat × Nat)}

/-- The bytes of fields of given values and widths, one behind the other. -/
def packed (fields : List (Nat × Nat)) : List UInt8 :=
  fields.flatMap fun f => (List.range f.2).map (byteLE f.1)

/-- The memory that starts with these bytes. -/
def memoryOf (bytes : List UInt8) : Nat → UInt8 := fun k => bytes.getD k 0

def widths (fields : List (Nat × Nat)) : Nat := (fields.map Prod.snd).sum

theorem packed_length (fields : List (Nat × Nat)) : (packed fields).length = widths fields := by
  simp [packed, widths, List.length_flatMap]

/-- The bytes before a field, those of the field and those behind it. -/
theorem memoryOf_packed (before after : List (Nat × Nat)) (v n k : Nat) :
    memoryOf (packed (before ++ (v, n) :: after)) k =
      if k < widths before then memoryOf (packed before) k
      else if k < widths before + n then byteLE v (k - widths before)
      else memoryOf (packed after) (k - widths before - n) := by
  have hsplit : packed (before ++ (v, n) :: after) =
      packed before ++ ((List.range n).map (byteLE v) ++ packed after) := by
    simp [packed]
  have hlen : ((List.range n).map (byteLE v)).length = n := by simp
  simp only [memoryOf, hsplit, ← packed_length, List.getD_eq_getElem?_getD]
  by_cases hbefore : k < (packed before).length
  · rw [if_pos hbefore, List.getElem?_append_left hbefore]
  rw [if_neg hbefore, List.getElem?_append_right (by omega)]
  by_cases hfield : k < (packed before).length + n
  · rw [if_pos hfield, List.getElem?_append_left (by omega), List.getElem?_map,
      List.getElem?_range (by omega)]
    rfl
  · rw [if_neg hfield, List.getElem?_append_right (by omega), hlen]

/-- A field reads back as its value, modulo its width. -/
theorem loadLE_packed (before after : List (Nat × Nat)) (v n : Nat) :
    loadLE (memoryOf (packed (before ++ (v, n) :: after))) (widths before) n = v % 256 ^ n := by
  refine loadLE_of_bytes fun k hk => ?_
  rw [memoryOf_packed, if_neg (by omega), if_pos (by omega), Nat.add_sub_cancel_left]

/-- Another value of a field changes the bytes of the field only. -/
theorem memoryOf_packed_field (before after : List (Nat × Nat)) (v v' n k : Nat) :
    memoryOf (packed (before ++ (v, n) :: after)) k =
      if widths before ≤ k ∧ k < widths before + n then byteLE v (k - widths before)
      else memoryOf (packed (before ++ (v', n) :: after)) k := by
  rw [memoryOf_packed, memoryOf_packed]
  split_ifs <;> first | rfl | omega

theorem widths_append (f g : List (Nat × Nat)) : widths (f ++ g) = widths f + widths g := by
  simp [widths]

/-- The same for an entry of a table of structures of one width. -/
theorem loadLE_table (entry : Nat → List (Nat × Nat)) {w i m : Nat}
    (hw : ∀ i, widths (entry i) = w) (hi : i < m) (hentry : entry i = before ++ (v, n) :: after) :
    loadLE (memoryOf (packed ((List.range m).flatMap entry))) (w * i + widths before) n =
      v % 256 ^ n := by
  have hprefix : ∀ i, widths ((List.range i).flatMap entry) = w * i := by
    intro i
    induction i with
    | zero => rfl
    | succ i ih =>
      rw [List.range_succ, List.flatMap_append, widths_append, ih, List.flatMap_singleton, hw]
      ring
  have hsplit : (List.range m).flatMap entry = ((List.range i).flatMap entry ++ before) ++
      (v, n) :: (after ++ ((List.range (m - (i + 1))).map (i + 1 + ·)).flatMap entry) := by
    rw [show m = i + 1 + (m - (i + 1)) by omega, List.range_add, List.range_succ]
    simp [hentry, List.flatMap_append]
  rw [hsplit, ← hprefix i, ← widths_append]
  exact loadLE_packed _ _ v n

end HumanOS.Lib

import HumanOS.Libc.Model
import HumanOS.Syscall.Write
import Mathlib.Data.List.Lex

/-!
# Strings

`strcpy`, `strcat` and `strcmp` of `user/libc.c` on one memory, in which the strings may overlap.
-/
namespace HumanOS

open Lib

section Model

/-- The loop of `strcpy` and of `strcat`, from index `i` on. -/
def copyString (dest src : Word) : Nat → Nat → (Word → UInt8) → Option (Word → UInt8)
  | 0, _, _ => none
  | fuel + 1, i, mem =>
    if charAt mem src i ≠ 0 then
      copyString dest src fuel (i + 1)
        (Function.update mem (dest + BitVec.ofNat 32 i) (charAt mem src i))
    else some (Function.update mem (dest + BitVec.ofNat 32 i) 0)

/-- `strcpy`. -/
def strcpy (fuel : Nat) (mem : Word → UInt8) (dest src : Word) : Option (Word → UInt8) :=
  copyString dest src fuel 0 mem

/-- `strcat`. -/
def strcat (fuel : Nat) (mem : Word → UInt8) (dest src : Word) : Option (Word → UInt8) := do
  let dlen ← strlen (charAt mem dest) fuel 0
  copyString (dest + BitVec.ofNat 32 dlen) src fuel 0 mem

/-- `char` is signed. -/
def signedChar (c : UInt8) : Int := c.toInt8.toInt

/-- The loop of `strcmp` and what follows it, from index `i` on. -/
def compareFrom (mem : Word → UInt8) (s1 s2 : Word) : Nat → Nat → Option Int
  | 0, _ => none
  | fuel + 1, i =>
    let a := charAt mem s1 i
    let b := charAt mem s2 i
    if a ≠ 0 ∧ b ≠ 0 then
      if a ≠ b then some (if signedChar a < signedChar b then -1 else 1)
      else compareFrom mem s1 s2 fuel (i + 1)
    else if a = b then some 0
    else some (if signedChar a < signedChar b then -1 else 1)

/-- `strcmp`. -/
def strcmp (fuel : Nat) (mem : Word → UInt8) (s1 s2 : Word) : Option Int :=
  compareFrom mem s1 s2 fuel 0

end Model

variable {mem mem' : Word → UInt8} {dest src : Word} {fuel i j len dlen slen : Nat}

section Copying

/-- The addresses wrap, so a string has fewer bytes than there are addresses. -/
theorem FirstNul.length_lt (h : FirstNul mem src len) : len < 2 ^ 32 := by
  by_contra hge
  have hwrap : BitVec.ofNat 32 len = BitVec.ofNat 32 (len - 2 ^ 32) := by bv_omega
  refine h.before (len - 2 ^ 32) (by omega) ?_
  rw [charAt, ← hwrap]
  exact h.nul

/-- The copy would run into the NUL of the string before it gets there. -/
def Chases (dest src : Word) (len : Nat) : Prop := 0 < (dest - src).toNat ∧ (dest - src).toNat ≤ len

/-- The memory with the first `i` bytes of the string copied. -/
def copied (mem : Word → UInt8) (dest src : Word) (i : Nat) : Word → UInt8 := fun a =>
  if (a - dest).toNat < i then charAt mem src (a - dest).toNat else mem a

/-- What was written is nothing that is still to be read. -/
theorem charAt_copied (h : ¬ Chases dest src len) (hi : i ≤ len) (hlen : len < 2 ^ 32) :
    charAt (copied mem dest src i) src i = charAt mem src i := by
  have hbehind : ¬ (src + BitVec.ofNat 32 i - dest).toNat < i := by
    unfold Chases at h
    bv_omega
  exact if_neg hbehind

theorem offset_iff (hi : i < 2 ^ 32) (a : Word) :
    a = dest + BitVec.ofNat 32 i ↔ (a - dest).toNat = i := by
  constructor
  · rintro rfl
    bv_omega
  · intro h
    bv_omega

theorem copied_succ (hi : i < 2 ^ 32) :
    Function.update (copied mem dest src i) (dest + BitVec.ofNat 32 i) (charAt mem src i) =
      copied mem dest src (i + 1) := by
  funext a
  rw [Function.update_apply]
  by_cases hat : (a - dest).toNat = i
  · rw [if_pos ((offset_iff hi a).mpr hat), copied, if_pos (by omega), hat]
  · rw [if_neg fun heq => hat ((offset_iff hi a).mp heq), copied, copied]
    split
    · rw [if_pos (by omega)]
    · rw [if_neg (by omega)]

/-- The string is copied byte by byte, and the NUL behind it. -/
theorem copyString_copies (hs : FirstNul mem src len) (hlen : len < 2 ^ 32)
    (h : ¬ Chases dest src len) (hi : i ≤ len) :
    copyString dest src fuel i (copied mem dest src i) =
      if len < i + fuel then
        some (Function.update (copied mem dest src len) (dest + BitVec.ofNat 32 len) 0)
      else none := by
  induction fuel generalizing i with
  | zero =>
    rw [if_neg (by omega)]
    rfl
  | succ fuel ih =>
    rw [copyString, charAt_copied h hi hlen]
    rcases Nat.lt_or_eq_of_le hi with hlt | rfl
    · rw [if_pos (hs.before i hlt), copied_succ (by omega), ih hlt]
      rw [Nat.succ_add_eq_add_succ]
    · rw [if_neg (by simpa using hs.nul), if_pos (by omega)]

/-- A copy that chases its own end has none. -/
theorem copyString_chases (hd : 0 < (dest - src).toNat)
    (hbytes : ∀ j < i + (dest - src).toNat, charAt mem src j ≠ 0) :
    copyString dest src fuel i mem = none := by
  induction fuel generalizing i mem with
  | zero => rfl
  | succ fuel ih =>
    rw [copyString, if_pos (hbytes i (by omega))]
    refine ih fun j hj => ?_
    rw [charAt, Function.update_apply]
    split
    · exact hbytes i (by omega)
    · rename_i hne
      refine hbytes j (Nat.lt_of_le_of_ne (by omega) ?_)
      rintro rfl
      apply hne
      bv_omega

/-- The memory after the copy of a string. -/
def withString (mem : Word → UInt8) (dest src : Word) (len : Nat) : Word → UInt8 :=
  Function.update (copied mem dest src len) (dest + BitVec.ofNat 32 len) 0

/-- A string is copied exactly if the copy does not chase its end. -/
theorem copyString_iff (dest : Word) (fuel : Nat) (mem' : Word → UInt8)
    (hs : FirstNul mem src len) :
    copyString dest src fuel 0 mem = some mem' ↔
      ¬ Chases dest src len ∧ len < fuel ∧ mem' = withString mem dest src len := by
  by_cases hchase : Chases dest src len
  · have hnever : copyString dest src fuel 0 mem = none :=
      copyString_chases hchase.1 fun j hj => hs.before j (by have := hchase.2; omega)
    simp [hnever, hchase]
  · have hstart : copied mem dest src 0 = mem := by
      funext a
      exact if_neg (by omega)
    have hcopies : copyString dest src fuel 0 (copied mem dest src 0) = _ :=
      copyString_copies hs hs.length_lt hchase (Nat.zero_le len)
    rw [hstart, Nat.zero_add] at hcopies
    rw [hcopies, withString]
    split
    · rename_i hfuel
      simp [hchase, hfuel, eq_comm]
    · rename_i hfuel
      simp [hfuel]

theorem strlen_firstNul (hd : FirstNul mem dest dlen) (hi : i ≤ dlen) :
    strlen (charAt mem dest) fuel i = if dlen < i + fuel then some dlen else none := by
  induction fuel generalizing i with
  | zero =>
    rw [if_neg (by omega)]
    rfl
  | succ fuel ih =>
    rw [strlen]
    rcases Nat.lt_or_eq_of_le hi with hlt | rfl
    · rw [if_pos (hd.before i hlt), ih hlt, Nat.succ_add_eq_add_succ]
    · rw [if_neg (by simpa using hd.nul), if_pos (by omega)]

end Copying

section Appending

/-- A byte of the string that was copied. -/
theorem charAt_withString (hi : i < slen) (hlen : slen < 2 ^ 32) :
    charAt (withString mem dest src slen) dest i = charAt mem src i := by
  have hoff : (dest + BitVec.ofNat 32 i - dest).toNat = i := by bv_omega
  rw [charAt, withString, Function.update_of_ne (address_ne hi hlen), copied, hoff, if_pos hi]

theorem charAt_withString_end : charAt (withString mem dest src slen) dest slen = 0 :=
  Function.update_self ..

/-- Nothing but the copy and its NUL is written. -/
theorem withString_outside {a : Word} (ha : slen < (a - dest).toNat) (hlen : slen < 2 ^ 32) :
    withString mem dest src slen a = mem a := by
  have hne : a ≠ dest + BitVec.ofNat 32 slen := by
    intro heq
    rw [offset_iff hlen] at heq
    omega
  rw [withString, Function.update_of_ne hne, copied, if_neg (by omega)]

theorem charAt_offset (i : Nat) :
    charAt mem (dest + BitVec.ofNat 32 dlen) i = charAt mem dest (dlen + i) := by
  rw [charAt, charAt, BitVec.add_assoc, ← BitVec.ofNat_add]

/-- The bytes of a string with another one copied behind it. -/
theorem charAt_appended (mem : Word → UInt8) (dest src : Word) (hroom : dlen + slen < 2 ^ 32)
    (hj : j < dlen + slen) :
    charAt (withString mem (dest + BitVec.ofNat 32 dlen) src slen) dest j =
      if j < dlen then charAt mem dest j else charAt mem src (j - dlen) := by
  split
  · exact withString_outside (by bv_omega) (by omega)
  · have hsplit : j = dlen + (j - dlen) := by omega
    rw [hsplit, ← charAt_offset, charAt_withString (by omega) (by omega), Nat.add_sub_cancel_left]

theorem bytesAt_appended (mem : Word → UInt8) (dest src : Word) (hroom : dlen + slen < 2 ^ 32) :
    bytesAt (withString mem (dest + BitVec.ofNat 32 dlen) src slen) dest 0 (dlen + slen) =
      bytesAt mem dest 0 dlen ++ bytesAt mem src 0 slen := by
  refine List.ext_getElem (by simp [bytesAt]) fun j hj _ => ?_
  have hlt : j < dlen + slen := by simpa [bytesAt] using hj
  have hbyte := charAt_appended mem dest src hroom hlt
  simp only [charAt] at hbyte
  simp only [bytesAt, List.getElem_append, List.getElem_map, List.getElem_range, List.length_map,
    List.length_range, Nat.zero_add, hbyte]
  split
  · rfl
  · rfl

/-- What a string copied behind the bytes of another one comes to. -/
theorem appended_string (hd : ∀ j < dlen, charAt mem dest j ≠ 0) (hs : FirstNul mem src slen)
    (hroom : dlen + slen < 2 ^ 32) :
    FirstNul (withString mem (dest + BitVec.ofNat 32 dlen) src slen) dest (dlen + slen) ∧
    bytesAt (withString mem (dest + BitVec.ofNat 32 dlen) src slen) dest 0 (dlen + slen) =
      bytesAt mem dest 0 dlen ++ bytesAt mem src 0 slen ∧
    ∀ a, dlen + slen < (a - dest).toNat →
      withString mem (dest + BitVec.ofNat 32 dlen) src slen a = mem a := by
  refine ⟨⟨?_, ?_⟩, bytesAt_appended mem dest src hroom, ?_⟩
  · rw [← charAt_offset, charAt_withString_end]
  · intro j hj
    rw [charAt_appended mem dest src hroom hj]
    split
    · rename_i hlow
      exact hd j hlow
    · exact hs.before _ (by omega)
  · intro a ha
    exact withString_outside (by bv_omega) (by omega)

theorem strcat_iff (fuel : Nat) (mem' : Word → UInt8) (hd : FirstNul mem dest dlen)
    (hs : FirstNul mem src slen) :
    strcat fuel mem dest src = some mem' ↔
      dlen < fuel ∧ ¬ Chases (dest + BitVec.ofNat 32 dlen) src slen ∧ slen < fuel ∧
        mem' = withString mem (dest + BitVec.ofNat 32 dlen) src slen := by
  have hiff := copyString_iff (dest + BitVec.ofNat 32 dlen) fuel mem' hs
  rw [strcat, strlen_firstNul hd (Nat.zero_le dlen), Nat.zero_add]
  split
  · rename_i hfuel
    simpa [hfuel] using hiff
  · rename_i hfuel
    simp [hfuel]

end Appending

/-- `strcpy` and `strcat` come to an end exactly if the place to copy to does not lie in the string
behind its start: a string that is appended to itself never ends. Then what the string was stands
there, for `strcat` behind the other one if the two fit into the memory, and no other byte has
changed. -/
theorem strings_copied_iff (mem : Word → UInt8) (dest src : Word) (slen : Nat)
    (hs : FirstNul mem src slen) :
    (((∃ fuel mem', strcpy fuel mem dest src = some mem') ↔ ¬ Chases dest src slen) ∧
      ∀ fuel mem', strcpy fuel mem dest src = some mem' →
        FirstNul mem' dest slen ∧ bytesAt mem' dest 0 slen = bytesAt mem src 0 slen ∧
        ∀ a, slen < (a - dest).toNat → mem' a = mem a) ∧
    ∀ dlen, FirstNul mem dest dlen → dlen + slen < 2 ^ 32 →
      ((∃ fuel mem', strcat fuel mem dest src = some mem') ↔
        ¬ Chases (dest + BitVec.ofNat 32 dlen) src slen) ∧
      ∀ fuel mem', strcat fuel mem dest src = some mem' →
        FirstNul mem' dest (dlen + slen) ∧
        bytesAt mem' dest 0 (dlen + slen) = bytesAt mem dest 0 dlen ++ bytesAt mem src 0 slen ∧
        ∀ a, dlen + slen < (a - dest).toNat → mem' a = mem a := by
  refine ⟨⟨⟨?_, ?_⟩, ?_⟩, fun dlen hd hroom => ⟨⟨?_, ?_⟩, ?_⟩⟩
  · rintro ⟨fuel, mem', hdone⟩
    exact ((copyString_iff dest fuel mem' hs).mp hdone).1
  · intro hchase
    exact ⟨slen + 1, _, (copyString_iff dest _ _ hs).mpr ⟨hchase, by omega, rfl⟩⟩
  · intro fuel mem' hdone
    obtain ⟨-, -, rfl⟩ := (copyString_iff dest fuel mem' hs).mp hdone
    have hlt := hs.length_lt
    have hnone : ∀ j < 0, charAt mem dest j ≠ 0 := fun j hj => absurd hj (Nat.not_lt_zero j)
    simpa [bytesAt] using appended_string hnone hs (by omega)
  · rintro ⟨fuel, mem', hdone⟩
    exact ((strcat_iff fuel mem' hd hs).mp hdone).2.1
  · intro hchase
    exact ⟨max dlen slen + 1, _, (strcat_iff _ _ hd hs).mpr ⟨by omega, hchase, by omega, rfl⟩⟩
  · intro fuel mem' hdone
    obtain ⟨-, -, -, rfl⟩ := (strcat_iff fuel mem' hd hs).mp hdone
    exact appended_string hd.before hs hroom

/-- Memory with "ab" at 100 and "c" at 200. -/
def twoStrings : Word → UInt8 := fun a =>
  if a = 100 then 97 else if a = 101 then 98 else if a = 200 then 99 else 0

theorem twoStrings_ab : FirstNul twoStrings 100 2 := ⟨by decide, by decide⟩

theorem twoStrings_c : FirstNul twoStrings 200 1 := ⟨by decide, by decide⟩

/-- "c" is copied over "ab" and appended to it; "ab" is neither copied to its second character nor
appended to itself. -/
theorem strings_copied_iff_abc :
    (∃ fuel mem', strcpy fuel twoStrings 100 200 = some mem') ∧
      (¬ ∃ fuel mem', strcpy fuel twoStrings 101 100 = some mem') ∧
      (∃ fuel mem', strcat fuel twoStrings 100 200 = some mem') ∧
      ¬ ∃ fuel mem', strcat fuel twoStrings 100 100 = some mem' := by
  have hc := strings_copied_iff twoStrings 100 200 1 twoStrings_c
  have hshift := strings_copied_iff twoStrings 101 100 2 twoStrings_ab
  have hself := strings_copied_iff twoStrings 100 100 2 twoStrings_ab
  refine ⟨?_, ?_, ?_, ?_⟩
  · exact hc.1.1.mpr fun h => absurd h.2 (by decide)
  · exact fun h => hshift.1.1.mp h ⟨by decide, by decide⟩
  · exact (hc.2 2 twoStrings_ab (by decide)).1.mpr fun h => absurd h.2 (by decide)
  · exact fun h => (hself.2 2 twoStrings_ab (by decide)).1.mp h ⟨by decide, by decide⟩

section Comparing

/-- The characters of a string, its NUL among them, as `strcmp` compares them. -/
def signedChars (mem : Word → UInt8) (s : Word) (start len : Nat) : List Int :=
  (bytesAt mem s start (len + 1)).map signedChar

/-- -1, 0 or 1 for less, the same or greater. -/
def order (xs ys : List Int) : Int := if xs < ys then -1 else if xs = ys then 0 else 1

theorem order_self (xs : List Int) : order xs xs = 0 := by
  simp [order]

theorem order_cons_same (x : Int) (xs ys : List Int) : order (x :: xs) (x :: ys) = order xs ys := by
  simp [order]

theorem order_cons_differ {x y : Int} (h : x ≠ y) (xs ys : List Int) :
    order (x :: xs) (y :: ys) = if x < y then -1 else 1 := by
  simp [order, List.cons_lt_cons_iff, h]

theorem signedChar_inj {a b : UInt8} : signedChar a = signedChar b ↔ a = b := by
  constructor
  · intro h
    have hsame : a.toInt8 = b.toInt8 := Int8.toInt_inj.mp h
    simpa using congrArg Int8.toUInt8 hsame
  · rintro rfl
    rfl

theorem signedChars_cons (mem : Word → UInt8) (s : Word) (start len : Nat) :
    signedChars mem s start (len + 1) =
      signedChar (charAt mem s start) :: signedChars mem s (start + 1) len := by
  rw [signedChars, bytesAt_cons, List.map_cons]
  rfl

variable {s1 s2 : Word} {n : Nat}

theorem signedChars_end (mem : Word → UInt8) (s : Word) (start : Nat) :
    signedChars mem s start 0 = [signedChar (charAt mem s start)] := by
  simp [signedChars, bytesAt, charAt]

theorem signedChars_head (mem : Word → UInt8) (s : Word) (start len : Nat) :
    ∃ rest, signedChars mem s start len = signedChar (charAt mem s start) :: rest := by
  cases len with
  | zero => exact ⟨[], signedChars_end mem s start⟩
  | succ len => exact ⟨_, signedChars_cons mem s start len⟩

/-- Two characters that are not the same decide. -/
theorem compareFrom_differ (hdiffer : charAt mem s1 i ≠ charAt mem s2 i) (a b : Nat) :
    compareFrom mem s1 s2 (fuel + 1) i =
      some (order (signedChars mem s1 i a) (signedChars mem s2 i b)) := by
  obtain ⟨xs, hxs⟩ := signedChars_head mem s1 i a
  obtain ⟨ys, hys⟩ := signedChars_head mem s2 i b
  rw [compareFrom, hxs, hys, order_cons_differ fun heq => hdiffer (signedChar_inj.mp heq)]
  by_cases hboth : charAt mem s1 i ≠ 0 ∧ charAt mem s2 i ≠ 0
  · rw [if_pos hboth, if_pos hdiffer]
  · rw [if_neg hboth, if_neg hdiffer]

/-- The string from index `i` on ends after `n` characters. -/
structure EndsAfter (mem : Word → UInt8) (s : Word) (i n : Nat) : Prop where
  nul : charAt mem s (i + n) = 0
  before : ∀ j < n, charAt mem s (i + j) ≠ 0

theorem EndsAfter.eq_zero (h : EndsAfter mem s1 i n) (hnul : charAt mem s1 i = 0) : n = 0 := by
  by_contra hpos
  exact h.before 0 (by omega) hnul

theorem EndsAfter.next (h : EndsAfter mem s1 i n) (hchar : charAt mem s1 i ≠ 0) :
    ∃ m, n = m + 1 ∧ EndsAfter mem s1 (i + 1) m := by
  cases n with
  | zero => exact absurd h.nul hchar
  | succ m =>
    refine ⟨m, rfl, ?_, fun j hj => ?_⟩
    · rw [Nat.add_right_comm]
      exact h.nul
    · rw [Nat.add_right_comm]
      exact h.before (j + 1) (by omega)

/-- The strings are compared up to the first difference, or their NULs. -/
theorem compareFrom_eq {a b : Nat} (h1 : EndsAfter mem s1 i a) (h2 : EndsAfter mem s2 i b)
    (hfuel : min a b < fuel) : compareFrom mem s1 s2 fuel i =
      some (order (signedChars mem s1 i a) (signedChars mem s2 i b)) := by
  induction fuel generalizing i a b with
  | zero => omega
  | succ fuel ih =>
    by_cases hsame : charAt mem s1 i = charAt mem s2 i
    · by_cases hnul : charAt mem s1 i = 0
      · obtain rfl := h1.eq_zero hnul
        obtain rfl := h2.eq_zero (hsame ▸ hnul)
        rw [compareFrom, if_neg fun h => h.1 hnul, if_pos hsame, signedChars_end, signedChars_end,
          hsame, order_self]
      · obtain ⟨a, rfl, hrest1⟩ := h1.next hnul
        obtain ⟨b, rfl, hrest2⟩ := h2.next (hsame ▸ hnul)
        rw [compareFrom, if_pos ⟨hnul, hsame ▸ hnul⟩, if_neg (by simpa using hsame),
          signedChars_cons, signedChars_cons, hsame, order_cons_same]
        exact ih hrest1 hrest2 (by omega)
    · exact compareFrom_differ hsame a b

end Comparing

/-- `strcmp` comes to an end and orders strings as lists of signed characters, the NUL being one
of them: a string comes after those that go on with a character above 127. Only strings that are
the same are not told apart. -/
theorem strcmp_orders (mem : Word → UInt8) (s1 s2 : Word) (n1 n2 : Nat)
    (h1 : FirstNul mem s1 n1) (h2 : FirstNul mem s2 n2) :
    ∃ r, (∀ fuel, min n1 n2 < fuel → strcmp fuel mem s1 s2 = some r) ∧
      (r = -1 ∧ signedChars mem s1 0 n1 < signedChars mem s2 0 n2 ∨
        r = 0 ∧ bytesAt mem s1 0 n1 = bytesAt mem s2 0 n2 ∨
        r = 1 ∧ signedChars mem s2 0 n2 < signedChars mem s1 0 n1) := by
  have hends1 : EndsAfter mem s1 0 n1 :=
    ⟨by rw [Nat.zero_add]; exact h1.nul, fun j hj => by rw [Nat.zero_add]; exact h1.before j hj⟩
  have hends2 : EndsAfter mem s2 0 n2 :=
    ⟨by rw [Nat.zero_add]; exact h2.nul, fun j hj => by rw [Nat.zero_add]; exact h2.before j hj⟩
  refine ⟨order (signedChars mem s1 0 n1) (signedChars mem s2 0 n2),
    fun fuel hfuel => compareFrom_eq hends1 hends2 hfuel, ?_⟩
  rcases lt_trichotomy (signedChars mem s1 0 n1) (signedChars mem s2 0 n2) with hlt | heq | hgt
  · exact .inl ⟨if_pos hlt, hlt⟩
  · refine .inr (.inl ⟨by rw [heq, order_self], ?_⟩)
    have hbytes := List.map_injective_iff.mpr (fun _ _ => signedChar_inj.mp) heq
    have hlast : ∀ s n, bytesAt mem s 0 n = (bytesAt mem s 0 (n + 1)).dropLast := by
      intro s n
      simp [bytesAt, List.range_succ]
    rw [hlast, hbytes, ← hlast]
  · refine .inr (.inr ⟨?_, hgt⟩)
    rw [order, if_neg (not_lt_of_gt hgt), if_neg hgt.ne']

/-- "ab" comes before "c". -/
theorem strcmp_orders_ab_c : strcmp 2 twoStrings 100 200 = some (-1) := by
  obtain ⟨r, hresult, ⟨rfl, -⟩ | ⟨-, heq⟩ | ⟨-, hgt⟩⟩ :=
    strcmp_orders twoStrings 100 200 2 1 twoStrings_ab twoStrings_c
  · exact hresult 2 (by decide)
  · exact absurd heq (by decide +kernel)
  · exact absurd hgt (by decide +kernel)

end HumanOS

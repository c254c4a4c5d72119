import HumanOS.Libc.Model
import Mathlib.Data.List.GetD
import Mathlib.Data.Nat.Digits.Lemmas

/-!
# Numerals

`itoa` writes the digits of a number, the lowest first, with the sign behind them, and then turns
the whole round; `atoi` reads them back.
-/
namespace HumanOS

open Lib

variable {str out : Nat → UInt8} {text : List UInt8} {base num fuel i k n start stop : Nat}
variable {digits : List Nat} {res value : Word}

/-- The NUL-terminated text from index `i` on. -/
def TextAt (str : Nat → UInt8) (i : Nat) (text : List UInt8) : Prop :=
  ∀ k ≤ text.length, str (i + k) = text.getD k 0

/-- The symbols of the digits. -/
def digitSymbols : List UInt8 :=
  "0123456789abcdefghijklmnopqrstuvwxyz".toList.map fun c => UInt8.ofNat c.toNat

/-- The text of a numeral, the highest digit first. -/
def numeral (minus : Bool) (digits : List Nat) : List UInt8 :=
  (if minus then [45] else []) ++ digits.map fun d => digitSymbols.getD d 0

/-- The digits of `magnitude` in a base, the highest first and without leading zeros. -/
structure IsNumeral (base : Nat) (magnitude : Nat) (digits : List Nat) : Prop where
  nonempty : digits ≠ []
  digit : ∀ d ∈ digits, d < base
  leading : digits.head? = some 0 → digits = [0]
  value : Nat.ofDigits base digits.reverse = magnitude

theorem digitChar_eq (h : n < 36) : digitChar n = digitSymbols.getD n 0 := by
  revert n
  decide

theorem textAt_cons {c : UInt8} :
    TextAt str i (c :: text) ↔ str i = c ∧ TextAt str (i + 1) text := by
  constructor
  · intro h
    refine ⟨h 0 (Nat.zero_le _), fun k hk => ?_⟩
    rw [Nat.add_right_comm, Nat.add_assoc]
    exact h (k + 1) (Nat.succ_le_succ hk)
  · rintro ⟨hhead, htail⟩ k hk
    cases k with
    | zero => exact hhead
    | succ k =>
      have hbyte := htail k (Nat.le_of_succ_le_succ hk)
      rwa [Nat.add_right_comm, Nat.add_assoc] at hbyte

theorem TextAt.nul (h : TextAt str i text) : str (i + text.length) = 0 := by
  rw [h text.length le_rfl]
  simp

section Loops

/-- What is in memory after the bytes were written from index `i` on. -/
def overlay (str : Nat → UInt8) (i : Nat) (bytes : List UInt8) : Nat → UInt8 := fun k =>
  if i ≤ k ∧ k < i + bytes.length then bytes.getD (k - i) 0 else str k

theorem overlay_nil : overlay str i [] = str := by
  funext k
  exact if_neg (by simp)

theorem overlay_cons {c : UInt8} : overlay (Function.update str i c) (i + 1) text =
    overlay str i (c :: text) := by
  funext k
  simp only [overlay, List.length_cons]
  rcases Nat.lt_trichotomy k i with hlt | rfl | hgt
  · rw [if_neg (by omega), if_neg (by omega), Function.update_of_ne (by omega)]
  · rw [if_neg (by omega), if_pos (by omega), Function.update_self, Nat.sub_self]
    rfl
  · by_cases hin : k < i + (text.length + 1)
    · rw [if_pos (by omega), if_pos (by omega), show k - i = k - (i + 1) + 1 by omega]
      rfl
    · rw [if_neg (by omega), if_neg (by omega), Function.update_of_ne (by omega)]

theorem overlay_concat {c : UInt8} : Function.update (overlay str 0 text) text.length c =
    overlay str 0 (text ++ [c]) := by
  funext k
  simp only [Function.update_apply, overlay, List.length_append, List.length_singleton,
    Nat.zero_le, true_and, Nat.zero_add, Nat.sub_zero]
  rcases Nat.lt_trichotomy k text.length with hlt | rfl | hgt
  · rw [if_neg (by omega), if_pos hlt, if_pos (by omega), List.getD_append _ _ _ _ hlt]
  · rw [if_pos rfl, if_pos (by omega), List.getD_append_right _ _ _ _ le_rfl]
    simp
  · rw [if_neg (by omega), if_neg (by omega), if_neg (by omega)]

theorem writeDigits_eq (hbase : 1 < base) (hf : (Nat.digits base num).length < fuel) :
    writeDigits base fuel num i str =
      some (i + (Nat.digits base num).length,
        overlay str i ((Nat.digits base num).map digitChar)) := by
  induction fuel generalizing num i str with
  | zero => omega
  | succ fuel ih =>
    rw [writeDigits]
    split
    · rename_i hne
      have hdigits := Nat.digits_def' hbase (Nat.pos_of_ne_zero hne)
      rw [hdigits, List.length_cons] at hf
      rw [ih (by omega), hdigits, overlay_cons, List.map_cons, List.length_cons]
      congr 2
      omega
    · rename_i hzero
      obtain rfl : num = 0 := by simpa using hzero
      simp [overlay_nil]

/-- The bytes from `start` to `stop` in the other order. -/
def turned (str : Nat → UInt8) (start stop : Nat) : Nat → UInt8 := fun k =>
  if start ≤ k ∧ k ≤ stop then str (start + stop - k) else str k

theorem turned_swap (h : start < stop) :
    turned (Function.update (Function.update str start (str stop)) stop (str start)) (start + 1)
      (stop - 1) = turned str start stop := by
  funext k
  simp only [turned]
  by_cases hinner : start + 1 ≤ k ∧ k ≤ stop - 1
  · rw [if_pos hinner, if_pos (by omega), Function.update_of_ne (by omega),
      Function.update_of_ne (by omega), show start + 1 + (stop - 1) - k = start + stop - k by omega]
  · rw [if_neg hinner]
    -- the ends themselves, and everything outside
    by_cases hstop : k = stop
    · subst hstop
      rw [Function.update_self, if_pos (by omega), Nat.add_sub_cancel]
    · rw [Function.update_of_ne hstop]
      by_cases hstart : k = start
      · subst hstart
        rw [Function.update_self, if_pos (by omega), Nat.add_sub_cancel_left]
      · rw [Function.update_of_ne hstart, if_neg (by omega)]

theorem swapEnds_eq (hpos : 0 < fuel) (hf : stop < start + fuel) :
    swapEnds fuel start stop str = some (turned str start stop) := by
  induction fuel generalizing start stop str with
  | zero => omega
  | succ fuel ih =>
    rw [swapEnds]
    by_cases hlt : start < stop
    · rw [if_pos hlt, ih (by omega) (by omega), turned_swap hlt]
    · rw [if_neg hlt]
      congr 1
      funext k
      simp only [turned]
      split
      · congr 1
        omega
      · rfl

/-- The last steps of `itoa`: what was written is ended by a NUL and turned round. -/
theorem turned_text (hne : text ≠ []) :
    TextAt (turned (Function.update (overlay str 0 text) text.length 0) 0 (text.length - 1)) 0
      text.reverse := by
  intro k hk
  have hpos := List.length_pos_of_ne_nil hne
  rw [List.length_reverse] at hk
  rw [Nat.zero_add, turned]
  by_cases hin : k < text.length
  · rw [if_pos (by omega), Function.update_of_ne (by omega), overlay, if_pos (by omega),
      List.getD_eq_getElem _ _ (by omega), List.getD_eq_getElem _ _ (by simpa using hin),
      List.getElem_reverse]
    congr 1
    omega
  · obtain rfl : k = text.length := by omega
    rw [if_neg (by omega), Function.update_self]
    simp

theorem turned_beyond (hk : text.length < k) :
    turned (Function.update (overlay str 0 text) text.length 0) 0 (text.length - 1) k = str k := by
  rw [turned, if_neg (by omega), Function.update_of_ne (by omega), overlay, if_neg (by omega)]

end Loops

section Itoa

variable {v : Word} {b : Int}

/-- The number that `itoa` writes the digits of. -/
def magnitude (value : Word) (base : Int) : Nat :=
  if base = 10 then value.toInt.natAbs else value.toNat

/-- The text of the value and a NUL are in memory, and nothing behind them has changed. -/
structure WritesNumeral (value : Word) (base : Int) (str out : Nat → UInt8) (digits : List Nat) :
    Prop where
  isNumeral : IsNumeral base.toNat (magnitude value base) digits
  text : TextAt out 0 (numeral (value.toInt < 0 ∧ base = 10) digits)
  short : (numeral (value.toInt < 0 ∧ base = 10) digits).length + 1 ≤ 33
  decimal : base = 10 → (numeral (value.toInt < 0 ∧ base = 10) digits).length + 1 ≤ 12
  beyond : ∀ k > (numeral (value.toInt < 0 ∧ base = 10) digits).length, out k = str k

/-- `num` is the magnitude; `-value` of the least number wraps to itself, which is its magnitude
as an unsigned number. -/
theorem num_eq_magnitude :
    (if decide (v.toInt < 0 ∧ b = 10) = true then (-v).toNat else v.toNat) = magnitude v b := by
  simp only [decide_eq_true_eq]
  have hv := v.isLt
  have hint := BitVec.toInt_eq_toNat_cond v
  unfold magnitude
  by_cases hten : b = 10
  · by_cases hneg : v.toInt < 0
    · rw [if_pos ⟨hneg, hten⟩, if_pos hten, BitVec.toNat_neg]
      split at hint <;> omega
    · rw [if_neg (by tauto), if_pos hten]
      split at hint <;> omega
  · rw [if_neg (by tauto), if_neg hten]

theorem magnitude_lt : magnitude v b < 2 ^ 32 := by
  have hv := v.isLt
  have hint := BitVec.toInt_eq_toNat_cond v
  unfold magnitude
  split
  · split at hint <;> omega
  · exact hv

theorem isNumeral_zero (hb : 0 < base) : IsNumeral base 0 [0] :=
  ⟨by simp, by simpa using hb, fun _ => rfl, by simp⟩

theorem isNumeral_digits (hb : 1 < base) (hn : num ≠ 0) :
    IsNumeral base num (Nat.digits base num).reverse := by
  refine ⟨by simpa [Nat.digits_ne_nil_iff_ne_zero] using hn, fun d hd => ?_, fun hlead => ?_, ?_⟩
  · exact Nat.digits_lt_base hb (List.mem_reverse.mp hd)
  · have hne : Nat.digits base num ≠ [] := Nat.digits_ne_nil_iff_ne_zero.mpr hn
    rw [List.head?_reverse, List.getLast?_eq_getLast_of_ne_nil hne] at hlead
    exact absurd (Option.some.inj hlead) (Nat.getLast_digit_ne_zero base hn)
  · rw [List.reverse_reverse, Nat.ofDigits_digits]

/-- What the division loop has written, with the sign: the numeral from right to left. -/
def backward (minus : Bool) (base num : Nat) : List UInt8 :=
  (Nat.digits base num).map digitChar ++ if minus then [45] else []

theorem backward_reverse (num : Nat) (hb : 1 < base) (hbase : base ≤ 36) (minus : Bool) :
    (backward minus base num).reverse = numeral minus (Nat.digits base num).reverse := by
  have hsymbols : (Nat.digits base num).map digitChar =
      (Nat.digits base num).map fun d => digitSymbols.getD d 0 := by
    refine List.map_congr_left fun d hd => digitChar_eq ?_
    exact (Nat.digits_lt_base hb hd).trans_le hbase
  rw [backward, hsymbols, numeral, List.reverse_append, ← List.map_reverse]
  cases minus <;> rfl

theorem numeral_length (minus : Bool) :
    (numeral minus digits).length = (if minus then 1 else 0) + digits.length := by
  cases minus <;> simp [numeral, Nat.add_comm]

/-- How long the numerals of 32-bit numbers get. -/
theorem digits_length_le (hb : 1 < base) (hn : num < 2 ^ 32) :
    (Nat.digits base num).length ≤ 32 ∧ (base = 10 → (Nat.digits base num).length ≤ 10) := by
  constructor
  · rw [Nat.digits_length_le_iff hb]
    exact hn.trans_le (Nat.pow_le_pow_left hb 32)
  · rintro rfl
    rw [Nat.digits_length_le_iff hb]
    omega

/-- The sign goes behind the digits. -/
theorem sign_behind (str : Nat → UInt8) (minus : Bool) (chars : List UInt8) :
    (if minus = true then (chars.length + 1, Function.update (overlay str 0 chars) chars.length 45)
      else (chars.length, overlay str 0 chars)) =
      ((chars ++ if minus then [45] else []).length,
        overlay str 0 (chars ++ if minus then [45] else [])) := by
  cases minus with
  | true => simp [overlay_concat]
  | false => simp

theorem itoa_zero (hb : 2 ≤ b ∧ b ≤ 36) (hzero : magnitude v b = 0) :
    itoa fuel v str b = some (Function.update (Function.update str 0 48) 1 0) := by
  unfold itoa
  dsimp only
  rw [if_neg (by omega), num_eq_magnitude, if_pos hzero]

theorem itoa_nonzero (hb : 2 ≤ b ∧ b ≤ 36) (hf : 33 ≤ fuel) (hne : magnitude v b ≠ 0)
    (htext : text = backward (v.toInt < 0 ∧ b = 10) b.toNat (magnitude v b)) :
    itoa fuel v str b =
      some (turned (Function.update (overlay str 0 text) text.length 0) 0 (text.length - 1)) := by
  have hbase : 1 < b.toNat := by omega
  obtain ⟨hlen, hten⟩ := digits_length_le hbase (magnitude_lt (v := v) (b := b))
  have hshort : text.length ≤ 33 := by
    rw [htext, backward, List.length_append, List.length_map]
    split <;> simp <;> omega
  unfold itoa
  dsimp only
  rw [if_neg (by omega), num_eq_magnitude, if_neg hne, writeDigits_eq hbase (by omega)]
  simp only [Option.bind_eq_bind, Option.bind_some, Nat.zero_add]
  have hsign := sign_behind str (decide (v.toInt < 0 ∧ b = 10))
    ((Nat.digits b.toNat (magnitude v b)).map digitChar)
  rw [List.length_map] at hsign
  rw [hsign, ← backward, ← htext]
  exact swapEnds_eq (by omega) (by omega)

theorem itoa_writes (hb : 2 ≤ b ∧ b ≤ 36) (hf : 33 ≤ fuel) :
    ∃ out digits, itoa fuel v str b = some out ∧ WritesNumeral v b str out digits := by
  have hbase : 1 < b.toNat := by omega
  obtain ⟨hlen, hten⟩ := digits_length_le hbase (magnitude_lt (v := v) (b := b))
  by_cases hzero : magnitude v b = 0
  · have hplus : ¬ (v.toInt < 0 ∧ b = 10) := by
      rintro ⟨hneg, rfl⟩
      simp only [magnitude, if_true] at hzero
      omega
    refine ⟨_, [0], itoa_zero hb hzero, ?_, ?_, ?_, ?_, ?_⟩
    · rw [hzero]
      exact isNumeral_zero (by omega)
    · simp only [hplus, decide_false]
      intro k hk
      have hk' : k ≤ 1 := hk
      interval_cases k <;> rfl
    · simp [numeral_length, hplus]
    · simp [numeral_length, hplus]
    · intro k hk
      simp only [hplus, decide_false, numeral_length, List.length_singleton] at hk
      rw [Function.update_of_ne (by omega), Function.update_of_ne (by omega)]
  · have hreverse := backward_reverse (magnitude v b) hbase (by omega)
      (decide (v.toInt < 0 ∧ b = 10))
    have hlength : (backward (decide (v.toInt < 0 ∧ b = 10)) b.toNat (magnitude v b)).length =
        (numeral (decide (v.toInt < 0 ∧ b = 10))
          (Nat.digits b.toNat (magnitude v b)).reverse).length := by
      rw [← hreverse, List.length_reverse]
    have hnumeral := isNumeral_digits hbase hzero
    have hne : backward (decide (v.toInt < 0 ∧ b = 10)) b.toNat (magnitude v b) ≠ [] := by
      intro hnil
      rw [hnil, List.reverse_nil] at hreverse
      have hsome := congrArg List.length hreverse
      have hpos := List.length_pos_of_ne_nil hnumeral.nonempty
      rw [numeral_length, List.length_nil] at hsome
      omega
    have hsigned : (if decide (v.toInt < 0 ∧ b = 10) = true then 1 else 0) ≤ 1 ∧
        (b ≠ 10 → (if decide (v.toInt < 0 ∧ b = 10) = true then 1 else 0) = 0) := by
      split <;> simp_all
    refine ⟨_, _, itoa_nonzero hb hf hzero rfl, hnumeral, ?_, ?_, ?_, ?_⟩
    · rw [← hreverse]
      exact turned_text hne
    · rw [numeral_length, List.length_reverse]
      by_cases hdec : b = 10
      · have := hten (by omega)
        omega
      · have := hsigned.2 hdec
        omega
    · intro hdec
      have := hten (by omega)
      rw [numeral_length, List.length_reverse]
      omega
    · intro k hk
      rw [← hlength] at hk
      exact turned_beyond hk

end Itoa

section Atoi

/-- The optional sign of a numeral. -/
inductive NumeralSign where
  | none | plus | minus

def NumeralSign.bytes : NumeralSign → List UInt8
  | .none => []
  | .plus => [43]
  | .minus => [45]

def NumeralSign.factor : NumeralSign → Int
  | .none => 1
  | .plus => 1
  | .minus => -1

theorem decimal_symbol {d : Nat} (hd : d < 10) : 48 ≤ digitSymbols.getD d 0 ∧
    digitSymbols.getD d 0 ≤ 57 ∧ (digitSymbols.getD d 0).toNat - 48 = d := by
  revert d
  decide

theorem skipSpaces_eq (h : TextAt str i (List.replicate n 32 ++ text))
    (hhead : text.head? ≠ some 32) (hf : n < fuel) :
    skipSpaces str fuel i = some (i + n) ∧ TextAt str (i + n) text := by
  induction n generalizing i fuel with
  | zero =>
    obtain ⟨fuel, rfl⟩ := Nat.exists_eq_succ_of_ne_zero (Nat.ne_of_gt hf)
    have hbyte : str i ≠ 32 := by
      rintro heq
      cases text with
      | nil => exact absurd (heq.symm.trans (h 0 le_rfl)) (by decide)
      | cons c text => exact hhead (by rw [← heq, (textAt_cons.mp h).1]; rfl)
    exact ⟨by simp [skipSpaces, hbyte], h⟩
  | succ n ih =>
    obtain ⟨fuel, rfl⟩ := Nat.exists_eq_succ_of_ne_zero (Nat.ne_of_gt (Nat.zero_lt_of_lt hf))
    rw [List.replicate_succ, List.cons_append, textAt_cons] at h
    obtain ⟨hspace, hrest⟩ := h
    obtain ⟨hskip, htext⟩ := ih hrest (Nat.lt_of_succ_lt_succ hf)
    have hindex : i + 1 + n = i + (n + 1) := by omega
    rw [hindex] at hskip htext
    exact ⟨by rw [skipSpaces, if_pos hspace, hskip], htext⟩

/-- What a digit string begins with. -/
theorem TextAt.digit_or_nul (h : TextAt str i (digits.map fun d => digitSymbols.getD d 0))
    (hdigit : ∀ d ∈ digits, d < 10) : str i = 0 ∨ 48 ≤ str i := by
  cases digits with
  | nil => exact Or.inl (h 0 le_rfl)
  | cons d digits =>
    rw [List.map_cons, textAt_cons] at h
    rw [h.1]
    exact Or.inr (decimal_symbol (hdigit d (by simp))).1

theorem readDigits_eq (h : TextAt str i (digits.map fun d => digitSymbols.getD d 0))
    (hdigit : ∀ d ∈ digits, d < 10) (hf : digits.length < fuel) (value : Nat) :
    readDigits str fuel i (BitVec.ofNat 32 value) =
      some (BitVec.ofNat 32 (digits.foldl (fun r d => r * 10 + d) value)) := by
  induction digits generalizing i fuel value with
  | nil =>
    obtain ⟨fuel, rfl⟩ := Nat.exists_eq_succ_of_ne_zero (Nat.ne_of_gt hf)
    have hnul : str i = 0 := h 0 le_rfl
    simp [readDigits, hnul]
  | cons d digits ih =>
    obtain ⟨fuel, rfl⟩ := Nat.exists_eq_succ_of_ne_zero (Nat.ne_of_gt (Nat.zero_lt_of_lt hf))
    rw [List.map_cons, textAt_cons] at h
    obtain ⟨hbyte, hrest⟩ := h
    obtain ⟨hlow, hhigh, hvalue⟩ := decimal_symbol (hdigit d (by simp))
    have hnext := ih hrest (fun e he => hdigit e (by simp [he])) (Nat.lt_of_succ_lt_succ hf)
      (value * 10 + d)
    rw [readDigits, hbyte, if_pos ⟨hlow, hhigh⟩, hvalue]
    rwa [BitVec.ofNat_add, BitVec.ofNat_mul] at hnext

theorem foldl_eq_ofDigits : digits.foldl (fun r d => r * 10 + d) 0 =
    Nat.ofDigits 10 digits.reverse := by
  rw [Nat.ofDigits_eq_foldr, List.foldr_reverse]
  congr 1
  funext r d
  simp only [Nat.cast_id]
  omega

theorem head_ne_space {sign : NumeralSign} (hdigit : ∀ d ∈ digits, d < 10) :
    (sign.bytes ++ digits.map fun d => digitSymbols.getD d 0).head? ≠ some 32 := by
  cases sign with
  | none =>
    cases digits with
    | nil => simp [NumeralSign.bytes]
    | cons d digits =>
      have hlow := (decimal_symbol (hdigit d (by simp))).1
      intro heq
      have hspace : digitSymbols.getD d 0 = 32 := Option.some.inj heq
      rw [hspace] at hlow
      exact absurd hlow (by decide)
  | plus => simp [NumeralSign.bytes]
  | minus => simp [NumeralSign.bytes]

theorem atoi_text {sign : NumeralSign}
    (h : TextAt str 0
      (List.replicate n 32 ++ (sign.bytes ++ digits.map fun d => digitSymbols.getD d 0)))
    (hdigit : ∀ d ∈ digits, d < 10) (hf : n + digits.length < fuel) :
    atoi fuel str =
      some (BitVec.ofInt 32 (sign.factor * (Nat.ofDigits 10 digits.reverse : Nat))) := by
  have hread : ∀ i, TextAt str i (digits.map fun d => digitSymbols.getD d 0) →
      readDigits str fuel i 0 = some (BitVec.ofNat 32 (Nat.ofDigits 10 digits.reverse)) := by
    intro i hi
    rw [← foldl_eq_ofDigits]
    exact readDigits_eq hi hdigit (by omega) 0
  have hone : ∀ x : Word, x * 1 = x := BitVec.mul_one
  have hspaces : n < fuel := by omega
  obtain ⟨hskip, htext⟩ := skipSpaces_eq h (head_ne_space hdigit) hspaces
  rw [Nat.zero_add] at hskip htext
  unfold atoi
  rw [hskip]
  simp only [Option.bind_eq_bind, Option.bind_some]
  cases sign with
  | none =>
    have hsigns : str n ≠ 45 ∧ str n ≠ 43 := by
      obtain hnul | hdig := htext.digit_or_nul hdigit
      · rw [hnul]
        decide
      · exact ⟨by rintro heq; simp [heq] at hdig, by rintro heq; simp [heq] at hdig⟩
    rw [if_neg hsigns.1, if_neg hsigns.2]
    simp only [hread n htext, Option.bind_some]
    rw [NumeralSign.factor, one_mul, BitVec.ofInt_natCast, hone]
    rfl
  | plus =>
    obtain ⟨hplus, hrest⟩ := textAt_cons.mp htext
    rw [if_neg (by rw [hplus]; decide), if_pos hplus]
    simp only [hread (n + 1) hrest, Option.bind_some]
    rw [NumeralSign.factor, one_mul, BitVec.ofInt_natCast, hone]
    rfl
  | minus =>
    obtain ⟨hminus, hrest⟩ := textAt_cons.mp htext
    rw [if_pos hminus]
    simp only [hread (n + 1) hrest, Option.bind_some]
    rw [NumeralSign.factor, neg_one_mul, BitVec.ofInt_neg, BitVec.ofInt_natCast, BitVec.mul_neg,
      hone]
    rfl

/-- Reading back what `itoa` wrote in base 10. -/
theorem WritesNumeral.atoi_eq (h : WritesNumeral value 10 str out digits) (hf : 33 ≤ fuel) :
    atoi fuel out = some value := by
  have hshort := h.short
  rw [numeral_length] at hshort
  have hvalue : Nat.ofDigits 10 digits.reverse = value.toInt.natAbs :=
    h.isNumeral.value.trans (if_pos rfl)
  have hten : ∀ d ∈ digits, d < 10 := h.isNumeral.digit
  have htext := h.text
  by_cases hneg : value.toInt < 0
  · have hminus : TextAt out 0 (List.replicate 0 32 ++
        (NumeralSign.minus.bytes ++ digits.map fun d => digitSymbols.getD d 0)) := by
      simpa [numeral, hneg, NumeralSign.bytes] using htext
    rw [atoi_text hminus hten (by omega), NumeralSign.factor, hvalue,
      show -1 * ((value.toInt.natAbs : Nat) : Int) = value.toInt by omega, BitVec.ofInt_toInt]
  · have hplain : TextAt out 0 (List.replicate 0 32 ++
        (NumeralSign.none.bytes ++ digits.map fun d => digitSymbols.getD d 0)) := by
      simpa [numeral, hneg, NumeralSign.bytes] using htext
    rw [atoi_text hplain hten (by omega), NumeralSign.factor, hvalue,
      show 1 * ((value.toInt.natAbs : Nat) : Int) = value.toInt by omega, BitVec.ofInt_toInt]

end Atoi

/-- `itoa` writes the numeral of its value, `atoi` inverts it in base 10, and `atoi` reads digit
strings of any length modulo 2^32. -/
theorem itoa_atoi_numerals (value : Word) (str : Nat → UInt8) :
    (∀ (b : Int) (fuel : Nat), 2 ≤ b → b ≤ 36 → 33 ≤ fuel →
      ∃ out digits, itoa fuel value str b = some out ∧ WritesNumeral value b str out digits) ∧
    (∀ fuel ≥ 33, ∃ out, itoa fuel value str 10 = some out ∧ atoi fuel out = some value) ∧
    (∀ (n : Nat) (sign : NumeralSign) (digits : List Nat) (fuel : Nat), (∀ d ∈ digits, d < 10) →
      TextAt str 0
        (List.replicate n 32 ++ (sign.bytes ++ digits.map fun d => digitSymbols.getD d 0)) →
      n + digits.length < fuel →
      atoi fuel str =
        some (BitVec.ofInt 32 (sign.factor * (Nat.ofDigits 10 digits.reverse : Nat)))) := by
  refine ⟨fun b fuel hlow hhigh hf => itoa_writes ⟨hlow, hhigh⟩ hf, fun fuel hf => ?_,
    fun n sign digits fuel hdigit htext hf => atoi_text htext hdigit hf⟩
  obtain ⟨out, digits, hout, hwrites⟩ : ∃ out digits, itoa fuel value str 10 = some out ∧
      WritesNumeral value 10 str out digits := itoa_writes (by decide) hf
  exact ⟨out, hout, hwrites.atoi_eq hf⟩

/-- The least `int` goes through both, in base 2 as an unsigned number, and a string with a sign is
read. -/
theorem itoa_atoi_numerals_least :
    (∃ out digits, itoa 33 0x80000000 (fun _ => 1) 2 = some out ∧
      WritesNumeral 0x80000000 2 (fun _ => 1) out digits) ∧
    (∃ out, itoa 33 0x80000000 (fun _ => 1) 10 = some out ∧ atoi 33 out = some 0x80000000) ∧
    atoi 8 (fun k => [32, 43, 52, 50].getD k 0) = some 42 := by
  obtain ⟨hwrites, hback, -⟩ := itoa_atoi_numerals 0x80000000 fun _ => 1
  refine ⟨hwrites 2 33 le_rfl (by decide) le_rfl, hback 33 le_rfl, ?_⟩
  have htext : TextAt (fun k => [32, 43, 52, 50].getD k 0) 0 [32, 43, 52, 50] := by
    intro k _
    rw [Nat.zero_add]
  have hread := (itoa_atoi_numerals 0 fun k => [32, 43, 52, 50].getD k 0).2.2 1 .plus [4, 2] 8
    (by decide) htext (by decide)
  exact hread.trans rfl

end HumanOS

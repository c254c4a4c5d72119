import HumanOS.Libc.Numerals
import Mathlib.Data.List.TakeWhile

/-!
# The scan of a format

`printf` steps over the character after a `%` without looking whether it is the NUL. A format
that ends in a `%` of its own is left behind there, and the scan goes on in whatever follows.
-/
namespace HumanOS

open Lib

variable {ret : Nat → Word} {mem : Word → UInt8} {args : Nat → Word} {format : Word}
variable {str buf : Nat → UInt8} {text : List UInt8} {c : UInt8} {fuel rounds i n len : Nat}
variable {p p' : Printf}

/-- The characters after a `%`, from left to right. -/
def specifiers : List UInt8 → List UInt8
  | [] => []
  | [_] => []
  | c :: d :: text => if c = 37 then d :: specifiers text else specifiers (d :: text)

/-- The specifiers that stand for an argument: `%s`, `%d`, `%x` and `%c`. -/
def takesArgument (c : UInt8) : Bool := c = 115 ∨ c = 100 ∨ c = 120 ∨ c = 99

/-- How many `%` the format ends in. -/
def trailingPercents (text : List UInt8) : Nat := (text.reverse.takeWhile (· = 37)).length

/-- The scan comes to an end with the NUL as the last character read, and with an argument taken
for each specifier that stands for one. -/
def ScansFormat (ret : Nat → Word) (mem : Word → UInt8) (args : Nat → Word) (format : Word)
    (buf : Nat → UInt8) (text : List UInt8) : Prop :=
  ∃ fuel p, printf ret mem args fuel format buf = some p ∧ (∀ i ∈ p.reads, i ≤ text.length) ∧
    p.taken = (specifiers text).countP takesArgument

/-- A `%` that nothing follows. -/
def danglingPercent : List UInt8 → Bool
  | [] => false
  | [c] => c = 37
  | c :: d :: text => if c = 37 then danglingPercent text else danglingPercent (d :: text)

section Percents

theorem trailingPercents_all (h : ∀ d ∈ text, d = 37) : trailingPercents text = text.length := by
  have hself : text.reverse.takeWhile (· = 37) = text.reverse := by
    rw [List.takeWhile_eq_self_iff]
    simpa using h
  rw [trailingPercents, hself, List.length_reverse]

theorem trailingPercents_cons_same (h : c ≠ 37 ∨ ¬ ∀ d ∈ text, d = 37) :
    trailingPercents (c :: text) = trailingPercents text := by
  rw [trailingPercents, trailingPercents, List.reverse_cons, List.takeWhile_append]
  split
  · rename_i hlen
    have hself := (List.takeWhile_prefix (· = 37) (l := text.reverse)).eq_of_length hlen
    have hall : ∀ d ∈ text, d = 37 := by
      simpa using List.takeWhile_eq_self_iff.mp hself
    have hc : c ≠ 37 := h.resolve_right (not_not.mpr hall)
    rw [hself]
    simp [hc]
  · rfl

/-- A pair at the front does not change whether the `%` at the end are paired. -/
theorem trailingPercents_pair :
    trailingPercents (37 :: c :: text) % 2 = trailingPercents text % 2 := by
  by_cases hall : ∀ d ∈ text, d = 37
  · by_cases hc : c = 37
    · subst hc
      rw [trailingPercents_all (by simpa using hall), trailingPercents_all hall,
        List.length_cons, List.length_cons]
      omega
    · rw [trailingPercents_cons_same (Or.inr (by simp [hc])),
        trailingPercents_cons_same (Or.inl hc)]
  · have hmore : ¬ ∀ d ∈ c :: text, d = 37 := fun h => hall fun d hd => h d (by simp [hd])
    rw [trailingPercents_cons_same (Or.inr hmore), trailingPercents_cons_same (Or.inr hall)]

theorem danglingPercent_iff (text : List UInt8) :
    danglingPercent text = true ↔ trailingPercents text % 2 = 1 := by
  fun_induction danglingPercent text with
  | case1 => simp [trailingPercents]
  | case2 c =>
    by_cases hc : c = 37
    · subst hc
      simp [trailingPercents]
    · simp [trailingPercents, hc]
  | case3 c text ih => rw [ih, trailingPercents_pair]
  | case4 c d text hc ih => rw [ih, trailingPercents_cons_same (Or.inl hc)]

end Percents

section Specifier

theorem strlen_ends (hnul : str n = 0) (hlen : len ≤ n) (hf : n < len + fuel) :
    ∃ m, strlen str fuel len = some m := by
  induction fuel generalizing len with
  | zero => omega
  | succ fuel ih =>
    rw [strlen]
    split
    · rename_i hbyte
      have hne : len ≠ n := fun he => hbyte (he ▸ hnul)
      exact ih (by omega) (by omega)
    · exact ⟨len, rfl⟩

theorem writeString_eq (h : p.writeString ret fuel str = some p') :
    p'.reads = p.reads ∧ p'.taken = p.taken := by
  obtain ⟨len, -, heq⟩ := Option.bind_eq_some_iff.mp h
  obtain rfl := Option.some.inj heq
  exact ⟨rfl, rfl⟩

theorem writeString_ends (ret : Nat → Word) (p : Printf) (hnul : str n = 0) (hf : n < fuel) :
    ∃ p', p.writeString ret fuel str = some p' := by
  have hround : n < 0 + fuel := by omega
  obtain ⟨m, hm⟩ := strlen_ends hnul (Nat.zero_le n) hround
  exact ⟨_, by rw [Printf.writeString, hm]; rfl⟩

/-- In a memory with a NUL every string ends. -/
theorem memString_nul {a : Word} (ha : mem a = 0) (s : Word) :
    ∃ n < 2 ^ 32, mem (s + BitVec.ofNat 32 n) = 0 := by
  refine ⟨(a - s).toNat, (a - s).isLt, ?_⟩
  rw [BitVec.ofNat_toNat, BitVec.setWidth_eq, BitVec.add_comm, BitVec.sub_add_cancel, ha]

theorem printfNumber_eq {base : Int} (h : printfNumber ret args fuel p base = some p') :
    p'.reads = p.reads ∧ p'.taken = p.taken + 1 := by
  obtain ⟨buf, -, hwrite⟩ := Option.bind_eq_some_iff.mp h
  exact writeString_eq hwrite

theorem printfNumber_ends (p : Printf) {base : Int} (hbase : 2 ≤ base ∧ base ≤ 36)
    (hf : 33 ≤ fuel) : ∃ p', printfNumber ret args fuel p base = some p' := by
  obtain ⟨out, digits, hout, hwrites⟩ : ∃ out digits, itoa fuel (args p.taken) p.take.buf base =
      some out ∧ WritesNumeral (args p.taken) base p.take.buf out digits := itoa_writes hbase hf
  have hnul := hwrites.text.nul
  have hshort := hwrites.short
  rw [Nat.zero_add] at hnul
  obtain ⟨p', hp'⟩ := writeString_ends ret { p.take with buf := out } hnul
    (show _ < fuel by omega)
  exact ⟨p', by simp only [printfNumber, hout, Option.bind_eq_bind, Option.bind_some, hp']⟩

/-- A specifier leaves the format alone and takes one argument or none. -/
theorem printfSpecifier_eq (h : printfSpecifier ret mem args fuel p c = some p') :
    p'.reads = p.reads ∧ p'.taken = p.taken + if takesArgument c then 1 else 0 := by
  unfold printfSpecifier at h
  dsimp only at h
  by_cases hs : c = 115
  · subst hs
    rw [if_pos rfl] at h
    split at h
    · exact writeString_eq h
    · exact writeString_eq h
  rw [if_neg hs] at h
  by_cases hd : c = 100
  · subst hd
    exact printfNumber_eq h
  rw [if_neg hd] at h
  by_cases hx : c = 120
  · subst hx
    exact printfNumber_eq h
  rw [if_neg hx] at h
  by_cases hc : c = 99
  · subst hc
    obtain rfl := Option.some.inj h
    exact ⟨rfl, rfl⟩
  rw [if_neg hc] at h
  have hnone : takesArgument c = false := by simp [takesArgument, hs, hd, hx, hc]
  rw [hnone]
  split at h
  · obtain rfl := Option.some.inj h
    exact ⟨rfl, rfl⟩
  · obtain rfl := Option.some.inj h
    exact ⟨rfl, rfl⟩

theorem printfSpecifier_ends (ret args : Nat → Word) (p : Printf) (c : UInt8) {a : Word}
    (ha : mem a = 0) (hf : 2 ^ 32 ≤ fuel) :
    ∃ p', printfSpecifier ret mem args fuel p c = some p' := by
  unfold printfSpecifier
  dsimp only
  split
  · split
    · exact writeString_ends ret _ (show nullText.getD 6 0 = 0 from rfl) (by omega)
    · obtain ⟨n, hn, hnul⟩ := memString_nul ha (args p.taken)
      exact writeString_ends ret _ hnul (by omega)
  · split
    · exact printfNumber_ends p (by decide) (by omega)
    · split
      · exact printfNumber_ends p (by decide) (by omega)
      · split
        · exact ⟨_, rfl⟩
        · split
          · exact ⟨_, rfl⟩
          · exact ⟨_, rfl⟩

end Specifier

section Scan

theorem printfLoop_nul (hc : mem (format + BitVec.ofNat 32 i) = 0) :
    printfLoop ret mem args fuel format (rounds + 1) i p = some (p.read i) := by
  rw [printfLoop, hc]
  rfl

theorem printfLoop_percent (hc : mem (format + BitVec.ofNat 32 i) = 37) :
    printfLoop ret mem args fuel format (rounds + 1) i p =
      (printfSpecifier ret mem args fuel ((p.read i).read (i + 1))
        (mem (format + BitVec.ofNat 32 (i + 1)))).bind
        (printfLoop ret mem args fuel format rounds (i + 2)) := by
  rw [printfLoop, hc]
  rfl

theorem printfLoop_char (hc : mem (format + BitVec.ofNat 32 i) = c) (hnul : c ≠ 0)
    (hpercent : c ≠ 37) : printfLoop ret mem args fuel format (rounds + 1) i p =
      printfLoop ret mem args fuel format rounds (i + 1) ((p.read i).write ret [c]) := by
  simp only [printfLoop, hc, hnul, hpercent, if_false]

theorem printfLoop_rounds (h : printfLoop ret mem args fuel format rounds i p = some p') :
    ∃ n, rounds = n + 1 := by
  cases rounds with
  | zero => simp [printfLoop] at h
  | succ n => exact ⟨n, rfl⟩

/-- The loop reads the index it starts at, and what it has read stays read. -/
theorem printfLoop_keeps (h : printfLoop ret mem args fuel format rounds i p = some p') :
    (p.read i).reads ⊆ p'.reads := by
  have hread : ∀ (p : Printf) i, p.reads ⊆ (p.read i).reads := by simp [Printf.read]
  induction rounds generalizing i p with
  | zero => simp [printfLoop] at h
  | succ rounds ih =>
    by_cases hnul : mem (format + BitVec.ofNat 32 i) = 0
    · rw [printfLoop_nul hnul] at h
      obtain rfl := Option.some.inj h
      exact List.Subset.refl _
    · by_cases hpercent : mem (format + BitVec.ofNat 32 i) = 37
      · rw [printfLoop_percent hpercent] at h
        obtain ⟨q, hq, hrest⟩ := Option.bind_eq_some_iff.mp h
        have hmore : (p.read i).reads ⊆ q.reads := by
          rw [(printfSpecifier_eq hq).1]
          exact hread (p.read i) (i + 1)
        exact List.Subset.trans hmore (List.Subset.trans (hread q (i + 2)) (ih hrest))
      · rw [printfLoop_char rfl hnul hpercent] at h
        exact List.Subset.trans (hread (.write ret (p.read i) [_]) (i + 1)) (ih h)

theorem specifiers_char (hc : c ≠ 37) : specifiers (c :: text) = specifiers text := by
  cases text with
  | nil => rfl
  | cons d text => rw [specifiers, if_neg hc]

/-- The loop started at index `i`, where this text is left of the format. -/
def ScansFrom (ret : Nat → Word) (mem : Word → UInt8) (args : Nat → Word) (fuel : Nat)
    (format : Word) (i : Nat) (text : List UInt8) : Prop :=
  ∀ rounds > text.length, ∀ p, ∃ p', printfLoop ret mem args fuel format rounds i p = some p' ∧
    (∀ k ∈ p'.reads, k ∈ p.reads ∨ k ≤ i + text.length) ∧
    p'.taken = p.taken + (specifiers text).countP takesArgument

namespace ScansFrom

theorem nil (hc : mem (format + BitVec.ofNat 32 i) = 0) :
    ScansFrom ret mem args fuel format i [] := by
  intro rounds hrounds p
  obtain ⟨rounds, rfl⟩ := Nat.exists_eq_succ_of_ne_zero (Nat.ne_of_gt hrounds)
  refine ⟨_, printfLoop_nul hc, fun k hk => ?_, rfl⟩
  rcases List.mem_append.mp hk with hold | hnew
  · exact Or.inl hold
  · exact Or.inr (List.mem_singleton.mp hnew).le

theorem char (hc : mem (format + BitVec.ofNat 32 i) = c) (hnul : c ≠ 0) (hpercent : c ≠ 37)
    (ih : ScansFrom ret mem args fuel format (i + 1) text) :
    ScansFrom ret mem args fuel format i (c :: text) := by
  intro rounds hrounds p
  rw [List.length_cons] at hrounds
  obtain ⟨rounds, rfl⟩ := Nat.exists_eq_succ_of_ne_zero (Nat.ne_of_gt (Nat.zero_lt_of_lt hrounds))
  obtain ⟨p', hp', hreads, htaken⟩ := ih rounds (by omega) ((p.read i).write ret [c])
  refine ⟨p', (printfLoop_char hc hnul hpercent).trans hp', fun k hk => ?_, ?_⟩
  · rw [List.length_cons]
    rcases hreads k hk with hold | hnew
    · rcases List.mem_append.mp hold with hold | hnew
      · exact Or.inl hold
      · have := List.mem_singleton.mp hnew
        omega
    · omega
  · rw [htaken, specifiers_char hpercent]
    rfl

theorem pair {a : Word} {e : UInt8} (ha : mem a = 0) (hf : 2 ^ 32 ≤ fuel)
    (hc : mem (format + BitVec.ofNat 32 i) = 37)
    (he : mem (format + BitVec.ofNat 32 (i + 1)) = e)
    (ih : ScansFrom ret mem args fuel format (i + 2) text) :
    ScansFrom ret mem args fuel format i (37 :: e :: text) := by
  intro rounds hrounds p
  rw [List.length_cons, List.length_cons] at hrounds
  obtain ⟨rounds, rfl⟩ := Nat.exists_eq_succ_of_ne_zero (Nat.ne_of_gt (Nat.zero_lt_of_lt hrounds))
  obtain ⟨q, hq⟩ := printfSpecifier_ends ret args ((p.read i).read (i + 1)) e ha hf
  obtain ⟨hsame, hcount⟩ := printfSpecifier_eq hq
  obtain ⟨p', hp', hreads, htaken⟩ := ih rounds (by omega) q
  refine ⟨p', ?_, fun k hk => ?_, ?_⟩
  · rw [printfLoop_percent hc, he, hq]
    exact hp'
  · rw [List.length_cons, List.length_cons]
    rcases hreads k hk with hold | hnew
    · rw [hsame] at hold
      simp only [Printf.read, List.mem_append, List.mem_singleton] at hold
      rcases hold with (hold | rfl) | rfl
      · exact Or.inl hold
      · omega
      · omega
    · omega
  · rw [htaken, hcount, specifiers, if_pos rfl, List.countP_cons, Nat.add_assoc]
    congr 1
    exact Nat.add_comm _ _

end ScansFrom

theorem scansFrom_text {a : Word} (ha : mem a = 0) (hf : 2 ^ 32 ≤ fuel)
    (htext : TextAt (fun k => mem (format + BitVec.ofNat 32 k)) i text) (hnul : 0 ∉ text)
    (hpaired : danglingPercent text = false) : ScansFrom ret mem args fuel format i text := by
  fun_induction danglingPercent text generalizing i with
  | case1 => exact .nil (htext 0 le_rfl)
  | case2 c =>
    obtain ⟨hc, hrest⟩ := textAt_cons.mp htext
    exact .char hc (by simpa [eq_comm] using hnul) (by simpa using hpaired)
      (.nil (hrest 0 le_rfl))
  | case3 d text ih =>
    obtain ⟨hc, htail⟩ := textAt_cons.mp htext
    obtain ⟨hd, hrest⟩ := textAt_cons.mp htail
    have hrestnul : 0 ∉ text := fun hmem => hnul (by simp [hmem])
    exact .pair ha hf hc hd (ih hrest hrestnul hpaired)
  | case4 c d text hc ih =>
    obtain ⟨hbyte, hrest⟩ := textAt_cons.mp htext
    rw [List.mem_cons, not_or] at hnul
    exact .char hbyte (Ne.symm hnul.1) hc (ih hrest hnul.2 hpaired)

/-- The NUL is skipped, and the index behind it is read. -/
theorem printfLoop_overruns
    (htext : TextAt (fun k => mem (format + BitVec.ofNat 32 k)) i text) (hnul : 0 ∉ text)
    (hdangling : danglingPercent text = true)
    (h : printfLoop ret mem args fuel format rounds i p = some p') :
    i + text.length + 1 ∈ p'.reads := by
  fun_induction danglingPercent text generalizing i rounds p with
  | case1 => simp at hdangling
  | case2 c =>
    obtain ⟨rounds, rfl⟩ := printfLoop_rounds h
    obtain ⟨hc, -⟩ := textAt_cons.mp htext
    obtain rfl : c = 37 := by simpa using hdangling
    rw [printfLoop_percent hc] at h
    obtain ⟨q, -, hgoes⟩ := Option.bind_eq_some_iff.mp h
    exact printfLoop_keeps hgoes (by simp [Printf.read])
  | case3 d text ih =>
    obtain ⟨rounds, rfl⟩ := printfLoop_rounds h
    obtain ⟨hc, htail⟩ := textAt_cons.mp htext
    obtain ⟨-, hrest⟩ := textAt_cons.mp htail
    rw [printfLoop_percent hc] at h
    obtain ⟨q, -, hgoes⟩ := Option.bind_eq_some_iff.mp h
    have hover := ih hrest (fun hmem => hnul (by simp [hmem])) hdangling hgoes
    rwa [List.length_cons, List.length_cons,
      show i + (text.length + 1 + 1) + 1 = i + 1 + 1 + text.length + 1 by omega]
  | case4 c d text hc ih =>
    obtain ⟨rounds, rfl⟩ := printfLoop_rounds h
    obtain ⟨hbyte, hrest⟩ := textAt_cons.mp htext
    rw [List.mem_cons, not_or] at hnul
    rw [printfLoop_char hbyte (Ne.symm hnul.1) hc] at h
    have hover := ih hrest hnul.2 hdangling h
    rwa [List.length_cons, show i + ((d :: text).length + 1) + 1 = i + 1 + (d :: text).length + 1
      by omega]

theorem ScansFormat.paired (htext : TextAt (fun k => mem (format + BitVec.ofNat 32 k)) 0 text)
    (hnul : 0 ∉ text) (h : ScansFormat ret mem args format buf text) :
    trailingPercents text % 2 = 0 := by
  obtain ⟨fuel, p, hp, hreads, -⟩ := h
  by_contra hodd
  have hdangling : danglingPercent text = true := (danglingPercent_iff text).mpr (by omega)
  have hover := printfLoop_overruns htext hnul hdangling hp
  have := hreads _ hover
  omega

theorem scansFormat_of_paired (htext : TextAt (fun k => mem (format + BitVec.ofNat 32 k)) 0 text)
    (hnul : 0 ∉ text) (heven : trailingPercents text % 2 = 0) :
    ScansFormat ret mem args format buf text := by
  have hpaired : danglingPercent text = false := by
    rw [← Bool.not_eq_true, danglingPercent_iff]
    omega
  have hend : mem (format + BitVec.ofNat 32 (0 + text.length)) = 0 := htext.nul
  have hscans : ScansFrom ret mem args (2 ^ 32 + text.length) format 0 text :=
    scansFrom_text hend (by omega) htext hnul hpaired
  obtain ⟨p, hp, hreads, htaken⟩ := hscans (2 ^ 32 + text.length) (by omega) ⟨[], 0, [], buf, 0⟩
  refine ⟨2 ^ 32 + text.length, p, hp, fun i hi => ?_, ?_⟩
  · rcases hreads i hi with hnone | hle
    · simp at hnone
    · omega
  · rw [htaken, Nat.zero_add]

end Scan

/-- The scan stops at the NUL exactly when the `%` at the end of the format are paired. -/
theorem printf_scans_format_iff (ret args : Nat → Word) (buf : Nat → UInt8)
    (htext : TextAt (fun k => mem (format + BitVec.ofNat 32 k)) 0 text) (hnul : 0 ∉ text) :
    ScansFormat ret mem args format buf text ↔ trailingPercents text % 2 = 0 :=
  ⟨ScansFormat.paired htext hnul, scansFormat_of_paired htext hnul⟩

/-- A memory of zeros but for a format at 0x1000. -/
def formatMemory (text : List UInt8) : Word → UInt8 := fun a => text.getD (a - 0x1000).toNat 0

theorem formatMemory_text (h : text.length < 2 ^ 32) :
    TextAt (fun k => formatMemory text (0x1000 + BitVec.ofNat 32 k)) 0 text := by
  intro k hk
  have hindex : (0x1000 + BitVec.ofNat 32 k - 0x1000 : Word).toNat = k := by
    rw [BitVec.add_comm, BitVec.add_sub_cancel, BitVec.toNat_ofNat]
    omega
  simp only [Nat.zero_add, formatMemory, hindex]

/-- The format `%d%%`. -/
theorem printf_scans_format_iff_percent :
    ScansFormat (fun _ => 0) (formatMemory [37, 100, 37, 37]) (fun _ => 7) 0x1000 (fun _ => 0)
      [37, 100, 37, 37] :=
  (printf_scans_format_iff (fun _ => 0) (fun _ => 7) (fun _ => 0) (formatMemory_text (by decide))
    (by decide)).mpr (by decide)

/-- The format `%` alone. -/
theorem printf_runs_over_format :
    ¬ ∀ ret mem args format buf text,
      TextAt (fun k => mem (format + BitVec.ofNat 32 k)) 0 text → 0 ∉ text →
      ScansFormat ret mem args format buf text := by
  intro hall
  have htext : TextAt (fun k => formatMemory [37] (0x1000 + BitVec.ofNat 32 k)) 0 [37] :=
    formatMemory_text (by decide)
  have hscans := hall (fun _ => 0) _ (fun _ => 0) _ (fun _ => 0) _ htext (by decide)
  exact absurd (hscans.paired htext (by decide)) (by decide)

end HumanOS

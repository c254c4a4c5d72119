import HumanOS.Keyboard.Input
import HumanOS.Syscall.Abi

/-!
# The length of a write

`SYS_WRITE` is given a length, and hands the pointer to `vga_puts`, which goes by the first NUL.
-/
namespace HumanOS

open Lib

variable {ok : Nat → Bool} {esp fd str count a : Word} {k k' : Kernel} {mem mem' : Word → UInt8}
variable {fuel i n len : Nat} {out : List (Char × Nat)}

/-- `str[i]`. -/
def charAt (mem : Word → UInt8) (str : Word) (i : Nat) : UInt8 := mem (str + BitVec.ofNat 32 i)

/-- The bytes in white, as they are sent to the screen. -/
def whiteCells (bytes : List UInt8) : List (Char × Nat) := cells [(textOf bytes, 0x0F)]

/-- The call returns, and this is what it has sent to the screen after the fixed prefix. -/
def Displays (ok : Nat → Bool) (esp : Word) (k : Kernel) (fd str count : Word)
    (out : List (Char × Nat)) : Prop :=
  ∃ fuel k', syscallHandler ok fuel esp k ⟨sysWrite, fd, str, count⟩ = some (.returns k' count) ∧
    k'.console = k.console ++ cells [("[SYS_WRITE] ", 0x0A)] ++ out

/-- The bytes given are shown, with at most a newline after them. -/
def ShowsGiven (ok : Nat → Bool) (esp : Word) (k : Kernel) (fd str count : Word) : Prop :=
  ∃ out, Displays ok esp k fd str count out ∧
    (out = whiteCells (bytesAt k.mem str 0 count.toNat) ∨
      out = whiteCells (bytesAt k.mem str 0 count.toNat ++ [10]))

/-- The addresses `vga_puts` reads, up to some fuel. -/
def cStringReads (mem : Word → UInt8) : Nat → Word → List Word
  | 0, _ => []
  | fuel + 1, a => a :: if mem a = 0 then [] else cStringReads mem fuel (a + 1)

/-- The addresses the call reads. -/
def sysWriteReads (mem : Word → UInt8) (fuel : Nat) (str count : Word) : List Word :=
  cStringReads mem fuel str ++ if count ≠ 0 then [str + (count - 1)] else []

/-- No byte is read but those given. -/
def ReadsGiven (mem : Word → UInt8) (str count : Word) : Prop :=
  ∀ fuel, ∀ a ∈ sysWriteReads mem fuel str count, ∃ i < count.toNat, a = str + BitVec.ofNat 32 i

/-- Memories with the same bytes given have the same output. -/
def OutputOfGiven (ok : Nat → Bool) (esp : Word) (k : Kernel) (fd str count : Word) : Prop :=
  ∀ mem', (∀ i < count.toNat, charAt mem' str i = charAt k.mem str i) →
    ∀ out, Displays ok esp { k with mem := mem' } fd str count out ↔
      Displays ok esp k fd str count out

/-- The call goes by the length it is given. -/
structure WritesGiven (ok : Nat → Bool) (esp : Word) (k : Kernel) (fd str count : Word) :
    Prop where
  shows : ShowsGiven ok esp k fd str count
  reads : ReadsGiven k.mem str count
  output : OutputOfGiven ok esp k fd str count

/-- The length of the C string at `str`. -/
structure FirstNul (mem : Word → UInt8) (str : Word) (len : Nat) : Prop where
  nul : charAt mem str len = 0
  before : ∀ i < len, charAt mem str i ≠ 0

/-- What the call sends of a C string of that length. -/
def displayed (mem : Word → UInt8) (str count : Word) (len : Nat) : List UInt8 :=
  bytesAt mem str 0 len ++ if count ≠ 0 ∧ charAt mem str (count.toNat - 1) ≠ 10 then [10] else []

section Strings

theorem next_address : str + 1 + BitVec.ofNat 32 i = str + BitVec.ofNat 32 (i + 1) := by
  rw [BitVec.add_assoc, Nat.add_comm i 1, BitVec.ofNat_add]
  rfl

theorem charAt_next : charAt mem (str + 1) i = charAt mem str (i + 1) := by
  rw [charAt, charAt, next_address]

/-- Offsets below 2^32 are different addresses. -/
theorem address_ne (hi : i < n) (hn : n < 2 ^ 32) :
    str + BitVec.ofNat 32 i ≠ str + BitVec.ofNat 32 n := by
  intro heq
  have hindex := congrArg (fun a => (a - str).toNat) heq
  simp only [BitVec.add_comm str, BitVec.add_sub_cancel, BitVec.toNat_ofNat] at hindex
  omega

theorem charAt_zero : charAt mem str 0 = mem str := by
  rw [charAt, BitVec.add_zero]

theorem bytesAt_next : bytesAt mem (str + 1) 0 n = bytesAt mem str 1 n := by
  refine List.map_congr_left fun i _ => ?_
  rw [Nat.zero_add, next_address, Nat.add_comm i 1]

theorem nonzero_succ : (∀ i < n + 1, charAt mem str i ≠ 0) ↔
    mem str ≠ 0 ∧ ∀ i < n, charAt mem (str + 1) i ≠ 0 := by
  constructor
  · intro h
    have hfirst := h 0 (by omega)
    rw [charAt_zero] at hfirst
    refine ⟨hfirst, fun i hi => ?_⟩
    rw [charAt_next]
    exact h (i + 1) (by omega)
  · rintro ⟨hfirst, hrest⟩ i hi
    cases i with
    | zero => rwa [charAt_zero]
    | succ i =>
      rw [← charAt_next]
      exact hrest i (by omega)

theorem FirstNul.next (h : FirstNul mem (str + 1) len) (hbyte : mem str ≠ 0) :
    FirstNul mem str (len + 1) :=
  ⟨charAt_next ▸ h.nul, nonzero_succ.mpr ⟨hbyte, h.before⟩⟩

theorem FirstNul.unique {len' : Nat} (h : FirstNul mem str len) (h' : FirstNul mem str len') :
    len = len' := by
  rcases Nat.lt_trichotomy len len' with hlt | heq | hgt
  · exact absurd h.nul (h'.before len hlt)
  · exact heq
  · exact absurd h'.nul (h.before len' hgt)

theorem cString_eq_some {bytes : List UInt8} (h : cString mem fuel str = some bytes) :
    ∃ len, FirstNul mem str len ∧ bytes = bytesAt mem str 0 len := by
  induction fuel generalizing str bytes with
  | zero => simp [cString] at h
  | succ fuel ih =>
    rw [cString] at h
    split at h
    · rename_i hnul
      refine ⟨0, ⟨charAt_zero.trans hnul, by simp⟩, ?_⟩
      simpa [bytesAt, eq_comm] using h
    · rename_i hbyte
      obtain ⟨rest, hrest, rfl⟩ := Option.map_eq_some_iff.mp h
      obtain ⟨len, hfirst, rfl⟩ := ih hrest
      refine ⟨len + 1, hfirst.next hbyte, ?_⟩
      rw [bytesAt_cons, bytesAt_next, BitVec.add_zero]

theorem FirstNul.cString_eq (h : FirstNul mem str len) :
    cString mem (len + 1) str = some (bytesAt mem str 0 len) := by
  induction len generalizing str with
  | zero =>
    have hnul := h.nul
    rw [charAt_zero] at hnul
    simp [cString, hnul, bytesAt]
  | succ len ih =>
    obtain ⟨hbyte, hbefore⟩ := nonzero_succ.mp h.before
    have hrest : FirstNul mem (str + 1) len := ⟨charAt_next.trans h.nul, hbefore⟩
    rw [cString, if_neg hbyte, ih hrest, bytesAt_cons, bytesAt_next, BitVec.add_zero]
    rfl

/-- The addresses read are those of the string and of its NUL. -/
theorem mem_cStringReads : a ∈ cStringReads mem fuel str ↔
    ∃ i < fuel, (∀ j < i, charAt mem str j ≠ 0) ∧ a = str + BitVec.ofNat 32 i := by
  induction fuel generalizing str with
  | zero => simp [cStringReads]
  | succ fuel ih =>
    rw [cStringReads, List.mem_cons]
    constructor
    · rintro (rfl | hrest)
      · exact ⟨0, by omega, by simp, by rw [BitVec.add_zero]⟩
      · split at hrest
        · simp at hrest
        · rename_i hbyte
          obtain ⟨i, hi, hbefore, rfl⟩ := ih.mp hrest
          exact ⟨i + 1, by omega, nonzero_succ.mpr ⟨hbyte, hbefore⟩, next_address⟩
    · rintro ⟨i, hi, hbefore, rfl⟩
      cases i with
      | zero => exact Or.inl (by rw [BitVec.add_zero])
      | succ i =>
        obtain ⟨hbyte, hrest⟩ := nonzero_succ.mp hbefore
        rw [if_neg hbyte]
        exact Or.inr (ih.mpr ⟨i, by omega, hrest, next_address.symm⟩)

end Strings

section Output

theorem handler_write (regs : SysRegs) (h : regs.eax = sysWrite) :
    syscallHandler ok fuel esp k regs =
      (sysWriteCase fuel k regs).map fun out => .returns out.1 out.2 := by
  simp [syscallHandler, h, sysYield, sysExit, sysWrite]

theorem whiteCells_eq (bytes : List UInt8) :
    whiteCells bytes = bytes.map fun b => (Char.ofNat b.toNat, 0x0F) := by
  simp [whiteCells, cells, textOf]

theorem charOf_toNat (h : n < 256) : (Char.ofNat n).toNat = n := by
  have hvalid : n.isValidChar := Or.inl (by omega)
  rw [Char.ofNat, dif_pos hvalid]
  rfl

/-- Different bytes are different characters. -/
theorem whiteCells_inj {bytes bytes' : List UInt8} :
    whiteCells bytes = whiteCells bytes' ↔ bytes = bytes' := by
  rw [whiteCells_eq, whiteCells_eq]
  refine List.map_inj_right fun b b' h => ?_
  have hchar := congrArg Char.toNat (Prod.mk.inj h).1
  rw [charOf_toNat b.toNat_lt, charOf_toNat b'.toNat_lt] at hchar
  exact UInt8.toNat_inj.mp hchar

theorem lastIndex (hcount : count ≠ 0) : count - 1 = BitVec.ofNat 32 (count.toNat - 1) := by
  have hpos : count.toNat ≠ 0 := fun hzero => hcount (BitVec.eq_of_toNat_eq hzero)
  have hlt := count.isLt
  apply BitVec.eq_of_toNat_eq
  rw [BitVec.toNat_sub, BitVec.toNat_ofNat]
  simp
  omega

theorem lastChar (mem : Word → UInt8) (str : Word) (hcount : count ≠ 0) :
    mem (str + (count - 1)) = charAt mem str (count.toNat - 1) := by
  rw [charAt, lastIndex hcount]

/-- The kernel after the prefix and some more were sent to the screen. -/
def Kernel.sent (k : Kernel) (out : List (Char × Nat)) : Kernel :=
  { k with console := k.console ++ cells [("[SYS_WRITE] ", 0x0A)] ++ out }

theorem sysWriteCase_eq (hfd : fd = 1 ∨ fd = 2) (hstr : str ≠ 0) :
    sysWriteCase fuel k ⟨sysWrite, fd, str, count⟩ =
      (cString k.mem fuel str).map fun bytes =>
        (k.sent (whiteCells (bytes ++
          if count ≠ 0 ∧ charAt k.mem str (count.toNat - 1) ≠ 10 then [10] else [])), count) := by
  unfold sysWriteCase
  dsimp only
  rw [if_pos hfd, if_pos hstr]
  cases cString k.mem fuel str with
  | none => rfl
  | some bytes =>
    rw [Option.bind_eq_bind, Option.bind_some, Option.map_some]
    by_cases hnl : count ≠ 0 ∧ charAt k.mem str (count.toNat - 1) ≠ 10
    · have hnl' : count ≠ 0 ∧ k.mem (str + (count - 1)) ≠ 10 := by
        rw [lastChar k.mem str hnl.1]
        exact hnl
      rw [if_pos hnl]
      split
      · simp [Kernel.puts, Kernel.sent, whiteCells, cells, textOf]
      · rename_i hno
        exact absurd hnl' hno
    · have hnl' : ¬ (count ≠ 0 ∧ k.mem (str + (count - 1)) ≠ 10) := by
        rintro ⟨hcount, hbyte⟩
        rw [lastChar k.mem str hcount] at hbyte
        exact hnl ⟨hcount, hbyte⟩
      rw [if_neg hnl, List.append_nil]
      split
      · rename_i hyes
        exact absurd hyes hnl'
      · rfl

/-- The call comes back once the string has ended. -/
theorem displays_cString (hfd : fd = 1 ∨ fd = 2) (hstr : str ≠ 0) :
    Displays ok esp k fd str count out ↔ ∃ fuel bytes, cString k.mem fuel str = some bytes ∧
      out = whiteCells (bytes ++
        if count ≠ 0 ∧ charAt k.mem str (count.toNat - 1) ≠ 10 then [10] else []) := by
  constructor
  · rintro ⟨fuel, k', hcall, hconsole⟩
    rw [handler_write _ rfl, sysWriteCase_eq hfd hstr, Option.map_map] at hcall
    obtain ⟨bytes, hbytes, heq⟩ := Option.map_eq_some_iff.mp hcall
    obtain ⟨rfl, -⟩ := SyscallEnd.returns.inj heq
    exact ⟨fuel, bytes, hbytes, (List.append_cancel_left hconsole).symm⟩
  · rintro ⟨fuel, bytes, hbytes, rfl⟩
    refine ⟨fuel, k.sent (whiteCells (bytes ++
      if count ≠ 0 ∧ charAt k.mem str (count.toNat - 1) ≠ 10 then [10] else [])), ?_, rfl⟩
    rw [handler_write _ rfl, sysWriteCase_eq hfd hstr, hbytes]
    rfl

theorem displays_iff (hfd : fd = 1 ∨ fd = 2) (hstr : str ≠ 0) :
    Displays ok esp k fd str count out ↔
      ∃ len, FirstNul k.mem str len ∧ out = whiteCells (displayed k.mem str count len) := by
  rw [displays_cString hfd hstr]
  constructor
  · rintro ⟨fuel, bytes, hbytes, rfl⟩
    obtain ⟨len, hfirst, rfl⟩ := cString_eq_some hbytes
    exact ⟨len, hfirst, rfl⟩
  · rintro ⟨len, hfirst, rfl⟩
    exact ⟨len + 1, _, hfirst.cString_eq, rfl⟩

end Output

section Reads

theorem cString_congr (h : ∀ a ∈ cStringReads mem fuel str, mem' a = mem a) :
    cString mem' fuel str = cString mem fuel str := by
  induction fuel generalizing str with
  | zero => rfl
  | succ fuel ih =>
    rw [cStringReads] at h
    have hbyte : mem' str = mem str := h str (by simp)
    rw [cString, cString, hbyte]
    split
    · rfl
    · rename_i hne
      rw [if_neg hne] at h
      rw [ih fun a ha => h a (List.mem_cons_of_mem str ha)]

/-- What is displayed is decided by the addresses read. -/
theorem displays_congr (hfd : fd = 1 ∨ fd = 2) (hstr : str ≠ 0)
    (h : ∀ fuel, ∀ a ∈ sysWriteReads k.mem fuel str count, mem' a = k.mem a) :
    Displays ok esp { k with mem := mem' } fd str count out ↔
      Displays ok esp k fd str count out := by
  rw [displays_cString hfd hstr, displays_cString hfd hstr]
  have hstring : ∀ fuel, cString mem' fuel str = cString k.mem fuel str := fun fuel =>
    cString_congr fun a ha => h fuel a (List.mem_append_left _ ha)
  have hlast : (count ≠ 0 ∧ charAt mem' str (count.toNat - 1) ≠ 10) ↔
      (count ≠ 0 ∧ charAt k.mem str (count.toNat - 1) ≠ 10) := by
    refine and_congr_right fun hcount => ?_
    have hread : str + (count - 1) ∈ sysWriteReads k.mem 0 str count :=
      List.mem_append_right _ (by rw [if_pos hcount]; exact List.mem_singleton_self _)
    rw [← lastChar mem' str hcount, ← lastChar k.mem str hcount, h 0 _ hread]
  simp only [hstring, hlast]

theorem readsGiven_iff : ReadsGiven mem str count ↔ ∃ i < count.toNat, charAt mem str i = 0 := by
  have hcountlt := count.isLt
  constructor
  · intro h
    by_contra hno
    push Not at hno
    -- the byte behind those given
    have hread : str + BitVec.ofNat 32 count.toNat ∈
        sysWriteReads mem (count.toNat + 1) str count :=
      List.mem_append_left _ (mem_cStringReads.mpr ⟨count.toNat, by omega, hno, rfl⟩)
    obtain ⟨i, hi, heq⟩ := h _ _ hread
    exact address_ne hi count.isLt heq.symm
  · rintro ⟨n, hn, hnul⟩ fuel a ha
    rcases List.mem_append.mp ha with hstring | hlast
    · obtain ⟨i, -, hbefore, rfl⟩ := mem_cStringReads.mp hstring
      refine ⟨i, ?_, rfl⟩
      by_contra hge
      exact hbefore n (by omega) hnul
    · split at hlast
      · rename_i hcount
        exact ⟨count.toNat - 1, by omega, by rw [List.mem_singleton.mp hlast, lastIndex hcount]⟩
      · simp at hlast

end Reads

section Given

theorem bytesAt_length {start : Nat} : (bytesAt mem str start n).length = n := by
  simp [bytesAt]

theorem bytesAt_snoc : bytesAt mem str 0 (n + 1) = bytesAt mem str 0 n ++ [charAt mem str n] := by
  simp [bytesAt, List.range_succ, charAt]

theorem bytesAt_inj : bytesAt mem str 0 n = bytesAt mem str 0 len ↔ n = len := by
  constructor
  · intro h
    have hlength := congrArg List.length h
    rwa [bytesAt_length, bytesAt_length] at hlength
  · rintro rfl
    rfl

theorem bytesAt_snoc_inj {b : UInt8} :
    bytesAt mem str 0 len = bytesAt mem str 0 n ++ [b] ↔ len = n + 1 ∧ charAt mem str n = b := by
  constructor
  · intro h
    have hlength := congrArg List.length h
    rw [List.length_append, bytesAt_length, bytesAt_length, List.length_singleton] at hlength
    subst hlength
    rw [bytesAt_snoc] at h
    exact ⟨rfl, List.singleton_inj.mp (List.append_cancel_left h)⟩
  · rintro ⟨rfl, rfl⟩
    exact bytesAt_snoc

/-- The string given ends where it should, or one newline late and without one of its own. -/
def EndsAt (mem : Word → UInt8) (str count : Word) (len : Nat) : Prop :=
  len = count.toNat ∨ (len = count.toNat + 1 ∧ charAt mem str count.toNat = 10 ∧
    (count = 0 ∨ charAt mem str (count.toNat - 1) = 10))

theorem displayed_given : (displayed mem str count len = bytesAt mem str 0 count.toNat ∨
    displayed mem str count len = bytesAt mem str 0 count.toNat ++ [10]) ↔
      EndsAt mem str count len := by
  rw [displayed, EndsAt]
  by_cases hnl : count ≠ 0 ∧ charAt mem str (count.toNat - 1) ≠ 10
  · rw [if_pos hnl, List.append_cancel_right_eq, bytesAt_inj, eq_comm, bytesAt_snoc_inj]
    constructor
    · rintro (⟨hlen, hlast⟩ | hlen)
      · -- a newline shown for the last byte would be that byte
        have hindex : len = count.toNat - 1 := by omega
        exact absurd (hindex ▸ hlast) hnl.2
      · exact Or.inl hlen
    · rintro (hlen | ⟨-, -, hzero | hlast⟩)
      · exact Or.inr hlen
      · exact absurd hzero hnl.1
      · exact absurd hlast hnl.2
  · rw [if_neg hnl, List.append_nil, bytesAt_inj, bytesAt_snoc_inj]
    have hends : count = 0 ∨ charAt mem str (count.toNat - 1) = 10 := by
      by_contra hno
      push Not at hno
      exact hnl hno
    constructor
    · rintro (hlen | ⟨hlen, hbyte⟩)
      · exact Or.inl hlen
      · exact Or.inr ⟨hlen, hbyte, hends⟩
    · rintro (hlen | ⟨hlen, hbyte, -⟩)
      · exact Or.inl hlen
      · exact Or.inr ⟨hlen, hbyte⟩

theorem showsGiven_iff (hfd : fd = 1 ∨ fd = 2) (hstr : str ≠ 0) :
    ShowsGiven ok esp k fd str count ↔
      ∃ len, FirstNul k.mem str len ∧ EndsAt k.mem str count len := by
  constructor
  · rintro ⟨out, hout, hgiven⟩
    obtain ⟨len, hfirst, rfl⟩ := (displays_iff hfd hstr).mp hout
    rw [whiteCells_inj, whiteCells_inj] at hgiven
    exact ⟨len, hfirst, displayed_given.mp hgiven⟩
  · rintro ⟨len, hfirst, hends⟩
    refine ⟨_, (displays_iff hfd hstr).mpr ⟨len, hfirst, rfl⟩, ?_⟩
    rw [whiteCells_inj, whiteCells_inj]
    exact displayed_given.mpr hends

/-- Memories with the same bytes given show strings of different lengths differently. -/
theorem displayed_length {len' : Nat}
    (hgiven : ∀ i < count.toNat, charAt mem' str i = charAt mem str i)
    (h : displayed mem' str count len' = displayed mem str count len) : len' = len := by
  have hlast : (count ≠ 0 ∧ charAt mem' str (count.toNat - 1) ≠ 10) ↔
      (count ≠ 0 ∧ charAt mem str (count.toNat - 1) ≠ 10) := by
    refine and_congr_right fun hcount => ?_
    have hpos : count.toNat ≠ 0 := fun hzero => hcount (BitVec.eq_of_toNat_eq hzero)
    rw [hgiven _ (by omega)]
  rw [displayed, displayed] at h
  simp only [hlast] at h
  have hlength := congrArg List.length h
  simp only [List.length_append, bytesAt_length] at hlength
  omega

/-- A byte behind those given decides where the string ends. -/
theorem displays_differ (hfd : fd = 1 ∨ fd = 2) (hstr : str ≠ 0)
    (hfirst : FirstNul k.mem str count.toNat) (hbyte : charAt mem' str count.toNat ≠ 0)
    (hgiven : ∀ i < count.toNat, charAt mem' str i = charAt k.mem str i) :
    ∃ out, Displays ok esp k fd str count out ∧
      ¬ Displays ok esp { k with mem := mem' } fd str count out := by
  refine ⟨_, (displays_iff hfd hstr).mpr ⟨count.toNat, hfirst, rfl⟩, ?_⟩
  intro hout
  obtain ⟨len, hfirst', heq⟩ := (displays_iff hfd hstr).mp hout
  have hlen : len = count.toNat := displayed_length hgiven (whiteCells_inj.mp heq).symm
  subst hlen
  exact hbyte hfirst'.nul

/-- The memory with one byte behind those given changed. -/
def changedBehind (mem : Word → UInt8) (str count : Word) (b : UInt8) : Word → UInt8 :=
  Function.update mem (str + BitVec.ofNat 32 count.toNat) b

theorem charAt_changedBehind (b : UInt8) :
    charAt (changedBehind mem str count b) str count.toNat = b := by
  simp [charAt, changedBehind]

theorem charAt_changedBehind_lt (b : UInt8) (hi : i < count.toNat) :
    charAt (changedBehind mem str count b) str i = charAt mem str i := by
  rw [charAt, changedBehind, Function.update_of_ne (address_ne hi count.isLt)]
  rfl

theorem outputOfGiven_iff (hfd : fd = 1 ∨ fd = 2) (hstr : str ≠ 0) :
    OutputOfGiven ok esp k fd str count ↔ ∃ i < count.toNat, charAt k.mem str i = 0 := by
  constructor
  · intro h
    by_contra hno
    push Not at hno
    by_cases hnul : charAt k.mem str count.toNat = 0
    · -- the string ends right behind the bytes given, and is made longer
      have hgiven : ∀ i < count.toNat,
          charAt (changedBehind k.mem str count 65) str i = charAt k.mem str i :=
        fun i hi => charAt_changedBehind_lt 65 hi
      have hlonger : charAt (changedBehind k.mem str count 65) str count.toNat ≠ 0 := by
        rw [charAt_changedBehind]
        decide
      obtain ⟨out, hout, hnot⟩ := displays_differ hfd hstr ⟨hnul, hno⟩ hlonger hgiven
      exact hnot ((h _ hgiven out).mpr hout)
    · -- it goes on, and is ended there
      have hgiven : ∀ i < count.toNat,
          charAt (changedBehind k.mem str count 0) str i = charAt k.mem str i :=
        fun i hi => charAt_changedBehind_lt 0 hi
      let ended : Kernel := { k with mem := changedBehind k.mem str count 0 }
      have hfirst : FirstNul ended.mem str count.toNat := by
        refine ⟨charAt_changedBehind 0, fun i hi => ?_⟩
        rw [hgiven i hi]
        exact hno i hi
      obtain ⟨out, hout, hnot⟩ :=
        displays_differ hfd hstr hfirst hnul fun i hi => (hgiven i hi).symm
      exact hnot ((h _ hgiven out).mp hout)
  · intro hnul mem' hgiven out
    refine displays_congr hfd hstr fun fuel a ha => ?_
    obtain ⟨i, hi, rfl⟩ := readsGiven_iff.mpr hnul fuel a ha
    exact hgiven i hi

/-- A string that ends where it should has no NUL among the bytes given. -/
theorem not_nulBefore (h : ∃ len, FirstNul mem str len ∧ EndsAt mem str count len) :
    ¬ ∃ i < count.toNat, charAt mem str i = 0 := by
  rintro ⟨i, hi, hnul⟩
  obtain ⟨len, hfirst, hends⟩ := h
  refine hfirst.before i ?_ hnul
  rcases hends with hlen | ⟨hlen, -⟩ <;> omega

end Given

/-- The call never goes by its length. The right bytes are shown when the string ends with them,
and only they are read when it ends among them. -/
theorem sys_write_ignores_count (ok : Nat → Bool) (esp : Word) (k : Kernel) (fd str count : Word)
    (hfd : fd = 1 ∨ fd = 2) (hstr : str ≠ 0) :
    ¬ WritesGiven ok esp k fd str count ∧
      (ShowsGiven ok esp k fd str count ↔
        ∃ len, FirstNul k.mem str len ∧ EndsAt k.mem str count len) ∧
      (ReadsGiven k.mem str count ↔ ∃ i < count.toNat, charAt k.mem str i = 0) ∧
      (OutputOfGiven ok esp k fd str count ↔ ∃ i < count.toNat, charAt k.mem str i = 0) := by
  refine ⟨?_, showsGiven_iff hfd hstr, readsGiven_iff, outputOfGiven_iff hfd hstr⟩
  intro h
  exact not_nulBefore ((showsGiven_iff hfd hstr).mp h.shows) (readsGiven_iff.mp h.reads)

/-- The string "AB" at 4 MiB. -/
def Kernel.holdsAB : Kernel :=
  { Kernel.oneProcess with
    mem := fun a => if a = 0x400000 then 65 else if a = 0x400001 then 66 else 0 }

theorem sys_write_ignores_count_holdsAB :
    ¬ WritesGiven (fun _ => true) 0x200000 .holdsAB 1 0x400000 1 :=
  (sys_write_ignores_count (fun _ => true) 0x200000 .holdsAB 1 0x400000 1 (Or.inl rfl)
    (by decide)).1

/-- One byte of "AB" is asked for, and both are shown. -/
theorem sys_write_shows_more : ¬ ∀ ok esp k fd str count, (fd = 1 ∨ fd = 2) → str ≠ 0 →
    WritesGiven ok esp k fd str count := by
  intro hall
  have hgiven := hall (fun _ => true) 0x200000 .holdsAB 1 0x400000 1 (Or.inl rfl) (by decide)
  obtain ⟨len, hfirst, hends⟩ := (showsGiven_iff (Or.inl rfl) (by decide)).mp hgiven.shows
  have hlen : len = 2 := hfirst.unique ⟨by decide, by decide⟩
  subst hlen
  rcases hends with hcount | ⟨-, hbyte, -⟩
  · simp at hcount
  · exact absurd hbyte (by decide)

end HumanOS

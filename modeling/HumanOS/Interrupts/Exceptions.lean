import HumanOS.Scheduler.Stubs

/-!
# Exceptions

The stubs `isr0` to `isr31` of `arch/i386/interrupts.s` and `isr_handler` of `kernel/isr.c`, which
prints what it finds on the stack and halts.
-/
namespace HumanOS

open Lib

/-- `registers_t`. -/
structure IsrRegs where
  ds : Word
  edi : Word
  esi : Word
  ebp : Word
  espDummy : Word
  ebx : Word
  edx : Word
  ecx : Word
  eax : Word
  intNo : Word
  errCode : Word
  eip : Word
  cs : Word
  eflags : Word

def isrRegsAt (mem : Memory) (regs : Word) : IsrRegs :=
  let word := stackWord mem regs
  ⟨word 0, word 1, word 2, word 3, word 4, word 5, word 6, word 7, word 8, word 9, word 10, word 11,
    word 12, word 13⟩

/-- The stubs made by `ISR_ERRCODE`. -/
def isrErrcode (n : Nat) : Bool := n ∈ [8, 10, 11, 12, 13, 14, 17]

/-- What the CPU pushes for an exception, with an error code where it has one. -/
def exceptionPush (s : Sched) (r : Regs) (code : Option Word) : Memory × Word :=
  let stack := interruptPush s r
  pushes stack.1 stack.2 code.toList

/-- A stub, up to the call of `isr_handler`. -/
def isrPush (n : Nat) (s : Sched) (r : Regs) (code : Option Word) : Memory × Word :=
  let stack := exceptionPush s r code
  let stack := pushes stack.1 stack.2
    (if isrErrcode n then [BitVec.ofNat 32 n] else [0, BitVec.ofNat 32 n])
  pushes stack.1 stack.2
    [r.eax, r.ecx, r.edx, r.ebx, stack.2, r.ebp, r.esi, r.edi, segWord r.ds]

section Handler

def exceptionMessages : List String :=
  ["Division By Zero", "Debug", "Non-Maskable Interrupt", "Breakpoint", "Into Detected Overflow",
    "Out of Bounds", "Invalid Opcode", "No Coprocessor", "Double Fault",
    "Coprocessor Segment Overrun", "Bad TSS", "Segment Not Present", "Stack Fault",
    "General Protection Fault", "Page Fault", "Unknown Interrupt", "Coprocessor Fault",
    "Alignment Check", "Machine Check", "SIMD Floating-Point Exception",
    "Virtualization Exception", "Control Protection Exception"] ++ List.replicate 10 "Reserved"

/-- The loop of `print_hex`, which fills the buffer from its end. -/
def hexLoop : Nat → Nat → List Char
  | 0, _ => []
  | k + 1, val => hexLoop k (val >>> 4) ++ ["0123456789ABCDEF".toList.getD (val &&& 0xF) '0']

/-- `print_hex`, all of it in one call. -/
def printHex (val : Word) : String := String.ofList ('0' :: 'x' :: hexLoop 8 val.toNat)

/-- The first loop of `print_dec`, with the room of the buffer as fuel: the last digit comes
first. -/
def decLoop : Nat → Nat → List Char
  | 0, _ => []
  | k + 1, val =>
    if val > 0 then Char.ofNat ('0'.toNat + val % 10) :: decLoop k (val / 10) else []

/-- `print_dec`, a character a call. -/
def printDec (val : Word) : List String :=
  if val = 0 then ["0"] else (decLoop 15 val.toNat).reverse.map (String.singleton ·)

/-- `isr_handler`, up to the halt: the texts it prints, all of them white on red. `cr2` is the
register of that name. -/
def isrHandler (regs : IsrRegs) (cr2 : Word) : List String :=
  ["\n========================================\n", "          !!! KERNEL PANIC !!!          \n",
    "========================================\n", "Exception ["] ++ printDec regs.intNo ++ ["]: ",
    if regs.intNo < 32 then exceptionMessages.getD regs.intNo.toNat "" else "Unknown Exception",
    "\n", "Error Code: ", printHex regs.errCode, "\n"] ++
  (if regs.intNo = 14 then ["Faulting Address (CR2): ", printHex cr2, "\n"] else []) ++
  ["\n--- Register Dump ---\n", "EIP: ", printHex regs.eip, "  CS: ", printHex regs.cs,
    "  EFLAGS: ", printHex regs.eflags, "\n", "EAX: ", printHex regs.eax, "  EBX: ",
    printHex regs.ebx, "  ECX: ", printHex regs.ecx, "\n", "EDX: ", printHex regs.edx, "  ESI: ",
    printHex regs.esi, "  EDI: ", printHex regs.edi, "\n", "EBP: ", printHex regs.ebp, "  DS:  ",
    printHex regs.ds, "\n========================================\n", "System Halted.\n"]

end Handler

section Reading

/-- The value of a digit. -/
def hexValue (c : Char) : Nat := "0123456789ABCDEF".toList.idxOf c

/-- The number that a printed text shows, if it is one. -/
def readHex (text : String) : Option Nat :=
  match text.toList with
  | '0' :: 'x' :: digits => some (digits.foldl (fun n c => 16 * n + hexValue c) 0)
  | _ => none

variable {n k val : Nat}

theorem hexValue_digit (h : n < 16) : hexValue ("0123456789ABCDEF".toList.getD n '0') = n := by
  revert n
  decide

/-- The digits of a number read back as the number, modulo what they have room for. -/
theorem hexLoop_value (k val : Nat) :
    (hexLoop k val).foldl (fun n c => 16 * n + hexValue c) 0 = val % 16 ^ k := by
  induction k generalizing val with
  | zero => simp [hexLoop, Nat.mod_one]
  | succ k ih =>
    have hlow : val &&& 0xF = val % 16 := Nat.and_two_pow_sub_one_eq_mod val 4
    have hhigh : val >>> 4 = val / 16 := Nat.shiftRight_eq_div_pow val 4
    have hsplit : val % 16 ^ (k + 1) = val % 16 + 16 * (val / 16 % 16 ^ k) := by
      rw [show 16 ^ (k + 1) = 16 * 16 ^ k by ring, Nat.mod_mul]
    rw [hexLoop, List.foldl_append, ih, List.foldl_cons, List.foldl_nil, hlow, hhigh,
      hexValue_digit (Nat.mod_lt _ (by decide)), hsplit, Nat.add_comm]

@[simp] theorem readHex_printHex (val : Word) : readHex (printHex val) = some val.toNat := by
  have hlt : val.toNat % 16 ^ 8 = val.toNat := Nat.mod_eq_of_lt val.isLt
  simp only [readHex, printHex, String.toList_ofList, hexLoop_value, hlt]

/-- The numbers on a screen, in the order of their printing. -/
def numbers (screen : List String) : List Nat := screen.filterMap readHex

/-- The number that decimal digits stand for. -/
def readDec (chars : List Char) : Nat := chars.foldl (fun n c => 10 * n + (c.toNat - 48)) 0

theorem decLoop_value (h : val < 10 ^ k) : readDec (decLoop k val).reverse = val := by
  induction k generalizing val with
  | zero =>
    obtain rfl : val = 0 := by simpa using h
    rfl
  | succ k ih =>
    rw [decLoop]
    split
    · have hdigit : ∀ d < 10, (Char.ofNat ('0'.toNat + d)).toNat - 48 = d := by decide
      have hrest : readDec (decLoop k (val / 10)).reverse = val / 10 :=
        ih (Nat.div_lt_of_lt_mul (by rwa [Nat.mul_comm, ← Nat.pow_succ]))
      rw [List.reverse_cons, readDec, List.foldl_append, ← readDec, hrest, List.foldl_cons,
        List.foldl_nil, hdigit _ (Nat.mod_lt _ (by decide)), Nat.div_add_mod]
    · obtain rfl : val = 0 := by omega
      rfl

/-- `print_dec` prints digits, one a call, that stand for the number. -/
theorem printDec_digits (val : Word) : ∃ chars,
    printDec val = chars.map (String.singleton ·) ∧ readDec chars = val.toNat := by
  unfold printDec
  split
  · rename_i hzero
    exact ⟨['0'], rfl, by rw [hzero]; rfl⟩
  · exact ⟨_, rfl, decLoop_value (val.isLt.trans (by decide))⟩

/-- The number of the exception on a screen: the digits up to the closing bracket. -/
def exceptionNumber (screen : List String) : Nat :=
  readDec (((screen.drop 4).takeWhile (· ≠ "]: ")).flatMap String.toList)

theorem exceptionNumber_isrHandler (regs : IsrRegs) (cr2 : Word) :
    exceptionNumber (isrHandler regs cr2) = regs.intNo.toNat := by
  obtain ⟨chars, hprint, hvalue⟩ := printDec_digits regs.intNo
  have hdigits : ∀ c : Char, String.singleton c ≠ "]: " := by
    intro c heq
    have hlen : 1 = "]: ".length := by simpa using congrArg String.length heq
    exact absurd hlen (by decide)
  obtain ⟨rest, hscreen⟩ : ∃ rest,
      (isrHandler regs cr2).drop 4 = printDec regs.intNo ++ "]: " :: rest := by
    simp only [isrHandler, List.append_assoc, List.cons_append, List.nil_append,
      List.drop_succ_cons, List.drop_zero]
    exact ⟨_, rfl⟩
  have htaken : ((isrHandler regs cr2).drop 4).takeWhile (· ≠ "]: ") =
      chars.map (String.singleton ·) := by
    rw [hscreen, hprint, List.takeWhile_append_of_pos]
    · simp
    · intro text htext
      obtain ⟨c, -, rfl⟩ := List.mem_map.mp htext
      simpa using hdigits c
  have hchars : (chars.map (String.singleton ·)).flatMap String.toList = chars := by
    simp [List.flatMap_map]
  rw [exceptionNumber, htaken, hchars, hvalue]

theorem readHex_singleton (c : Char) : readHex (String.singleton c) = none := by
  simp [readHex]

/-- The texts around the numbers of a panic. -/
def panicLabels : List String :=
  ["\n========================================\n", "          !!! KERNEL PANIC !!!          \n",
    "========================================\n", "Exception [", "]: ", "\n", "Error Code: ",
    "Faulting Address (CR2): ", "\n--- Register Dump ---\n", "EIP: ", "  CS: ", "  EFLAGS: ",
    "EAX: ", "  EBX: ", "  ECX: ", "EDX: ", "  ESI: ", "  EDI: ", "EBP: ", "  DS:  ",
    "System Halted.\n"]

theorem readHex_labels : ∀ text ∈ panicLabels, readHex text = none := by decide

/-- The numbers of a panic. -/
theorem numbers_isrHandler (regs : IsrRegs) (cr2 : Word) : numbers (isrHandler regs cr2) =
    ([regs.errCode] ++ (if regs.intNo = 14 then [cr2] else []) ++
      [regs.eip, regs.cs, regs.eflags, regs.eax, regs.ebx, regs.ecx, regs.edx, regs.esi, regs.edi,
        regs.ebp, regs.ds]).map BitVec.toNat := by
  have hdec : (printDec regs.intNo).filterMap readHex = [] := by
    obtain ⟨chars, hprint, -⟩ := printDec_digits regs.intNo
    simp [hprint, List.filterMap_map, readHex_singleton]
  have hmessage : readHex (if regs.intNo < 32 then exceptionMessages.getD regs.intNo.toNat ""
      else "Unknown Exception") = none := by
    have hall : ∀ n < 32, readHex (exceptionMessages.getD n "") = none := by decide
    split
    · rename_i hlt
      exact hall _ hlt
    · decide
  have hlabels := readHex_labels
  simp only [panicLabels, List.forall_mem_cons] at hlabels
  have hcr2 : (if regs.intNo = 14 then ["Faulting Address (CR2): ", printHex cr2, "\n"]
      else []).filterMap readHex = (if regs.intNo = 14 then [cr2] else []).map BitVec.toNat := by
    split
    · simp only [List.filterMap_cons, hlabels, readHex_printHex, List.filterMap_nil, List.map_cons,
        List.map_nil]
    · rfl
  simp only [numbers, isrHandler, List.filterMap_append, List.filterMap_cons, List.filterMap_nil,
    hdec, hcr2, hmessage, hlabels, readHex_printHex, List.map_append, List.map_cons, List.map_nil,
    List.nil_append, List.append_nil]

end Reading

section Frames

variable {s : Sched} {r : Regs} {code : Option Word} {n : Nat}

/-- What lies above the frame with `eip`, `cs` and `eflags`: from ring 3 the rest of what the CPU
pushes, from ring 0 the stack of the interrupted code. -/
def wordsAbove (s : Sched) (r : Regs) : List Word :=
  if r.ring3 then [r.esp, segWord r.ss] else [s.mem r.esp]

/-- What lies on the stack above the saved registers. -/
def isrWords (n : Nat) (s : Sched) (r : Regs) (code : Option Word) : List Word :=
  (if isrErrcode n then [BitVec.ofNat 32 n] else [BitVec.ofNat 32 n, 0]) ++ code.toList ++
    ([r.eip, segWord r.cs, r.eflags] ++ wordsAbove s r)

theorem interruptPush_above : FrameAt (interruptPush s r).1 (interruptPush s r).2
    ([r.eip, segWord r.cs, r.eflags] ++ wordsAbove s r) := by
  unfold interruptPush wordsAbove
  split
  · exact (FrameAt.nil _ _).pushes [segWord r.ss, r.esp, r.eflags, segWord r.cs, r.eip] (by simp)
  · have htop : FrameAt s.mem r.esp [s.mem r.esp] := by
      intro k w hk
      obtain ⟨rfl, rfl⟩ : k = 0 ∧ s.mem r.esp = w := by
        cases k <;> simp_all
      simp [stackWord]
    exact htop.pushes [r.eflags, segWord r.cs, r.eip] (by simp)

theorem isrPush_frame (n : Nat) (s : Sched) (r : Regs) (code : Option Word) :
    ∃ dummy, FrameAt (isrPush n s r code).1 (isrPush n s r code).2
    ([segWord r.ds, r.edi, r.esi, r.ebp, dummy, r.ebx, r.edx, r.ecx, r.eax] ++
      isrWords n s r code) := by
  have hlen : (wordsAbove s r).length ≤ 2 := by
    unfold wordsAbove
    split <;> simp
  have hcpu := (interruptPush_above (s := s) (r := r)).pushes code.toList (by
    cases code <;> simp <;> omega)
  have hnumber := hcpu.pushes
    (if isrErrcode n then [BitVec.ofNat 32 n] else [0, BitVec.ofNat 32 n]) (by
      cases code <;> split <;> simp <;> omega)
  have hall := hnumber.pushes [r.eax, r.ecx, r.edx, r.ebx,
    (pushes (exceptionPush s r code).1 (exceptionPush s r code).2
      (if isrErrcode n then [BitVec.ofNat 32 n] else [0, BitVec.ofNat 32 n])).2,
    r.ebp, r.esi, r.edi, segWord r.ds] (by
      cases code <;> split <;> simp <;> omega)
  have hwords : isrWords n s r code =
      (if isrErrcode n then [BitVec.ofNat 32 n] else [0, BitVec.ofNat 32 n]).reverse ++
        (code.toList.reverse ++ ([r.eip, segWord r.cs, r.eflags] ++ wordsAbove s r)) := by
    have hcode : code.toList.reverse = code.toList := by cases code <;> rfl
    rw [isrWords, hcode, List.append_assoc]
    split <;> rfl
  rw [hwords]
  exact ⟨_, hall⟩

/-- The handler finds the words of a frame where `registers_t` has them. -/
theorem isrRegsAt_frame {mem : Memory} {rest : List Word}
    {esp ds edi esi ebp dummy ebx edx ecx eax intNo errCode eip cs eflags : Word}
    (h : FrameAt mem esp ([ds, edi, esi, ebp, dummy, ebx, edx, ecx, eax] ++
      (intNo :: errCode :: eip :: cs :: eflags :: rest))) :
    isrRegsAt mem esp =
      ⟨ds, edi, esi, ebp, dummy, ebx, edx, ecx, eax, intNo, errCode, eip, cs, eflags⟩ := by
  simp only [isrRegsAt, h 0 _ rfl, h 1 _ rfl, h 2 _ rfl, h 3 _ rfl, h 4 _ rfl, h 5 _ rfl, h 6 _ rfl,
    h 7 _ rfl, h 8 _ rfl, h 9 _ rfl, h 10 _ rfl, h 11 _ rfl, h 12 _ rfl, h 13 _ rfl]

/-- What `isr_handler` prints after an exception of the code with registers `r`. -/
def panicScreen (n : Nat) (s : Sched) (r : Regs) (code : Option Word) (cr2 : Word) : List String :=
  isrHandler (isrRegsAt (isrPush n s r code).1 (isrPush n s r code).2) cr2

/-- The numbers that a screen should show. -/
def panicNumbers (n : Nat) (r : Regs) (cr2 errCode eip cs eflags : Word) : List Nat :=
  ([errCode] ++ (if n = 14 then [cr2] else []) ++
    [eip, cs, eflags, r.eax, r.ebx, r.ecx, r.edx, r.esi, r.edi, r.ebp, segWord r.ds]).map
      BitVec.toNat

/-- The screen shows the four words above the number. -/
theorem panicScreen_shows {errCode eip cs eflags : Word} {rest : List Word} (hn : n < 32)
    (s : Sched) (r : Regs) (code : Option Word) (cr2 : Word)
    (hwords : isrWords n s r code = BitVec.ofNat 32 n :: errCode :: eip :: cs :: eflags :: rest) :
    exceptionNumber (panicScreen n s r code cr2) = n ∧
      numbers (panicScreen n s r code cr2) = panicNumbers n r cr2 errCode eip cs eflags := by
  obtain ⟨dummy, hframe⟩ := isrPush_frame n s r code
  rw [hwords] at hframe
  have hregs := isrRegsAt_frame hframe
  have hnumber : (BitVec.ofNat 32 n).toNat = n := by simp; omega
  have hfault : BitVec.ofNat 32 n = 14 ↔ n = 14 := by bv_omega
  constructor
  · rw [panicScreen, exceptionNumber_isrHandler, hregs, hnumber]
  · rw [panicScreen, numbers_isrHandler, hregs, panicNumbers]
    simp only [hfault]

/-- The word after `eflags` is always there. -/
theorem wordsAbove_cons (s : Sched) (r : Regs) :
    ∃ rest, wordsAbove s r = (if r.ring3 then r.esp else s.mem r.esp) :: rest := by
  unfold wordsAbove
  split
  · exact ⟨_, rfl⟩
  · exact ⟨_, rfl⟩

end Frames

end HumanOS

import HumanOS.Interrupts.Descriptors
import HumanOS.Keyboard.Model
import HumanOS.Lib.Pic
import HumanOS.Lib.Run
import HumanOS.Pit.Model

/-!
# Interrupts, from the line to the handler

What the CPU does with an interrupt or an `int` instruction, given the bytes of the IDT, and the
two devices that interrupt the kernel, through `pic_remap`, `keyboard_init`, `irq0_stub` and
`irq1_stub`. A handler runs to its end before the next interrupt, the gates being interrupt gates.
-/
namespace HumanOS

open Lib

variable {addr : Stub → Nat} {t : Nat → IdtEntry} {n i : Nat}

section Gates

/-- The gate the CPU goes through, or the exception it raises instead. For an `int` instruction the
privilege level of the code counts. -/
def cpuGate (idt : Nat → UInt8) (cpl : Option Nat) (n : Nat) : Except Nat Gate :=
  let gate := gateAt idt n
  if gate.flags % 32 ≠ 14 then .error 13
  else if gate.flags / 32 % 4 < cpl.getD 0 then .error 13
  else if gate.flags / 128 = 0 then .error 11
  else .ok gate

/-- The code that is entered in the end; `none` is a double fault. -/
def interruptEntry (idt : Nat → UInt8) (cpl : Option Nat) (n : Nat) : Option Nat :=
  match cpuGate idt cpl n with
  | .ok gate => some gate.offset
  | .error e =>
    match cpuGate idt none e with
    | .ok gate => some gate.offset
    | .error _ => none

/-- The table from `keyboard_init` on. -/
def kernelIdt (addr : Stub → Nat) (t : Nat → IdtEntry) : Nat → IdtEntry :=
  keyboardInitGates addr (idtInit addr t)

/-- Setting the gates of the first `m` vectors. -/
theorem gateAt_setGates {f : Nat → Nat} {sel flags m : Nat} (hf : ∀ i, f i < 2 ^ 32)
    (hsel : sel < 2 ^ 16) (hflags : flags < 256) (hi : i < 256) :
    gateAt (idtMemory ((List.range m).foldl (fun t i => idtSetGate t i (f i) sel flags) t)) i =
      if i < m then ⟨f i, sel, flags⟩ else gateAt (idtMemory t) i := by
  induction m with
  | zero => simp
  | succ m ih =>
    rw [List.range_succ, List.foldl_append, List.foldl_cons, List.foldl_nil,
      gateAt_setGate hi (hf m) hsel hflags, ih]
    by_cases him : i = m
    · subst him
      simp
    · simp only [if_neg him]
      split <;> split <;> first | rfl | omega

/-- The gate of every vector. -/
def kernelGate (addr : Stub → Nat) (i : Nat) : Gate :=
  if i < 32 then ⟨addr (.isr i), 0x08, 0x8E⟩
  else if i = 32 then ⟨addr .irq0, 0x08, 0x8E⟩
  else if i = 33 then ⟨addr .irq1, 0x08, 0x8E⟩
  else if i = 0x80 then ⟨addr .syscall, 0x08, 0xEE⟩
  else ⟨0, 0, 0⟩

theorem gateAt_kernelIdt (haddr : ∀ s, addr s < 2 ^ 32) (hi : i < 256) :
    gateAt (idtMemory (kernelIdt addr t)) i = kernelGate addr i := by
  have hgate : ∀ {t num s flags}, flags < 256 →
      gateAt (idtMemory (idtSetGate t num (addr s) 0x08 flags)) i =
        if i = num then ⟨addr s, 0x08, flags⟩ else gateAt (idtMemory t) i :=
    fun hflags => gateAt_setGate hi (haddr _) (by decide) hflags
  have hisr := gateAt_setGates (t := (List.range 256).foldl (fun t i => idtSetGate t i 0 0 0) t)
    (m := 32) (fun i => haddr (.isr i)) (show 0x08 < 2 ^ 16 by decide)
    (show 0x8E < 256 by decide) hi
  have hzero := gateAt_setGates (t := t) (f := fun _ => 0) (m := 256) (fun _ => by decide)
    (show 0 < 2 ^ 16 by decide) (show 0 < 256 by decide) hi
  rw [if_pos hi] at hzero
  simp only [kernelIdt, keyboardInitGates, idtInit, kernelGate]
  rw [hgate (by decide), hgate (by decide), hgate (by decide), hisr, hzero]
  split_ifs <;> first | rfl | omega

/-- Where an interrupt, or an `int` instruction of code of some level, is meant to end up. -/
def stubFor (cpl : Option Nat) (n : Nat) : Stub :=
  if n = 0x80 then .syscall
  else if 0 < cpl.getD 0 then .isr 13
  else if n < 32 then .isr n
  else if n = 32 then .irq0
  else if n = 33 then .irq1
  else .isr 13

/-- A gate that only the kernel and the hardware get through. -/
theorem cpuGate_kernel {idt : Nat → UInt8} {cpl : Option Nat} {offset : Nat}
    (h : gateAt idt n = ⟨offset, 0x08, 0x8E⟩) : cpuGate idt cpl n =
      if 0 < cpl.getD 0 then .error 13 else .ok ⟨offset, 0x08, 0x8E⟩ := by
  simp [cpuGate, h]

theorem cpuGate_empty {idt : Nat → UInt8} {cpl : Option Nat} (h : gateAt idt n = ⟨0, 0, 0⟩) :
    cpuGate idt cpl n = .error 13 := by
  simp [cpuGate, h]

theorem interruptEntry_stub (haddr : ∀ s, addr s < 2 ^ 32) (t : Nat → IdtEntry)
    {cpl : Option Nat} (hcpl : cpl.getD 0 ≤ 3) (hn : n < 256) :
    interruptEntry (idtMemory (kernelIdt addr t)) cpl n = some (addr (stubFor cpl n)) := by
  have hgp : cpuGate (idtMemory (kernelIdt addr t)) none 13 = .ok ⟨addr (.isr 13), 0x08, 0x8E⟩ :=
    cpuGate_kernel (gateAt_kernelIdt haddr (by decide))
  -- a gate of the kernel leads to its code, or to the fault
  have hkernel : ∀ {s}, kernelGate addr n = ⟨addr s, 0x08, 0x8E⟩ →
      interruptEntry (idtMemory (kernelIdt addr t)) cpl n =
        some (addr (if 0 < cpl.getD 0 then .isr 13 else s)) := by
    intro s hs
    rw [interruptEntry, cpuGate_kernel ((gateAt_kernelIdt haddr hn).trans hs)]
    by_cases hlevel : 0 < cpl.getD 0
    · simp [hlevel, hgp]
    · simp [hlevel]
  by_cases hexc : n < 32
  · rw [hkernel (s := .isr n) (by simp [kernelGate, hexc])]
    simp [stubFor, show n ≠ 0x80 by omega, hexc]
  · by_cases h32 : n = 32
    · subst h32
      rw [hkernel (s := .irq0) (by simp [kernelGate])]
      simp [stubFor]
    · by_cases h33 : n = 33
      · subst h33
        rw [hkernel (s := .irq1) (by simp [kernelGate])]
        simp [stubFor]
      · have hgate := gateAt_kernelIdt (t := t) haddr hn
        by_cases h80 : n = 0x80
        · subst h80
          have hlow : ¬ 3 < cpl.getD 0 := by omega
          simp [interruptEntry, cpuGate, hgate, kernelGate, stubFor, hlow]
        · have hempty : kernelGate addr n = ⟨0, 0, 0⟩ := by
            simp [kernelGate, hexc, h32, h33, h80]
          rw [interruptEntry, cpuGate_empty (hgate.trans hempty)]
          simp [hgp, stubFor, hexc, h32, h33, h80]

/-- An address for each stub. -/
def stubAddr : Stub → Nat
  | .isr n => 0x100000 + 16 * (n % 32)
  | .syscall => 0x101000
  | .irq0 => 0x102000
  | .irq1 => 0x103000

theorem stubAddr_lt (s : Stub) : stubAddr s < 2 ^ 32 := by
  cases s with
  | isr n =>
    have hlt := Nat.mod_lt n (show 0 < 32 by decide)
    simp only [stubAddr]
    omega
  | _ => decide

end Gates

section Lines

/-- `pic_remap`. -/
def picRemap (s : Pics) : Pics :=
  let s := s.outb 0x20 0x11
  let s := s.outb 0xA0 0x11
  let s := s.outb 0x21 0x20
  let s := s.outb 0xA1 0x28
  let s := s.outb 0x21 0x04
  let s := s.outb 0xA1 0x02
  let s := s.outb 0x21 0x01
  let s := s.outb 0xA1 0x01
  let s := s.outb 0x21 0xFC
  s.outb 0xA1 0xFF

/-- `keyboard_handler`, with the end-of-interrupt command that both its ways out send. -/
def keyboardHandlerOut (kb : Keyboard) (scancode : UInt8) : Keyboard × List (Nat × UInt8) :=
  (keyboardHandler kb scancode, [(0x20, 0x20)])

/-- The controllers, the IDT, the timer and the keyboard. -/
structure IrqState where
  pics : Pics
  idt : Nat → IdtEntry
  timer : Timer
  kb : Keyboard

/-- `idt_init` and `keyboard_init`, which first empties the keyboard's own buffer. -/
def irqInit (addr : Stub → Nat) (s : IrqState) : IrqState :=
  { s with idt := kernelIdt addr s.idt, pics := picRemap s.pics }

/-- Bytes sent to the ports of the controllers. -/
def sendAll (pics : Pics) (ports : List (Nat × UInt8)) : Pics :=
  ports.foldl (fun pics w => pics.outb w.1 w.2) pics

/-- The CPU takes an interrupt and runs its stub; the stubs of the exceptions do not return.
`scancode` is the byte at the keyboard's port. -/
def acceptIrq (addr : Stub → Nat) (s : IrqState) (scancode : UInt8) (processCount : Nat) :
    Option IrqState :=
  match s.pics.acknowledge with
  | none => none
  | some (pics, n) =>
    if interruptEntry (idtMemory s.idt) none n = some (addr .irq0) then
      let timer := pitHandler s.timer processCount
      some { s with timer, pics := sendAll pics (timer.ports.drop s.timer.ports.length) }
    else if interruptEntry (idtMemory s.idt) none n = some (addr .irq1) then
      let out := keyboardHandlerOut s.kb scancode
      some { s with kb := out.1, pics := sendAll pics out.2 }
    else none

inductive IrqOp where
  | raise (irq : Fin 16)
  | accept (scancode : UInt8) (processCount : Nat)

inductive IrqStep (addr : Stub → Nat) : IrqState → IrqOp → IrqState → Prop
  | raise {s irq} : IrqStep addr s (.raise irq) { s with pics := s.pics.raise irq }
  | accept {s s' scancode processCount} : acceptIrq addr s scancode processCount = some s' →
      IrqStep addr s (.accept scancode processCount) s'

/-- Nothing is in service, and all lines but 0 and 1 are masked. -/
structure IrqInv (addr : Stub → Nat) (s : IrqState) : Prop where
  idt : ∃ t, s.idt = kernelIdt addr t
  offset : s.pics.master.offset = 32
  mask : ∀ k, s.pics.master.imr k = decide (2 ≤ k.val)
  idle : ∀ k, s.pics.master.isr k = false
  slave : ∀ k, s.pics.slave.imr k = true

variable {s s' : IrqState} {scancode : UInt8} {processCount : Nat} {op : IrqOp} {ops : List IrqOp}

/-- However the controllers were left, `pic_remap` sets them up. -/
theorem IrqInv.init (addr : Stub → Nat) (s : IrqState) : IrqInv addr (irqInit addr s) := by
  have hmaster : ∀ k : Fin 8, (0xFC : UInt8).toNat.testBit k = decide (2 ≤ k.val) := by decide
  have hslave : ∀ k : Fin 8, (0xFF : UInt8).toNat.testBit k = true := by decide
  exact ⟨⟨s.idt, rfl⟩, rfl, hmaster, fun _ => rfl, hslave⟩

theorem IrqInv.slave_quiet (h : IrqInv addr s) : s.pics.slave.pending = none := by
  have hnone : Pic.first (fun k => s.pics.slave.irr k && !s.pics.slave.imr k) = none := by
    simp [Pic.first_eq_none, h.slave]
  rw [Pic.pending, hnone]

/-- The line that is taken next: the timer before the keyboard. -/
theorem IrqInv.pending_eq (h : IrqInv addr s) : s.pics.master.pending =
    if s.pics.master.irr 0 then some 0 else if s.pics.master.irr 1 then some 1 else none := by
  rw [Pic.pending_idle h.idle]
  have hmask : (fun k => s.pics.master.irr k && !s.pics.master.imr k) =
      fun k : Fin 8 => s.pics.master.irr k && !decide (2 ≤ k.val) := by
    funext k
    rw [h.mask]
  have hlines : List.finRange 8 = [0, 1, 2, 3, 4, 5, 6, 7] := by decide
  rw [hmask, Pic.first, hlines]
  cases h0 : s.pics.master.irr 0 <;> cases h1 : s.pics.master.irr 1 <;> simp [h0, h1]

/-- The timer's handler sends one end-of-interrupt command, on every way through it. -/
theorem pitHandler_ports (τ : Timer) (processCount : Nat) :
    (pitHandler τ processCount).ports = τ.ports ++ [(0x20, 0x20)] := by
  have htick : ∀ τ : Timer, (schedulerTick τ processCount).ports = τ.ports := by
    intro τ
    unfold schedulerTick
    split
    · rfl
    · dsimp only
      split <;> rfl
  simp [pitHandler, Timer.outb, htick]

/-- An interrupt is that of the timer, or of the keyboard, and its handler ends it. -/
theorem IrqInv.accept_eq (h : IrqInv addr s) (haddr : ∀ s, addr s < 2 ^ 32)
    (hdiff : addr .irq0 ≠ addr .irq1) : acceptIrq addr s scancode processCount =
      if s.pics.master.irr 0 then
        some { s with
          timer := pitHandler s.timer processCount
          pics := { s.pics with master := { s.pics.master with
            irr := Function.update s.pics.master.irr 0 false } } }
      else if s.pics.master.irr 1 then
        some { s with
          kb := keyboardHandler s.kb scancode
          pics := { s.pics with master := { s.pics.master with
            irr := Function.update s.pics.master.irr 1 false } } }
      else none := by
  obtain ⟨t, ht⟩ := h.idt
  have hcascade : s.pics.cascaded = s.pics.master := by simp [Pics.cascaded, h.slave_quiet]
  have hentry : ∀ n < 256, interruptEntry (idtMemory s.idt) none n =
      some (addr (stubFor none n)) := by
    intro n hn
    rw [ht]
    exact interruptEntry_stub haddr t (by decide) hn
  have heoi : ∀ k, sendAll ⟨s.pics.master.serve k, s.pics.slave⟩ [(0x20, 0x20)] =
      { s.pics with master := { s.pics.master with
        irr := Function.update s.pics.master.irr k false } } := by
    intro k
    simp only [sendAll, List.foldl_cons, List.foldl_nil, Pics.outb, if_true,
      Pic.serve_eoi h.idle k]
  simp only [acceptIrq, Pics.acknowledge, hcascade, h.slave_quiet, h.pending_eq, h.offset]
  cases h0 : s.pics.master.irr 0 with
  | true =>
    have h32 : interruptEntry (idtMemory s.idt) none 32 = some (addr .irq0) := hentry 32 (by decide)
    simp only [if_true, Fin.val_zero, Nat.add_zero, h32, pitHandler_ports, List.drop_left, heoi,
      h.offset]
  | false =>
    cases h1 : s.pics.master.irr 1 with
    | true =>
      have h33 : interruptEntry (idtMemory s.idt) none (32 + 1) = some (addr .irq1) :=
        hentry 33 (by decide)
      have hother : ¬ some (addr .irq1) = some (addr .irq0) := by simp [hdiff.symm]
      simp only [Bool.false_eq_true, if_false, if_true, Fin.val_one, h33, if_neg hother,
        keyboardHandlerOut, heoi, h.offset]
    | false => simp

/-- What a request leaves alone. -/
theorem IrqInv.raise (h : IrqInv addr s) (irq : Fin 16) :
    IrqInv addr { s with pics := s.pics.raise irq } := by
  unfold Pics.raise
  split
  · exact ⟨h.idt, h.offset, h.mask, h.idle, h.slave⟩
  · exact ⟨h.idt, h.offset, h.mask, h.idle, h.slave⟩

theorem IrqInv.step (haddr : ∀ s, addr s < 2 ^ 32) (hdiff : addr .irq0 ≠ addr .irq1)
    (hs : IrqStep addr s op s') (h : IrqInv addr s) : IrqInv addr s' := by
  cases hs with
  | raise => exact h.raise _
  | accept hs =>
    rw [h.accept_eq haddr hdiff] at hs
    split at hs
    · obtain rfl := Option.some.inj hs
      exact ⟨h.idt, h.offset, h.mask, h.idle, h.slave⟩
    · split at hs
      · obtain rfl := Option.some.inj hs
        exact ⟨h.idt, h.offset, h.mask, h.idle, h.slave⟩
      · exact absurd hs (by simp)

/-- A step in which the keyboard is not served. -/
structure UnservedStep (addr : Stub → Nat) (s : IrqState) (op : IrqOp) (s' : IrqState) : Prop where
  step : IrqStep addr s op s'
  timer : ∀ scancode processCount, op = .accept scancode processCount →
    s.pics.master.irr 0 = true

def IrqOp.isAccept : IrqOp → Bool
  | .accept _ _ => true
  | _ => false

def IrqOp.isTimer : IrqOp → Bool
  | .raise irq => irq.val = 0
  | _ => false

/-- A request does not take back the others. -/
theorem raise_irr (pics : Pics) (irq : Fin 16) (hkey : pics.master.irr 1 = true) :
    (pics.raise irq).master.irr 1 = true ∧
      (pics.raise irq).master.irr 0 = (pics.master.irr 0 || decide (irq.val = 0)) := by
  unfold Pics.raise
  split
  · rename_i hlow
    simp only [Pic.request, Function.update_apply, hkey]
    refine ⟨by simp, ?_⟩
    by_cases hirq : irq.val = 0
    · simp [hirq]
    · have hne : (0 : Fin 8) ≠ ⟨irq, hlow⟩ := by
        intro heq
        exact hirq (congrArg Fin.val heq).symm
      simp [hne, hirq]
  · rename_i hhigh
    have hirq : irq.val ≠ 0 := by omega
    simp [hkey, hirq]

/-- The interrupts taken in the meantime answer requests of the timer, one each. -/
theorem unserved_run (haddr : ∀ s, addr s < 2 ^ 32) (hdiff : addr .irq0 ≠ addr .irq1)
    (hr : Run (UnservedStep addr) s ops s') (h : IrqInv addr s)
    (hkey : s.pics.master.irr 1 = true) :
    s'.pics.master.irr 1 = true ∧ ops.countP IrqOp.isAccept ≤
      ops.countP IrqOp.isTimer + if s.pics.master.irr 0 then 1 else 0 := by
  induction hr with
  | refl => exact ⟨hkey, by simp⟩
  | @stepL s t u op ops hs hr ih =>
    obtain ⟨hs, hunserved⟩ := hs
    have hinv := h.step haddr hdiff hs
    cases hs with
    | @raise irq =>
      obtain ⟨hkey', hzero⟩ := raise_irr s.pics irq hkey
      obtain ⟨hend, hle⟩ := ih hinv hkey'
      refine ⟨hend, ?_⟩
      simp only [List.countP_cons, IrqOp.isAccept, IrqOp.isTimer, decide_eq_true_eq] at hle ⊢
      rw [hzero] at hle
      by_cases hirq : irq.val = 0
      · simp only [hirq, decide_true, Bool.or_true, if_true] at hle ⊢
        simp only [Bool.false_eq_true, if_false]
        omega
      · simpa [hirq] using hle
    | accept hs =>
      have h0 := hunserved _ _ rfl
      rw [h.accept_eq haddr hdiff, if_pos h0] at hs
      obtain rfl := Option.some.inj hs
      obtain ⟨hend, hle⟩ := ih hinv (by simpa using hkey)
      refine ⟨hend, ?_⟩
      simp only [List.countP_cons, IrqOp.isAccept, IrqOp.isTimer, h0, if_true] at hle ⊢
      simpa using hle

end Lines

end HumanOS

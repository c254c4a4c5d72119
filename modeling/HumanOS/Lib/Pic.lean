import Mathlib.Data.List.FinRange
import Mathlib.Logic.Function.Basic

/-!
An 8259 interrupt controller in the fully nested mode, and two of them in cascade. Of the commands
that rotate the priorities, and of those that select what is read back, nothing is kept.
-/
namespace HumanOS.Lib

/-- The word that the data port takes next. -/
inductive PicAwaits where
  | icw2
  | icw3
  | icw4
  | mask
deriving DecidableEq

/-- The registers: requests, lines in service and masked lines, and the vector of line 0. -/
structure Pic where
  irr : Fin 8 → Bool
  isr : Fin 8 → Bool
  imr : Fin 8 → Bool
  offset : Nat
  awaits : PicAwaits
  single : Bool
  icw4 : Bool

namespace Pic

/-- The first line of a register, that of the highest priority. -/
def first (r : Fin 8 → Bool) : Option (Fin 8) := (List.finRange 8).find? fun k => r k

/-- A write to the command port. -/
def command (p : Pic) (value : UInt8) : Pic :=
  if value &&& 0x10 ≠ 0 then
    { p with
      irr := fun _ => false
      isr := fun _ => false
      imr := fun _ => false
      awaits := .icw2
      single := value &&& 0x02 ≠ 0
      icw4 := value &&& 0x01 ≠ 0 }
  else if value &&& 0x08 ≠ 0 then p
  else if value &&& 0xE0 = 0x20 then
    match first p.isr with
    | some k => { p with isr := Function.update p.isr k false }
    | none => p
  else if value &&& 0xE0 = 0x60 then
    { p with isr := fun k => p.isr k && decide (k.val ≠ value.toNat % 8) }
  else p

/-- A write to the data port. -/
def data (p : Pic) (value : UInt8) : Pic :=
  match p.awaits with
  | .icw2 =>
    { p with
      offset := value.toNat / 8 * 8
      awaits := if p.single then if p.icw4 then .icw4 else .mask else .icw3 }
  | .icw3 => { p with awaits := if p.icw4 then .icw4 else .mask }
  | .icw4 => { p with awaits := .mask }
  | .mask => { p with imr := fun k => value.toNat.testBit k }

/-- The line that the controller asks for: the first that is requested and not masked, if no line
of its priority or a higher one is in service. -/
def pending (p : Pic) : Option (Fin 8) :=
  match first fun k => p.irr k && !p.imr k with
  | some k => if (List.finRange 8).any fun j => p.isr j && decide (j ≤ k) then none else some k
  | none => none

def request (p : Pic) (k : Fin 8) : Pic := { p with irr := Function.update p.irr k true }

/-- The CPU takes the interrupt of a line. -/
def serve (p : Pic) (k : Fin 8) : Pic :=
  { p with irr := Function.update p.irr k false, isr := Function.update p.isr k true }

variable {p : Pic} {r : Fin 8 → Bool} {k : Fin 8}

theorem first_eq_none : first r = none ↔ ∀ k, r k = false := by
  simp [first, List.find?_eq_none]

/-- With nothing in service the controller asks for the first line that may ask. -/
theorem pending_idle (h : ∀ k, p.isr k = false) :
    p.pending = first fun k => p.irr k && !p.imr k := by
  unfold pending
  cases first fun k => p.irr k && !p.imr k with
  | none => rfl
  | some k => simp [h]

/-- A line taken and then ended leaves nothing in service. -/
theorem serve_eoi (h : ∀ k, p.isr k = false) (k : Fin 8) :
    (p.serve k).command 0x20 = { p with irr := Function.update p.irr k false } := by
  have hisr : p.isr = fun _ => false := funext h
  have hfirst : first (Function.update p.isr k true) = some k := by
    rw [hisr]
    revert k
    decide
  have hback : Function.update (Function.update p.isr k true) k false = p.isr := by
    rw [Function.update_idem, Function.update_eq_self_iff, h]
  simp only [command, serve]
  rw [if_neg (by decide), if_neg (by decide), if_pos (by decide), hfirst]
  simp only [hback]

end Pic

/-- Two controllers, the second one on line 2 of the first. -/
structure Pics where
  master : Pic
  slave : Pic

namespace Pics

/-- The command and data ports of both. -/
def outb (s : Pics) (port : Nat) (value : UInt8) : Pics :=
  if port = 0x20 then { s with master := s.master.command value }
  else if port = 0x21 then { s with master := s.master.data value }
  else if port = 0xA0 then { s with slave := s.slave.command value }
  else if port = 0xA1 then { s with slave := s.slave.data value }
  else s

/-- A device asks for one of the sixteen interrupts. -/
def raise (s : Pics) (irq : Fin 16) : Pics :=
  if h : irq.val < 8 then { s with master := s.master.request ⟨irq, h⟩ }
  else { s with slave := s.slave.request ⟨irq - 8, by omega⟩ }

/-- The first controller, with what the second one asks for. -/
def cascaded (s : Pics) : Pic :=
  if s.slave.pending.isSome then s.master.request 2 else s.master

/-- The CPU takes an interrupt: the vector it is given. -/
def acknowledge (s : Pics) : Option (Pics × Nat) :=
  match s.cascaded.pending with
  | none => none
  | some k =>
    match s.slave.pending with
    | some j =>
      if k = 2 then
        some (⟨s.cascaded.serve k, s.slave.serve j⟩, s.slave.offset + j)
      else some (⟨s.cascaded.serve k, s.slave⟩, s.master.offset + k)
    | none => some (⟨s.cascaded.serve k, s.slave⟩, s.master.offset + k)

end Pics

end HumanOS.Lib

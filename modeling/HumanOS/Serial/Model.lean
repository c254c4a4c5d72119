import HumanOS.Lib.Port

/-!
# The serial port

`drivers/serial.c` against any device behind the ports. The loops that wait take fuel, since the
source does not bound them. Nothing calls `serial_received` and `serial_read`.
-/
namespace HumanOS

open Lib

def com1Port : Nat := 0x3F8

variable {σ : Type*} (D : Device σ)

/-- `serial_init`. -/
def serialInit (s : σ) : σ :=
  let s := D.outb s (com1Port + 1) 0x00
  let s := D.outb s (com1Port + 3) 0x80
  let s := D.outb s (com1Port + 0) 0x03
  let s := D.outb s (com1Port + 1) 0x00
  let s := D.outb s (com1Port + 3) 0x03
  let s := D.outb s (com1Port + 2) 0xC7
  D.outb s (com1Port + 4) 0x0B

/-- `serial_putc`, with the loop over `is_transmit_empty`. -/
def serialPutc (fuel : Nat) (c : UInt8) (s : σ) : Option σ :=
  (waitBit D (com1Port + 5) 0x20 fuel s).map (D.outb · com1Port c)

/-- `serial_puts` for a string up to its NUL; `none` is the NULL pointer. -/
def serialPuts (fuel : Nat) : Option (List UInt8) → σ → Option σ
  | none, s => some s
  | some str, s =>
    str.foldlM (fun s c =>
      if c = 10 then (serialPutc D fuel 13 s).bind (serialPutc D fuel c)
      else serialPutc D fuel c s) s

/-- What goes over the line for a text. -/
def lineBytes (str : List UInt8) : List UInt8 :=
  str.flatMap fun c => if c = 10 then [13, c] else [c]

theorem serialPuts_eq (fuel : Nat) (str : List UInt8) (s : σ) :
    serialPuts D fuel (some str) s =
      (lineBytes str).foldlM (fun s c => serialPutc D fuel c s) s := by
  simp only [serialPuts]
  induction str generalizing s with
  | nil => rfl
  | cons c str ih =>
    have hsplit : lineBytes (c :: str) = (if c = 10 then [13, c] else [c]) ++ lineBytes str := rfl
    rw [hsplit, List.foldlM_append, List.foldlM_cons]
    simp only [ih]
    by_cases hnewline : c = 10
    · simp only [if_pos hnewline, List.foldlM_cons, List.foldlM_nil, Option.bind_eq_bind,
        Option.pure_def, Option.bind_fun_some]
    · simp only [if_neg hnewline, List.foldlM_cons, List.foldlM_nil, Option.bind_eq_bind,
        Option.pure_def, Option.bind_fun_some]

end HumanOS

import Mathlib.Data.List.Basic
import Mathlib.Logic.Function.Basic
import Mathlib.Tactic.Common

/-!
# The screen

The text console of `drivers/vga.c`. Beside its static variables the state lists the indices of
`VGA_BUFFER` that were stored to.
-/
namespace HumanOS

/-- `VGA_BUFFER`, the cursor, and the stores made to the buffer. -/
structure Vga where
  buffer : Int → UInt16
  cursorX : Int
  cursorY : Int
  stores : List Int

def vgaWidth : Nat := 80

def vgaHeight : Nat := 25

/-- `vga_entry`. -/
def vgaEntry (uc color : UInt8) : UInt16 := uc.toUInt16 ||| (color.toUInt16 <<< 8)

def Vga.store (s : Vga) (index : Int) (entry : UInt16) : Vga :=
  { s with
    buffer := Function.update s.buffer index entry
    stores := s.stores ++ [index] }

/-- The loop of `vga_scroll` that moves the rows up, each cell from the row below it. -/
def moveRowsUp (s : Vga) (n : Nat) : Vga :=
  (List.range n).foldl (fun s i => s.store i (s.buffer (i + vgaWidth))) s

/-- The loops that fill the cells from `start` on with white spaces. -/
def fillBlank (start : Nat) (s : Vga) (n : Nat) : Vga :=
  (List.range n).foldl (fun s i => s.store ((start + i : Nat) : Int) (vgaEntry 32 0x0F)) s

/-- `vga_scroll`. -/
def vgaScroll (s : Vga) : Vga :=
  if s.cursorY ≥ vgaHeight then
    let s := moveRowsUp s ((vgaHeight - 1) * vgaWidth)
    let s := fillBlank ((vgaHeight - 1) * vgaWidth) s vgaWidth
    { s with cursorY := (vgaHeight - 1 : Nat) }
  else s

/-- `vga_init`. -/
def vgaInit (s : Vga) : Vga :=
  { fillBlank 0 s (vgaWidth * vgaHeight) with cursorX := 0, cursorY := 0 }

/-- `vga_clear`. -/
def vgaClear (s : Vga) : Vga := vgaInit s

/-- `vga_putc`. -/
def vgaPutc (s : Vga) (c color : UInt8) : Vga :=
  let s :=
    if c = 10 then { s with cursorX := 0, cursorY := s.cursorY + 1 }
    else if c = 8 then
      if s.cursorX > 0 then
        let s := { s with cursorX := s.cursorX - 1 }
        s.store (s.cursorY * vgaWidth + s.cursorX) (vgaEntry 32 color)
      else s
    else
      let s := s.store (s.cursorY * vgaWidth + s.cursorX) (vgaEntry c color)
      { s with cursorX := s.cursorX + 1 }
  let s :=
    if s.cursorX ≥ vgaWidth then { s with cursorX := 0, cursorY := s.cursorY + 1 } else s
  vgaScroll s

/-- `vga_putc` of one coloured character after the other. -/
def putChars (s : Vga) (text : List (UInt8 × UInt8)) : Vga :=
  text.foldl (fun s c => vgaPutc s c.1 c.2) s

/-- `vga_puts` of a text of one colour. -/
def vgaPuts (s : Vga) (text : List UInt8) (color : UInt8) : Vga :=
  putChars s (text.map fun c => (c, color))

end HumanOS

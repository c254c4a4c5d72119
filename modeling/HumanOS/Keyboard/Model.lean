import Mathlib.Logic.Function.Basic

/-!
# The keyboard driver

The ring of `drivers/keyboard.c` between the interrupt handler and its readers. The handler is
given the byte it reads from the port; the end-of-interrupt command changes nothing here.
-/
namespace HumanOS

/-- `kbd_buffer`, `kbd_head`, `kbd_tail` and `is_e0_prefix`. -/
structure Keyboard where
  buffer : Nat → UInt8
  head : Nat
  tail : Nat
  isE0Prefix : Bool

def keyUp : UInt8 := 0x80

def keyDown : UInt8 := 0x81

/-- The bytes of a row of characters in the scancode table. -/
def keyRow (row : String) : List UInt8 := row.toList.map fun c => UInt8.ofNat c.toNat

/-- `scancode_ascii`; the entries after the last one listed are 0. -/
def scancodeAscii : List UInt8 :=
  [0, 27] ++ keyRow "1234567890-=\x08" ++ keyRow "\tqwertyuiop[]\n" ++
    [0] ++ keyRow "asdfghjkl;'`" ++ [0] ++ keyRow "\\zxcvbnm,./" ++ [0] ++
    keyRow "*" ++ [0] ++ keyRow " " ++ List.replicate 17 0 ++
    [keyUp] ++ List.replicate 8 0 ++ [keyDown]

/-- `keyboard_getchar`; 0 when there is nothing to read. -/
def keyboardGetchar (kb : Keyboard) : Keyboard × UInt8 :=
  if kb.head = kb.tail then (kb, 0)
  else ({ kb with tail := (kb.tail + 1) % 128 }, kb.buffer kb.tail)

/-- The end of `keyboard_handler`: put a character into the ring if there is room. -/
def Keyboard.put (kb : Keyboard) (c : UInt8) : Keyboard :=
  let nextHead := (kb.head + 1) % 128
  if c ≠ 0 ∧ nextHead ≠ kb.tail then
    { kb with buffer := Function.update kb.buffer kb.head c, head := nextHead }
  else kb

/-- `keyboard_handler` for one scancode. -/
def keyboardHandler (kb : Keyboard) (scancode : UInt8) : Keyboard :=
  if scancode = 0xE0 then { kb with isE0Prefix := true }
  else if scancode &&& 0x80 = 0 then
    if kb.isE0Prefix then
      { kb with isE0Prefix := false }.put
        (if scancode = 0x48 then keyUp else if scancode = 0x50 then keyDown else 0)
    else kb.put (scancodeAscii.getD scancode.toNat 0)
  else { kb with isE0Prefix := false }

end HumanOS

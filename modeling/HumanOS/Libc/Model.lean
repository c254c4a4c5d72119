import HumanOS.Lib.Stack

/-!
# The C library

The conversions and the formatted output of `user/libc.c`. A string is the memory behind its
pointer; `int` is 32 bits wide and wraps. Loops take fuel, and `none` means that they have not
come to an end yet.
-/
namespace HumanOS

open Lib

section Numbers

/-- `strlen`, from index `len` on. -/
def strlen (str : Nat → UInt8) : Nat → Nat → Option Nat
  | 0, _ => none
  | fuel + 1, len => if str len ≠ 0 then strlen str fuel (len + 1) else some len

/-- The loop of `atoi` over the leading spaces. -/
def skipSpaces (str : Nat → UInt8) : Nat → Nat → Option Nat
  | 0, _ => none
  | fuel + 1, i => if str i = 32 then skipSpaces str fuel (i + 1) else some i

/-- The loop of `atoi` over the digits. -/
def readDigits (str : Nat → UInt8) : Nat → Nat → Word → Option Word
  | 0, _, _ => none
  | fuel + 1, i, res =>
    if 48 ≤ str i ∧ str i ≤ 57 then
      readDigits str fuel (i + 1) (res * 10 + BitVec.ofNat 32 ((str i).toNat - 48))
    else some res

/-- `atoi`. -/
def atoi (fuel : Nat) (str : Nat → UInt8) : Option Word := do
  let i ← skipSpaces str fuel 0
  let (sign, i) : Word × Nat :=
    if str i = 45 then (-1, i + 1) else if str i = 43 then (1, i + 1) else (1, i)
  let res ← readDigits str fuel i 0
  return res * sign

/-- A digit as `itoa` writes it. -/
def digitChar (rem : Nat) : UInt8 :=
  if rem > 9 then UInt8.ofNat (rem - 10 + 97) else UInt8.ofNat (rem + 48)

/-- The division loop of `itoa`: the digits from index `i` on, the lowest first. -/
def writeDigits (base : Nat) : Nat → Nat → Nat → (Nat → UInt8) → Option (Nat × (Nat → UInt8))
  | 0, _, _, _ => none
  | fuel + 1, num, i, str =>
    if num ≠ 0 then
      writeDigits base fuel (num / base) (i + 1) (Function.update str i (digitChar (num % base)))
    else some (i, str)

/-- The loop of `itoa` that swaps the ends of what was written. -/
def swapEnds : Nat → Nat → Nat → (Nat → UInt8) → Option (Nat → UInt8)
  | 0, _, _, _ => none
  | fuel + 1, start, stop, str =>
    if start < stop then
      let temp := str start
      let str := Function.update str start (str stop)
      let str := Function.update str stop temp
      swapEnds fuel (start + 1) (stop - 1) str
    else some str

/-- `itoa`; the memory of `str` afterwards. -/
def itoa (fuel : Nat) (value : Word) (str : Nat → UInt8) (base : Int) : Option (Nat → UInt8) :=
  if base < 2 ∨ base > 36 then some (Function.update str 0 0)
  else
    let isNeg : Bool := value.toInt < 0 ∧ base = 10
    let num := if isNeg then (-value).toNat else value.toNat
    if num = 0 then
      let str := Function.update str 0 48
      some (Function.update str 1 0)
    else do
      let (i, str) ← writeDigits base.toNat fuel num 0 str
      let (i, str) := if isNeg then (i + 1, Function.update str i 45) else (i, str)
      let str := Function.update str i 0
      swapEnds fuel 0 (i - 1) str

end Numbers

section Output

/-- A call of `printf` while it runs: the indices at which the format was read, how many
arguments were taken, the bytes of each `sys_write`, its buffer and the count it returns. -/
structure Printf where
  reads : List Nat
  taken : Nat
  written : List (List UInt8)
  buf : Nat → UInt8
  count : Word

def Printf.read (p : Printf) (i : Nat) : Printf := { p with reads := p.reads ++ [i] }

/-- `va_arg`. -/
def Printf.take (p : Printf) : Printf := { p with taken := p.taken + 1 }

/-- `count += sys_write(1, ...)`; `ret` is what the kernel returns of each call. -/
def Printf.write (ret : Nat → Word) (p : Printf) (bytes : List UInt8) : Printf :=
  { p with
    written := p.written ++ [bytes]
    count := p.count + ret p.written.length }

/-- `sys_write(1, s, strlen(s))`. -/
def Printf.writeString (ret : Nat → Word) (fuel : Nat) (p : Printf) (s : Nat → UInt8) :
    Option Printf := do
  let len ← strlen s fuel 0
  return p.write ret ((List.range len).map s)

variable (ret : Nat → Word) (mem : Word → UInt8) (args : Nat → Word)

/-- The string literal for a null pointer. -/
def nullText : List UInt8 := [40, 110, 117, 108, 108, 41]

/-- The conversion of one argument to a number in some base. -/
def printfNumber (fuel : Nat) (p : Printf) (base : Int) : Option Printf := do
  let val := args p.taken
  let p := p.take
  let buf ← itoa fuel val p.buf base
  Printf.writeString ret fuel { p with buf } buf

/-- What `printf` does at the character after a `%`. -/
def printfSpecifier (fuel : Nat) (p : Printf) (c : UInt8) : Option Printf :=
  if c = 115 then
    let s := args p.taken
    let p := p.take
    if s = 0 then p.writeString ret fuel fun k => nullText.getD k 0
    else p.writeString ret fuel fun k => mem (s + BitVec.ofNat 32 k)
  else if c = 100 then printfNumber ret args fuel p 10
  else if c = 120 then printfNumber ret args fuel p 16
  else if c = 99 then
    let c := (args p.taken).setWidth 8
    let p := p.take
    some (p.write ret [UInt8.ofBitVec c])
  else if c = 37 then some (p.write ret [37])
  else some p

/-- The loop of `printf` from index `i` of the format on. -/
def printfLoop (fuel : Nat) (format : Word) : Nat → Nat → Printf → Option Printf
  | 0, _, _ => none
  | rounds + 1, i, p => do
    let p := p.read i
    let c := mem (format + BitVec.ofNat 32 i)
    if c = 0 then return p
    else if c = 37 then
      let i := i + 1
      let p := p.read i
      let p ← printfSpecifier ret mem args fuel p (mem (format + BitVec.ofNat 32 i))
      printfLoop fuel format rounds (i + 1) p
    else printfLoop fuel format rounds (i + 1) (p.write ret [c])

/-- `printf`; `buf` is what its buffer holds at first. -/
def printf (fuel : Nat) (format : Word) (buf : Nat → UInt8) : Option Printf :=
  printfLoop ret mem args fuel format fuel 0 ⟨[], 0, [], buf, 0⟩

end Output

end HumanOS

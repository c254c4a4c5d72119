import HumanOS.Scheduler.Model

/-!
# The timer

`kernel/pit.c`, `scheduler_tick` and `scheduler_check` of `kernel/scheduler.c`, and what
`irq0_stub` does between its pushes and its pops. The state lists the bytes sent to ports.
-/
namespace HumanOS

open Lib

def pitFrequency : Nat := 1193182

/-- `pit_ticks`, the `tick_counter` of `scheduler_tick`, `schedule_needed`, the bytes sent to
ports and the console. -/
structure Timer where
  pitTicks : Nat
  tickCounter : Nat
  scheduleNeeded : Bool
  ports : List (Nat × UInt8)
  console : List (String × Nat)

def Timer.outb (t : Timer) (port : Nat) (value : UInt8) : Timer :=
  { t with ports := t.ports ++ [(port, value)] }

def Timer.puts (t : Timer) (text : String) (color : Nat) : Timer :=
  { t with console := t.console ++ [(text, color)] }

/-- The timer before `pit_init`. -/
def Timer.powerOn : Timer := ⟨0, 0, false, [], []⟩

/-- `pit_init`; `none` is the fault of a division by zero. -/
def pitInit (t : Timer) (frequency : Nat) : Option Timer :=
  if frequency = 0 then none
  else
    let divisor := pitFrequency / frequency
    let t := t.outb 0x43 (0x00 ||| 0x30 ||| 0x06 ||| 0x00)
    let t := t.outb 0x40 (UInt8.ofNat divisor)
    let t := t.outb 0x40 (UInt8.ofNat (divisor >>> 8))
    let t := t.puts "[PIT] Initialized at " 0x1A
    let t := t.puts (digitLoop (BitVec.ofNat 32 frequency).toInt) 0x1A
    some (t.puts " Hz\n" 0x1A)

/-- `scheduler_tick`. -/
def schedulerTick (t : Timer) (processCount : Nat) : Timer :=
  if processCount ≤ 1 then t
  else
    let t := { t with tickCounter := add32 t.tickCounter 1 }
    if t.tickCounter ≥ 10 then { t with tickCounter := 0, scheduleNeeded := true } else t

/-- `pit_handler`. -/
def pitHandler (t : Timer) (processCount : Nat) : Timer :=
  (schedulerTick { t with pitTicks := (t.pitTicks + 1) % 2 ^ 64 } processCount).outb 0x20 0x20

/-- The body of `irq0_stub`; `currentEsp` is where the pushed frame ends. -/
def irq0Tick (t : Timer) (s : Sched) (currentEsp : Word) : Timer × Sched :=
  let t := pitHandler t s.processCount
  if t.scheduleNeeded then
    ({ t with scheduleNeeded := false }, (schedulerYieldImpl s currentEsp).1)
  else (t, s)

/-- `scheduler_check`. -/
def schedulerCheck (t : Timer) (s : Sched) (currentEsp : Word) : Timer × Sched :=
  if t.scheduleNeeded then ({ t with scheduleNeeded := false }, schedulerYield s currentEsp)
  else (t, s)

end HumanOS

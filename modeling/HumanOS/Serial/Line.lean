import HumanOS.Serial.Model

/-!
# The line behind the serial port

A 16550 as far as the driver uses it. A byte takes its time, during which the transmitter is not
empty and loses what is written to it; `none` is a transmitter that never gets empty again.
-/
namespace HumanOS

open Lib

structure Uart where
  ier : UInt8
  fcr : UInt8
  lcr : UInt8
  mcr : UInt8
  dll : UInt8
  dlm : UInt8
  busy : Option Nat
  sent : List UInt8

namespace Uart

/-- The divisor latch takes the place of the first two registers. -/
def dlab (u : Uart) : Bool := u.lcr &&& 0x80 ≠ 0

/-- The port after a byte that was sent; `latency` is how long each byte takes. -/
def next (latency : Nat → Option Nat) (u : Uart) (c : UInt8) : Uart :=
  { u with busy := latency u.sent.length, sent := u.sent ++ [c] }

/-- Write a byte to be sent, which is lost unless the transmitter is empty. -/
def transmit (latency : Nat → Option Nat) (u : Uart) (c : UInt8) : Uart :=
  if u.busy = some 0 then u.next latency c else u

def device (latency : Nat → Option Nat) : Device Uart where
  inb u port :=
    if port = com1Port + 5 then
      (if u.busy = some 0 then 0x60 else 0x00, { u with busy := u.busy.map (· - 1) })
    else (0x00, u)
  inw u _ := (0x0000, u)
  outb u port value :=
    if port = com1Port then if u.dlab then { u with dll := value } else u.transmit latency value
    else if port = com1Port + 1 then
      if u.dlab then { u with dlm := value } else { u with ier := value }
    else if port = com1Port + 2 then { u with fcr := value }
    else if port = com1Port + 3 then { u with lcr := value }
    else if port = com1Port + 4 then { u with mcr := value }
    else u
  outw u _ _ := u

/-- The time the next bytes have to wait for the transmitter, one after the other. -/
def wait (latency : Nat → Option Nat) (u : Uart) : Nat → Option Nat
  | 0 => u.busy
  | k + 1 => latency (u.sent.length + k)

end Uart

variable {latency : Nat → Option Nat} {u u' : Uart} {fuel n : Nat} {c : UInt8} {bytes : List UInt8}

section Sending

/-- The status, read while the transmitter is empty. -/
theorem inb_empty (h : u.busy = some 0) :
    (Uart.device latency).inb u (com1Port + 5) = (0x60, { u with busy := some 0 }) := by
  simp [Uart.device, h]

/-- The status, read while a byte is sent. -/
theorem inb_sending (h : u.busy ≠ some 0) :
    (Uart.device latency).inb u (com1Port + 5) = (0x00, { u with busy := u.busy.map (· - 1) }) := by
  simp [Uart.device, h]

/-- The loop ends when the transmitter is empty. -/
theorem waitBit_uart (h : u.busy = some n) :
    waitBit (Uart.device latency) (com1Port + 5) 0x20 fuel u =
      if n < fuel then some { u with busy := some 0 } else none := by
  induction fuel generalizing u n with
  | zero => rfl
  | succ fuel ih =>
    rw [waitBit]
    cases n with
    | zero =>
      rw [inb_empty h, if_pos (Nat.succ_pos fuel)]
      exact if_neg (by decide)
    | succ n =>
      have hnext : ({ u with busy := u.busy.map (· - 1) } : Uart).busy = some n := by
        rw [h]
        rfl
      rw [inb_sending (by simp [h])]
      refine (if_pos (by decide)).trans ?_
      rw [ih hnext]
      simp only [Nat.add_lt_add_iff_right]

/-- A transmitter that is stuck keeps the loop. -/
theorem waitBit_stuck (h : u.busy = none) :
    waitBit (Uart.device latency) (com1Port + 5) 0x20 fuel u = none := by
  induction fuel generalizing u with
  | zero => rfl
  | succ fuel ih =>
    have hnext : ({ u with busy := u.busy.map (· - 1) } : Uart).busy = none := by
      rw [h]
      rfl
    rw [waitBit, inb_sending (by simp [h])]
    exact (if_pos (by decide)).trans (ih hnext)

theorem serialPutc_uart (hdlab : u.dlab = false) (h : u.busy = some n) :
    serialPutc (Uart.device latency) fuel c u =
      if n < fuel then some (u.next latency c) else none := by
  have hsend : (Uart.device latency).outb { u with busy := some 0 } com1Port c =
      u.next latency c := by
    have hempty : ({ u with busy := some 0 } : Uart).dlab = false := hdlab
    simp [Uart.device, hempty, Uart.transmit, Uart.next]
  rw [serialPutc, waitBit_uart h]
  split
  · exact congrArg some hsend
  · rfl

theorem serialPutc_stuck (h : u.busy = none) :
    serialPutc (Uart.device latency) fuel c u = none := by
  rw [serialPutc, waitBit_stuck h]
  rfl

theorem wait_next (k : Nat) : (u.next latency c).wait latency k = u.wait latency (k + 1) := by
  cases k with
  | zero => rfl
  | succ k =>
    simp only [Uart.wait, Uart.next, List.length_append, List.length_singleton]
    rw [Nat.add_assoc, Nat.add_comm 1 k]

/-- The bytes that were to be sent have been sent, each after a wait that came to an end. -/
theorem sendAll_sent (hdlab : u.dlab = false)
    (h : bytes.foldlM (fun u c => serialPutc (Uart.device latency) fuel c u) u = some u') :
    u'.sent = u.sent ++ bytes ∧ ∀ k < bytes.length, (u.wait latency k).isSome := by
  induction bytes generalizing u with
  | nil =>
    obtain rfl : u = u' := by simpa using h
    exact ⟨by simp, by simp⟩
  | cons c bytes ih =>
    rw [List.foldlM_cons] at h
    cases hbusy : u.busy with
    | none =>
      rw [serialPutc_stuck hbusy] at h
      exact absurd h (by simp)
    | some n =>
      rw [serialPutc_uart hdlab hbusy] at h
      split at h
      · obtain ⟨hsent, hwait⟩ := ih (u := u.next latency c) hdlab h
        refine ⟨?_, ?_⟩
        · rw [hsent, Uart.next, List.append_assoc, List.singleton_append]
        · intro k hk
          cases k with
          | zero => simp [Uart.wait, hbusy]
          | succ k =>
            rw [← wait_next (c := c)]
            exact hwait k (by simpa using hk)
      · exact absurd h (by simp)

/-- Where every wait comes to an end, so does the sending. -/
theorem sendAll_ends (hdlab : u.dlab = false)
    (h : ∀ k < bytes.length, (u.wait latency k).isSome) : ∃ least, ∀ fuel, least ≤ fuel →
      ∃ u', bytes.foldlM (fun u c => serialPutc (Uart.device latency) fuel c u) u = some u' := by
  induction bytes generalizing u with
  | nil => exact ⟨0, fun _ _ => ⟨u, rfl⟩⟩
  | cons c bytes ih =>
    obtain ⟨n, hbusy⟩ := Option.isSome_iff_exists.mp (h 0 (by simp))
    obtain ⟨least, hrest⟩ := ih (u := u.next latency c) hdlab fun k hk => by
      rw [wait_next]
      exact h (k + 1) (by simpa using hk)
    refine ⟨max (n + 1) least, fun fuel hfuel => ?_⟩
    rw [List.foldlM_cons, serialPutc_uart hdlab hbusy, if_pos (by omega)]
    exact hrest fuel (by omega)

end Sending

/-- A list of texts sent one after the other. -/
def serialPutsAll {σ : Type*} (D : Device σ) (fuel : Nat) (texts : List (List UInt8)) (s : σ) :
    Option σ :=
  texts.foldlM (fun s text => serialPuts D fuel (some text) s) s

theorem serialPutsAll_eq {σ : Type*} (D : Device σ) (fuel : Nat) (texts : List (List UInt8))
    (s : σ) : serialPutsAll D fuel texts s =
      (texts.flatMap lineBytes).foldlM (fun s c => serialPutc D fuel c s) s := by
  unfold serialPutsAll
  induction texts generalizing s with
  | nil => rfl
  | cons text texts ih =>
    rw [List.foldlM_cons, List.flatMap_cons, List.foldlM_append, serialPuts_eq]
    simp only [ih]

/-- What `serial_init` leaves, whatever the port was set to. -/
def Uart.initialised (u : Uart) : Uart :=
  { u with
    ier := if u.dlab then u.ier else 0
    fcr := 0xC7
    lcr := 0x03
    mcr := 0x0B
    dll := 3
    dlm := 0 }

theorem initialised_dlab : u.initialised.dlab = false := by
  have hlcr : u.initialised.lcr = 0x03 := rfl
  rw [Uart.dlab, hlcr]
  rfl

/-- The latch is open for the two writes of the divisor. -/
theorem outb_divisor (h : u.lcr = 0x80) (low high : UInt8) :
    (Uart.device latency).outb ((Uart.device latency).outb u (com1Port + 0) low) (com1Port + 1)
      high = { u with dll := low, dlm := high } := by
  have hopen : ∀ v : Uart, v.lcr = 0x80 → v.dlab = true := by
    intro v hlcr
    rw [Uart.dlab, hlcr]
    rfl
  have hlow : (Uart.device latency).outb u (com1Port + 0) low = { u with dll := low } := by
    simp [Uart.device, hopen u h]
  rw [hlow]
  simp [Uart.device, hopen { u with dll := low } h]

theorem serialInit_uart : serialInit (Uart.device latency) u = u.initialised := by
  have hfirst : (Uart.device latency).outb u (com1Port + 1) 0 =
      if u.dlab then { u with dlm := 0 } else { u with ier := 0 } := by
    simp [Uart.device]
  have hlcr : ∀ v c, (Uart.device latency).outb v (com1Port + 3) c = { v with lcr := c } := by
    simp [Uart.device]
  have hfcr : ∀ v c, (Uart.device latency).outb v (com1Port + 2) c = { v with fcr := c } := by
    simp [Uart.device]
  have hmcr : ∀ v c, (Uart.device latency).outb v (com1Port + 4) c = { v with mcr := c } := by
    simp [Uart.device]
  simp only [serialInit, hlcr]
  rw [outb_divisor rfl, hfcr, hmcr, hfirst, Uart.initialised]
  split
  · rfl
  · rfl

/-- `serial_init` sets the line to 38400 baud and eight bits without parity, whatever the port was
set to, and sends nothing; interrupts stay on if the divisor latch was open. Texts sent then go
over the line as they are, with a carriage return before each newline and no byte lost, and
sending them ends exactly if the transmitter gets empty before each of their bytes. -/
theorem serial_line (latency : Nat → Option Nat) (u : Uart) (texts : List (List UInt8)) :
    serialInit (Uart.device latency) u = u.initialised ∧
    (∀ fuel w, serialPutsAll (Uart.device latency) fuel texts u.initialised = some w →
      w.sent = u.sent ++ texts.flatMap lineBytes) ∧
    ((∃ fuel w, serialPutsAll (Uart.device latency) fuel texts u.initialised = some w) ↔
      ∀ k < (texts.flatMap lineBytes).length, (u.wait latency k).isSome) := by
  have hdlab : u.initialised.dlab = false := initialised_dlab
  have hwait : ∀ k, u.initialised.wait latency k = u.wait latency k := by
    intro k
    cases k <;> rfl
  refine ⟨serialInit_uart, ?_, ?_⟩
  · intro fuel w hall
    rw [serialPutsAll_eq] at hall
    exact (sendAll_sent hdlab hall).1
  · simp only [serialPutsAll_eq, ← hwait]
    constructor
    · rintro ⟨fuel, w, hall⟩
      exact (sendAll_sent hdlab hall).2
    · intro h
      obtain ⟨least, hends⟩ := sendAll_ends hdlab h
      exact ⟨least, hends least (Nat.le_refl least)⟩

end HumanOS

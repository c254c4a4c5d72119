import Mathlib.Data.List.Basic
import Mathlib.Tactic.Common

/-! Devices behind I/O ports, the accesses made to them, and loops that poll them. -/
namespace HumanOS.Lib

/-- What a device answers at its ports, and how it goes on. -/
structure Device (σ : Type*) where
  inb : σ → Nat → UInt8 × σ
  inw : σ → Nat → UInt16 × σ
  outb : σ → Nat → UInt8 → σ
  outw : σ → Nat → UInt16 → σ

/-- One access, with the value that went over the bus. -/
inductive Access where
  | inb (port : Nat) (value : UInt8)
  | inw (port : Nat) (value : UInt16)
  | outb (port : Nat) (value : UInt8)
  | outw (port : Nat) (value : UInt16)
deriving DecidableEq

def Access.port : Access → Nat
  | .inb port _ | .inw port _ | .outb port _ | .outw port _ => port

/-- The bytes that an access moves, each at a port of its own. -/
def Access.width : Access → Nat
  | .inb _ _ | .outb _ _ => 1
  | .inw _ _ | .outw _ _ => 2

variable {σ : Type*} {D : Device σ} {port n : Nat} {stop : Nat → UInt8 → Option Bool}

/-- The device with the accesses made to it. -/
def Device.traced (D : Device σ) : Device (σ × List Access) where
  inb s port := ((D.inb s.1 port).1, (D.inb s.1 port).2, s.2 ++ [.inb port (D.inb s.1 port).1])
  inw s port := ((D.inw s.1 port).1, (D.inw s.1 port).2, s.2 ++ [.inw port (D.inw s.1 port).1])
  outb s port value := (D.outb s.1 port value, s.2 ++ [.outb port value])
  outw s port value := (D.outw s.1 port value, s.2 ++ [.outw port value])

/-- Read a port until `stop`, given the reads that are left, says what to return; without a
verdict the result is `false`. -/
def poll (D : Device σ) (port : Nat) (stop : Nat → UInt8 → Option Bool) :
    Nat → σ → σ × Bool
  | 0, s => (s, false)
  | n + 1, s =>
    let (status, s) := D.inb s port
    match stop n status with
    | some verdict => (s, verdict)
    | none => poll D port stop n s

/-- Read a port until one of the bits of `mask` is set. -/
def waitBit (D : Device σ) (port : Nat) (mask : UInt8) : Nat → σ → Option σ
  | 0, _ => none
  | fuel + 1, s =>
    let (value, s) := D.inb s port
    if value &&& mask = 0 then waitBit D port mask fuel s else some s

/-- Read that many words from a port. -/
def readWords (D : Device σ) (port : Nat) : Nat → σ → σ × List UInt16
  | 0, s => (s, [])
  | n + 1, s =>
    let (word, s) := D.inw s port
    let (s, words) := readWords D port n s
    (s, word :: words)

/-- Write words to a port. -/
def writeWords (D : Device σ) (port : Nat) (words : List UInt16) (s : σ) : σ :=
  words.foldl (fun s word => D.outw s port word) s

/-- A loop that polls makes nothing but reads of its port, one for each turn. -/
theorem poll_traced (D : Device σ) (port : Nat) (stop : Nat → UInt8 → Option Bool)
    (s : σ × List Access) : ∃ answers : List UInt8, answers.length ≤ n ∧
    (poll D.traced port stop n s).1.2 = s.2 ++ answers.map (Access.inb port) := by
  induction n generalizing s with
  | zero => exact ⟨[], Nat.le_refl _, by simp [poll]⟩
  | succ n ih =>
    simp only [poll]
    cases hstop : stop n (D.traced.inb s port).1 with
    | some verdict => exact ⟨[(D.inb s.1 port).1], by simp, by simp [Device.traced]⟩
    | none =>
      obtain ⟨answers, hle, hlog⟩ := ih (D.traced.inb s port).2
      refine ⟨(D.inb s.1 port).1 :: answers, by simpa using hle, ?_⟩
      simp only [hlog]
      simp [Device.traced]

/-- A loop that waits for a bit makes nothing but reads of its port. -/
theorem waitBit_traced {mask : UInt8} {fuel : Nat} {s t : σ × List Access}
    (h : waitBit D.traced port mask fuel s = some t) :
    ∃ answers : List UInt8, t.2 = s.2 ++ answers.map (Access.inb port) := by
  induction fuel generalizing s with
  | zero => simp [waitBit] at h
  | succ fuel ih =>
    rw [waitBit] at h
    dsimp only at h
    split at h
    · obtain ⟨answers, hlog⟩ := ih h
      refine ⟨(D.inb s.1 port).1 :: answers, ?_⟩
      rw [hlog]
      simp [Device.traced]
    · obtain rfl := Option.some.inj h
      exact ⟨[(D.inb s.1 port).1], rfl⟩

theorem readWords_length (s : σ) : (readWords D port n s).2.length = n := by
  induction n generalizing s with
  | zero => rfl
  | succ n ih => simp [readWords, ih]

theorem readWords_traced (D : Device σ) (port : Nat) (s : σ × List Access) :
    (readWords D.traced port n s).1.2 =
      s.2 ++ (readWords D.traced port n s).2.map (Access.inw port) := by
  induction n generalizing s with
  | zero => simp [readWords]
  | succ n ih =>
    simp only [readWords, ih, List.map_cons]
    simp [Device.traced]

theorem writeWords_traced (words : List UInt16) (s : σ × List Access) :
    (writeWords D.traced port words s).2 = s.2 ++ words.map (Access.outw port) := by
  induction words generalizing s with
  | nil => simp [writeWords]
  | cons word words ih =>
    have hrest := ih (D.traced.outw s port word)
    simp only [writeWords, List.foldl_cons, List.map_cons] at hrest ⊢
    rw [hrest]
    simp [Device.traced]

/-- A device that goes through states without a verdict is polled through all of them. -/
theorem poll_wait (D : Device σ) (port : Nat) (stop : Nat → UInt8 → Option Bool) {f : Nat → σ}
    {k : Nat} (hwait : ∀ j < k, ∀ left,
    stop left (D.inb (f j) port).1 = none ∧ (D.inb (f j) port).2 = f (j + 1)) :
    poll D port stop (n + k) (f 0) = poll D port stop n (f k) := by
  induction k generalizing f with
  | zero => rfl
  | succ k ih =>
    obtain ⟨hstop, hnext⟩ := hwait 0 (by omega) (n + k)
    rw [← Nat.add_assoc, poll]
    simp only [hstop, hnext]
    exact ih (f := fun j => f (j + 1)) fun j hj => hwait (j + 1) (by omega)

/-- A device that never comes to a verdict is given up. -/
theorem poll_never {s : σ} (h : ∀ left, stop left (D.inb s port).1 = none ∧ (D.inb s port).2 = s) :
    poll D port stop n s = (s, false) := by
  have hwait := poll_wait D port stop (n := 0) (k := n)
    (f := fun _ => s) fun _ _ left => h left
  rwa [Nat.zero_add] at hwait

theorem poll_stop {s : σ} {verdict : Bool} (h : stop n (D.inb s port).1 = some verdict) :
    poll D port stop (n + 1) s = ((D.inb s port).2, verdict) := by
  simp [poll, h]

end HumanOS.Lib

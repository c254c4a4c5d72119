import Mathlib.Tactic.Ring

/-! Wrapping 32-bit arithmetic on naturals and little-endian integers in byte memory. -/
namespace HumanOS.Lib

variable {a b n k v : Nat} {m m' : Nat → UInt8}

def add32 (a b : Nat) : Nat := (a + b) % 2 ^ 32

def sub32 (a b : Nat) : Nat := (a + (2 ^ 32 - b % 2 ^ 32)) % 2 ^ 32

theorem add32_of_lt (h : a + b < 2 ^ 32) : add32 a b = a + b := Nat.mod_eq_of_lt h

theorem sub32_of_le (h : b ≤ a) (ha : a < 2 ^ 32) : sub32 a b = a - b := by
  unfold sub32
  omega

/-- The `n`-byte little-endian integer at address `a`. -/
def loadLE (m : Nat → UInt8) (a : Nat) : Nat → Nat
  | 0 => 0
  | n + 1 => (m a).toNat + 256 * loadLE m (a + 1) n

/-- Byte `k` of the little-endian form of `v`. -/
def byteLE (v k : Nat) : UInt8 := UInt8.ofNat (v / 256 ^ k)

theorem loadLE_lt : loadLE m a n < 256 ^ n := by
  induction n generalizing a with
  | zero => simp [loadLE]
  | succ n ih =>
    have hbyte := (m a).toNat_lt
    have hrest := @ih (a + 1)
    simp only [loadLE, Nat.pow_succ]
    omega

/-- An integer is decided by its own bytes. -/
theorem loadLE_congr (h : ∀ k < n, m (a + k) = m' (a + k)) : loadLE m a n = loadLE m' a n := by
  induction n generalizing a with
  | zero => rfl
  | succ n ih =>
    have hrest : loadLE m (a + 1) n = loadLE m' (a + 1) n := by
      apply ih
      intro k hk
      rw [show a + 1 + k = a + (k + 1) by omega]
      exact h (k + 1) (by omega)
    simp only [loadLE, hrest, show m a = m' a from h 0 (by omega)]

/-- Reading back the bytes of an integer gives it modulo the width read. -/
theorem loadLE_of_bytes (h : ∀ k < n, m (a + k) = byteLE v k) : loadLE m a n = v % 256 ^ n := by
  induction n generalizing a v with
  | zero => simp [loadLE, Nat.mod_one]
  | succ n ih =>
    have hhead := h 0 (by omega)
    have htail : loadLE m (a + 1) n = v / 256 % 256 ^ n := by
      apply ih
      intro k hk
      have hbyte := h (k + 1) (by omega)
      rw [show a + 1 + k = a + (k + 1) by omega, hbyte]
      simp [byteLE, Nat.pow_succ, Nat.div_div_eq_div_mul, Nat.mul_comm]
    simp only [Nat.add_zero] at hhead
    simp only [loadLE, htail, hhead, byteLE, Nat.pow_zero, Nat.div_one, UInt8.toNat_ofNat']
    change v % 256 + 256 * (v / 256 % 256 ^ n) = v % 256 ^ (n + 1)
    rw [show 256 ^ (n + 1) = 256 * 256 ^ n by ring, Nat.mod_mul]

end HumanOS.Lib

import Mathlib.Logic.Function.Basic

/-! A descending stack of 32-bit words in memory addressed by its byte addresses. -/
namespace HumanOS.Lib

abbrev Word := BitVec 32

abbrev Memory := Word → Word

variable {mem mem' : Memory} {esp w : Word} {ws f : List Word}

/-- Push the words one after the other; the first one ends up highest. -/
def pushes (mem : Memory) (esp : Word) : List Word → Memory × Word
  | [] => (mem, esp)
  | w :: ws => pushes (Function.update mem (esp - 4) w) (esp - 4) ws

/-- The word `k` places above the stack pointer. -/
def stackWord (mem : Memory) (esp : Word) (k : Nat) : Word := mem (esp + BitVec.ofNat 32 (4 * k))

/-- The words from the stack pointer upwards. -/
def FrameAt (mem : Memory) (esp : Word) (ws : List Word) : Prop :=
  ∀ k w, ws[k]? = some w → stackWord mem esp k = w

/-- The two memories have the same `n` words from the stack pointer upwards. -/
def SameWords (mem mem' : Memory) (esp : Word) (n : Nat) : Prop :=
  ∀ k < n, stackWord mem' esp k = stackWord mem esp k

theorem FrameAt.nil (mem : Memory) (esp : Word) : FrameAt mem esp [] := by
  intro k w hk
  simp at hk

/-- A frame does not depend on the other words of the memory. -/
theorem FrameAt.congr (h : FrameAt mem esp ws) (hm : SameWords mem mem' esp ws.length) :
    FrameAt mem' esp ws := by
  intro k w hk
  rw [hm k (List.getElem?_eq_some_iff.mp hk).1]
  exact h k w hk

/-- The lower part of a frame. -/
theorem FrameAt.lower (h : FrameAt mem esp (ws ++ f)) : FrameAt mem esp ws := by
  intro k w hk
  apply h k w
  rw [List.getElem?_append_left (List.getElem?_eq_some_iff.mp hk).1]
  exact hk

theorem stackWord_add (n k : Nat) :
    stackWord mem (esp + BitVec.ofNat 32 (4 * n)) k = stackWord mem esp (n + k) := by
  rw [stackWord, stackWord, Nat.mul_add, BitVec.ofNat_add, BitVec.add_assoc]

/-- The upper part of a frame. -/
theorem FrameAt.upper (h : FrameAt mem esp (ws ++ f)) :
    FrameAt mem (esp + BitVec.ofNat 32 (4 * ws.length)) f := by
  intro k w hk
  rw [stackWord_add]
  apply h
  rw [List.getElem?_append_right (by omega), Nat.add_sub_cancel_left]
  exact hk

/-- A frame with the `n` words that lie under it. -/
theorem FrameAt.under {n : Nat} (h : FrameAt mem (esp + BitVec.ofNat 32 (4 * n)) f) :
    FrameAt mem esp ((List.range n).map (stackWord mem esp) ++ f) := by
  intro k w hk
  by_cases hlow : k < n
  · rw [List.getElem?_append_left (by simpa using hlow)] at hk
    simpa [hlow] using hk
  · rw [List.getElem?_append_right (by simpa using hlow), List.length_map, List.length_range] at hk
    have hword := h (k - n) w hk
    rwa [stackWord_add, Nat.add_sub_cancel' (by omega)] at hword

/-- A store to one word of a frame. -/
theorem FrameAt.set {n : Nat} (h : FrameAt mem esp ws) (hn : n < ws.length)
    (hlen : ws.length < 0x40000000) :
    FrameAt (Function.update mem (esp + BitVec.ofNat 32 (4 * n)) w) esp (ws.set n w) := by
  intro k x hk
  by_cases hkn : k = n
  · subst hkn
    obtain rfl : w = x := by simpa [hn] using hk
    simp [stackWord]
  · have hk' : ws[k]? = some x := by simpa [List.getElem?_set, Ne.symm hkn] using hk
    have hlt := (List.getElem?_eq_some_iff.mp hk').1
    have hne : esp + BitVec.ofNat 32 (4 * k) ≠ esp + BitVec.ofNat 32 (4 * n) := by
      bv_omega
    rw [stackWord, Function.update_of_ne hne]
    exact h k x hk'

/-- One push puts its word below the frame. -/
theorem FrameAt.push (h : FrameAt mem esp f) (hlen : f.length + 1 < 0x40000000) :
    FrameAt (Function.update mem (esp - 4) w) (esp - 4) (w :: f) := by
  intro k x hk
  cases k with
  | zero =>
    obtain rfl : w = x := by simpa using hk
    simp [stackWord]
  | succ k =>
    have hk' : f[k]? = some x := by simpa using hk
    have hlt := (List.getElem?_eq_some_iff.mp hk').1
    have haddr : esp - 4 + BitVec.ofNat 32 (4 * (k + 1)) = esp + BitVec.ofNat 32 (4 * k) := by
      bv_omega
    have hne : esp + BitVec.ofNat 32 (4 * k) ≠ esp - 4 := by
      bv_omega
    rw [stackWord, haddr, Function.update_of_ne hne]
    exact h k x hk'

/-- What a sequence of pushes leaves: its words, the last one lowest, under the old frame. -/
theorem FrameAt.pushes (ws : List Word) (h : FrameAt mem esp f)
    (hlen : f.length + ws.length < 0x40000000) :
    FrameAt (pushes mem esp ws).1 (pushes mem esp ws).2 (ws.reverse ++ f) := by
  induction ws generalizing mem esp f with
  | nil => simpa [Lib.pushes] using h
  | cons w ws ih =>
    have hpush := h.push (w := w) (by simp at hlen; omega)
    have hrest := ih hpush (by simp at hlen ⊢; omega)
    simpa [Lib.pushes] using hrest

theorem pushes_esp : (pushes mem esp ws).2 = esp - BitVec.ofNat 32 (4 * ws.length) := by
  induction ws generalizing mem esp with
  | nil => simp [pushes]
  | cons w ws ih =>
    rw [pushes, ih, List.length_cons]
    bv_omega

end HumanOS.Lib

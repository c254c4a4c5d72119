import HumanOS.Lib.Ring
import HumanOS.Syscall.Model

/-!
# Keyboard input over whole histories

The ring between `keyboard_handler` and `SYS_READ` is a queue of at most 127 characters: what has
been read and what is pending are the characters typed, less those that found the queue full.
-/
namespace HumanOS

open Lib

variable {kb : Keyboard} {c scancode : UInt8} {k : Kernel} {buf count : Word} {n room : Nat}

section Ring

/-- The characters in the ring, the oldest first. -/
def Keyboard.pending (kb : Keyboard) : List UInt8 := Ring.contents 128 kb.buffer kb.head kb.tail

/-- Two indices, and characters in between. -/
structure Keyboard.Valid (kb : Keyboard) : Prop where
  head : kb.head < 128
  tail : kb.tail < 128
  chars : 0 ∉ kb.pending

/-- The character of a scancode, 0 for none; `e0` says whether the byte before was 0xE0. -/
def decodeKey (e0 : Bool) (scancode : UInt8) : UInt8 :=
  if scancode &&& 0x80 ≠ 0 then 0
  else if e0 then if scancode = 0x48 then keyUp else if scancode = 0x50 then keyDown else 0
  else scancodeAscii.getD scancode.toNat 0

/-- The handler decodes the byte and remembers whether it was a prefix. -/
theorem keyboardHandler_eq : keyboardHandler kb scancode =
    { kb with isE0Prefix := decide (scancode = 0xE0) }.put (decodeKey kb.isE0Prefix scancode) := by
  unfold keyboardHandler decodeKey
  by_cases hext : scancode = 0xE0
  · subst hext
    have hrelease : (0xE0 : UInt8) &&& 0x80 ≠ 0 := by decide
    simp [Keyboard.put, hrelease]
  · by_cases hpress : scancode &&& 0x80 = 0
    · cases he0 : kb.isE0Prefix with
      | true => simp [hext, hpress]
      | false =>
        have hsame : { kb with isE0Prefix := false } = kb := by rw [← he0]
        simp [hext, hpress, hsame]
    · simp [hext, hpress, Keyboard.put]

theorem Keyboard.Valid.length_le (h : kb.Valid) : kb.pending.length ≤ 127 := by
  have hlt := Ring.size_lt h.head h.tail
  simp only [Keyboard.pending, Ring.length_contents]
  omega

/-- A character is appended unless 127 are pending. -/
theorem Keyboard.Valid.put (h : kb.Valid) :
    (kb.put c).Valid ∧ (kb.put c).pending =
      if c ≠ 0 ∧ kb.pending.length ≠ 127 then kb.pending ++ [c] else kb.pending := by
  have hfull := Ring.full_iff h.head h.tail
  have hlen : kb.pending.length = Ring.size 128 kb.head kb.tail := Ring.length_contents
  by_cases hput : c ≠ 0 ∧ (kb.head + 1) % 128 ≠ kb.tail
  · have hpending : (kb.put c).pending = kb.pending ++ [c] := by
      simp only [Keyboard.put, if_pos hput]
      exact Ring.contents_push h.head h.tail hput.2
    have hspec : c ≠ 0 ∧ kb.pending.length ≠ 127 := by
      rw [hlen]
      exact ⟨hput.1, fun he => hput.2 (hfull.mpr he)⟩
    refine ⟨⟨?_, ?_, ?_⟩, by rw [hpending, if_pos hspec]⟩
    · simp only [Keyboard.put, if_pos hput]
      exact Nat.mod_lt _ (by decide)
    · simp only [Keyboard.put, if_pos hput]
      exact h.tail
    · simp [hpending, h.chars, hput.1.symm]
  · have hsame : kb.put c = kb := by simp only [Keyboard.put, if_neg hput]
    have hspec : ¬ (c ≠ 0 ∧ kb.pending.length ≠ 127) := by
      rintro ⟨hc, hne⟩
      exact hput ⟨hc, fun he => hne (by rw [hlen]; exact hfull.mp he)⟩
    rw [hsame, if_neg hspec]
    exact ⟨h, rfl⟩

theorem keyboardGetchar_empty (h : kb.Valid) (hp : kb.pending = []) :
    keyboardGetchar kb = (kb, 0) := by
  have heq : kb.head = kb.tail := by
    by_contra hne
    simp [Keyboard.pending, Ring.contents_pop h.head h.tail hne] at hp
  simp [keyboardGetchar, heq]

/-- The oldest character is taken out. -/
theorem keyboardGetchar_cons {cs : List UInt8} (h : kb.Valid) (hp : kb.pending = c :: cs) :
    ∃ kb', keyboardGetchar kb = (kb', c) ∧ kb'.Valid ∧ kb'.pending = cs ∧
      kb'.isE0Prefix = kb.isE0Prefix := by
  have hne : kb.head ≠ kb.tail := by
    intro heq
    simp [Keyboard.pending, heq, Ring.contents_self h.tail] at hp
  have hpop : kb.pending = kb.buffer kb.tail ::
      { kb with tail := (kb.tail + 1) % 128 }.pending := Ring.contents_pop h.head h.tail hne
  obtain ⟨rfl, rfl⟩ := List.cons.inj (hp.symm.trans hpop)
  refine ⟨{ kb with tail := (kb.tail + 1) % 128 }, by simp [keyboardGetchar, hne],
    ⟨h.head, Nat.mod_lt _ (by decide), fun hz => ?_⟩, rfl, rfl⟩
  apply h.chars
  rw [hpop]
  exact List.mem_cons_of_mem _ hz

end Ring

section Read

/-- A line feed or a carriage return. -/
def isNewline (c : UInt8) : Prop := c = 10 ∨ c = 13

instance (c : UInt8) : Decidable (isNewline c) := inferInstanceAs (Decidable (_ ∨ _))

/-- The characters up to the first newline, with it. -/
def lineOf : List UInt8 → List UInt8
  | [] => []
  | c :: cs => if isNewline c then [c] else c :: lineOf cs

theorem lineOf_length_le (cs : List UInt8) : (lineOf cs).length ≤ cs.length := by
  induction cs with
  | nil => simp [lineOf]
  | cons c cs ih =>
    simp only [lineOf]
    split
    · simp
    · simpa using ih

/-- A line goes on after no newline. -/
theorem lineOf_newline {cs l r : List UInt8} (h : lineOf cs = l ++ c :: r) (hc : isNewline c) :
    r = [] := by
  induction cs generalizing l with
  | nil => simp [lineOf] at h
  | cons d cs ih =>
    simp only [lineOf] at h
    split at h
    · cases l with
      | nil => simpa using (List.cons.inj h).2.symm
      | cons x l => simp at h
    · rename_i hd
      cases l with
      | nil => exact (hd ((List.cons.inj h).1 ▸ hc)).elim
      | cons x l => exact ih (List.cons.inj h).2

/-- The bytes from an address upwards. -/
def bytesAt (mem : Word → UInt8) (buf : Word) (start n : Nat) : List UInt8 :=
  (List.range n).map fun i => mem (buf + BitVec.ofNat 32 (start + i))

theorem bytesAt_cons {mem : Word → UInt8} {start : Nat} :
    bytesAt mem buf start (n + 1) =
      mem (buf + BitVec.ofNat 32 start) :: bytesAt mem buf (start + 1) n := by
  simp only [bytesAt, List.range_succ_eq_map, List.map_cons, List.map_map, Nat.add_zero]
  congr 1
  apply List.map_congr_left
  intro i _
  simp only [Function.comp_apply]
  rw [show start + (i + 1) = start + 1 + i by omega]

/-- The loop of `SYS_READ` takes a line out of the ring, but for the room in the buffer. -/
theorem readLoop_spec (buf : Word) (room : Nat) (h : k.keyboard.Valid)
    (hroom : n + room ≤ 2 ^ 32) :
    ∃ k', readLoop buf room n k = (k', n + (lineOf (k.keyboard.pending.take room)).length) ∧
      k'.keyboard.Valid ∧ k'.keyboard.isE0Prefix = k.keyboard.isE0Prefix ∧
      k.keyboard.pending = lineOf (k.keyboard.pending.take room) ++ k'.keyboard.pending ∧
      bytesAt k'.mem buf n (lineOf (k.keyboard.pending.take room)).length =
        lineOf (k.keyboard.pending.take room) ∧
      ∀ i < n, k'.mem (buf + BitVec.ofNat 32 i) = k.mem (buf + BitVec.ofNat 32 i) := by
  induction room generalizing n k with
  | zero => exact ⟨k, by simp [readLoop, lineOf], h, rfl, by simp [lineOf], rfl, fun _ _ => rfl⟩
  | succ room ih =>
    cases hp : k.keyboard.pending with
    | nil =>
      refine ⟨k, ?_, h, rfl, by simp [lineOf, hp], by simp [lineOf, bytesAt], fun _ _ => rfl⟩
      simp [readLoop, keyboardGetchar_empty h hp, lineOf]
    | cons c cs =>
      obtain ⟨kb, hget, hvalid, hrest, he0⟩ := keyboardGetchar_cons h hp
      have hc : c ≠ 0 := by
        rintro rfl
        exact h.chars (by simp [hp])
      set k1 : Kernel := { k with
        keyboard := kb
        mem := Function.update k.mem (buf + BitVec.ofNat 32 n) c } with hk1
      have hother : ∀ i < n,
          k1.mem (buf + BitVec.ofNat 32 i) = k.mem (buf + BitVec.ofNat 32 i) := by
        intro i hi
        have hne : buf + BitVec.ofNat 32 i ≠ buf + BitVec.ofNat 32 n := by bv_omega
        simp [hk1, Function.update_of_ne hne]
      by_cases hnl : isNewline c
      · refine ⟨k1, ?_, hvalid, he0, ?_, ?_, hother⟩
        · simp only [readLoop, hget]
          rw [if_pos hc, if_pos (show c = 10 ∨ c = 13 from hnl)]
          simp [lineOf, hnl, hk1]
        · simp [lineOf, hnl, hrest, hk1]
        · simp [lineOf, hnl, hk1, bytesAt]
      · obtain ⟨k', hloop, hv', he', hsplit, hbytes, hkeep⟩ := ih (n := n + 1) (k := k1) hvalid
          (by omega)
        have hline : lineOf ((c :: cs).take (room + 1)) = c :: lineOf (cs.take room) := by
          simp [lineOf, hnl]
        have hpend : k1.keyboard.pending = cs := hrest
        rw [hpend] at hloop hsplit hbytes
        refine ⟨k', ?_, hv', he'.trans he0, ?_, ?_, fun i hi => ?_⟩
        · simp only [readLoop, hget]
          rw [if_pos hc, if_neg (show ¬ (c = 10 ∨ c = 13) from hnl), hline, List.length_cons, hloop]
          congr 1
          omega
        · rw [hline, List.cons_append, ← hsplit]
        · rw [hline, List.length_cons, bytesAt_cons, hbytes, hkeep n (by omega)]
          simp [hk1]
        · rw [hkeep i (by omega), hother i hi]

end Read

section History

variable {ok : Nat → Bool} {fuel : Nat} {currentEsp : Word} {op : InputOp} {ops : List InputOp}

/-- An interrupt with its scancode, or a system call that reads from descriptor 0. -/
inductive InputOp where
  | key (scancode : UInt8)
  | read (buf count : Word)

/-- The kernel after the call and the bytes returned in the caller's buffer. -/
def inputCall (ok : Nat → Bool) (fuel : Nat) (currentEsp : Word) (k : Kernel) :
    InputOp → Kernel × List UInt8
  | .key scancode => ({ k with keyboard := keyboardHandler k.keyboard scancode }, [])
  | .read buf count =>
    match syscallHandler ok fuel currentEsp k ⟨sysRead, 0, buf, count⟩ with
    | some (.returns k eax) => (k, bytesAt k.mem buf 0 eax.toNat)
    | _ => (k, [])

/-- The kernel after all calls and the bytes returned by all of them. -/
def inputRun (ok : Nat → Bool) (fuel : Nat) (currentEsp : Word) :
    Kernel → List InputOp → Kernel × List UInt8
  | k, [] => (k, [])
  | k, op :: ops =>
    let (k, bytes) := inputCall ok fuel currentEsp k op
    let (k, rest) := inputRun ok fuel currentEsp k ops
    (k, bytes ++ rest)

/-- The characters that arrive, in order, and whether 127 were pending then; `e0` says whether
the byte before was 0xE0. -/
def arrivals (ok : Nat → Bool) (fuel : Nat) (currentEsp : Word) :
    Bool → Kernel → List InputOp → List (UInt8 × Bool)
  | _, _, [] => []
  | e0, k, .key scancode :: ops =>
    let rest := arrivals ok fuel currentEsp (scancode = 0xE0)
      (inputCall ok fuel currentEsp k (.key scancode)).1 ops
    if decodeKey e0 scancode ≠ 0 then
      (decodeKey e0 scancode, decide (k.keyboard.pending.length = 127)) :: rest
    else rest
  | e0, k, .read buf count :: ops =>
    arrivals ok fuel currentEsp e0 (inputCall ok fuel currentEsp k (.read buf count)).1 ops

/-- The characters that found room. -/
def admitted (as : List (UInt8 × Bool)) : List UInt8 := (as.filter fun a => !a.2).map Prod.fst

theorem inputCall_read (ok : Nat → Bool) (fuel : Nat) (currentEsp buf count : Word)
    (h : k.keyboard.Valid) :
    ∃ k' bytes, inputCall ok fuel currentEsp k (.read buf count) = (k', bytes) ∧
      k'.keyboard.Valid ∧ k'.keyboard.isE0Prefix = k.keyboard.isE0Prefix ∧
      k.keyboard.pending = bytes ++ k'.keyboard.pending ∧ bytes.length ≤ count.toNat ∧
      ∃ cs, bytes = lineOf cs := by
  have hcall : syscallHandler ok fuel currentEsp k ⟨sysRead, 0, buf, count⟩ =
      some (.returns (sysReadCase k ⟨sysRead, 0, buf, count⟩).1
        (sysReadCase k ⟨sysRead, 0, buf, count⟩).2) := by
    simp [syscallHandler, sysYield, sysExit, sysWrite, sysRead]
  simp only [inputCall, hcall]
  by_cases hcase : buf ≠ 0 ∧ count ≠ 0
  · obtain ⟨k', hloop, hv, he, hsplit, hbytes, -⟩ :=
      readLoop_spec buf count.toNat (n := 0) h (by have := count.isLt; omega)
    have hlen := lineOf_length_le (k.keyboard.pending.take count.toNat)
    have hle := h.length_le
    rw [List.length_take] at hlen
    have hread : sysReadCase k ⟨sysRead, 0, buf, count⟩ =
        (k', BitVec.ofNat 32 (lineOf (k.keyboard.pending.take count.toNat)).length) := by
      rw [sysReadCase, if_pos ⟨rfl, hcase⟩]
      simp only [hloop, Nat.zero_add]
    have hnat : (BitVec.ofNat 32 (lineOf (k.keyboard.pending.take count.toNat)).length).toNat =
        (lineOf (k.keyboard.pending.take count.toNat)).length := by
      rw [BitVec.toNat_ofNat, Nat.mod_eq_of_lt (by omega)]
    rw [hread]
    exact ⟨k', _, by rw [hnat, hbytes], hv, he, hsplit, by omega, _, rfl⟩
  · have hread : sysReadCase k ⟨sysRead, 0, buf, count⟩ = (k, 0) := by
      rw [sysReadCase, if_neg fun hc => hcase hc.2]
    rw [hread]
    exact ⟨k, [], rfl, h, rfl, by simp, by simp, [], rfl⟩

/-- Over any history the ring stays valid, and what was read and what is pending now are what was
pending before and the characters that found room. -/
theorem inputRun_spec (ok : Nat → Bool) (fuel : Nat) (currentEsp : Word) (ops : List InputOp)
    (h : k.keyboard.Valid) :
    (inputRun ok fuel currentEsp k ops).1.keyboard.Valid ∧
      (inputRun ok fuel currentEsp k ops).2 ++
          (inputRun ok fuel currentEsp k ops).1.keyboard.pending =
        k.keyboard.pending ++
          admitted (arrivals ok fuel currentEsp k.keyboard.isE0Prefix k ops) := by
  induction ops generalizing k with
  | nil => exact ⟨h, by simp [inputRun, arrivals, admitted]⟩
  | cons op ops ih =>
    cases op with
    | key scancode =>
      set kb' := { k.keyboard with isE0Prefix := decide (scancode = 0xE0) } with hkb'
      have hkb : kb'.Valid := ⟨h.head, h.tail, h.chars⟩
      obtain ⟨hv, hp⟩ := hkb.put (c := decodeKey k.keyboard.isE0Prefix scancode)
      have hcall : (inputCall ok fuel currentEsp k (.key scancode)).1.keyboard =
          kb'.put (decodeKey k.keyboard.isE0Prefix scancode) := keyboardHandler_eq
      have he0 : (inputCall ok fuel currentEsp k (.key scancode)).1.keyboard.isE0Prefix =
          decide (scancode = 0xE0) := by
        rw [hcall, Keyboard.put]
        split <;> rfl
      obtain ⟨hvalid, hlaw⟩ := ih (k := (inputCall ok fuel currentEsp k (.key scancode)).1)
        (hcall ▸ hv)
      refine ⟨hvalid, ?_⟩
      rw [he0, hcall, hp] at hlaw
      have hsame : kb'.pending = k.keyboard.pending := rfl
      rw [hsame] at hlaw
      simp only [inputRun, arrivals]
      by_cases hc : decodeKey k.keyboard.isE0Prefix scancode = 0
      · simpa [inputCall, hc] using hlaw
      · by_cases hfull : k.keyboard.pending.length = 127
        · simpa [inputCall, hc, hfull, admitted] using hlaw
        · simpa [inputCall, hc, hfull, admitted] using hlaw
    | read buf count =>
      obtain ⟨k', bytes, hcall, hv, he, hsplit, -, -⟩ :=
        inputCall_read ok fuel currentEsp buf count h
      obtain ⟨hvalid, hlaw⟩ := ih (k := k') hv
      simp only [inputRun, arrivals, hcall]
      refine ⟨hvalid, ?_⟩
      rw [List.append_assoc, hlaw, he, hsplit, List.append_assoc]

/-- The statics of the driver before the first interrupt. -/
def Keyboard.powerOn : Keyboard := ⟨fun _ => 0, 0, 0, false⟩

/-- What the readers are promised after a history of calls. -/
structure InputKept (ok : Nat → Bool) (fuel : Nat) (currentEsp : Word) (k : Kernel)
    (ops : List InputOp) : Prop where
  indices : (inputRun ok fuel currentEsp k ops).1.keyboard.head < 128 ∧
    (inputRun ok fuel currentEsp k ops).1.keyboard.tail < 128
  bounded : (inputRun ok fuel currentEsp k ops).1.keyboard.pending.length ≤ 127
  /-- Nothing is lost, doubled or reordered but what arrived with 127 pending. -/
  kept : (inputRun ok fuel currentEsp k ops).2 ++
      (inputRun ok fuel currentEsp k ops).1.keyboard.pending =
    admitted (arrivals ok fuel currentEsp false k ops)
  /-- The next read returns no more than it was asked for. -/
  count : ∀ buf count, (inputCall ok fuel currentEsp (inputRun ok fuel currentEsp k ops).1
    (.read buf count)).2.length ≤ count.toNat
  /-- It returns nothing after a newline. -/
  newline : ∀ buf count l c r, (inputCall ok fuel currentEsp
    (inputRun ok fuel currentEsp k ops).1 (.read buf count)).2 = l ++ c :: r → isNewline c → r = []

/-- Keyboard input arrives as it was typed, for every history of interrupts and reads. -/
theorem keyboard_input_kept (ops : List InputOp) (hboot : k.keyboard = .powerOn) :
    InputKept ok fuel currentEsp k ops := by
  have hempty : k.keyboard.pending = [] := by
    rw [hboot]
    rfl
  have hstart : k.keyboard.Valid := by
    refine ⟨by rw [hboot]; decide, by rw [hboot]; decide, by simp [hempty]⟩
  obtain ⟨hvalid, hlaw⟩ := inputRun_spec ok fuel currentEsp ops hstart
  rw [hempty, List.nil_append, show k.keyboard.isE0Prefix = false by rw [hboot]; rfl] at hlaw
  refine ⟨⟨hvalid.head, hvalid.tail⟩, hvalid.length_le, hlaw, fun buf count => ?_,
    fun buf count l c r hbytes hc => ?_⟩
  · obtain ⟨k', bytes, hcall, -, -, -, hle, -⟩ := inputCall_read ok fuel currentEsp buf
      count hvalid
    rwa [hcall]
  · obtain ⟨k', bytes, hcall, -, -, -, -, cs, hline⟩ := inputCall_read ok fuel currentEsp buf
      count hvalid
    rw [hcall] at hbytes
    exact lineOf_newline (hline.symm.trans hbytes) hc

/-- The kernel with zeroed statics. -/
def Kernel.powerOn : Kernel where
  heap := ⟨Pmm.powerOn, fun _ => ⟨0, false, 0, 0⟩, 0, 0, 0⟩
  sched := ⟨fun _ => none, 0, 0, 1, 0, fun _ => 0, []⟩
  vfs := ⟨fun _ => ⟨fun _ => 0, 0, 0, 0⟩, fun _ _ => 0, 0, []⟩
  keyboard := .powerOn
  mem := fun _ => 0
  console := []
  serial := []

/-- The keys a, up, enter and b are pressed; a read returns the line and leaves the b. -/
theorem keyboard_input_kept_line :
    (inputRun (fun _ => true) 0 0 .powerOn [.key 0x1E, .key 0xE0, .key 0x48, .key 0x1C, .key 0x30,
      .read 0x1000 10]).2 = [97, 0x80, 10] ∧
    InputKept (fun _ => true) 0 0 .powerOn [.key 0x1E, .key 0xE0, .key 0x48, .key 0x1C, .key 0x30,
      .read 0x1000 10] :=
  ⟨by decide +kernel, keyboard_input_kept _ rfl⟩

end History

end HumanOS

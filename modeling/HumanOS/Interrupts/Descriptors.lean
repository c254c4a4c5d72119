import HumanOS.Lib.Packed
import Mathlib.Logic.Function.Basic
import Mathlib.Tactic.IntervalCases

/-!
# The descriptor tables

`kernel/gdt.c` and `kernel/idt.c`: the tables as they are built, their bytes in memory, and what
the CPU reads out of them. Addresses that the linker chooses are parameters; loading the tables
into the CPU is left out.
-/
namespace HumanOS

open Lib

section Gdt

/-- `gdt_entry_t`. -/
structure GdtEntry where
  limitLow : Nat
  baseLow : Nat
  baseMiddle : Nat
  access : Nat
  granularity : Nat
  baseHigh : Nat

/-- The packed fields, with their widths. -/
def GdtEntry.fields (e : GdtEntry) : List (Nat × Nat) :=
  [(e.limitLow, 2), (e.baseLow, 2), (e.baseMiddle, 1), (e.access, 1), (e.granularity, 1),
    (e.baseHigh, 1)]

/-- `tss_entry_t`. -/
structure TssEntry where
  (prevTss esp0 ss0 esp1 ss1 esp2 ss2 cr3 eip eflags eax ecx edx ebx esp ebp esi edi : Nat)
  (es cs ss ds fs gs ldt trap iomapBase : Nat)

def TssEntry.fields (t : TssEntry) : List (Nat × Nat) :=
  [(t.prevTss, 4), (t.esp0, 4), (t.ss0, 4), (t.esp1, 4), (t.ss1, 4), (t.esp2, 4), (t.ss2, 4),
    (t.cr3, 4), (t.eip, 4), (t.eflags, 4), (t.eax, 4), (t.ecx, 4), (t.edx, 4), (t.ebx, 4),
    (t.esp, 4), (t.ebp, 4), (t.esi, 4), (t.edi, 4), (t.es, 4), (t.cs, 4), (t.ss, 4), (t.ds, 4),
    (t.fs, 4), (t.gs, 4), (t.ldt, 4), (t.trap, 2), (t.iomapBase, 2)]

/-- `sizeof(tss_entry)`. -/
def tssSize : Nat := 104

/-- `gdt_entries` and `tss_entry`. -/
structure Gdt where
  entries : Nat → GdtEntry
  tss : TssEntry

/-- `gdt_set_gate`. -/
def gdtSetGate (g : Gdt) (num base limit access gran : Nat) : Gdt :=
  { g with
    entries := Function.update g.entries num
      { baseLow := base &&& 0xFFFF
        baseMiddle := (base >>> 16) &&& 0xFF
        baseHigh := (base >>> 24) &&& 0xFF
        limitLow := limit &&& 0xFFFF
        granularity := ((limit >>> 16) &&& 0x0F) ||| (gran &&& 0xF0)
        access } }

/-- What `write_tss` leaves in the TSS. -/
def writtenTss (ss0 esp0 : Nat) : TssEntry where
  prevTss := 0
  esp0 := esp0
  ss0 := ss0
  esp1 := 0
  ss1 := 0
  esp2 := 0
  ss2 := 0
  cr3 := 0
  eip := 0
  eflags := 0
  eax := 0
  ecx := 0
  edx := 0
  ebx := 0
  esp := 0
  ebp := 0
  esi := 0
  edi := 0
  es := 0x10 ||| 3
  cs := 0x08 ||| 3
  ss := 0x10 ||| 3
  ds := 0x10 ||| 3
  fs := 0x10 ||| 3
  gs := 0x10 ||| 3
  ldt := 0
  trap := 0
  iomapBase := 0

/-- `write_tss`; `tssAddr` is the address of `tss_entry`. -/
def writeTss (tssAddr : Nat) (g : Gdt) (num ss0 esp0 : Nat) : Gdt :=
  { gdtSetGate g num tssAddr (tssSize - 1) 0xE9 0x00 with tss := writtenTss ss0 esp0 }

/-- `tss_set_kernel_stack`. -/
def tssSetKernelStack (g : Gdt) (kstack : Nat) : Gdt :=
  { g with tss := { g.tss with esp0 := kstack } }

/-- `gdt_init`. -/
def gdtInit (tssAddr : Nat) (g : Gdt) : Gdt :=
  let g := gdtSetGate g 0 0 0 0 0
  let g := gdtSetGate g 1 0 0xFFFFFFFF 0x9A 0xCF
  let g := gdtSetGate g 2 0 0xFFFFFFFF 0x92 0xCF
  let g := gdtSetGate g 3 0 0xFFFFFFFF 0xFA 0xCF
  let g := gdtSetGate g 4 0 0xFFFFFFFF 0xF2 0xCF
  writeTss tssAddr g 5 0x10 0

end Gdt

section Idt

/-- `idt_entry_t`. -/
structure IdtEntry where
  baseLow : Nat
  sel : Nat
  always0 : Nat
  flags : Nat
  baseHigh : Nat

def IdtEntry.fields (e : IdtEntry) : List (Nat × Nat) :=
  [(e.baseLow, 2), (e.sel, 2), (e.always0, 1), (e.flags, 1), (e.baseHigh, 2)]

/-- `idt_set_gate`. -/
def idtSetGate (t : Nat → IdtEntry) (num base sel flags : Nat) : Nat → IdtEntry :=
  Function.update t num
    { baseLow := base &&& 0xFFFF
      baseHigh := (base >>> 16) &&& 0xFFFF
      sel
      always0 := 0
      flags }

/-- The code that interrupts are given to. -/
inductive Stub where
  | isr (n : Nat)
  | syscall
  | irq0
  | irq1
deriving DecidableEq

/-- `idt_init`; `addr` is where the linker puts the stubs. -/
def idtInit (addr : Stub → Nat) (t : Nat → IdtEntry) : Nat → IdtEntry :=
  let t := (List.range 256).foldl (fun t i => idtSetGate t i 0 0 0) t
  let t := (List.range 32).foldl (fun t i => idtSetGate t i (addr (.isr i)) 0x08 0x8E) t
  idtSetGate t 0x80 (addr .syscall) 0x08 0xEE

/-- The gates that `keyboard_init` sets. -/
def keyboardInitGates (addr : Stub → Nat) (t : Nat → IdtEntry) : Nat → IdtEntry :=
  idtSetGate (idtSetGate t 32 (addr .irq0) 0x08 0x8E) 33 (addr .irq1) 0x08 0x8E

end Idt

section Cpu

/-- A segment as the CPU sees it: its first byte, the highest offset and the access byte. -/
structure Segment where
  base : Nat
  limit : Nat
  access : Nat
deriving DecidableEq

/-- The segment that the eight bytes at `8 * i` describe. -/
def segmentAt (table : Nat → UInt8) (i : Nat) : Segment :=
  let byte := fun k n => loadLE table (8 * i + k) n
  let limit := byte 0 2 + byte 6 1 % 16 * 2 ^ 16
  { base := byte 2 2 + byte 4 1 * 2 ^ 16 + byte 7 1 * 2 ^ 24
    limit := if byte 6 1 / 128 = 1 then limit * 4096 + 4095 else limit
    access := byte 5 1 }

/-- A gate as the CPU sees it. -/
structure Gate where
  offset : Nat
  selector : Nat
  flags : Nat
deriving DecidableEq

def gateAt (table : Nat → UInt8) (i : Nat) : Gate :=
  let byte := fun k n => loadLE table (8 * i + k) n
  { offset := byte 0 2 + byte 6 2 * 2 ^ 16
    selector := byte 2 2
    flags := byte 5 1 }

/-- The table behind `gdt_ptr`. -/
def Gdt.memory (g : Gdt) : Nat → UInt8 :=
  memoryOf (packed ((List.range 6).flatMap fun i => (g.entries i).fields))

/-- The table behind `idt_ptr`. -/
def idtMemory (t : Nat → IdtEntry) : Nat → UInt8 :=
  memoryOf (packed ((List.range 256).flatMap fun i => (t i).fields))

end Cpu

variable {g : Gdt} {t : Nat → IdtEntry} {i num base limit access gran sel flags : Nat}

section Decoding

theorem and_byte (x : Nat) : x &&& 0xFF = x % 2 ^ 8 := Nat.and_two_pow_sub_one_eq_mod x 8

theorem and_half (x : Nat) : x &&& 0xFFFF = x % 2 ^ 16 := Nat.and_two_pow_sub_one_eq_mod x 16

/-- The byte that the high part of the limit shares with the flags. -/
theorem granularity_eq (limit : Nat) (hgran : gran < 256) :
    limit / 2 ^ 16 &&& 0x0F ||| (gran &&& 0xF0) = limit / 2 ^ 16 % 16 + gran / 16 * 16 := by
  have hlow : limit / 2 ^ 16 &&& 0x0F = limit / 2 ^ 16 % 16 :=
    Nat.and_two_pow_sub_one_eq_mod _ 4
  have hhigh : ∀ g < 256, g &&& 0xF0 = (g / 16) <<< 4 := by decide +kernel
  have hlt : limit / 2 ^ 16 % 16 < 2 ^ 4 := Nat.mod_lt _ (by decide)
  rw [hlow, hhigh gran hgran, Nat.or_comm, ← Nat.shiftLeft_add_eq_or_of_lt hlt,
    Nat.shiftLeft_eq]
  omega

/-- What the CPU reads from an entry of the GDT, field by field. -/
theorem segmentAt_memory (g : Gdt) (hi : i < 6) : segmentAt g.memory i =
    { base := (g.entries i).baseLow % 2 ^ 16 + (g.entries i).baseMiddle % 2 ^ 8 * 2 ^ 16 +
        (g.entries i).baseHigh % 2 ^ 8 * 2 ^ 24
      limit :=
        let limit := (g.entries i).limitLow % 2 ^ 16 +
          (g.entries i).granularity % 2 ^ 8 % 16 * 2 ^ 16
        if (g.entries i).granularity % 2 ^ 8 / 128 = 1 then limit * 4096 + 4095 else limit
      access := (g.entries i).access % 2 ^ 8 } := by
  have hfield : ∀ before after v n, (g.entries i).fields = before ++ (v, n) :: after →
      loadLE g.memory (8 * i + widths before) n = v % 256 ^ n :=
    fun before after v n h => loadLE_table (fun i => (g.entries i).fields)
      (fun _ => rfl) hi h
  have hlimit : loadLE g.memory (8 * i + 0) 2 = _ := hfield [] _ _ _ rfl
  have hbase : loadLE g.memory (8 * i + 2) 2 = _ := hfield [_] _ _ _ rfl
  have hmiddle : loadLE g.memory (8 * i + 4) 1 = _ := hfield [_, _] _ _ _ rfl
  have haccess : loadLE g.memory (8 * i + 5) 1 = _ := hfield [_, _, _] _ _ _ rfl
  have hgran : loadLE g.memory (8 * i + 6) 1 = _ := hfield [_, _, _, _] _ _ _ rfl
  have hhigh : loadLE g.memory (8 * i + 7) 1 = _ := hfield [_, _, _, _, _] _ _ _ rfl
  simp only [segmentAt, hlimit, hbase, hmiddle, haccess, hgran, hhigh]
  norm_num

/-- What the CPU reads from a gate of the IDT. -/
theorem gateAt_memory (t : Nat → IdtEntry) (hi : i < 256) : gateAt (idtMemory t) i =
    { offset := (t i).baseLow % 2 ^ 16 + (t i).baseHigh % 2 ^ 16 * 2 ^ 16
      selector := (t i).sel % 2 ^ 16
      flags := (t i).flags % 2 ^ 8 } := by
  have hfield : ∀ before after v n, (t i).fields = before ++ (v, n) :: after →
      loadLE (idtMemory t) (8 * i + widths before) n = v % 256 ^ n :=
    fun before after v n h => loadLE_table (fun i => (t i).fields) (fun _ => rfl) hi h
  have hlow : loadLE (idtMemory t) (8 * i + 0) 2 = _ := hfield [] _ _ _ rfl
  have hsel : loadLE (idtMemory t) (8 * i + 2) 2 = _ := hfield [_] _ _ _ rfl
  have hflags : loadLE (idtMemory t) (8 * i + 5) 1 = _ := hfield [_, _, _] _ _ _ rfl
  have hhigh : loadLE (idtMemory t) (8 * i + 6) 2 = _ := hfield [_, _, _, _] _ _ _ rfl
  simp only [gateAt, hlow, hsel, hflags, hhigh]
  norm_num

/-- A segment reads back as it was set; of its limit there is room for twenty bits. -/
theorem segmentAt_setGate (hi : i < 6) (hbase : base < 2 ^ 32) (haccess : access < 256)
    (hgran : gran < 256) : segmentAt (gdtSetGate g num base limit access gran).memory i =
      if i = num then
        { base
          limit := if gran / 128 = 1 then limit % 2 ^ 20 * 4096 + 4095 else limit % 2 ^ 20
          access }
      else segmentAt g.memory i := by
  rw [segmentAt_memory _ hi, segmentAt_memory _ hi]
  by_cases hnum : i = num
  · subst hnum
    have hbyte : limit / 2 ^ 16 % 16 + gran / 16 * 16 < 256 := by omega
    have hflag : (limit / 2 ^ 16 % 16 + gran / 16 * 16) / 128 = gran / 128 := by omega
    simp only [gdtSetGate, Function.update_self, if_true, and_byte, and_half,
      granularity_eq limit hgran, Nat.shiftRight_eq_div_pow, Segment.mk.injEq]
    refine ⟨by omega, ?_, by omega⟩
    rw [show (2 : Nat) ^ 8 = 256 from rfl, Nat.mod_eq_of_lt hbyte, hflag]
    split <;> omega
  · simp only [gdtSetGate, Function.update_of_ne hnum, if_neg hnum]

/-- A gate reads back as it was set. -/
theorem gateAt_setGate (hi : i < 256) (hbase : base < 2 ^ 32) (hsel : sel < 2 ^ 16)
    (hflags : flags < 256) : gateAt (idtMemory (idtSetGate t num base sel flags)) i =
      if i = num then ⟨base, sel, flags⟩ else gateAt (idtMemory t) i := by
  rw [gateAt_memory _ hi, gateAt_memory _ hi]
  by_cases hnum : i = num
  · subst hnum
    simp only [idtSetGate, Function.update_self, if_true, and_half, Nat.shiftRight_eq_div_pow,
      Gate.mk.injEq]
    omega
  · simp only [idtSetGate, Function.update_of_ne hnum, if_neg hnum]

/-- The segments of the kernel: flat ones for both rings, and the TSS. -/
def kernelSegment (tssAddr i : Nat) : Segment :=
  [⟨0, 0, 0⟩, ⟨0, 2 ^ 32 - 1, 0x9A⟩, ⟨0, 2 ^ 32 - 1, 0x92⟩, ⟨0, 2 ^ 32 - 1, 0xFA⟩,
    ⟨0, 2 ^ 32 - 1, 0xF2⟩, ⟨tssAddr, 103, 0xE9⟩].getD i ⟨0, 0, 0⟩

theorem segmentAt_gdtInit {tssAddr : Nat} (g : Gdt) (htss : tssAddr < 2 ^ 32) (hi : i < 6) :
    segmentAt (gdtInit tssAddr g).memory i = kernelSegment tssAddr i := by
  have htable : (gdtInit tssAddr g).memory = (gdtSetGate (gdtSetGate (gdtSetGate (gdtSetGate
      (gdtSetGate (gdtSetGate g 0 0 0 0 0) 1 0 0xFFFFFFFF 0x9A 0xCF) 2 0 0xFFFFFFFF 0x92 0xCF)
      3 0 0xFFFFFFFF 0xFA 0xCF) 4 0 0xFFFFFFFF 0xF2 0xCF) 5 tssAddr (tssSize - 1) 0xE9
      0x00).memory := rfl
  rw [htable, segmentAt_setGate hi htss (by decide) (by decide),
    segmentAt_setGate hi (by decide) (by decide) (by decide),
    segmentAt_setGate hi (by decide) (by decide) (by decide),
    segmentAt_setGate hi (by decide) (by decide) (by decide),
    segmentAt_setGate hi (by decide) (by decide) (by decide),
    segmentAt_setGate hi (by decide) (by decide) (by decide)]
  interval_cases i <;> rfl

end Decoding

end HumanOS

import HumanOS.Interrupts.Descriptors
import HumanOS.Scheduler.Stubs
import HumanOS.Ata.Protocol

/-!
# Ports in ring 3

`write_tss` leaves zero in `iomap_base`, so the CPU takes the TSS itself for the map of the ports
that ring 3 may use. `tss_set_kernel_stack` writes into that map.
-/
namespace HumanOS

open Lib

def Gdt.tssMemory (g : Gdt) : Nat → UInt8 := memoryOf (packed g.tss.fields)

/-- The I/O privilege level. -/
def iopl (eflags : Word) : Nat := eflags.toNat / 2 ^ 12 % 4

/-- The map of the ports, where it is read: always two bytes of it, both within the TSS, of which
the bits of the ports have to be clear. -/
def mapAllows (g : Gdt) (port width : Nat) : Bool :=
  let limit := (segmentAt g.memory 5).limit
  let offset := loadLE g.tssMemory 102 2 + port / 8
  offset + 1 ≤ limit && loadLE g.tssMemory offset 2 / 2 ^ (port % 8) % 2 ^ width = 0

/-- The test of the CPU before an access to a port. -/
def portAllowed (g : Gdt) (r : Regs) (port width : Nat) : Bool :=
  (r.cs &&& 3).toNat ≤ iopl r.eflags || mapAllows g port width

/-- The GDT and the TSS after `gdt_init` and the calls of `tss_set_kernel_stack`. -/
def runningGdt (tssAddr : Nat) (g : Gdt) (kstacks : List Nat) : Gdt :=
  kstacks.foldl tssSetKernelStack (gdtInit tssAddr g)

/-- The set bits of `ss0`, `es`, `cs`, `ss`, `ds`, `fs` and `gs`. -/
def closedPorts : List Nat :=
  [68, 576, 577, 580, 608, 609, 611, 640, 641, 644, 672, 673, 676, 704, 705, 708, 736, 737, 740]

/-- The ports of the two channels. -/
def idePort (port : Nat) : Prop := 0x170 ≤ port ∧ port < 0x178 ∨ 0x1F0 ≤ port ∧ port < 0x1F8

variable {g : Gdt} {tssAddr port k e : Nat} {kstacks : List Nat} {r : Regs}

section Tss

/-- All that the calls change is `esp0`. -/
theorem runningGdt_tss (tssAddr : Nat) (g : Gdt) (kstacks : List Nat) :
    (runningGdt tssAddr g kstacks).entries = (gdtInit tssAddr g).entries ∧
      (runningGdt tssAddr g kstacks).tss = writtenTss 0x10 (kstacks.getLastD 0) := by
  have hcalls : ∀ (kstacks : List Nat) (h : Gdt) (e : Nat), h.tss = writtenTss 0x10 e →
      (kstacks.foldl tssSetKernelStack h).entries = h.entries ∧
        (kstacks.foldl tssSetKernelStack h).tss = writtenTss 0x10 (kstacks.getLastD e) := by
    intro kstacks
    induction kstacks with
    | nil => exact fun h e htss => ⟨rfl, htss⟩
    | cons kstack kstacks ih =>
      intro h e htss
      have hnext : (tssSetKernelStack h kstack).tss = writtenTss 0x10 kstack := by
        rw [tssSetKernelStack, htss]
        rfl
      obtain ⟨hentries, hrest⟩ := ih _ _ hnext
      refine ⟨hentries, ?_⟩
      rw [List.foldl_cons, hrest, List.getLastD_cons]
  exact hcalls kstacks _ 0 rfl

/-- The bytes of the TSS: those of `esp0`, and fixed ones. -/
theorem tssMemory_byte (h : g.tss = writtenTss 0x10 e) : g.tssMemory k =
    if 4 ≤ k ∧ k < 8 then byteLE e (k - 4)
    else memoryOf (packed (writtenTss 0x10 0).fields) k := by
  rw [Gdt.tssMemory, h]
  exact memoryOf_packed_field [(0, 4)] _ e 0 4 k

theorem byteLE_testBit {v k j : Nat} (hj : j < 8) :
    (byteLE v k).toNat.testBit j = v.testBit (8 * k + j) := by
  rw [byteLE, UInt8.toNat_ofNat', Nat.testBit_mod_two_pow, show 256 ^ k = 2 ^ (8 * k) by
    rw [Nat.pow_mul], Nat.testBit_div_two_pow]
  simp [hj, Nat.add_comm]

/-- A byte of the map is decided by one of the two bytes read. -/
theorem mapBit (m : Nat → UInt8) (offset : Nat) {j : Nat} (hj : j < 8) :
    loadLE m offset 2 / 2 ^ j % 2 ^ 1 = 0 ↔ (m offset).toNat.testBit j = false := by
  have hbit := Nat.testBit_two_pow_mul_add (m (offset + 1)).toNat (i := 8) (m offset).toNat_lt j
  rw [if_pos hj] at hbit
  rw [← hbit]
  simp only [loadLE, Nat.testBit_eq_decide_div_mod_eq]
  rw [Nat.mul_zero, Nat.add_zero, Nat.add_comm (m offset).toNat]
  simp

end Tss

section Map

theorem runningGdt_limit (htss : tssAddr < 2 ^ 32) :
    (segmentAt (runningGdt tssAddr g kstacks).memory 5).limit = 103 := by
  have hmemory : (runningGdt tssAddr g kstacks).memory = (gdtInit tssAddr g).memory := by
    rw [Gdt.memory, (runningGdt_tss tssAddr g kstacks).1, Gdt.memory]
  rw [hmemory, segmentAt_gdtInit g htss (by decide)]
  rfl

/-- The map starts where the TSS does. -/
theorem runningGdt_iomapBase : loadLE (runningGdt tssAddr g kstacks).tssMemory 102 2 = 0 := by
  have htss := (runningGdt_tss tssAddr g kstacks).2
  simp only [loadLE, tssMemory_byte htss]
  rw [if_neg (by decide), if_neg (by decide)]
  decide +kernel

theorem mapAllows_running (htss : tssAddr < 2 ^ 32) (width : Nat) :
    mapAllows (runningGdt tssAddr g kstacks) port width = true ↔ port < 824 ∧
      loadLE (runningGdt tssAddr g kstacks).tssMemory (port / 8) 2 / 2 ^ (port % 8) % 2 ^ width =
        0 := by
  simp only [mapAllows, runningGdt_limit htss, runningGdt_iomapBase, Nat.zero_add,
    Bool.and_eq_true, decide_eq_true_eq]
  have hrange : port / 8 + 1 ≤ 103 ↔ port < 824 := by omega
  rw [hrange]

/-- The fixed bits of the TSS. -/
theorem writtenTss_bits : ∀ port < 824,
    (memoryOf (packed (writtenTss 0x10 0).fields) (port / 8)).toNat.testBit (port % 8) =
      decide (port ∈ closedPorts) := by
  decide +kernel

theorem mapAllows_byte (htss : tssAddr < 2 ^ 32) :
    mapAllows (runningGdt tssAddr g kstacks) port 1 = true ↔ port < 824 ∧ port ∉ closedPorts ∧
      (32 ≤ port → port < 64 → (kstacks.getLastD 0).testBit (port - 32) = false) := by
  rw [mapAllows_running htss, mapBit _ _ (Nat.mod_lt _ (by decide)),
    tssMemory_byte (runningGdt_tss tssAddr g kstacks).2]
  refine and_congr_right fun hport => ?_
  have hfixed := writtenTss_bits port hport
  by_cases hesp : 32 ≤ port ∧ port < 64
  · have hopen : ∀ port < 64, port ∉ closedPorts := by decide
    rw [if_pos (by omega), byteLE_testBit (Nat.mod_lt _ (by decide)),
      show 8 * (port / 8 - 4) + port % 8 = port - 32 by omega]
    exact ⟨fun hbit => ⟨hopen port hesp.2, fun _ _ => hbit⟩, fun h => h.2 hesp.1 hesp.2⟩
  · rw [if_neg (by omega), hfixed, decide_eq_false_iff_not]
    exact ⟨fun h => ⟨h, fun hlow hhigh => absurd ⟨hlow, hhigh⟩ hesp⟩, fun h => h.1⟩

/-- The ports of the disk lie under fields that are zero. -/
theorem mapAllows_ide (htss : tssAddr < 2 ^ 32) (h : idePort port) (width : Nat) :
    mapAllows (runningGdt tssAddr g kstacks) port width = true := by
  have hbytes : ∀ k, 46 ≤ k → k < 65 →
      memoryOf (packed (writtenTss 0x10 0).fields) k = 0 := by
    intro k hlow hhigh
    interval_cases k <;> rfl
  have hzero : ∀ k, 46 ≤ k → k < 64 →
      loadLE (runningGdt tssAddr g kstacks).tssMemory k 2 = 0 := by
    intro k hlow hhigh
    have htss := (runningGdt_tss tssAddr g kstacks).2
    simp only [loadLE, tssMemory_byte htss]
    rw [if_neg (by omega), if_neg (by omega), hbytes k hlow (by omega),
      hbytes (k + 1) (by omega) (by omega)]
    rfl
  unfold idePort at h
  rw [mapAllows_running htss, hzero _ (by omega) (by omega)]
  exact ⟨by omega, by simp⟩

end Map

section Disk

variable {σ : Type*} {a : Ata σ} {xs : List Access}

theorem channelPort_ide {primary secondary : Nat} (hp : 0x1F0 ≤ primary ∧ primary < 0x1F8)
    (hs : 0x170 ≤ secondary ∧ secondary < 0x178) : idePort (a.channelPort primary secondary) := by
  unfold Ata.channelPort
  split
  · exact .inl hs
  · exact .inr hp

theorem Ata.Polls.ide {n : Nat} (h : Ata.Polls a n xs) : ∀ x ∈ xs, idePort x.port := by
  obtain ⟨answers, -, rfl⟩ := h
  intro x hx
  obtain ⟨value, -, rfl⟩ := List.mem_map.mp hx
  exact channelPort_ide (by decide) (by decide)

theorem Ata.commandAccesses_ide (lba : Nat) (command : UInt8) :
    ∀ x ∈ Ata.commandAccesses a lba command, idePort x.port := by
  simp only [Ata.commandAccesses, List.forall_mem_cons, List.not_mem_nil, false_implies,
    implies_true, and_true]
  refine ⟨?_, ?_, ?_, ?_, ?_, ?_⟩ <;> exact channelPort_ide (by decide) (by decide)

theorem Ata.Opened.ide {lba : Nat} {command : UInt8} {ready : Bool}
    (h : Ata.Opened a lba command xs ready) : ∀ x ∈ xs, idePort x.port := by
  cases h with
  | absent => simp
  | busy hx => exact hx.ide
  | refused hx hy | ready hx hy =>
    simp only [List.forall_mem_append]
    exact ⟨⟨hx.ide, Ata.commandAccesses_ide lba command⟩, hy.ide⟩

theorem Ata.ReadTrace.ide {lba : Nat} {buf buf' : Nat → UInt8} {result : Int}
    (h : Ata.ReadTrace a lba buf xs buf' result) : ∀ x ∈ xs, idePort x.port := by
  cases h with
  | failed hopened => exact hopened.ide
  | done hopened _ =>
    simp only [List.forall_mem_append, List.forall_mem_map]
    exact ⟨hopened.ide, fun _ _ => channelPort_ide (by decide) (by decide)⟩

theorem Ata.WriteTrace.ide {lba : Nat} {buf : Nat → UInt8} {result : Int}
    (h : Ata.WriteTrace a lba buf xs result) : ∀ x ∈ xs, idePort x.port := by
  cases h with
  | failed hopened => exact hopened.ide
  | done hopened hpolls =>
    simp only [List.forall_mem_append, List.forall_mem_map, List.forall_mem_singleton]
    exact ⟨⟨⟨hopened.ide, fun _ _ => channelPort_ide (by decide) (by decide)⟩,
      channelPort_ide (by decide) (by decide)⟩, hpolls.ide⟩

end Disk

theorem portAllowed_outer (hring : r.ring3 = true) (hiopl : iopl r.eflags = 0) (width : Nat) :
    portAllowed g r port width = mapAllows g port width := by
  have hlevel : ¬ (r.cs &&& 3).toNat ≤ 0 := by
    simp only [Regs.ring3, isOuter, decide_eq_true_eq] at hring
    intro hzero
    exact hring (BitVec.eq_of_toNat_eq (by simpa using hzero))
  rw [portAllowed, hiopl, decide_eq_false hlevel, Bool.false_or]

/-- What a process in ring 3 may do at a port: on every port below 824 that is no set bit of the
TSS, `esp0` included, all it likes. So it can drive the disk itself: nothing that
`ata_read_sector` and `ata_write_sector` do at the ports is kept from it. -/
theorem ring3_ports {σ : Type*} (tssAddr : Nat) (htss : tssAddr < 2 ^ 32) (g : Gdt)
    (kstacks : List Nat) (r : Regs) (hring : r.ring3 = true) (hiopl : iopl r.eflags = 0) :
    (∀ port, portAllowed (runningGdt tssAddr g kstacks) r port 1 = true ↔
      port < 824 ∧ port ∉ closedPorts ∧
        (32 ≤ port → port < 64 → (kstacks.getLastD 0).testBit (port - 32) = false)) ∧
    ∀ (D : Device σ) (a : Ata (σ × List Access)) (lba : Nat) (buf : Nat → UInt8),
      (∃ xs, Ata.Did a xs (a.ataReadSector D.traced lba (some buf)).1 ∧
        ∀ x ∈ xs, portAllowed (runningGdt tssAddr g kstacks) r x.port x.width = true) ∧
      ∃ xs, Ata.Did a xs (a.ataWriteSector D.traced lba (some buf)).1 ∧
        ∀ x ∈ xs, portAllowed (runningGdt tssAddr g kstacks) r x.port x.width = true := by
  have hide : ∀ x : Access, idePort x.port →
      portAllowed (runningGdt tssAddr g kstacks) r x.port x.width = true := by
    intro x hx
    rw [portAllowed_outer hring hiopl]
    exact mapAllows_ide htss hx x.width
  refine ⟨?_, ?_⟩
  · intro port
    rw [portAllowed_outer hring hiopl]
    exact mapAllows_byte htss
  · intro D a lba buf
    obtain ⟨xs, buf', hread, -, hreads⟩ := Ata.ataReadSector_trace D a lba buf
    obtain ⟨ys, hwrite, hwrites⟩ := Ata.ataWriteSector_trace D a lba buf
    exact ⟨⟨xs, hread, fun x hx => hide x (hreads.ide x hx)⟩,
      ys, hwrite, fun x hx => hide x (hwrites.ide x hx)⟩

/-- A process that runs in ring 3 for the first time. -/
theorem ring3_ports_disk_and_serial :
    portAllowed (runningGdt 0x105000 ⟨fun _ => ⟨0, 0, 0, 0, 0, 0⟩, writtenTss 0 0⟩ [0x109010])
        (userEntry ⟨0x300010, 2, .ready, 0, 0, 0, 0x400000, copyName "Task"⟩) 0x1F7 1 = true ∧
      ¬ portAllowed (runningGdt 0x105000 ⟨fun _ => ⟨0, 0, 0, 0, 0, 0⟩, writtenTss 0 0⟩ [0x109010])
        (userEntry ⟨0x300010, 2, .ready, 0, 0, 0, 0x400000, copyName "Task"⟩) 0x3F8 1 = true := by
  have hports := (ring3_ports (σ := Unit) 0x105000 (by decide)
    ⟨fun _ => ⟨0, 0, 0, 0, 0, 0⟩, writtenTss 0 0⟩ [0x109010]
    (userEntry ⟨0x300010, 2, .ready, 0, 0, 0, 0x400000, copyName "Task"⟩) userEntry_ring3
    (by decide)).1
  exact ⟨(hports 0x1F7).mpr (by decide), fun h => absurd ((hports 0x3F8).mp h).1 (by decide)⟩

end HumanOS

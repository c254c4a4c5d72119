import HumanOS.Elf.Loaded
import HumanOS.Heap.Rollback
import HumanOS.Scheduler.Table

/-!
# What `elf_run` leaves behind

Memory that a segment got is not given back when a later request fails, nor when the file turns out
to have no entry point; and `elf_run` reports success without looking at what
`scheduler_add_user_process` did.
-/
namespace HumanOS

open Lib

variable {fuel size p e : Nat} {h h' : Heap} {r r' : HeapRun} {sizes ps : List Nat}
variable {l l' : Loader} {s s' : Sched} {ok : Nat → Bool}
variable {stack sectorStack buffer : Nat → UInt8} {filename : List UInt8}
variable {readInt : Int} {segs : List (Elf32Phdr × Nat)}

/-- The blocks that a walk of `kmalloc` can find start a page, as `create_block` makes them. -/
def Heap.Paged (h : Heap) : Prop :=
  ∀ need fuel b, findFit h need fuel h.head = some b → b % pageSize = 0

/-- The live blocks and `heap_used` are those of before. -/
structure HeapLeft (r r' : HeapRun) : Prop where
  live : r'.live = r.live
  used : r'.heap.used = r.heap.used

section Alloc

theorem alloc_eq_some (ha : r.alloc fuel size = some (r', p)) :
    kmalloc fuel r.heap size = some (r'.heap, p) ∧
      r'.live = if p = 0 then r.live else p :: r.live := by
  obtain ⟨⟨h, q⟩, hk, heq⟩ := Option.map_eq_some_iff.mp ha
  obtain ⟨rfl, rfl⟩ := Prod.mk.inj heq
  exact ⟨hk, rfl⟩

/-- A request that fails takes nothing. -/
theorem alloc_failed (hpaged : r.heap.Paged) (ha : r.alloc fuel size = some (r', 0)) :
    HeapLeft r r' := by
  obtain ⟨hk, hlive⟩ := alloc_eq_some ha
  refine ⟨hlive, ?_⟩
  rcases kmalloc_inv hk with ⟨-, heq, -⟩ | ⟨b, -, -, hfind, -, hptr⟩ |
    ⟨-, -, ⟨hnull, heq, -⟩ | ⟨hmade, -, hptr⟩⟩
  · rw [heq]
  · -- a block at the start of a page has a pointer that is not NULL
    have hpage := hpaged _ _ _ hfind
    simp only [add32, headerSize, pageSize] at hptr hpage
    omega
  · rw [heq, createBlock_null hnull]
  · obtain ⟨u, f, heq, -⟩ := createBlock_made hmade
    rw [heq] at hptr
    exact absurd hptr.symm payload_ne_zero

theorem alloc_lt (ha : r.alloc fuel size = some (r', p)) : p < 2 ^ 32 := by
  obtain ⟨hk, -⟩ := alloc_eq_some ha
  rcases kmalloc_inv hk with ⟨-, -, rfl⟩ | ⟨b, -, -, -, -, rfl⟩ |
    ⟨-, -, ⟨-, -, rfl⟩ | ⟨-, -, rfl⟩⟩
  · decide
  · exact Nat.mod_lt _ (by decide)
  · decide
  · exact Nat.mod_lt _ (by decide)

/-- The first request fails, or its pointer is followed by those of the others. -/
theorem allocAll_cons (ha : r.allocAll fuel (size :: sizes) = some (r', ps)) :
    (ps = [] ∧ r.alloc fuel size = some (r', 0)) ∨
    ∃ r₁ p qs, p ≠ 0 ∧ r.alloc fuel size = some (r₁, p) ∧
      r₁.allocAll fuel sizes = some (r', qs) ∧ ps = p :: qs := by
  simp only [HeapRun.allocAll] at ha
  cases halloc : r.alloc fuel size with
  | none => simp [halloc] at ha
  | some out =>
    obtain ⟨r₁, p⟩ := out
    simp only [halloc] at ha
    by_cases hp : p = 0
    · rw [if_pos hp] at ha
      obtain ⟨rfl, rfl⟩ := Prod.mk.inj (Option.some.inj ha)
      exact .inl ⟨rfl, by rw [hp]⟩
    · rw [if_neg hp] at ha
      obtain ⟨⟨r₂, qs⟩, hrest, heq⟩ := Option.map_eq_some_iff.mp ha
      obtain ⟨rfl, rfl⟩ := Prod.mk.inj heq
      exact .inr ⟨r₁, p, qs, hp, rfl, hrest, rfl⟩

/-- The pointers handed out are the new live ones. -/
theorem allocAll_live (ha : r.allocAll fuel sizes = some (r', ps)) :
    r'.live = ps.reverse ++ r.live := by
  induction sizes generalizing r ps with
  | nil =>
    obtain ⟨rfl, rfl⟩ := Prod.mk.inj (Option.some.inj ha)
    rfl
  | cons size sizes ih =>
    rcases allocAll_cons ha with ⟨rfl, halloc⟩ | ⟨r₁, p, qs, hp, halloc, hrest, rfl⟩
    · exact (alloc_eq_some halloc).2
    · have hlive := (alloc_eq_some halloc).2
      rw [if_neg hp] at hlive
      rw [ih hrest, hlive]
      simp

theorem allocAll_lt (ha : r.allocAll fuel sizes = some (r', ps)) : ∀ p ∈ ps, p < 2 ^ 32 := by
  induction sizes generalizing r ps with
  | nil =>
    obtain ⟨rfl, rfl⟩ := Prod.mk.inj (Option.some.inj ha)
    simp
  | cons size sizes ih =>
    rcases allocAll_cons ha with ⟨rfl, -⟩ | ⟨r₁, p, qs, -, halloc, hrest, rfl⟩
    · simp
    · intro q hq
      rcases List.mem_cons.mp hq with rfl | hq
      · exact alloc_lt halloc
      · exact ih hrest q hq

/-- A row of requests leaves the heap as it was exactly if not even the first was served. -/
theorem allocAll_left_iff (hpaged : r.heap.Paged) (ha : r.allocAll fuel sizes = some (r', ps)) :
    HeapLeft r r' ↔ ps = [] := by
  constructor
  · intro hleft
    have hlen := congrArg List.length ((allocAll_live ha).symm.trans hleft.live)
    simp only [List.length_append, List.length_reverse] at hlen
    exact List.eq_nil_of_length_eq_zero (by omega)
  · rintro rfl
    cases sizes with
    | nil =>
      obtain ⟨rfl, -⟩ := Prod.mk.inj (Option.some.inj ha)
      exact ⟨rfl, rfl⟩
    | cons size sizes =>
      rcases allocAll_cons ha with ⟨-, halloc⟩ | ⟨r₁, p, qs, -, -, -, hps⟩
      · exact alloc_failed hpaged halloc
      · simp at hps

end Alloc

section Failure

/-- A load or a run that returns -1 leaves the heap and the process table as they were. -/
structure LeavesNoTrace (fuel : Nat) (ok : Nat → Bool) (stack sectorStack : Nat → UInt8)
    (l : Loader) (s : Sched) (filename : List UInt8) (e : Nat) : Prop where
  load : (elfLoadFromVfs fuel ok stack sectorStack l (some filename) (some e)).2 = some (-1) →
    HeapLeft l.run (elfLoadFromVfs fuel ok stack sectorStack l (some filename) (some e)).1.run
  run : (elfRun fuel ok stack sectorStack l s (some filename)).2.2 = some (-1) →
    HeapLeft l.run (elfRun fuel ok stack sectorStack l s (some filename)).1.run ∧
    (elfRun fuel ok stack sectorStack l s (some filename)).2.1 = s

/-- Without success of the load, or without an entry point, `elf_run` ends there. -/
theorem elfRun_failed {code : Int}
    (hload : elfLoadFromVfs fuel ok stack sectorStack l (some filename) (some 0) = (l', some code))
    (hfail : ¬ (code = 0 ∧ l'.entryPoint ≠ 0)) :
    elfRun fuel ok stack sectorStack l s (some filename) = (l', s, some (-1)) := by
  simp only [elfRun, hload, if_neg hfail]

/-- The same for a load that came to an end, with `got` of the `wanted` segments. -/
theorem elfRun_incomplete {got wanted : Nat}
    (hload : elfLoadFromVfs fuel ok stack sectorStack l (some filename) (some 0) =
      (l', some (if got = wanted then 0 else -1)))
    (hnot : ¬ (got = wanted ∧ l'.entryPoint ≠ 0)) :
    elfRun fuel ok stack sectorStack l s (some filename) = (l', s, some (-1)) := by
  apply elfRun_failed hload
  by_cases hall : got = wanted
  · simpa [hall] using hnot
  · simp [hall]

/-- With both it does not fail any more. -/
theorem elfRun_added
    (hload : elfLoadFromVfs fuel ok stack sectorStack l (some filename) (some 0) = (l', some 0))
    (hentry : l'.entryPoint ≠ 0) :
    (∃ r s', addUserProcess fuel l'.run s (BitVec.ofNat 32 l'.entryPoint)
        (Loader.nameText filename) = some (r, s') ∧
      elfRun fuel ok stack sectorStack l s (some filename) = ({ l' with run := r }, s', some 0)) ∨
    (elfRun fuel ok stack sectorStack l s (some filename)).2.2 = none := by
  simp only [elfRun, hload, Option.getD_some, hentry, ne_eq, not_false_eq_true, and_self, if_true]
  cases hadd : addUserProcess fuel l'.run s (BitVec.ofNat 32 l'.entryPoint)
    (Loader.nameText filename) with
  | none => exact .inr rfl
  | some out => exact .inl ⟨out.1, out.2, rfl, rfl⟩

theorem elfRun_hangs
    (hload : (elfLoadFromVfs fuel ok stack sectorStack l (some filename) (some 0)).2 = none) :
    (elfRun fuel ok stack sectorStack l s (some filename)).2.2 = none := by
  simp only [elfRun]
  generalize elfLoadFromVfs fuel ok stack sectorStack l (some filename) (some 0) = out at hload ⊢
  obtain ⟨l', code⟩ := out
  obtain rfl : code = none := hload
  rfl

/-- A file that is not accepted never gets to the heap. -/
theorem leavesNoTrace_rejected
    (hread : fileRead ok stack sectorStack l.vfs filename = (buffer, readInt))
    (hnot : ¬ Accepted buffer readInt) (s : Sched) (e : Nat) :
    LeavesNoTrace fuel ok stack sectorStack l s filename e := by
  obtain ⟨l₁, hload, hrun₁⟩ := elfLoadFromVfs_rejected hread hnot fuel e
  obtain ⟨l₀, hzero, hrun₀⟩ := elfLoadFromVfs_rejected hread hnot fuel 0
  have hrun := elfRun_failed (s := s) hzero (by simp)
  refine ⟨fun _ => ?_, fun _ => ?_⟩
  · rw [hload, hrun₁]
    exact ⟨rfl, rfl⟩
  · rw [hrun, hrun₀]
    exact ⟨⟨rfl, rfl⟩, rfl⟩

/-- A load that hangs does not fail. -/
theorem leavesNoTrace_hangs
    (hread : fileRead ok stack sectorStack l.vfs filename = (buffer, readInt))
    (haccepted : Accepted buffer readInt)
    (halloc : l.run.allocAll fuel (requestsOf buffer) = none) (s : Sched) (e : Nat) :
    LeavesNoTrace fuel ok stack sectorStack l s filename e := by
  have hload := elfLoadFromVfs_hangs hread haccepted halloc e
  have hrun := elfRun_hangs (s := s) (elfLoadFromVfs_hangs hread haccepted halloc 0)
  refine ⟨fun h => ?_, fun h => ?_⟩
  · simp [hload] at h
  · simp [hrun] at h

/-- A load that comes to an end, by the pointers it got. -/
theorem leavesNoTrace_loads_iff (hpaged : l.run.heap.Paged)
    (hread : fileRead ok stack sectorStack l.vfs filename = (buffer, readInt))
    (haccepted : Accepted buffer readInt)
    (halloc : l.run.allocAll fuel (requestsOf buffer) = some (r, ps)) (s : Sched) (e : Nat) :
    LeavesNoTrace fuel ok stack sectorStack l s filename e ↔
      ps = [] ∨ ps.length = (segmentsOf buffer).length ∧
        entryIn (ehdrAt buffer).eEntry (ehdrAt buffer).eEntry
          ((segmentsOf buffer).zip ps) ≠ 0 := by
  obtain ⟨l₁, hload, hrun₁, -, -⟩ := elfLoadFromVfs_loads hread haccepted halloc e
  obtain ⟨l₀, hzero, hrun₀, -, hentry⟩ := elfLoadFromVfs_loads hread haccepted halloc 0
  rw [← hentry]
  by_cases hstarts : ps.length = (segmentsOf buffer).length ∧ l₀.entryPoint ≠ 0
  · -- nothing fails
    rw [if_pos hstarts.1] at hload hzero
    refine iff_of_true ⟨fun h => ?_, fun h => ?_⟩ (.inr hstarts)
    · simp [hload] at h
    · rcases elfRun_added (s := s) hzero hstarts.2 with ⟨r', s', -, hrun⟩ | hrun <;>
        simp [hrun] at h
  · have hrun := elfRun_incomplete (s := s) hzero hstarts
    rw [or_iff_left hstarts, ← allocAll_left_iff hpaged halloc]
    constructor
    · intro h
      have hrest := (h.run (by rw [hrun])).1
      rwa [hrun, hrun₀] at hrest
    · intro hsame
      refine ⟨fun _ => ?_, fun _ => ?_⟩
      · rwa [hload, hrun₁]
      · rw [hrun, hrun₀]
        exact ⟨hsame, rfl⟩

/-- A failure leaves no trace exactly if it comes before any segment has got memory. -/
theorem failed_load_leaves_no_trace_iff (hpaged : l.run.heap.Paged)
    (hread : fileRead ok stack sectorStack l.vfs filename = (buffer, readInt)) (s : Sched)
    (e : Nat) :
    LeavesNoTrace fuel ok stack sectorStack l s filename e ↔
      (Accepted buffer readInt → ∀ r ps,
        l.run.allocAll fuel (requestsOf buffer) = some (r, ps) →
        ps = [] ∨ ps.length = (segmentsOf buffer).length ∧
          entryIn (ehdrAt buffer).eEntry (ehdrAt buffer).eEntry
            ((segmentsOf buffer).zip ps) ≠ 0) := by
  by_cases haccepted : Accepted buffer readInt
  · cases halloc : l.run.allocAll fuel (requestsOf buffer) with
    | none => exact iff_of_true (leavesNoTrace_hangs hread haccepted halloc s e) (by simp)
    | some out =>
      obtain ⟨r, ps⟩ := out
      rw [leavesNoTrace_loads_iff hpaged hread haccepted halloc]
      constructor
      · intro h _ r' ps' heq
        obtain ⟨-, rfl⟩ := Prod.mk.inj (Option.some.inj heq)
        exact h
      · intro h
        exact h haccepted r ps rfl
  · exact iff_of_true (leavesNoTrace_rejected hread haccepted s e) fun h => absurd h haccepted

theorem smallHeap_paged : smallHeap.Paged := by
  intro need fuel b hfind
  cases fuel with
  | zero => simp [findFit] at hfind
  | succ fuel =>
    have hb : b = 0 := by simpa [findFit, show smallHeap.head = 0 from rfl] using hfind.symm
    rw [hb]
    rfl

/-- A segment that is larger than the machine. -/
def hugeImage : List UInt8 := elfImage 0x8000 [⟨1, 0, 0x8000, 0, 300000⟩]

theorem failed_load_leaves_no_trace_huge :
    (elfRun 2 reliable (fun _ => 0) (fun _ => 0) (imageLoader hugeImage smallHeap) .powerOn
      (some [97])).2.2 = some (-1) ∧
    LeavesNoTrace 2 reliable (fun _ => 0) (fun _ => 0) (imageLoader hugeImage smallHeap) .powerOn
      [97] 0 := by
  have hread := imageBuffer_read hugeImage 84 (by decide +kernel)
  refine ⟨by decide +kernel, (failed_load_leaves_no_trace_iff
    (l := imageLoader hugeImage smallHeap) smallHeap_paged hread .powerOn 0).mpr
    fun _ r ps halloc => .inl ?_⟩
  have hptrs : (HeapRun.allocAll 2 ⟨smallHeap, []⟩
      (requestsOf (imageBuffer hugeImage))).map Prod.snd = some [] := by decide +kernel
  rw [show (imageLoader hugeImage smallHeap).run = ⟨smallHeap, []⟩ from rfl] at halloc
  simpa [halloc] using hptrs

/-- A segment of 6 bytes before the one that is too large. -/
def leakImage : List UInt8 :=
  elfImage 0x8000 [⟨1, 0, 0x8000, 0, 6⟩, ⟨1, 0, 0x9000, 0, 300000⟩]

/-- The memory of the first segment is lost. -/
theorem failed_load_leaks_segment :
    ¬ ∀ (fuel : Nat) (ok : Nat → Bool) (stack sectorStack : Nat → UInt8) (l : Loader)
      (s : Sched) (filename : List UInt8) (e : Nat), l.run.heap.Paged →
      LeavesNoTrace fuel ok stack sectorStack l s filename e := by
  intro hall
  have hclean := hall 2 reliable (fun _ => 0) (fun _ => 0) (imageLoader leakImage smallHeap)
    .powerOn [97] 0 smallHeap_paged
  have hlive : (elfLoadFromVfs 2 reliable (fun _ => 0) (fun _ => 0)
      (imageLoader leakImage smallHeap) (some [97]) (some 0)).1.run.live = [4112] := by
    decide +kernel
  have hsame := (hclean.load (by decide +kernel)).live
  rw [hlive] at hsame
  exact absurd hsame (by decide)

end Failure

section Started

variable {entry : Nat} {name : String}

/-- One ready process is new, and it starts at the byte of a loaded segment that the file has at
`entry`. -/
structure Started (entry : Nat) (segs : List (Elf32Phdr × Nat)) (s s' : Sched) : Prop where
  count : s'.processCount = s.processCount + 1
  others : ∀ i ≠ s.processCount, s'.processes i = s.processes i
  process : ∃ p, s'.processes s.processCount = some p ∧ p.state = .ready ∧
    ∃ seg ∈ segs, seg.1.Contains entry ∧
      p.entryPoint = BitVec.ofNat 32 (seg.2 + (entry - seg.1.pVaddr))

theorem entryIn_some (hsome : ∃ seg ∈ segs, seg.1.HasEntry entry) :
    ∃ seg ∈ segs, seg.1.HasEntry entry ∧
      entryIn entry e segs = add32 seg.2 (entry - seg.1.pVaddr) := by
  cases hfind : segs.reverse.find? fun seg => seg.1.HasEntry entry with
  | none =>
    obtain ⟨seg, hseg, hhas⟩ := hsome
    have hnot := List.find?_eq_none.mp hfind seg (List.mem_reverse.mpr hseg)
    simp [hhas] at hnot
  | some seg =>
    refine ⟨seg, List.mem_reverse.mp (List.mem_of_find?_eq_some hfind), ?_, ?_⟩
    · simpa using List.find?_some hfind
    · simp [entryIn, hfind]

/-- The entry point is a loaded byte if the loader found a segment for it; without one the raw
address is right only if its segment happens to lie where the file wants it. -/
theorem entry_loaded_iff (hof : ∀ seg ∈ segs, seg.1 ∈ segmentsOf buffer)
    (hptr : ∀ seg ∈ segs, seg.2 < 2 ^ 32) (hentry : entry < 2 ^ 32) :
    (∃ seg ∈ segs, seg.1.Contains entry ∧ BitVec.ofNat 32 (entryIn entry entry segs) =
      BitVec.ofNat 32 (seg.2 + (entry - seg.1.pVaddr))) ↔
    ∃ seg ∈ segs, seg.1.Contains entry ∧
      (seg.1.pVaddr + seg.1.pMemsz < 2 ^ 32 ∨ seg.2 = seg.1.pVaddr) := by
  by_cases hfound : ∃ seg ∈ segs, seg.1.HasEntry entry
  · obtain ⟨seg, hseg, hhas, heq⟩ := entryIn_some (e := entry) hfound
    obtain ⟨hin, hend⟩ := (Elf32Phdr.hasEntry_iff (hof seg hseg)).mp hhas
    refine iff_of_true ⟨seg, hseg, hin, ?_⟩ ⟨seg, hseg, hin, .inl hend⟩
    rw [heq]
    apply BitVec.eq_of_toNat_eq
    simp [add32]
  · have hnone : ∀ seg ∈ segs, ¬ seg.1.HasEntry entry := fun seg hseg hhas =>
      hfound ⟨seg, hseg, hhas⟩
    rw [entryIn_none hnone]
    refine exists_congr fun seg => and_congr_right fun hseg => and_congr_right fun hin => ?_
    have hwraps : ¬ seg.1.pVaddr + seg.1.pMemsz < 2 ^ 32 := fun hend =>
      hnone seg hseg ((Elf32Phdr.hasEntry_iff (hof seg hseg)).mpr ⟨hin, hend⟩)
    have hlt := hptr seg hseg
    have hle := hin.1
    rw [or_iff_right hwraps]
    constructor
    · intro heq
      have hmod := congrArg BitVec.toNat heq
      simp only [BitVec.toNat_ofNat] at hmod
      omega
    · intro heq
      rw [heq, Nat.add_sub_cancel' hle]

/-- Without a slot or without memory the function prints a line; with both there is one process
more. -/
theorem addUserProcess_cases {entry : Word}
    (hadd : addUserProcess fuel r s entry name = some (r', s')) :
    (¬ (s.processCount < maxProcesses ∧
        ∃ r₁ p, r.alloc fuel processSize = some (r₁, p) ∧ p ≠ 0) ∧
      s'.processCount = s.processCount) ∨
    (s.processCount < maxProcesses ∧
      ∃ r₁ p, r.alloc fuel processSize = some (r₁, p) ∧ p ≠ 0 ∧
      Added s s' (newProcess s (BitVec.ofNat 32 p) entry name)
        (userFrame (newProcess s (BitVec.ofNat 32 p) entry name))) := by
  simp only [addUserProcess] at hadd
  by_cases hfull : s.processCount ≥ maxProcesses
  · rw [if_pos hfull] at hadd
    obtain ⟨-, rfl⟩ := Prod.mk.inj (Option.some.inj hadd)
    refine .inl ⟨fun h => by omega, ?_⟩
    rw [schedulerAddUserProcess, addProcess, if_pos hfull]
    rfl
  · rw [if_neg hfull] at hadd
    obtain ⟨⟨r₁, p⟩, halloc, heq⟩ := Option.map_eq_some_iff.mp hadd
    obtain ⟨-, rfl⟩ := Prod.mk.inj heq
    by_cases hp : p = 0
    · refine .inl ⟨?_, ?_⟩
      · rintro ⟨-, r₂, q, hq, hne⟩
        rw [halloc, hp] at hq
        exact hne (Prod.mk.inj (Option.some.inj hq)).2.symm
      · have hnull : BitVec.ofNat 32 p = 0 := hp ▸ rfl
        rw [schedulerAddUserProcess, addProcess, if_neg hfull, if_pos hnull]
        rfl
    · have hne : BitVec.ofNat 32 p ≠ 0 := by
        intro hz
        have hzero := congrArg BitVec.toNat hz
        rw [BitVec.toNat_ofNat, Nat.mod_eq_of_lt (alloc_lt halloc)] at hzero
        exact hp hzero
      exact .inr ⟨by omega, r₁, p, halloc, hp,
        addProcess_added entry name userFrame _ _ (by omega) hne⟩

/-- Adding a process starts it exactly if there is a slot and memory for it. -/
theorem addUserProcess_started_iff {point : Nat}
    (hadd : addUserProcess fuel r s (BitVec.ofNat 32 point) name = some (r', s')) :
    Started entry segs s s' ↔
      s.processCount < maxProcesses ∧
      (∃ r₁ p, r.alloc fuel processSize = some (r₁, p) ∧ p ≠ 0) ∧
      ∃ seg ∈ segs, seg.1.Contains entry ∧
        BitVec.ofNat 32 point = BitVec.ofNat 32 (seg.2 + (entry - seg.1.pVaddr)) := by
  rcases addUserProcess_cases hadd with ⟨hnot, hsame⟩ | ⟨hroom, r₁, p, halloc, hp, hadded⟩
  · refine iff_of_false (fun h => ?_) (fun h => hnot ⟨h.1, h.2.1⟩)
    have hcount := h.count
    omega
  · have hnew := hadded.new
    constructor
    · intro h
      obtain ⟨q, hq, -, hseg⟩ := h.process
      rw [hnew] at hq
      obtain rfl := Option.some.inj hq
      exact ⟨hroom, ⟨r₁, p, halloc, hp⟩, hseg⟩
    · rintro ⟨-, -, hseg⟩
      refine ⟨hadded.count, fun i hi => ?_, _, hnew, rfl, hseg⟩
      rw [hadded.processes, Function.update_of_ne hi]

/-- A file without segments. -/
def emptyImage : List UInt8 := elfImage 0x8000 []

end Started

end HumanOS

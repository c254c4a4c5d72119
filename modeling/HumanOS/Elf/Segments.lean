import HumanOS.Elf.Model

/-!
# What the loop over the program headers does

The loop asks for memory, segment by segment, until one request fails. Taken apart, it is a row of
`kmalloc` calls and, for each segment that got memory, two stretches of bytes written there.
-/
namespace HumanOS

open Lib

variable {fuel readBytes entry e : Nat} {buffer : Nat → UInt8} {header : Elf32Ehdr}
variable {phdr : Elf32Phdr} {is : List Nat} {l l' : Loader} {r r' : HeapRun} {sizes ps : List Nat}
variable {p i : Nat} {mem : Word → UInt8} {a : Word} {segs : List (Elf32Phdr × Nat)}

/-- The segments to load among these headers. -/
def loadsOf (buffer : Nat → UInt8) (header : Elf32Ehdr) (is : List Nat) : List Elf32Phdr :=
  (is.map (phdrAt buffer header)).filter (·.pType = ptLoad)

/-- Memory for one request after the other, up to the first that fails. -/
def HeapRun.allocAll (fuel : Nat) : HeapRun → List Nat → Option (HeapRun × List Nat)
  | r, [] => some (r, [])
  | r, size :: sizes =>
    match r.alloc fuel size with
    | none => none
    | some (r, p) =>
      if p = 0 then some (r, [])
      else (allocAll fuel r sizes).map fun (r, ps) => (r, p :: ps)

/-- Memory with one segment in its place: the bytes of the file, and zeros up to its end. -/
def placed (buffer : Nat → UInt8) (readBytes : Nat) (mem : Word → UInt8)
    (seg : Elf32Phdr × Nat) : Word → UInt8 := fun a =>
  let k := (a - BitVec.ofNat 32 seg.2).toNat
  if seg.1.pFilesz ≤ k ∧ k < seg.1.pMemsz then 0
  else if k < seg.1.copied readBytes then bufferFrom buffer seg.1.pOffset k
  else mem a

/-- Where `entry` is found in the last of the segments that has it. -/
def entryIn (entry e : Nat) (segs : List (Elf32Phdr × Nat)) : Nat :=
  ((segs.reverse.find? fun seg => seg.1.HasEntry entry).map fun seg =>
    add32 seg.2 (entry - seg.1.pVaddr)).getD e

section Bytes

theorem phdrAt_lt (buffer : Nat → UInt8) (header : Elf32Ehdr) (i : Nat) :
    (phdrAt buffer header i).pOffset < 2 ^ 32 ∧ (phdrAt buffer header i).pVaddr < 2 ^ 32 ∧
    (phdrAt buffer header i).pFilesz < 2 ^ 32 ∧ (phdrAt buffer header i).pMemsz < 2 ^ 32 :=
  ⟨loadLE_lt, loadLE_lt, loadLE_lt, loadLE_lt⟩

/-- A loop over `dest[k]` writes each byte once. -/
theorem stored_apply {lo n : Nat} {f : Nat → UInt8} (hn : lo + n ≤ 2 ^ 32) (dest : Word) :
    writeAll (fun k => dest + BitVec.ofNat 32 k) f mem (List.range' lo n) a =
      if lo ≤ (a - dest).toNat ∧ (a - dest).toNat < lo + n then f (a - dest).toNat
      else mem a := by
  have hinv : ∀ k < 2 ^ 32, (dest + BitVec.ofNat 32 k - dest).toNat = k := by
    intro k hk
    rw [BitVec.add_comm, BitVec.add_sub_cancel, BitVec.toNat_ofNat, Nat.mod_eq_of_lt hk]
  have hkey : dest + BitVec.ofNat 32 (a - dest).toNat = a := by
    rw [BitVec.ofNat_toNat, BitVec.setWidth_eq, BitVec.add_comm, BitVec.sub_add_cancel]
  by_cases hin : lo ≤ (a - dest).toNat ∧ (a - dest).toNat < lo + n
  · have hone : ∀ k ∈ List.range' lo n,
        dest + BitVec.ofNat 32 k = dest + BitVec.ofNat 32 (a - dest).toNat →
          k = (a - dest).toNat := by
      intro k hk heq
      rw [List.mem_range'_1] at hk
      have hback := congrArg (fun b => (b - dest).toNat) heq
      simpa only [hinv k (by omega), hkey] using hback
    have hwrite := @writeAll_of_mem _ _ _ _ (fun k => dest + BitVec.ofNat 32 k) f mem _ _
      (List.mem_range'_1.mpr hin) hone
    simp only [hkey] at hwrite
    rw [if_pos hin, hwrite]
  · rw [if_neg hin]
    apply writeAll_of_not_mem
    rintro k hk rfl
    rw [List.mem_range'_1] at hk
    rw [hinv k (by omega)] at hin
    omega

/-- The two loops of a segment. -/
theorem loadSegment_mem (hfile : phdr.pFilesz < 2 ^ 32) (hmem : phdr.pMemsz < 2 ^ 32) :
    (loadSegment buffer readBytes entry i phdr p l).mem =
      placed buffer readBytes l.mem (phdr, p) := by
  have hstores : (loadSegment buffer readBytes entry i phdr p l).mem =
      writeAll (fun k => BitVec.ofNat 32 p + BitVec.ofNat 32 k) (fun _ => 0)
        (writeAll (fun k => BitVec.ofNat 32 p + BitVec.ofNat 32 k)
          (bufferFrom buffer phdr.pOffset) l.mem (List.range (phdr.copied readBytes)))
        (List.range' phdr.pFilesz (phdr.pMemsz - phdr.pFilesz)) := by
    simp only [loadSegment]
    split <;> rfl
  have hcopied : phdr.copied readBytes ≤ phdr.pFilesz := Nat.min_le_left _ _
  funext a
  rw [hstores, List.range_eq_range', stored_apply (by omega), stored_apply (by omega)]
  simp only [placed]
  refine if_congr ?_ rfl (if_congr ?_ rfl rfl) <;> omega

end Bytes

section Loop

theorem loadsOf_cons : loadsOf buffer header (i :: is) =
    if (phdrAt buffer header i).pType = ptLoad then
      phdrAt buffer header i :: loadsOf buffer header is
    else loadsOf buffer header is := by
  simp only [loadsOf, List.map_cons, List.filter_cons, decide_eq_true_eq]

theorem entryIn_cons (seg : Elf32Phdr × Nat) : entryIn entry e (seg :: segs) =
    entryIn entry (if seg.1.HasEntry entry then add32 seg.2 (entry - seg.1.pVaddr) else e)
      segs := by
  simp only [entryIn, List.reverse_cons, List.find?_append]
  cases segs.reverse.find? fun seg => seg.1.HasEntry entry with
  | some seg' => rfl
  | none => by_cases hseg : seg.1.HasEntry entry <;> simp [hseg]

/-- The fields of a segment loaded, apart from the indices read and written. -/
theorem loadSegment_state : (loadSegment buffer readBytes entry i phdr p l).run = l.run ∧
    (loadSegment buffer readBytes entry i phdr p l).entryPoint =
      if phdr.HasEntry entry then add32 p (entry - phdr.pVaddr) else l.entryPoint := by
  simp only [loadSegment]
  split <;> exact ⟨rfl, rfl⟩

/-- The loader once it has read a `PT_LOAD` header up to the request for memory. -/
def Loader.headerRead (l : Loader) (header : Elf32Ehdr) (i : Nat) : Loader :=
  (l.reading (phdrIndex header i) 4).reading (phdrIndex header i + 20) 4

/-- What one round of the loop does: skip the header, hang or fail in `kmalloc`, or load the
segment and go on. -/
theorem loadSegments_cons (fuel : Nat) (buffer : Nat → UInt8) (readBytes : Nat)
    (header : Elf32Ehdr) (i : Nat) (is : List Nat) (l : Loader) :
    ((phdrAt buffer header i).pType ≠ ptLoad ∧
      loadSegments fuel buffer readBytes header (i :: is) l =
        loadSegments fuel buffer readBytes header is (l.reading (phdrIndex header i) 4)) ∨
    ((phdrAt buffer header i).pType = ptLoad ∧
      l.run.alloc fuel (phdrAt buffer header i).request = none ∧
      loadSegments fuel buffer readBytes header (i :: is) l = (l.headerRead header i, none)) ∨
    ((phdrAt buffer header i).pType = ptLoad ∧
      ∃ run, l.run.alloc fuel (phdrAt buffer header i).request = some (run, 0) ∧
        loadSegments fuel buffer readBytes header (i :: is) l =
          (({ l.headerRead header i with run } : Loader).puts
            "[ELF] Error: Out of memory loading segment\n" 0x0C, some (-1))) ∨
    ((phdrAt buffer header i).pType = ptLoad ∧
      ∃ run p, p ≠ 0 ∧ l.run.alloc fuel (phdrAt buffer header i).request = some (run, p) ∧
        loadSegments fuel buffer readBytes header (i :: is) l =
          loadSegments fuel buffer readBytes header is (loadSegment buffer readBytes header.eEntry
            (phdrIndex header i) (phdrAt buffer header i) p
            { l.headerRead header i with run })) := by
  by_cases htype : (phdrAt buffer header i).pType = ptLoad
  · right
    have hrun : (l.headerRead header i).run = l.run := rfl
    simp only [loadSegments, htype, if_true, true_and]
    rw [← Loader.headerRead, hrun]
    cases halloc : l.run.alloc fuel (phdrAt buffer header i).request with
    | none => exact .inl ⟨rfl, rfl⟩
    | some out =>
      obtain ⟨run, p⟩ := out
      by_cases hp : p = 0
      · exact .inr (.inl ⟨run, by rw [hp], by simp only [hp, if_true]⟩)
      · exact .inr (.inr ⟨run, p, hp, rfl, by simp only [hp, if_false]⟩)
  · exact .inl ⟨htype, by simp only [loadSegments, htype, if_false]⟩

theorem loadSegments_hangs
    (ha : l.run.allocAll fuel ((loadsOf buffer header is).map Elf32Phdr.request) = none) :
    (loadSegments fuel buffer readBytes header is l).2 = none := by
  induction is generalizing l with
  | nil => simp [loadsOf, HeapRun.allocAll] at ha
  | cons i is ih =>
    rw [loadsOf_cons] at ha
    rcases loadSegments_cons fuel buffer readBytes header i is l with
      ⟨htype, heq⟩ | ⟨htype, halloc, heq⟩ | ⟨htype, run, halloc, heq⟩ |
        ⟨htype, run, p, hp, halloc, heq⟩ <;> rw [heq]
    · rw [if_neg htype] at ha
      exact ih ha
    · simp [htype, HeapRun.allocAll, halloc] at ha
    · simp only [htype, if_true, List.map_cons, HeapRun.allocAll, halloc, hp, if_false,
        Option.map_eq_none_iff] at ha
      apply ih
      rw [loadSegment_state.1]
      exact ha

/-- The loop calls `kmalloc` for the segments in order and puts into place those it got memory
for. -/
theorem loadSegments_loads
    (ha : l.run.allocAll fuel ((loadsOf buffer header is).map Elf32Phdr.request) = some (r, ps)) :
    ∃ l', loadSegments fuel buffer readBytes header is l =
        (l', some (if ps.length = (loadsOf buffer header is).length then 0 else -1)) ∧
      l'.run = r ∧
      l'.mem = ((loadsOf buffer header is).zip ps).foldl (placed buffer readBytes) l.mem ∧
      l'.entryPoint = entryIn header.eEntry l.entryPoint ((loadsOf buffer header is).zip ps) := by
  induction is generalizing l ps with
  | nil =>
    obtain ⟨rfl, rfl⟩ := Prod.mk.inj (Option.some.inj ha)
    exact ⟨l, rfl, rfl, rfl, rfl⟩
  | cons i is ih =>
    rw [loadsOf_cons] at ha ⊢
    rcases loadSegments_cons fuel buffer readBytes header i is l with
      ⟨htype, heq⟩ | ⟨htype, halloc, heq⟩ | ⟨htype, run, halloc, heq⟩ |
        ⟨htype, run, p, hp, halloc, heq⟩ <;> rw [heq]
    · rw [if_neg htype] at ha ⊢
      exact ih ha
    · simp [htype, HeapRun.allocAll, halloc] at ha
    · simp only [htype, if_true, List.map_cons, HeapRun.allocAll, halloc] at ha
      obtain ⟨rfl, rfl⟩ := Prod.mk.inj (Option.some.inj ha)
      simp only [htype, if_true]
      exact ⟨_, congrArg (Prod.mk _) (congrArg some (by simp)), rfl, rfl, rfl⟩
    · simp only [htype, if_true, List.map_cons, HeapRun.allocAll, halloc, hp, if_false] at ha
      obtain ⟨⟨r', qs⟩, hrest, hout⟩ := Option.map_eq_some_iff.mp ha
      obtain ⟨rfl, rfl⟩ := Prod.mk.inj hout
      obtain ⟨-, -, hfile, hmemsz⟩ := phdrAt_lt buffer header i
      obtain ⟨l', heq', hrun', hmem', hentry'⟩ := @ih
        (loadSegment buffer readBytes header.eEntry (phdrIndex header i) (phdrAt buffer header i) p
          { l.headerRead header i with run }) qs (by rw [loadSegment_state.1]; exact hrest)
      rw [loadSegment_mem hfile hmemsz] at hmem'
      rw [loadSegment_state.2] at hentry'
      simp only [htype, if_true, List.length_cons, Nat.add_right_cancel_iff, List.zip_cons_cons,
        List.foldl_cons, entryIn_cons]
      exact ⟨l', heq', hrun', hmem', hentry'⟩

end Loop

section Load

variable {readInt : Int} {filename : List UInt8}

/-- The file passes the checks of its size and its header. -/
def Accepted (buffer : Nat → UInt8) (readBytes : Int) : Prop :=
  ehdrSize ≤ readBytes ∧ elfValidate (some (ehdrAt buffer)) = true

/-- The segments of a file. -/
def segmentsOf (buffer : Nat → UInt8) : List Elf32Phdr :=
  loadsOf buffer (ehdrAt buffer) (List.range (ehdrAt buffer).ePhnum)

/-- What is asked of the heap for a file. -/
def requestsOf (buffer : Nat → UInt8) : List Nat := (segmentsOf buffer).map Elf32Phdr.request

theorem elfLoadBuffer_rejected (h : ¬ Accepted buffer readInt) :
    ∃ l', elfLoadBuffer fuel buffer readInt filename l = (l', some (-1)) ∧ l'.run = l.run := by
  unfold elfLoadBuffer
  split
  · exact ⟨_, rfl, rfl⟩
  · rename_i hsize
    have hinvalid : elfValidate (some (ehdrAt buffer)) = false := by
      by_contra hvalid
      exact h ⟨by omega, by simpa using hvalid⟩
    simp only [hinvalid, if_true]
    exact ⟨_, rfl, rfl⟩

/-- The report at the end of a load. -/
def reported (filename : List UInt8) : Loader × Option Int → Loader × Option Int
  | (l, some 0) => (l.report "[ELF] Successfully Loaded Binary: " 0x0A filename, some 0)
  | (l, code) => (l, code)

/-- A file that is accepted goes to the loop. -/
theorem elfLoadBuffer_loop (fuel : Nat) (filename : List UInt8) (l : Loader)
    (h : Accepted buffer readInt) :
    elfLoadBuffer fuel buffer readInt filename l =
      reported filename (loadSegments fuel buffer readInt.toNat (ehdrAt buffer)
        (List.range (ehdrAt buffer).ePhnum)
        { l.reading 0 ehdrSize with entryPoint := (ehdrAt buffer).eEntry }) := by
  have hsize : ¬ readInt < ehdrSize := by
    have := h.1
    omega
  simp only [elfLoadBuffer, hsize, if_false, h.2, Bool.true_eq_false]
  rfl

theorem elfLoadBuffer_hangs (filename : List UInt8) (h : Accepted buffer readInt)
    (ha : l.run.allocAll fuel (requestsOf buffer) = none) :
    (elfLoadBuffer fuel buffer readInt filename l).2 = none := by
  have hloop := @loadSegments_hangs fuel readInt.toNat buffer (ehdrAt buffer)
    (List.range (ehdrAt buffer).ePhnum)
    { l.reading 0 ehdrSize with entryPoint := (ehdrAt buffer).eEntry } ha
  rw [elfLoadBuffer_loop fuel filename l h]
  generalize loadSegments fuel buffer readInt.toNat (ehdrAt buffer) _ _ = out at hloop ⊢
  obtain ⟨l', code⟩ := out
  obtain rfl : code = none := hloop
  rfl

/-- A file that is accepted, in terms of its segments. -/
theorem elfLoadBuffer_loads (filename : List UInt8) (h : Accepted buffer readInt)
    (ha : l.run.allocAll fuel (requestsOf buffer) = some (r, ps)) :
    ∃ l', elfLoadBuffer fuel buffer readInt filename l =
        (l', some (if ps.length = (segmentsOf buffer).length then 0 else -1)) ∧
      l'.run = r ∧
      l'.mem = ((segmentsOf buffer).zip ps).foldl (placed buffer readInt.toNat) l.mem ∧
      l'.entryPoint = entryIn (ehdrAt buffer).eEntry (ehdrAt buffer).eEntry
        ((segmentsOf buffer).zip ps) := by
  obtain ⟨l', heq, hrun, hmem, hentry⟩ := @loadSegments_loads fuel readInt.toNat buffer
    (ehdrAt buffer) (List.range (ehdrAt buffer).ePhnum)
    { l.reading 0 ehdrSize with entryPoint := (ehdrAt buffer).eEntry } r ps ha
  rw [elfLoadBuffer_loop fuel filename l h, heq, ← segmentsOf]
  by_cases hall : ps.length = (segmentsOf buffer).length
  · simp only [if_pos hall]
    exact ⟨_, rfl, hrun, hmem, hentry⟩
  · simp only [if_neg hall]
    exact ⟨_, rfl, hrun, hmem, hentry⟩

end Load

end HumanOS

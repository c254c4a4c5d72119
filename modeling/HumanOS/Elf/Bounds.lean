import HumanOS.Elf.Loaded

/-!
# Which bytes the loader touches

Nothing checks `e_phoff`, `p_offset` or `p_filesz` against the size of the file, nor `p_filesz`
against `p_memsz`. The loop stays inside the file and inside the segments exactly if the headers it
comes to do; it comes to a header if all segments before it got their memory.
-/
namespace HumanOS

open Lib

variable {fuel readBytes entry p i idx : Nat} {buffer : Nat → UInt8} {header : Elf32Ehdr}
variable {phdr : Elf32Phdr} {is : List Nat} {l : Loader} {r : HeapRun} {α : Type}

/-- How many of the requests are served before one is not. -/
def HeapRun.served (fuel : Nat) : HeapRun → List Nat → Nat
  | _, [] => 0
  | r, size :: sizes =>
    match r.alloc fuel size with
    | none => 0
    | some (r, p) => if p = 0 then 0 else served fuel r sizes + 1

/-- Every index read is one of the file, every index written one of its segment. -/
structure InBounds (readBytes : Nat) (l : Loader) : Prop where
  reads : ∀ i ∈ l.reads, i < readBytes
  writes : ∀ w ∈ l.writes, w.1 < w.2

/-- The header is in the file, as far as the loop reads it before it asks for memory. -/
def HeaderInFile (buffer : Nat → UInt8) (readBytes : Nat) (header : Elf32Ehdr) (i : Nat) : Prop :=
  phdrIndex header i + 4 ≤ readBytes ∧
  ((phdrAt buffer header i).pType = ptLoad → phdrIndex header i + 24 ≤ readBytes)

/-- The bytes to copy are in the file, and the segment is large enough for them. -/
def Elf32Phdr.FitsFile (phdr : Elf32Phdr) (readBytes : Nat) : Prop :=
  (phdr.copied readBytes = 0 ∨ phdr.pOffset + phdr.copied readBytes ≤ readBytes) ∧
  phdr.copied readBytes ≤ phdr.request

/-- So it is for the header at `i` that comes after these, with `count` requests served. -/
def HeaderFits (buffer : Nat → UInt8) (readBytes : Nat) (header : Elf32Ehdr) (count : Nat)
    (before : List Nat) (i : Nat) : Prop :=
  (loadsOf buffer header before).length ≤ count →
    HeaderInFile buffer readBytes header i ∧
    ((phdrAt buffer header i).pType = ptLoad → (loadsOf buffer header before).length < count →
      (phdrAt buffer header i).FitsFile readBytes)

section Lists

variable {P : List α → α → Prop} {x : α} {xs : List α}

/-- A property of every element and of those before it, at the front of a list. -/
theorem forall_split_cons :
    (∀ before y after, x :: xs = before ++ y :: after → P before y) ↔
      P [] x ∧ ∀ before y after, xs = before ++ y :: after → P (x :: before) y := by
  constructor
  · intro h
    exact ⟨h [] x xs rfl, fun before y after heq => h (x :: before) y after (by rw [heq]; rfl)⟩
  · rintro ⟨hhead, htail⟩ before y after heq
    cases before with
    | nil =>
      obtain ⟨rfl, -⟩ := List.cons.inj heq
      exact hhead
    | cons z before =>
      obtain ⟨rfl, hrest⟩ := List.cons.inj heq
      exact htail before y after hrest

/-- The same over the numbers below `n`. -/
theorem forall_split_range {P : List Nat → Nat → Prop} {n : Nat} :
    (∀ before y after, List.range n = before ++ y :: after → P before y) ↔
      ∀ i < n, P (List.range i) i := by
  constructor
  · intro h i hi
    refine h (List.range i) i (List.range' (i + 1) (n - (i + 1))) ?_
    have happend := List.range'_append_1 (s := 0) (m := i) (n := n - i)
    rw [Nat.zero_add, Nat.add_sub_cancel' hi.le] at happend
    rw [List.range_eq_range', List.range_eq_range', ← happend,
      show n - i = n - (i + 1) + 1 by omega, List.range'_succ]
  · intro h before y after heq
    have hlen : before.length < n := by
      have := congrArg List.length heq
      simp only [List.length_range, List.length_append, List.length_cons] at this
      omega
    have hbefore : before = List.range before.length := by
      have := congrArg (List.take before.length) heq
      rw [List.take_range, Nat.min_eq_left hlen.le, List.take_left] at this
      exact this.symm
    have hy : before.length = y := by
      have := congrArg (fun xs => xs[before.length]?) heq
      simpa [hlen] using this
    rw [← hy, hbefore, List.length_range]
    exact h _ hlen

end Lists

section Accesses

/-- A row of bytes is in the file exactly if its first and last are, without wrapping round. -/
theorem range_inside {n a : Nat} (hread : readBytes ≤ 1023) (ha : a < 2 ^ 32) :
    (∀ k < n, (a + k) % 2 ^ 32 < readBytes) ↔ n = 0 ∨ a + n ≤ readBytes := by
  constructor
  · intro h
    by_cases hn : n = 0
    · exact .inl hn
    · right
      have hfirst := h 0 (by omega)
      by_contra hlong
      have hend := h (readBytes - a) (by omega)
      omega
  · rintro (hn | hle) k hk <;> omega

theorem reading_inBounds {a n : Nat} : InBounds readBytes (l.reading a n) ↔
    InBounds readBytes l ∧ ∀ k < n, (a + k) % 2 ^ 32 < readBytes := by
  constructor
  · intro h
    refine ⟨⟨fun j hj => h.reads j (List.mem_append_left _ hj), h.writes⟩, fun k hk => ?_⟩
    exact h.reads _ (List.mem_append_right _ (List.mem_map.mpr ⟨k, List.mem_range.mpr hk, rfl⟩))
  · rintro ⟨h, hnew⟩
    refine ⟨fun j hj => ?_, h.writes⟩
    rcases List.mem_append.mp hj with hj | hj
    · exact h.reads j hj
    · obtain ⟨k, hk, rfl⟩ := List.mem_map.mp hj
      exact hnew k (List.mem_range.mp hk)

theorem store_inBounds {segMem size : Nat} {ks : List Nat} {f : Nat → UInt8} :
    InBounds readBytes (l.store segMem size ks f) ↔
      InBounds readBytes l ∧ ∀ k ∈ ks, k < size := by
  constructor
  · intro h
    refine ⟨⟨h.reads, fun w hw => h.writes w (List.mem_append_left _ hw)⟩, fun k hk => ?_⟩
    exact h.writes _ (List.mem_append_right _ (List.mem_map.mpr ⟨k, hk, rfl⟩))
  · rintro ⟨h, hnew⟩
    refine ⟨h.reads, fun w hw => ?_⟩
    rcases List.mem_append.mp hw with hw | hw
    · exact h.writes w hw
    · obtain ⟨k, hk, rfl⟩ := List.mem_map.mp hw
      exact hnew k hk

/-- The indices alone decide. -/
theorem inBounds_congr {l' : Loader} (hr : l'.reads = l.reads) (hw : l'.writes = l.writes) :
    InBounds readBytes l' ↔ InBounds readBytes l := by
  constructor
  · intro h
    exact ⟨hr ▸ h.reads, hw ▸ h.writes⟩
  · intro h
    exact ⟨hr.symm ▸ h.reads, hw.symm ▸ h.writes⟩

end Accesses

section Segments

/-- What a segment adds to the reads of its header. -/
theorem loadSegment_inBounds (buffer : Nat → UInt8) (entry p : Nat) (hread : readBytes ≤ 1023)
    (hoff : phdr.pOffset < 2 ^ 32)
    (hidx : InBounds readBytes l → idx + 24 ≤ readBytes) :
    InBounds readBytes (loadSegment buffer readBytes entry idx phdr p l) ↔
      InBounds readBytes l ∧ phdr.FitsFile readBytes := by
  have hfield : ∀ a, a + 4 ≤ readBytes → ∀ k < 4, (a + k) % 2 ^ 32 < readBytes :=
    fun a ha k hk => by omega
  have hzero : ∀ k ∈ List.range' phdr.pFilesz (phdr.pMemsz - phdr.pFilesz),
      k < phdr.request := by
    intro k hk
    rw [List.mem_range'_1] at hk
    have := phdr.pMemsz_le_request
    omega
  have hcopy : (∀ k ∈ List.range (phdr.copied readBytes), k < phdr.request) ↔
      phdr.copied readBytes ≤ phdr.request := by
    constructor
    · intro h
      by_contra hlong
      have := h phdr.request (List.mem_range.mpr (by omega))
      omega
    · intro h k hk
      have := List.mem_range.mp hk
      omega
  have hcore : InBounds readBytes (loadSegment buffer readBytes entry idx phdr p l) ↔
      InBounds readBytes ((((((l.reading (idx + 4) 4).reading (idx + 16) 4).reading phdr.pOffset
        (phdr.copied readBytes)).store p phdr.request (List.range (phdr.copied readBytes))
        (bufferFrom buffer phdr.pOffset)).store p phdr.request
        (List.range' phdr.pFilesz (phdr.pMemsz - phdr.pFilesz)) fun _ => 0).reading
        (idx + 8) 4) := by
    simp only [loadSegment]
    split
    · exact inBounds_congr rfl rfl
    · exact Iff.rfl
  rw [hcore, reading_inBounds, store_inBounds, store_inBounds, reading_inBounds,
    reading_inBounds, reading_inBounds, hcopy, range_inside hread hoff]
  constructor
  · rintro ⟨⟨⟨⟨⟨⟨hl, -⟩, -⟩, hcopied⟩, hroom⟩, -⟩, -⟩
    exact ⟨hl, hcopied, hroom⟩
  · rintro ⟨hl, hcopied, hroom⟩
    have hheader := hidx hl
    exact ⟨⟨⟨⟨⟨⟨hl, hfield _ (by omega)⟩, hfield _ (by omega)⟩, hcopied⟩,
      hroom⟩, hzero⟩, hfield _ (by omega)⟩

/-- The reads of a header up to the request for memory. -/
theorem header_inBounds (hread : readBytes ≤ 1023)
    (hload : (phdrAt buffer header i).pType = ptLoad) :
    InBounds readBytes (l.headerRead header i) ↔
      InBounds readBytes l ∧ HeaderInFile buffer readBytes header i := by
  have hidx : phdrIndex header i < 2 ^ 32 := Nat.mod_lt _ (by decide)
  rw [Loader.headerRead, reading_inBounds, reading_inBounds, range_inside hread hidx]
  simp only [HeaderInFile, hload, forall_const]
  constructor
  · rintro ⟨⟨hl, hfirst⟩, hlast⟩
    have hend := hlast 3 (by decide)
    exact ⟨hl, by omega, by omega⟩
  · rintro ⟨hl, hfirst, hlast⟩
    exact ⟨⟨hl, by omega⟩, fun k hk => by omega⟩

/-- The loop stays in bounds exactly if the headers it comes to do. -/
theorem loadSegments_inBounds (fuel : Nat) (buffer : Nat → UInt8) (header : Elf32Ehdr)
    (hread : readBytes ≤ 1023) (is : List Nat) (l : Loader) :
    InBounds readBytes (loadSegments fuel buffer readBytes header is l).1 ↔
      InBounds readBytes l ∧ ∀ before i after, is = before ++ i :: after →
        HeaderFits buffer readBytes header
          (l.run.served fuel ((loadsOf buffer header is).map Elf32Phdr.request)) before i := by
  have hnone : loadsOf buffer header [] = [] := rfl
  induction is generalizing l with
  | nil => simp [loadSegments]
  | cons i is ih =>
    rw [forall_split_cons]
    rcases loadSegments_cons fuel buffer readBytes header i is l with
      ⟨htype, heq⟩ | ⟨htype, halloc, heq⟩ | ⟨htype, run, halloc, heq⟩ |
        ⟨htype, run, p, hp, halloc, heq⟩ <;> rw [heq]
    · have hidx : phdrIndex header i < 2 ^ 32 := Nat.mod_lt _ (by decide)
      have hrun : (l.reading (phdrIndex header i) 4).run = l.run := rfl
      simp only [HeaderFits, HeaderInFile, loadsOf_cons, hnone, htype, if_false, ih,
        reading_inBounds, range_inside hread hidx, hrun, List.length_nil, Nat.zero_le,
        forall_const, false_implies, and_true, and_assoc]
      simp
    · have hheader := header_inBounds (l := l) hread htype
      simpa [HeaderFits, loadsOf_cons, hnone, htype, HeapRun.served, halloc] using hheader
    · have hheader := header_inBounds (l := l) hread htype
      have hfailed : InBounds readBytes (({ l.headerRead header i with run } : Loader).puts
          "[ELF] Error: Out of memory loading segment\n" 0x0C) ↔
          InBounds readBytes (l.headerRead header i) := inBounds_congr rfl rfl
      simpa [HeaderFits, loadsOf_cons, hnone, htype, HeapRun.served, halloc, hfailed] using hheader
    · have hgot : InBounds readBytes ({ l.headerRead header i with run } : Loader) ↔
          InBounds readBytes l ∧ HeaderInFile buffer readBytes header i := by
        rw [← header_inBounds hread htype]
        exact inBounds_congr rfl rfl
      have hsegment := loadSegment_inBounds (l := { l.headerRead header i with run }) buffer
        header.eEntry p hread (phdrAt_lt buffer header i).1 (fun h => (hgot.mp h).2.2 htype)
      simp only [HeaderFits, loadsOf_cons, hnone, htype, if_true, List.map_cons, HeapRun.served,
        halloc, hp, if_false, ih, hsegment, hgot, loadSegment_state.1, List.length_cons,
        List.length_nil, Nat.zero_le, Nat.add_le_add_iff_right, Nat.add_lt_add_iff_right,
        Nat.succ_pos, forall_const, and_assoc]

end Segments

section File

variable {readInt : Int} {filename : List UInt8}
variable {ok : Nat → Bool} {stack sectorStack : Nat → UInt8}

theorem reported_inBounds {out : Loader × Option Int} :
    InBounds readBytes (reported filename out).1 ↔ InBounds readBytes out.1 := by
  unfold reported
  split
  · exact inBounds_congr rfl rfl
  · exact Iff.rfl

theorem elfLoadBuffer_inBounds (hread : readInt ≤ 1023) :
    InBounds readInt.toNat (elfLoadBuffer fuel buffer readInt filename l).1 ↔
      InBounds readInt.toNat l ∧ (Accepted buffer readInt → ∀ i < (ehdrAt buffer).ePhnum,
        HeaderFits buffer readInt.toNat (ehdrAt buffer) (l.run.served fuel (requestsOf buffer))
          (List.range i) i) := by
  by_cases hsize : readInt < ehdrSize
  · have hnot : ¬ Accepted buffer readInt := fun h => by
      have := h.1
      omega
    simp only [elfLoadBuffer, hsize, if_true, hnot, false_implies, and_true]
    exact inBounds_congr rfl rfl
  · have hhead : InBounds readInt.toNat (l.reading 0 ehdrSize) ↔ InBounds readInt.toNat l := by
      rw [reading_inBounds, range_inside (by omega) (by decide)]
      simp only [ehdrSize] at hsize ⊢
      exact and_iff_left (by omega)
    by_cases hvalid : elfValidate (some (ehdrAt buffer)) = true
    · have haccepted : Accepted buffer readInt := ⟨by omega, hvalid⟩
      have hloop := loadSegments_inBounds fuel buffer (ehdrAt buffer)
        (show readInt.toNat ≤ 1023 by omega)
        (List.range (ehdrAt buffer).ePhnum)
        { l.reading 0 ehdrSize with entryPoint := (ehdrAt buffer).eEntry }
      rw [forall_split_range] at hloop
      have hstart : InBounds readInt.toNat
          ({ l.reading 0 ehdrSize with entryPoint := (ehdrAt buffer).eEntry } : Loader) ↔
          InBounds readInt.toNat l := by
        rw [← hhead]
        exact inBounds_congr rfl rfl
      rw [hstart] at hloop
      rw [elfLoadBuffer_loop fuel filename l haccepted]
      simp only [haccepted, forall_const]
      rw [reported_inBounds]
      exact hloop
    · have hnot : ¬ Accepted buffer readInt := fun h => hvalid h.2
      simp only [elfLoadBuffer, hsize, if_false, hvalid, if_true, hnot, false_implies, and_true]
      rw [← hhead]
      exact inBounds_congr rfl rfl

/-- The loader before it has read or written anything. -/
def Loader.untouched (l : Loader) : Loader := { l with reads := [], writes := [] }

/-- The loader stays inside the file and inside its segments exactly if the program headers it comes
to, and the segments it gets memory for, do. -/
theorem loader_in_bounds_iff (hread : fileRead ok stack sectorStack l.vfs filename =
    (buffer, readInt)) (e : Nat) :
    InBounds readInt.toNat (elfLoadFromVfs fuel ok stack sectorStack l.untouched (some filename)
      (some e)).1 ↔
      (Accepted buffer readInt → ∀ i < (ehdrAt buffer).ePhnum,
        HeaderFits buffer readInt.toNat (ehdrAt buffer) (l.run.served fuel (requestsOf buffer))
          (List.range i) i) := by
  obtain ⟨vfs, hload⟩ := elfLoadFromVfs_eq fuel ok stack sectorStack l.untouched filename e
  have hfile : fileRead ok stack sectorStack l.untouched.vfs filename = (buffer, readInt) := hread
  have hsmall := fileRead_le ok stack sectorStack l.vfs filename
  rw [hread] at hsmall
  rw [hload, hfile, elfLoadBuffer_inBounds hsmall]
  have hstart : InBounds readInt.toNat ({ l.untouched with vfs, entryPoint := e } : Loader) :=
    ⟨by simp [Loader.untouched], by simp [Loader.untouched]⟩
  exact and_iff_right hstart

end File

theorem loader_in_bounds_loop :
    InBounds 88 (elfLoadFromVfs 2 reliable (fun _ => 0) (fun _ => 0)
      (imageLoader loopImage smallHeap).untouched (some [97]) (some 0)).1 := by
  have hread := imageBuffer_read loopImage 88 (by decide +kernel)
  have hphdr : phdrAt (imageBuffer loopImage) (ehdrAt (imageBuffer loopImage)) 0 =
      ⟨1, 84, 0x8000, 4, 6⟩ := by decide +kernel
  refine (loader_in_bounds_iff (l := imageLoader loopImage smallHeap) hread 0).mpr
    fun _ i hi _ => ?_
  rw [loopImage_header] at hi
  obtain rfl : i = 0 := Nat.lt_one_iff.mp hi
  rw [HeaderInFile, hphdr, loopImage_header]
  simp [phdrIndex, Elf32Phdr.FitsFile, Elf32Phdr.copied, Elf32Phdr.request]

/-- A header that promises a program header, and nothing behind it. -/
def headerImage : List UInt8 := (elfImage 0x8000 [⟨1, 0, 0, 0, 0⟩]).take ehdrSize

/-- The program header is read from behind the end of the file. -/
theorem loader_reads_beyond_file :
    ¬ ∀ (fuel : Nat) (ok : Nat → Bool) (stack sectorStack buffer : Nat → UInt8) (l : Loader)
      (filename : List UInt8) (readBytes : Int) (e : Nat),
      fileRead ok stack sectorStack l.vfs filename = (buffer, readBytes) →
      InBounds readBytes.toNat (elfLoadFromVfs fuel ok stack sectorStack l.untouched (some filename)
        (some e)).1 := by
  intro hall
  have hfile := imageBuffer_read headerImage 52 (by decide +kernel)
  have hbounds := hall 2 reliable (fun _ => 0) (fun _ => 0) _ (imageLoader headerImage smallHeap)
    [97] 52 0 hfile
  have hread : 52 ∈ (elfLoadFromVfs 2 reliable (fun _ => 0) (fun _ => 0)
      (imageLoader headerImage smallHeap).untouched (some [97]) (some 0)).1.reads := by
    decide +kernel
  exact absurd (hbounds.reads 52 hread) (by decide)

end HumanOS

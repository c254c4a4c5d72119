import HumanOS.Elf.Segments
import HumanOS.Vfs.Refinement

/-!
# Segments are loaded faithfully

A file whose headers agree with its size, and memory that is handed out in regions apart from each
other: then every segment holds its bytes of the file and zeros behind them, whatever was loaded
before and after it.
-/
namespace HumanOS

open Lib

variable {fuel readBytes entry e k : Nat} {buffer stack sectorStack : Nat → UInt8} {ok : Nat → Bool}
variable {l : Loader} {r : HeapRun} {ps : List Nat} {mem : Word → UInt8} {a : Word} {v : Vfs}
variable {seg seg' : Elf32Phdr × Nat} {segs : List (Elf32Phdr × Nat)} {filename : List UInt8}

/-- The array `buffer` and `read_bytes` after `vfs_read_file`. -/
def fileRead (ok : Nat → Bool) (stack sectorStack : Nat → UInt8) (v : Vfs)
    (filename : List UInt8) : (Nat → UInt8) × Int :=
  let (_, buffer, readBytes) := vfsReadFile ok v (some filename) (some stack) 1024 sectorStack
  (buffer.getD stack, readBytes)

/-- The address lies in the segment as the file describes it. -/
def Elf32Phdr.Contains (phdr : Elf32Phdr) (entry : Nat) : Prop :=
  phdr.pVaddr ≤ entry ∧ entry < phdr.pVaddr + phdr.pMemsz

/-- The regions handed out lie in memory and apart from each other. -/
structure FreshRegions (segs : List (Elf32Phdr × Nat)) : Prop where
  inMemory : ∀ seg ∈ segs, seg.2 + seg.1.request ≤ 2 ^ 32
  apart : segs.Pairwise fun seg seg' =>
    seg.2 + seg.1.request ≤ seg'.2 ∨ seg'.2 + seg'.1.request ≤ seg.2

/-- A file that is accepted and whose headers agree with its size. -/
structure SoundFile (buffer : Nat → UInt8) (readBytes : Int) : Prop where
  accepted : Accepted buffer readBytes
  table : (ehdrAt buffer).ePhoff + 32 * (ehdrAt buffer).ePhnum ≤ readBytes
  notEmpty : ∀ phdr ∈ segmentsOf buffer, 0 < phdr.pMemsz
  fits : ∀ phdr ∈ segmentsOf buffer, phdr.pFilesz ≤ phdr.pMemsz
  inside : ∀ phdr ∈ segmentsOf buffer, phdr.pOffset + phdr.pFilesz ≤ readBytes
  addresses : ∀ phdr ∈ segmentsOf buffer, phdr.pVaddr + phdr.pMemsz < 2 ^ 32

/-- What loading these segments has to do to memory and to the entry point. -/
structure LoadedFaithfully (buffer : Nat → UInt8) (segs : List (Elf32Phdr × Nat))
    (l l' : Loader) : Prop where
  file : ∀ seg ∈ segs, ∀ k < seg.1.pFilesz,
    l'.mem (BitVec.ofNat 32 (seg.2 + k)) = buffer (seg.1.pOffset + k)
  zeros : ∀ seg ∈ segs, ∀ k, seg.1.pFilesz ≤ k → k < seg.1.pMemsz →
    l'.mem (BitVec.ofNat 32 (seg.2 + k)) = 0
  rest : ∀ a : Word, (∀ seg ∈ segs, seg.1.request ≤ (a - BitVec.ofNat 32 seg.2).toNat) →
    l'.mem a = l.mem a
  entry : ∀ before seg after, segs = before ++ seg :: after →
    seg.1.Contains (ehdrAt buffer).eEntry →
    (∀ seg' ∈ after, ¬ seg'.1.Contains (ehdrAt buffer).eEntry) →
    l'.entryPoint = seg.2 + ((ehdrAt buffer).eEntry - seg.1.pVaddr)
  noEntry : (∀ seg ∈ segs, ¬ seg.1.Contains (ehdrAt buffer).eEntry) →
    l'.entryPoint = (ehdrAt buffer).eEntry

theorem elfLoadFromVfs_eq (fuel : Nat) (ok : Nat → Bool) (stack sectorStack : Nat → UInt8)
    (l : Loader) (filename : List UInt8) (e : Nat) :
    ∃ vfs, elfLoadFromVfs fuel ok stack sectorStack l (some filename) (some e) =
      elfLoadBuffer fuel (fileRead ok stack sectorStack l.vfs filename).1
        (fileRead ok stack sectorStack l.vfs filename).2 filename
        { l with vfs, entryPoint := e } := ⟨_, rfl⟩

/-- `vfs_read_file` leaves room for its NUL. -/
theorem fileRead_le (ok : Nat → Bool) (stack sectorStack : Nat → UInt8) (v : Vfs)
    (filename : List UInt8) : (fileRead ok stack sectorStack v filename).2 ≤ 1023 := by
  simp only [fileRead, vfsReadFile]
  cases findName (vfsSyncFromDisk ok v).table filename with
  | none => simp
  | some i =>
    simp only [Nat.reduceEqDiff, if_false]
    split <;> omega

section Outcome

variable {readInt : Int}

theorem elfLoadFromVfs_rejected
    (hread : fileRead ok stack sectorStack l.vfs filename = (buffer, readInt))
    (hnot : ¬ Accepted buffer readInt) (fuel e : Nat) :
    ∃ l', elfLoadFromVfs fuel ok stack sectorStack l (some filename) (some e) =
      (l', some (-1)) ∧ l'.run = l.run := by
  obtain ⟨vfs, hload⟩ := elfLoadFromVfs_eq fuel ok stack sectorStack l filename e
  rw [hload, hread]
  exact elfLoadBuffer_rejected hnot

theorem elfLoadFromVfs_hangs
    (hread : fileRead ok stack sectorStack l.vfs filename = (buffer, readInt))
    (haccepted : Accepted buffer readInt)
    (halloc : l.run.allocAll fuel (requestsOf buffer) = none) (e : Nat) :
    (elfLoadFromVfs fuel ok stack sectorStack l (some filename) (some e)).2 = none := by
  obtain ⟨vfs, hload⟩ := elfLoadFromVfs_eq fuel ok stack sectorStack l filename e
  rw [hload, hread]
  exact elfLoadBuffer_hangs filename haccepted halloc

/-- What a load that comes to an end has done. -/
theorem elfLoadFromVfs_loads
    (hread : fileRead ok stack sectorStack l.vfs filename = (buffer, readInt))
    (haccepted : Accepted buffer readInt)
    (halloc : l.run.allocAll fuel (requestsOf buffer) = some (r, ps)) (e : Nat) :
    ∃ l', elfLoadFromVfs fuel ok stack sectorStack l (some filename) (some e) =
        (l', some (if ps.length = (segmentsOf buffer).length then 0 else -1)) ∧
      l'.run = r ∧
      l'.mem = ((segmentsOf buffer).zip ps).foldl (placed buffer readInt.toNat) l.mem ∧
      l'.entryPoint = entryIn (ehdrAt buffer).eEntry (ehdrAt buffer).eEntry
        ((segmentsOf buffer).zip ps) := by
  obtain ⟨vfs, hload⟩ := elfLoadFromVfs_eq fuel ok stack sectorStack l filename e
  rw [hload, hread]
  exact elfLoadBuffer_loads filename haccepted halloc

end Outcome

section Place

theorem Elf32Phdr.pMemsz_le_request (phdr : Elf32Phdr) : phdr.pMemsz ≤ phdr.request := by
  unfold Elf32Phdr.request
  split <;> omega

/-- A segment writes to its region only. -/
theorem placed_outside (hfits : seg.1.pFilesz ≤ seg.1.pMemsz)
    (hout : seg.1.request ≤ (a - BitVec.ofNat 32 seg.2).toNat) :
    placed buffer readBytes mem seg a = mem a := by
  have hrequest := seg.1.pMemsz_le_request
  have hcopied : seg.1.copied readBytes ≤ seg.1.pFilesz := Nat.min_le_left _ _
  simp only [placed]
  rw [if_neg (by omega), if_neg (by omega)]

theorem placeAll_outside (hfits : ∀ seg ∈ segs, seg.1.pFilesz ≤ seg.1.pMemsz)
    (hout : ∀ seg ∈ segs, seg.1.request ≤ (a - BitVec.ofNat 32 seg.2).toNat) :
    segs.foldl (placed buffer readBytes) mem a = mem a := by
  induction segs generalizing mem with
  | nil => rfl
  | cons seg segs ih =>
    rw [List.foldl_cons, ih (fun seg' h => hfits seg' (.tail _ h))
      (fun seg' h => hout seg' (.tail _ h))]
    exact placed_outside (hfits seg (.head _)) (hout seg (.head _))

/-- An address of one region lies outside another. -/
theorem apart_outside (hin : seg.2 + seg.1.request ≤ 2 ^ 32)
    (hin' : seg'.2 + seg'.1.request ≤ 2 ^ 32) (hk : k < seg.1.request)
    (hapart : seg.2 + seg.1.request ≤ seg'.2 ∨ seg'.2 + seg'.1.request ≤ seg.2) :
    seg'.1.request ≤ (BitVec.ofNat 32 (seg.2 + k) - BitVec.ofNat 32 seg'.2).toNat := by
  have hpos : 0 < seg'.1.request := by
    unfold Elf32Phdr.request
    split <;> omega
  rw [BitVec.toNat_sub, BitVec.toNat_ofNat, BitVec.toNat_ofNat]
  omega

/-- What is found in a region at the end: nobody else has written there. -/
theorem placeAll_apply (hfresh : FreshRegions segs)
    (hfits : ∀ seg ∈ segs, seg.1.pFilesz ≤ seg.1.pMemsz) (hseg : seg ∈ segs)
    (hk : k < seg.1.request) :
    segs.foldl (placed buffer readBytes) mem (BitVec.ofNat 32 (seg.2 + k)) =
      placed buffer readBytes mem seg (BitVec.ofNat 32 (seg.2 + k)) := by
  obtain ⟨before, after, rfl⟩ := List.append_of_mem hseg
  obtain ⟨-, hafter, hbetween⟩ := List.pairwise_append.mp hfresh.apart
  have hhere := hfresh.inMemory seg hseg
  have hbefore : before.foldl (placed buffer readBytes) mem (BitVec.ofNat 32 (seg.2 + k)) =
      mem (BitVec.ofNat 32 (seg.2 + k)) := by
    apply placeAll_outside (fun seg' h => hfits seg' (List.mem_append_left _ h))
    intro seg' h
    exact apart_outside hhere (hfresh.inMemory seg' (List.mem_append_left _ h)) hk
      (hbetween seg' h seg (.head _)).symm
  rw [List.foldl_append, List.foldl_cons, placeAll_outside]
  · simp only [placed, hbefore]
  · exact fun seg' h => hfits seg' (List.mem_append_right _ (.tail _ h))
  · intro seg' h
    exact apart_outside hhere (hfresh.inMemory seg' (List.mem_append_right _ (.tail _ h))) hk
      (List.rel_of_pairwise_cons hafter h)

/-- The index of an address in its region. -/
theorem index_in_region (hin : seg.2 + seg.1.request ≤ 2 ^ 32) (hk : k < seg.1.request) :
    (BitVec.ofNat 32 (seg.2 + k) - BitVec.ofNat 32 seg.2).toNat = k := by
  rw [BitVec.toNat_sub, BitVec.toNat_ofNat, BitVec.toNat_ofNat]
  omega

/-- A byte of a segment at the end: zero behind the file bytes, and before that the byte of the
buffer unless the copy loop has stopped. -/
theorem placeAll_byte (hfresh : FreshRegions segs)
    (hfits : ∀ seg ∈ segs, seg.1.pFilesz ≤ seg.1.pMemsz) (hseg : seg ∈ segs)
    (hk : k < seg.1.pMemsz) :
    segs.foldl (placed buffer readBytes) mem (BitVec.ofNat 32 (seg.2 + k)) =
      if seg.1.pFilesz ≤ k then 0
      else if k < readBytes then buffer ((seg.1.pOffset + k) % 2 ^ 32)
      else mem (BitVec.ofNat 32 (seg.2 + k)) := by
  have hlt := Nat.lt_of_lt_of_le hk seg.1.pMemsz_le_request
  rw [placeAll_apply hfresh hfits hseg hlt]
  simp only [placed, index_in_region (hfresh.inMemory seg hseg) hlt, Elf32Phdr.copied, bufferFrom]
  by_cases hzero : seg.1.pFilesz ≤ k
  · rw [if_pos ⟨hzero, hk⟩, if_pos hzero]
  · rw [if_neg (fun h => hzero h.1), if_neg hzero]
    exact if_congr (by omega) rfl rfl

end Place

section Entry

theorem segmentsOf_lt {phdr : Elf32Phdr} (h : phdr ∈ segmentsOf buffer) :
    phdr.pVaddr < 2 ^ 32 ∧ phdr.pMemsz < 2 ^ 32 := by
  obtain ⟨i, -, rfl⟩ := List.mem_map.mp (List.mem_of_mem_filter h)
  exact ⟨(phdrAt_lt buffer _ i).2.1, (phdrAt_lt buffer _ i).2.2.2⟩

/-- The test of the loader misses the segments that reach the end of the address space. -/
theorem Elf32Phdr.hasEntry_iff {phdr : Elf32Phdr} (h : phdr ∈ segmentsOf buffer) :
    phdr.HasEntry entry ↔ phdr.Contains entry ∧ phdr.pVaddr + phdr.pMemsz < 2 ^ 32 := by
  have hlt := segmentsOf_lt h
  simp only [HasEntry, Contains, add32, ge_iff_le]
  omega

/-- The last segment that has the entry decides. -/
theorem entryIn_last {before after : List (Elf32Phdr × Nat)} (hseg : seg.1.HasEntry entry)
    (hafter : ∀ seg' ∈ after, ¬ seg'.1.HasEntry entry) :
    entryIn entry e (before ++ seg :: after) = add32 seg.2 (entry - seg.1.pVaddr) := by
  have hnone : after.reverse.find? (fun seg => seg.1.HasEntry entry) = none := by
    apply List.find?_eq_none.mpr
    intro seg' h
    simpa using hafter seg' (List.mem_reverse.mp h)
  simp [entryIn, List.find?_append, hnone, hseg]

theorem entryIn_none (hnone : ∀ seg ∈ segs, ¬ seg.1.HasEntry entry) :
    entryIn entry e segs = e := by
  have hfind : segs.reverse.find? (fun seg => seg.1.HasEntry entry) = none := by
    apply List.find?_eq_none.mpr
    intro seg h
    simpa using hnone seg (List.mem_reverse.mp h)
  simp [entryIn, hfind]

end Entry

/-- A file whose headers agree with its size is loaded as they say, if every request is served with
a region of its own. -/
theorem segments_loaded_faithfully
    (hread : fileRead ok stack sectorStack l.vfs filename = (buffer, (readBytes : Int)))
    (hfile : SoundFile buffer readBytes)
    (halloc : l.run.allocAll fuel (requestsOf buffer) = some (r, ps))
    (hserved : ps.length = (segmentsOf buffer).length)
    (hfresh : FreshRegions ((segmentsOf buffer).zip ps)) (e : Nat) :
    ∃ l', elfLoadFromVfs fuel ok stack sectorStack l (some filename) (some e) = (l', some 0) ∧
      LoadedFaithfully buffer ((segmentsOf buffer).zip ps) l l' ∧ l'.run = r := by
  obtain ⟨l', hload, hrun, hmem, hentry⟩ :=
    elfLoadFromVfs_loads hread hfile.accepted halloc e
  rw [if_pos hserved] at hload
  refine ⟨l', hload, ?_, hrun⟩
  have hof : ∀ seg ∈ (segmentsOf buffer).zip ps, seg.1 ∈ segmentsOf buffer :=
    fun seg h => (List.of_mem_zip h).1
  have hfits : ∀ seg ∈ (segmentsOf buffer).zip ps, seg.1.pFilesz ≤ seg.1.pMemsz :=
    fun seg h => hfile.fits _ (hof seg h)
  have hhas : ∀ seg ∈ (segmentsOf buffer).zip ps, ∀ entry,
      seg.1.HasEntry entry ↔ seg.1.Contains entry :=
    fun seg h _ => (Elf32Phdr.hasEntry_iff (hof seg h)).trans
      (and_iff_left (hfile.addresses _ (hof seg h)))
  have hbyte : ∀ seg ∈ (segmentsOf buffer).zip ps, ∀ k < seg.1.pMemsz,
      l'.mem (BitVec.ofNat 32 (seg.2 + k)) =
        if seg.1.pFilesz ≤ k then 0 else buffer (seg.1.pOffset + k) := by
    intro seg h k hk
    have hinside := hfile.inside _ (hof seg h)
    have hsmall := fileRead_le ok stack sectorStack l.vfs filename
    rw [hread] at hsmall
    rw [hmem, Int.toNat_natCast, placeAll_byte hfresh hfits h hk]
    by_cases hzero : seg.1.pFilesz ≤ k
    · rw [if_pos hzero, if_pos hzero]
    · rw [if_neg hzero, if_neg hzero, if_pos (by omega), Nat.mod_eq_of_lt (by omega)]
  refine ⟨fun seg h k hk => ?_, fun seg h k hle hk => ?_, fun a hout => ?_,
    fun before seg after hsegs hin hafter => ?_, fun hnone => ?_⟩
  · have hle := hfits seg h
    rw [hbyte seg h k (by omega), if_neg (by omega)]
  · rw [hbyte seg h k hk, if_pos hle]
  · rw [hmem]
    exact placeAll_outside hfits hout
  · have hseg : seg ∈ (segmentsOf buffer).zip ps := by simp [hsegs]
    have hmemsz := Nat.lt_of_lt_of_le hin.2
      (Nat.add_le_add_left seg.1.pMemsz_le_request seg.1.pVaddr)
    have hregion := hfresh.inMemory seg hseg
    have hle := hin.1
    rw [hentry, hsegs, entryIn_last ((hhas seg hseg _).mpr hin), add32_of_lt (by omega)]
    intro seg' h
    exact mt (hhas seg' (by simp [hsegs, h]) _).mp (hafter seg' h)
  · rw [hentry, entryIn_none]
    exact fun seg h => mt (hhas seg h _).mp (hnone seg h)

/-- The bytes of a field. -/
def fieldBytes (n v : Nat) : List UInt8 := (List.range n).map (byteLE v)

/-- The bytes of a program header. -/
def phdrBytes (phdr : Elf32Phdr) : List UInt8 :=
  fieldBytes 4 phdr.pType ++ fieldBytes 4 phdr.pOffset ++ fieldBytes 4 phdr.pVaddr ++
  fieldBytes 4 0 ++ fieldBytes 4 phdr.pFilesz ++ fieldBytes 4 phdr.pMemsz ++ fieldBytes 8 0

/-- The headers of an executable file. -/
def elfImage (entry : Nat) (phdrs : List Elf32Phdr) : List UInt8 :=
  fieldBytes 16 elfMagic ++ fieldBytes 2 etExec ++ fieldBytes 2 em386 ++ fieldBytes 4 1 ++
  fieldBytes 4 entry ++ fieldBytes 4 ehdrSize ++ fieldBytes 8 0 ++ fieldBytes 2 ehdrSize ++
  fieldBytes 2 32 ++ fieldBytes 2 phdrs.length ++ fieldBytes 6 0 ++ phdrs.flatMap phdrBytes

/-- A disk that holds one file, under the name `a`. -/
def imageDisk (image : List UInt8) : Vfs where
  table := fun _ => ⟨fun _ => 0, 0, 0, 0⟩
  disk := fun lba k =>
    if lba = vfsMetadataLba then
      tableSector (fun i =>
        if i.val = 0 then ⟨fun k => if k.val = 0 then 97 else 0, image.length, vfsDataStartLba, 1⟩
        else ⟨fun _ => 0, 0, 0, 0⟩) k
    else image.getD (512 * (lba - vfsDataStartLba) + k) 0
  calls := 0
  console := []

/-- The array `buffer` after that file was read. -/
def imageBuffer (image : List UInt8) : Nat → UInt8 :=
  (fileRead reliable (fun _ => 0) (fun _ => 0) (imageDisk image) [97]).1

theorem imageBuffer_read (image : List UInt8) (n : Int)
    (hn : (fileRead reliable (fun _ => 0) (fun _ => 0) (imageDisk image) [97]).2 = n) :
    fileRead reliable (fun _ => 0) (fun _ => 0) (imageDisk image) [97] =
      (imageBuffer image, n) := by
  rw [← hn, imageBuffer]

/-- The loader before it reads that file. -/
def imageLoader (image : List UInt8) (heap : Heap) : Loader :=
  ⟨imageDisk image, ⟨heap, []⟩, fun _ => 0xCC, 0, [], [], []⟩

/-- One segment of 6 bytes, 4 of them in the file, entered at its second byte. -/
def loopImage : List UInt8 :=
  elfImage 0x8001 [⟨1, 84, 0x8000, 4, 6⟩] ++ [0x90, 0xEB, 0xFE, 0x90]

theorem loopImage_header : ehdrAt (imageBuffer loopImage) =
    ⟨0x464C457F, 2, 3, 0x8001, 52, 1⟩ := by decide +kernel

theorem loopImage_segments : segmentsOf (imageBuffer loopImage) =
    [⟨1, 84, 0x8000, 4, 6⟩] := by decide +kernel

theorem segments_loaded_faithfully_loop :
    ∃ l', elfLoadFromVfs 2 reliable (fun _ => 0) (fun _ => 0) (imageLoader loopImage smallHeap)
        (some [97]) (some 0) = (l', some 0) ∧
      l'.mem 4113 = 0xEB ∧ l'.mem 4117 = 0 ∧ l'.entryPoint = 4113 := by
  have hfile : SoundFile (imageBuffer loopImage) (88 : Nat) := by
    refine ⟨⟨by decide, by rw [loopImage_header]; decide⟩, ?_, ?_, ?_, ?_, ?_⟩
    · simp [loopImage_header]
    all_goals simp [loopImage_segments]
  have hptrs : (HeapRun.allocAll 2 ⟨smallHeap, []⟩
      (requestsOf (imageBuffer loopImage))).map Prod.snd = some [4112] := by
    rw [requestsOf, loopImage_segments]
    decide +kernel
  obtain ⟨⟨r, ps⟩, halloc, rfl⟩ := Option.map_eq_some_iff.mp hptrs
  have hread := imageBuffer_read loopImage (88 : Nat) (by decide +kernel)
  obtain ⟨l', hload, hloaded, -⟩ := segments_loaded_faithfully
    (l := imageLoader loopImage smallHeap) hread hfile halloc (by rw [loopImage_segments]; rfl)
    ⟨by simp [loopImage_segments, Elf32Phdr.request], by simp [loopImage_segments]⟩ 0
  rw [loopImage_segments] at hloaded
  refine ⟨l', hload, ?_, ?_, ?_⟩
  · exact (hloaded.file _ (List.mem_singleton_self _) 1 (by decide)).trans (by decide +kernel)
  · exact hloaded.zeros _ (List.mem_singleton_self _) 5 (by decide) (by decide)
  · rw [hloaded.entry [] _ [] rfl (by simp [loopImage_header, Elf32Phdr.Contains]) (by simp)]
    simp [loopImage_header]

end HumanOS

import HumanOS.Elf.Loaded
import HumanOS.Vfs.Mount

/-!
# Loading what the file system stores

A file holds up to 1024 bytes and the loader has as many for it, but reading keeps one of them for
a NUL. Of a file of full size the last byte is lost, and a segment that ends there ends with
another byte.
-/
namespace HumanOS

open Lib

variable {fuel n e k N : Nat} {image buffer stack sectorStack : Nat → UInt8} {l : Loader}
variable {r : HeapRun} {ps : List Nat} {v : Vfs} {m : FileMap} {name : List UInt8}
variable {seg : Elf32Phdr × Nat}

/-- An ELF image of `n` bytes whose program headers and segments lie inside of it. -/
structure WellFormedImage (image : Nat → UInt8) (n : Nat) : Prop where
  accepted : Accepted image n
  table : ∀ i < (ehdrAt image).ePhnum, (ehdrAt image).ePhoff + 32 * (i + 1) ≤ n
  fits : ∀ phdr ∈ segmentsOf image, phdr.pFilesz ≤ phdr.pMemsz
  inside : ∀ phdr ∈ segmentsOf image, phdr.pOffset + phdr.pFilesz ≤ n

/-- The file bytes of every segment are in place. -/
def HoldsImage (image : Nat → UInt8) (segs : List (Elf32Phdr × Nat)) (l : Loader) : Prop :=
  ∀ seg ∈ segs, ∀ k < seg.1.pFilesz,
    l.mem (BitVec.ofNat 32 (seg.2 + k)) = image (seg.1.pOffset + k)

/-- What is found for byte 1023 of the file at the end of a segment: the byte that memory held
before if the segment is the whole file, and else the NUL behind what was read. -/
def lastByte (l : Loader) (seg : Elf32Phdr × Nat) : UInt8 :=
  if seg.1.pOffset = 0 then l.mem (BitVec.ofNat 32 (seg.2 + 1023)) else 0

section Headers

theorem ehdrAt_congr (h : ∀ k < ehdrSize, buffer k = image k) : ehdrAt buffer = ehdrAt image := by
  have hfield : ∀ a w, a + w ≤ ehdrSize → loadLE buffer a w = loadLE image a w := by
    intro a w hw
    exact loadLE_congr fun k hk => h _ (by omega)
  simp only [ehdrAt, hfield 0 4 (by decide), hfield 16 2 (by decide), hfield 18 2 (by decide),
    hfield 24 4 (by decide), hfield 28 4 (by decide), hfield 44 2 (by decide)]

/-- The last eight bytes of a program header are not looked at. -/
theorem phdrAt_congr {header : Elf32Ehdr} {i : Nat}
    (hin : header.ePhoff + 32 * i + 24 ≤ N) (hN : N ≤ 2 ^ 32)
    (h : ∀ k < N, buffer k = image k) : phdrAt buffer header i = phdrAt image header i := by
  have hfield : ∀ a w, a + w ≤ 24 →
      loadLE (bufferFrom buffer (phdrIndex header i)) a w =
        loadLE (bufferFrom image (phdrIndex header i)) a w := by
    intro a w hw
    apply loadLE_congr
    intro k hk
    apply h
    simp only [phdrIndex]
    omega
  simp only [phdrAt, hfield 0 4 (by decide), hfield 4 4 (by decide), hfield 8 4 (by decide),
    hfield 16 4 (by decide), hfield 20 4 (by decide)]

/-- A buffer with all but the last byte of a well-formed image has its headers. -/
theorem WellFormedImage.segmentsOf_eq (himage : WellFormedImage image n) (hn : n ≤ maxFileSize)
    (buffer : Nat → UInt8) (h : ∀ k < min n 1023, buffer k = image k) :
    ehdrAt buffer = ehdrAt image ∧ segmentsOf buffer = segmentsOf image := by
  have hsize := himage.accepted.1
  simp only [maxFileSize] at hn
  have hheader : ehdrAt buffer = ehdrAt image := by
    apply ehdrAt_congr
    intro k hk
    apply h
    simp only [ehdrSize] at hk hsize
    omega
  refine ⟨hheader, ?_⟩
  rw [segmentsOf, segmentsOf, hheader, loadsOf, loadsOf]
  congr 1
  apply List.map_congr_left
  intro i hi
  have htable := himage.table i (List.mem_range.mp hi)
  exact phdrAt_congr (by omega) (by omega) h

end Headers

section Read

/-- The loader's buffer after a file was read from a disk that stores it. -/
theorem fileRead_stored {bytes : List UInt8} (hst : Stores v.disk m) (hfile : m name = some bytes)
    (stack sectorStack : Nat → UInt8) :
    fileRead reliable stack sectorStack v name =
      (readInto stack bytes (min bytes.length 1023), ((min bytes.length 1023 : Nat) : Int)) := by
  obtain ⟨-, hret⟩ := vfsReadFile_reliable name stack sectorStack hst
    (show 1 ≤ 1024 by decide)
  simp only [mapReturns, hfile] at hret
  simp only [fileRead, hret.1, hret.2, Option.getD_some]

/-- Storing bytes and reading them back. -/
theorem fileRead_written (hst : Stores v.disk m) (hname : ValidName name) (hn : n ≤ maxFileSize)
    {w : Vfs} (hstored : vfsWriteFile reliable v (some name) image n = (w, (n : Int)))
    (stack sectorStack : Nat → UInt8) :
    fileRead reliable stack sectorStack w name =
      (readInto stack ((List.range n).map image) (min n 1023), ((min n 1023 : Nat) : Int)) := by
  obtain ⟨-, hst', -, hblocked, -⟩ := vfsWriteFile_reliable image n hst hname
  rw [hstored] at hst' hblocked
  have hroom : ¬ Blocked m name := by
    intro hb
    have := hblocked hb
    omega
  rw [mapNext, if_neg hroom, Nat.min_eq_left hn] at hst'
  have hread := fileRead_stored hst' (Function.update_self ..) stack sectorStack
  simpa only [List.length_map, List.length_range] using hread

theorem readInto_below {stack : Nat → UInt8} (hk : k < min n 1023) :
    readInto stack ((List.range n).map image) (min n 1023) k = image k := by
  have hlt : k < n := by omega
  simp [readInto, hk, hlt]

end Read

section Load

/-- The byte of the image that the copy loop finds, or what is left in its place. -/
theorem copied_byte (hn : n ≤ maxFileSize) (hin : seg.1.pOffset + seg.1.pFilesz ≤ n)
    (hk : k < seg.1.pFilesz) :
    (if k < min n 1023 then
        readInto stack ((List.range n).map image) (min n 1023) (seg.1.pOffset + k)
      else l.mem (BitVec.ofNat 32 (seg.2 + k))) =
      if seg.1.pOffset + k = 1023 then lastByte l seg else image (seg.1.pOffset + k) := by
  simp only [maxFileSize] at hn
  by_cases hlast : seg.1.pOffset + k = 1023
  · have hfull : min n 1023 = 1023 := by omega
    rw [if_pos hlast, hfull, hlast, lastByte]
    by_cases hzero : seg.1.pOffset = 0
    · obtain rfl : k = 1023 := by omega
      rw [if_neg (by omega), if_pos hzero]
    · rw [if_pos (by omega), if_neg hzero]
      simp [readInto]
  · rw [if_pos (by omega), if_neg hlast, readInto_below (by omega)]

/-- What a stored image is loaded as, byte by byte. -/
theorem stored_image_bytes (hst : Stores v.disk m) (hname : ValidName name) (hn : n ≤ maxFileSize)
    (himage : WellFormedImage image n)
    (hstored : vfsWriteFile reliable v (some name) image n = (l.vfs, (n : Int)))
    (halloc : l.run.allocAll fuel (requestsOf image) = some (r, ps))
    (hserved : ps.length = (segmentsOf image).length)
    (hfresh : FreshRegions ((segmentsOf image).zip ps)) (stack sectorStack : Nat → UInt8)
    (e : Nat) :
    ∃ l', elfLoadFromVfs fuel reliable stack sectorStack l (some name) (some e) = (l', some 0) ∧
      ∀ seg ∈ (segmentsOf image).zip ps, ∀ k < seg.1.pFilesz,
        l'.mem (BitVec.ofNat 32 (seg.2 + k)) =
          if seg.1.pOffset + k = 1023 then lastByte l seg else image (seg.1.pOffset + k) := by
  have hread := fileRead_written hst hname hn hstored stack sectorStack
  obtain ⟨hheader, hsegments⟩ := himage.segmentsOf_eq hn
    (readInto stack ((List.range n).map image) (min n 1023)) fun k hk => readInto_below hk
  have haccepted : Accepted (readInto stack ((List.range n).map image) (min n 1023))
      (min n 1023 : Nat) := by
    obtain ⟨hsize, hvalid⟩ := himage.accepted
    refine ⟨?_, by rw [hheader]; exact hvalid⟩
    simp only [ehdrSize] at hsize ⊢
    omega
  rw [requestsOf, ← hsegments] at halloc
  obtain ⟨l', hload, -, hmem, -⟩ := elfLoadFromVfs_loads hread haccepted halloc e
  rw [hsegments] at hload hmem
  rw [if_pos hserved] at hload
  refine ⟨l', hload, ?_⟩
  intro seg hseg k hk
  have hof := (List.of_mem_zip hseg).1
  have hfits : ∀ seg ∈ (segmentsOf image).zip ps, seg.1.pFilesz ≤ seg.1.pMemsz :=
    fun seg h => himage.fits _ (List.of_mem_zip h).1
  have hin := himage.inside _ hof
  have hmemsz := hfits seg hseg
  rw [hmem, Int.toNat_natCast, placeAll_byte hfresh hfits hseg (by omega), if_neg (by omega),
    Nat.mod_eq_of_lt (by simp only [maxFileSize] at hn; omega)]
  exact copied_byte hn hin hk

end Load

/-- A stored image is loaded as it is if it has less than the full size, or no segment ends with a
last byte that is lost. -/
theorem stored_image_loads_iff (hst : Stores v.disk m) (hname : ValidName name)
    (hn : n ≤ maxFileSize) (himage : WellFormedImage image n)
    (hstored : vfsWriteFile reliable v (some name) image n = (l.vfs, (n : Int)))
    (halloc : l.run.allocAll fuel (requestsOf image) = some (r, ps))
    (hserved : ps.length = (segmentsOf image).length)
    (hfresh : FreshRegions ((segmentsOf image).zip ps)) (stack sectorStack : Nat → UInt8)
    (e : Nat) :
    ∃ l', elfLoadFromVfs fuel reliable stack sectorStack l (some name) (some e) = (l', some 0) ∧
      (HoldsImage image ((segmentsOf image).zip ps) l' ↔
        n < maxFileSize ∨ ∀ seg ∈ (segmentsOf image).zip ps, 0 < seg.1.pFilesz →
          seg.1.pOffset + seg.1.pFilesz = maxFileSize → image 1023 = lastByte l seg) := by
  obtain ⟨l', hload, hbytes⟩ :=
    stored_image_bytes hst hname hn himage hstored halloc hserved hfresh stack sectorStack e
  refine ⟨l', hload, ?_, ?_⟩
  · intro hholds
    right
    intro seg hseg hpos hend
    simp only [maxFileSize] at hend
    have hlast : seg.1.pOffset + (seg.1.pFilesz - 1) = 1023 := by omega
    have hbyte := hbytes seg hseg (seg.1.pFilesz - 1) (by omega)
    rw [hholds seg hseg (seg.1.pFilesz - 1) (by omega), if_pos hlast, hlast] at hbyte
    exact hbyte
  · intro hkept seg hseg k hk
    rw [hbytes seg hseg k hk]
    have hin := himage.inside _ (List.of_mem_zip hseg).1
    simp only [maxFileSize] at hn hkept
    by_cases hlast : seg.1.pOffset + k = 1023
    · rw [if_pos hlast, hlast]
      rcases hkept with hsmall | hall
      · omega
      · exact (hall seg hseg (by omega) (by omega)).symm
    · rw [if_neg hlast]

/-- An image of one segment of `size` bytes behind the headers, filled with `ret`. -/
def retImage (size : Nat) : Nat → UInt8 := fun k =>
  (elfImage 0x8000 [⟨1, 84, 0x8000, size, size⟩]).getD k 0xC3

/-- The loader after an image was stored as `a` on a disk just mounted. -/
def storedLoader (image : Nat → UInt8) (n : Nat) : Loader :=
  ⟨(vfsWriteFile reliable (vfsInit reliable blankVfs) (some [97]) image n).1, ⟨smallHeap, []⟩,
    fun _ => 0xCC, 0, [], [], []⟩

/-- The image stored, and memory for its segment. -/
structure RetStored (size : Nat) : Prop where
  wellFormed : WellFormedImage (retImage size) (84 + size)
  stored : vfsWriteFile reliable (vfsInit reliable blankVfs) (some [97]) (retImage size)
    (84 + size) = ((storedLoader (retImage size) (84 + size)).vfs, ((84 + size : Nat) : Int))
  served : ∃ r, (storedLoader (retImage size) (84 + size)).run.allocAll 2
    (requestsOf (retImage size)) = some (r, [4112])
  fresh : FreshRegions ((segmentsOf (retImage size)).zip [4112])

theorem retImage_stored {size : Nat} (hpos : 0 < size) (hsize : size < 4096)
    (hheader : ehdrAt (retImage size) = ⟨0x464C457F, 2, 3, 0x8000, 52, 1⟩)
    (hsegments : segmentsOf (retImage size) = [⟨1, 84, 0x8000, size, size⟩])
    (hcode : (vfsWriteFile reliable (vfsInit reliable blankVfs) (some [97]) (retImage size)
      (84 + size)).2 = (84 + size : Nat))
    (hptrs : (HeapRun.allocAll 2 ⟨smallHeap, []⟩ [size]).map Prod.snd = some [4112]) :
    RetStored size where
  wellFormed := by
    refine ⟨⟨?_, ?_⟩, ?_, ?_, ?_⟩
    · simp only [ehdrSize]
      omega
    · rw [hheader]
      decide
    · simp only [hheader]
      omega
    · simp [hsegments]
    · simp [hsegments]
  stored := by
    rw [storedLoader, ← hcode]
  served := by
    obtain ⟨⟨r, ps⟩, halloc, rfl⟩ := Option.map_eq_some_iff.mp hptrs
    refine ⟨r, ?_⟩
    simpa only [storedLoader, requestsOf, hsegments, List.map_cons, List.map_nil,
      Elf32Phdr.request, gt_iff_lt, hpos, if_true] using halloc
  fresh := by
    refine ⟨?_, by simp [hsegments]⟩
    simp only [hsegments, List.zip_cons_cons, List.zip_nil_left, List.mem_singleton, forall_eq,
      Elf32Phdr.request]
    split <;> omega

theorem blankVfs_stores : Stores (vfsInit reliable blankVfs).disk readmeMap :=
  vfsInit_zero fun _ _ => rfl

theorem name_a_valid : ValidName [97] := ⟨by decide, by decide, by decide⟩

theorem stored_image_loads_iff_1023 :
    ∃ l', elfLoadFromVfs 2 reliable (fun _ => 0) (fun _ => 0) (storedLoader (retImage 939) 1023)
        (some [97]) (some 0) = (l', some 0) ∧
      HoldsImage (retImage 939) [(⟨1, 84, 0x8000, 939, 939⟩, 4112)] l' := by
  have hsegments : segmentsOf (retImage 939) = [⟨1, 84, 0x8000, 939, 939⟩] := by decide +kernel
  have himage : RetStored 939 := retImage_stored (by decide) (by decide) (by decide +kernel)
    hsegments (by decide +kernel) (by decide +kernel)
  obtain ⟨r, halloc⟩ := himage.served
  obtain ⟨l', hload, hholds⟩ := stored_image_loads_iff blankVfs_stores name_a_valid (by decide)
    himage.wellFormed himage.stored halloc (by rw [hsegments]; rfl) himage.fresh (fun _ => 0)
    (fun _ => 0) 0
  rw [hsegments] at hholds
  exact ⟨l', hload, hholds.mpr (Or.inl (by decide))⟩

/-- A full file of 1024 bytes, whose last `ret` is lost. -/
theorem stored_image_loses_byte : RetStored 940 ∧
    ∃ l', elfLoadFromVfs 2 reliable (fun _ => 0) (fun _ => 0) (storedLoader (retImage 940) 1024)
        (some [97]) (some 0) = (l', some 0) ∧
      ¬ HoldsImage (retImage 940) [(⟨1, 84, 0x8000, 940, 940⟩, 4112)] l' := by
  have hsegments : segmentsOf (retImage 940) = [⟨1, 84, 0x8000, 940, 940⟩] := by decide +kernel
  have himage : RetStored 940 := retImage_stored (by decide) (by decide) (by decide +kernel)
    hsegments (by decide +kernel) (by decide +kernel)
  refine ⟨himage, ?_⟩
  obtain ⟨r, halloc⟩ := himage.served
  obtain ⟨l', hload, hbytes⟩ := stored_image_bytes blankVfs_stores name_a_valid (by decide)
    himage.wellFormed himage.stored halloc (by rw [hsegments]; rfl) himage.fresh (fun _ => 0)
    (fun _ => 0) 0
  rw [hsegments] at hbytes
  have hnul : l'.mem (BitVec.ofNat 32 (4112 + 939)) = 0 :=
    hbytes _ (List.mem_singleton_self _) 939 (by decide)
  refine ⟨l', hload, ?_⟩
  intro hholds
  have hret : l'.mem (BitVec.ofNat 32 (4112 + 939)) = 0xC3 :=
    hholds _ (List.mem_singleton_self _) 939 (by decide)
  exact absurd (hnul.symm.trans hret) (by decide)

end HumanOS

import HumanOS.Vfs.Faults

/-!
# Mounting any sector

A mount takes over the entries of the metadata sector whose `used` and `size` fields look right,
and every later call trusts their other fields: `start_lba` as a sector to write to, the name as
a string. Here the sector is any 512 bytes.
-/
namespace HumanOS

open Lib

variable {ok : Nat → Bool} {v w : Vfs} {i : Fin maxFiles} {f : VfsFile}
variable {name : Option (List UInt8)} {stack content : Nat → UInt8} {len lba : Nat}

/-- The name has a NUL in its field. -/
def VfsFile.NameEnds (f : VfsFile) : Prop := ∃ k, f.name k = 0

/-- An entry that slot `i` may hold. -/
structure EntrySound (i : Fin maxFiles) (f : VfsFile) : Prop where
  used : f.used = 1
  size : f.size ≤ maxFileSize
  startLba : f.startLba = vfsDataStartLba + i * 2
  name : f.NameEnds

/-- Every entry that a load takes over, and every entry in use in memory, is sound. -/
structure TablesSound (v : Vfs) : Prop where
  disk : ∀ i, (diskFile (v.disk vfsMetadataLba) i).accepted = true →
    EntrySound i (diskFile (v.disk vfsMetadataLba) i)
  table : ∀ i, (v.table i).used ≠ 0 → EntrySound i (v.table i)

section Entries

/-- The comparison with a name that ends in its field reads nothing behind the field. -/
theorem VfsFile.NameEnds.short (h : f.NameEnds) : f.nameString.length < maxFilename := by
  obtain ⟨k, hk⟩ := h
  have hbyte : f.byte k = 0 := by
    rw [VfsFile.byte, dif_pos k.isLt]
    exact hk
  have hex : ∃ n, f.byte n = 0 := ⟨k, hbyte⟩
  have hle : Nat.find hex ≤ k := Nat.find_min' hex hbyte
  have hlt : (k : Nat) < 20 := k.isLt
  have hstring : f.nameString = (List.range (Nat.find hex)).map f.byte :=
    takeWhile_range (by omega) (fun n hn => Nat.find_min hex hn) (Nat.find_spec hex)
  rw [hstring, List.length_map, List.length_range]
  exact hle.trans_lt hlt

theorem strcpyImpl_ends (dest : Fin maxFilename → UInt8) (src : List UInt8) :
    ∃ k, strcpyImpl dest src k = 0 := by
  have hlt : min src.length (maxFilename - 1) < maxFilename :=
    (Nat.min_le_right _ _).trans_lt (by decide)
  refine ⟨⟨min src.length (maxFilename - 1), hlt⟩, ?_⟩
  simp [strcpyImpl]

end Entries

/-- What soundness asks of a slot. -/
def SoundEntry (i : Fin maxFiles) (slot : Option VfsFile) : Prop :=
  ∀ f, slot = some f → EntrySound i f

theorem soundEntry_none : SoundEntry i none := by simp [SoundEntry]

theorem soundEntry_rule : EntryRule SoundEntry where
  sound := by
    intro i f h
    obtain ⟨hused, hsize, hlba, -⟩ := h f rfl
    exact ⟨accepted_iff.mpr ⟨hused, hsize⟩, hlba⟩
  fill := by
    intro i dest src size _ hsize f hf
    obtain rfl := Option.some.inj hf
    exact ⟨rfl, hsize, rfl, strcpyImpl_ends dest src⟩
  resize := by
    intro i f size h hsize g hg
    obtain rfl := Option.some.inj hg
    have hf := h f rfl
    exact ⟨hf.used, hsize, hf.startLba, hf.name⟩

theorem tablesSound_iff : TablesSound v ↔ EntriesHold SoundEntry v := by
  constructor
  · refine fun h => ⟨fun i f hf => ?_, fun i f hf => ?_⟩
    · obtain ⟨hacc, rfl⟩ := loaded_eq_some_iff.mp hf
      exact h.disk i hacc
    · obtain ⟨hu, rfl⟩ := inUse_eq_some_iff.mp hf
      exact h.table i hu
  · refine fun h => ⟨fun i hacc => ?_, fun i hu => ?_⟩
    · exact h.disk i _ (loaded_eq_some_iff.mpr ⟨hacc, rfl⟩)
    · exact h.table i _ (inUse_eq_some hu)

theorem TablesSound.load (h : TablesSound v) (ok : Nat → Bool) :
    TablesSound (vfsSyncFromDisk ok v) :=
  tablesSound_iff.mpr ((tablesSound_iff.mp h).load ok)

theorem TablesSound.run (h : TablesSound v) (ok : Nat → Bool) (stack : Nat → UInt8)
    (ops : List FaultOp) : TablesSound (faultRun ok stack v ops) :=
  tablesSound_iff.mpr ((tablesSound_iff.mp h).run soundEntry_rule fun _ => soundEntry_none)

section Mount

/-- The data part of a call of `vfs_write_file` that gets that far: the slot, and the states before
and after the data are written. -/
def vfsWriteFileData (ok : Nat → Bool) (v : Vfs) (name : Option (List UInt8))
    (content : Nat → UInt8) (len : Nat) : Option (Fin maxFiles × Vfs × Vfs) :=
  match vfsCreate ok v name with
  | (_, none) => none
  | (v, some i) =>
    let len := if len > maxFileSize then maxFileSize else len
    let v := v.setEntry i { v.table i with size := len }
    some (i, v, vfsWriteData ok v i content len)

/-- All that `vfs_write_file` does besides is to create the entry and to save the table. -/
theorem vfsWriteFile_data : (vfsWriteFile ok v name content len).1 =
    match vfsWriteFileData ok v name content len with
    | none => (vfsCreate ok v name).1
    | some (_, _, w) => vfsSyncToDisk ok w := by
  unfold vfsWriteFile vfsWriteFileData
  rcases vfsCreate ok v name with ⟨v1, _ | i⟩ <;> rfl

/-- A mount from any disk, all its calls succeeding, has let sound entries in only, so that in
every later run, disk errors included, the data of `vfs_write_file` go to the two sectors of its
slot and no comparison of names leaves the name field. -/
structure MountSafe (v : Vfs) : Prop where
  entries : ∀ i, ((vfsInit reliable v).table i).used ≠ 0 →
    EntrySound i ((vfsInit reliable v).table i)
  confined : ∀ ok stack ops name content len i w w',
    vfsWriteFileData ok (faultRun ok stack (vfsInit reliable v) ops) name content len =
      some (i, w, w') →
    ∀ lba, lba ≠ vfsDataStartLba + i * 2 → lba ≠ vfsDataStartLba + i * 2 + 1 →
      w'.disk lba = w.disk lba
  compared : ∀ ok stack ops i,
    ((vfsSyncFromDisk ok (faultRun ok stack (vfsInit reliable v) ops)).table i).used ≠ 0 →
    ((vfsSyncFromDisk ok (faultRun ok stack (vfsInit reliable v) ops)).table i).nameString.length <
      maxFilename

/-- From sound tables the data stay in the sectors of their slot. -/
theorem TablesSound.confined {w' : Vfs} (h : TablesSound v)
    (hd : vfsWriteFileData ok v name content len = some (i, w, w'))
    (hfirst : lba ≠ vfsDataStartLba + i * 2) (hsecond : lba ≠ vfsDataStartLba + i * 2 + 1) :
    w'.disk lba = w.disk lba := by
  obtain ⟨hsound, hused⟩ := (tablesSound_iff.mp h).create soundEntry_rule ok name
  unfold vfsWriteFileData at hd
  rcases hc : vfsCreate ok v name with ⟨v1, _ | j⟩
  · simp [hc] at hd
  · rw [hc] at hsound hused hd
    simp only [Option.some.injEq, Prod.mk.injEq] at hd
    obtain ⟨rfl, rfl, rfl⟩ := hd
    obtain ⟨hlba, hnext⟩ := hsound.sectors soundEntry_rule (hused j rfl)
    refine vfsWriteData_other ?_ ?_ <;> rw [setEntry_table, Function.update_self]
    · rwa [hlba]
    · rwa [hnext]

/-- The entries of the metadata sector that a mount takes over are in their slot's place and
have names that end. -/
def SectorSound (sector : Nat → UInt8) : Prop :=
  ∀ i, (diskFile sector i).accepted = true →
    (diskFile sector i).startLba = vfsDataStartLba + i * 2 ∧ (diskFile sector i).NameEnds

theorem SectorSound.tables (h : SectorSound (v.disk vfsMetadataLba)) :
    TablesSound (vfsInit reliable v) := by
  refine tablesSound_iff.mpr (.mount soundEntry_rule (fun i f hf => ?_) (Or.inl rfl))
  obtain ⟨hacc, rfl⟩ := loaded_eq_some_iff.mp hf
  obtain ⟨hused, hsize⟩ := accepted_iff.mp hacc
  exact ⟨hused, hsize, (h i hacc).1, (h i hacc).2⟩

/-- What the mount does to an entry it accepts: nothing. -/
theorem vfsInit_accepted (hacc : (diskFile (v.disk vfsMetadataLba) i).accepted = true) :
    (vfsInit reliable v).table i = diskFile (v.disk vfsMetadataLba) i := by
  have hload : (vfsSyncFromDisk reliable { v with table := clearTable v.table }).table i =
      diskFile (v.disk vfsMetadataLba) i := by
    simp [loadTable, hacc]
  simp only [vfsInit]
  generalize vfsSyncFromDisk reliable { v with table := clearTable v.table } = v1 at *
  rw [puts_table]
  split
  · rename_i hfree
    have hne : i ≠ 0 := by
      rintro rfl
      rw [hload, (accepted_iff.mp hacc).1] at hfree
      simp at hfree
    simp [hne, hload]
  · exact hload

/-- A mount is safe exactly on such a sector. -/
theorem mount_safe_iff : MountSafe v ↔ SectorSound (v.disk vfsMetadataLba) := by
  constructor
  · intro h i hacc
    have hentry := vfsInit_accepted hacc
    have hsound := h.entries i (by rw [hentry, (accepted_iff.mp hacc).1]; decide)
    rw [hentry] at hsound
    exact ⟨hsound.startLba, hsound.name⟩
  · intro h
    refine ⟨h.tables.table, ?_, fun ok stack ops i hu => ?_⟩
    · intro ok stack ops name content len i w w' hd lba hfirst hsecond
      exact (h.tables.run ok stack ops).confined hd hfirst hsecond
    · exact (((h.tables.run ok stack ops).load ok).table i hu).name.short

/-- A sector whose first entry names the metadata sector as its own. -/
def strayEntry : Vfs :=
  { blankVfs with disk := fun _ k => if k = 0 then 97 else if k = 24 then 100
      else if k = 28 then 1 else 0 }

theorem mount_not_safe : ¬ ∀ v, MountSafe v := by
  intro hall
  have hlba := ((hall strayEntry).entries 0 (by decide +kernel)).startLba
  have hstray : ((vfsInit reliable strayEntry).table 0).startLba = 100 := by decide +kernel
  rw [hstray] at hlba
  exact absurd hlba (by decide)

end Mount

end HumanOS

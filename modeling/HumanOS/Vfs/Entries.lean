import HumanOS.Vfs.Mount

/-!
# What holds of every entry

An invariant that is stated slot by slot, of the table in memory and of the metadata sector
alike, is kept by every call, whichever disk calls fail, as long as it allows the few changes
that the calls make to an entry.
-/
namespace HumanOS

open Lib

variable {ok : Nat → Bool} {v w : Vfs} {i : Fin maxFiles} {f : VfsFile} {t : FileTable}
variable {stack content buf : Nat → UInt8} {name : Option (List UInt8)} {len lba : Nat}
variable {Q : Fin maxFiles → Option VfsFile → Prop}

/-- The entry, if it is in use. -/
def VfsFile.inUse (f : VfsFile) : Option VfsFile := if f.used = 0 then none else some f

/-- The entry, if a load takes it over. -/
def VfsFile.loaded (f : VfsFile) : Option VfsFile := if f.accepted then some f else none

/-- `Q` can be asked of the slots, `none` being a free one: it includes that the size of an entry
is in bounds and its sectors are those of the slot, and allows to fill a free slot and to resize
an entry. -/
structure EntryRule (Q : Fin maxFiles → Option VfsFile → Prop) : Prop where
  sound : ∀ {i f}, Q i (some f) → f.accepted = true ∧ f.startLba = vfsDataStartLba + i * 2
  fill : ∀ {i dest src size}, Q i none → size ≤ maxFileSize →
    Q i (some ⟨strcpyImpl dest src, size, vfsDataStartLba + i * 2, 1⟩)
  resize : ∀ {i f size}, Q i (some f) → size ≤ maxFileSize → Q i (some { f with size })

/-- `Q` holds of every slot, in memory and on the disk. -/
structure EntriesHold (Q : Fin maxFiles → Option VfsFile → Prop) (v : Vfs) : Prop where
  disk : ∀ i, Q i (diskFile (v.disk vfsMetadataLba) i).loaded
  table : ∀ i, Q i (v.table i).inUse

section Slots

theorem inUse_eq_some (hu : f.used ≠ 0) : f.inUse = some f := if_neg hu

theorem inUse_eq_none (hu : f.used = 0) : f.inUse = none := if_pos hu

theorem inUse_eq_some_iff {g : VfsFile} : f.inUse = some g ↔ f.used ≠ 0 ∧ f = g := by
  by_cases hu : f.used = 0 <;> simp [VfsFile.inUse, hu]

theorem loaded_eq_some_iff {g : VfsFile} : f.loaded = some g ↔ f.accepted = true ∧ f = g := by
  by_cases hacc : f.accepted = true <;> simp [VfsFile.loaded, hacc]

theorem inUse_cleared : f.cleared.inUse = none := rfl

theorem loaded_eq_none (hu : f.used = 0) : f.loaded = none := by
  simp [VfsFile.loaded, VfsFile.accepted, hu]

/-- A load puts in memory what it takes over. -/
theorem loadTable_inUse : (loadTable buf t i).inUse = (diskFile buf i).loaded := by
  unfold loadTable VfsFile.loaded
  split
  · rename_i hacc
    refine inUse_eq_some ?_
    rw [(accepted_iff.mp hacc).1]
    decide
  · exact inUse_cleared

/-- A table in step with the disk. -/
theorem InSync.inUse_eq (h : InSync v) :
    (v.table i).inUse = (diskFile (v.disk vfsMetadataLba) i).loaded := by
  by_cases hu : (v.table i).used = 0
  · simp [inUse_eq_none hu, VfsFile.loaded, h.free i hu]
  · obtain ⟨heq, hacc⟩ := h.used i hu
    rw [inUse_eq_some hu, heq, VfsFile.loaded, if_pos hacc]

theorem EntryRule.fits (hQ : EntryRule Q) (h : Q i (some f)) : f.Fits := by
  obtain ⟨hacc, hlba⟩ := hQ.sound h
  obtain ⟨hone, hsize⟩ := accepted_iff.mp hacc
  have hi := i.isLt
  simp only [maxFileSize] at hsize
  refine ⟨by omega, ?_, by omega⟩
  simp only [hlba, vfsDataStartLba, maxFiles] at hi ⊢
  omega

/-- A sound entry is read back as it was saved. -/
theorem EntryRule.loaded_saved (hQ : EntryRule Q) (h : Q i (t i).inUse) :
    (diskFile (tableSector t) i).loaded = (t i).inUse := by
  by_cases hu : (t i).used = 0
  · rw [inUse_eq_none hu, loaded_eq_none (by simp [diskFile_tableSector, hu])]
  · rw [inUse_eq_some hu] at h ⊢
    rw [diskFile_saved (hQ.fits h), VfsFile.loaded, if_pos (hQ.sound h).1]

end Slots

namespace EntriesHold

theorem congr (h : EntriesHold Q v) (ht : w.table = v.table) (hd : w.disk = v.disk) :
    EntriesHold Q w := by
  constructor
  · rw [hd]
    exact h.disk
  · rw [ht]
    exact h.table

/-- A load that succeeds, whatever the table in memory was. -/
theorem of_disk (h : ∀ i, Q i (diskFile (v.disk vfsMetadataLba) i).loaded)
    (hok : ok v.calls = true) : EntriesHold Q (vfsSyncFromDisk ok v) := by
  refine ⟨by rw [vfsSyncFromDisk_disk]; exact h, fun i => ?_⟩
  rw [vfsSyncFromDisk_table, if_pos hok, loadTable_inUse]
  exact h i

/-- Loading, whether the read succeeds or not. -/
theorem load (h : EntriesHold Q v) (ok : Nat → Bool) : EntriesHold Q (vfsSyncFromDisk ok v) := by
  by_cases hok : ok v.calls = true
  · exact of_disk h.disk hok
  · exact h.congr (by simp [hok]) (by simp)

/-- An entry in use. -/
theorem used (h : EntriesHold Q v) (hu : (v.table i).used ≠ 0) : Q i (some (v.table i)) := by
  rw [← inUse_eq_some hu]
  exact h.table i

/-- A free slot. -/
theorem free (h : EntriesHold Q v) (hu : (v.table i).used = 0) : Q i none := by
  rw [← inUse_eq_none hu]
  exact h.table i

theorem setEntry (h : EntriesHold Q v) (hf : Q i f.inUse) : EntriesHold Q (v.setEntry i f) := by
  refine ⟨h.disk, fun j => ?_⟩
  by_cases hji : j = i
  · subst hji
    rwa [setEntry_table, Function.update_self]
  · rw [setEntry_table, Function.update_of_ne hji]
    exact h.table j

/-- Writing a sector that is not the metadata sector. -/
theorem writeSector (h : EntriesHold Q v) (hlba : lba ≠ vfsMetadataLba) :
    EntriesHold Q (ataWriteSector ok v lba buf).1 := by
  have hsector : (ataWriteSector ok v lba buf).1.disk vfsMetadataLba = v.disk vfsMetadataLba := by
    rw [ataWriteSector_disk]
    split
    · exact Function.update_of_ne hlba.symm _ _
    · rfl
  refine ⟨by rw [hsector]; exact h.disk, by rw [ataWriteSector_table]; exact h.table⟩

section Rule

variable (hQ : EntryRule Q)
include hQ

/-- Saving, whether the write succeeds or not. -/
theorem save (h : EntriesHold Q v) : EntriesHold Q (vfsSyncToDisk ok v) := by
  by_cases hok : ok v.calls = true
  · have hsector : (vfsSyncToDisk ok v).disk vfsMetadataLba = tableSector v.table := by simp [hok]
    refine ⟨fun i => ?_, by rw [vfsSyncToDisk_table]; exact h.table⟩
    rw [hsector, hQ.loaded_saved (h.table i)]
    exact h.table i
  · exact h.congr (by simp) (by simp [hok])

theorem create (h : EntriesHold Q v) (ok : Nat → Bool) (name : Option (List UInt8)) :
    EntriesHold Q (vfsCreate ok v name).1 ∧
    ∀ i, (vfsCreate ok v name).2 = some i → ((vfsCreate ok v name).1.table i).used ≠ 0 := by
  match name with
  | none => exact ⟨h, by simp [vfsCreate]⟩
  | some [] => exact ⟨h, by simp [vfsCreate]⟩
  | some (a :: l) =>
    have hload := h.load ok
    simp only [vfsCreate]
    generalize vfsSyncFromDisk ok v = v1 at *
    cases hfind : findName v1.table (a :: l) with
    | some i =>
      refine ⟨hload, fun j hj => ?_⟩
      obtain rfl := Option.some.inj hj
      exact (findName_eq_some hfind).1
    | none =>
      cases hfree : findFree v1.table with
      | none => exact ⟨hload, by simp⟩
      | some i =>
        have hnone := hload.free (findFree_eq_some hfree)
        refine ⟨(hload.setEntry (hQ.fill hnone (Nat.zero_le _))).save hQ, fun j hj => ?_⟩
        obtain rfl := Option.some.inj hj
        simp

/-- The two sectors of an entry in use. -/
theorem sectors (h : EntriesHold Q v) (hu : (v.table i).used ≠ 0) :
    (v.table i).startLba = vfsDataStartLba + i * 2 ∧
      add32 (v.table i).startLba 1 = vfsDataStartLba + i * 2 + 1 := by
  have hlba := (hQ.sound (h.used hu)).2
  have hi := i.isLt
  refine ⟨hlba, ?_⟩
  rw [hlba, add32_of_lt]
  simp only [vfsDataStartLba, maxFiles] at hi ⊢
  omega

theorem writeData (h : EntriesHold Q v) (hu : (v.table i).used ≠ 0) :
    EntriesHold Q (vfsWriteData ok v i content len) := by
  obtain ⟨hlba, hnext⟩ := h.sectors hQ hu
  have hne : vfsDataStartLba + i * 2 ≠ vfsMetadataLba ∧
      vfsDataStartLba + i * 2 + 1 ≠ vfsMetadataLba := by
    simp only [vfsDataStartLba, vfsMetadataLba]
    omega
  unfold vfsWriteData
  simp only [ataWriteSector_table, hnext]
  rw [hlba]
  split
  · exact (h.writeSector hne.1).writeSector hne.2
  · exact h.writeSector hne.1

theorem write (h : EntriesHold Q v) : EntriesHold Q (vfsWriteFile ok v name content len).1 := by
  obtain ⟨hcreate, hused⟩ := h.create hQ ok name
  unfold vfsWriteFile
  rcases hc : vfsCreate ok v name with ⟨v1, _ | i⟩
  · rw [hc] at hcreate
    exact hcreate
  · rw [hc] at hcreate hused
    have hu := hused i rfl
    have hsize : (if len > maxFileSize then maxFileSize else len) ≤ maxFileSize := by
      split <;> omega
    have hentry := hQ.resize (hcreate.used hu) hsize
    rw [← inUse_eq_some (by exact hu)] at hentry
    exact save hQ (writeData hQ (hcreate.setEntry hentry) (by simpa using hu))

/-- Deleting a name, if the rule lets its entry go. -/
theorem delete (h : EntriesHold Q v)
    (hname : ∀ i f, Q i (some f) → name = some f.nameString → Q i none) :
    EntriesHold Q (vfsDeleteFile ok v name).1 := by
  match name with
  | none => exact h
  | some [] => exact h
  | some (a :: l) =>
    have hload := h.load ok
    simp only [vfsDeleteFile]
    generalize vfsSyncFromDisk ok v = v1 at *
    cases hfind : findName v1.table (a :: l) with
    | none => exact hload
    | some i =>
      obtain ⟨hu, hstring⟩ := findName_eq_some hfind
      refine (hload.setEntry ?_).save hQ
      rw [inUse_cleared]
      exact hname i _ (hload.used hu) (by rw [hstring])

/-- The rest of a mount, after its attempt to read the metadata sector. -/
theorem init (h : EntriesHold Q (vfsSyncFromDisk ok { v with table := clearTable v.table })) :
    EntriesHold Q (vfsInit ok v) := by
  simp only [vfsInit]
  generalize vfsSyncFromDisk ok { v with table := clearTable v.table } = v1 at *
  refine congr (v := if (v1.table 0).used = 0 then _ else v1) ?_ rfl rfl
  split
  · rename_i hu
    have hsize : initMsg.length + 1 ≤ maxFileSize := by decide
    refine save hQ (writeSector (h.setEntry (hQ.fill (h.free hu) hsize)) ?_)
    simp only [setEntry_table, Function.update_self]
    decide
  · exact h

end Rule

theorem read {buffer : Option (Nat → UInt8)} {maxLen : Nat} (h : EntriesHold Q v) :
    EntriesHold Q (vfsReadFile ok v name buffer maxLen stack).1 := by
  obtain ⟨htable | htable, hdisk⟩ := vfsReadFile_state ok v name buffer maxLen stack
  · exact h.congr htable hdisk
  · exact (h.load ok).congr htable (hdisk.trans vfsSyncFromDisk_disk.symm)

theorem list (h : EntriesHold Q v) : EntriesHold Q (vfsListFiles ok v) :=
  (h.load ok).congr vfsListFiles_state.1 vfsListFiles_state.2

/-- A mount that reads the sector, or of which any slot may be free. -/
theorem mount (hQ : EntryRule Q) (h : ∀ i, Q i (diskFile (v.disk vfsMetadataLba) i).loaded)
    (hread : ok v.calls = true ∨ ∀ i, Q i none) : EntriesHold Q (vfsInit ok v) := by
  refine init hQ ?_
  rcases hread with hok | hfree
  · exact of_disk h hok
  · have hclear : EntriesHold Q { v with table := clearTable v.table } := ⟨h, fun i => hfree i⟩
    exact hclear.load ok

end EntriesHold

end HumanOS

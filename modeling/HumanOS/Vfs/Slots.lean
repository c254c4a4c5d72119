import HumanOS.Lib.SlotMap
import HumanOS.Vfs.Table

/-!
# The disk as slots

What the metadata sector and the data sectors store, slot by slot, and how saving a table with
one changed entry changes it.
-/
namespace HumanOS

open Lib

variable {ok : Nat → Bool} {v v' : Vfs} {d d' : Nat → Nat → UInt8} {t : FileTable}
variable {i j : Fin maxFiles} {f : VfsFile} {name : List UInt8}

/-- The stored bytes of an entry, read from its two sectors. -/
def fileContent (d : Nat → Nat → UInt8) (f : VfsFile) : List UInt8 :=
  (List.range f.size).map fun k =>
    if k < 512 then d f.startLba k else d (f.startLba + 1) (k - 512)

/-- Slot `i` of a disk: a name and its bytes, if the entry is one that loading accepts. -/
def slotOf (d : Nat → Nat → UInt8) (i : Fin maxFiles) : Option (List UInt8 × List UInt8) :=
  let f := diskFile (d vfsMetadataLba) i
  if f.accepted then some (f.nameString, fileContent d f) else none

/-- Every accepted entry uses the two sectors of its slot. -/
def Placed (d : Nat → Nat → UInt8) : Prop :=
  ∀ i, (diskFile (d vfsMetadataLba) i).accepted = true →
    (diskFile (d vfsMetadataLba) i).startLba = vfsDataStartLba + i * 2

/-- The table in memory has just been loaded from the disk or saved to it. -/
structure InSync (v : Vfs) : Prop where
  used : ∀ i, (v.table i).used ≠ 0 →
    diskFile (v.disk vfsMetadataLba) i = v.table i ∧ (v.table i).accepted = true
  free : ∀ i, (v.table i).used = 0 → (diskFile (v.disk vfsMetadataLba) i).accepted = false

/-- Its integers fit their fields. -/
structure VfsFile.Fits (f : VfsFile) : Prop where
  size : f.size < 2 ^ 32
  startLba : f.startLba < 2 ^ 32
  used : f.used < 2 ^ 32

theorem diskFile_saved (hf : (t i).Fits) : diskFile (tableSector t) i = t i := by
  rw [diskFile_tableSector, Nat.mod_eq_of_lt hf.size, Nat.mod_eq_of_lt hf.startLba,
    Nat.mod_eq_of_lt hf.used]

theorem loadTable_used (hu : (loadTable (d vfsMetadataLba) t i).used ≠ 0) :
    (diskFile (d vfsMetadataLba) i).accepted = true ∧
      loadTable (d vfsMetadataLba) t i = diskFile (d vfsMetadataLba) i := by
  unfold loadTable at hu ⊢
  split at hu
  · rename_i hacc
    exact ⟨hacc, if_pos hacc⟩
  · simp [VfsFile.cleared] at hu

theorem loadTable_free (hu : (loadTable (d vfsMetadataLba) t i).used = 0) :
    (diskFile (d vfsMetadataLba) i).accepted = false := by
  unfold loadTable at hu
  split at hu
  · rename_i hacc
    have hone := (accepted_iff.mp hacc).1
    omega
  · rename_i hacc
    simpa using hacc

/-- A successful load brings the table in step with the disk. -/
theorem inSync_load (hok : ok v.calls = true) : InSync (vfsSyncFromDisk ok v) := by
  constructor
  · intro i hu
    simp only [vfsSyncFromDisk_table, vfsSyncFromDisk_disk, hok, if_true] at hu ⊢
    obtain ⟨hacc, heq⟩ := loadTable_used hu
    exact ⟨heq.symm, by rw [heq, hacc]⟩
  · intro i hu
    simp only [vfsSyncFromDisk_table, vfsSyncFromDisk_disk, hok, if_true] at hu ⊢
    exact loadTable_free hu

namespace InSync

theorem slot_used (h : InSync v) (hu : (v.table i).used ≠ 0) :
    slotOf v.disk i = some ((v.table i).nameString, fileContent v.disk (v.table i)) := by
  obtain ⟨heq, hacc⟩ := h.used i hu
  simp [slotOf, heq, hacc]

theorem slot_free (h : InSync v) (hu : (v.table i).used = 0) : slotOf v.disk i = none := by
  simp [slotOf, h.free i hu]

theorem fits (h : InSync v) (hu : (v.table i).used ≠ 0) : (v.table i).Fits := by
  obtain ⟨heq, -⟩ := h.used i hu
  obtain ⟨hs, hl, hused⟩ := diskFile_lt (v.disk vfsMetadataLba) i
  rw [heq] at hs hl hused
  exact ⟨hs, hl, hused⟩

theorem startLba (h : InSync v) (hp : Placed v.disk) (hu : (v.table i).used ≠ 0) :
    (v.table i).startLba = vfsDataStartLba + i * 2 := by
  obtain ⟨heq, hacc⟩ := h.used i hu
  have hpl := hp i (by rw [heq, hacc])
  rwa [heq] at hpl

/-- What saving one changed entry leaves, slot by slot. -/
structure Saved (v : Vfs) (i : Fin maxFiles) (f : VfsFile) (v' : Vfs) : Prop where
  table : v'.table = Function.update v.table i f
  sector : v'.disk vfsMetadataLba = tableSector (Function.update v.table i f)
  other : ∀ lba, lba ≠ vfsMetadataLba → lba ≠ vfsDataStartLba + i * 2 →
    lba ≠ vfsDataStartLba + i * 2 + 1 → v'.disk lba = v.disk lba

/-- The entry of a slot that was not touched. -/
theorem saved_other (h : InSync v) (hs : Saved v i f v') (hj : j ≠ i) :
    (diskFile (v'.disk vfsMetadataLba) j).accepted = true ↔ (v.table j).used ≠ 0 := by
  rw [hs.sector, diskFile_tableSector, Function.update_of_ne hj, accepted_iff]
  constructor
  · rintro ⟨hone, -⟩ hz
    simp [hz] at hone
  · intro hu
    obtain ⟨-, hacc⟩ := h.used j hu
    obtain ⟨hone, hsize⟩ := accepted_iff.mp hacc
    have hfits := h.fits hu
    simp only [hone, Nat.mod_eq_of_lt hfits.size]
    exact ⟨rfl, hsize⟩

theorem saved_file (h : InSync v) (hs : Saved v i f v') (hj : j ≠ i)
    (hu : (v.table j).used ≠ 0) : diskFile (v'.disk vfsMetadataLba) j = v.table j := by
  have hfits : (Function.update v.table i f j).Fits := by
    rw [Function.update_of_ne hj]
    exact h.fits hu
  rw [hs.sector, diskFile_saved hfits, Function.update_of_ne hj]

theorem saved_self (hs : Saved v i f v') (hf : f.Fits) :
    diskFile (v'.disk vfsMetadataLba) i = f := by
  have hfits : (Function.update v.table i f i).Fits := by rwa [Function.update_self]
  rw [hs.sector, diskFile_saved hfits, Function.update_self]

/-- Saving an entry with its own sectors keeps every entry in its place. -/
theorem saved_placed (h : InSync v) (hp : Placed v.disk) (hs : Saved v i f v') (hf : f.Fits)
    (hlba : f.accepted = true → f.startLba = vfsDataStartLba + i * 2) : Placed v'.disk := by
  intro j hacc
  by_cases hj : j = i
  · subst hj
    rw [saved_self hs hf] at hacc ⊢
    exact hlba hacc
  · have hu := (h.saved_other hs hj).mp hacc
    rw [h.saved_file hs hj hu]
    exact h.startLba hp hu

/-- Saving one changed entry changes one slot. -/
theorem saved_slot (h : InSync v) (hp : Placed v.disk) (hs : Saved v i f v') (hf : f.Fits) :
    slotOf v'.disk = Function.update (slotOf v.disk) i
      (if f.accepted then some (f.nameString, fileContent v'.disk f) else none) := by
  funext j
  by_cases hj : j = i
  · subst hj
    rw [Function.update_self]
    simp only [slotOf, saved_self hs hf]
  · rw [Function.update_of_ne hj]
    by_cases hu : (v.table j).used = 0
    · have hacc : (diskFile (v'.disk vfsMetadataLba) j).accepted = false := by
        simpa [hu] using (h.saved_other hs hj).not
      rw [h.slot_free hu]
      simp [slotOf, hacc]
    · have hne : (i : Nat) ≠ j := fun he => hj (Fin.ext he).symm
      have hlba := h.startLba hp hu
      have hsame : fileContent v'.disk (v.table j) = fileContent v.disk (v.table j) := by
        unfold fileContent
        rw [hs.other, hs.other] <;> simp only [hlba, vfsMetadataLba, vfsDataStartLba] <;> omega
      rw [h.slot_used hu]
      simp only [slotOf, h.saved_file hs hj hu, (h.used j hu).2, if_true, hsame]

theorem saved_inSync (h : InSync v) (hs : Saved v i f v') (hf : f.Fits)
    (hused : f.used ≠ 0 → f.accepted = true) : InSync v' := by
  constructor
  · intro j hu
    by_cases hj : j = i
    · subst hj
      rw [hs.table, Function.update_self] at hu ⊢
      exact ⟨saved_self hs hf, hused hu⟩
    · rw [hs.table, Function.update_of_ne hj] at hu ⊢
      exact ⟨h.saved_file hs hj hu, (h.used j hu).2⟩
  · intro j hu
    by_cases hj : j = i
    · subst hj
      rw [hs.table, Function.update_self] at hu
      rw [saved_self hs hf]
      simp [VfsFile.accepted, hu]
    · rw [hs.table, Function.update_of_ne hj] at hu
      simpa [hu] using (h.saved_other hs hj).not

end InSync

end HumanOS

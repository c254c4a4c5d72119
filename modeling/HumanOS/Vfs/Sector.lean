import HumanOS.Vfs.Calls

/-!
# The metadata sector as a format

Saving a table and loading the sector again over another one, and loading any sector, saving what
was accepted of it and loading once more.
-/
namespace HumanOS

open Lib

variable {ok : Nat → Bool} {v : Vfs} {t t' : FileTable} {i : Fin maxFiles} {f : VfsFile}

/-- An entry as the file system keeps them; `start_lba` is any 32-bit number. -/
structure VfsFile.Storable (f : VfsFile) : Prop where
  used : f.used = 0 ∨ f.used = 1
  size : f.size ≤ maxFileSize
  startLba : f.startLba < 2 ^ 32

/-- The table is saved and loaded again over the table `t'`. -/
def reload (ok : Nat → Bool) (v : Vfs) (t' : FileTable) : Vfs :=
  vfsSyncFromDisk ok { vfsSyncToDisk ok v with table := t' }

/-- Loading what `t` was saved as over `t'` gives the entries in use back field by field; of the
others it clears three fields and keeps the rest of what was in memory. -/
structure RoundTrips (t t' out : FileTable) : Prop where
  used : ∀ i, (t i).used = 1 → (out i).name = (t i).name ∧ (out i).size = (t i).size ∧
    (out i).startLba = (t i).startLba ∧ (out i).used = 1
  unused : ∀ i, (t i).used = 0 → (out i).used = 0 ∧ (out i).size = 0 ∧ (out i).name 0 = 0
  kept : ∀ i, (t i).used = 0 →
    (∀ k ≠ 0, (out i).name k = (t' i).name k) ∧ (out i).startLba = (t' i).startLba

/-- The same entries in use, and the same slots free. -/
structure SameFiles (t out : FileTable) : Prop where
  used : ∀ i, (t i).used ≠ 0 → out i = t i
  unused : ∀ i, (out i).used = 0 ↔ (t i).used = 0

theorem VfsFile.Storable.fits (h : f.Storable) : f.Fits := by
  have hused := h.used
  have hsize := h.size
  simp only [maxFileSize] at hsize
  exact ⟨by omega, h.startLba, by omega⟩

section Load

theorem loadTable_saved_used (hf : (t i).Fits) (hacc : (t i).accepted = true) :
    loadTable (tableSector t) t' i = t i := by
  simp only [loadTable, diskFile_saved hf, hacc, if_true]

theorem loadTable_saved_unused (hu : (t i).used = 0) :
    loadTable (tableSector t) t' i = (t' i).cleared := by
  have hacc : (diskFile (tableSector t) i).accepted = false := by
    rw [diskFile_tableSector]
    simp [VfsFile.accepted, hu]
  simp [loadTable, hacc]

/-- An entry in use after loading is one that loading accepts again. -/
theorem loadTable_used_fits {buf : Nat → UInt8} (hu : (loadTable buf t i).used ≠ 0) :
    (loadTable buf t i).Fits ∧ (loadTable buf t i).accepted = true := by
  unfold loadTable at hu ⊢
  split at hu
  · rename_i hacc
    obtain ⟨hsize, hlba, hused⟩ := diskFile_lt buf i
    rw [if_pos hacc]
    exact ⟨⟨hsize, hlba, hused⟩, hacc⟩
  · simp [VfsFile.cleared] at hu

end Load

section Reload

theorem reload_table (hsave : ok v.calls = true) (hload : ok (v.calls + 1) = true) :
    (reload ok v t').table = loadTable (tableSector v.table) t' := by
  simp [reload, hsave, hload]

theorem roundTrips_reload (hsave : ok v.calls = true) (hload : ok (v.calls + 1) = true)
    (ht : ∀ i, (v.table i).Storable) : RoundTrips v.table t' (reload ok v t').table := by
  rw [reload_table hsave hload]
  refine ⟨fun i hone => ?_, fun i hzero => ?_, fun i hzero => ?_⟩
  · have hacc : (v.table i).accepted = true := accepted_iff.mpr ⟨hone, (ht i).size⟩
    rw [loadTable_saved_used (ht i).fits hacc]
    exact ⟨rfl, rfl, rfl, hone⟩
  · rw [loadTable_saved_unused hzero]
    exact ⟨rfl, rfl, by simp [VfsFile.cleared]⟩
  · rw [loadTable_saved_unused hzero]
    exact ⟨fun k hk => by simp [VfsFile.cleared, hk], rfl⟩

theorem sameFiles_reload (hload : ok v.calls = true) (hsave : ok (v.calls + 1) = true)
    (hagain : ok (v.calls + 2) = true) :
    SameFiles (vfsSyncFromDisk ok v).table (reload ok (vfsSyncFromDisk ok v) t').table := by
  have hloaded : (vfsSyncFromDisk ok v).table = loadTable (v.disk vfsMetadataLba) v.table := by
    simp [hload]
  rw [reload_table (by simpa using hsave) (by simpa using hagain), hloaded]
  have hused : ∀ i, (loadTable (v.disk vfsMetadataLba) v.table i).used ≠ 0 →
      loadTable (tableSector (loadTable (v.disk vfsMetadataLba) v.table)) t' i =
        loadTable (v.disk vfsMetadataLba) v.table i := by
    intro i hu
    obtain ⟨hf, hacc⟩ := loadTable_used_fits hu
    exact loadTable_saved_used hf hacc
  refine ⟨hused, fun i => ?_⟩
  by_cases hu : (loadTable (v.disk vfsMetadataLba) v.table i).used = 0
  · rw [loadTable_saved_unused hu]
    exact iff_of_true rfl hu
  · rw [hused i hu]

end Reload

/-- The sector format round-trips from tables and from sectors: the table of `v`, its metadata
sector and the table `t'` in memory are any, and the disk calls succeed. -/
theorem metadata_round_trips (ok : Nat → Bool) (v : Vfs) (t' : FileTable)
    (hok : ∀ k < 3, ok (v.calls + k) = true) :
    ((∀ i, (v.table i).Storable) → RoundTrips v.table t' (reload ok v t').table) ∧
      SameFiles (vfsSyncFromDisk ok v).table (reload ok (vfsSyncFromDisk ok v) t').table := by
  have hfirst := hok 0 (by decide)
  have hsecond := hok 1 (by decide)
  have hthird := hok 2 (by decide)
  exact ⟨roundTrips_reload hfirst hsecond, sameFiles_reload hfirst hsecond hthird⟩

/-- One file in the table, loaded back over entries full of ones. -/
theorem metadata_round_trips_one_file :
    let v : Vfs := ⟨fun i => if i.val = 0 then ⟨fun _ => 97, 5, 101, 1⟩ else ⟨fun _ => 0, 0, 0, 0⟩,
      fun _ _ => 1, 0, []⟩
    let out := (reload (fun _ => true) v fun _ => ⟨fun _ => 1, 1, 1, 1⟩).table
    (out ⟨0, by decide⟩).size = 5 ∧ (out ⟨1, by decide⟩).used = 0 := by
  intro v out
  have ht : ∀ i, (v.table i).Storable := by
    intro i
    by_cases hi : i.val = 0
    · have heq : v.table i = ⟨fun _ => 97, 5, 101, 1⟩ := if_pos hi
      rw [heq]
      exact ⟨Or.inr rfl, by decide, by decide⟩
    · have heq : v.table i = ⟨fun _ => 0, 0, 0, 0⟩ := if_neg hi
      rw [heq]
      exact ⟨Or.inl rfl, Nat.zero_le _, by decide⟩
  have hround := (metadata_round_trips (fun _ => true) v (fun _ => ⟨fun _ => 1, 1, 1, 1⟩)
    (fun _ _ => rfl)).1 ht
  exact ⟨(hround.used _ rfl).2.1, (hround.unused _ rfl).1⟩

end HumanOS

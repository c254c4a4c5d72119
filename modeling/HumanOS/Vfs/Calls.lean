import HumanOS.Vfs.Slots

/-!
# The calls, with disk errors

What `vfs_create_file` and `vfs_write_file` leave in the table and on the disk, whichever of their
disk calls succeed. All of it starts from the table as it is after the attempt to load it.
-/
namespace HumanOS

open Lib

variable {ok : Nat → Bool} {v w : Vfs} {i : Fin maxFiles} {f : VfsFile} {name : List UInt8}
variable {content : Nat → UInt8} {len n : Nat}

/-- The load succeeds, or there is nothing new to load. -/
def Loads (ok : Nat → Bool) (v : Vfs) : Prop := ok v.calls = true ∨ InSync v

theorem Loads.inSync (h : Loads ok v) : InSync (vfsSyncFromDisk ok v) := by
  by_cases hok : ok v.calls = true
  · exact inSync_load hok
  · have hsync := h.resolve_left hok
    constructor
    · intro i hu
      simp only [vfsSyncFromDisk_table, vfsSyncFromDisk_disk, hok, Bool.false_eq_true, if_false]
        at hu ⊢
      exact hsync.used i hu
    · intro i hu
      simp only [vfsSyncFromDisk_table, vfsSyncFromDisk_disk, hok, Bool.false_eq_true, if_false]
        at hu ⊢
      exact hsync.free i hu

/-- The entry `vfs_create_file` makes for a new name. -/
def newEntry (t : FileTable) (i : Fin maxFiles) (name : List UInt8) : VfsFile where
  used := 1
  size := 0
  startLba := vfsDataStartLba + i * 2
  name := strcpyImpl (t i).name name

/-- What `vfs_create_file` can do: find the name, make an entry for it, or find no room. -/
theorem vfsCreate_cases (ok : Nat → Bool) (v : Vfs) (hn : name ≠ []) :
    (∃ i, findName (vfsSyncFromDisk ok v).table name = some i ∧
      vfsCreate ok v (some name) = (vfsSyncFromDisk ok v, some i)) ∨
    (∃ i, findName (vfsSyncFromDisk ok v).table name = none ∧
      findFree (vfsSyncFromDisk ok v).table = some i ∧
      vfsCreate ok v (some name) = (vfsSyncToDisk ok ((vfsSyncFromDisk ok v).setEntry i
        (newEntry (vfsSyncFromDisk ok v).table i name)), some i)) ∨
    findName (vfsSyncFromDisk ok v).table name = none ∧
      findFree (vfsSyncFromDisk ok v).table = none ∧
      vfsCreate ok v (some name) = (vfsSyncFromDisk ok v, none) := by
  obtain ⟨a, l, rfl⟩ := List.exists_cons_of_ne_nil hn
  simp only [vfsCreate]
  generalize vfsSyncFromDisk ok v = u
  cases hfind : findName u.table (a :: l) with
  | some i => exact Or.inl ⟨i, rfl, rfl⟩
  | none =>
    cases hfree : findFree u.table with
    | some i => exact Or.inr (Or.inl ⟨i, rfl, rfl, rfl⟩)
    | none => exact Or.inr (Or.inr ⟨rfl, rfl, rfl⟩)

theorem indexCode_inj {a : Option (Fin maxFiles)} (h : indexCode a = indexCode (some i)) :
    a = some i := by
  cases a with
  | none =>
    simp only [indexCode] at h
    omega
  | some j =>
    simp only [indexCode, Nat.cast_inj] at h
    rw [Fin.ext h]

theorem vfsCreateFile_eq (h : vfsCreateFile ok v (some name) = (w, indexCode (some i))) :
    vfsCreate ok v (some name) = (w, some i) := by
  simp only [vfsCreateFile, Prod.mk.injEq] at h
  exact Prod.ext h.1 (indexCode_inj h.2)

/-- The disk calls `vfs_create_file` makes when it succeeds: the load, and a save if the name is
new. -/
def createCalls (ok : Nat → Bool) (v : Vfs) (name : List UInt8) : Nat :=
  if findName (vfsSyncFromDisk ok v).table name = none then 2 else 1

@[simp] theorem vfsSyncToDisk_calls : (vfsSyncToDisk ok v).calls = v.calls + 1 := by
  unfold vfsSyncToDisk ataWriteSector
  split <;> rename_i h <;> split at h <;> simp_all <;> simp [← h]

@[simp] theorem setEntry_calls : (v.setEntry i f).calls = v.calls := rfl

theorem newEntry_sound {t : FileTable} (hnul : 0 ∉ name) :
    (newEntry t i name).Fits ∧ (newEntry t i name).accepted = true ∧
      (newEntry t i name).nameString = name.take (maxFilename - 1) := by
  have hi := i.isLt
  refine ⟨⟨?_, ?_, ?_⟩, accepted_iff.mpr ⟨rfl, Nat.zero_le _⟩, nameString_strcpyImpl rfl hnul⟩
  · simp [newEntry]
  · simp only [newEntry, vfsDataStartLba, maxFiles] at hi ⊢
    omega
  · simp [newEntry]

theorem take_name (hshort : name.length < maxFilename) : name.take (maxFilename - 1) = name :=
  List.take_of_length_le (by simp only [maxFilename] at hshort ⊢; omega)

/-- A table just saved, with the data sectors left alone. -/
theorem saved_sync (hok : ok w.calls = true) (ht : w.table = Function.update v.table i f)
    (hd : w.disk = v.disk) : InSync.Saved v i f (vfsSyncToDisk ok w) where
  table := by simp [ht]
  sector := by simp [ht, hok]
  other := by
    intro lba hne _ _
    simp [hne, hd, hok]

/-- The state after `vfs_create_file` returned slot `i`: the loaded table with an entry of that
name there. -/
structure Created (ok : Nat → Bool) (v : Vfs) (name : List UInt8) (i : Fin maxFiles) (f : VfsFile)
    (w : Vfs) : Prop where
  table : w.table = Function.update (vfsSyncFromDisk ok v).table i f
  disk : ∀ lba, lba ≠ vfsMetadataLba → w.disk lba = v.disk lba
  calls : w.calls = v.calls + createCalls ok v name
  fits : f.Fits
  accepted : f.accepted = true
  startLba : f.startLba = vfsDataStartLba + i * 2
  string : f.nameString = name

theorem vfsCreate_created (hload : Loads ok v) (hp : Placed v.disk) (hne : name ≠ [])
    (hshort : name.length < maxFilename) (hnul : 0 ∉ name)
    (hc : vfsCreate ok v (some name) = (w, some i)) : ∃ f, Created ok v name i f w := by
  have hsync := hload.inSync
  have hdisk : (vfsSyncFromDisk ok v).disk = v.disk := vfsSyncFromDisk_disk
  have hcalls : (vfsSyncFromDisk ok v).calls = v.calls + 1 := vfsSyncFromDisk_calls
  rcases vfsCreate_cases ok v hne with ⟨j, hfind, heq⟩ | ⟨j, hfind, -, heq⟩ | ⟨-, -, heq⟩
  · obtain ⟨rfl, hj⟩ := Prod.mk.inj (heq.symm.trans hc)
    obtain rfl := Option.some.inj hj
    obtain ⟨hu, hname⟩ := findName_eq_some hfind
    refine ⟨(vfsSyncFromDisk ok v).table j, by rw [Function.update_eq_self],
      fun lba _ => by rw [hdisk], ?_, hsync.fits hu, (hsync.used j hu).2,
      hsync.startLba (hdisk ▸ hp) hu, hname⟩
    rw [hcalls, createCalls, hfind]
    simp
  · obtain ⟨rfl, hj⟩ := Prod.mk.inj (heq.symm.trans hc)
    obtain rfl := Option.some.inj hj
    obtain ⟨hfits, hacc, hname⟩ := newEntry_sound (i := j) (t := (vfsSyncFromDisk ok v).table) hnul
    refine ⟨newEntry (vfsSyncFromDisk ok v).table j name, by simp, fun lba hlba => ?_, ?_, hfits,
      hacc, rfl, by rw [hname, take_name hshort]⟩
    · simp only [vfsSyncToDisk_disk, setEntry_disk, hdisk]
      split
      · exact Function.update_of_ne hlba _ _
      · rfl
    · rw [vfsSyncToDisk_calls, setEntry_calls, hcalls, createCalls, if_pos hfind]
  · exact absurd (Prod.mk.inj (heq.symm.trans hc)).2 (by simp)

/-- The bytes the data part leaves in the two sectors, if the calls that matter succeed. -/
theorem fileContent_writeData (ok : Nat → Bool)
    (hnext : add32 (v.table i).startLba 1 = (v.table i).startLba + 1)
    (hf : f.size = len ∧ f.startLba = (v.table i).startLba)
    (hfirst : 0 < len → ok v.calls = true) (hsecond : 512 < len → ok (v.calls + 1) = true) :
    fileContent (vfsWriteData ok v i content len).disk f = (List.range len).map content := by
  unfold fileContent
  rw [hf.1, hf.2]
  apply List.map_congr_left
  intro k hk
  have hk' := List.mem_range.mp hk
  have hok := hfirst (by omega)
  by_cases hbig : 512 < len
  · have hok' := hsecond hbig
    by_cases hlt : k < 512
    · simp [vfsWriteData, hbig, hnext, hlt, hk', hok, hok', Function.update_of_ne]
    · simp [vfsWriteData, hbig, hnext, hlt, hok', show k - 512 + 512 = k by omega, hk']
  · simp [vfsWriteData, hbig, show k < 512 by omega, hk', hok]

theorem vfsWriteData_calls : (vfsWriteData ok v i content len).calls =
    v.calls + if 512 < len then 2 else 1 := by
  unfold vfsWriteData
  split
  · simp [*]
  · simp [*]

/-- The disk calls `vfs_write_file` depends on: the load, one data sector unless nothing is
written, a second one beyond 512 bytes, and the last save. -/
structure WriteReaches (ok : Nat → Bool) (v : Vfs) (name : List UInt8) (n : Nat) : Prop where
  loads : Loads ok v
  short : name.length < maxFilename
  first : 0 < n → ok (v.calls + createCalls ok v name) = true
  second : 512 < n → ok (v.calls + createCalls ok v name + 1) = true
  saves : ok (v.calls + createCalls ok v name + if 512 < n then 2 else 1) = true

/-- Then the loaded table is saved with one entry changed, and its bytes lie in its sectors. -/
theorem vfsWriteFile_saved (content : Nat → UInt8) (len : Nat)
    (hr : WriteReaches ok v name (min len maxFileSize))
    (hp : Placed v.disk) (hne : name ≠ []) (hnul : 0 ∉ name)
    (hc : vfsCreate ok v (some name) = (w, some i)) :
    ∃ f, InSync.Saved (vfsSyncFromDisk ok v) i f (vfsWriteFile ok v (some name) content len).1 ∧
      f.Fits ∧ f.accepted = true ∧ f.startLba = vfsDataStartLba + i * 2 ∧ f.nameString = name ∧
      f.size = min len maxFileSize ∧
      fileContent (vfsWriteFile ok v (some name) content len).1.disk f =
        (List.range (min len maxFileSize)).map content := by
  obtain ⟨f, hcreated⟩ := vfsCreate_created hr.loads hp hne hr.short hnul hc
  have hlen : (if len > maxFileSize then maxFileSize else len) = min len maxFileSize := by
    split <;> omega
  have hlba := hcreated.startLba
  have hi := i.isLt
  simp only [vfsWriteFile, hc, hlen]
  have hfirst := hr.first
  have hsecond := hr.second
  have hsaves := hr.saves
  generalize hn : min len maxFileSize = n at *
  have hsize : n ≤ maxFileSize := by omega
  have hentry : w.table i = f := by rw [hcreated.table, Function.update_self]
  rw [hentry]
  set g : VfsFile := { f with size := n }
  set x := w.setEntry i g
  have hstart : (x.table i).startLba = vfsDataStartLba + i * 2 := by
    simp only [x, setEntry_table, Function.update_self]
    exact hlba
  have hnext : add32 (x.table i).startLba 1 = (x.table i).startLba + 1 := by
    refine add32_of_lt ?_
    simp only [hstart, vfsDataStartLba, maxFiles] at hi ⊢
    omega
  have hok : ok (vfsWriteData ok x i content n).calls = true := by
    rw [vfsWriteData_calls, setEntry_calls, hcreated.calls]
    exact hsaves
  have hdata : ∀ lba ≠ vfsMetadataLba, (vfsSyncToDisk ok (vfsWriteData ok x i content n)).disk lba =
      (vfsWriteData ok x i content n).disk lba := by
    intro lba hlba
    simp [hok, hlba]
  refine ⟨g, ⟨?_, ?_, fun lba hmeta hne1 hne2 => ?_⟩,
    ⟨hsize.trans_lt (by decide), hcreated.fits.startLba, hcreated.fits.used⟩,
    accepted_iff.mpr ⟨(accepted_iff.mp hcreated.accepted).1, hsize⟩, hlba, ?_, rfl, ?_⟩
  · simp [x, hcreated.table]
  · simp [x, hok, hcreated.table]
  · rw [hdata lba hmeta, vfsWriteData_other, setEntry_disk, hcreated.disk lba hmeta,
      vfsSyncFromDisk_disk]
    · rwa [hstart]
    · rwa [hnext, hstart]
  · rw [nameString_congr (f := g) (g := f) rfl (by rw [hcreated.string]; exact hr.short),
      hcreated.string]
  · rw [← fileContent_writeData ok (v := x) (i := i) (f := g) hnext
      ⟨rfl, hlba.trans hstart.symm⟩ (by rwa [setEntry_calls, hcreated.calls])
      (by rwa [setEntry_calls, hcreated.calls])]
    unfold fileContent
    rw [hdata, hdata] <;> simp only [g, hlba, vfsDataStartLba, vfsMetadataLba] <;> omega

end HumanOS

import HumanOS.Vfs.Refinement

/-!
# Mounting

`vfs_init` on a reliable disk, the runs that start from a mount, and what a reboot keeps.
-/
namespace HumanOS

open Lib

variable {v : Vfs} {d : Nat → Nat → UInt8} {m : FileMap} {name : List UInt8}
variable {stack : Nat → UInt8} {op : VfsOp} {ops : List VfsOp}

section Init

/-- The welcome file. -/
def readmeFile : List UInt8 × List UInt8 := (readmeName, initMsg ++ [0])

theorem readmeName_valid : ValidName readmeName := ⟨by decide, by decide, by decide⟩

/-- The table read at the mount is in step with the disk, first slot included. -/
theorem loaded_inSync {v1 : Vfs}
    (h1 : vfsSyncFromDisk reliable { v with table := clearTable v.table } = v1) :
    InSync v1 ∧ v1.disk = v.disk ∧ ((v1.table 0).used = 0 ↔ slotOf v.disk 0 = none) := by
  have hsync : InSync v1 := h1 ▸ inSync_load rfl
  have hdisk : v1.disk = v.disk := h1 ▸ vfsSyncFromDisk_disk
  refine ⟨hsync, hdisk, fun hz => hdisk ▸ hsync.slot_free hz, fun h0 => ?_⟩
  by_contra hne
  rw [← hdisk, hsync.slot_used hne] at h0
  simp at h0

/-- Mounting a disk whose first slot is taken leaves it as it is. -/
theorem vfsInit_used (h0 : slotOf v.disk 0 ≠ none) : (vfsInit reliable v).disk = v.disk := by
  simp only [vfsInit]
  generalize h1 : vfsSyncFromDisk reliable { v with table := clearTable v.table } = v1
  obtain ⟨-, hdisk, hfree⟩ := loaded_inSync h1
  rw [if_neg (mt hfree.mp h0)]
  exact hdisk

/-- Mounting a disk whose first slot is free saves an entry for the welcome file there. -/
theorem vfsInit_saved (h0 : slotOf v.disk 0 = none) :
    ∃ v1 f, InSync v1 ∧ v1.disk = v.disk ∧ InSync.Saved v1 0 f (vfsInit reliable v) ∧ f.Fits ∧
      f.accepted = true ∧ f.nameString = readmeName ∧ f.startLba = vfsDataStartLba ∧
      fileContent (vfsInit reliable v).disk f = initMsg ++ [0] := by
  simp only [vfsInit]
  generalize h1 : vfsSyncFromDisk reliable { v with table := clearTable v.table } = v1
  obtain ⟨hsync, hdisk, hfree⟩ := loaded_inSync h1
  rw [if_pos (hfree.mpr h0), setEntry_table, Function.update_self]
  set f : VfsFile :=
    { name := strcpyImpl (v1.table 0).name readmeName
      used := 1
      startLba := vfsDataStartLba
      size := initMsg.length + 1 }
  have hmeta : vfsDataStartLba ≠ vfsMetadataLba := by decide
  refine ⟨v1, f, hsync, hdisk, ⟨by simp, by simp, fun lba hne hne1 _ => ?_⟩, ⟨?_, ?_, ?_⟩, ?_, ?_,
    rfl, ?_⟩
  · have hne' : lba ≠ vfsDataStartLba := by simpa using hne1
    simp [hne, hne', f]
  · exact show initMsg.length + 1 < 2 ^ 32 by decide
  · exact show vfsDataStartLba < 2 ^ 32 by decide
  · exact show 1 < 2 ^ 32 by decide
  · exact accepted_iff.mpr ⟨rfl, show initMsg.length + 1 ≤ maxFileSize by decide⟩
  · rw [nameString_strcpyImpl (f := f) rfl readmeName_valid.noNul]
    decide
  · have hbytes : (List.range (initMsg.length + 1)).map (fun k => initMsg.getD k 0) =
        initMsg ++ [0] := by decide
    rw [← hbytes]
    refine List.map_congr_left fun k hk => ?_
    have hsize : initMsg.length + 1 < 512 := by decide
    have hk' : k < 512 := (List.mem_range.mp hk).trans hsize
    simp [hk', Function.update_of_ne hmeta, f]

/-- Mounting a disk whose first slot is free puts the welcome file there. -/
theorem vfsInit_free (hp : Placed v.disk) (h0 : slotOf v.disk 0 = none) :
    slotOf (vfsInit reliable v).disk = Function.update (slotOf v.disk) 0 (some readmeFile) ∧
      Placed (vfsInit reliable v).disk := by
  obtain ⟨v1, f, hsync, hdisk, hsaved, hfits, hacc, hname, hlba, hcontent⟩ := vfsInit_saved h0
  rw [← hdisk] at hp ⊢
  refine ⟨?_, hsync.saved_placed hp hsaved hfits fun _ => hlba⟩
  rw [hsync.saved_slot hp hsaved hfits, if_pos hacc, hname, hcontent, readmeFile]

end Init

section Runs

/-- Along the run every call returns what the map does, the stored data stay those of the map,
other names are left alone and there are never more than sixteen. -/
def Conforms (stack : Nat → UInt8) : FileMap → Vfs → List VfsOp → Prop
  | m, v, [] => Stores v.disk m ∧ {k | m k ≠ none}.ncard ≤ maxFiles
  | m, v, op :: ops =>
    Stores v.disk m ∧ {k | m k ≠ none}.ncard ≤ maxFiles ∧
      mapReturns m (vfsCall stack v op).2.1 (vfsCall stack v op).2.2 op ∧
      (∀ k ≠ op.name, mapNext m op k = m k) ∧
      Conforms stack (mapNext m op) (vfsCall stack v op).1 ops

theorem Stores.conforms (h : Stores v.disk m) (hops : ∀ op ∈ ops, op.Admissible) :
    Conforms stack m v ops := by
  induction ops generalizing v m with
  | nil => exact ⟨h, h.slots.ncard_le⟩
  | cons op ops ih =>
    obtain ⟨hnext, hret⟩ := vfsCall_refines stack h (hops op (by simp))
    exact ⟨h, h.slots.ncard_le, hret, fun k hk => mapNext_other hk,
      ih hnext fun o ho => hops o (by simp [ho])⟩

/-- The map of a disk that was mounted for the first time. -/
def readmeMap : FileMap := Function.update (fun _ => none) readmeFile.1 (some readmeFile.2)

/-- On an all-zero disk no entry is accepted. -/
theorem zeroDisk_slot (hzero : ∀ lba k, d lba k = 0) (i : Fin maxFiles) :
    (diskFile (d vfsMetadataLba) i).accepted = false := by
  have hused : (diskFile (d vfsMetadataLba) i).used = 0 := by
    simp [diskFile, loadLE, hzero]
  simp [VfsFile.accepted, hused]

/-- The first mount of an all-zero disk. -/
theorem vfsInit_zero (hzero : ∀ lba k, v.disk lba k = 0) :
    Stores (vfsInit reliable v).disk readmeMap := by
  have hempty : ∀ i, slotOf v.disk i = none := fun i => by simp [slotOf, zeroDisk_slot hzero i]
  have hp : Placed v.disk := fun i hacc => by simp [zeroDisk_slot hzero i] at hacc
  obtain ⟨hslots, hplaced⟩ := vfsInit_free hp (hempty 0)
  refine ⟨?_, hplaced⟩
  have hnone : SlotMap (slotOf v.disk) (fun _ => none) := by
    constructor
    · intro k c
      simp [hempty]
    · intro i j k c c' hi
      simp [hempty] at hi
  rw [hslots]
  exact hnone.write (Or.inl rfl) (Or.inl (hempty 0))

/-- From the first mount on, the file system refines a finite map. -/
theorem vfs_refines_map (hzero : ∀ lba k, v.disk lba k = 0)
    (hops : ∀ op ∈ ops, op.Admissible) : Conforms stack readmeMap (vfsInit reliable v) ops :=
  (vfsInit_zero hzero).conforms hops

/-- A machine with an all-zero disk. -/
def blankVfs : Vfs := ⟨fun _ => ⟨fun _ => 0, 0, 0, 0⟩, fun _ _ => 0, 0, []⟩

theorem vfs_refines_map_short : Conforms (fun _ => 0) readmeMap (vfsInit reliable blankVfs)
    [.write (asciiBytes "a") (fun k => UInt8.ofNat k) 600, .read (asciiBytes "a") (fun _ => 7) 700,
      .delete readmeName] := by
  refine vfs_refines_map (fun _ _ => rfl) ?_
  simp only [List.forall_mem_cons, VfsOp.Admissible, VfsOp.name]
  exact ⟨⟨⟨by decide, by decide, by decide⟩, by simp⟩, ⟨⟨by decide, by decide, by decide⟩, by simp⟩,
    ⟨readmeName_valid, by simp⟩, by simp⟩

end Runs

section Reboot

/-- Only the disk survives a reboot; the kernel starts with zeroed statics. -/
def Vfs.reboot (v : Vfs) : Vfs := ⟨fun _ => ⟨fun _ => 0, 0, 0, 0⟩, v.disk, 0, []⟩

/-- The name in slot `i`. -/
def slotName (d : Nat → Nat → UInt8) (i : Fin maxFiles) : Option (List UInt8) :=
  (slotOf d i).map Prod.fst

/-- No name is stored twice. -/
def NamesDistinct (d : Nat → Nat → UInt8) : Prop :=
  ∀ i j name, slotName d i = some name → slotName d j = some name → i = j

/-- A reboot brings back the same names, every read returns the same, and no name is there
twice. -/
structure Persists (v : Vfs) : Prop where
  names : ∀ name, (∃ i, slotName (vfsInit reliable v.reboot).disk i = some name) ↔
    ∃ i, slotName v.disk i = some name
  reads : ∀ name buffer maxLen stack,
    (vfsReadFile reliable (vfsInit reliable v.reboot) name buffer maxLen stack).2 =
      (vfsReadFile reliable v name buffer maxLen stack).2
  distinct : NamesDistinct (vfsInit reliable v.reboot).disk

/-- The calls of a run. -/
def vfsRun (stack : Nat → UInt8) (v : Vfs) (ops : List VfsOp) : Vfs :=
  ops.foldl (fun v op => (vfsCall stack v op).1) v

theorem vfsRun_stores (stack : Nat → UInt8) (h : Stores v.disk m)
    (hops : ∀ op ∈ ops, op.Admissible) :
    ∃ m', Stores (vfsRun stack v ops).disk m' := by
  induction ops generalizing v m with
  | nil => exact ⟨m, h⟩
  | cons op ops ih =>
    exact ih (vfsCall_refines stack h (hops op (by simp))).1 fun o ho => hops o (by simp [ho])

theorem slotName_eq_some {i : Fin maxFiles} :
    slotName d i = some name ↔ ∃ c, slotOf d i = some (name, c) := by
  simp [slotName]

theorem Stores.namesDistinct (h : Stores d m) : NamesDistinct d := by
  intro i j name hi hj
  obtain ⟨c, hc⟩ := slotName_eq_some.mp hi
  obtain ⟨c', hc'⟩ := slotName_eq_some.mp hj
  exact h.slots.inj i j name c c' hc hc'

/-- Mounting with a free first slot names the welcome file there and keeps the other names,
whatever the table holds. -/
theorem vfsInit_slotName (h0 : slotOf v.disk 0 = none) :
    slotName (vfsInit reliable v).disk = Function.update (slotName v.disk) 0 (some readmeName) := by
  obtain ⟨v1, f, hsync, hdisk, hsaved, hfits, hacc, hname, -⟩ := vfsInit_saved h0
  rw [← hdisk]
  funext j
  by_cases hj : j = 0
  · subst hj
    rw [Function.update_self]
    simp [slotName, slotOf, InSync.saved_self hsaved hfits, hacc, hname]
  · rw [Function.update_of_ne hj]
    by_cases hu : (v1.table j).used = 0
    · have hfree : (diskFile ((vfsInit reliable v).disk vfsMetadataLba) j).accepted = false := by
        simpa [hu] using (hsync.saved_other hsaved hj).not
      simp [slotName, slotOf, hfree, hsync.free j hu]
    · have hused := hsync.saved_file hsaved hj hu
      obtain ⟨hsame, hacc'⟩ := hsync.used j hu
      simp only [slotName, slotOf, hused, hsame, hacc', if_true, Option.map_some]

/-- Two tables loaded from one sector find a name in the same slot, with the same entry. -/
theorem findName_loadTable (name : List UInt8) (buf : Nat → UInt8) (t t' : FileTable) :
    findName (loadTable buf t) name = findName (loadTable buf t') name ∧
      ∀ i, findName (loadTable buf t) name = some i → loadTable buf t i = loadTable buf t' i := by
  have hentry : ∀ i, (diskFile buf i).accepted = true → loadTable buf t i = loadTable buf t' i :=
    fun i hacc => by simp [loadTable, hacc]
  constructor
  · refine congrArg (fun f => (List.finRange maxFiles).find? f) (funext fun i => ?_)
    by_cases hacc : (diskFile buf i).accepted = true
    · rw [hentry i hacc]
    · simp [loadTable, hacc, VfsFile.cleared]
  · intro i hi
    obtain ⟨hu, -⟩ := findName_eq_some hi
    exact hentry i (loadTable_used (d := fun _ => buf) hu).1

/-- What a read returns depends on the disk, not on the table in memory. -/
theorem vfsReadFile_disk {v' : Vfs} {name : Option (List UInt8)} {buffer : Option (Nat → UInt8)}
    {maxLen : Nat} (hd : v'.disk = v.disk) :
    (vfsReadFile reliable v' name buffer maxLen stack).2 =
      (vfsReadFile reliable v name buffer maxLen stack).2 := by
  cases name with
  | none => cases buffer <;> rfl
  | some name =>
    cases buffer with
    | none => rfl
    | some buffer =>
      obtain ⟨hfind, hsame⟩ :=
        findName_loadTable name (v.disk vfsMetadataLba) v'.table v.table
      have ht : (vfsSyncFromDisk reliable v).table =
          loadTable (v.disk vfsMetadataLba) v.table := by simp
      have ht' : (vfsSyncFromDisk reliable v').table =
          loadTable (v.disk vfsMetadataLba) v'.table := by simp [hd]
      simp only [vfsReadFile, ataReadSector, vfsSyncFromDisk_disk, hd, ht, ht', ← hfind]
      split
      · rfl
      · cases hi : findName (loadTable (v.disk vfsMetadataLba) v'.table) name with
        | none => rfl
        | some i =>
          simp only [hsame i hi, reliable_eq, if_true]
          generalize (if (loadTable (v.disk vfsMetadataLba) v.table i).size > maxLen - 1 then
            maxLen - 1 else (loadTable (v.disk vfsMetadataLba) v.table i).size) = n
          by_cases hbig : n > 512 <;> simp only [hbig, if_true, if_false]

/-- A disk survives a reboot exactly when its first slot is taken and no name is there twice. -/
theorem persists_iff :
    Persists v ↔ slotOf v.disk 0 ≠ none ∧ NamesDistinct v.disk := by
  constructor
  · intro hpers
    have h0 : slotOf v.disk 0 ≠ none := by
      intro h0
      have hslots := vfsInit_slotName (v := v.reboot) h0
      have hreadme : slotName (vfsInit reliable v.reboot).disk 0 = some readmeName := by
        rw [hslots, Function.update_self]
      obtain ⟨j, hj⟩ := (hpers.names readmeName).mp ⟨0, hreadme⟩
      have hj0 : j ≠ 0 := by
        rintro rfl
        simp [slotName, h0] at hj
      have hkept : slotName (vfsInit reliable v.reboot).disk j = some readmeName := by
        rw [hslots, Function.update_of_ne hj0]
        exact hj
      exact hj0 (hpers.distinct j 0 _ hkept hreadme)
    have hdisk : (vfsInit reliable v.reboot).disk = v.disk := vfsInit_used (v := v.reboot) h0
    have hdistinct := hpers.distinct
    rw [hdisk] at hdistinct
    exact ⟨h0, hdistinct⟩
  · rintro ⟨h0, hdistinct⟩
    have hdisk : (vfsInit reliable v.reboot).disk = v.disk := vfsInit_used (v := v.reboot) h0
    refine ⟨fun name => by rw [hdisk], fun name buffer maxLen stack => vfsReadFile_disk hdisk, ?_⟩
    rw [hdisk]
    exact hdistinct

/-- After a mount and any run of calls, the files persist exactly when the first slot is in use
and no name is stored twice; the latter is so if the mount found every name once. -/
theorem vfs_persistence_iff (hops : ∀ op ∈ ops, op.Admissible) :
    (Persists (vfsRun stack (vfsInit reliable v) ops) ↔
      slotOf (vfsRun stack (vfsInit reliable v) ops).disk 0 ≠ none ∧
        NamesDistinct (vfsRun stack (vfsInit reliable v) ops).disk) ∧
    ((∃ m, Stores (vfsInit reliable v).disk m) →
      NamesDistinct (vfsRun stack (vfsInit reliable v) ops).disk) := by
  refine ⟨persists_iff, ?_⟩
  rintro ⟨m, hmount⟩
  obtain ⟨m', hst⟩ := vfsRun_stores stack hmount hops
  exact hst.namesDistinct

/-- A first mount and one more file. -/
theorem vfs_persistence_iff_create :
    Persists (vfsRun (fun _ => 0) (vfsInit reliable blankVfs) [.create (asciiBytes "a")]) := by
  have hops : ∀ op ∈ [VfsOp.create (asciiBytes "a")], op.Admissible := by
    simp only [List.forall_mem_cons, VfsOp.Admissible, VfsOp.name]
    exact ⟨⟨⟨by decide, by decide, by decide⟩, by simp⟩, by simp⟩
  obtain ⟨hiff, hdistinct⟩ := @vfs_persistence_iff blankVfs (fun _ => 0) _ hops
  exact hiff.mpr ⟨by decide +kernel, hdistinct ⟨_, vfsInit_zero fun _ _ => rfl⟩⟩

/-- A file is created, the welcome file deleted, and the reboot brings the welcome file back. -/
theorem vfs_persistence_fails : ¬ ∀ (v : Vfs) (stack : Nat → UInt8) (ops : List VfsOp),
    (∀ lba k, v.disk lba k = 0) → (∀ op ∈ ops, op.Admissible) →
    (∃ i, slotName (vfsRun stack (vfsInit reliable v) ops).disk i ≠ none) →
    Persists (vfsRun stack (vfsInit reliable v) ops) := by
  intro hall
  have hpers := hall blankVfs (fun _ => 0) [.create (asciiBytes "a"), .delete readmeName]
    (fun _ _ => rfl) (by
      simp only [List.forall_mem_cons, VfsOp.Admissible, VfsOp.name]
      exact ⟨⟨⟨by decide, by decide, by decide⟩, by simp⟩, ⟨readmeName_valid, by simp⟩, by simp⟩)
    ⟨1, by decide +kernel⟩
  have hslot := (persists_iff.mp hpers).1
  have hfree : slotOf (vfsRun (fun _ => 0) (vfsInit reliable blankVfs)
      [.create (asciiBytes "a"), .delete readmeName]).disk 0 = none := by decide +kernel
  exact hslot hfree

end Reboot

end HumanOS

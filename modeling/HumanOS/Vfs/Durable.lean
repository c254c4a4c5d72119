import HumanOS.Vfs.Faults

/-!
# Success and the disk

With disk calls failing in any pattern before, a call that returns success has changed the disk as
it says if the disk calls it depends on succeed; none of their results is looked at.
-/
namespace HumanOS

open Lib

variable {ok : Nat → Bool} {v w : Vfs} {i : Fin maxFiles} {name : List UInt8} {n len maxLen : Nat}
variable {stack content buffer buf : Nat → UInt8} {ops : List FaultOp}

section Reachable

/-- With no names to keep, what is left is that entries use the sectors of their slot. -/
theorem faultRun_placed (h : Placed v.disk) :
    Placed (faultRun ok stack v (.init :: ops)).disk := by
  have hdisk : DiskKeeps (fun _ => none) v := ⟨by simp, h⟩
  have hfree : ∀ i, KeepsEntry (fun _ => none) i none := fun i => ⟨by simp, by simp⟩
  have hmount : EntriesHold (KeepsEntry fun _ => none) (vfsInit ok v) :=
    .mount keepsEntry_rule (diskKeeps_iff.mp hdisk) (Or.inr hfree)
  have hrun : EntriesHold (KeepsEntry fun _ => none) (faultRun ok stack (vfsInit ok v) ops) :=
    hmount.run keepsEntry_rule hfree
  exact (diskKeeps_iff.mpr hrun.disk).placed

end Reachable

section Calls

/-- A file in slot `i` of the disk: its name and its bytes. -/
structure OnDisk (d : Nat → Nat → UInt8) (i : Fin maxFiles) (name bytes : List UInt8) : Prop where
  accepted : (diskFile (d vfsMetadataLba) i).accepted = true
  name : (diskFile (d vfsMetadataLba) i).nameString = name
  bytes : fileContent d (diskFile (d vfsMetadataLba) i) = bytes

theorem slotName_file (hacc : (diskFile (v.disk vfsMetadataLba) i).accepted = true) :
    slotName v.disk i = some (diskFile (v.disk vfsMetadataLba) i).nameString := by
  simp [slotName, slotOf, hacc]

/-- `vfs_create_file` after a load: a new name is on the disk exactly if the save succeeds and
the name fits. -/
theorem vfsCreate_durable_iff (hload : Loads ok v) (hne : name ≠ []) (hnul : 0 ∉ name)
    (hc : vfsCreate ok v (some name) = (w, some i)) :
    slotName w.disk i = some name ↔ findName (vfsSyncFromDisk ok v).table name ≠ none ∨
      ok (v.calls + 1) = true ∧ name.length < maxFilename := by
  have hsync := hload.inSync
  rcases vfsCreate_cases ok v hne with ⟨j, hfind, heq⟩ | ⟨j, hfind, hfree, heq⟩ | ⟨-, -, heq⟩
  · obtain ⟨rfl, hj⟩ := Prod.mk.inj (heq.symm.trans hc)
    obtain rfl := Option.some.inj hj
    obtain ⟨hu, hname⟩ := findName_eq_some hfind
    refine iff_of_true ?_ (Or.inl (by rw [hfind]; simp))
    rw [slotName, hsync.slot_used hu, Option.map_some, hname]
  · obtain ⟨rfl, hj⟩ := Prod.mk.inj (heq.symm.trans hc)
    obtain rfl := Option.some.inj hj
    obtain ⟨hfits, hacc, hname⟩ := newEntry_sound (i := j) (t := (vfsSyncFromDisk ok v).table) hnul
    set f := newEntry (vfsSyncFromDisk ok v).table j name
    have hcalls : ((vfsSyncFromDisk ok v).setEntry j f).calls = v.calls + 1 := vfsSyncFromDisk_calls
    by_cases hok : ok (v.calls + 1) = true
    · have hsaved : InSync.Saved (vfsSyncFromDisk ok v) j f
          (vfsSyncToDisk ok ((vfsSyncFromDisk ok v).setEntry j f)) :=
        saved_sync (by rw [hcalls, hok]) rfl rfl
      have hfile := InSync.saved_self hsaved hfits
      rw [slotName_file (by rw [hfile, hacc]), hfile, hname]
      have hlen : name.take (maxFilename - 1) = name ↔ name.length < maxFilename := by
        rw [List.take_eq_self_iff]
        simp only [maxFilename]
        omega
      rw [Option.some.injEq, hlen, hfind]
      simp [hok]
    · have hdisk : (vfsSyncToDisk ok ((vfsSyncFromDisk ok v).setEntry j f)).disk =
          (vfsSyncFromDisk ok v).disk := by simp [hok]
      rw [hdisk, slotName, hsync.slot_free (findFree_eq_some hfree), hfind]
      simp [hok]
  · exact absurd (Prod.mk.inj (heq.symm.trans hc)).2 (by simp)

/-- `vfs_delete_file` after a load: the entry is gone from the disk exactly if the save
succeeds. -/
theorem vfsDelete_durable_iff (hload : Loads ok v) (hp : Placed v.disk) (hne : name ≠ [])
    (hc : vfsDeleteFile ok v (some name) = (w, 0)) :
    (∃ i, slotName v.disk i = some name ∧
      slotName w.disk = Function.update (slotName v.disk) i none) ↔ ok (v.calls + 1) = true := by
  have hsync := hload.inSync
  have hdisk : (vfsSyncFromDisk ok v).disk = v.disk := vfsSyncFromDisk_disk
  obtain ⟨a, l, rfl⟩ := List.exists_cons_of_ne_nil hne
  simp only [vfsDeleteFile] at hc
  cases hfind : findName (vfsSyncFromDisk ok v).table (a :: l) with
  | none =>
    rw [hfind] at hc
    simp at hc
  | some i =>
    simp only [hfind, Prod.mk.injEq] at hc
    obtain ⟨rfl, -⟩ := hc
    obtain ⟨hu, hname⟩ := findName_eq_some hfind
    set f := ((vfsSyncFromDisk ok v).table i).cleared
    have hslot : slotName v.disk i = some (a :: l) := by
      rw [← hdisk, slotName, hsync.slot_used hu, Option.map_some, hname]
    have hcalls : ((vfsSyncFromDisk ok v).setEntry i f).calls = v.calls + 1 := vfsSyncFromDisk_calls
    by_cases hok : ok (v.calls + 1) = true
    · refine iff_of_true ⟨i, hslot, ?_⟩ hok
      have hsaved : InSync.Saved (vfsSyncFromDisk ok v) i f
          (vfsSyncToDisk ok ((vfsSyncFromDisk ok v).setEntry i f)) :=
        saved_sync (by rw [hcalls, hok]) rfl rfl
      have hfits : f.Fits :=
        ⟨by simp [f, VfsFile.cleared], (hsync.fits hu).startLba, by simp [f, VfsFile.cleared]⟩
      have hslots := hsync.saved_slot (hdisk ▸ hp) hsaved hfits
      rw [show f.accepted = false by simp [f, VfsFile.accepted, VfsFile.cleared], hdisk] at hslots
      funext j
      rw [slotName, hslots]
      by_cases hj : j = i
      · subst hj
        simp
      · simp [hj, slotName]
    · refine iff_of_false ?_ hok
      rintro ⟨k, hk, hkeep⟩
      have hsame : (vfsSyncToDisk ok ((vfsSyncFromDisk ok v).setEntry i f)).disk = v.disk := by
        simp [hok]
      rw [hsame] at hkeep
      have hat := congrFun hkeep k
      rw [Function.update_self, hk] at hat
      simp at hat

/-- `vfs_write_file` with the disk calls it depends on. -/
theorem vfsWrite_durable (hr : WriteReaches ok v name (min len maxFileSize)) (hp : Placed v.disk)
    (hne : name ≠ []) (hnul : 0 ∉ name)
    (hw : vfsWriteFile ok v (some name) content len = (w, (n : Int))) :
    ∃ i, OnDisk w.disk i name ((List.range n).map content) ∧
      (diskFile (w.disk vfsMetadataLba) i).size = n := by
  have hcode : (if len > maxFileSize then maxFileSize else len) = min len maxFileSize := by
    split <;> omega
  rcases hc : vfsCreate ok v (some name) with ⟨v1, _ | i⟩
  · simp only [vfsWriteFile, hc, Prod.mk.injEq] at hw
    omega
  · obtain ⟨f, hsaved, hfits, hacc, -, hname, hsize, hcontent⟩ :=
      vfsWriteFile_saved content len hr hp hne hnul hc
    have hn : n = min len maxFileSize := by
      simp only [vfsWriteFile, hc, hcode, Prod.mk.injEq, Nat.cast_inj] at hw
      exact hw.2.symm
    rw [hw] at hsaved hcontent
    have hfile := InSync.saved_self hsaved hfits
    refine ⟨i, ⟨by rw [hfile, hacc], by rw [hfile, hname], ?_⟩, by rw [hfile, hsize, hn]⟩
    rw [hfile, hcontent, hn]

/-- The disk calls `vfs_read_file` depends on: the load, and the data sectors it copies from. -/
structure ReadReaches (ok : Nat → Bool) (v : Vfs) (name : List UInt8) (maxLen : Nat) : Prop where
  loads : Loads ok v
  first : ∀ i, findName (vfsSyncFromDisk ok v).table name = some i →
    0 < min ((vfsSyncFromDisk ok v).table i).size (maxLen - 1) → ok (v.calls + 1) = true
  second : ∀ i, findName (vfsSyncFromDisk ok v).table name = some i →
    512 < min ((vfsSyncFromDisk ok v).table i).size (maxLen - 1) → ok (v.calls + 2) = true

/-- `vfs_read_file` with the disk calls it depends on. -/
theorem vfsRead_durable (hr : ReadReaches ok v name maxLen) (hp : Placed v.disk)
    (hread : vfsReadFile ok v (some name) (some buffer) maxLen stack = (w, some buf, (n : Int))) :
    ∃ i bytes, OnDisk w.disk i name bytes ∧ n = min bytes.length (maxLen - 1) ∧
      ∀ k < n, buf k = bytes.getD k 0 := by
  have hsync := hr.loads.inSync
  have hdisk : (vfsSyncFromDisk ok v).disk = v.disk := vfsSyncFromDisk_disk
  have hwdisk := (vfsReadFile_state ok v (some name) (some buffer) maxLen stack).2
  rw [hread] at hwdisk
  by_cases hmax : maxLen = 0
  · simp [vfsReadFile, hmax] at hread
  · cases hfind : findName (vfsSyncFromDisk ok v).table name with
    | none =>
      simp only [vfsReadFile, hmax, if_false, hfind, Prod.mk.injEq] at hread
      omega
    | some i =>
      have hfound := vfsReadFile_found stack buffer hmax hp hsync hfind
        (hr.first i hfind) (hr.second i hfind)
      rw [hread, Prod.mk.injEq, Option.some.injEq, Nat.cast_inj] at hfound
      obtain ⟨rfl, hn⟩ := hfound
      obtain ⟨hu, hname⟩ := findName_eq_some hfind
      obtain ⟨hfile, hacc⟩ := hsync.used i hu
      rw [hdisk] at hfile
      refine ⟨i, _, ⟨?_, ?_, rfl⟩, ?_, fun k hk => ?_⟩ <;> rw [hwdisk, hfile]
      · exact hacc
      · exact hname
      · rw [hn]
        simp [fileContent]
      · rw [readInto, if_pos (by omega)]

end Calls

/-- What success says about the disk, call by call. -/
structure SuccessDurable (ok : Nat → Bool) (v : Vfs) : Prop where
  create : ∀ name i w, name ≠ [] → 0 ∉ name → Loads ok v →
    vfsCreateFile ok v (some name) = (w, indexCode (some i)) →
    (slotName w.disk i = some name ↔ findName (vfsSyncFromDisk ok v).table name ≠ none ∨
      ok (v.calls + 1) = true ∧ name.length < maxFilename)
  delete : ∀ name w, name ≠ [] → Loads ok v → vfsDeleteFile ok v (some name) = (w, 0) →
    ((∃ i, slotName v.disk i = some name ∧
      slotName w.disk = Function.update (slotName v.disk) i none) ↔ ok (v.calls + 1) = true)
  write : ∀ name content len w (n : Nat), name ≠ [] → 0 ∉ name →
    WriteReaches ok v name (min len maxFileSize) →
    vfsWriteFile ok v (some name) content len = (w, (n : Int)) →
    ∃ i, OnDisk w.disk i name ((List.range n).map content) ∧
      (diskFile (w.disk vfsMetadataLba) i).size = n
  read : ∀ name buffer maxLen stack w buf (n : Nat), ReadReaches ok v name maxLen →
    vfsReadFile ok v (some name) (some buffer) maxLen stack = (w, some buf, (n : Int)) →
    ∃ i bytes, OnDisk w.disk i name bytes ∧ n = min bytes.length (maxLen - 1) ∧
      ∀ k < n, buf k = bytes.getD k 0

/-- In every state reached from a mount, with any pattern of failing disk calls, success is durable
if the disk calls it depends on succeed, and for new names and deletions only then. -/
theorem success_durable_when_reached (hp : Placed v.disk) :
    SuccessDurable ok (faultRun ok stack v (.init :: ops)) := by
  have hplaced : Placed (faultRun ok stack v (.init :: ops)).disk := faultRun_placed hp
  exact ⟨fun name i w hne hnul hload hc =>
      vfsCreate_durable_iff hload hne hnul (vfsCreateFile_eq hc),
    fun name w hne hload hc => vfsDelete_durable_iff hload hplaced hne hc,
    fun name content len w n hne hnul hr hw => vfsWrite_durable hr hplaced hne hnul hw,
    fun name buffer maxLen stack w buf n hr hread => vfsRead_durable hr hplaced hread⟩

/-- The mount finds no disk, the disk comes back, and a write gets through. -/
theorem success_durable_when_reached_late :
    ∃ i w, vfsWriteFile (fun k => 3 ≤ k) (faultRun (fun k => 3 ≤ k) (fun _ => 0) blankVfs [.init])
        (some (asciiBytes "a")) (fun k => UInt8.ofNat k) 600 = (w, 600) ∧
      OnDisk w.disk i (asciiBytes "a") ((List.range 600).map fun k => UInt8.ofNat k) := by
  have hp : Placed blankVfs.disk := fun i hacc => by
    simp [zeroDisk_slot (d := blankVfs.disk) (fun _ _ => rfl) i] at hacc
  have hw : vfsWriteFile (fun k => 3 ≤ k) (faultRun (fun k => 3 ≤ k) (fun _ => 0) blankVfs [.init])
      (some (asciiBytes "a")) (fun k => UInt8.ofNat k) 600 = (_, ((600 : Nat) : Int)) :=
    Prod.ext rfl (by decide +kernel)
  obtain ⟨i, hfile, -⟩ := (success_durable_when_reached hp).write _ _ _ _ _ (by decide) (by decide)
    ⟨Or.inl (by decide +kernel), by decide, fun _ => by decide +kernel, fun _ => by decide +kernel,
      by decide +kernel⟩ hw
  exact ⟨i, _, hw, hfile⟩

/-- With no disk at all a file is created and the disk stays empty. -/
theorem success_not_durable :
    ¬ ∀ (ok : Nat → Bool) (name : List UInt8) (i : Fin maxFiles) (w : Vfs), name ≠ [] → 0 ∉ name →
      vfsCreateFile ok (faultRun ok (fun _ => 0) blankVfs [.init]) (some name) =
        (w, indexCode (some i)) → slotName w.disk i = some name := by
  intro hall
  have hc : vfsCreateFile (fun _ => false) (faultRun (fun _ => false) (fun _ => 0) blankVfs [.init])
      (some (asciiBytes "a")) = (_, indexCode (some 1)) := Prod.ext rfl (by decide +kernel)
  have hslot := hall _ _ 1 _ (by decide) (by decide) hc
  revert hslot
  decide +kernel

end HumanOS

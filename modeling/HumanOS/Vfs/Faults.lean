import HumanOS.Vfs.Entries

/-!
# Disk errors

With disk calls failing in any pattern, the table in memory and the metadata sector both keep
every file entry, as long as no mount fails to read the sector: a mount that does starts from
an empty table and saves it.
-/
namespace HumanOS

open Lib

variable {ok : Nat → Bool} {v v' : Vfs} {i : Fin maxFiles} {f : VfsFile}
variable {K : Fin maxFiles → Option (Fin maxFilename → UInt8)} {stack : Nat → UInt8}

/-- A call of the file system, with any arguments. -/
inductive FaultOp where
  | init
  | create (name : Option (List UInt8))
  | write (name : Option (List UInt8)) (content : Nat → UInt8) (len : Nat)
  | read (name : Option (List UInt8)) (buffer : Option (Nat → UInt8)) (maxLen : Nat)
  | list
  | sync
  | delete (name : Option (List UInt8))

def faultCall (ok : Nat → Bool) (stack : Nat → UInt8) (v : Vfs) : FaultOp → Vfs
  | .init => vfsInit ok v
  | .create name => (vfsCreateFile ok v name).1
  | .write name content len => (vfsWriteFile ok v name content len).1
  | .read name buffer maxLen => (vfsReadFile ok v name buffer maxLen stack).1
  | .list => vfsListFiles ok v
  | .sync => vfsSync ok v
  | .delete name => (vfsDeleteFile ok v name).1

def faultRun (ok : Nat → Bool) (stack : Nat → UInt8) (v : Vfs) (ops : List FaultOp) : Vfs :=
  ops.foldl (faultCall ok stack) v

/-- Every mount of the run reads the metadata sector successfully. -/
def MountsRead (ok : Nat → Bool) (stack : Nat → UInt8) : Vfs → List FaultOp → Prop
  | _, [] => True
  | v, op :: ops =>
    (op = .init → ok v.calls = true) ∧ MountsRead ok stack (faultCall ok stack v op) ops

/-- The string of a name field, read from that field alone. -/
def fieldString (name : Fin maxFilename → UInt8) : List UInt8 :=
  VfsFile.nameString ⟨name, 0, 0, 0⟩

/-- The names to keep, slot by slot, are in the metadata sector. -/
structure DiskKeeps (K : Fin maxFiles → Option (Fin maxFilename → UInt8)) (v : Vfs) : Prop where
  kept : ∀ i name, K i = some name →
    (diskFile (v.disk vfsMetadataLba) i).accepted = true ∧
      (diskFile (v.disk vfsMetadataLba) i).name = name
  placed : Placed v.disk

/-- They are in the table in memory as well, and its used entries are sound. -/
structure TableKeeps (K : Fin maxFiles → Option (Fin maxFilename → UInt8)) (v : Vfs) : Prop where
  kept : ∀ i name, K i = some name → (v.table i).used ≠ 0 ∧ (v.table i).name = name
  sound : ∀ i, (v.table i).used ≠ 0 →
    (v.table i).accepted = true ∧ (v.table i).startLba = vfsDataStartLba + i * 2

structure Keeps (K : Fin maxFiles → Option (Fin maxFilename → UInt8)) (v : Vfs) : Prop where
  disk : DiskKeeps K v
  table : TableKeeps K v

/-- What the names to keep ask of a slot. -/
def KeepsEntry (K : Fin maxFiles → Option (Fin maxFilename → UInt8)) (i : Fin maxFiles)
    (slot : Option VfsFile) : Prop :=
  (∀ name, K i = some name → ∃ f, slot = some f ∧ f.name = name) ∧
    ∀ f, slot = some f → f.accepted = true ∧ f.startLba = vfsDataStartLba + i * 2

theorem keepsEntry_rule : EntryRule (KeepsEntry K) where
  sound := fun h => h.2 _ rfl
  fill := by
    intro i dest src size h hsize
    refine ⟨fun name hK => ?_, fun f hf => ?_⟩
    · obtain ⟨f, hf, -⟩ := h.1 name hK
      simp at hf
    · obtain rfl := Option.some.inj hf
      exact ⟨accepted_iff.mpr ⟨rfl, hsize⟩, rfl⟩
  resize := by
    intro i f size h hsize
    obtain ⟨hacc, hlba⟩ := h.2 f rfl
    refine ⟨fun name hK => ?_, fun g hg => ?_⟩
    · obtain ⟨g, hg, hname⟩ := h.1 name hK
      obtain rfl := Option.some.inj hg
      exact ⟨_, rfl, hname⟩
    · obtain rfl := Option.some.inj hg
      exact ⟨accepted_iff.mpr ⟨(accepted_iff.mp hacc).1, hsize⟩, hlba⟩

theorem diskKeeps_iff :
    DiskKeeps K v ↔ ∀ i, KeepsEntry K i (diskFile (v.disk vfsMetadataLba) i).loaded := by
  constructor
  · refine fun h i => ⟨fun name hK => ?_, fun f hf => ?_⟩
    · obtain ⟨hacc, hname⟩ := h.kept i name hK
      exact ⟨_, loaded_eq_some_iff.mpr ⟨hacc, rfl⟩, hname⟩
    · obtain ⟨hacc, rfl⟩ := loaded_eq_some_iff.mp hf
      exact ⟨hacc, h.placed i hacc⟩
  · refine fun h => ⟨fun i name hK => ?_, fun i hacc => ?_⟩
    · obtain ⟨f, hf, hname⟩ := (h i).1 name hK
      obtain ⟨hacc, rfl⟩ := loaded_eq_some_iff.mp hf
      exact ⟨hacc, hname⟩
    · exact ((h i).2 _ (loaded_eq_some_iff.mpr ⟨hacc, rfl⟩)).2

theorem tableKeeps_iff : TableKeeps K v ↔ ∀ i, KeepsEntry K i (v.table i).inUse := by
  constructor
  · refine fun h i => ⟨fun name hK => ?_, fun f hf => ?_⟩
    · obtain ⟨hu, hname⟩ := h.kept i name hK
      exact ⟨_, inUse_eq_some hu, hname⟩
    · obtain ⟨hu, rfl⟩ := inUse_eq_some_iff.mp hf
      exact h.sound i hu
  · refine fun h => ⟨fun i name hK => ?_, fun i hu => ?_⟩
    · obtain ⟨f, hf, hname⟩ := (h i).1 name hK
      obtain ⟨hu, rfl⟩ := inUse_eq_some_iff.mp hf
      exact ⟨hu, hname⟩
    · exact (h i).2 _ (inUse_eq_some hu)

theorem keeps_iff : Keeps K v ↔ EntriesHold (KeepsEntry K) v :=
  ⟨fun h => ⟨diskKeeps_iff.mp h.disk, tableKeeps_iff.mp h.table⟩,
    fun h => ⟨diskKeeps_iff.mpr h.disk, tableKeeps_iff.mpr h.table⟩⟩

/-- A table in step with the disk holds the names the disk holds. -/
theorem DiskKeeps.inSync (h : DiskKeeps K v) (hsync : InSync v) : Keeps K v := by
  refine keeps_iff.mpr ⟨diskKeeps_iff.mp h, fun i => ?_⟩
  rw [hsync.inUse_eq]
  exact diskKeeps_iff.mp h i

/-- A mount that reads the metadata sector, whatever the table in memory was. -/
theorem DiskKeeps.init (h : DiskKeeps K v) (hok : ok v.calls = true) : Keeps K (vfsInit ok v) :=
  keeps_iff.mpr (.mount keepsEntry_rule (diskKeeps_iff.mp h) (Or.inl hok))

section Run

variable {ops : List FaultOp} {op : FaultOp} {Q : Fin maxFiles → Option VfsFile → Prop}

/-- A call, if the rule lets go of what a failing mount or a deletion loses. -/
theorem EntriesHold.call (hQ : EntryRule Q) (h : EntriesHold Q v)
    (hmount : op = .init → ok v.calls = true ∨ ∀ i, Q i none)
    (hdelete : ∀ name, op = .delete name → ∀ i f, Q i (some f) → name = some f.nameString →
      Q i none) : EntriesHold Q (faultCall ok stack v op) := by
  cases op with
  | init => exact .mount hQ h.disk (hmount rfl)
  | create name =>
    simp only [faultCall, vfsCreateFile]
    exact (h.create hQ _ _).1
  | write name content len => exact h.write hQ
  | read name buffer maxLen => exact h.read
  | list => exact h.list
  | sync => exact h.save hQ
  | delete name => exact h.delete hQ (hdelete name rfl)

/-- A run, if any slot may become free. -/
theorem EntriesHold.run (hQ : EntryRule Q) (hfree : ∀ i, Q i none) (h : EntriesHold Q v) :
    EntriesHold Q (faultRun ok stack v ops) := by
  induction ops generalizing v with
  | nil => exact h
  | cons op ops ih => exact ih (h.call hQ (fun _ => Or.inr hfree) fun _ _ i _ _ _ => hfree i)

/-- The call does not delete a name to keep. -/
def FaultOp.Spares (K : Fin maxFiles → Option (Fin maxFilename → UInt8)) (op : FaultOp) : Prop :=
  ∀ i field, K i = some field → op ≠ .delete (some (fieldString field))

theorem Keeps.call (h : Keeps K v)
    (hterm : ∀ i field, K i = some field → (fieldString field).length < maxFilename)
    (hspare : op.Spares K) (hread : op = .init → ok v.calls = true) :
    Keeps K (faultCall ok stack v op) := by
  refine keeps_iff.mpr ((keeps_iff.mp h).call keepsEntry_rule (fun hop => Or.inl (hread hop)) ?_)
  rintro name rfl i f hf hname
  refine ⟨fun field hK => ?_, by simp⟩
  obtain ⟨g, hg, hfield⟩ := hf.1 field hK
  obtain rfl := Option.some.inj hg
  have hsame : f.nameString = fieldString field := nameString_congr hfield (hterm i field hK)
  exact (hspare i field hK (by rw [hname, hsame])).elim

theorem Keeps.run (h : Keeps K v)
    (hterm : ∀ i field, K i = some field → (fieldString field).length < maxFilename)
    (hspare : ∀ op ∈ ops, op.Spares K) (hread : MountsRead ok stack v ops) :
    Keeps K (faultRun ok stack v ops) := by
  induction ops generalizing v with
  | nil => exact h
  | cons op ops ih =>
    exact ih (h.call hterm (hspare op (by simp)) hread.1) (fun o ho => hspare o (by simp [ho]))
      hread.2

/-- A run from a mounted state, or one that starts with a mount. -/
theorem DiskKeeps.run (h : DiskKeeps K v) (hstart : InSync v ∨ ∃ rest, ops = .init :: rest)
    (hterm : ∀ i field, K i = some field → (fieldString field).length < maxFilename)
    (hspare : ∀ op ∈ ops, op.Spares K) (hread : MountsRead ok stack v ops) :
    Keeps K (faultRun ok stack v ops) := by
  rcases hstart with hsync | ⟨rest, rfl⟩
  · exact (h.inSync hsync).run hterm hspare hread
  · change Keeps K (faultRun ok stack (vfsInit ok v) rest)
    exact (h.init (hread.1 rfl)).run hterm (fun op hop => hspare op (by simp [hop])) hread.2

/-- One slot's name to keep, and no other. -/
def keepSlot (i : Fin maxFiles) (field : Fin maxFilename → UInt8) :
    Fin maxFiles → Option (Fin maxFilename → UInt8) :=
  Function.update (fun _ => none) i (some field)

theorem keepSlot_eq_some {field field' : Fin maxFilename → UInt8} {j : Fin maxFiles} :
    keepSlot i field j = some field' ↔ j = i ∧ field = field' := by
  by_cases hji : j = i
  · subst hji
    simp [keepSlot]
  · simp [keepSlot, hji]

/-- A metadata sector whose file entries are sound: the size in bounds, the slot's own sectors
and a name that ends in its field. -/
def ValidTable (d : Nat → Nat → UInt8) : Prop :=
  ∀ i, (diskFile (d vfsMetadataLba) i).used = 0 ∨ ((diskFile (d vfsMetadataLba) i).used = 1 ∧
    (diskFile (d vfsMetadataLba) i).size ≤ maxFileSize ∧
    (diskFile (d vfsMetadataLba) i).startLba = vfsDataStartLba + i * 2 ∧
    (diskFile (d vfsMetadataLba) i).nameString.length < maxFilename)

theorem ValidTable.placed (h : ValidTable v.disk) : Placed v.disk := by
  intro i hacc
  rcases h i with hz | ⟨-, -, hlba, -⟩
  · simp [VfsFile.accepted, hz] at hacc
  · exact hlba

/-- The entry of slot `i` is still there, with its name and its first sector. -/
structure EntryKept (v v' : Vfs) (i : Fin maxFiles) : Prop where
  used : (diskFile (v'.disk vfsMetadataLba) i).used = 1
  name : (diskFile (v'.disk vfsMetadataLba) i).name = (diskFile (v.disk vfsMetadataLba) i).name
  startLba : (diskFile (v'.disk vfsMetadataLba) i).startLba =
    (diskFile (v.disk vfsMetadataLba) i).startLba

/-- From a mounted state, or starting with a mount, and with every mount reading the sector, no
pattern of failing disk calls loses a file entry that the run does not delete. -/
theorem no_file_lost (hvalid : ValidTable v.disk)
    (hstart : InSync v ∨ ∃ rest, ops = .init :: rest) (hread : MountsRead ok stack v ops)
    (hused : (diskFile (v.disk vfsMetadataLba) i).used = 1)
    (hspare : ∀ op ∈ ops, op ≠ .delete (some (diskFile (v.disk vfsMetadataLba) i).nameString)) :
    EntryKept v (faultRun ok stack v ops) i := by
  set f := diskFile (v.disk vfsMetadataLba) i with hf
  obtain ⟨-, hsize, hlba, hlen⟩ : f.used = 1 ∧ f.size ≤ maxFileSize ∧
      f.startLba = vfsDataStartLba + i * 2 ∧ f.nameString.length < maxFilename :=
    (hvalid i).resolve_left (by rw [← hf]; omega)
  have hstring : fieldString f.name = f.nameString := nameString_congr rfl hlen
  -- Of the whole table only this slot is tracked; the others have to be sound, so that no data
  -- sector written for them is the metadata sector.
  have hdisk : DiskKeeps (keepSlot i f.name) v := by
    refine ⟨fun j field hj => ?_, hvalid.placed⟩
    obtain ⟨rfl, rfl⟩ := keepSlot_eq_some.mp hj
    exact ⟨accepted_iff.mpr ⟨hused, hsize⟩, rfl⟩
  have hend : Keeps (keepSlot i f.name) (faultRun ok stack v ops) := by
    refine hdisk.run hstart (fun j field hj => ?_) (fun op hop j field hj => ?_) hread
    · obtain ⟨rfl, rfl⟩ := keepSlot_eq_some.mp hj
      rw [hstring]
      exact hlen
    · obtain ⟨rfl, rfl⟩ := keepSlot_eq_some.mp hj
      rw [hstring]
      exact hspare op hop
  obtain ⟨hkept, hname⟩ := hend.disk.kept i f.name (keepSlot_eq_some.mpr ⟨rfl, rfl⟩)
  exact ⟨(accepted_iff.mp hkept).1, hname, (hend.disk.placed i hkept).trans hlba.symm⟩

/-- A disk with the welcome file and one more, after a reboot. -/
def twoFiles : Vfs :=
  (vfsRun (fun _ => 0) (vfsInit reliable blankVfs) [.create (asciiBytes "a")]).reboot

theorem twoFiles_valid : ValidTable twoFiles.disk := by
  unfold ValidTable
  decide +kernel

/-- The mount reads the sector and every later call fails. -/
theorem no_file_lost_one_read : EntryKept twoFiles (faultRun (fun n => n = 0) (fun _ => 0) twoFiles
    [.init, .write (some (asciiBytes "b")) (fun _ => 7) 600, .sync]) 1 := by
  refine no_file_lost twoFiles_valid (Or.inr ⟨_, rfl⟩) ⟨fun _ => rfl, by simp, by simp, trivial⟩
    (by decide +kernel) (by simp)

/-- The mount fails to read the sector and every later call succeeds: the second file is gone. -/
theorem file_lost_by_failed_mount :
    ¬ ∀ (ok : Nat → Bool) (stack : Nat → UInt8) (v : Vfs) (ops : List FaultOp) (i : Fin maxFiles),
      ValidTable v.disk → (∃ rest, ops = .init :: rest) →
      (diskFile (v.disk vfsMetadataLba) i).used = 1 →
      (∀ op ∈ ops, op ≠ .delete (some (diskFile (v.disk vfsMetadataLba) i).nameString)) →
      EntryKept v (faultRun ok stack v ops) i := by
  intro hall
  have hkept := (hall (fun n => n ≠ 0) (fun _ => 0) twoFiles [.init] 1 twoFiles_valid ⟨[], rfl⟩
    (by decide +kernel) (by simp)).used
  have hlost : (diskFile ((faultRun (fun n => n ≠ 0) (fun _ => 0) twoFiles [.init]).disk
      vfsMetadataLba) 1).used = 0 := by decide +kernel
  omega

end Run

end HumanOS

import HumanOS.Vfs.Faults

/-!
# Names identify files

On a reliable disk no two entries in use hold one name, and a name just created is found again,
as long as names fit their field: `strcpy_impl` cuts a name that `strcmp_impl` then compares as
a whole.
-/
namespace HumanOS

open Lib

variable {v w : Vfs} {d : Nat → Nat → UInt8} {t : FileTable} {i j : Fin maxFiles} {f : VfsFile}
variable {name : List UInt8} {stack : Nat → UInt8} {op : FaultOp} {ops : List FaultOp}
variable {m : FileMap}

/-- Entries in their place, no name twice, every name shorter than its field. -/
structure TidyDisk (d : Nat → Nat → UInt8) : Prop where
  placed : Placed d
  distinct : NamesDistinct d
  short : ∀ i name, slotName d i = some name → name.length < maxFilename

theorem TidyDisk.stores (h : TidyDisk d) : ∃ m, Stores d m := by
  obtain ⟨m, hm⟩ : ∃ m : FileMap, SlotMap (slotOf d) m := SlotMap.of_inj fun i j k c c' hi hj =>
    h.distinct i j k (slotName_eq_some.mpr ⟨c, hi⟩) (slotName_eq_some.mpr ⟨c', hj⟩)
  exact ⟨m, hm, h.placed⟩

/-- The keys of a map that a tidy disk stores are short, and the other way round. -/
theorem Stores.tidy (h : Stores d m) (hshort : ∀ k, m k ≠ none → k.length < maxFilename) :
    TidyDisk d := by
  refine ⟨h.placed, h.namesDistinct, fun i name hi => hshort name ?_⟩
  obtain ⟨c, hc⟩ := slotName_eq_some.mp hi
  simp [h.slots.get hc]

theorem TidyDisk.key_short (h : TidyDisk d) (hst : Stores d m) (k : List UInt8)
    (hk : m k ≠ none) : k.length < maxFilename := by
  obtain ⟨c, hc⟩ := Option.ne_none_iff_exists'.mp hk
  obtain ⟨i, hi⟩ := (hst.slots.iff k c).mp hc
  exact h.short i k (slotName_eq_some.mpr ⟨c, hi⟩)

theorem InSync.congr (h : InSync v) (ht : w.table = v.table) (hd : w.disk = v.disk) : InSync w := by
  constructor
  · rw [ht, hd]
    exact h.used
  · rw [ht, hd]
    exact h.free

theorem InSync.slotName_used (h : InSync v) (hu : (v.table i).used ≠ 0) :
    slotName v.disk i = some (v.table i).nameString := by
  rw [slotName, h.slot_used hu, Option.map_some]

theorem InSync.slotName_free (h : InSync v) (hu : (v.table i).used = 0) :
    slotName v.disk i = none := by
  rw [slotName, h.slot_free hu, Option.map_none]

/-- The names on the disk are those in the table. -/
theorem InSync.slotName_congr (h : InSync v) (h' : InSync w) (ht : w.table = v.table) :
    slotName w.disk = slotName v.disk := by
  funext i
  by_cases hu : (v.table i).used = 0
  · rw [h.slotName_free hu, h'.slotName_free (by rw [ht, hu])]
  · rw [h.slotName_used hu, h'.slotName_used (by rwa [ht]), ht]

theorem InSync.save (h : InSync v) : InSync (vfsSyncToDisk reliable v) := by
  have hsector : (vfsSyncToDisk reliable v).disk vfsMetadataLba = tableSector v.table := by simp
  constructor
  · intro i hu
    rw [vfsSyncToDisk_table] at hu ⊢
    rw [hsector]
    exact ⟨diskFile_saved (h.fits hu), (h.used i hu).2⟩
  · intro i hu
    rw [vfsSyncToDisk_table] at hu
    simp [hsector, diskFile_tableSector, VfsFile.accepted, hu]

theorem InSync.save_placed (h : InSync v) (hp : Placed v.disk) :
    Placed (vfsSyncToDisk reliable v).disk := by
  intro i hacc
  have hu : ((vfsSyncToDisk reliable v).table i).used ≠ 0 := by
    intro hz
    rw [h.save.free i hz] at hacc
    simp at hacc
  rw [(h.save.used i hu).1]
  rw [vfsSyncToDisk_table] at hu ⊢
  exact h.startLba hp hu

/-- The table in memory in step with a tidy disk. -/
structure Tidy (v : Vfs) : Prop where
  sync : InSync v
  disk : TidyDisk v.disk

section Operations

variable {content buffer : Nat → UInt8} {len maxLen : Nat}

theorem vfsInit_inSync : InSync (vfsInit reliable v) := by
  by_cases h0 : slotOf v.disk 0 = none
  · obtain ⟨v1, f, hsync, -, hsaved, hfits, hacc, -⟩ := vfsInit_saved h0
    exact hsync.saved_inSync hsaved hfits fun _ => hacc
  · simp only [vfsInit]
    generalize h1 : vfsSyncFromDisk reliable { v with table := clearTable v.table } = v1
    obtain ⟨hsync, -, hfree⟩ := loaded_inSync h1
    rw [if_neg (mt hfree.mp h0)]
    exact hsync.congr rfl rfl

/-- The mount finds its first slot taken, or no welcome file in another slot. -/
def MountsClean (d : Nat → Nat → UInt8) : Prop :=
  (∃ i : Fin maxFiles, i.val = 0 ∧ slotOf d i ≠ none) ∨ ∀ i, slotName d i ≠ some readmeName

theorem TidyDisk.init (h : TidyDisk v.disk) (hclean : MountsClean v.disk) :
    Tidy (vfsInit reliable v) := by
  refine ⟨vfsInit_inSync, ?_⟩
  by_cases h0 : slotOf v.disk 0 = none
  · have hno := hclean.resolve_left fun ⟨i, hi, hne⟩ => hne (by rwa [Fin.val_eq_zero_iff.mp hi])
    have hslots := vfsInit_slotName h0
    have hname : ∀ i name, slotName (vfsInit reliable v).disk i = some name →
        i = 0 ∧ name = readmeName ∨ i ≠ 0 ∧ slotName v.disk i = some name := by
      intro i name hi
      rw [hslots] at hi
      by_cases hi0 : i = 0
      · subst hi0
        rw [Function.update_self] at hi
        exact Or.inl ⟨rfl, (Option.some.inj hi).symm⟩
      · rw [Function.update_of_ne hi0] at hi
        exact Or.inr ⟨hi0, hi⟩
    refine ⟨(vfsInit_free h.placed h0).2, fun i j name hi hj => ?_, fun i name hi => ?_⟩
    · rcases hname i name hi with ⟨rfl, hri⟩ | ⟨-, hi⟩ <;>
        rcases hname j name hj with ⟨rfl, hrj⟩ | ⟨-, hj⟩
      · rfl
      · exact absurd (hri ▸ hj) (hno j)
      · exact absurd (hrj ▸ hi) (hno i)
      · exact h.distinct i j name hi hj
    · rcases hname i name hi with ⟨-, rfl⟩ | ⟨-, hi⟩
      · exact readmeName_valid.short
      · exact h.short i name hi
  · rw [vfsInit_used h0]
    exact h

theorem Tidy.create (h : Tidy v) (hn : ValidName name) :
    Tidy (vfsCreateFile reliable v (some name)).1 := by
  obtain ⟨m, hst⟩ := h.disk.stores
  rcases vfsCreate_reliable hst hn with ⟨i, v1, hc, -, hsync, -, -, hst'⟩ | ⟨v1, hc, -, hsync, hd⟩
  · simp only [vfsCreateFile, hc]
    refine ⟨hsync, hst'.tidy fun k hk => ?_⟩
    by_cases hkn : k = name
    · subst hkn
      exact hn.short
    · refine h.disk.key_short hst k ?_
      rw [withName] at hk
      split at hk
      · rwa [Function.update_of_ne hkn] at hk
      · exact hk
  · simp only [vfsCreateFile, hc]
    exact ⟨hsync, hd ▸ h.disk⟩

theorem Tidy.write (h : Tidy v) (hn : ValidName name) :
    Tidy (vfsWriteFile reliable v (some name) content len).1 := by
  obtain ⟨m, hst⟩ := h.disk.stores
  obtain ⟨hsync, hst', -⟩ := vfsWriteFile_reliable content len hst hn
  refine ⟨hsync, hst'.tidy fun k hk => ?_⟩
  by_cases hkn : k = name
  · subst hkn
    exact hn.short
  · rw [mapNext_other hkn] at hk
    exact h.disk.key_short hst k hk

theorem Tidy.delete (h : Tidy v) (hn : name ≠ []) :
    Tidy (vfsDeleteFile reliable v (some name)).1 := by
  obtain ⟨m, hst⟩ := h.disk.stores
  obtain ⟨hsync, hst', -⟩ := vfsDeleteFile_reliable hst hn
  refine ⟨hsync, hst'.tidy fun k hk => h.disk.key_short hst k ?_⟩
  by_cases hkn : k = name
  · subst hkn
    simp [mapNext] at hk
  · rwa [mapNext_other hkn] at hk

theorem Tidy.load (h : Tidy v) : Tidy (vfsSyncFromDisk reliable v) :=
  ⟨inSync_load rfl, by rw [vfsSyncFromDisk_disk]; exact h.disk⟩

theorem Tidy.congr (h : Tidy v) (ht : w.table = v.table) (hd : w.disk = v.disk) : Tidy w :=
  ⟨h.sync.congr ht hd, hd ▸ h.disk⟩

theorem Tidy.read {name : Option (List UInt8)} {buffer : Option (Nat → UInt8)} (h : Tidy v) :
    Tidy (vfsReadFile reliable v name buffer maxLen stack).1 := by
  obtain ⟨htable | htable, hdisk⟩ := vfsReadFile_state reliable v name buffer maxLen stack
  · exact h.congr htable hdisk
  · exact h.load.congr htable (hdisk.trans vfsSyncFromDisk_disk.symm)

theorem Tidy.sync_to_disk (h : Tidy v) : Tidy (vfsSync reliable v) := by
  have hslots : slotName (vfsSyncToDisk reliable v).disk = slotName v.disk :=
    h.sync.slotName_congr h.sync.save vfsSyncToDisk_table
  refine ⟨h.sync.save, h.sync.save_placed h.disk.placed, ?_, ?_⟩
  · unfold NamesDistinct vfsSync
    rw [hslots]
    exact h.disk.distinct
  · rw [vfsSync, hslots]
    exact h.disk.short

/-- Names to be stored fit their field, and mounts are clean. Strings hold no NUL. -/
def FaultOp.Fitting (v : Vfs) : FaultOp → Prop
  | .init => MountsClean v.disk
  | .create (some name) => name.length < maxFilename ∧ 0 ∉ name
  | .write (some name) _ _ => name.length < maxFilename ∧ 0 ∉ name
  | _ => True

theorem Tidy.call (h : Tidy v) (hop : op.Fitting v) : Tidy (faultCall reliable stack v op) := by
  cases op with
  | init => exact h.disk.init hop
  | create name =>
    match name with
    | none => exact h
    | some [] => exact h
    | some (a :: l) => exact h.create ⟨by simp, hop.1, hop.2⟩
  | write name content len =>
    match name with
    | none => exact h
    | some [] => exact h
    | some (a :: l) => exact h.write ⟨by simp, hop.1, hop.2⟩
  | read name buffer maxLen => exact h.read
  | list => exact h.load.congr vfsListFiles_state.1 vfsListFiles_state.2
  | sync => exact h.sync_to_disk
  | delete name =>
    match name with
    | none => exact h
    | some [] => exact h
    | some (a :: l) => exact h.delete (by simp)

/-- Every call of the run is fitting. -/
def RunFits (stack : Nat → UInt8) : Vfs → List FaultOp → Prop
  | _, [] => True
  | v, op :: ops => op.Fitting v ∧ RunFits stack (faultCall reliable stack v op) ops

theorem Tidy.run (h : Tidy v) (hops : RunFits stack v ops) :
    Tidy (faultRun reliable stack v ops) := by
  induction ops generalizing v with
  | nil => exact h
  | cons op ops ih => exact ih (h.call hops.1) hops.2

end Operations

section Lookup

/-- No two entries in use hold one name. -/
def TableDistinct (t : FileTable) : Prop :=
  ∀ i j, (t i).used ≠ 0 → (t j).used ≠ 0 → (t i).nameString = (t j).nameString → i = j

theorem Tidy.tableDistinct (h : Tidy v) : TableDistinct v.table := by
  intro i j hi hj heq
  refine h.disk.distinct i j _ (h.sync.slotName_used hi) ?_
  rw [h.sync.slotName_used hj, heq]

theorem Tidy.name_short (h : Tidy v) (hu : (v.table i).used ≠ 0) :
    (v.table i).nameString.length < maxFilename := h.disk.short i _ (h.sync.slotName_used hu)

/-- What may be expected of a name in a state in which `vfs_create_file` has just returned slot
`i` for it. -/
structure NameKnown (v : Vfs) (name : List UInt8) (i : Fin maxFiles) : Prop where
  create : ∃ w, vfsCreateFile reliable v (some name) = (w, indexCode (some i)) ∧ w.table = v.table
  read : ∀ buffer maxLen stack, 1 ≤ maxLen →
    (vfsReadFile reliable v (some name) (some buffer) maxLen stack).2 =
      (some (readInto buffer (fileContent v.disk (v.table i)) (min (v.table i).size (maxLen - 1))),
        ((min (v.table i).size (maxLen - 1) : Nat) : Int))
  delete : ∃ w, vfsDeleteFile reliable v (some name) = (w, 0) ∧ (w.table i).used = 0 ∧
    ∀ j ≠ i, w.table j = v.table j

/-- Free entries are as clearing leaves them. -/
def FreeCleared (t : FileTable) : Prop := ∀ i, (t i).used = 0 → (t i).cleared = t i

theorem VfsFile.cleared_cleared : f.cleared.cleared = f.cleared := by
  simp [VfsFile.cleared]

theorem load_reliable :
    (vfsSyncFromDisk reliable v).table = loadTable (v.disk vfsMetadataLba) v.table := by
  simp

theorem freeCleared_load : FreeCleared (vfsSyncFromDisk reliable v).table := by
  rw [load_reliable]
  intro i hu
  unfold loadTable at hu ⊢
  split
  · rename_i hacc
    rw [if_pos hacc] at hu
    have hone := (accepted_iff.mp hacc).1
    omega
  · exact VfsFile.cleared_cleared

theorem FreeCleared.update (h : FreeCleared t) (hf : f.used ≠ 0) :
    FreeCleared (Function.update t i f) := by
  intro j hu
  by_cases hj : j = i
  · subst hj
    rw [Function.update_self] at hu
    exact absurd hu hf
  · rw [Function.update_of_ne hj] at hu ⊢
    exact h j hu

theorem vfsCreate_freeCleared (hn : name ≠ []) :
    FreeCleared (vfsCreate reliable v (some name)).1.table := by
  rcases vfsCreate_cases reliable v hn with ⟨i, -, heq⟩ | ⟨i, -, -, heq⟩ | ⟨-, -, heq⟩ <;> rw [heq]
  · exact freeCleared_load
  · simp only [vfsSyncToDisk_table, setEntry_table]
    exact freeCleared_load.update (by simp [newEntry])
  · exact freeCleared_load

/-- Loading a table that is in step with the disk does not change it. -/
theorem InSync.load_table (h : InSync v) (hfree : FreeCleared v.table) :
    (vfsSyncFromDisk reliable v).table = v.table := by
  rw [load_reliable]
  funext i
  by_cases hu : (v.table i).used = 0
  · simp [loadTable, h.free i hu, hfree i hu]
  · obtain ⟨heq, hacc⟩ := h.used i hu
    simp [loadTable, heq, hacc]

theorem TableDistinct.findName (h : TableDistinct t) (hu : (t i).used ≠ 0)
    (hname : (t i).nameString = name) : findName t name = some i := by
  cases hfind : HumanOS.findName t name with
  | none => exact absurd hname (findName_eq_none hfind i hu)
  | some j =>
    obtain ⟨huj, hnamej⟩ := findName_eq_some hfind
    rw [h i j hu huj (hname.trans hnamej.symm)]

/-- An entry in use with the name, in a table that no load changes. -/
theorem Tidy.nameKnown (h : Tidy v) (hfree : FreeCleared v.table) (hn : name ≠ [])
    (hu : (v.table i).used ≠ 0) (hname : (v.table i).nameString = name) : NameKnown v name i := by
  have hload := h.sync.load_table hfree
  have hfind : findName (vfsSyncFromDisk reliable v).table name = some i := by
    rw [hload]
    exact h.tableDistinct.findName hu hname
  refine ⟨⟨vfsSyncFromDisk reliable v, ?_, hload⟩, fun buffer maxLen stack hmax => ?_, ?_⟩
  · rcases vfsCreate_cases reliable v hn with ⟨j, hj, heq⟩ | ⟨j, hj, -⟩ | ⟨hj, -⟩
    · obtain rfl : i = j := Option.some.inj (hfind.symm.trans hj)
      simp only [vfsCreateFile, heq]
    · exact absurd (hfind.symm.trans hj) (by simp)
    · exact absurd (hfind.symm.trans hj) (by simp)
  · obtain ⟨m, hst⟩ := h.disk.stores
    obtain ⟨-, hret⟩ := vfsReadFile_reliable name buffer stack hst hmax
    have hget : m name = some (fileContent v.disk (v.table i)) := by
      refine hst.slots.get (i := i) ?_
      rw [h.sync.slot_used hu, hname]
    simp only [mapReturns, hget, fileContent, List.length_map, List.length_range] at hret
    exact Prod.ext hret.2 hret.1
  · obtain ⟨a, l, rfl⟩ := List.exists_cons_of_ne_nil hn
    refine ⟨vfsSyncToDisk reliable ((vfsSyncFromDisk reliable v).setEntry i
      ((vfsSyncFromDisk reliable v).table i).cleared), by simp only [vfsDeleteFile, hfind], ?_,
      fun j hj => ?_⟩
    · simp [VfsFile.cleared]
    · simp only [vfsSyncToDisk_table, setEntry_table, Function.update_of_ne hj, hload]

/-- A name that is too long is not in the table, so that a new entry is made for it; loading the
table again does not change it. -/
theorem Tidy.create_long (h : Tidy v) (hnul : 0 ∉ name) (hlong : maxFilename ≤ name.length)
    (hc : vfsCreate reliable v (some name) = (w, some i)) :
    w.table = Function.update (vfsSyncFromDisk reliable v).table i
      (newEntry (vfsSyncFromDisk reliable v).table i name) ∧
    (vfsSyncFromDisk reliable w).table = w.table := by
  have hne : name ≠ [] := by
    rintro rfl
    simp at hlong
  rcases vfsCreate_cases reliable v hne with ⟨j, hfind, -⟩ | ⟨j, -, -, heq⟩ | ⟨-, -, heq⟩
  · obtain ⟨hu, hname⟩ := findName_eq_some hfind
    have hlen := h.load.name_short hu
    rw [hname] at hlen
    omega
  · obtain ⟨rfl, hj⟩ := Prod.mk.inj (heq.symm.trans hc)
    obtain rfl := Option.some.inj hj
    obtain ⟨hfits, hacc, -⟩ :=
      newEntry_sound (i := j) (t := (vfsSyncFromDisk reliable v).table) hnul
    have hsaved : InSync.Saved (vfsSyncFromDisk reliable v) j
        (newEntry (vfsSyncFromDisk reliable v).table j name)
        (vfsSyncToDisk reliable ((vfsSyncFromDisk reliable v).setEntry j
          (newEntry (vfsSyncFromDisk reliable v).table j name))) := saved_sync rfl rfl rfl
    refine ⟨hsaved.table, (h.load.sync.saved_inSync hsaved hfits fun _ => hacc).load_table ?_⟩
    rw [hsaved.table]
    exact freeCleared_load.update (by simp [newEntry])
  · exact absurd (Prod.mk.inj (heq.symm.trans hc)).2 (by simp)

/-- The entry has the name cut, so that it is not found afterwards either. -/
theorem Tidy.long_not_found (h : Tidy v) (hnul : 0 ∉ name) (hlong : maxFilename ≤ name.length)
    (hw : w.table = Function.update (vfsSyncFromDisk reliable v).table i
      (newEntry (vfsSyncFromDisk reliable v).table i name))
    {j : Fin maxFiles} (hu : (w.table j).used ≠ 0) : (w.table j).nameString ≠ name := by
  intro heq
  have hlen : (w.table j).nameString.length < maxFilename := by
    rw [hw] at hu ⊢
    by_cases hj : j = i
    · subst hj
      rw [Function.update_self, (newEntry_sound hnul).2.2, List.length_take]
      simp only [maxFilename]
      omega
    · rw [Function.update_of_ne hj] at hu ⊢
      exact h.load.name_short hu
  rw [heq] at hlen
  omega

/-- A name that is too long is stored cut, and not found again. -/
theorem Tidy.not_nameKnown (h : Tidy v) (hnul : 0 ∉ name) (hlong : maxFilename ≤ name.length)
    (hc : vfsCreate reliable v (some name) = (w, some i)) : ¬ NameKnown w name i := by
  obtain ⟨htable, hload⟩ := h.create_long hnul hlong hc
  have hne : name ≠ [] := by
    rintro rfl
    simp at hlong
  rintro ⟨⟨w', hagain, -⟩, -, -⟩
  rcases vfsCreate_cases reliable w hne with ⟨k, hfind, -⟩ | ⟨k, -, hfree, heq⟩ | ⟨-, -, heq⟩
  · obtain ⟨hu, hname⟩ := findName_eq_some hfind
    rw [hload] at hu hname
    exact h.long_not_found hnul hlong htable hu hname
  · -- the second call takes another slot
    have hk : k = i := Option.some.inj (Prod.mk.inj (heq.symm.trans (vfsCreateFile_eq hagain))).2
    have hu := findFree_eq_some hfree
    rw [hk, hload, htable, Function.update_self] at hu
    simp [newEntry] at hu
  · exact absurd (Prod.mk.inj (heq.symm.trans (vfsCreateFile_eq hagain))).2 (by simp)

/-- In a state of which the names are tidy, a name is known after it was created exactly if it
fits its field. -/
theorem Tidy.nameKnown_iff (h : Tidy v) (hn : name ≠ []) (hnul : 0 ∉ name)
    (hc : vfsCreateFile reliable v (some name) = (w, indexCode (some i))) :
    NameKnown w name i ↔ name.length < maxFilename := by
  have hc' := vfsCreateFile_eq hc
  constructor
  · intro hknown
    by_contra hlong
    exact h.not_nameKnown hnul (by omega) hc' hknown
  · intro hshort
    have htidy := h.create ⟨hn, hshort, hnul⟩
    have hfree := vfsCreate_freeCleared (v := v) hn
    obtain ⟨f, hcreated⟩ :=
      vfsCreate_created (Or.inl rfl) h.disk.placed hn hshort hnul hc'
    rw [hc] at htidy
    rw [hc'] at hfree
    have hentry : w.table i = f := by rw [hcreated.table, Function.update_self]
    refine htidy.nameKnown hfree hn ?_ ?_
    · rw [hentry, (accepted_iff.mp hcreated.accepted).1]
      decide
    · rw [hentry, hcreated.string]

/-- What names are for: none is there twice, and each is known once it was created. -/
structure NamesIdentify (v : Vfs) : Prop where
  distinct : TableDistinct v.table
  known : ∀ name i w, name ≠ [] → 0 ∉ name →
    vfsCreateFile reliable v (some name) = (w, indexCode (some i)) → NameKnown w name i

/-- From a clean mount of a tidy disk on, while the names stored fit their field and later mounts
are clean, no name is in the table twice and a created name is known exactly if it fits. -/
theorem names_identify_files (hdisk : TidyDisk v.disk) (hops : RunFits stack v (.init :: ops)) :
    TableDistinct (faultRun reliable stack v (.init :: ops)).table ∧
    ∀ name i w, name ≠ [] → 0 ∉ name →
      vfsCreateFile reliable (faultRun reliable stack v (.init :: ops)) (some name) =
        (w, indexCode (some i)) → (NameKnown w name i ↔ name.length < maxFilename) := by
  have htidy : Tidy (faultRun reliable stack v (.init :: ops)) := by
    rw [faultRun, List.foldl_cons]
    exact Tidy.run (hdisk.init hops.1) hops.2
  exact ⟨htidy.tableDistinct, fun name i w hn hnul hc => htidy.nameKnown_iff hn hnul hc⟩

theorem TidyDisk.zero (hzero : ∀ lba k, d lba k = 0) : TidyDisk d := by
  have hempty : ∀ i, slotName d i = none := fun i => by
    simp [slotName, slotOf, zeroDisk_slot hzero i]
  refine ⟨fun i hacc => ?_, fun i j name hi => ?_, fun i name hi => ?_⟩
  · simp [zeroDisk_slot hzero i] at hacc
  · simp [hempty i] at hi
  · simp [hempty i] at hi

/-- After the first mount, a file and a read of a name that is too long, the file is known. -/
theorem names_identify_files_one_file :
    ∃ w, vfsCreateFile reliable (faultRun reliable (fun _ => 0) blankVfs [.init,
        .create (some (asciiBytes "a")),
        .read (some (List.replicate 20 97)) (some fun _ => 0) 100]) (some (asciiBytes "a")) =
          (w, indexCode (some 1)) ∧ NameKnown w (asciiBytes "a") 1 := by
  have hclean : MountsClean blankVfs.disk := by
    refine Or.inr fun i hi => ?_
    simp [slotName, slotOf, zeroDisk_slot (d := blankVfs.disk) (fun _ _ => rfl) i] at hi
  have hfits : RunFits (fun _ => 0) blankVfs [.init, .create (some (asciiBytes "a")),
      .read (some (List.replicate 20 97)) (some fun _ => 0) 100] :=
    ⟨hclean, ⟨by decide, by decide⟩, trivial, trivial⟩
  obtain ⟨-, hknown⟩ := names_identify_files (.zero fun _ _ => rfl) hfits
  obtain ⟨w, hc⟩ : ∃ w, vfsCreateFile reliable (faultRun reliable (fun _ => 0) blankVfs [.init,
      .create (some (asciiBytes "a")),
      .read (some (List.replicate 20 97)) (some fun _ => 0) 100]) (some (asciiBytes "a")) =
        (w, indexCode (some 1)) := ⟨_, Prod.ext rfl (by decide +kernel)⟩
  exact ⟨w, hc, (hknown _ 1 w (by decide) (by decide) hc).mpr (by decide)⟩

/-- A name of twenty bytes is created twice and gets two entries, with one name in the table. -/
theorem names_not_unique :
    ¬ ∀ names : List (List UInt8), (∀ name ∈ names, name ≠ [] ∧ 0 ∉ name) →
      NamesIdentify (faultRun reliable (fun _ => 0) blankVfs
        (.init :: names.map fun name => .create (some name))) := by
  intro hall
  have hident := hall (List.replicate 2 (List.replicate 20 97)) (by decide)
  have htwice := hident.distinct 1 2
  revert htwice
  decide +kernel

end Lookup

end HumanOS

import HumanOS.Vfs.Calls

/-!
# The file system refines a finite map

On a reliable disk the four file operations act as those of a map from names to byte strings
with at most sixteen keys.
-/
namespace HumanOS

open Lib

abbrev FileMap := List UInt8 → Option (List UInt8)

/-- A disk on which every call succeeds. -/
def reliable : Nat → Bool := fun _ => true

@[simp] theorem reliable_eq {n : Nat} : reliable n = true := rfl

/-- A name that fits its field with its NUL. -/
structure ValidName (name : List UInt8) : Prop where
  nonempty : name ≠ []
  short : name.length < maxFilename
  noNul : 0 ∉ name

/-- A call on one name, with the caller's memory where it has any. -/
inductive VfsOp where
  | create (name : List UInt8)
  | write (name : List UInt8) (content : Nat → UInt8) (len : Nat)
  | read (name : List UInt8) (buffer : Nat → UInt8) (maxLen : Nat)
  | delete (name : List UInt8)

def VfsOp.name : VfsOp → List UInt8
  | .create name => name
  | .write name _ _ => name
  | .read name _ _ => name
  | .delete name => name

/-- A valid name, and room for the NUL when reading. -/
def VfsOp.Admissible (op : VfsOp) : Prop :=
  ValidName op.name ∧ ∀ name buffer maxLen, op = .read name buffer maxLen → 1 ≤ maxLen

/-- The call with its result and the buffer afterwards. -/
def vfsCall (stack : Nat → UInt8) (v : Vfs) : VfsOp → Vfs × Int × Option (Nat → UInt8)
  | .create name =>
    let (v, code) := vfsCreateFile reliable v (some name)
    (v, code, none)
  | .write name content len =>
    let (v, code) := vfsWriteFile reliable v (some name) content len
    (v, code, none)
  | .read name buffer maxLen =>
    let (v, buffer, code) := vfsReadFile reliable v (some name) (some buffer) maxLen stack
    (v, code, buffer)
  | .delete name =>
    let (v, code) := vfsDeleteFile reliable v (some name)
    (v, code, none)

section Map

/-- A new name finds no room. -/
def Blocked (m : FileMap) (name : List UInt8) : Prop :=
  m name = none ∧ maxFiles ≤ {k | m k ≠ none}.ncard

open Classical in
/-- What a call does to the map. -/
noncomputable def mapNext (m : FileMap) : VfsOp → FileMap
  | .create name =>
    if m name = none ∧ ¬ Blocked m name then Function.update m name (some []) else m
  | .write name content len =>
    if Blocked m name then m
    else Function.update m name (some ((List.range (min len maxFileSize)).map content))
  | .read _ _ _ => m
  | .delete name => Function.update m name none

/-- A buffer after `n` bytes of `bytes` and a NUL were put into it. -/
def readInto (buffer : Nat → UInt8) (bytes : List UInt8) (n : Nat) : Nat → UInt8 := fun j =>
  if j < n then bytes.getD j 0 else if j = n then 0 else buffer j

/-- The results a call may return on the map. -/
def mapReturns (m : FileMap) (code : Int) (buf : Option (Nat → UInt8)) : VfsOp → Prop
  | .create name =>
    buf = none ∧ (Blocked m name → code = -1) ∧
      (¬ Blocked m name → 0 ≤ code ∧ code < maxFiles)
  | .write name _ len =>
    buf = none ∧ (Blocked m name → code = -1) ∧
      (¬ Blocked m name → code = min len maxFileSize)
  | .read name buffer maxLen =>
    match m name with
    | none => code = -1 ∧ buf = some buffer
    | some bytes =>
      code = min bytes.length (maxLen - 1) ∧
        buf = some (readInto buffer bytes (min bytes.length (maxLen - 1)))
  | .delete name => buf = none ∧ code = if m name = none then -1 else 0

theorem mapNext_other {m : FileMap} {op : VfsOp} {k : List UInt8} (hk : k ≠ op.name) :
    mapNext m op k = m k := by
  cases op with
  | create name =>
    simp only [mapNext]
    split
    · exact Function.update_of_ne hk _ _
    · rfl
  | write name content len =>
    simp only [mapNext]
    split
    · rfl
    · exact Function.update_of_ne hk _ _
  | read name buffer maxLen => rfl
  | delete name => exact Function.update_of_ne hk _ _

end Map

/-- The disk stores the map. -/
structure Stores (d : Nat → Nat → UInt8) (m : FileMap) : Prop where
  slots : SlotMap (slotOf d) m
  placed : Placed d

variable {v v' : Vfs} {d : Nat → Nat → UInt8} {m : FileMap} {name : List UInt8}
variable {i : Fin maxFiles} {f : VfsFile} {stack : Nat → UInt8} {op : VfsOp} {ops : List VfsOp}

theorem Blocked.iff_full (h : Stores d m) (hn : m name = none) :
    Blocked m name ↔ ∀ i, slotOf d i ≠ none := by
  rw [← h.slots.full_iff, Fintype.card_fin]
  exact ⟨fun hb => hb.2, fun hf => ⟨hn, hf⟩⟩

/-- Saving one used entry writes its name and bytes into the map. -/
theorem Stores.save (h : Stores v.disk m) (hsync : InSync v) (hs : InSync.Saved v i f v')
    (hf : f.Fits) (hacc : f.accepted = true) (hlba : f.startLba = vfsDataStartLba + i * 2)
    (hname : f.nameString = name)
    (hkey : m name = none ∨ ∃ w, slotOf v.disk i = some (name, w))
    (hslot : slotOf v.disk i = none ∨ ∃ w, slotOf v.disk i = some (name, w)) :
    Stores v'.disk (Function.update m name (some (fileContent v'.disk f))) := by
  refine ⟨?_, hsync.saved_placed h.placed hs hf fun _ => hlba⟩
  rw [hsync.saved_slot h.placed hs hf, if_pos hacc, hname]
  exact h.slots.write hkey hslot

/-- Loading changes the table only. -/
theorem vfsSyncFromDisk_reliable : InSync (vfsSyncFromDisk reliable v) ∧
    (vfsSyncFromDisk reliable v).disk = v.disk := ⟨inSync_load rfl, vfsSyncFromDisk_disk⟩

/-- Where a name is found after a load. -/
theorem Stores.find_some (h : Stores v.disk m) (hsync : InSync v)
    (hf : findName v.table name = some i) :
    (v.table i).used ≠ 0 ∧ (v.table i).nameString = name ∧
      slotOf v.disk i = some (name, fileContent v.disk (v.table i)) ∧
      m name = some (fileContent v.disk (v.table i)) := by
  obtain ⟨hu, hname⟩ := findName_eq_some hf
  have hslot := hsync.slot_used hu
  rw [hname] at hslot
  exact ⟨hu, hname, hslot, h.slots.get hslot⟩

theorem Stores.find_none (h : Stores v.disk m) (hsync : InSync v)
    (hf : findName v.table name = none) : m name = none := by
  refine h.slots.eq_none.mpr fun i w hi => ?_
  have hu : (v.table i).used ≠ 0 := by
    intro hz
    simp [hsync.slot_free hz] at hi
  rw [hsync.slot_used hu, Option.some.injEq, Prod.mk.injEq] at hi
  exact findName_eq_none hf i hu hi.1

/-- The map with the name added, empty, unless it is there. -/
def withName (m : FileMap) (name : List UInt8) : FileMap :=
  if m name = none then Function.update m name (some []) else m

/-- `vfs_create_file` on a reliable disk: a full map refuses a new name, and otherwise the index
returned is that of an entry with the name. -/
theorem vfsCreate_reliable (h : Stores v.disk m) (hn : ValidName name) :
    (∃ i v', vfsCreate reliable v (some name) = (v', some i) ∧ ¬ Blocked m name ∧ InSync v' ∧
      (v'.table i).used ≠ 0 ∧ (v'.table i).nameString = name ∧
      Stores v'.disk (withName m name)) ∨
    (∃ v', vfsCreate reliable v (some name) = (v', none) ∧ Blocked m name ∧ InSync v' ∧
      v'.disk = v.disk) := by
  obtain ⟨hsync, hdisk⟩ := vfsSyncFromDisk_reliable (v := v)
  have hst : Stores (vfsSyncFromDisk reliable v).disk m := hdisk ▸ h
  rcases vfsCreate_cases reliable v hn.nonempty with
    ⟨i, hfind, heq⟩ | ⟨i, hfind, hfree, heq⟩ | ⟨hfind, hfree, heq⟩
  · obtain ⟨hu, hname, hslot, hget⟩ := hst.find_some hsync hfind
    refine Or.inl ⟨i, _, heq, fun hb => ?_, hsync, hu, hname, ?_⟩
    · simp [hb.1] at hget
    · simpa [withName, hget] using hst
  · have habsent := hst.find_none hsync hfind
    have hnone := hsync.slot_free (findFree_eq_some hfree)
    obtain ⟨hfits, hacc, hname⟩ :=
      newEntry_sound (i := i) (t := (vfsSyncFromDisk reliable v).table) hn.noNul
    rw [take_name hn.short] at hname
    have hsaved : InSync.Saved (vfsSyncFromDisk reliable v) i
        (newEntry (vfsSyncFromDisk reliable v).table i name) (vfsSyncToDisk reliable
          ((vfsSyncFromDisk reliable v).setEntry i
            (newEntry (vfsSyncFromDisk reliable v).table i name))) := saved_sync rfl rfl rfl
    refine Or.inl ⟨i, _, heq, fun hb => ?_, hsync.saved_inSync hsaved hfits fun _ => hacc, ?_⟩
    · exact (Blocked.iff_full hst habsent).mp hb i hnone
    · rw [hsaved.table, Function.update_self]
      refine ⟨by simp [newEntry], hname, ?_⟩
      have hsave := hst.save hsync hsaved hfits hacc rfl hname (Or.inl habsent) (Or.inl hnone)
      simpa [withName, habsent, fileContent, newEntry] using hsave
  · have habsent := hst.find_none hsync hfind
    refine Or.inr ⟨_, heq, (Blocked.iff_full hst habsent).mpr fun i hi => ?_, hsync, hdisk⟩
    rw [hsync.slot_used (findFree_eq_none hfree i)] at hi
    simp at hi

theorem writeReaches_reliable (hshort : name.length < maxFilename) (n : Nat) :
    WriteReaches reliable v name n :=
  ⟨Or.inl rfl, hshort, fun _ => rfl, fun _ => rfl, rfl⟩

theorem vfsWriteFile_reliable (content : Nat → UInt8) (len : Nat) (h : Stores v.disk m)
    (hn : ValidName name) :
    InSync (vfsWriteFile reliable v (some name) content len).1 ∧
      Stores (vfsWriteFile reliable v (some name) content len).1.disk
        (mapNext m (.write name content len)) ∧
      mapReturns m (vfsWriteFile reliable v (some name) content len).2 none
        (.write name content len) := by
  obtain ⟨hsync, hdisk⟩ := vfsSyncFromDisk_reliable (v := v)
  have hst : Stores (vfsSyncFromDisk reliable v).disk m := hdisk ▸ h
  have hcode : (if len > maxFileSize then maxFileSize else len) = min len maxFileSize := by
    split <;> omega
  rcases vfsCreate_reliable h hn with ⟨i, v1, hc, hroom, -⟩ | ⟨v1, hc, hblocked, hv1, hd⟩
  · obtain ⟨f, hsaved, hfits, hacc, hlba, hname, -, hcontent⟩ :=
      vfsWriteFile_saved content len (writeReaches_reliable hn.short _)
        h.placed hn.nonempty hn.noNul hc
    have hret : (vfsWriteFile reliable v (some name) content len).2 =
        ((min len maxFileSize : Nat) : Int) := by
      simp only [vfsWriteFile, hc, hcode]
    refine ⟨hsync.saved_inSync hsaved hfits fun _ => hacc, ?_, rfl, fun hb => (hroom hb).elim,
      fun _ => by rw [hret]⟩
    rw [mapNext, if_neg hroom, ← hcontent]
    -- the slot is the one of the name, or was free and the name is new
    rcases vfsCreate_cases reliable v hn.nonempty with
      ⟨j, hfind, heq⟩ | ⟨j, hfind, hfree, heq⟩ | ⟨-, -, heq⟩
    · obtain rfl : j = i := Option.some.inj (Prod.mk.inj (heq.symm.trans hc)).2
      obtain ⟨-, -, hslot, -⟩ := hst.find_some hsync hfind
      exact hst.save hsync hsaved hfits hacc hlba hname (Or.inr ⟨_, hslot⟩) (Or.inr ⟨_, hslot⟩)
    · obtain rfl : j = i := Option.some.inj (Prod.mk.inj (heq.symm.trans hc)).2
      exact hst.save hsync hsaved hfits hacc hlba hname (Or.inl (hst.find_none hsync hfind))
        (Or.inl (hsync.slot_free (findFree_eq_some hfree)))
    · exact absurd (Prod.mk.inj (heq.symm.trans hc)).2 (by simp)
  · simp only [vfsWriteFile, hc, mapNext, mapReturns, hblocked, if_true, hd]
    exact ⟨hv1, h, trivial, by simp, by simp⟩

theorem fileContent_getD {k : Nat} (hk : k < f.size) : (fileContent d f).getD k 0 =
    if k < 512 then d f.startLba k else d (f.startLba + 1) (k - 512) := by
  simp [fileContent, hk]

/-- The two copy loops of `vfs_read_file` and the NUL behind them. -/
theorem readInto_sectors {buffer : Nat → UInt8} {n : Nat} (hn : n ≤ f.size) :
    readInto buffer (fileContent d f) n = Function.update
      (fun j => if 512 ≤ j ∧ j < n then d (f.startLba + 1) (j - 512)
        else if j < n ∧ j < 512 then d f.startLba j else buffer j) n 0 := by
  funext j
  by_cases hj : j = n
  · simp [readInto, hj]
  · rw [Function.update_of_ne hj, readInto]
    by_cases hlt : j < n
    · rw [if_pos hlt, fileContent_getD (by omega)]
      by_cases hlow : j < 512
      · simp [hlow, hlt, show ¬ 512 ≤ j by omega]
      · simp [hlow, hlt, show 512 ≤ j by omega]
    · simp [hlt, hj]

/-- A name found and the data sectors it is copied from read: the bytes of the entry. -/
theorem vfsReadFile_found {ok : Nat → Bool} {maxLen : Nat} (stack buffer : Nat → UInt8)
    (hmax : maxLen ≠ 0) (hp : Placed v.disk) (hsync : InSync (vfsSyncFromDisk ok v))
    (hfind : findName (vfsSyncFromDisk ok v).table name = some i)
    (hfirst : 0 < min ((vfsSyncFromDisk ok v).table i).size (maxLen - 1) →
      ok (v.calls + 1) = true)
    (hsecond : 512 < min ((vfsSyncFromDisk ok v).table i).size (maxLen - 1) →
      ok (v.calls + 2) = true) :
    (vfsReadFile ok v (some name) (some buffer) maxLen stack).2 =
      (some (readInto buffer (fileContent v.disk ((vfsSyncFromDisk ok v).table i))
        (min ((vfsSyncFromDisk ok v).table i).size (maxLen - 1))),
        ((min ((vfsSyncFromDisk ok v).table i).size (maxLen - 1) : Nat) : Int)) := by
  have hdisk : (vfsSyncFromDisk ok v).disk = v.disk := vfsSyncFromDisk_disk
  have hcalls : (vfsSyncFromDisk ok v).calls = v.calls + 1 := vfsSyncFromDisk_calls
  simp only [vfsReadFile, hmax, if_false]
  generalize vfsSyncFromDisk ok v = u at *
  have hlba := hsync.startLba (hdisk ▸ hp) (findName_eq_some hfind).1
  have hi := i.isLt
  have hnext : add32 (u.table i).startLba 1 = (u.table i).startLba + 1 := by
    refine add32_of_lt ?_
    simp only [hlba, vfsDataStartLba, maxFiles] at hi ⊢
    omega
  have hmin : (if (u.table i).size > maxLen - 1 then maxLen - 1 else (u.table i).size) =
      min (u.table i).size (maxLen - 1) := by
    split <;> omega
  simp only [hfind, hmin, ataReadSector, hcalls]
  rw [readInto_sectors (Nat.min_le_left _ _), ← hdisk]
  generalize min (u.table i).size (maxLen - 1) = n at *
  rcases Nat.eq_zero_or_pos n with rfl | hpos
  · -- nothing is copied, whatever the sector buffer holds
    simp only [Nat.not_lt_zero, and_false, false_and, if_false]
  · simp only [hfirst hpos, if_true]
    by_cases hbig : n > 512
    · simp only [hbig, if_true, hnext, hsecond hbig]
    · simp only [hbig, if_false, Prod.mk.injEq, Option.some.injEq, and_true]
      congr 1
      funext j
      rw [if_neg (show ¬ (512 ≤ j ∧ j < n) by omega)]

theorem vfsReadFile_reliable {maxLen : Nat} (name : List UInt8) (buffer stack : Nat → UInt8)
    (h : Stores v.disk m) (hmax : 1 ≤ maxLen) :
    (vfsReadFile reliable v (some name) (some buffer) maxLen stack).1.disk = v.disk ∧
      mapReturns m (vfsReadFile reliable v (some name) (some buffer) maxLen stack).2.2
        (vfsReadFile reliable v (some name) (some buffer) maxLen stack).2.1
        (.read name buffer maxLen) := by
  refine ⟨(vfsReadFile_state reliable v (some name) (some buffer) maxLen stack).2, ?_⟩
  obtain ⟨hsync, hdisk⟩ := vfsSyncFromDisk_reliable (v := v)
  have hst : Stores (vfsSyncFromDisk reliable v).disk m := hdisk ▸ h
  cases hfind : findName (vfsSyncFromDisk reliable v).table name with
  | some i =>
    obtain ⟨-, -, -, hget⟩ := hst.find_some hsync hfind
    rw [hdisk] at hget
    rw [vfsReadFile_found _ _ (by omega) h.placed hsync hfind (fun _ => rfl) fun _ => rfl]
    simp [mapReturns, hget, fileContent]
  | none =>
    have habsent := hst.find_none hsync hfind
    simp only [vfsReadFile, show maxLen ≠ 0 by omega, if_false, hfind, mapReturns, habsent]
    exact ⟨trivial, trivial⟩

theorem vfsDeleteFile_reliable (h : Stores v.disk m) (hn : name ≠ []) :
    InSync (vfsDeleteFile reliable v (some name)).1 ∧
      Stores (vfsDeleteFile reliable v (some name)).1.disk (mapNext m (.delete name)) ∧
      mapReturns m (vfsDeleteFile reliable v (some name)).2 none (.delete name) := by
  obtain ⟨a, l, rfl⟩ := List.exists_cons_of_ne_nil hn
  obtain ⟨hsync, hdisk⟩ := vfsSyncFromDisk_reliable (v := v)
  have hst : Stores (vfsSyncFromDisk reliable v).disk m := hdisk ▸ h
  simp only [vfsDeleteFile]
  generalize vfsSyncFromDisk reliable v = v1 at *
  cases hfind : findName v1.table (a :: l) with
  | some i =>
    obtain ⟨hu, -, hslot, hget⟩ := hst.find_some hsync hfind
    have hfits : (v1.table i).cleared.Fits :=
      ⟨by simp [VfsFile.cleared], (hsync.fits hu).startLba, by simp [VfsFile.cleared]⟩
    have hacc : (v1.table i).cleared.accepted = false := by
      simp [VfsFile.accepted, VfsFile.cleared]
    have hsaved : InSync.Saved v1 i (v1.table i).cleared
        (vfsSyncToDisk reliable (v1.setEntry i (v1.table i).cleared)) := saved_sync rfl rfl rfl
    refine ⟨hsync.saved_inSync hsaved hfits (by simp [VfsFile.cleared]),
      ⟨?_, hsync.saved_placed hst.placed hsaved hfits (by simp [hacc])⟩, rfl, by simp [hget]⟩
    rw [hsync.saved_slot hst.placed hsaved hfits, hacc]
    exact hst.slots.erase hslot
  | none =>
    have habsent := hst.find_none hsync hfind
    refine ⟨hsync, ?_, rfl, by simp [habsent]⟩
    have hsame : mapNext m (.delete (a :: l)) = m := by
      simp only [mapNext, Function.update_eq_self_iff, habsent]
    rw [hsame]
    exact hst

theorem vfsCreateFile_reliable (h : Stores v.disk m) (hn : ValidName name) :
    Stores (vfsCreateFile reliable v (some name)).1.disk (mapNext m (.create name)) ∧
      mapReturns m (vfsCreateFile reliable v (some name)).2 none (.create name) := by
  rcases vfsCreate_reliable h hn with
    ⟨i, v1, hc, hroom, -, -, -, hst⟩ | ⟨v1, hc, hblocked, -, hdisk⟩
  · simp only [vfsCreateFile, hc, indexCode, mapNext, hroom, not_false_eq_true, and_true]
    refine ⟨by simpa [withName] using hst, rfl, fun hb => (hroom hb).elim, fun _ => ⟨by omega, ?_⟩⟩
    exact_mod_cast i.isLt
  · simp only [vfsCreateFile, hc, indexCode, mapNext, hblocked, not_true_eq_false, and_false,
      if_false, hdisk]
    exact ⟨h, rfl, fun _ => rfl, fun hroom => (hroom hblocked).elim⟩

/-- One call: same result, same data. -/
theorem vfsCall_refines (stack : Nat → UInt8) (h : Stores v.disk m) (hop : op.Admissible) :
    Stores (vfsCall stack v op).1.disk (mapNext m op) ∧
      mapReturns m (vfsCall stack v op).2.1 (vfsCall stack v op).2.2 op := by
  cases op with
  | create name => exact vfsCreateFile_reliable h hop.1
  | write name content len => exact (vfsWriteFile_reliable content len h hop.1).2
  | read name buffer maxLen =>
    obtain ⟨hdisk, hret⟩ := vfsReadFile_reliable name buffer stack h (hop.2 _ _ _ rfl)
    refine ⟨?_, hret⟩
    simp only [vfsCall, hdisk]
    exact h
  | delete name => exact (vfsDeleteFile_reliable h hop.1.nonempty).2

end HumanOS

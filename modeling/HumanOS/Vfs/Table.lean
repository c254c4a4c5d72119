import HumanOS.Vfs.Model
import Mathlib.Data.List.TakeWhile

/-! Names, the metadata sector, and what each disk call does to the state. -/
namespace HumanOS

open Lib

variable {ok : Nat → Bool} {v : Vfs} {t : FileTable} {i : Fin maxFiles} {f : VfsFile}
variable {name s1 s2 : List UInt8} {buf : Nat → UInt8} {lba : Nat}

section Names

theorem strcmpImpl_eq_zero : strcmpImpl s1 s2 = 0 ↔ s1 = s2 := by
  induction s1 generalizing s2 with
  | nil => cases s2 <;> simp [strcmpImpl]
  | cons a s1 ih =>
    cases s2 with
    | nil => simp [strcmpImpl]
    | cons b s2 =>
      by_cases hab : a = b
      · simp [strcmpImpl, hab, ih]
      · simp [strcmpImpl, hab]

/-- Reading bytes up to the first NUL. -/
theorem takeWhile_range {g : Nat → UInt8} {n size : Nat} (hn : n < size)
    (hbyte : ∀ k < n, g k ≠ 0) (hnul : g n = 0) :
    ((List.range size).map g).takeWhile (· ≠ 0) = (List.range n).map g := by
  obtain ⟨r, rfl⟩ := Nat.exists_eq_add_of_lt hn
  have hsplit : List.range (n + r + 1) = List.range n ++ n :: (List.range r).map (n + 1 + ·) := by
    rw [show n + r + 1 = n + 1 + r by omega, List.range_add, List.range_succ, List.append_assoc]
    rfl
  rw [hsplit, List.map_append, List.takeWhile_append_of_pos]
  · simp [hnul]
  · intro b hb
    obtain ⟨k, hk, rfl⟩ := List.mem_map.mp hb
    simpa using hbyte k (List.mem_range.mp hk)

/-- The name stored by `strcpy_impl` is the string, cut at 19 bytes. -/
theorem nameString_strcpyImpl {dest : Fin maxFilename → UInt8}
    (hf : f.name = strcpyImpl dest name) (hname : 0 ∉ name) :
    f.nameString = name.take (maxFilename - 1) := by
  have hbyte : ∀ k < min name.length 19, f.byte k = name[k]?.getD 0 := by
    intro k hk
    have hk' : k < 20 := by omega
    have hk'' : k < name.length ∧ k < 19 := by omega
    simp [VfsFile.byte, hk', hf, strcpyImpl, hk'']
  have hnul : f.byte (min name.length 19) = 0 := by
    have hlen : min name.length 19 < 20 := by omega
    simp [VfsFile.byte, hlen, hf, strcpyImpl]
  unfold VfsFile.nameString
  rw [takeWhile_range (n := min name.length 19) (by omega) _ hnul]
  · apply List.ext_getElem
    · simp [Nat.min_comm]
    · intro k hk hk'
      have hlt : k < min name.length 19 := by simpa using hk
      have hlt' : k < name.length := by omega
      simp [hbyte k hlt, hlt']
  · intro k hk hz
    have hlt : k < name.length := by omega
    rw [hbyte k hk, List.getElem?_eq_getElem hlt, Option.getD_some] at hz
    exact hname (hz ▸ List.getElem_mem hlt)

/-- A string that ends within the name field depends on that field only. -/
theorem nameString_congr {g : VfsFile} (hname : f.name = g.name)
    (hlen : g.nameString.length < maxFilename) : f.nameString = g.nameString := by
  by_cases hex : ∃ k, k < 32 ∧ g.byte k = 0
  · obtain ⟨hlt, hnul⟩ := Nat.find_spec hex
    have hmin : ∀ k < Nat.find hex, g.byte k ≠ 0 := by
      intro k hk hz
      exact Nat.find_min hex hk ⟨by omega, hz⟩
    have hg : g.nameString = (List.range (Nat.find hex)).map g.byte :=
      takeWhile_range hlt hmin hnul
    have hfind : Nat.find hex < 20 := by simpa [hg] using hlen
    have hbyte : ∀ k ≤ Nat.find hex, f.byte k = g.byte k := by
      intro k hk
      simp [VfsFile.byte, show k < 20 by omega, hname]
    have hf : f.nameString = (List.range (Nat.find hex)).map f.byte := by
      refine takeWhile_range hlt (fun k hk => ?_) ?_
      · rw [hbyte k hk.le]
        exact hmin k hk
      · rw [hbyte _ le_rfl, hnul]
    rw [hf, hg]
    refine List.map_congr_left fun k hk => hbyte k ?_
    exact (List.mem_range.mp hk).le
  · have hall : g.nameString = (List.range 32).map g.byte := by
      refine List.takeWhile_eq_self_iff.mpr fun b hb => ?_
      obtain ⟨k, hk, rfl⟩ := List.mem_map.mp hb
      simpa using fun hz => hex ⟨k, List.mem_range.mp hk, hz⟩
    rw [hall, List.length_map, List.length_range] at hlen
    exact absurd hlen (by decide)

theorem findName_eq_some (h : findName t name = some i) :
    (t i).used ≠ 0 ∧ (t i).nameString = name := by
  have hi := List.find?_some h
  simpa [strcmpImpl_eq_zero] using hi

theorem findName_eq_none (h : findName t name = none) (i : Fin maxFiles) :
    (t i).used ≠ 0 → (t i).nameString ≠ name := by
  have hi := List.find?_eq_none.mp h i (List.mem_finRange i)
  simpa [strcmpImpl_eq_zero] using hi

theorem findFree_eq_some (h : findFree t = some i) : (t i).used = 0 := by
  simpa using List.find?_some h

theorem findFree_eq_none (h : findFree t = none) (i : Fin maxFiles) : (t i).used ≠ 0 := by
  simpa using List.find?_eq_none.mp h i (List.mem_finRange i)

end Names

section Sector

theorem tableSector_byte {k : Nat} (hk : k < 32) : tableSector t (32 * i + k) = (t i).byte k := by
  have hdiv : (32 * i.val + k) / 32 = i.val := by omega
  have hmod : (32 * i.val + k) % 32 = k := by omega
  simp [tableSector, hdiv, hmod]

/-- Decoding an encoded entry gives it back, its integers cut to 32 bits. -/
theorem diskFile_tableSector : diskFile (tableSector t) i =
    { name := (t i).name
      size := (t i).size % 2 ^ 32
      startLba := (t i).startLba % 2 ^ 32
      used := (t i).used % 2 ^ 32 } := by
  have hword : ∀ a v, (∀ k < 4, (t i).byte (a + k) = byteLE v k) → a + 4 ≤ 32 →
      loadLE (tableSector t) (32 * i + a) 4 = v % 2 ^ 32 := by
    intro a v hv ha
    have hload : loadLE (tableSector t) (32 * i + a) 4 = v % 256 ^ 4 := by
      apply loadLE_of_bytes
      intro k hk
      rw [Nat.add_assoc, tableSector_byte (by omega), hv k hk]
    rw [hload, show 256 ^ 4 = 2 ^ 32 by decide]
  unfold diskFile
  congr
  · funext k
    have hk : (k : Nat) < 20 := k.isLt
    rw [tableSector_byte (by omega)]
    simp [VfsFile.byte]
  · refine hword 20 _ (fun k hk => ?_) (by decide)
    simp [VfsFile.byte, show 20 + k < 24 by omega]
  · refine hword 24 _ (fun k hk => ?_) (by decide)
    simp [VfsFile.byte, show ¬ 24 + k < 20 by omega, show 24 + k < 28 by omega]
  · refine hword 28 _ (fun k hk => ?_) (by decide)
    simp [VfsFile.byte, show ¬ 28 + k < 20 by omega, show ¬ 28 + k < 24 by omega]

theorem diskFile_lt (buf : Nat → UInt8) (i : Fin maxFiles) :
    (diskFile buf i).size < 2 ^ 32 ∧ (diskFile buf i).startLba < 2 ^ 32 ∧
    (diskFile buf i).used < 2 ^ 32 := ⟨loadLE_lt, loadLE_lt, loadLE_lt⟩

theorem accepted_iff : f.accepted = true ↔ f.used = 1 ∧ f.size ≤ maxFileSize := by
  simp [VfsFile.accepted]

end Sector

section Calls

@[simp] theorem puts_table {text : String} {color : Nat} :
    (v.puts text color).table = v.table := rfl

@[simp] theorem puts_disk {text : String} {color : Nat} : (v.puts text color).disk = v.disk := rfl

@[simp] theorem puts_calls {text : String} {color : Nat} :
    (v.puts text color).calls = v.calls := rfl

@[simp] theorem setEntry_table : (v.setEntry i f).table = Function.update v.table i f := rfl

@[simp] theorem setEntry_disk : (v.setEntry i f).disk = v.disk := rfl

@[simp] theorem ataReadSector_table : (ataReadSector ok v lba buf).1.table = v.table := by
  unfold ataReadSector
  split <;> rfl

@[simp] theorem ataReadSector_disk : (ataReadSector ok v lba buf).1.disk = v.disk := by
  unfold ataReadSector
  split <;> rfl

@[simp] theorem ataWriteSector_table : (ataWriteSector ok v lba buf).1.table = v.table := by
  unfold ataWriteSector
  split <;> rfl

@[simp] theorem ataWriteSector_calls : (ataWriteSector ok v lba buf).1.calls = v.calls + 1 := by
  unfold ataWriteSector
  split <;> rfl

@[simp] theorem ataWriteSector_disk : (ataWriteSector ok v lba buf).1.disk =
    if ok v.calls then Function.update v.disk lba buf else v.disk := by
  unfold ataWriteSector
  split <;> simp_all

@[simp] theorem vfsSyncFromDisk_disk : (vfsSyncFromDisk ok v).disk = v.disk := by
  unfold vfsSyncFromDisk ataReadSector
  split <;> rename_i h <;> split at h <;> simp_all <;> simp [← h.1]

@[simp] theorem vfsSyncFromDisk_table : (vfsSyncFromDisk ok v).table =
    if ok v.calls then loadTable (v.disk vfsMetadataLba) v.table else v.table := by
  unfold vfsSyncFromDisk ataReadSector
  split <;> rename_i h <;> split at h <;> simp_all <;> simp [← h.1]

@[simp] theorem vfsSyncFromDisk_calls : (vfsSyncFromDisk ok v).calls = v.calls + 1 := by
  unfold vfsSyncFromDisk ataReadSector
  split <;> rename_i h <;> split at h <;> simp_all <;> simp [← h.1]

@[simp] theorem vfsSyncToDisk_table : (vfsSyncToDisk ok v).table = v.table := by
  unfold vfsSyncToDisk ataWriteSector
  split <;> rename_i h <;> split at h <;> simp_all <;> simp [← h]

@[simp] theorem vfsSyncToDisk_disk : (vfsSyncToDisk ok v).disk =
    if ok v.calls then Function.update v.disk vfsMetadataLba (tableSector v.table)
    else v.disk := by
  unfold vfsSyncToDisk ataWriteSector
  split <;> rename_i h <;> split at h <;> simp_all <;> simp [← h]

@[simp] theorem vfsWriteData_table {content : Nat → UInt8} {len : Nat} :
    (vfsWriteData ok v i content len).table = v.table := by
  unfold vfsWriteData
  split <;> simp

/-- The data part writes to its two sectors only. -/
theorem vfsWriteData_other {content : Nat → UInt8} {len : Nat} (hlba : lba ≠ (v.table i).startLba)
    (hnext : lba ≠ add32 (v.table i).startLba 1) :
    (vfsWriteData ok v i content len).disk lba = v.disk lba := by
  simp only [vfsWriteData]
  split
  · simp only [ataWriteSector_disk, ataWriteSector_table, ataWriteSector_calls]
    split <;> split <;> simp [Function.update_of_ne, hlba, hnext]
  · simp only [ataWriteSector_disk]
    split <;> simp [Function.update_of_ne, hlba]

theorem listLine_state : (listLine v f).table = v.table ∧ (listLine v f).disk = v.disk := ⟨rfl, rfl⟩

/-- Listing changes nothing that loading the table does not. -/
theorem vfsListFiles_state : (vfsListFiles ok v).table = (vfsSyncFromDisk ok v).table ∧
    (vfsListFiles ok v).disk = (vfsSyncFromDisk ok v).disk := by
  have hfold : ∀ (files : List (Fin maxFiles)) (v : Vfs),
      (files.foldl (fun v i => listLine v (v.table i)) v).table = v.table ∧
        (files.foldl (fun v i => listLine v (v.table i)) v).disk = v.disk := by
    intro files
    induction files with
    | nil => exact fun v => ⟨rfl, rfl⟩
    | cons i files ih =>
      intro v
      obtain ⟨ht, hd⟩ := ih (listLine v (v.table i))
      exact ⟨ht.trans listLine_state.1, hd.trans listLine_state.2⟩
  simp only [vfsListFiles]
  split
  · simp only [puts_table, puts_disk]
    exact hfold _ _
  · exact hfold _ _

/-- Reading changes nothing that loading the table does not. -/
theorem vfsReadFile_state (ok : Nat → Bool) (v : Vfs) (name : Option (List UInt8))
    (buffer : Option (Nat → UInt8)) (maxLen : Nat) (stack : Nat → UInt8) :
    ((vfsReadFile ok v name buffer maxLen stack).1.table = v.table ∨
      (vfsReadFile ok v name buffer maxLen stack).1.table = (vfsSyncFromDisk ok v).table) ∧
    (vfsReadFile ok v name buffer maxLen stack).1.disk = v.disk := by
  match name, buffer with
  | none, _ => exact ⟨Or.inl rfl, rfl⟩
  | some name, none => exact ⟨Or.inl rfl, rfl⟩
  | some name, some buffer =>
    have hdisk : (vfsSyncFromDisk ok v).disk = v.disk := vfsSyncFromDisk_disk
    simp only [vfsReadFile]
    generalize vfsSyncFromDisk ok v = v1 at *
    split
    · exact ⟨Or.inl rfl, rfl⟩
    · split
      · rename_i i _
        simp only
        generalize (if (v1.table i).size > maxLen - 1 then maxLen - 1 else (v1.table i).size) = n
        rw [← hdisk]
        by_cases hbig : n > 512 <;> simp [hbig]
      · exact ⟨Or.inr rfl, hdisk⟩

end Calls

end HumanOS

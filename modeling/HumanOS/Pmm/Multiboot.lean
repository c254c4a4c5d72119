import HumanOS.Pmm.Accounting

/-!
# Boot from the Multiboot memory map

The two walks of `pmm_init_multiboot` read the map from byte memory. A map whose `size`
fields are wrong can make a walk run forever, so the walks take fuel and return `none` when
it runs out; on a well-formed map one step an entry is enough.
-/
namespace HumanOS

open Lib Lib.Bitmap Pmm

/-- `multiboot_memory_map_t`: the `size` field does not count itself. -/
structure MmapEntry where
  size : Nat
  addr : Nat
  len : Nat
  type : Nat
deriving DecidableEq, Repr

/-- The packed entry at address `p`. -/
def mmapEntryAt (mem : Nat → UInt8) (p : Nat) : MmapEntry :=
  { size := loadLE mem p 4
    addr := loadLE mem (p + 4) 8
    len := loadLE mem (p + 12) 8
    type := loadLE mem (p + 20) 4 }

/-- The 64-bit sum `mmap->addr + mmap->len`. -/
def MmapEntry.endAddr (e : MmapEntry) : Nat := (e.addr + e.len) % 2 ^ 64

/-- The body of the first walk: raise the limit to the end of a type 1 entry. -/
def raiseUsable (maxUsable : Nat) (e : MmapEntry) : Nat :=
  if e.type = 1 then
    if e.endAddr > maxUsable then e.endAddr else maxUsable
  else maxUsable

/-- The first walk: the highest usable address. -/
def mmapMaxUsable (mem : Nat → UInt8) (mmapEnd : Nat) : Nat → Nat → Nat → Option Nat
  | 0, _, _ => none
  | fuel + 1, mmap, maxUsable =>
    if mmap < mmapEnd then
      let e := mmapEntryAt mem mmap
      mmapMaxUsable mem mmapEnd fuel (add32 mmap (e.size + 4)) (raiseUsable maxUsable e)
    else some maxUsable

/-- The body of the second walk: mark the whole pages of a type 1 entry as free. -/
def freeEntry (s : Pmm) (e : MmapEntry) : Pmm :=
  if e.type = 1 then
    let startPage := (e.addr / pageSize) % 2 ^ 32
    let endPage := (e.endAddr / pageSize) % 2 ^ 32
    (List.range' startPage (min endPage s.totalPages - startPage)).foldl
      (fun s page => pmmMarkFree s (page * pageSize)) s
  else s

/-- The second walk. -/
def mmapFreeUsable (mem : Nat → UInt8) (mmapEnd : Nat) : Nat → Nat → Pmm → Option Pmm
  | 0, _, _ => none
  | fuel + 1, mmap, s =>
    if mmap < mmapEnd then
      let e := mmapEntryAt mem mmap
      mmapFreeUsable mem mmapEnd fuel (add32 mmap (e.size + 4)) (freeEntry s e)
    else some s

/-- The loop that protects the first 2 MB, also run by `kernel_main` after `pmm_init`. -/
def protectFirst2MB (s : Pmm) : Pmm :=
  (List.range 512).foldl (fun s i => pmmMarkUsed s (i * pageSize)) s

/-- Every page of the sized bitmap marked used, before the usable ones are released. -/
def reserveAll (s : Pmm) (maxUsable : Nat) : Pmm :=
  let maxUsable := if maxUsable > 0xFFFFFFFF then 0xFFFFFFFF else maxUsable
  let totalPages := maxUsable / pageSize
  let bitmapSize := (totalPages + 31) / 32
  let (bitmapSize, totalPages) :=
    if bitmapSize > 32768 then (32768, 32768 * 32) else (bitmapSize, totalPages)
  { s with
    totalPages, bitmapSize
    usedPages := totalPages
    freePages := 0
    bitmap := fun i => if i < bitmapSize then 0xFFFFFFFF#32 else s.bitmap i }

/-- `pmm_init_multiboot`. -/
def pmmInitMultiboot (fuel : Nat) (mem : Nat → UInt8) (s : Pmm) (mmapAddr mmapLength : Nat) :
    Option Pmm := do
  let mmapEnd := add32 mmapAddr mmapLength
  let maxUsable ← mmapMaxUsable mem mmapEnd fuel mmapAddr 0
  let s ← mmapFreeUsable mem mmapEnd fuel mmapAddr (reserveAll s maxUsable)
  return protectFirst2MB s

/-- The entries lie one after the other from `p` and end exactly at `e`. -/
def MapTiles (mem : Nat → UInt8) (e : Nat) : Nat → List MmapEntry → Prop
  | p, [] => p = e
  | p, en :: ens => mmapEntryAt mem p = en ∧ 20 ≤ en.size ∧ MapTiles mem e (p + 4 + en.size) ens

/-- A map in memory: entries of at least 20 bytes that tile it, its end being an address. -/
structure WellFormedMap (mem : Nat → UInt8) (mmapAddr mmapLength : Nat)
    (entries : List MmapEntry) : Prop where
  tiles : MapTiles mem (mmapAddr + mmapLength) mmapAddr entries
  inMemory : mmapAddr + mmapLength < 2 ^ 32

/-- The highest end of a type 1 entry, in the 64-bit arithmetic of the map. -/
def highestUsable (entries : List MmapEntry) : Nat := entries.foldl raiseUsable 0

section Walks

variable {mem : Nat → UInt8} {e p fuel n : Nat} {entries : List MmapEntry} {s t : Pmm}

theorem MapTiles.le (h : MapTiles mem e p entries) : p ≤ e := by
  induction entries generalizing p with
  | nil => exact h.le
  | cons en ens ih =>
    have := ih h.2.2
    omega

/-- The walk takes the head of a map that tiles and steps to the next entry, with no wrap. -/
theorem MapTiles.step {en : MmapEntry} (h : MapTiles mem e p (en :: entries)) (he : e < 2 ^ 32) :
    p < e ∧ add32 p (en.size + 4) = p + 4 + en.size := by
  have hle := h.2.2.le
  have hlt : p + (en.size + 4) < 2 ^ 32 := by omega
  refine ⟨by omega, ?_⟩
  rw [add32_of_lt hlt]
  omega

/-- On a map that tiles, the first walk folds over the entries. -/
theorem mmapMaxUsable_tiles (h : MapTiles mem e p entries) (he : e < 2 ^ 32)
    (hf : entries.length < fuel) :
    mmapMaxUsable mem e fuel p n = some (entries.foldl raiseUsable n) := by
  induction entries generalizing p fuel n with
  | nil =>
    cases fuel with
    | zero => simp at hf
    | succ fuel => simp [mmapMaxUsable, show p = e from h]
  | cons en ens ih =>
    cases fuel with
    | zero => simp at hf
    | succ fuel =>
      obtain ⟨hlt, hnext⟩ := h.step he
      obtain ⟨hen, -, htail⟩ := h
      simp only [mmapMaxUsable, hen, hnext, hlt, if_true, List.foldl_cons]
      exact ih htail (by simpa using hf)

/-- On a map that tiles, the second walk folds over the entries. -/
theorem mmapFreeUsable_tiles (h : MapTiles mem e p entries) (he : e < 2 ^ 32)
    (hf : entries.length < fuel) :
    mmapFreeUsable mem e fuel p s = some (entries.foldl freeEntry s) := by
  induction entries generalizing p fuel s with
  | nil =>
    cases fuel with
    | zero => simp at hf
    | succ fuel => simp [mmapFreeUsable, show p = e from h]
  | cons en ens ih =>
    cases fuel with
    | zero => simp at hf
    | succ fuel =>
      obtain ⟨hlt, hnext⟩ := h.step he
      obtain ⟨hen, -, htail⟩ := h
      simp only [mmapFreeUsable, hen, hnext, hlt, if_true, List.foldl_cons]
      exact ih htail (by simpa using hf)

/-- A well-formed map is walked to its end, whatever fuel beyond one step an entry. -/
theorem pmmInitMultiboot_wellFormed {mmapAddr mmapLength : Nat}
    (h : WellFormedMap mem mmapAddr mmapLength entries) (hf : entries.length < fuel) :
    pmmInitMultiboot fuel mem s mmapAddr mmapLength =
      some (protectFirst2MB (entries.foldl freeEntry (reserveAll s (highestUsable entries)))) := by
  have hend : add32 mmapAddr mmapLength = mmapAddr + mmapLength := add32_of_lt h.inMemory
  simp [pmmInitMultiboot, hend, mmapMaxUsable_tiles h.tiles h.inMemory hf,
    mmapFreeUsable_tiles h.tiles h.inMemory hf, highestUsable]

/-- A second walk that ends has visited some list of entries. -/
theorem mmapFreeUsable_entries (hw : mmapFreeUsable mem e fuel p s = some t) :
    ∃ entries : List MmapEntry, t = entries.foldl freeEntry s := by
  induction fuel generalizing p s with
  | zero => simp [mmapFreeUsable] at hw
  | succ fuel ih =>
    simp only [mmapFreeUsable] at hw
    split at hw
    · obtain ⟨entries, rfl⟩ := ih hw
      exact ⟨mmapEntryAt mem p :: entries, rfl⟩
    · exact ⟨[], (Option.some.inj hw).symm⟩

/-- Whatever the map holds, a `pmm_init_multiboot` that returns has done its three stages. -/
theorem pmmInitMultiboot_stages {mmapAddr mmapLength : Nat}
    (hb : pmmInitMultiboot fuel mem s mmapAddr mmapLength = some t) :
    ∃ maxUsable, ∃ entries : List MmapEntry,
      t = protectFirst2MB (entries.foldl freeEntry (reserveAll s maxUsable)) := by
  simp only [pmmInitMultiboot] at hb
  obtain ⟨maxUsable, -, hb⟩ := Option.bind_eq_some_iff.mp hb
  obtain ⟨u, hw, hb⟩ := Option.bind_eq_some_iff.mp hb
  obtain ⟨entries, rfl⟩ := mmapFreeUsable_entries hw
  exact ⟨maxUsable, entries, (Option.some.inj hb).symm⟩

end Walks

section Accounting

variable {s t : Pmm} {n : Nat} {e : MmapEntry} {entries : List MmapEntry}

/-- A fold of operations that each keep the accounting and the size of memory. -/
theorem foldl_accounted {α : Type} {f : Pmm → α → Pmm} {l : List α} (h : s.Accounted)
    (hf : ∀ t a, a ∈ l → t.Accounted → t.totalPages = s.totalPages →
      (f t a).Accounted ∧ (f t a).totalPages = s.totalPages) :
    (l.foldl f s).Accounted ∧ (l.foldl f s).totalPages = s.totalPages := by
  induction l using List.reverseRecOn with
  | nil => exact ⟨h, rfl⟩
  | append_singleton l a ih =>
    obtain ⟨hacc, htotal⟩ := ih (fun t b hb => hf t b (by simp [hb]))
    rw [List.foldl_concat]
    exact hf _ a (by simp) hacc htotal

theorem reserveAll_accounted (s : Pmm) (n : Nat) : (reserveAll s n).Accounted := by
  have hfull : ∀ k ≤ 32 * (reserveAll s n).bitmapSize,
      clearCount (reserveAll s n).bitmap k = 0 := by
    intro k hk
    apply clearCount_eq_zero
    intro i hi
    have hword : (reserveAll s n).bitmap (i / 32) = BitVec.allOnes 32 := by
      have hlt : i / 32 < (reserveAll s n).bitmapSize := by omega
      simp only [reserveAll] at hlt ⊢
      simp only [hlt, if_true]
      rfl
    simp only [bit, hword, BitVec.getLsbD_allOnes]
    simpa using Nat.mod_lt i (by decide)
  have hcovered : (reserveAll s n).totalPages ≤ 32 * (reserveAll s n).bitmapSize := by
    simp only [reserveAll]
    split <;> split <;> simp only <;> omega
  refine ⟨?_, ?_, hcovered, ?_⟩
  · simp [reserveAll]
  · rw [hfull _ hcovered]
    rfl
  · simp only [reserveAll]
    split <;> split <;> simp only <;> omega

theorem reserveAll_totalPages (hn : 2 ^ 21 ≤ n) : 512 ≤ (reserveAll s n).totalPages := by
  simp only [reserveAll, pageSize]
  split <;> split <;> simp only <;> omega

theorem freeEntry_accounted (h : s.Accounted) :
    (freeEntry s e).Accounted ∧ (freeEntry s e).totalPages = s.totalPages := by
  unfold freeEntry
  split
  · apply foldl_accounted h
    intro t page hpage hacc htotal
    have hlt : page < s.totalPages := by
      simp only [List.mem_range'_1] at hpage
      omega
    have hpage' : page * pageSize / pageSize = page := Nat.mul_div_cancel page (by decide)
    exact ⟨pmmMarkFree_accounted hacc (by omega), by simpa using htotal⟩
  · exact ⟨h, rfl⟩

theorem freeEntries_accounted (entries : List MmapEntry) (h : s.Accounted) :
    (entries.foldl freeEntry s).Accounted ∧
      (entries.foldl freeEntry s).totalPages = s.totalPages := by
  apply foldl_accounted h
  intro t e _ hacc htotal
  obtain ⟨hacc', htotal'⟩ := freeEntry_accounted (e := e) hacc
  exact ⟨hacc', htotal'.trans htotal⟩

/-- Protecting the first 2 MB marks their pages and no other. -/
theorem protectFirst2MB_pageUsed {k : Nat} :
    (protectFirst2MB s).pageUsed k = (decide (k < 512) || s.pageUsed k) := by
  have hmark : ∀ (s : Pmm) (i : Nat),
      (pmmMarkUsed s (i * pageSize)).pageUsed k = (decide (k = i) || s.pageUsed k) := by
    intro s i
    have hpage : i * pageSize / pageSize = i := Nat.mul_div_cancel _ (by decide)
    rcases pmmMarkUsed_cases s (i * pageSize) with ⟨hu, heq⟩ | ⟨-, heq⟩ <;> rw [hpage] at *
    · by_cases hk : k = i <;> simp_all
    · simp [heq]
  have hfold : ∀ n, ((List.range n).foldl (fun s i => pmmMarkUsed s (i * pageSize)) s).pageUsed k =
      (decide (k < n) || s.pageUsed k) := by
    intro n
    induction n with
    | zero => simp
    | succ n ih =>
      have hlt : decide (k < n + 1) = (decide (k = n) || decide (k < n)) := by
        rw [← Bool.decide_or, decide_eq_decide]
        omega
      rw [List.range_succ, List.foldl_append, List.foldl_cons, List.foldl_nil, hmark, ih, hlt,
        Bool.or_assoc]
  exact hfold 512

@[simp] theorem protectFirst2MB_totalPages : (protectFirst2MB s).totalPages = s.totalPages := by
  refine List.foldlRecOn (motive := fun t : Pmm => t.totalPages = s.totalPages) _ _ rfl
    fun t ht i _ => ?_
  rw [pmmMarkUsed_totalPages, ht]

/-- Protecting the first 2 MB keeps the accounting if those of its pages that lie beyond the end of
memory are marked already. -/
theorem protectFirst2MB_marked (h : s.Accounted)
    (ht : ∀ k < 512, s.totalPages ≤ k → s.pageUsed k = true) :
    (protectFirst2MB s).Accounted ∧ (protectFirst2MB s).totalPages = s.totalPages := by
  have hfold : (protectFirst2MB s).Accounted ∧ (protectFirst2MB s).totalPages = s.totalPages ∧
      ∀ k, s.pageUsed k = true → (protectFirst2MB s).pageUsed k = true := by
    refine List.foldlRecOn (motive := fun t : Pmm => t.Accounted ∧ t.totalPages = s.totalPages ∧
      ∀ k, s.pageUsed k = true → t.pageUsed k = true) _ _ ⟨h, rfl, fun _ hk => hk⟩ ?_
    rintro t ⟨hacc, htotal, hkeep⟩ i hi
    have hpage : i * pageSize / pageSize = i := Nat.mul_div_cancel _ (by decide)
    rcases pmmMarkUsed_cases t (i * pageSize) with ⟨-, heq⟩ | ⟨hb, heq⟩
    · rw [heq]
      exact ⟨hacc, htotal, hkeep⟩
    · rw [hpage] at hb
      have hlt : i < t.totalPages := by
        by_contra hge
        have hused := hkeep i (ht i (List.mem_range.mp hi) (by omega))
        simp [hb] at hused
      rw [heq, hpage]
      exact ⟨take_accounted hacc hlt hb, htotal, fun k hk => by simp [hkeep k hk]⟩
  exact ⟨hfold.1, hfold.2.1⟩

theorem protectFirst2MB_accounted (h : s.Accounted) (ht : 512 ≤ s.totalPages) :
    (protectFirst2MB s).Accounted ∧ (protectFirst2MB s).totalPages = s.totalPages :=
  protectFirst2MB_marked h fun k hk hle => by omega

end Accounting

/-- The calls that change the PMM after boot. -/
inductive PmmOp
  | allocPage
  | freePage (addr : Nat)
  | markUsed (addr : Nat)
  | markFree (addr : Nat)
deriving DecidableEq, Repr

/-- One call, on an address whose page index is below `total_pages`. -/
inductive PmmStep : Pmm → PmmOp → Pmm → Prop
  | allocPage {s : Pmm} : PmmStep s .allocPage (pmmAllocPage s).1
  | freePage {s : Pmm} {addr : Nat} (h : addr / pageSize < s.totalPages) :
      PmmStep s (.freePage addr) (pmmFreePage s addr)
  | markUsed {s : Pmm} {addr : Nat} (h : addr / pageSize < s.totalPages) :
      PmmStep s (.markUsed addr) (pmmMarkUsed s addr)
  | markFree {s : Pmm} {addr : Nat} (h : addr / pageSize < s.totalPages) :
      PmmStep s (.markFree addr) (pmmMarkFree s addr)

theorem PmmStep.accounted {s t : Pmm} {op : PmmOp} (h : PmmStep s op t) (hs : s.Accounted) :
    t.Accounted := by
  cases h with
  | allocPage => exact pmmAllocPage_accounted hs
  | freePage ha => exact pmmFreePage_accounted hs ha
  | markUsed ha => exact pmmMarkUsed_accounted hs ha
  | markFree ha => exact pmmMarkFree_accounted hs ha

/-- The counters agree with the bitmap, and an allocation stays inside memory. -/
def PmmSound (s : Pmm) : Prop :=
  s.usedPages + s.freePages = s.totalPages ∧
  s.freePages = clearCount s.bitmap s.totalPages ∧
  ∀ s' addr, pmmAllocPage s = (s', addr) → addr ≠ 0 →
    addr % pageSize = 0 ∧ addr / pageSize < s.totalPages

theorem Pmm.Accounted.sound {s : Pmm} (h : s.Accounted) : PmmSound s := by
  refine ⟨h.total, h.free, fun s' addr heq hne => ?_⟩
  rcases pmmAllocPage_cases h with ⟨-, halloc⟩ | ⟨p, hp, -, -, halloc⟩
  · simp_all
  · obtain ⟨-, rfl⟩ := Prod.mk.inj (halloc.symm.trans heq)
    exact ⟨Nat.mul_mod_left p pageSize, by rwa [Nat.mul_div_cancel p (by decide)]⟩

/-- PMM accounting: both initialisers, on every input, lead only to sound states. -/
theorem pmm_accounting :
    (∀ (s : Pmm) (memSize : Nat) (ops : List PmmOp) (t : Pmm),
      Run PmmStep (pmmInit s memSize) ops t → PmmSound t) ∧
    (∀ (mem : Nat → UInt8) (s : Pmm) (mmapAddr mmapLength : Nat) (entries : List MmapEntry),
      WellFormedMap mem mmapAddr mmapLength entries → 2 ^ 21 ≤ highestUsable entries →
      ∀ fuel > entries.length, ∃ b, pmmInitMultiboot fuel mem s mmapAddr mmapLength = some b ∧
        ∀ ops t, Run PmmStep b ops t → PmmSound t) := by
  have hrun : ∀ {b t : Pmm} {ops : List PmmOp}, b.Accounted → Run PmmStep b ops t → PmmSound t :=
    fun hb hr => (hr.invariant Accounted (fun _ _ _ h hs => h.accounted hs) hb).sound
  refine ⟨fun s memSize ops t hr => hrun (pmmInit_accounted s memSize) hr, ?_⟩
  intro mem s mmapAddr mmapLength entries hwf hhigh fuel hfuel
  refine ⟨_, pmmInitMultiboot_wellFormed hwf hfuel, fun ops t hr => hrun ?_ hr⟩
  obtain ⟨hacc, htotal⟩ := freeEntries_accounted entries
    (reserveAll_accounted s (highestUsable entries))
  apply (protectFirst2MB_accounted hacc _).1
  rw [htotal]
  exact reserveAll_totalPages hhigh

/-- A map of one entry at address 0x9000: 4 MB of usable memory from address 0. -/
def oneEntryMap (a : Nat) : UInt8 :=
  [20, 0, 0, 0, 0, 0, 0, 0, 0, 0, 0, 0, 0, 0, 0x40, 0, 0, 0, 0, 0, 1, 0, 0, 0].getD (a - 0x9000) 0

theorem pmm_accounting_one_entry :
    PmmSound (pmmFreePage (pmmInit .powerOn 8192) 4096) ∧
    ∃ b, pmmInitMultiboot 2 oneEntryMap .powerOn 0x9000 24 = some b ∧
      PmmSound (pmmAllocPage b).1 := by
  refine ⟨pmm_accounting.1 .powerOn 8192 [.freePage 4096] _ (.single (.freePage (by decide))), ?_⟩
  have hmap : WellFormedMap oneEntryMap 0x9000 24 [⟨20, 0, 0x400000, 1⟩] :=
    ⟨⟨by decide, by decide, by simp [MapTiles]⟩, by decide⟩
  obtain ⟨b, hb, hsound⟩ := pmm_accounting.2 oneEntryMap .powerOn 0x9000 24 _ hmap (by decide) 2
    (by decide)
  exact ⟨b, hb, hsound [.allocPage] _ (.single .allocPage)⟩

end HumanOS

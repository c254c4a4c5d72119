import HumanOS.Boot.Pages
import HumanOS.Elf.Run
import HumanOS.Pit.Slices
import HumanOS.Scheduler.Switch

/-!
# From boot to the shell

`kernel_main` takes pages for the directory and a table, then for its own process and for that of
the shell, which the tables reach below 4 MB only. The timer interrupts it while it halts: the
interrupts that come before there are two processes count nothing, so the first slice begins when
the shell is there.
-/
namespace HumanOS

open Lib Lib.Bitmap Pmm

variable {pg : Paging} {h h' : Heap} {fuel : Nat}

/-- What the processes need of the kernel. -/
structure KernelMain where
  run : HeapRun
  paging : Paging
  timer : Timer
  sched : Sched

/-- `kernel_main` stops at a page fault, where `isr_handler` halts for good, or gets to its loop. -/
inductive BootEnd where
  | halted
  | running (k : KernelMain)

/-- The first and the last byte of every process are seen in their places: a process with its
header takes two pages, and the fields and the frame that are stored lie on both. -/
def Paging.HoldsProcesses (pg : Paging) (run : HeapRun) : Prop :=
  ∀ p ∈ run.live, ∀ a ∈ [p - headerSize, p + processSize - 1], pg.translate a = some a

instance (pg : Paging) (run : HeapRun) : Decidable (pg.HoldsProcesses run) :=
  inferInstanceAs (Decidable (∀ p ∈ run.live, ∀ a ∈ _, _))

/-- `kernel_main` as far as it leads to the shell; `shell` is the address of
`user_shell_process`. The header that `create_block` stores and the fields of the process fault
where the tables have no page for them. -/
def kernelMain (fuel : Nat) (mem : Nat → UInt8) (magic : Word) (mbi : MultibootInfo) (shell : Word)
    (k : KernelMain) : Option BootEnd := do
  let pmm ← bootPmm fuel mem magic mbi
  let timer ← pitInit k.timer 100
  let heap := heapInit k.run.heap
  let (pmm, paging) := pagingInit pmm k.paging
  let sched := schedulerInit k.sched
  let (run, proc) ← HeapRun.alloc fuel ⟨{ heap with pmm }, []⟩ processSize
  if ¬ paging.HoldsProcesses run then return .halted
  let sched := schedulerConvertCurrentProcess sched (BitVec.ofNat 32 proc) "KernelMain"
  let (run, sched) ← addUserProcess fuel run sched shell "UserShellRing3"
  if ¬ paging.HoldsProcesses run then return .halted
  return .running ⟨run, paging, timer, sched⟩

/-- The timer interrupts, one after the other; each is given where its frame ends. -/
def timerTicks (c : Timer × Sched) (esps : List Word) : Timer × Sched :=
  esps.foldl (fun c esp => irq0Tick c.1 c.2 esp) c

section Ticks

variable {c : Timer} {q : Sched} {esps : List Word}

/-- With one process nobody is ever switched to. -/
theorem timerTicks_alone (hcount : q.processCount ≤ 1) (hneeded : c.scheduleNeeded = false) :
    (timerTicks (c, q) esps).2 = q := by
  induction esps generalizing c with
  | nil => rfl
  | cons esp esps ih =>
    obtain ⟨-, hneeded', hsame⟩ := irq0Tick_alone hcount hneeded esp
    change (timerTicks ((irq0Tick c q esp).1, (irq0Tick c q esp).2) esps).2 = q
    rw [hsame]
    exact ih hneeded'

/-- In the first slice the interrupts are counted. -/
theorem timerTicks_counts (hcount : 2 ≤ q.processCount) (hneeded : c.scheduleNeeded = false)
    (hlt : c.tickCounter + esps.length < 10) : (timerTicks (c, q) esps).2 = q ∧
      (timerTicks (c, q) esps).1.tickCounter = c.tickCounter + esps.length ∧
      (timerTicks (c, q) esps).1.scheduleNeeded = false := by
  induction esps generalizing c with
  | nil => exact ⟨rfl, rfl, hneeded⟩
  | cons esp esps ih =>
    rw [List.length_cons] at hlt
    rcases irq0Tick_cases (Nat.not_le_of_lt hcount) (by omega) hneeded esp with
      ⟨htick, -, hneeded', hsame⟩ | ⟨-, hten, -⟩
    · change (timerTicks ((irq0Tick c q esp).1, (irq0Tick c q esp).2) esps).2 = q ∧
        (timerTicks ((irq0Tick c q esp).1, (irq0Tick c q esp).2) esps).1.tickCounter = _ ∧
        (timerTicks ((irq0Tick c q esp).1, (irq0Tick c q esp).2) esps).1.scheduleNeeded = _
      rw [hsame]
      obtain ⟨hend, hcounted, hlast⟩ := ih hneeded' (by omega)
      refine ⟨hend, ?_, hlast⟩
      rw [hcounted, htick, List.length_cons]
      omega
    · omega

/-- The tenth interrupt ends the first slice. -/
theorem timerTicks_ten (hcount : 2 ≤ q.processCount) (hneeded : c.scheduleNeeded = false)
    (hzero : c.tickCounter = 0) (hten : esps.length = 10) :
    ∃ esp, (timerTicks (c, q) esps).2 = (schedulerYieldImpl q esp).1 := by
  rcases List.eq_nil_or_concat esps with rfl | ⟨nine, esp, rfl⟩
  · simp at hten
  · rw [List.concat_eq_append, List.length_append, List.length_singleton] at hten
    have hnine : c.tickCounter + nine.length < 10 := by omega
    obtain ⟨hsame, htick, hneeded'⟩ := timerTicks_counts hcount hneeded hnine
    refine ⟨esp, ?_⟩
    rw [timerTicks, List.concat_eq_append, List.foldl_append, List.foldl_cons, List.foldl_nil]
    change (irq0Tick (timerTicks (c, q) nine).1 (timerTicks (c, q) nine).2 esp).2 = _
    rw [hsame]
    rcases irq0Tick_cases (Nat.not_le_of_lt hcount) (by omega) hneeded' esp with
      ⟨-, hlt, -, -⟩ | ⟨-, -, -, hswitch⟩
    · omega
    · exact hswitch

end Ticks

section Shell

variable {b : Pmm} {mem : Nat → UInt8} {magic : Word} {mbi : MultibootInfo} {k : KernelMain}
variable {shell wrapper : Word} {page : Nat}

/-- How many free pages `kernel_main` needs. Page 0 is one of them if it is free: it passes for no
page at all, so that there is no directory. -/
def shellPages (b : Pmm) : Nat := if b.pageUsed 0 then 6 else 5

/-- The blocks of the processes, that begin with the third and the fifth of the lowest free pages
as far as there are enough, lie below 4 MB, or there is no directory. -/
def BlocksLow (b : Pmm) : Prop :=
  b.pageUsed 0 = true → ∀ n ∈ [2, 4], n + 2 ≤ b.available →
    ∀ page, b.NthFree n page → page + 1 < 1024

/-- The process of the shell, in the block that begins with that page. -/
def shellProcess (shell : Word) (page : Nat) : Process :=
  ⟨BitVec.ofNat 32 (page * pageSize + headerSize), 2, .ready, 0, 0, 0, shell,
    copyName "UserShellRing3"⟩

/-- Nine interrupts of the timer return to `kernel_main`, the tenth goes to the shell, which
begins at its first instruction in ring 3. With paging on, the tables map its process to itself. -/
structure StartsShell (wrapper shell : Word) (k : KernelMain) (page : Nat) : Prop where
  main : k.sched.currentProcess = 0
  waits : ∀ esps, esps.length < 10 → (timerTicks (k.timer, k.sched) esps).2 = k.sched
  switches : ∀ esps, esps.length = 10 →
    (timerTicks (k.timer, k.sched) esps).2.currentProcess = 1
  enters : RunsAs wrapper 1 ((shellProcess shell page).stackTop - 68) 17 k.sched
    fun _ => userEntry (shellProcess shell page)
  mapped : k.paging.enabled = true → ∀ a, page * pageSize ≤ a →
    a < page * pageSize + headerSize + processSize → k.paging.Identity a

theorem processSize_ne_zero : processSize ≠ 0 := by decide

theorem pagesAsked_process : pagesAsked processSize = 2 := by decide

theorem block_ne_null (page : Nat) : BitVec.ofNat 32 (page * pageSize + headerSize) ≠ 0 := by
  simp only [pageSize, headerSize]
  bv_omega

/-- What follows from two processes, the shell being the second. -/
structure TwoProcesses (wrapper shell : Word) (q : Sched) (page : Nat) : Prop where
  count : q.processCount = 2
  current : q.currentProcess = 0
  yields : ∀ esp, (schedulerYieldImpl q esp).1.currentProcess = 1
  enters : RunsAs wrapper 1 ((shellProcess shell page).stackTop - 68) 17 q
    fun _ => userEntry (shellProcess shell page)

theorem twoProcesses_added (q : Sched) {proc : Word} (hproc : proc ≠ 0) (wrapper shell : Word)
    (page : Nat) : TwoProcesses wrapper shell
      (schedulerAddUserProcess (schedulerConvertCurrentProcess (schedulerInit q) proc "KernelMain")
        (BitVec.ofNat 32 (page * pageSize + headerSize)) shell "UserShellRing3") page := by
  obtain ⟨console, heq⟩ := converted_eq q "KernelMain" hproc
  rw [heq]
  set s₁ : Sched := { q with
    processes := Function.update (schedulerInit q).processes 0
      (some (mainProcess proc "KernelMain"))
    currentProcess := 0
    processCount := 1
    nextPid := 2
    console } with hs₁
  set block := BitVec.ofNat 32 (page * pageSize + headerSize)
  have hne : block ≠ 0 := block_ne_null page
  have hroom : s₁.processCount < maxProcesses := show 1 < 16 by omega
  have hadd : Added s₁ (schedulerAddUserProcess s₁ block shell "UserShellRing3")
      (shellProcess shell page) (userFrame (shellProcess shell page)) :=
    addProcess_added shell "UserShellRing3" userFrame _ _ hroom hne
  have hstack : (shellProcess shell page).stackTop - 68 ≠ 0 := by
    simp only [Process.stackTop, Process.kernelStack, shellProcess, kernelStackSize, pageSize,
      headerSize]
    bv_omega
  have hslot : (schedulerAddUserProcess s₁ block shell "UserShellRing3").processes 1 =
      some { shellProcess shell page with
        esp := (pushes s₁.mem (shellProcess shell page).stackTop
          (userFrame (shellProcess shell page))).2 } := by
    rw [hadd.processes]
    exact Function.update_self 1 _ _
  refine ⟨hadd.count, hadd.current, fun esp => ?_, ?_⟩
  · have hcount : (schedulerAddUserProcess s₁ block shell "UserShellRing3").processCount = 2 :=
      hadd.count
    have hcurrent : (schedulerAddUserProcess s₁ block shell "UserShellRing3").currentProcess = 0 :=
      hadd.current
    simp [schedulerYieldImpl, hcount, hcurrent, findReady, Sched.isReady, hslot, switchTo,
      shellProcess, Sched.modify]
  · exact schedulerAddUserProcess_runsAs hroom hne hstack

/-- One process, or none, when there was not memory for both. -/
theorem notBoth_added (q : Sched) (proc shell : Word) :
    (schedulerAddUserProcess (schedulerConvertCurrentProcess (schedulerInit q) proc "KernelMain")
      0 shell "UserShellRing3").processCount ≤ 1 := by
  by_cases hproc : proc = 0
  · simp [schedulerConvertCurrentProcess, schedulerInit, schedulerAddUserProcess, addProcess,
      Sched.puts, maxProcesses, hproc]
  · obtain ⟨console, heq⟩ := converted_eq q "KernelMain" hproc
    rw [heq]
    simp [schedulerAddUserProcess, addProcess, Sched.puts, maxProcesses]

theorem pitInit_counter (c : Timer) : ∃ c', pitInit c 100 = some c' ∧
    c'.tickCounter = c.tickCounter ∧ c'.scheduleNeeded = c.scheduleNeeded := by
  exact ⟨_, rfl, rfl, rfl⟩

/-- The blocks at these pages are seen in their places when they lie below 4 MB. -/
theorem pagingInit_holds {b : Pmm} {run : HeapRun} {pages : List Nat} (hoff : pg.enabled = false)
    (hpages : ∀ page ∈ pages, page < 2 ^ 20)
    (hlive : run.live = pages.map fun page => page * pageSize + headerSize) :
    (pagingInit b pg).2.HoldsProcesses run ↔
      ((pagingInit b pg).2.enabled = true → ∀ page ∈ pages, page + 1 < 1024) := by
  have hfirst : ∀ {page : Nat}, page ∈ pages →
      ((pagingInit b pg).2.translate (page * pageSize) = some (page * pageSize) ↔
        ((pagingInit b pg).2.enabled = true → page * pageSize < 1024 * pageSize)) := by
    intro page hpage
    refine pagingInit_translate hoff ?_
    have hlt := hpages page hpage
    simp only [pageSize]
    omega
  rw [Paging.HoldsProcesses, hlive, List.forall_mem_map]
  constructor
  · intro hall hon page hpage
    have hlow := (hfirst hpage).mp (hall page hpage _ (by simp)) hon
    have hlast := hall page hpage (page * pageSize + headerSize + processSize - 1) (by simp)
    rw [pagingInit_translate hoff (by simp only [pageSize, headerSize, processSize] at *; omega)]
      at hlast
    have hin := hlast hon
    simp only [pageSize, headerSize, processSize] at hin hlow
    omega
  · intro hlow page hpage a ha
    cases hon : (pagingInit b pg).2.enabled with
    | false => simp [Paging.translate, hon]
    | true =>
      have hin := hlow hon page hpage
      have hbound : a < 1024 * pageSize := by
        simp only [List.mem_cons, List.not_mem_nil, or_false] at ha
        simp only [pageSize, headerSize, processSize] at ha ⊢
        omega
      exact (pagingInit_translate hoff (by simp only [pageSize] at hbound; omega)).mpr
        fun _ => hbound

/-- The heap when `kernel_main` asks for its first process. -/
def mainHeap (b : Pmm) (k : KernelMain) : Heap :=
  { heapInit k.run.heap with pmm := (pagingInit b k.paging).1 }

theorem kernelMain_eq (k : KernelMain) (shell : Word) (hb : bootPmm fuel mem magic mbi = some b) :
    ∃ c, c.tickCounter = k.timer.tickCounter ∧ c.scheduleNeeded = k.timer.scheduleNeeded ∧
      kernelMain fuel mem magic mbi shell k =
        (HeapRun.alloc fuel ⟨mainHeap b k, []⟩ processSize).bind fun r =>
          if ¬ (pagingInit b k.paging).2.HoldsProcesses r.1 then some .halted
          else (addUserProcess fuel r.1 (schedulerConvertCurrentProcess (schedulerInit k.sched)
            (BitVec.ofNat 32 r.2) "KernelMain") shell "UserShellRing3").bind fun e =>
              if ¬ (pagingInit b k.paging).2.HoldsProcesses e.1 then some .halted
              else some (.running ⟨e.1, (pagingInit b k.paging).2, c, e.2⟩) := by
  obtain ⟨c, hc, hcounter, hneeded⟩ := pitInit_counter k.timer
  refine ⟨c, hcounter, hneeded, ?_⟩
  simp only [kernelMain, hb, hc]
  rfl

/-- What two calls of `kmalloc` make of `kernel_main`. -/
theorem kernelMain_ends {p₁ p₂ : Nat} {h₁ h₂ : Heap} (shell : Word)
    (hb : bootPmm fuel mem magic mbi = some b)
    (h₁k : kmalloc fuel (mainHeap b k) processSize = some (h₁, p₁))
    (h₂k : kmalloc fuel h₁ processSize = some (h₂, p₂)) :
    ∃ k', kernelMain fuel mem magic mbi shell k =
        some (if k'.paging.HoldsProcesses k'.run then .running k' else .halted) ∧
      k'.paging = (pagingInit b k.paging).2 ∧ k'.timer.tickCounter = k.timer.tickCounter ∧
      k'.timer.scheduleNeeded = k.timer.scheduleNeeded ∧
      k'.run.live = (if p₂ = 0 then [] else [p₂]) ++ (if p₁ = 0 then [] else [p₁]) ∧
      k'.sched = schedulerAddUserProcess (schedulerConvertCurrentProcess (schedulerInit k.sched)
        (BitVec.ofNat 32 p₁) "KernelMain") (BitVec.ofNat 32 p₂) shell "UserShellRing3" := by
  obtain ⟨c, hcounter, hneeded, heq⟩ := kernelMain_eq k shell hb
  have hroom : ¬ (schedulerConvertCurrentProcess (schedulerInit k.sched) (BitVec.ofNat 32 p₁)
      "KernelMain").processCount ≥ maxProcesses := by
    by_cases hproc : BitVec.ofNat 32 p₁ = 0
    · simp [schedulerConvertCurrentProcess, schedulerInit, Sched.puts, maxProcesses, hproc]
    · obtain ⟨console, hconv⟩ := converted_eq k.sched "KernelMain" hproc
      simp [hconv, maxProcesses]
  rw [HeapRun.alloc, h₁k, Option.map_some, Option.bind_some, addUserProcess, if_neg hroom,
    HeapRun.alloc, h₂k, Option.map_some, Option.map_some, Option.bind_some] at heq
  set first : HeapRun := ⟨h₁, if p₁ = 0 then [] else [p₁]⟩
  set both : HeapRun := ⟨h₂, if p₂ = 0 then first.live else p₂ :: first.live⟩
  set sched := schedulerAddUserProcess (schedulerConvertCurrentProcess (schedulerInit k.sched)
    (BitVec.ofNat 32 p₁) "KernelMain") (BitVec.ofNat 32 p₂) shell "UserShellRing3"
  -- a fault in the block of the first process is a fault of the two as well
  have hsub : (pagingInit b k.paging).2.HoldsProcesses both →
      (pagingInit b k.paging).2.HoldsProcesses first := fun hboth p hp => hboth p (by
    change p ∈ if p₂ = 0 then first.live else p₂ :: first.live
    split <;> simp [hp])
  refine ⟨⟨both, (pagingInit b k.paging).2, c, sched⟩, heq.trans ?_, rfl, hcounter, hneeded, ?_,
    rfl⟩
  · by_cases hboth : (pagingInit b k.paging).2.HoldsProcesses both
    · rw [if_neg (not_not.mpr (hsub hboth)), if_neg (not_not.mpr hboth), if_pos hboth]
    · rw [if_neg hboth]
      by_cases hfirst : (pagingInit b k.paging).2.HoldsProcesses first
      · rw [if_neg (not_not.mpr hfirst), if_pos hboth]
      · rw [if_pos hfirst]
  · change (if p₂ = 0 then first.live else p₂ :: first.live) = _
    by_cases hp₂ : p₂ = 0
    · simp [hp₂, first]
    · simp [hp₂, first]

theorem findFit_empty {need : Nat} (hfuel : 2 ≤ fuel) (hhead : h.head = 0) :
    findFit h need fuel h.head = some 0 := by
  obtain ⟨n, rfl⟩ : ∃ n, fuel = n + 1 := ⟨fuel - 1, by omega⟩
  rw [hhead, findFit, if_pos rfl]

/-- The block of the first process is no block for the second. -/
theorem findFit_second {u : Pmm} {f bytes need : Nat} (hfuel : 2 ≤ fuel) (hhead : h.head = 0)
    (ha : appendBlock fuel (h.withBlock u f bytes) (f * pageSize) = some h') :
    findFit h' need fuel h'.head = some 0 := by
  obtain ⟨n, rfl⟩ : ∃ n, fuel = n + 2 := ⟨fuel - 2, by omega⟩
  have hempty : (h.withBlock u f bytes).head = 0 := hhead
  rw [appendBlock, if_pos hempty] at ha
  obtain rfl := Option.some.inj ha
  by_cases hf : f * pageSize = 0
  · simp [findFit, hf]
  · simp [findFit, hf, Heap.withBlock]

theorem TwoProcesses.startsShell {k : KernelMain} (h : TwoProcesses wrapper shell k.sched page)
    (hcounter : k.timer.tickCounter = 0) (hneeded : k.timer.scheduleNeeded = false)
    (hlow : k.paging.enabled = true → page + 1 < 1024)
    (hmaps : k.paging.enabled = true → ∀ a < 1024 * pageSize, k.paging.Identity a) :
    StartsShell wrapper shell k page where
  main := h.current
  waits := fun esps hlt => (timerTicks_counts h.count.ge hneeded (by omega)).1
  switches := by
    intro esps hten
    obtain ⟨esp, hlast⟩ := timerTicks_ten h.count.ge hneeded hcounter hten
    rw [hlast]
    exact h.yields esp
  enters := h.enters
  mapped := by
    intro hon a _ hlt
    have hpage := hlow hon
    refine hmaps hon a ?_
    simp only [pageSize, headerSize, processSize] at hlt ⊢
    omega

/-- What is left when `kernel_main` asks for its first process. -/
structure MainPages (b : Pmm) (k : KernelMain) : Prop where
  typed : (mainHeap b k).pmm.Typed
  page0 : 0 < (mainHeap b k).pmm.available → (mainHeap b k).pmm.pageUsed 0 = true
  left : (mainHeap b k).pmm.available = b.available - (shellPages b - 4)
  paged : (pagingInit b k.paging).2.enabled = true ↔ b.pageUsed 0 = true ∧ 2 ≤ b.available
  nth : shellPages b ≤ b.available + 4 → ∀ n page, (mainHeap b k).pmm.NthFree n page →
    b.NthFree (n + (shellPages b - 4)) page

theorem mainPages (hs : b.Typed) (hoff : k.paging.enabled = false) : MainPages b k := by
  obtain ⟨ps, htook, hlen, hon, hpage0⟩ := pagingInit_takes hs hoff
  have hleft : (mainHeap b k).pmm.available = b.available - ps.length := htook.available
  have htaken : shellPages b - 4 = if b.pageUsed 0 then 2 else 1 := by
    unfold shellPages
    split <;> rfl
  rw [← htaken] at hlen
  refine ⟨htook.typed hs, fun hpos => ?_, by omega, ?_, fun hle n page hpage => ?_⟩
  · refine hpage0 fun hnil => ?_
    rw [hnil, List.length_nil] at hlen
    rw [hleft] at hpos
    split at htaken <;> omega
  · rw [hon, hlen, htaken]
    split
    · rename_i hzero
      simp only [hzero, true_and]
      omega
    · rename_i hzero
      exact iff_of_false (by omega) fun h => hzero h.1
  · have hnth := htook.nthFree hpage
    rwa [show ps.length = shellPages b - 4 by omega] at hnth

/-- The blocks are low if those that there are enough pages for are. -/
theorem blocksLow_iff {pages : List Nat} {on : Bool}
    (hon : on = true ↔ b.pageUsed 0 = true ∧ 2 ≤ b.available)
    (hpages : b.pageUsed 0 = true → ∀ page, page ∈ pages ↔
      ∃ n ∈ [2, 4], n + 2 ≤ b.available ∧ b.NthFree n page) :
    (on = true → ∀ page ∈ pages, page + 1 < 1024) ↔ BlocksLow b := by
  constructor
  · intro hlow hzero n hn hle page hpage
    exact hlow (hon.mpr ⟨hzero, by omega⟩) page ((hpages hzero page).mpr ⟨n, hn, hle, hpage⟩)
  · intro hlow hpaged page hpage
    obtain ⟨hzero, -⟩ := hon.mp hpaged
    obtain ⟨n, hn, hle, hnth⟩ := (hpages hzero page).mp hpage
    exact hlow hzero n hn hle page hnth

/-- What `kernel_main` comes to: a halt unless the blocks are low, else the shell or nobody. -/
structure KernelMainEnds (wrapper shell : Word) (b : Pmm) (e : BootEnd) : Prop where
  halts : ¬ BlocksLow b → e = .halted
  paging : BlocksLow b → ∃ k, e = .running k ∧
    (k.paging.enabled = true ↔ b.pageUsed 0 = true ∧ 2 ≤ b.available)
  shell : BlocksLow b → shellPages b ≤ b.available → ∃ k page, e = .running k ∧
    b.NthFree (shellPages b - 2) page ∧ StartsShell wrapper shell k page
  alone : BlocksLow b → b.available < shellPages b → ∃ k, e = .running k ∧
    ∀ esps, (timerTicks (k.timer, k.sched) esps).2 = k.sched

/-- Without a block for the shell nobody is ever switched to. -/
theorem kernelMain_alone {p₁ : Nat} {h₁ h₂ : Heap} (pages : List Nat) (wrapper shell : Word)
    (hb : bootPmm fuel mem magic mbi = some b) (hmain : MainPages b k)
    (hoff : k.paging.enabled = false) (hneeded : k.timer.scheduleNeeded = false)
    (hfew : b.available < shellPages b)
    (hk₁ : kmalloc fuel (mainHeap b k) processSize = some (h₁, p₁))
    (hk₂ : kmalloc fuel h₁ processSize = some (h₂, 0)) (hinside : ∀ page ∈ pages, page < 2 ^ 20)
    (hlive : (if p₁ = 0 then [] else [p₁]) = pages.map fun page => page * pageSize + headerSize)
    (hpages : b.pageUsed 0 = true → ∀ page, page ∈ pages ↔
      ∃ n ∈ [2, 4], n + 2 ≤ b.available ∧ b.NthFree n page) :
    ∃ e, kernelMain fuel mem magic mbi shell k = some e ∧ KernelMainEnds wrapper shell b e := by
  obtain ⟨k', hk', hpaging, -, hneed, hlive', hsched⟩ := kernelMain_ends shell hb hk₁ hk₂
  have hholds : k'.paging.HoldsProcesses k'.run ↔ BlocksLow b := by
    rw [hpaging, pagingInit_holds hoff hinside (hlive'.trans hlive)]
    exact blocksLow_iff hmain.paged hpages
  have hcount : k'.sched.processCount ≤ 1 := by
    rw [hsched]
    exact notBoth_added k.sched _ shell
  have halone : ∀ esps, (timerTicks (k'.timer, k'.sched) esps).2 = k'.sched := fun esps =>
    timerTicks_alone hcount (hneed.trans hneeded)
  refine ⟨_, hk', fun hnot => if_neg fun h => hnot (hholds.mp h), fun hlow => ?_,
    fun hlow hle => by omega, fun hlow _ => ?_⟩
  · exact ⟨k', if_pos (hholds.mpr hlow), by rw [hpaging]; exact hmain.paged⟩
  · exact ⟨k', if_pos (hholds.mpr hlow), halone⟩

/-- With a block for each process the shell gets its turn. -/
theorem kernelMain_both {f : Nat} {h₁ h₂ : Heap} (wrapper shell : Word)
    (hb : bootPmm fuel mem magic mbi = some b) (hmain : MainPages b k)
    (hoff : k.paging.enabled = false) (hcounter : k.timer.tickCounter = 0)
    (hneeded : k.timer.scheduleNeeded = false)
    (hk₁ : kmalloc fuel (mainHeap b k) processSize = some (h₁, f * pageSize + headerSize))
    (hk₂ : kmalloc fuel h₁ processSize = some (h₂, page * pageSize + headerSize))
    (hinside : ∀ q ∈ [page, f], q < 2 ^ 20) (hclear : (mainHeap b k).pmm.pageUsed page = false)
    (henough : shellPages b ≤ b.available) (hf : b.NthFree (shellPages b - 4) f)
    (hpage : b.NthFree (shellPages b - 2) page) :
    ∃ e, kernelMain fuel mem magic mbi shell k = some e ∧ KernelMainEnds wrapper shell b e := by
  obtain ⟨k', hk', hpaging, htick, hneed, hlive, hsched⟩ := kernelMain_ends shell hb hk₁ hk₂
  have hholds : k'.paging.HoldsProcesses k'.run ↔ BlocksLow b := by
    rw [hpaging, pagingInit_holds hoff hinside (hlive.trans (by simp [headerSize]))]
    refine blocksLow_iff hmain.paged fun hzero q => ?_
    have hsix : shellPages b = 6 := by rw [shellPages, if_pos hzero]
    rw [hsix] at hf hpage henough
    simp only [List.mem_cons, List.not_mem_nil, or_false]
    constructor
    · rintro (rfl | rfl)
      · exact ⟨4, Or.inr rfl, henough, hpage⟩
      · exact ⟨2, Or.inl rfl, by omega, hf⟩
    · rintro ⟨n, rfl | rfl, -, hnth⟩
      · exact Or.inr (hnth.unique hf)
      · exact Or.inl (hnth.unique hpage)
  have htwo : TwoProcesses wrapper shell k'.sched page :=
    hsched ▸ twoProcesses_added k.sched (block_ne_null f) wrapper shell page
  refine ⟨_, hk', fun hnot => if_neg fun h => hnot (hholds.mp h), fun hlow => ?_,
    fun hlow _ => ⟨k', page, if_pos (hholds.mpr hlow), hpage, ?_⟩, fun hlow hlt => by omega⟩
  · exact ⟨k', if_pos (hholds.mpr hlow), by rw [hpaging]; exact hmain.paged⟩
  · have hbelow : (pagingInit b k.paging).2.enabled = true → page + 1 < 1024 := by
      intro hon
      have hzero := (hmain.paged.mp hon).1
      have hsix : shellPages b = 6 := by rw [shellPages, if_pos hzero]
      rw [hsix] at hpage henough
      exact hlow hzero 4 (by simp) henough page hpage
    refine htwo.startsShell (htick.trans hcounter) (hneed.trans hneeded) ?_ ?_
    · rwa [hpaging]
    · rw [hpaging]
      exact fun hon a ha => pagingInit_maps hoff hon hclear (by have hlt := hbelow hon; omega) ha

/-- The block of `kernel_main`'s own process, which is the first. -/
structure FirstBlock (fuel : Nat) (b : Pmm) (k : KernelMain) (h₁ : Heap) (f : Nat) : Prop where
  taken : kmalloc fuel (mainHeap b k) processSize = some (h₁, f * pageSize + headerSize)
  typed : h₁.pmm.Typed
  page0 : h₁.pmm.pageUsed 0 = true
  left : h₁.pmm.available = (mainHeap b k).pmm.available - 2
  noFit : findFit h₁ (blockBytes processSize) fuel h₁.head = some 0
  inside : f < 2 ^ 20
  nth : b.NthFree (shellPages b - 4) f
  above : ∀ n q, h₁.pmm.NthFree n q → (mainHeap b k).pmm.NthFree (n + 2) q

theorem shellPages_cases (b : Pmm) : shellPages b = 5 ∨ shellPages b = 6 := by
  unfold shellPages
  split <;> simp

theorem MainPages.firstBlock (hmain : MainPages b k) (hfuel : 2 ≤ fuel)
    (htwo : 2 ≤ (mainHeap b k).pmm.available) : ∃ h₁ f, FirstBlock fuel b k h₁ f := by
  obtain ⟨h₁, u, f, qs, hk₁, htook, hlen, happend⟩ := kmalloc_takes hmain.typed processSize_ne_zero
    (findFit_empty hfuel rfl) (by rwa [pagesAsked_process]) (hmain.page0 (by omega))
  have hpmm : h₁.pmm = u := (appendBlock_frame happend).1
  have hnth := hmain.nth (by have hleft := hmain.left; omega) 0 f htook.head_lowest.nthFree
  rw [pagesAsked_process] at hlen
  refine ⟨h₁, f, hk₁, hpmm ▸ htook.typed hmain.typed, hpmm ▸ htook.page0.2, ?_,
    findFit_second hfuel rfl happend, page_lt hmain.typed htook, ?_, fun n q hq => ?_⟩
  · rw [hpmm, htook.available, hlen]
  · rwa [Nat.zero_add] at hnth
  · rw [hpmm] at hq
    rw [← hlen]
    exact htook.nthFree hq

/-- With a block for its own process alone `kernel_main` goes on alone. -/
theorem FirstBlock.alone {h₁ : Heap} {f : Nat} (hblock : FirstBlock fuel b k h₁ f)
    (hb : bootPmm fuel mem magic mbi = some b) (hmain : MainPages b k)
    (hoff : k.paging.enabled = false) (hneeded : k.timer.scheduleNeeded = false)
    (hless : h₁.pmm.available < 2) (htwo : 2 ≤ (mainHeap b k).pmm.available)
    (wrapper shell : Word) :
    ∃ e, kernelMain fuel mem magic mbi shell k = some e ∧ KernelMainEnds wrapper shell b e := by
  have hshell := shellPages_cases b
  have hleft := hmain.left
  have hleft₁ := hblock.left
  obtain ⟨-, hk₂⟩ := kmalloc_refused hblock.typed processSize_ne_zero hblock.noFit
    (by rwa [pagesAsked_process])
  refine kernelMain_alone [f] wrapper shell hb hmain hoff hneeded (by omega) hblock.taken hk₂
    (by simpa using hblock.inside) (by simp [headerSize]) fun hzero q => ?_
  have hsix : shellPages b = 6 := by rw [shellPages, if_pos hzero]
  have hf := hblock.nth
  rw [hsix] at hf hleft
  simp only [List.mem_cons, List.not_mem_nil, or_false]
  constructor
  · rintro rfl
    exact ⟨2, Or.inl rfl, by omega, hf⟩
  · rintro ⟨n, rfl | rfl, hle, hnth⟩
    · exact hnth.unique hf
    · omega

/-- So it does without any block. -/
theorem MainPages.noBlock (hmain : MainPages b k) (hb : bootPmm fuel mem magic mbi = some b)
    (hfuel : 2 ≤ fuel) (hoff : k.paging.enabled = false)
    (hneeded : k.timer.scheduleNeeded = false) (hless : (mainHeap b k).pmm.available < 2)
    (wrapper shell : Word) :
    ∃ e, kernelMain fuel mem magic mbi shell k = some e ∧ KernelMainEnds wrapper shell b e := by
  have hshell := shellPages_cases b
  have hleft := hmain.left
  obtain ⟨hnull, hk₁⟩ := kmalloc_refused hmain.typed processSize_ne_zero (findFit_empty hfuel rfl)
    (by rwa [pagesAsked_process])
  obtain ⟨hhead, hsame⟩ := refused_available hmain.typed hnull hmain.page0 (by omega)
  obtain ⟨-, hk₂⟩ := kmalloc_refused (createBlock_kept typed_kept hmain.typed) processSize_ne_zero
    (findFit_empty hfuel hhead) (by rw [pagesAsked_process]; omega)
  refine kernelMain_alone [] wrapper shell hb hmain hoff hneeded (by omega) hk₁ hk₂
    (by simp) rfl fun hzero q => ?_
  have hsix : shellPages b = 6 := by rw [shellPages, if_pos hzero]
  refine iff_of_false (by simp) ?_
  rintro ⟨n, hn, hle, -⟩
  simp only [List.mem_cons, List.not_mem_nil, or_false] at hn
  omega

/-- The statics and the memory before `kernel_main`. -/
def KernelMain.powerOn : KernelMain :=
  ⟨⟨⟨Pmm.powerOn, fun _ => ⟨0, false, 0, 0⟩, 0, 0, 0⟩, []⟩, .powerOn, .powerOn, .powerOn⟩

end Shell

end HumanOS

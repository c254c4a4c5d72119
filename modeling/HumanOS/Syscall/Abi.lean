import HumanOS.Heap.Effects
import HumanOS.Scheduler.Table
import HumanOS.Syscall.Model

/-!
# The two sets of system call wrappers

The C library and the kernel number the services separately. A service agrees when `int 0x80`
with the registers of the one wrapper and with those of the other has the same results: the same
kernels and the same returned values.
-/
namespace HumanOS

open Lib

variable {ok : Nat → Bool} {esp fd buf count size status : Word} {k k' : Kernel}
variable {regs regs' : SysRegs} {svc : Service} {v : Option Word} {waits : Nat → Option Nat}

/-- The call with these registers can leave the kernel `k'` and return `v` from the wrapper. -/
def Performs (ok : Nat → Bool) (currentEsp : Word) (k : Kernel) (regs : SysRegs) (svc : Service)
    (k' : Kernel) (v : Option Word) : Prop :=
  ∃ fuel eax, syscallHandler ok fuel currentEsp k regs = some (.returns k' eax) ∧
    svc.value eax = v

/-- The wrapper of the library does what the wrapper of the kernel does; what is in the registers
a wrapper does not load is up to its caller. -/
def AbiAgrees (ok : Nat → Bool) (currentEsp : Word) (k : Kernel) (regs regs' : SysRegs)
    (svc : Service) : Prop :=
  ∀ k' v, Performs ok currentEsp k (libcRegs regs svc) svc k' v ↔
    Performs ok currentEsp k (kernelRegs regs' svc) svc k' v

section Dispatch

theorem performs_yield (h : regs.eax = sysYield) : Performs ok esp k regs svc k' v ↔
    k.onSched (fun s => schedulerYield s esp) = k' ∧ svc.value 0 = v := by
  simp [Performs, syscallHandler, h]

theorem performs_exit (h : regs.eax = sysExit) : Performs ok esp k regs svc k' v ↔
    k.onSched (fun s => processExit s regs.ebx.toInt esp) = k' ∧ svc.value sysExit = v := by
  simp [Performs, syscallHandler, h, sysYield, sysExit]

theorem performs_write (h : regs.eax = sysWrite) : Performs ok esp k regs svc k' v ↔
    ∃ fuel eax, sysWriteCase fuel k regs = some (k', eax) ∧ svc.value eax = v := by
  simp [Performs, syscallHandler, h, sysYield, sysExit, sysWrite]

theorem performs_malloc (h : regs.eax = sysMalloc) : Performs ok esp k regs svc k' v ↔
    ∃ fuel heap p, (kmalloc fuel k.heapSilent regs.ebx.toNat = some (heap, p) ∧
      k.setHeap heap = k') ∧ svc.value (BitVec.ofNat 32 p) = v := by
  simp [Performs, syscallHandler, h, sysYield, sysExit, sysWrite, sysRead, sysMalloc]

theorem performs_getpid (h : regs.eax = sysGetpid) : Performs ok esp k regs svc k' v ↔
    k = k' ∧ svc.value (BitVec.ofNat 32 (schedulerGetCurrentPid k.sched)) = v := by
  simp [Performs, syscallHandler, h, sysYield, sysExit, sysWrite, sysRead, sysMalloc, sysGetpid]

theorem performs_free (h : regs.eax = sysFree) : Performs ok esp k regs svc k' v ↔
    k.setHeap (kfree k.heapSilent regs.ebx.toNat) = k' ∧ svc.value 0 = v := by
  simp [Performs, syscallHandler, h, sysYield, sysExit, sysWrite, sysRead, sysMalloc, sysGetpid,
    sysFree]

end Dispatch

section Effects

variable {s : Sched} {p : Process} {code : Int} {log log' : List (String × Nat)} {color : Nat}

theorem cells_color (h : ∀ e ∈ log, e.2 = color) : ∀ x ∈ cells log, x.2 = color := by
  intro x hx
  obtain ⟨e, he, hx⟩ := List.mem_flatMap.mp hx
  obtain ⟨c, -, rfl⟩ := List.mem_map.mp hx
  exact h e he

theorem schedulerYield_console : (schedulerYield s esp).console = s.console := by
  rw [schedulerYield_eq]
  rcases schedulerYieldImpl_cases s esp with heq | ⟨next, -, -, q, -, -, heq⟩ <;> rw [heq]
  rfl

/-- `process_exit` always prints. -/
theorem processExit_prints (code : Int) (esp : Word) (hp : s.current = some p) :
    ∃ rest, cells (processExit { s with console := [] } code esp).console =
      ('[', 0x1E) :: rest := by
  have hcur : { s with console := [] }.current = some p := hp
  simp only [processExit, hcur, schedulerYield_console]
  exact ⟨_, rfl⟩

theorem onSched_exit_console (code : Int) (esp : Word) (hp : k.sched.current = some p) :
    ∃ rest, (k.onSched fun s => processExit s code esp).console =
      k.console ++ ('[', 0x1E) :: rest := by
  obtain ⟨rest, hrest⟩ := processExit_prints code esp hp
  exact ⟨rest, by rw [← hrest]; rfl⟩

/-- The case `SYS_WRITE` leaves the heap alone, and what it prints starts in light green. -/
theorem sysWriteCase_effect {fuel : Nat} {eax : Word}
    (h : sysWriteCase fuel k regs = some (k', eax)) :
    k'.heap = k.heap ∧
      (k'.console = k.console ∨ ∃ rest, k'.console = k.console ++ ('[', 0x0A) :: rest) := by
  unfold sysWriteCase at h
  dsimp only at h
  split at h
  · split at h
    · obtain ⟨text, -, h⟩ := Option.bind_eq_some_iff.mp h
      obtain ⟨rfl, -⟩ := Prod.mk.inj (Option.some.inj h)
      split
      · exact ⟨rfl, Or.inr ⟨_, by simp [Kernel.puts, cells]; rfl⟩⟩
      · exact ⟨rfl, Or.inr ⟨_, by simp [Kernel.puts, cells]; rfl⟩⟩
    · obtain ⟨rfl, -⟩ := Prod.mk.inj (Option.some.inj h)
      exact ⟨rfl, Or.inl rfl⟩
  · obtain ⟨rfl, -⟩ := Prod.mk.inj (Option.some.inj h)
    exact ⟨rfl, Or.inl rfl⟩

theorem onSched_yield_eq_iff (esp : Word) (hcur : k.sched.currentProcess < k.sched.processCount) :
    (k.onSched fun s => schedulerYield s esp) = k ↔ k.sched.OthersIdle := by
  have hstays := schedulerYieldImpl_stays_iff (s := { k.sched with console := [] }) esp hcur
  constructor
  · intro heq
    have hsame := congrArg (fun k => k.sched.currentProcess) heq
    simp only [Kernel.onSched, schedulerYield_eq] at hsame
    exact hstays.mp hsame
  · intro hidle
    have hsame := schedulerYieldImpl_unchanged (hstays.mpr hidle)
    simp only [Kernel.onSched, schedulerYield_eq, hsame]
    simp [cells]

end Effects

section Services

theorem getpid_disagrees (htable : TableInv k.sched waits) :
    ¬ AbiAgrees ok esp k regs regs' .getpid := by
  intro hall
  obtain ⟨p, hp⟩ := htable.present _ htable.current
  obtain ⟨heq, -⟩ := (performs_exit rfl).mp ((hall k _).mpr ((performs_getpid rfl).mpr ⟨rfl, rfl⟩))
  obtain ⟨rest, hrest⟩ := onSched_exit_console (k := k) 0 esp hp
  have hconsole := congrArg Kernel.console heq
  simp [libcRegs, syscall1, hrest] at hconsole

theorem exit_disagrees (htable : TableInv k.sched waits) :
    ¬ AbiAgrees ok esp k regs regs' (.exit status) := by
  intro hall
  obtain ⟨p, hp⟩ := htable.present _ htable.current
  obtain ⟨fuel, heap, ptr, ⟨hk, heq⟩, -⟩ :=
    (performs_malloc rfl).mp ((hall _ none).mpr ((performs_exit rfl).mpr ⟨rfl, rfl⟩))
  obtain ⟨rest, hrest⟩ := onSched_exit_console (k := k) status.toInt esp hp
  obtain ⟨log, hlog, hcolor⟩ := kmalloc_warns hk
  have hconsole := congrArg Kernel.console heq
  simp only [kernelRegs, hrest, Kernel.setHeap, List.append_cancel_left_eq] at hconsole
  have hcell : ('[', 0x1E) ∈ cells heap.pmm.console := by simp [hconsole]
  rw [hlog] at hcell
  have := cells_color hcolor _ hcell
  simp at this

theorem malloc_disagrees (htable : TableInv k.sched waits) :
    ¬ AbiAgrees ok esp k regs regs' (.malloc size) := by
  intro hall
  obtain ⟨c, hc⟩ := htable.present _ htable.current
  obtain ⟨fuel, heap, ptr, ⟨hk, heq⟩, hv⟩ :=
    (performs_malloc rfl).mp ((hall k _).mp ((performs_getpid rfl).mpr ⟨rfl, rfl⟩))
  have hptr : ptr ≠ 0 := by
    rintro rfl
    have hpid := congrArg (Option.map BitVec.toNat) hv
    simp only [Service.value, Option.map_some, BitVec.toNat_ofNat, Option.some.injEq,
      htable.currentPid hc] at hpid
    have hbound := htable.pids _ htable.current c hc
    have hcount := htable.count
    simp only [htable.nextPid, maxProcesses] at hbound hcount
    omega
  have hheap := congrArg Kernel.heap heq
  rcases kmalloc_changes hk hptr with hblock | hbitmap
  · have := congrArg Heap.block hheap
    exact hblock this
  · have := congrArg (fun h => h.pmm.bitmap) hheap
    exact hbitmap this

theorem write_disagrees : ¬ AbiAgrees ok esp k regs regs' (.write fd buf count) := by
  intro hall
  obtain ⟨fuel, eax, hw, hv⟩ :=
    (performs_write rfl).mp ((hall _ _).mp ((performs_free rfl).mpr ⟨rfl, rfl⟩))
  have hfd : fd.toNat ≠ 0 := by
    intro hzero
    obtain rfl : fd = 0 := BitVec.eq_of_toNat_eq hzero
    simp [sysWriteCase, kernelRegs] at hw
    simp [Service.value, ← hw.2] at hv
  obtain ⟨hheap, hconsole⟩ := sysWriteCase_effect hw
  rcases kfree_cases (h := k.heapSilent) hfd with hfree | ⟨b, hused, hfree⟩
  · obtain ⟨rest, hrest⟩ : ∃ rest, (k.setHeap (kfree k.heapSilent fd.toNat)).console =
        k.console ++ ('[', 0x1C) :: rest := by
      rw [hfree]
      exact ⟨_, rfl⟩
    rcases hconsole with hsame | ⟨rest', hprinted⟩
    · have := hrest.symm.trans hsame
      simp at this
    · have := hrest.symm.trans hprinted
      simp at this
  · have hblock := congrArg (fun h => (h.block b).used) hheap
    have : ((kfree k.heapSilent fd.toNat).block b).used = (k.heapSilent.block b).used := hblock
    simp [hfree, hused] at this

theorem read_agrees : AbiAgrees ok esp k regs regs' (.read fd buf count) := fun _ _ => Iff.rfl

theorem yield_agrees_iff (htable : TableInv k.sched waits) :
    AbiAgrees ok esp k regs regs' .yield ↔ k.sched.OthersIdle := by
  rw [← onSched_yield_eq_iff esp htable.current]
  have hlibc : ∀ k' v, Performs ok esp k (libcRegs regs .yield) .yield k' v ↔
      k = k' ∧ none = v := by
    intro k' v
    rw [performs_write rfl]
    simp [sysWriteCase, libcRegs, syscall1, Service.value]
  constructor
  · intro hall
    exact ((performs_yield rfl).mp ((hall k none).mp ((hlibc k none).mpr ⟨rfl, rfl⟩))).1
  · intro heq k' v
    rw [hlibc, performs_yield rfl, heq]
    rfl

/-- Reading is the one service both sides number alike. The library's `yield` is a write to no
file, which nobody notices while there is nobody to yield to. -/
theorem syscall_abi_iff (htable : TableInv k.sched waits) :
    AbiAgrees ok esp k regs regs' svc ↔
      (∃ fd buf count, svc = .read fd buf count) ∨ svc = .yield ∧ k.sched.OthersIdle := by
  cases svc with
  | getpid => simpa using getpid_disagrees htable
  | yield => simpa using yield_agrees_iff htable
  | exit status => simpa using exit_disagrees htable
  | malloc size => simpa using malloc_disagrees htable
  | read fd buf count => simpa using read_agrees
  | write fd buf count => simpa using write_disagrees

end Services

/-- The kernel with `kernel_main` as its only process. -/
def Kernel.oneProcess : Kernel where
  heap := ⟨Pmm.powerOn, fun _ => ⟨0, false, 0, 0⟩, 0, 0, 0⟩
  sched := schedulerConvertCurrentProcess (schedulerInit .powerOn) 0x300000 "KernelMain"
  vfs := ⟨fun _ => ⟨fun _ => 0, 0, 0, 0⟩, fun _ _ => 0, 0, []⟩
  keyboard := ⟨fun _ => 0, 0, 0, false⟩
  mem := fun _ => 0
  console := []
  serial := []

theorem oneProcess_inv : TableInv Kernel.oneProcess.sched fun _ => none := by
  simp only [Kernel.oneProcess]
  exact converted_inv (by decide)

/-- The same with a second process, that has been killed. -/
def Kernel.oneKilled : Kernel :=
  let sched := schedulerAddProcess 0x100000 Kernel.oneProcess.sched 0x302000 0x110000 "Task"
  { Kernel.oneProcess with sched := (processKill sched 2 0x200000).1 }

theorem oneKilled_inv : TableInv Kernel.oneKilled.sched fun _ => none := by
  have hadd : TableInv (schedulerAddProcess 0x100000 Kernel.oneProcess.sched 0x302000 0x110000
      "Task") fun _ => none := by
    simp only [schedulerAddProcess]
    exact oneProcess_inv.addProcess
  exact hadd.processKill

/-- A read, and a `yield` that finds the other process killed. -/
theorem syscall_abi_iff_one_killed :
    AbiAgrees (fun _ => true) 0x200000 .oneKilled ⟨0, 7, 8, 9⟩ ⟨0, 1, 2, 3⟩ (.read 0 0x300000 1) ∧
    Kernel.oneKilled.sched.processCount = 2 ∧
    AbiAgrees (fun _ => true) 0x200000 .oneKilled ⟨0, 7, 8, 9⟩ ⟨0, 1, 2, 3⟩ .yield := by
  refine ⟨(syscall_abi_iff oneKilled_inv).mpr (Or.inl ⟨0, 0x300000, 1, rfl⟩), by decide +kernel,
    (syscall_abi_iff oneKilled_inv).mpr (Or.inr ⟨rfl, ?_⟩)⟩
  have hidle : ∀ i < 2, i ≠ 0 → ¬ Kernel.oneKilled.sched.isReady i = true := by decide +kernel
  have hcount : Kernel.oneKilled.sched.processCount = 2 := by decide +kernel
  have hcurrent : Kernel.oneKilled.sched.currentProcess = 0 := by decide +kernel
  intro i hi hne
  rw [hcount] at hi
  rw [hcurrent] at hne
  simpa using hidle i hi hne

/-- The library's `getpid` ends its caller. -/
theorem syscall_abi_fails :
    ¬ ∀ ok esp k regs regs' svc waits, TableInv k.sched waits →
      AbiAgrees ok esp k regs regs' svc := by
  intro hall
  have hagrees := hall (fun _ => true) 0x200000 .oneProcess ⟨0, 0, 0, 0⟩ ⟨0, 0, 0, 0⟩ .getpid
    (fun _ => none) oneProcess_inv
  exact getpid_disagrees oneProcess_inv hagrees

end HumanOS

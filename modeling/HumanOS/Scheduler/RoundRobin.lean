import HumanOS.Lib.Cyclic
import HumanOS.Scheduler.Lifetime

/-!
# Round robin without overtaking

While a process stays ready the search comes nearer to its slot at every switch, so nobody else
is switched to twice before it. Slots appended in between lie behind those already passed.
-/
namespace HumanOS

open Lib

variable {s t u : Sched} {r r' : SchedRun} {op : SchedOp} {ops : List SchedOp} {ts : List Nat}
variable {i next : Nat} {esp wrapper proc : Word} {name : String}

/-- The slots from the current process round to slot `i`. -/
def Sched.distance (s : Sched) (i : Nat) : Nat := gap s.processCount s.currentProcess i

/-- What the search leaves out was not ready. -/
theorem schedulerYieldImpl_first (hcur : s.currentProcess < s.processCount)
    (hleft : (schedulerYieldImpl s esp).1.currentProcess ≠ s.currentProcess)
    (hi : i < s.processCount) (hready : s.isReady i = true)
    (hother : (schedulerYieldImpl s esp).1.currentProcess ≠ i) :
    gap s.processCount s.currentProcess (schedulerYieldImpl s esp).1.currentProcess <
      s.distance i := by
  have hlt : (s.currentProcess + 1) % s.processCount < s.processCount := Nat.mod_lt _ (by omega)
  cases hfind : findReady s s.processCount ((s.currentProcess + 1) % s.processCount) with
  | none => simp [schedulerYieldImpl, hfind] at hleft
  | some next =>
    have hone : ¬ s.processCount ≤ 1 := by
      intro hone
      simp [schedulerYieldImpl, hone] at hleft
    have hself : next ≠ s.currentProcess := by
      rintro rfl
      simp [schedulerYieldImpl, hone, hfind] at hleft
    have hnext : (schedulerYieldImpl s esp).1.currentProcess = next := by
      simp only [schedulerYieldImpl, if_neg hone, hfind, if_neg hself]
      rfl
    obtain ⟨-, j, hj, heq, hbefore⟩ := findReady_eq_some hlt hfind
    rw [hnext] at hother ⊢
    rw [round_succ] at heq
    have hgap : gap s.processCount s.currentProcess next = j + 1 := by
      rw [heq, gap_of_add_mod hcur (by omega) (by omega)]
    by_contra hnear
    have hpos := gap_pos (i := i) hcur
    have hway := add_gap_mod hcur hi
    -- slot `i` is among those looked at before `next`, or is `next`
    obtain ⟨l, hl⟩ : ∃ l, s.distance i = l + 1 := ⟨s.distance i - 1, by
      unfold Sched.distance
      omega⟩
    rw [← Sched.distance, hl] at hway
    rcases Nat.lt_or_eq_of_le (show l ≤ j by omega) with hlj | rfl
    · have hidle := hbefore l hlj
      rw [round_succ, hway, hready] at hidle
      simp at hidle
    · exact hother (heq.trans hway)

/-- A switch to another process than `i`, which is ready after it. -/
theorem schedulerYieldImpl_nearer (hcur : s.currentProcess < s.processCount)
    (hleft : (schedulerYieldImpl s esp).1.currentProcess ≠ s.currentProcess)
    (hi : i < s.processCount) (hready : (schedulerYieldImpl s esp).1.isReady i = true) :
    (schedulerYieldImpl s esp).1.currentProcess < s.processCount ∧
    (schedulerYieldImpl s esp).1.processCount = s.processCount ∧
    (schedulerYieldImpl s esp).1.currentProcess ≠ i ∧
    gap s.processCount s.currentProcess (schedulerYieldImpl s esp).1.currentProcess <
      s.distance i := by
  have hfirst := schedulerYieldImpl_first (i := i) hcur hleft hi
  obtain ⟨p, hp, hst⟩ := isReady_iff.mp hready
  rcases schedulerYieldImpl_cases s esp with heq | ⟨next, hlt, hne, q, hq, -, heq⟩
  · rw [heq] at hleft
    exact absurd rfl hleft
  rw [heq] at hfirst hp ⊢
  have hin : next ≠ i := by
    rintro rfl
    rw [(switchTo_remaps hne).slot_eq hlt hq] at hp
    obtain rfl := Option.some.inj hp
    simp [switched, hne] at hst
  refine ⟨hlt, rfl, hin, ?_⟩
  by_cases hcuri : i = s.currentProcess
  · subst hcuri
    unfold Sched.distance
    rw [gap_self]
    exact gap_lt hlt hne
  · refine hfirst (isReady_iff.mpr ?_) hin
    obtain ⟨x, hx, rfl⟩ := (switchTo_remaps hne).of_slot hi hp
    simp only [switched, if_neg hcuri, if_neg hin.symm] at hst
    exact ⟨x, hx, hst⟩

/-- What a step can do while slot `i` is ready: stay with the current process, or switch to a
process before `i`. -/
theorem SchedStep.nearer (hs : SchedStep wrapper r op r') (hocc : Occupied r.sched)
    (hi : i < r.sched.processCount) (hready : r'.sched.isReady i = true) :
    r'.sched.currentProcess = r.sched.currentProcess ∧
      r.sched.processCount ≤ r'.sched.processCount ∨
    r'.sched.processCount = r.sched.processCount ∧
      r'.sched.currentProcess ≠ r.sched.currentProcess ∧
      r'.sched.currentProcess < r.sched.processCount ∧ r'.sched.currentProcess ≠ i ∧
      gap r.sched.processCount r.sched.currentProcess r'.sched.currentProcess <
        r.sched.distance i := by
  rcases hs.shape with ⟨u, f, ht, heq | ⟨esp, heq⟩⟩ | ⟨proc, entry, name, ws, -, ha⟩
  · rw [heq]
    exact Or.inl ⟨ht.current, Nat.le_of_eq ht.count.symm⟩
  · rw [heq] at hready ⊢
    have hcur := hocc.current_lt hi
    by_cases hstay : (schedulerYieldImpl u esp).1.currentProcess = u.currentProcess
    · rw [schedulerYieldImpl_unchanged hstay]
      exact Or.inl ⟨ht.current, Nat.le_of_eq ht.count.symm⟩
    · have hnear := schedulerYieldImpl_nearer (by rwa [ht.current, ht.count]) hstay
        (by rwa [ht.count]) hready
      unfold Sched.distance at hnear ⊢
      rw [ht.current, ht.count] at hnear
      rw [ht.current] at hstay
      obtain ⟨hlt, hcount, hne, hgap⟩ := hnear
      exact Or.inr ⟨hcount, hstay, hlt, hne, hgap⟩
  · rw [ha.count, ha.current]
    exact Or.inl ⟨rfl, Nat.le_succ _⟩

/-- A run in every state of which slot `i` is ready, with the processes switched to; no step holds
more than one switch. -/
inductive Sweep (processWrapper : Word) (i : Nat) : SchedRun → List Nat → SchedRun → Prop
  | start {r : SchedRun} : i < r.sched.processCount → r.sched.isReady i = true →
      Sweep processWrapper i r [] r
  | stay {r r' r'' : SchedRun} {ts : List Nat} {op : SchedOp} :
      Sweep processWrapper i r ts r' → SchedStep processWrapper r' op r'' →
      r''.sched.isReady i = true →
      r''.sched.currentProcess = r'.sched.currentProcess →
      Sweep processWrapper i r ts r''
  | switch {r r' r'' : SchedRun} {ts : List Nat} {op : SchedOp} :
      Sweep processWrapper i r ts r' → SchedStep processWrapper r' op r'' →
      r''.sched.isReady i = true →
      r''.sched.currentProcess ≠ r'.sched.currentProcess →
      Sweep processWrapper i r (ts ++ [r''.sched.currentProcess]) r''

/-- The processes switched to lie behind the current one. -/
structure SweepInv (i : Nat) (r : SchedRun) (ts : List Nat) (r' : SchedRun) : Prop where
  occupied : Occupied r'.sched
  slot : i < r'.sched.processCount
  count : r.sched.processCount ≤ r'.sched.processCount
  once : ts.Nodup
  other : i ∉ ts
  passed : ∀ t ∈ ts, t < r'.sched.processCount ∧
    r'.sched.distance i ≤ gap r'.sched.processCount r'.sched.currentProcess t
  distance : r'.sched.distance i + ts.length ≤
    r.sched.distance i + (r'.sched.processCount - r.sched.processCount)

theorem SweepInv.stay (h : SweepInv i r ts r') (hocc : Occupied s)
    (hcur : s.currentProcess = r'.sched.currentProcess)
    (hcount : r'.sched.processCount ≤ s.processCount) {w : Nat → Option Nat} :
    SweepInv i r ts ⟨s, w⟩ := by
  have hlt := h.occupied.current_lt h.slot
  have hslot := h.slot
  refine ⟨hocc, by show i < s.processCount; omega, Nat.le_trans h.count hcount, h.once, h.other,
    fun t ht => ?_, ?_⟩
  · obtain ⟨htlt, hpast⟩ := h.passed t ht
    refine ⟨by show t < s.processCount; omega, ?_⟩
    simp only [Sched.distance, hcur]
    exact gap_append_mono hcount hlt h.slot htlt hpast
  · have hdist := h.distance
    have hgrow := gap_append_le (c := r'.sched.currentProcess) (i := i) hcount
    have := h.count
    simp only [Sched.distance, hcur] at hdist ⊢
    omega

theorem SweepInv.switch (h : SweepInv i r ts r') (hocc : Occupied s)
    (hcount : s.processCount = r'.sched.processCount)
    (hlt : s.currentProcess < r'.sched.processCount) (hne : s.currentProcess ≠ i)
    (hnear : gap r'.sched.processCount r'.sched.currentProcess s.currentProcess <
      r'.sched.distance i) {w : Nat → Option Nat} :
    SweepInv i r (ts ++ [s.currentProcess]) ⟨s, w⟩ := by
  have hcur := h.occupied.current_lt h.slot
  have hrest := gap_of_gap_lt hcur h.slot hnear
  refine ⟨hocc, hcount ▸ h.slot, hcount ▸ h.count, ?_, ?_, fun t ht => ?_, ?_⟩
  · refine List.nodup_append.mpr ⟨h.once, List.pairwise_singleton _ _, ?_⟩
    rintro t ht b hb rfl
    obtain rfl := List.mem_singleton.mp hb
    have hpast := (h.passed _ ht).2
    omega
  · simp [h.other, hne.symm]
  · simp only [Sched.distance, hcount]
    rcases List.mem_append.mp ht with ht | ht
    · obtain ⟨htlt, hpast⟩ := h.passed t ht
      have hback := gap_of_gap_lt (t := s.currentProcess) hcur htlt (Nat.lt_of_lt_of_le hnear hpast)
      simp only [Sched.distance] at hpast
      exact ⟨htlt, by omega⟩
    · obtain rfl := List.mem_singleton.mp ht
      refine ⟨hlt, ?_⟩
      rw [gap_self]
      exact gap_le h.slot
  · have hdist := h.distance
    have hpos := gap_pos (i := s.currentProcess) hcur
    simp only [Sched.distance, hcount, List.length_append, List.length_singleton] at hdist ⊢
    omega

theorem Sweep.inv (hocc : Occupied r.sched) (h : Sweep wrapper i r ts r') :
    SweepInv i r ts r' := by
  induction h with
  | start hi hready =>
    exact ⟨hocc, hi, Nat.le_refl _, List.nodup_nil, List.not_mem_nil, by simp, by simp⟩
  | stay hsweep hs hready hstay hinv =>
    rcases hs.nearer hinv.occupied hinv.slot hready with ⟨hcur, hcount⟩ | ⟨-, hleft, -⟩
    · exact hinv.stay (hs.occupied hinv.occupied) hcur hcount
    · exact absurd hstay hleft
  | switch hsweep hs hready hleft hinv =>
    rcases hs.nearer hinv.occupied hinv.slot hready with ⟨hcur, -⟩ | ⟨hcount, -, hlt, hne, hnear⟩
    · exact absurd hcur hleft
    · exact hinv.switch (hs.occupied hinv.occupied) hcount hlt hne hnear

/-- Nobody is switched to twice, and the way to slot `i` gets shorter. -/
structure NotOvertaken (i : Nat) (r : SchedRun) (ts : List Nat) (r' : SchedRun) : Prop where
  once : ts.Nodup
  other : i ∉ ts
  distance : r'.sched.distance i + ts.length ≤
    r.sched.distance i + (r'.sched.processCount - r.sched.processCount)

/-- Round robin without overtaking: over the whole sweep, and step by step. -/
theorem round_robin_no_overtaking
    (hr : Run (SchedStep wrapper) (.start s proc name) ops r) (h : Sweep wrapper i r ts r') :
    NotOvertaken i r ts r' ∧
    ∀ op r'', SchedStep wrapper r' op r'' → r''.sched.isReady i = true →
      (r''.sched.currentProcess ≠ r'.sched.currentProcess →
        r''.sched.distance i < r'.sched.distance i) ∧
      (r''.sched.currentProcess = r'.sched.currentProcess →
        r''.sched.distance i ≤ r'.sched.distance i +
          (r''.sched.processCount - r'.sched.processCount)) := by
  have hinv := h.inv (run_occupied hr)
  refine ⟨⟨hinv.once, hinv.other, hinv.distance⟩, fun op r'' hs hready => ?_⟩
  have hcurlt := hinv.occupied.current_lt hinv.slot
  rcases hs.nearer hinv.occupied hinv.slot hready with
    ⟨hcur, hcount⟩ | ⟨hcount, hleft, hlt, hne, hnear⟩
  · refine ⟨fun hleft => absurd hcur hleft, fun _ => ?_⟩
    simp only [Sched.distance, hcur]
    exact gap_append_le hcount
  · refine ⟨fun _ => ?_, fun hstay => absurd hstay hleft⟩
    have hrest := gap_of_gap_lt hcurlt hinv.slot hnear
    have hpos := gap_pos (i := r''.sched.currentProcess) hcurlt
    simp only [Sched.distance, hcount] at hrest ⊢
    omega

/-- Three processes are added, the last of them is overtaken once by each of the others. -/
theorem round_robin_no_overtaking_three :
    ∃ r r' ts, Run (SchedStep 0x100000) (.start .powerOn 0x300000 "KernelMain")
        [.addProcess 0x302000 0x110000 "A", .addProcess 0x304000 0x110000 "B",
          .addProcess 0x306000 0x110000 "C"] r ∧
      Sweep 0x100000 3 r ts r' ∧ ts = [1, 2] ∧ NotOvertaken 3 r ts r' := by
  obtain ⟨r, r', ts, hr, hsweep, hts⟩ : ∃ r r' ts,
      Run (SchedStep 0x100000) (.start .powerOn 0x300000 "KernelMain")
        [.addProcess 0x302000 0x110000 "A", .addProcess 0x304000 0x110000 "B",
          .addProcess 0x306000 0x110000 "C"] r ∧ Sweep 0x100000 3 r ts r' ∧ ts = [1, 2] :=
    ⟨_, _, _, .stepL (.addProcess rfl) (.stepL (.addProcess rfl) (.single (.addProcess rfl))),
      .switch (.switch (.start (by decide +kernel) (by decide +kernel))
          (show SchedStep _ _ (.yieldImpl 0x200000) _ from .yieldImpl) (by decide +kernel)
          (by decide +kernel))
        (show SchedStep _ _ (.exit 0 0x303000) _ from .exit (by decide +kernel))
        (by decide +kernel) (by decide +kernel),
      by decide +kernel⟩
  exact ⟨r, r', ts, hr, hsweep, hts, (round_robin_no_overtaking hr hsweep).1⟩

end HumanOS

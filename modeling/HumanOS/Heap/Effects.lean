import HumanOS.Heap.Alloc
import HumanOS.Heap.Free

/-! What the heap functions print and what they change, from any state whatever. -/
namespace HumanOS

open Lib Pmm

variable {s t u : Pmm} {h h' : Heap} {fuel size need page i n b x p : Nat}

/-- All that was printed on the way to `t` is in the colour of warnings. -/
def Warns (s t : Pmm) : Prop := ∃ log, t.console = s.console ++ log ∧ ∀ e ∈ log, e.2 = 0x1C

theorem Warns.refl : Warns s s := ⟨[], by simp, by simp⟩

theorem Warns.trans (h : Warns s t) (h' : Warns t u) : Warns s u := by
  obtain ⟨log, hlog, hcolor⟩ := h
  obtain ⟨log', hlog', hcolor'⟩ := h'
  refine ⟨log ++ log', by rw [hlog', hlog, List.append_assoc], fun e he => ?_⟩
  rcases List.mem_append.mp he with he | he
  · exact hcolor e he
  · exact hcolor' e he

theorem Warns.puts {text : String} : Warns s (s.vgaPuts text 0x1C) :=
  ⟨[(text, 0x1C)], rfl, by simp⟩

/-- A property of the PMM that its two calls and a warning keep. -/
structure KeptByPages (P : Pmm → Prop) : Prop where
  alloc : ∀ {s}, P s → P (pmmAllocPage s).1
  free : ∀ {s} addr, P s → P (pmmFreePage s addr)
  puts : ∀ {s text}, P s → P (s.vgaPuts text 0x1C)

/-- A `create_block` that fails touches the PMM only. -/
theorem createBlock_null (hn : (createBlock h size).2 = 0) :
    (createBlock h size).1 = { h with pmm := (createBlock h size).1.pmm } := by
  revert hn
  unfold createBlock
  dsimp only
  split
  · intro _
    rfl
  · rename_i hpage
    split
    · intro _
      rfl
    · exact fun hn => (hpage hn).elim

theorem appendBlock_frame (ha : appendBlock fuel h b = some h') :
    h'.pmm = h.pmm ∧ h'.total = h.total ∧ h'.used = h.used := by
  unfold appendBlock at ha
  split at ha
  · obtain rfl := Option.some.inj ha
    exact ⟨rfl, rfl, rfl⟩
  · obtain ⟨last, -, hrest⟩ := Option.bind_eq_some_iff.mp ha
    obtain rfl := Option.some.inj hrest
    exact ⟨rfl, rfl, rfl⟩

theorem findFit_fits (hf : findFit h need fuel x = some b) (hb : b ≠ 0) : h.Fits need b := by
  induction fuel generalizing x with
  | zero => simp [findFit] at hf
  | succ fuel ih =>
    simp only [findFit] at hf
    split at hf
    · exact (hb (Option.some.inj hf).symm).elim
    · split at hf
      · rename_i hfit
        rwa [← Option.some.inj hf]
      · exact ih hf

section Kept

variable {P : Pmm → Prop} (hP : KeptByPages P)
include hP

theorem freePages_kept (hs : P s) : P (freePages page n s) := by
  induction n with
  | zero => exact hs
  | succ n ih =>
    rw [freePages, List.range_succ, List.foldl_append]
    exact hP.free _ ih

theorem allocRest_kept (hs : P s) : P (allocRest page i n s).1 := by
  induction n generalizing i s with
  | zero => exact hs
  | succ n ih =>
    have halloc := hP.alloc hs
    unfold allocRest
    split <;> rename_i heq <;> rw [heq] at halloc
    · exact freePages_kept hP halloc
    · exact ih halloc

theorem createBlock_kept (hs : P h.pmm) : P (createBlock h size).1.pmm := by
  have halloc := hP.alloc hs
  have hrest : P (allocRest (pmmAllocPage h.pmm).2 1
      (pagesFor (add32 (align4 size) headerSize) - 1) (pmmAllocPage h.pmm).1).1 :=
    allocRest_kept hP halloc
  unfold createBlock
  dsimp only
  split
  · exact halloc
  · split <;> rename_i heq <;> rw [heq] at hrest
    · exact hrest
    · exact hrest

/-- What the PMM calls keep, `kmalloc` keeps. -/
theorem kmalloc_kept (hs : P h.pmm) (hk : kmalloc fuel h size = some (h', p)) : P h'.pmm := by
  rcases kmalloc_inv hk with ⟨-, rfl, -⟩ | ⟨b, -, -, -, rfl, -⟩ |
    ⟨-, -, ⟨-, rfl, -⟩ | ⟨-, happend, -⟩⟩
  · exact hs
  · exact hs
  · exact createBlock_kept hP hs
  · rw [(appendBlock_frame happend).1]
    exact createBlock_kept hP hs

theorem fuseNext_kept (hs : P h.pmm) : P (fuseNext h b).pmm := by
  unfold fuseNext
  dsimp only
  split
  · split <;> exact freePages_kept hP hs
  · exact hs

theorem fusePrev_kept (hs : P h.pmm) : P (fusePrev h b).pmm := by
  unfold fusePrev
  dsimp only
  split
  · split <;> exact freePages_kept hP hs
  · exact hs

/-- And so does `kfree`. -/
theorem kfree_kept (hs : P h.pmm) : P (kfree h p).pmm := by
  unfold kfree
  dsimp only
  split
  · exact hs
  · split
    · exact hP.puts hs
    · exact fusePrev_kept hP (fuseNext_kept hP hs)

end Kept

theorem warns_kept : KeptByPages (Warns s) where
  alloc := by
    intro t ht
    refine ht.trans ?_
    unfold pmmAllocPage
    split
    · exact .puts
    · split
      · exact .refl
      · exact .refl
  free := by
    intro t addr ht
    refine ht.trans ?_
    rcases pmmFreePage_cases t addr with ⟨-, heq⟩ | ⟨-, -, heq⟩ | ⟨-, -, heq⟩ <;> rw [heq]
    · exact .puts
    · exact .puts
    · exact .refl
  puts := fun ht => ht.trans .puts

/-- The heap and the PMM print nothing but warnings. -/
theorem kmalloc_warns (hk : kmalloc fuel h size = some (h', p)) : Warns h.pmm h'.pmm :=
  kmalloc_kept warns_kept .refl hk

/-- No call changes the length of the bitmap. -/
theorem bitmapSize_kept (w : Nat) : KeptByPages fun t => t.bitmapSize = w where
  alloc := fun ht => pmmAllocPage_bitmapSize.trans ht
  free := by
    intro t addr ht
    rcases pmmFreePage_cases t addr with ⟨-, heq⟩ | ⟨-, -, heq⟩ | ⟨-, -, heq⟩ <;> rw [heq] <;>
      exact ht
  puts := fun ht => ht

/-- A call that returns memory shows in the block headers or in the bitmap. -/
theorem kmalloc_changes (hk : kmalloc fuel h size = some (h', p)) (hp : p ≠ 0) :
    h'.block ≠ h.block ∨ h'.pmm.bitmap ≠ h.pmm.bitmap := by
  rcases kmalloc_inv hk with ⟨-, -, hp0⟩ | ⟨b, hb, -, hfind, rfl, -⟩ |
    ⟨-, -, ⟨-, -, hp0⟩ | ⟨hmade, happend, -⟩⟩
  · exact (hp hp0).elim
  · refine Or.inl fun heq => ?_
    have hused := congrArg HeapBlock.used (congrFun heq b)
    simp [markUsed_block, (findFit_fits hfind hb).1] at hused
  · exact (hp hp0).elim
  · obtain ⟨u, f, heq, -, hclear, hset⟩ := createBlock_made hmade
    rw [heq] at happend
    refine Or.inr fun hsame => ?_
    rw [(appendBlock_frame happend).1] at hsame
    rw [pageUsed, show u.bitmap = h.pmm.bitmap from hsame, ← pageUsed, hclear] at hset
    simp at hset

theorem fuseNext_used : ((fuseNext h b).block x).used = (h.block x).used := by
  by_cases hcond : (h.block b).next ≠ 0 ∧ (h.block (h.block b).next).used = false
  · rw [fuseNext_block hcond.1 hcond.2]
  · rw [fuseNext_skip hcond]

theorem fusePrev_used : ((fusePrev h b).block x).used = (h.block x).used := by
  unfold fusePrev
  dsimp only
  split
  · split <;> simp only [Heap.modify, Function.update_apply] <;> grind
  · rfl

/-- `kfree` of a pointer prints a warning or marks a used block free. -/
theorem kfree_cases (hp : p ≠ 0) :
    kfree h p = { h with pmm := h.pmm.vgaPuts "[HEAP] Double free detected\n" 0x1C } ∨
    ∃ b, (h.block b).used = true ∧ ((kfree h p).block b).used = false := by
  by_cases hused : (h.block (sub32 p headerSize)).used = false
  · exact Or.inl (by simp only [kfree, hp, hused, if_true, if_false])
  · refine Or.inr ⟨sub32 p headerSize, by simpa using hused, ?_⟩
    unfold kfree
    rw [if_neg hp]
    dsimp only
    rw [if_neg hused, fusePrev_used, fuseNext_used]
    simp [Heap.modify]

end HumanOS

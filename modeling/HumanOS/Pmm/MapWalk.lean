import Mathlib.Order.Interval.Finset.Nat
import HumanOS.Lib.Orbit
import HumanOS.Pmm.Multiboot

/-!
# The walks over any bytes

How far a walk of `pmm_init_multiboot` goes is read from the map itself: nothing checks a `size`
field. It may stand still, go back or jump over the end, and the last entry may be cut off.
-/
namespace HumanOS

open Lib Lib.Bitmap Pmm

variable {mem : Nat → UInt8} {mmapAddr mmapLength mmapEnd fuel p n a : Nat} {s : Pmm}

/-- Where the walks go from the entry at `p`. -/
def nextEntry (mem : Nat → UInt8) (p : Nat) : Nat := add32 p ((mmapEntryAt mem p).size + 4)

/-- The bytes of the entry at `p` that one round of either walk reads: `type`, for usable RAM
`addr` and `len`, and `size`. -/
def entryReads (mem : Nat → UInt8) (p : Nat) : List Nat :=
  List.range' (p + 20) 4 ++
  (if (mmapEntryAt mem p).type = 1 then List.range' (p + 4) 16 else []) ++
  List.range' p 4

/-- The bytes that the first rounds of either walk read. -/
def walkReads (mem : Nat → UInt8) (mmapEnd : Nat) : Nat → Nat → List Nat
  | 0, _ => []
  | rounds + 1, mmap =>
    if mmap < mmapEnd then
      entryReads mem mmap ++ walkReads mem mmapEnd rounds (nextEntry mem mmap)
    else []

/-- Both walks end, and they read bytes of the map only. -/
structure WalkSafe (mem : Nat → UInt8) (mmapAddr mmapLength : Nat) : Prop where
  ends : ∃ fuel, ∀ s, (pmmInitMultiboot fuel mem s mmapAddr mmapLength).isSome
  inside : ∀ rounds, ∀ a ∈ walkReads mem (mmapAddr + mmapLength) rounds mmapAddr,
    mmapAddr ≤ a ∧ a < mmapAddr + mmapLength

/-- The `size` fields lead from the first entry over entries that lie wholly in the map to its end
or behind it, in at most as many steps as the map has bytes. -/
def SizesLeadOut (mem : Nat → UInt8) (mmapAddr mmapLength : Nat) : Prop :=
  ∃ n ≤ mmapLength, mmapAddr + mmapLength ≤ (nextEntry mem)^[n] mmapAddr ∧
    ∀ j < n, mmapAddr ≤ (nextEntry mem)^[j] mmapAddr ∧
      (nextEntry mem)^[j] mmapAddr + 24 ≤ mmapAddr + mmapLength

section Loops

/-- The first walk folds over the entries it visits. -/
theorem mmapMaxUsable_eq_visits :
    mmapMaxUsable mem mmapEnd fuel p n =
      (visits (nextEntry mem) (· < mmapEnd) fuel p).map fun ps =>
        (ps.map (mmapEntryAt mem)).foldl raiseUsable n := by
  induction fuel generalizing p n with
  | zero => rfl
  | succ fuel ih =>
    by_cases hp : p < mmapEnd
    · simp only [mmapMaxUsable, visits, hp, if_true, Option.map_map]
      exact ih
    · simp [mmapMaxUsable, visits, hp]

/-- So does the second. -/
theorem mmapFreeUsable_eq_visits :
    mmapFreeUsable mem mmapEnd fuel p s =
      (visits (nextEntry mem) (· < mmapEnd) fuel p).map fun ps =>
        (ps.map (mmapEntryAt mem)).foldl freeEntry s := by
  induction fuel generalizing p s with
  | zero => rfl
  | succ fuel ih =>
    by_cases hp : p < mmapEnd
    · simp only [mmapFreeUsable, visits, hp, if_true, Option.map_map]
      exact ih
    · simp [mmapFreeUsable, visits, hp]

/-- Both walks end exactly if the walk over the `size` fields does. -/
theorem pmmInitMultiboot_isSome (hmem : mmapAddr + mmapLength < 2 ^ 32) :
    (pmmInitMultiboot fuel mem s mmapAddr mmapLength).isSome ↔
      ∃ n < fuel, Leaves (nextEntry mem) (· < mmapAddr + mmapLength) n mmapAddr := by
  rw [← visits_isSome]
  simp only [pmmInitMultiboot, add32_of_lt hmem, mmapMaxUsable_eq_visits,
    mmapFreeUsable_eq_visits]
  cases visits (nextEntry mem) (· < mmapAddr + mmapLength) fuel mmapAddr <;> simp

end Loops

section Reads

/-- One round stays in the map exactly if the whole entry does. -/
theorem entryReads_inside :
    (∀ a ∈ entryReads mem p, mmapAddr ≤ a ∧ a < mmapEnd) ↔
      mmapAddr ≤ p ∧ p + 24 ≤ mmapEnd := by
  constructor
  · intro h
    have hfirst := h p (by simp [entryReads])
    have hlast := h (p + 23) (by simp [entryReads])
    omega
  · intro h a ha
    have hrange : p ≤ a ∧ a < p + 24 := by
      simp only [entryReads, List.mem_append, List.mem_range'_1] at ha
      rcases ha with (ha | ha) | ha
      · omega
      · split at ha
        · simp only [List.mem_range'_1] at ha
          omega
        · cases ha
      · omega
    omega

theorem walkReads_inside (h : Leaves (nextEntry mem) (· < mmapEnd) n p) :
    (∀ rounds, ∀ a ∈ walkReads mem mmapEnd rounds p, mmapAddr ≤ a ∧ a < mmapEnd) ↔
      ∀ j < n, mmapAddr ≤ (nextEntry mem)^[j] p ∧ (nextEntry mem)^[j] p + 24 ≤ mmapEnd := by
  induction n generalizing p with
  | zero =>
    refine iff_of_true (fun rounds a ha => ?_) (fun j hj => absurd hj (Nat.not_lt_zero j))
    cases rounds with
    | zero => cases ha
    | succ rounds =>
      have hout : ¬ p < mmapEnd := h.out
      simp [walkReads, hout] at ha
  | succ n ih =>
    have hp : p < mmapEnd := h.head
    constructor
    · intro hin j hj
      have hreads : ∀ rounds, ∀ a ∈ entryReads mem p ++
          walkReads mem mmapEnd rounds (nextEntry mem p), mmapAddr ≤ a ∧ a < mmapEnd := by
        intro rounds
        have hround := hin (rounds + 1)
        rwa [walkReads, if_pos hp] at hround
      cases j with
      | zero => exact entryReads_inside.mp fun a ha => hreads 0 a (List.mem_append_left _ ha)
      | succ j =>
        exact (ih h.tail).mp (fun rounds a ha => hreads rounds a (List.mem_append_right _ ha))
          j (by omega)
    · intro hin rounds a ha
      cases rounds with
      | zero => cases ha
      | succ rounds =>
        rw [walkReads, if_pos hp] at ha
        rcases List.mem_append.mp ha with ha | ha
        · exact entryReads_inside.mpr (hin 0 (by omega)) a ha
        · exact (ih h.tail).mpr (fun j hj => hin (j + 1) (by omega)) rounds a ha

/-- A safe walk visits no place twice, so that it is over after one step a byte. -/
theorem WalkSafe.leadsOut (h : WalkSafe mem mmapAddr mmapLength)
    (hmem : mmapAddr + mmapLength < 2 ^ 32) : SizesLeadOut mem mmapAddr mmapLength := by
  obtain ⟨fuel, hends⟩ := h.ends
  obtain ⟨n, -, hleaves⟩ := (pmmInitMultiboot_isSome hmem).mp (hends .powerOn)
  have hentries := (walkReads_inside hleaves).mp h.inside
  have hcard : n ≤ (Finset.Ico mmapAddr (mmapAddr + mmapLength)).card := by
    apply hleaves.le_card
    intro j hj
    have hentry := hentries j hj
    rw [Finset.mem_Ico]
    omega
  rw [Nat.card_Ico] at hcard
  have hout := hleaves.out
  exact ⟨n, by omega, by omega, hentries⟩

theorem SizesLeadOut.safe (h : SizesLeadOut mem mmapAddr mmapLength)
    (hmem : mmapAddr + mmapLength < 2 ^ 32) : WalkSafe mem mmapAddr mmapLength := by
  obtain ⟨n, -, hout, hentries⟩ := h
  have hleaves : Leaves (nextEntry mem) (· < mmapAddr + mmapLength) n mmapAddr := by
    refine ⟨fun j hj => ?_, by omega⟩
    have hentry := hentries j hj
    omega
  exact ⟨⟨n + 1, fun s => (pmmInitMultiboot_isSome hmem).mpr ⟨n, by omega, hleaves⟩⟩,
    (walkReads_inside hleaves).mpr hentries⟩

end Reads

/-- The walks end inside the map exactly if its `size` fields lead out of it. -/
theorem map_walk_safe_iff (mem : Nat → UInt8) (mmapAddr mmapLength : Nat)
    (hmem : mmapAddr + mmapLength < 2 ^ 32) :
    WalkSafe mem mmapAddr mmapLength ↔ SizesLeadOut mem mmapAddr mmapLength :=
  ⟨fun h => h.leadsOut hmem, fun h => h.safe hmem⟩

theorem map_walk_safe_one_entry : WalkSafe oneEntryMap 0x9000 24 :=
  (map_walk_safe_iff oneEntryMap 0x9000 24 (by decide)).mpr
    ⟨1, by decide, by decide, by decide⟩

/-- An entry of which the `size` field is -4. -/
def standingMap (a : Nat) : UInt8 :=
  [0xFC, 0xFF, 0xFF, 0xFF, 0, 0, 0, 0, 0, 0, 0, 0, 0, 0, 0x40, 0, 0, 0, 0, 0, 1, 0, 0, 0].getD
    (a - 0x9000) 0

/-- On it both walks stand still. -/
theorem standing_walk_never_ends :
    ¬ ∀ (mem : Nat → UInt8) (mmapAddr mmapLength : Nat), mmapAddr + mmapLength < 2 ^ 32 →
      WalkSafe mem mmapAddr mmapLength := by
  intro hall
  obtain ⟨n, -, hout, -⟩ := (hall standingMap 0x9000 24 (by decide)).leadsOut (by decide)
  have hstill : nextEntry standingMap 0x9000 = 0x9000 := by decide
  rw [Function.iterate_fixed hstill] at hout
  simp at hout

end HumanOS

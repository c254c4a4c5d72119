import Mathlib.Data.List.Nodup

/-!
Doubly linked chains held in two pointer maps. A segment is given by the node before it, the
pointer to its first node, its nodes, its last node and the pointer that leaves it.
-/
namespace HumanOS.Lib

variable {ι : Type*} {next prev next' prev' : ι → ι} {null : ι}
variable {p a q c b n x : ι} {l r bs : List ι}

/-- The nodes `bs` lie one after the other, entered from `p` through `a`, left from `q` to `c`. -/
def Seg (next prev : ι → ι) (null : ι) : ι → ι → List ι → ι → ι → Prop
  | p, a, [], q, c => p = q ∧ a = c
  | p, a, b :: bs, q, c =>
    a = b ∧ b ≠ null ∧ prev b = p ∧ Seg next prev null b (next b) bs q c

/-- A whole chain: no node before the first, and the last one points nowhere. -/
def Linked (next prev : ι → ι) (null head : ι) (bs : List ι) : Prop :=
  ∃ q, Seg next prev null null head bs q null

theorem Seg.append_iff : Seg next prev null p a (l ++ r) q c ↔
    ∃ q' c', Seg next prev null p a l q' c' ∧ Seg next prev null q' c' r q c := by
  induction l generalizing p a with
  | nil => simp [Seg]
  | cons b l ih =>
    simp only [List.cons_append, Seg, ih]
    constructor
    · rintro ⟨ha, hb, hp, q', c', hl, hr⟩
      exact ⟨q', c', ⟨ha, hb, hp, hl⟩, hr⟩
    · rintro ⟨q', c', ⟨ha, hb, hp, hl⟩, hr⟩
      exact ⟨ha, hb, hp, q', c', hl, hr⟩

/-- A segment reads the pointers of its own nodes only. -/
theorem Seg.congr (h : Seg next prev null p a bs q c)
    (hn : ∀ b ∈ bs, next' b = next b) (hp : ∀ b ∈ bs, prev' b = prev b) :
    Seg next' prev' null p a bs q c := by
  induction bs generalizing p a with
  | nil => exact h
  | cons b bs ih =>
    obtain ⟨ha, hb, hprev, htail⟩ := h
    refine ⟨ha, hb, (hp b (by simp)).trans hprev, ?_⟩
    rw [hn b (by simp)]
    exact ih htail (fun x hx => hn x (by simp [hx])) (fun x hx => hp x (by simp [hx]))

theorem Seg.ne_null (h : Seg next prev null p a bs q c) (hx : x ∈ bs) : x ≠ null := by
  induction bs generalizing p a with
  | nil => simp at hx
  | cons b bs ih =>
    obtain ⟨-, hb, -, htail⟩ := h
    rcases List.mem_cons.mp hx with rfl | hx
    · exact hb
    · exact ih htail hx

/-- The pointers of an inner node. -/
theorem Seg.mid (h : Seg next prev null p a (l ++ b :: n :: r) q c) :
    next b = n ∧ prev n = b := by
  obtain ⟨q', c', -, -, -, -, hn, -, hprev, -⟩ := Seg.append_iff.mp h
  exact ⟨hn, hprev⟩

namespace Linked

theorem congr {head : ι} (h : Linked next prev null head bs)
    (hn : ∀ b ∈ bs, next' b = next b) (hp : ∀ b ∈ bs, prev' b = prev b) :
    Linked next' prev' null head bs :=
  h.imp fun _ hq => hq.congr hn hp

theorem ne_null {head : ι} (h : Linked next prev null head bs) (hx : x ∈ bs) : x ≠ null :=
  h.elim fun _ hq => hq.ne_null hx

theorem nil_iff {head : ι} : Linked next prev null head [] ↔ head = null := by
  simp [Linked, Seg]

/-- The nodes that follow an address are determined by the `next` pointers. -/
theorem unique {q' : ι} {cs : List ι} (h : Seg next prev null p a bs q null)
    {p' : ι} (h' : Seg next prev null p' a cs q' null) : bs = cs := by
  induction bs generalizing p p' a cs with
  | nil =>
    cases cs with
    | nil => rfl
    | cons d cs => exact (h'.2.1 (h'.1.symm.trans h.2)).elim
  | cons b bs ih =>
    cases cs with
    | nil => exact (h.2.1 (h.1.symm.trans h'.2)).elim
    | cons d cs =>
      obtain ⟨rfl, -, -, htail⟩ := h
      obtain ⟨rfl, -, -, htail'⟩ := h'
      rw [ih htail htail']

/-- A chain that ends never visits a node twice. -/
theorem seg_nodup (h : Seg next prev null p a bs q null) : bs.Nodup := by
  induction bs generalizing p a with
  | nil => simp
  | cons b bs ih =>
    have htail := h.2.2.2
    refine List.nodup_cons.mpr ⟨?_, ih htail⟩
    intro hmem
    obtain ⟨l, r, rfl⟩ := List.append_of_mem hmem
    obtain ⟨q', c', -, hr⟩ := Seg.append_iff.mp htail
    have hsame := unique (h.1 ▸ h) (hr.1 ▸ hr)
    have hlen := congrArg List.length hsame
    simp at hlen
    omega

theorem nodup {head : ι} (h : Linked next prev null head bs) : bs.Nodup :=
  h.elim fun _ hq => seg_nodup hq

/-- The last node points nowhere. -/
theorem next_last {head : ι} (h : Linked next prev null head (l ++ [b])) : next b = null := by
  obtain ⟨q, hq⟩ := h
  obtain ⟨q', c', -, -, -, -, -, hnull⟩ := Seg.append_iff.mp hq
  exact hnull

/-- The first node has none before it. -/
theorem prev_head {head : ι} (h : Linked next prev null head (b :: bs)) : prev b = null :=
  h.elim fun _ hq => hq.2.2.1

theorem head_eq {head : ι} (h : Linked next prev null head (b :: bs)) : head = b :=
  h.elim fun _ hq => hq.1

theorem mid {head : ι} (h : Linked next prev null head (l ++ b :: n :: r)) :
    next b = n ∧ prev n = b := h.elim fun _ hq => hq.mid

/-- What a node points to, by its place in the list. -/
theorem next_eq {head : ι} (h : Linked next prev null head (l ++ b :: r)) :
    next b = r.headD null := by
  cases r with
  | nil => exact h.next_last
  | cons d r => exact h.mid.1

/-- Attaching a fresh node behind the last one. -/
theorem concat {head : ι} (h : Linked next prev null head (l ++ [b])) (hx : x ≠ null)
    (hnx : next' x = null) (hpx : prev' x = b) (hnb : next' b = x)
    (hn : ∀ d ∈ l, next' d = next d) (hp : ∀ d ∈ l ++ [b], prev' d = prev d) :
    Linked next' prev' null head (l ++ [b] ++ [x]) := by
  obtain ⟨q, hq⟩ := h
  obtain ⟨q', c', hl, rfl, hb, hprev, -⟩ := Seg.append_iff.mp hq
  refine ⟨x, ?_⟩
  rw [List.append_assoc]
  refine Seg.append_iff.mpr ⟨q', c', hl.congr hn (fun d hd => hp d (by simp [hd])), ?_⟩
  exact ⟨rfl, hb, (hp c' (by simp)).trans hprev, hnb, hx, hpx, rfl, hnx⟩

/-- A chain of one fresh node. -/
theorem single (hx : x ≠ null) (hnx : next x = null) (hpx : prev x = null) :
    Linked next prev null x [x] := ⟨x, rfl, hx, hpx, rfl, hnx⟩

/-- Cutting the chain off behind `b`. -/
theorem cut {head : ι} (h : Linked next prev null head (l ++ b :: r)) (hnb : next' b = null)
    (hn : ∀ d ∈ l, next' d = next d) : Linked next' prev null head (l ++ [b]) := by
  obtain ⟨q, hq⟩ := h
  obtain ⟨q', c', hl, rfl, hb, hprev, -⟩ := Seg.append_iff.mp hq
  exact ⟨c', Seg.append_iff.mpr ⟨q', c', hl.congr hn fun _ _ => rfl, rfl, hb, hprev, rfl, hnb⟩⟩

/-- Unlinking the node behind `b`. -/
theorem unlink {head : ι} (h : Linked next prev null head (l ++ b :: n :: r))
    (hnb : next' b = next n) (hpr : next n ≠ null → prev' (next n) = b)
    (hn : ∀ d ∈ l ++ r, next' d = next d)
    (hp : ∀ d ∈ l ++ b :: r, d ≠ next n → prev' d = prev d) :
    Linked next' prev' null head (l ++ b :: r) := by
  have hdup := h.nodup
  obtain ⟨q, hq⟩ := h
  obtain ⟨q', c', hl, rfl, hb, hprev, rfl, hnn, hnprev, hr⟩ := Seg.append_iff.mp hq
  have hbefore : ∀ d ∈ l ++ [c'], d ≠ next (next c') := by
    intro d hd he
    cases r with
    | nil =>
      have hnull : d ≠ null := hq.ne_null (by
        rcases List.mem_append.mp hd with hd | hd <;> simp_all)
      exact hnull (he.trans hr.2)
    | cons e r =>
      have hde : d = e := he.trans hr.1
      subst hde
      rcases List.mem_append.mp hd with hd | hd
      · simp [List.nodup_append] at hdup
        exact (hdup.2.2 d hd).2.2.1 rfl
      · simp at hd
        subst hd
        simp [List.nodup_append] at hdup
  have hsame : ∀ d ∈ l ++ [c'], prev' d = prev d := by
    intro d hd
    refine hp d ?_ (hbefore d hd)
    rcases List.mem_append.mp hd with hd | hd <;> simp_all
  have hseg : Seg next prev null null head l q' c' := hl
  have hkeep : Seg next' prev' null null head l q' c' := hseg.congr
    (fun d hd => hn d (by simp [hd])) (fun d hd => hsame d (by simp [hd]))
  cases r with
  | nil =>
    refine ⟨c', Seg.append_iff.mpr ⟨q', c', hkeep, rfl, hb, ?_, rfl, ?_⟩⟩
    · exact (hsame c' (by simp)).trans hprev
    · rw [hnb]
      exact hr.2
  | cons e r =>
    obtain ⟨he, henull, heprev, htail⟩ := hr
    refine ⟨q, Seg.append_iff.mpr ⟨q', c', hkeep, rfl, hb, ?_, hnb.trans he, henull, ?_, ?_⟩⟩
    · exact (hsame c' (by simp)).trans hprev
    · rw [← he]
      exact hpr (by rw [he]; exact henull)
    · rw [hn e (by simp)]
      refine htail.congr (fun d hd => hn d (by simp [hd])) (fun d hd => hp d (by simp [hd]) ?_)
      rintro rfl
      rw [he] at hd
      have hrdup := (List.nodup_append.mp hdup).2.1
      simp_all

end Linked

end HumanOS.Lib

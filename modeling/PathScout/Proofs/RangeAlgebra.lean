import Mathlib.Tactic
import PathScout.RangeSet

/-!
# Sets of ranges as sets of integers

A set of ranges is read as the set of the integers in its ranges. In normal form the ranges are not
empty, stand in increasing order, and do not touch.

* `RangeSet.Normal`: the normal form. Every operation gives sets in normal form.
* `mem_inter`, `mem_compl`, `mem_shift`, `mem_satisfying`: the members of what an operation gives.
-/

namespace PathScout

open List

variable {op : BinaryOp} {t : CType} {a b : Int}

/-- The integers from the lower to the upper end. -/
instance : Membership Int Interval := ⟨fun r n => r.lo ≤ n ∧ n ≤ r.hi⟩

/-- The integers in one of the ranges. -/
instance : Membership Int RangeSet := ⟨fun s n => ∃ r ∈ s.ranges, n ∈ r⟩

theorem Interval.mem_def {r : Interval} {n : Int} : n ∈ r ↔ r.lo ≤ n ∧ n ≤ r.hi := Iff.rfl

instance (n : Int) (r : Interval) : Decidable (n ∈ r) :=
  inferInstanceAs (Decidable (r.lo ≤ n ∧ n ≤ r.hi))

/-- A check of every item that never fails. -/
theorem mapM_eq_map {α β : Type} {f : α → Option β} {g : α → β} {xs : List α}
    (h : ∀ x ∈ xs, f x = some (g x)) : xs.mapM f = some (xs.map g) := by
  induction xs with
  | nil => rfl
  | cons x xs ih =>
    obtain ⟨hx, hxs⟩ := forall_mem_cons.1 h
    simp [mapM_cons, hx, ih hxs]

namespace RangeSet

variable {s t : RangeSet} {n hi next : Int} {r : Interval} {rs : List Interval} {c : CType}

theorem mem_def : n ∈ s ↔ ∃ r ∈ s.ranges, n ∈ r := Iff.rfl

@[simp] theorem mem_nil : n ∈ (⟨[]⟩ : RangeSet) ↔ False := by simp [mem_def]

@[simp] theorem mem_cons : n ∈ (⟨r :: rs⟩ : RangeSet) ↔ n ∈ r ∨ n ∈ (⟨rs⟩ : RangeSet) := by
  simp [mem_def]

/-- The ranges are not empty, in increasing order, and at least one integer lies between any two of
them. -/
structure Normal (s : RangeSet) : Prop where
  le : ∀ r ∈ s.ranges, r.lo ≤ r.hi
  apart : s.ranges.Pairwise fun a b => a.hi + 1 < b.lo

theorem normal_nil : Normal ⟨[]⟩ := ⟨by simp, .nil⟩

theorem normal_cons : Normal ⟨r :: rs⟩ ↔ r.lo ≤ r.hi ∧ (∀ q ∈ rs, r.hi + 1 < q.lo) ∧ Normal ⟨rs⟩ := by
  constructor
  · rintro ⟨le, apart⟩
    rw [pairwise_cons] at apart
    exact ⟨le r (by simp), apart.1, fun q hq => le q (by simp [hq]), apart.2⟩
  · rintro ⟨hr, far, le, apart⟩
    refine ⟨fun q hq => ?_, pairwise_cons.2 ⟨far, apart⟩⟩
    rcases List.mem_cons.1 hq with rfl | hq
    · exact hr
    · exact le q hq

/-- The members behind the first range of a set in normal form lie behind its end. -/
theorem lt_of_mem_tail (h : Normal ⟨r :: rs⟩) (hn : n ∈ (⟨rs⟩ : RangeSet)) : r.hi + 1 < n := by
  obtain ⟨q, hq, hqn⟩ := hn
  have := (normal_cons.1 h).2.1 q hq
  rw [Interval.mem_def] at hqn
  omega

theorem isEmpty_iff_forall_notMem (h : s.Normal) : s.isEmpty = true ↔ ∀ n, n ∉ s := by
  obtain ⟨rs⟩ := s
  cases rs with
  | nil => simp [isEmpty]
  | cons r rs =>
    simp only [isEmpty, isEmpty_cons, Bool.false_eq_true, false_iff, not_forall, not_not]
    exact ⟨r.lo, by simp [Interval.mem_def, (normal_cons.1 h).1]⟩

/-! ### Intervals and domains -/

theorem mem_interval {lo : Int} : n ∈ interval lo hi ↔ lo ≤ n ∧ n ≤ hi := by
  unfold interval
  split
  · simp [Interval.mem_def]
  · simp only [empty, mem_nil, false_iff]
    omega

theorem normal_interval (lo hi : Int) : (interval lo hi).Normal := by
  unfold interval
  split
  · exact normal_cons.2 ⟨by assumption, by simp, normal_nil⟩
  · exact normal_nil

theorem mem_domain : n ∈ domain c ↔ n ∈ c.domain := mem_interval

theorem normal_domain (c : CType) : (domain c).Normal := normal_interval _ _

/-! ### Intersection -/

/-- What two ranges have in common. -/
def overlap (a b : Interval) : Interval := ⟨max a.lo b.lo, min a.hi b.hi⟩

theorem mem_overlap {a b : Interval} : n ∈ overlap a b ↔ n ∈ a ∧ n ∈ b := by
  simp only [overlap, Interval.mem_def]
  omega

/-- What is left to intersect once the ranges that stand first are done with: the one that ends
first is used up. -/
theorem interRanges_cons (a b : Interval) (as bs : List Interval) : interRanges (a :: as) (b :: bs) =
      (if (overlap a b).lo ≤ (overlap a b).hi then [overlap a b] else []) ++
        if a.hi < b.hi then interRanges as (b :: bs) else interRanges (a :: as) bs := by
  rw [interRanges]
  by_cases h : (overlap a b).lo ≤ (overlap a b).hi
  · simp only [h, if_true, singleton_append]
    exact if_pos h
  · simp only [h, if_false, nil_append]
    exact if_neg h

theorem mem_append {qs : List Interval} :
    n ∈ (⟨rs ++ qs⟩ : RangeSet) ↔ n ∈ (⟨rs⟩ : RangeSet) ∨ n ∈ (⟨qs⟩ : RangeSet) := by
  simp only [mem_def, List.mem_append]
  grind

theorem mem_if_nonempty : n ∈ (⟨if r.lo ≤ r.hi then [r] else []⟩ : RangeSet) ↔ n ∈ r := by
  split
  · simp
  · simp only [mem_nil, Interval.mem_def, false_iff]
    omega

theorem mem_interRanges {as bs : List Interval} (ha : Normal ⟨as⟩) (hb : Normal ⟨bs⟩) :
    n ∈ (⟨interRanges as bs⟩ : RangeSet) ↔ n ∈ (⟨as⟩ : RangeSet) ∧ n ∈ (⟨bs⟩ : RangeSet) := by
  match as, bs with
  | [], bs | a :: as, [] => simp [interRanges]
  | a :: as, b :: bs =>
    rw [interRanges_cons, mem_append, mem_if_nonempty, mem_overlap]
    -- The range that ends first has nothing in common with what stands behind the other one.
    split
    · next hlt =>
      rw [mem_interRanges (normal_cons.1 ha).2.2 hb, mem_cons, mem_cons]
      have far : n ∈ (⟨bs⟩ : RangeSet) → n ∉ a := fun h h' => by
        have := lt_of_mem_tail hb h
        rw [Interval.mem_def] at h'
        omega
      tauto
    · next hle =>
      rw [mem_interRanges ha (normal_cons.1 hb).2.2, mem_cons, mem_cons]
      have far : n ∈ (⟨as⟩ : RangeSet) → n ∉ b := fun h h' => by
        have := lt_of_mem_tail ha h
        rw [Interval.mem_def] at h'
        omega
      tauto
termination_by as.length + bs.length

theorem mem_inter (hs : s.Normal) (ht : t.Normal) : n ∈ s.inter t ↔ n ∈ s ∧ n ∈ t :=
  mem_interRanges hs ht

/-- Every range of an intersection is a common part of two ranges. -/
theorem exists_overlap_of_mem {r : Interval} {as bs : List Interval}
    (h : r ∈ interRanges as bs) : ∃ a ∈ as, ∃ b ∈ bs, r = overlap a b ∧ r.lo ≤ r.hi := by
  match as, bs with
  | [], bs | a :: as, [] => simp [interRanges] at h
  | a :: as, b :: bs =>
    rw [interRanges_cons, List.mem_append] at h
    rcases h with h | h
    · split at h
      · next hle =>
        obtain rfl := mem_singleton.1 h
        exact ⟨a, by simp, b, by simp, rfl, hle⟩
      · simp at h
    · split at h
      · obtain ⟨x, hx, y, hy, e⟩ := exists_overlap_of_mem h
        exact ⟨x, by simp [hx], y, hy, e⟩
      · obtain ⟨x, hx, y, hy, e⟩ := exists_overlap_of_mem h
        exact ⟨x, hx, y, by simp [hy], e⟩
termination_by as.length + bs.length

theorem normal_interRanges {as bs : List Interval} (ha : Normal ⟨as⟩) (hb : Normal ⟨bs⟩) :
    Normal ⟨interRanges as bs⟩ := by
  match as, bs with
  | [], bs | a :: as, [] => simpa [interRanges] using normal_nil
  | a :: as, b :: bs =>
    rw [interRanges_cons]
    have rest : Normal
        ⟨if a.hi < b.hi then interRanges as (b :: bs) else interRanges (a :: as) bs⟩ := by
      split
      · exact normal_interRanges (normal_cons.1 ha).2.2 hb
      · exact normal_interRanges ha (normal_cons.1 hb).2.2
    split
    · next hle =>
      rw [singleton_append]
      refine normal_cons.2 ⟨hle, fun q hq => ?_, rest⟩
      split at hq
      · next hlt =>
        obtain ⟨x, hx, y, -, rfl, -⟩ := exists_overlap_of_mem hq
        have := (normal_cons.1 ha).2.1 x hx
        simp only [overlap]
        omega
      · next hge =>
        obtain ⟨x, -, y, hy, rfl, -⟩ := exists_overlap_of_mem hq
        have := (normal_cons.1 hb).2.1 y hy
        simp only [overlap]
        omega
    · exact rest
termination_by as.length + bs.length

theorem normal_inter (hs : s.Normal) (ht : t.Normal) : (s.inter t).Normal := normal_interRanges hs ht

/-! ### Complement -/

/-- The gaps behind `next` lie behind it, if all ranges do. -/
theorem le_of_mem_gaps (h : Normal ⟨rs⟩) (far : ∀ r ∈ rs, next ≤ r.lo) :
    ∀ q ∈ gaps next hi rs, next ≤ q.lo := by
  induction rs generalizing next with
  | nil =>
    intro q hq
    simp only [gaps] at hq
    split at hq
    · simp only [mem_singleton] at hq
      simp [hq]
    · simp at hq
  | cons r rs ih =>
    have hr := normal_cons.1 h
    have hnext := far r (by simp)
    have more : ∀ q ∈ gaps (r.hi + 1) hi rs, next ≤ q.lo := fun q hq => by
      have := ih hr.2.2 (fun x hx => (hr.2.1 x hx).le) q hq
      omega
    intro q hq
    simp only [gaps] at hq
    split at hq
    · rcases List.mem_cons.1 hq with rfl | hq
      · simp
      · exact more q hq
    · exact more q hq

theorem notMem_gaps (h : Normal ⟨rs⟩) (far : ∀ r ∈ rs, next ≤ r.lo) (hn : n < next) :
    n ∉ (⟨gaps next hi rs⟩ : RangeSet) := by
  rintro ⟨q, hq, hqn⟩
  have := le_of_mem_gaps h far q hq
  rw [Interval.mem_def] at hqn
  omega

theorem mem_gaps (h : Normal ⟨rs⟩) (hn : next ≤ n) (hhi : n ≤ hi) :
    n ∈ (⟨gaps next hi rs⟩ : RangeSet) ↔ n ∉ (⟨rs⟩ : RangeSet) := by
  induction rs generalizing next with
  | nil => simp [gaps, hn.trans hhi, Interval.mem_def, hn, hhi]
  | cons r rs ih =>
    obtain ⟨hle, far, hrs⟩ := normal_cons.1 h
    rw [mem_cons, not_or]
    by_cases hbelow : n ≤ r.hi
    · -- Up to the end of the first range, only the gap before it counts.
      have hgaps : n ∉ (⟨gaps (r.hi + 1) hi rs⟩ : RangeSet) :=
        notMem_gaps hrs (fun q hq => (far q hq).le) (by omega)
      have hrest : n ∉ (⟨rs⟩ : RangeSet) := fun hmem => by
        have := lt_of_mem_tail h hmem
        omega
      simp only [gaps]
      split
      · simp only [mem_cons, hgaps, hrest, Interval.mem_def, or_false, not_false_eq_true, and_true]
        omega
      · simp only [hgaps, hrest, Interval.mem_def, not_false_eq_true, and_true, false_iff]
        omega
    · have hr : n ∉ r := fun hmem => hbelow hmem.2
      simp only [gaps, hr, not_false_eq_true, true_and]
      split
      · rw [mem_cons, ih hrs (by omega)]
        simp only [Interval.mem_def, or_iff_right_iff_imp]
        omega
      · exact ih hrs (by omega)

theorem normal_gaps (h : Normal ⟨rs⟩) : Normal ⟨gaps next hi rs⟩ := by
  induction rs generalizing next with
  | nil =>
    simp only [gaps]
    split
    · exact normal_cons.2 ⟨by assumption, by simp, normal_nil⟩
    · exact normal_nil
  | cons r rs ih =>
    obtain ⟨hle, far, hrs⟩ := normal_cons.1 h
    simp only [gaps]
    split
    · refine normal_cons.2 ⟨by dsimp only; omega, fun q hq => ?_, ih hrs⟩
      have := le_of_mem_gaps hrs (fun x hx => (far x hx).le) q hq
      dsimp only
      omega
    · exact ih hrs

theorem mem_compl (h : s.Normal) : n ∈ s.compl c ↔ n ∈ c.domain ∧ n ∉ s := by
  rw [compl, mem_inter (normal_gaps h) (normal_interval _ _), mem_interval, and_comm]
  exact and_congr_right fun hd => mem_gaps h hd.1 hd.2

theorem normal_compl (h : s.Normal) : (s.compl c).Normal :=
  normal_inter (normal_gaps h) (normal_interval _ _)

/-! ### Relations to a constant -/

end RangeSet

/-- Does a comparison hold between two integers? Other operators compare nothing. -/
def BinaryOp.holds (op : BinaryOp) (l r : Int) : Bool :=
  match op with
  | .eq => l = r
  | .ne => l ≠ r
  | .lt => l < r
  | .le => l ≤ r
  | .gt => l > r
  | .ge => l ≥ r
  | _ => true

theorem BinaryOp.holds_negated {neg : BinaryOp} (h : op.negated? = some neg) (l r : Int) :
    neg.holds l r = !op.holds l r := by
  cases op <;> cases h <;> grind [holds]

theorem BinaryOp.holds_reversed {rev : BinaryOp} (h : op.reversed? = some rev) (l r : Int) :
    rev.holds l r = op.holds r l := by
  cases op <;> cases h <;> grind [holds]

namespace RangeSet

variable {s : RangeSet} {n : Int} {c : CType} {r bounds last : Interval} {rs : List Interval}

theorem mem_satisfying {op : BinaryOp} {k : Int} :
    n ∈ satisfying op k c ↔ n ∈ c.domain ∧ op.holds n k = true := by
  have hpoint : ∀ m, m ∈ (point k).inter (interval c.domain.lo c.domain.hi) ↔
      m = k ∧ m ∈ c.domain := fun m => by
    rw [point, mem_inter (normal_interval _ _) (normal_interval _ _), mem_interval, mem_interval,
      Interval.mem_def]
    omega
  have hnormal : ((point k).inter (interval c.domain.lo c.domain.hi)).Normal :=
    normal_inter (normal_interval _ _) (normal_interval _ _)
  cases op with
  | eq => simp only [satisfying, hpoint, BinaryOp.holds, decide_eq_true_eq, and_comm]
  | ne =>
    simp only [satisfying, mem_compl hnormal, hpoint, BinaryOp.holds, decide_eq_true_eq]
    tauto
  | _ =>
    simp only [satisfying, mem_interval, Interval.mem_def, BinaryOp.holds, decide_eq_true_eq, and_true]
    try omega

theorem normal_satisfying (op : BinaryOp) (k : Int) (c : CType) : (satisfying op k c).Normal := by
  cases op with
  | eq => exact normal_inter (normal_interval _ _) (normal_interval _ _)
  | ne => exact normal_compl (normal_inter (normal_interval _ _) (normal_interval _ _))
  | _ => exact normal_interval _ _

/-! ### Addition of a constant -/

/-- The number of bits at which a type wraps. -/
def wrapWidth (c : CType) : Nat := c.bitWidth?.getD 64

theorem wrapWidth_cases (c : CType) : wrapWidth c = 8 ∨ wrapWidth c = 32 ∨ wrapWidth c = 64 := by
  cases c <;> simp [wrapWidth, CType.bitWidth?]

/-- The numbers with sign of a given width. -/
def words (bits : Nat) : Interval := ⟨-(2 ^ bits / 2), 2 ^ bits / 2 - 1⟩

theorem domain_subset_words (h : n ∈ c.domain) : n ∈ words (wrapWidth c) := by
  cases c <;> simp only [CType.domain, words, wrapWidth, CType.bitWidth?, Interval.mem_def, Word.min,
      Word.max, Option.getD_some, Option.getD_none] at h ⊢ <;> omega

/-- A range that is moved consists of the numbers of the width that differ from a moved number by
a multiple of the modulus. -/
theorem mem_shiftInterval {bits : Nat} (hbits : bits = 8 ∨ bits = 32 ∨ bits = 64) (delta : Int)
    (hr : r.lo ≤ r.hi) :
    n ∈ (⟨shiftInterval bits delta r⟩ : RangeSet) ↔
      n ∈ words bits ∧ ∃ v ∈ r, (2 ^ bits : Int) ∣ n - (v + delta) := by
  obtain ⟨lo, hi⟩ := r
  have hpow : ((Nat.pow 2 bits : Nat) : Int) = 2 ^ bits := by simp
  simp only [shiftInterval, hpow, words, Interval.mem_def] at hr ⊢
  constructor
  · intro h
    -- Every member keeps its distance from the lower end, up to the modulus.
    refine ⟨?_, lo + (n - (lo + delta)) % 2 ^ bits, ?_, ?_⟩ <;>
      rcases hbits with rfl | rfl | rfl <;> norm_num only at h ⊢ <;>
      split at h <;> (try split at h) <;>
      simp only [mem_cons, mem_nil, or_false, Interval.mem_def] at h <;> omega
  · rintro ⟨hn, v, hv, hd⟩
    rcases hbits with rfl | rfl | rfl <;> norm_num only at hn hd ⊢ <;> split <;> (try split) <;>
      simp only [mem_cons, mem_nil, or_false, Interval.mem_def] <;> omega

theorem clip_eq_some {q : Interval} : clip bounds r = some q ↔ q = overlap r bounds ∧ q.lo ≤ q.hi := by
  have hclip : clip bounds r =
      if (overlap r bounds).lo ≤ (overlap r bounds).hi then some (overlap r bounds) else none := rfl
  rw [hclip]
  split <;> grind

theorem mem_filterMap_clip :
    n ∈ (⟨rs.filterMap (clip bounds)⟩ : RangeSet) ↔ n ∈ (⟨rs⟩ : RangeSet) ∧ n ∈ bounds := by
  simp only [mem_def, mem_filterMap, clip_eq_some]
  constructor
  · rintro ⟨-, ⟨r, hr, rfl, -⟩, hn⟩
    exact ⟨⟨r, hr, (mem_overlap.1 hn).1⟩, (mem_overlap.1 hn).2⟩
  · rintro ⟨⟨r, hr, hn⟩, hb⟩
    have hmem : n ∈ overlap r bounds := mem_overlap.2 ⟨hn, hb⟩
    exact ⟨_, ⟨r, hr, rfl, hmem.1.trans hmem.2⟩, hmem⟩

/-- Ranges that may be joined from left to right: none is empty, and none starts before the one in
front of it. -/
def Ascending (rs : List Interval) : Prop :=
  (∀ r ∈ rs, r.lo ≤ r.hi) ∧ rs.Pairwise fun a b => a.lo ≤ b.lo

theorem ascending_cons : Ascending (r :: rs) ↔ r.lo ≤ r.hi ∧ (∀ q ∈ rs, r.lo ≤ q.lo) ∧ Ascending rs := by
  simp only [Ascending, List.mem_cons, forall_eq_or_imp, pairwise_cons]
  tauto

/-- The range that takes the place of two that meet or overlap. -/
theorem ascending_joined (h : Ascending (last :: r :: rs)) :
    Ascending (⟨last.lo, max last.hi r.hi⟩ :: rs) := by
  obtain ⟨hle, far, hr⟩ := ascending_cons.1 h
  exact ascending_cons.2
    ⟨le_max_of_le_left hle, fun q hq => far q (mem_cons_of_mem _ hq), (ascending_cons.1 hr).2.2⟩

theorem mem_joinAfter (h : Ascending (last :: rs)) :
    n ∈ (⟨joinAfter last rs⟩ : RangeSet) ↔ n ∈ last ∨ n ∈ (⟨rs⟩ : RangeSet) := by
  induction rs generalizing last with
  | nil => simp [joinAfter]
  | cons r rs ih =>
    have hlo : last.lo ≤ r.lo := (ascending_cons.1 h).2.1 r (by simp)
    rw [joinAfter]
    split
    · next hmeet =>
      rw [ih (ascending_joined h), mem_cons, ← or_assoc]
      refine or_congr_left ?_
      simp only [Interval.mem_def]
      omega
    · rw [mem_cons, ih (ascending_cons.1 h).2.2, mem_cons]

theorem normal_joinAfter (h : Ascending (last :: rs)) :
    Normal ⟨joinAfter last rs⟩ ∧ ∀ q ∈ joinAfter last rs, last.lo ≤ q.lo := by
  induction rs generalizing last with
  | nil =>
    simp only [joinAfter, mem_singleton, forall_eq, le_refl, and_true]
    exact normal_cons.2 ⟨(ascending_cons.1 h).1, by simp, normal_nil⟩
  | cons r rs ih =>
    obtain ⟨hle, far, hr⟩ := ascending_cons.1 h
    have hlo : last.lo ≤ r.lo := far r (by simp)
    rw [joinAfter]
    split
    · exact ih (ascending_joined h)
    · next hapart =>
      obtain ⟨hnormal, hbehind⟩ := ih hr
      refine ⟨normal_cons.2 ⟨hle, fun q hq => ?_, hnormal⟩, fun q hq => ?_⟩
      · have := hbehind q hq
        omega
      · rcases List.mem_cons.1 hq with rfl | hq
        · exact le_rfl
        · exact hlo.trans (hbehind q hq)

theorem mem_join (h : Ascending rs) : n ∈ (⟨join rs⟩ : RangeSet) ↔ n ∈ (⟨rs⟩ : RangeSet) := by
  cases rs with
  | nil => simp [join]
  | cons r rs => rw [join, mem_joinAfter h, mem_cons]

theorem normal_join (h : Ascending rs) : Normal ⟨join rs⟩ := by
  cases rs with
  | nil => exact normal_nil
  | cons r rs => exact (normal_joinAfter h).1

theorem startsBefore_iff {a b : Interval} :
    startsBefore a b = true ↔ a.lo < b.lo ∨ a.lo = b.lo ∧ a.hi ≤ b.hi := by
  simp [startsBefore]

/-- Sorted pieces may be joined once they are clipped. -/
theorem ascending_clipped (bounds : Interval) (rs : List Interval) :
    Ascending ((rs.mergeSort startsBefore).filterMap (clip bounds)) := by
  have hsorted : (rs.mergeSort startsBefore).Pairwise fun a b => startsBefore a b :=
    pairwise_mergeSort (fun a b c hab hbc => by rw [startsBefore_iff] at *; omega)
      (fun a b => by rw [Bool.or_eq_true, startsBefore_iff, startsBefore_iff]; omega) rs
  constructor
  · intro q hq
    obtain ⟨r, -, hr⟩ := mem_filterMap.1 hq
    exact (clip_eq_some.1 hr).2
  · refine List.Pairwise.filterMap _ (fun a b hab a' ha b' hb => ?_) hsorted
    rw [clip_eq_some] at ha hb
    rw [startsBefore_iff] at hab
    simp only [ha.1, hb.1, overlap]
    omega

theorem mem_shift {delta : Int} (h : s.Normal) : n ∈ s.shift delta c ↔
      n ∈ c.domain ∧ ∃ v ∈ s, (2 ^ wrapWidth c : Int) ∣ n - (v + delta) := by
  have hpieces : n ∈ (⟨(s.ranges.flatMap (shiftInterval (wrapWidth c) delta)).mergeSort
      startsBefore⟩ : RangeSet) ↔
        n ∈ words (wrapWidth c) ∧ ∃ v ∈ s, (2 ^ wrapWidth c : Int) ∣ n - (v + delta) := by
    simp only [mem_def, mem_mergeSort, mem_flatMap]
    constructor
    · rintro ⟨q, ⟨r, hr, hq⟩, hn⟩
      obtain ⟨hw, v, hv, hd⟩ := (mem_shiftInterval (wrapWidth_cases c) delta (h.le r hr)).1 ⟨q, hq, hn⟩
      exact ⟨hw, v, ⟨r, hr, hv⟩, hd⟩
    · rintro ⟨hw, v, ⟨r, hr, hv⟩, hd⟩
      obtain ⟨q, hq, hn⟩ := (mem_shiftInterval (wrapWidth_cases c) delta (h.le r hr)).2 ⟨hw, v, hv, hd⟩
      exact ⟨q, ⟨r, hr, hq⟩, hn⟩
  rw [shift, mem_join (ascending_clipped _ _), mem_filterMap_clip]
  refine Iff.trans (and_congr_left fun _ => hpieces) ?_
  constructor
  · rintro ⟨⟨-, hv⟩, hd⟩
    exact ⟨hd, hv⟩
  · rintro ⟨hd, hv⟩
    exact ⟨⟨domain_subset_words hd, hv⟩, hd⟩

theorem normal_shift (s : RangeSet) (delta : Int) (c : CType) : (s.shift delta c).Normal :=
  normal_join (ascending_clipped _ _)

end RangeSet

/-!
## Wrapping

Wrapping changes a number by a multiple of the modulus, and there is one number of each residue
among the values of a type.

* `dvd_typeWrap_sub`, `dvd_wordWrap_sub`, `dvd_wrap_sub`: by how much wrapping changes a number.
* `eq_of_dvd_sub`: values of one type with the same residue are equal.
-/

open RangeSet (wrapWidth)

theorem Word.dvd_signed_sub (bits : Nat) (n : Int) : (2 ^ bits : Int) ∣ Word.signed bits n - n := by
  have h : ((Nat.pow 2 bits : Nat) : Int) ∣ n.bmod (Nat.pow 2 bits) - n := Int.dvd_bmod_sub_self
  simpa [Word.signed] using h

/-- A word changes by a multiple of every modulus when it is wrapped to 64 bits. -/
theorem dvd_wordWrap_sub (t : CType) (n : Int) : (2 ^ wrapWidth t : Int) ∣ Word.wrap n - n := by
  have hw : (2 ^ wrapWidth t : Int) ∣ 2 ^ 64 := by
    refine pow_dvd_pow 2 ?_
    rcases RangeSet.wrapWidth_cases t with h | h | h <;> rw [h] <;> norm_num
  exact hw.trans (Word.dvd_signed_sub 64 n)

/-- Wrapping to a type changes a number by a multiple of the modulus. -/
theorem dvd_typeWrap_sub (t : CType) (n : Int) : (2 ^ wrapWidth t : Int) ∣ t.wrap n - n := by
  cases t with
  | char => exact Word.dvd_signed_sub 8 _
  | int => exact Word.dvd_signed_sub 32 _
  | _ => simp [CType.wrap]

/-- A sum that is wrapped to 64 bits and then to a type changes by a multiple of the modulus. -/
theorem dvd_wrap_sub (t : CType) (n : Int) : (2 ^ wrapWidth t : Int) ∣ t.wrap (Word.wrap n) - n := by
  have := dvd_add (dvd_typeWrap_sub t (Word.wrap n)) (dvd_wordWrap_sub t n)
  rwa [sub_add_sub_cancel] at this

/-- Numbers of the width of a type that differ by a multiple of the modulus are equal. -/
theorem eq_of_mem_words (ha : a ∈ RangeSet.words (wrapWidth t)) (hb : b ∈ RangeSet.words (wrapWidth t))
    (h : (2 ^ wrapWidth t : Int) ∣ a - b) : a = b := by
  rcases RangeSet.wrapWidth_cases t with hw | hw | hw <;>
    rw [hw] at ha hb h <;> simp only [RangeSet.words, Interval.mem_def] at ha hb <;>
    norm_num only at ha hb h <;> omega

/-- Values of a type that differ by a multiple of the modulus are equal. -/
theorem eq_of_dvd_sub (ha : a ∈ t.domain) (hb : b ∈ t.domain) (h : (2 ^ wrapWidth t : Int) ∣ a - b) :
    a = b :=
  eq_of_mem_words (RangeSet.domain_subset_words ha) (RangeSet.domain_subset_words hb) h

/-- What is wrapped to 64 bits and then to a type is a number of the width of the type. -/
theorem wrap_mem_words (t : CType) (n : Int) : t.wrap (Word.wrap n) ∈ RangeSet.words (wrapWidth t) := by
  have hword : ∀ bits : Nat, bits = 8 ∨ bits = 32 ∨ bits = 64 → ∀ m,
      Word.signed bits m ∈ RangeSet.words bits := fun bits hbits m => by
    have hlo := @Int.le_bmod m (Nat.pow 2 bits) (Nat.pow_pos (by decide))
    have hhi := @Int.bmod_lt m (Nat.pow 2 bits) (Nat.pow_pos (by decide))
    rw [RangeSet.words, Interval.mem_def, Word.signed]
    rcases hbits with rfl | rfl | rfl <;> norm_num at hlo hhi ⊢ <;> omega
  cases t with
  | char => exact hword 8 (.inl rfl) _
  | int => exact hword 32 (.inr (.inl rfl)) _
  | _ => exact hword 64 (.inr (.inr rfl)) _

end PathScout

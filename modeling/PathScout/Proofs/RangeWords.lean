import PathScout.Proofs.PointerArithmetic
import PathScout.Proofs.RangeAlgebra

/-!
# Sets of ranges in words

The ends of ranges are words, and what is computed from them must not leave the numbers that it is computed in:
words for the ends themselves, and numbers of 128 bits for ends that are moved. Here every computation is
checked, and the checks never fail. A start or an end behind the greatest word is no fault but a case of its
own: nothing is left behind it, and every range meets it.

* `RangeSet.Words`: sets in normal form whose ends are words.
* `RangeSet.complChecked?`, `shiftChecked?`, `satisfyingChecked?`: the operations with checks. Intersection
  only compares ends.
* `complChecked?_eq`, `shiftChecked?_eq`, `satisfyingChecked?_eq`: no check fails.
* `RangeSet.algebra_exact`: members, normal form and checks of all operations.
-/

namespace PathScout

open Word List Option

variable {n : Int}

/-- A result in the numbers with sign of a given width, if it is one of them. -/
def Word.fit? (bits : Nat) (n : Int) : Option Int := if n ∈ RangeSet.words bits then some n else none

theorem Word.fit?_of_mem {bits : Nat} (h : n ∈ RangeSet.words bits) : fit? bits n = some n :=
  if_pos h

theorem Word.ofInt?_of_fits (h : Word.Fits n) : Word.ofInt? n = some n := if_pos h

theorem Word.ofInt?_of_not_fits (h : ¬Word.Fits n) : Word.ofInt? n = none := if_neg h

/-- The values of a type are words. -/
theorem CType.fits_domain (t : CType) : Word.Fits t.domain.lo ∧ Word.Fits t.domain.hi := by
  cases t <;> simp only [CType.domain, Word.Fits, Word.min, Word.max] <;> omega

namespace RangeSet

variable {s t : RangeSet} {n next hi k delta : Int} {r last : Interval} {rs : List Interval} {c : CType}
  {bits : Nat}

/-- A set in normal form whose ranges start and end with words. -/
structure Words (s : RangeSet) : Prop extends Normal s where
  fits : ∀ r ∈ s.ranges, Word.Fits r.lo ∧ Word.Fits r.hi

/-- The ends of ranges in normal form are members. -/
theorem Normal.words (h : s.Normal) (hfits : ∀ n ∈ s, Word.Fits n) : s.Words :=
  ⟨h, fun r hr => ⟨hfits _ ⟨r, hr, le_rfl, h.le r hr⟩, hfits _ ⟨r, hr, h.le r hr, le_rfl⟩⟩⟩

theorem Words.fits_of_mem (h : s.Words) (hn : n ∈ s) : Word.Fits n := by
  obtain ⟨r, hr, hlo, hhi⟩ := hn
  exact ⟨(h.fits r hr).1.1.trans hlo, hhi.trans (h.fits r hr).2.2⟩

theorem words_cons : Words ⟨r :: rs⟩ ↔
    (Word.Fits r.lo ∧ Word.Fits r.hi) ∧ r.lo ≤ r.hi ∧ (∀ q ∈ rs, r.hi + 1 < q.lo) ∧ Words ⟨rs⟩ := by
  constructor
  · rintro ⟨hnormal, hfits⟩
    obtain ⟨hle, hfar, hrest⟩ := normal_cons.1 hnormal
    exact ⟨hfits r mem_cons_self, hle, hfar, hrest, fun q hq => hfits q (mem_cons_of_mem _ hq)⟩
  · rintro ⟨hr, hle, hfar, hrest⟩
    exact ⟨normal_cons.2 ⟨hle, hfar, hrest.toNormal⟩, forall_mem_cons.2 ⟨hr, hrest.fits⟩⟩

theorem fits_of_mem_domain (h : n ∈ c.domain) : Word.Fits n :=
  ⟨c.fits_domain.1.1.trans h.1, h.2.trans c.fits_domain.2.2⟩

/-! ### Complement -/

/-- The gap in front of a range, if gaps are still to be looked for. -/
def gapBeforeChecked? (next : Option Int) (r : Interval) : Option (List Interval) :=
  match next with
  | some start => if start < r.lo then (Word.ofInt? (r.lo - 1)).map fun stop => [⟨start, stop⟩] else some []
  | none => some []

/-- The gaps between ranges up to `hi`, from `next`, which is missing behind the greatest word. -/
def gapsChecked? (next : Option Int) (hi : Int) : List Interval → Option (List Interval)
  | [] =>
    match next with
    | some start => some (if start ≤ hi then [⟨start, hi⟩] else [])
    | none => some []
  | r :: rest => do return (← gapBeforeChecked? next r) ++ (← gapsChecked? (Word.ofInt? (r.hi + 1)) hi rest)

/-- The values of a type that are not members. -/
def complChecked? (s : RangeSet) (t : CType) : Option RangeSet := do
  return inter ⟨← gapsChecked? (some t.domain.lo) t.domain.hi s.ranges⟩ (interval t.domain.lo t.domain.hi)

theorem gapBeforeChecked?_eq (hnext : Word.min ≤ next) (hr : Word.Fits r.lo) :
    gapBeforeChecked? (Word.ofInt? next) r = some (if next < r.lo then [⟨next, r.lo - 1⟩] else []) := by
  by_cases hfits : Word.Fits next
  · rw [ofInt?_of_fits hfits, gapBeforeChecked?]
    split
    · next hlt =>
      rw [ofInt?_of_fits ⟨Int.le_sub_one_of_lt (hnext.trans_lt hlt), (Int.sub_le_self _ (by decide)).trans hr.2⟩]
      rfl
    · rfl
  · -- No range starts behind the greatest word.
    have hbehind : ¬next < r.lo := fun hlt => hfits ⟨hnext, hlt.le.trans hr.2⟩
    rw [ofInt?_of_not_fits hfits, if_neg hbehind, gapBeforeChecked?]

theorem gapsChecked?_eq (hs : Words ⟨rs⟩) (hhi : Word.Fits hi) (hnext : Word.min ≤ next) :
    gapsChecked? (Word.ofInt? next) hi rs = some (gaps next hi rs) := by
  induction rs generalizing next with
  | nil =>
    by_cases hfits : Word.Fits next
    · rw [ofInt?_of_fits hfits, gapsChecked?, gaps]
    · have hbehind : ¬next ≤ hi := fun hle => hfits ⟨hnext, hle.trans hhi.2⟩
      rw [ofInt?_of_not_fits hfits, gapsChecked?, gaps, if_neg hbehind]
  | cons r rs ih =>
    obtain ⟨⟨hlo, hhi'⟩, -, -, hrest⟩ := words_cons.1 hs
    have hbehind : Word.min ≤ r.hi + 1 := hhi'.1.trans (Int.le_add_one le_rfl)
    rw [gapsChecked?, gapBeforeChecked?_eq hnext hlo, ih hrest hbehind, gaps]
    by_cases hlt : next < r.lo
    · rw [if_pos hlt, if_pos hlt]
      rfl
    · rw [if_neg hlt, if_neg hlt]
      rfl

theorem complChecked?_eq (hs : s.Words) (t : CType) : s.complChecked? t = some (s.compl t) := by
  have hgaps := gapsChecked?_eq hs t.fits_domain.2 t.fits_domain.1.1
  rw [ofInt?_of_fits t.fits_domain.1] at hgaps
  rw [complChecked?, hgaps]
  rfl

/-! ### Addition of a constant -/

/-- A range moved by `delta` in the numbers of a given width, computed in 128 bits. -/
def shiftIntervalChecked? (bits : Nat) (delta : Int) (r : Interval) : Option (List Interval) := do
  let modulus ← Word.fit? 128 (2 ^ bits)
  let least ← Word.fit? 128 (-(modulus / 2))
  let greatest ← Word.fit? 128 (modulus / 2 - 1)
  let length ← Word.fit? 128 (r.hi - r.lo)
  if modulus ≤ (← Word.fit? 128 (length + 1)) then return [⟨least, greatest⟩]
  else
    let sum ← Word.fit? 128 (r.lo + delta)
    let distance ← Word.fit? 128 (sum - least)
    let start ← Word.fit? 128 (distance % modulus + least)
    let stop ← Word.fit? 128 (start + length)
    if greatest < stop then return [⟨start, greatest⟩, ⟨least, ← Word.fit? 128 (stop - modulus)⟩]
    else return [⟨start, stop⟩]

/-- The part of a range between two bounds, brought back into words. -/
def clipChecked? (bounds r : Interval) : Option (Option Interval) := do
  let lo ← Word.ofInt? (max r.lo bounds.lo)
  let hi ← Word.ofInt? (min r.hi bounds.hi)
  return if lo ≤ hi then some ⟨lo, hi⟩ else none

/-- Does a range meet or overlap the one in front of it? Behind the greatest word there is none. -/
def meets (last r : Interval) : Bool :=
  match Word.ofInt? (last.hi + 1) with
  | some next => r.lo ≤ next
  | none => true

/-- Joins ranges that meet or overlap; `last` is the one before them. -/
def joinMeeting (last : Interval) : List Interval → List Interval
  | [] => [last]
  | r :: rest =>
    if meets last r then joinMeeting ⟨last.lo, max last.hi r.hi⟩ rest else last :: joinMeeting r rest

/-- The members plus `delta`, wrapped at the width of a type, as far as they are values of it. -/
def shiftChecked? (s : RangeSet) (delta : Int) (t : CType) : Option RangeSet := do
  let pieces ← s.ranges.mapM (shiftIntervalChecked? (t.bitWidth?.getD 64) delta)
  let parts ← (pieces.flatten.mergeSort startsBefore).mapM (clipChecked? t.domain)
  return ⟨match parts.reduceOption with
    | [] => []
    | r :: rest => joinMeeting r rest⟩

/-- What is computed from words that are moved once or twice stays far from the ends of 128 bits. -/
theorem fit?_of_near (hlo : -2 ^ 70 ≤ n) (hhi : n ≤ 2 ^ 70) : Word.fit? 128 n = some n :=
  fit?_of_mem ⟨by norm_num [words] at hlo ⊢; omega, by norm_num [words] at hhi ⊢; omega⟩

theorem shiftIntervalChecked?_eq (hbits : bits ≤ 64) (hr : Word.Fits r.lo ∧ Word.Fits r.hi)
    (hle : r.lo ≤ r.hi) (hdelta : Word.Fits delta) :
    shiftIntervalChecked? bits delta r = some (shiftInterval bits delta r) := by
  have hpow : ((Nat.pow 2 bits : Nat) : Int) = 2 ^ bits := by simp
  have hpos : (0 : Int) < 2 ^ bits := by positivity
  have hmost : (2 : Int) ^ bits ≤ 2 ^ 64 := pow_le_pow_right₀ (by decide) hbits
  have hword : ∀ {n}, Word.Fits n → -2 ^ 63 ≤ n ∧ n ≤ 2 ^ 63 - 1 := fun h => h
  obtain ⟨⟨hlo, hlo'⟩, hhi, hhi'⟩ := And.intro (hword hr.1) (hword hr.2)
  obtain ⟨hd, hd'⟩ := hword hdelta
  rw [shiftIntervalChecked?, shiftInterval, hpow]
  generalize (2 : Int) ^ bits = m at hpos hmost ⊢
  have hmod := Int.emod_nonneg (r.lo + delta - -(m / 2)) hpos.ne'
  have hmod' := Int.emod_lt_of_pos (r.lo + delta - -(m / 2)) hpos
  norm_num only at *
  generalize hdistance : r.lo + delta - -(m / 2) = distance at hmod hmod' ⊢
  simp only [fit?_of_near (n := m) (by omega) (by omega),
    fit?_of_near (n := -(m / 2)) (by omega) (by omega),
    fit?_of_near (n := m / 2 - 1) (by omega) (by omega),
    fit?_of_near (n := r.hi - r.lo) (by omega) (by omega),
    fit?_of_near (n := r.hi - r.lo + 1) (by omega) (by omega),
    fit?_of_near (n := r.lo + delta) (by omega) (by omega), hdistance,
    fit?_of_near (n := distance) (by omega) (by omega),
    fit?_of_near (n := distance % m + -(m / 2)) (by omega) (by omega),
    bind_eq_bind, bind_some]
  split
  · rfl
  · next hlength =>
    simp only [fit?_of_near (n := distance % m + -(m / 2) + (r.hi - r.lo)) (by omega) (by omega),
      fit?_of_near (n := distance % m + -(m / 2) + (r.hi - r.lo) - m) (by omega) (by omega),
      bind_some]
    split <;> rfl

/-- A range that was moved reaches into the words. -/
theorem reaches_of_mem_shiftInterval {q : Interval} (hbits : bits ≤ 64) (hle : r.lo ≤ r.hi)
    (hq : q ∈ shiftInterval bits delta r) : Word.min ≤ q.hi ∧ q.lo ≤ Word.max := by
  have hpow : ((Nat.pow 2 bits : Nat) : Int) = 2 ^ bits := by simp
  have hpos : (0 : Int) < 2 ^ bits := by positivity
  have hmost : (2 : Int) ^ bits ≤ 2 ^ 64 := pow_le_pow_right₀ (by decide) hbits
  rw [shiftInterval, hpow] at hq
  generalize (2 : Int) ^ bits = m at hpos hmost hq
  have hmod := Int.emod_nonneg (r.lo + delta - -(m / 2)) hpos.ne'
  have hmod' := Int.emod_lt_of_pos (r.lo + delta - -(m / 2)) hpos
  norm_num only [Word.min, Word.max] at *
  split at hq
  · obtain rfl := mem_singleton.1 hq
    dsimp only
    omega
  · split at hq
    · rcases List.mem_cons.1 hq with rfl | hq
      · dsimp only
        omega
      · obtain rfl := mem_singleton.1 hq
        dsimp only
        omega
    · obtain rfl := mem_singleton.1 hq
      dsimp only
      omega

theorem clipChecked?_eq {bounds : Interval} (hb : Word.Fits bounds.lo ∧ Word.Fits bounds.hi)
    (hr : Word.min ≤ r.hi ∧ r.lo ≤ Word.max) :
    clipChecked? bounds r = some (clip bounds r) := by
  have hlo : Word.Fits (max r.lo bounds.lo) := ⟨le_max_of_le_right hb.1.1, max_le hr.2 hb.1.2⟩
  have hhi : Word.Fits (min r.hi bounds.hi) := ⟨le_min hr.1 hb.2.1, min_le_of_right_le hb.2.2⟩
  rw [clipChecked?, ofInt?_of_fits hlo, ofInt?_of_fits hhi]
  rfl

theorem meets_iff (hlast : Word.Fits last.hi) (hr : Word.Fits r.lo) :
    meets last r = true ↔ r.lo ≤ last.hi + 1 := by
  unfold meets
  by_cases hfits : Word.Fits (last.hi + 1)
  · rw [ofInt?_of_fits hfits, decide_eq_true_iff]
  · have hnext : Word.max < last.hi + 1 :=
      lt_of_not_ge fun h => hfits ⟨hlast.1.trans (Int.le_add_one le_rfl), h⟩
    rw [ofInt?_of_not_fits hfits]
    exact iff_of_true rfl (hr.2.trans hnext.le)

theorem joinMeeting_eq (hlast : Word.Fits last.hi) (hrs : ∀ r ∈ rs, Word.Fits r.lo ∧ Word.Fits r.hi) :
    joinMeeting last rs = joinAfter last rs := by
  induction rs generalizing last with
  | nil => rfl
  | cons r rs ih =>
    obtain ⟨⟨hlo, hhi⟩, hrest⟩ := forall_mem_cons.1 hrs
    have hmax : Word.Fits (max last.hi r.hi) := ⟨le_max_of_le_left hlast.1, max_le hlast.2 hhi.2⟩
    have hwider : joinMeeting ⟨last.lo, max last.hi r.hi⟩ rs = joinAfter ⟨last.lo, max last.hi r.hi⟩ rs :=
      ih hmax hrest
    rw [joinMeeting, joinAfter, hwider, ih hhi hrest]
    exact if_congr (meets_iff hlast hlo) rfl rfl

theorem shiftChecked?_eq (hs : s.Words) (hdelta : Word.Fits delta) (t : CType) :
    s.shiftChecked? delta t = some (s.shift delta t) := by
  have hwidth : wrapWidth t ≤ 64 := by
    rcases wrapWidth_cases t with h | h | h <;> rw [h] <;> decide
  have hpieces : s.ranges.mapM (shiftIntervalChecked? (wrapWidth t) delta) =
      some (s.ranges.map (shiftInterval (wrapWidth t) delta)) :=
    mapM_eq_map fun r hr => shiftIntervalChecked?_eq hwidth (hs.fits r hr) (hs.le r hr) hdelta
  rw [shiftChecked?, ← wrapWidth, hpieces, shift, ← wrapWidth, bind_eq_bind, bind_some,
    ← flatMap_def]
  generalize hsorted : (s.ranges.flatMap (shiftInterval (wrapWidth t) delta)).mergeSort startsBefore = pieces
  have hparts : pieces.mapM (clipChecked? t.domain) = some (pieces.map (clip t.domain)) :=
    mapM_eq_map fun q hq => by
      rw [← hsorted, mem_mergeSort, mem_flatMap] at hq
      obtain ⟨r, hr, hq⟩ := hq
      exact clipChecked?_eq t.fits_domain (reaches_of_mem_shiftInterval hwidth (hs.le r hr) hq)
  have hwords : ∀ q ∈ pieces.filterMap (clip t.domain), Word.Fits q.lo ∧ Word.Fits q.hi := fun q hq => by
    obtain ⟨p, -, hp⟩ := mem_filterMap.1 hq
    obtain ⟨rfl, hle⟩ := clip_eq_some.1 hp
    have hdomain : ∀ {n}, n ∈ overlap p t.domain → Word.Fits n := fun hn =>
      fits_of_mem_domain (mem_overlap.1 hn).2
    exact ⟨hdomain ⟨le_rfl, hle⟩, hdomain ⟨hle, le_rfl⟩⟩
  have hreduced : (pieces.map (clip t.domain)).reduceOption = pieces.filterMap (clip t.domain) := by
    change filterMap id (pieces.map (clip t.domain)) = _
    rw [filterMap_map]
    rfl
  rw [hparts, bind_eq_bind, bind_some, hreduced]
  cases hclipped : pieces.filterMap (clip t.domain) with
  | nil => rfl
  | cons r rest =>
    obtain ⟨hr, hrest⟩ := forall_mem_cons.1 (hclipped ▸ hwords)
    exact congrArg (fun rs => some (⟨rs⟩ : RangeSet)) (joinMeeting_eq hr.2 hrest)

/-! ### Relations to a constant -/

/-- The values of a type that stand in the relation `op` to `k`. Nothing is less than the least word or greater
than the greatest one. -/
def satisfyingChecked? (op : BinaryOp) (k : Int) (t : CType) : Option RangeSet :=
  let d := t.domain
  match op with
  | .ne => complChecked? (inter (point k) (interval d.lo d.hi)) t
  | .lt => some ((Word.ofInt? (k - 1)).elim empty fun k => interval d.lo (min k d.hi))
  | .gt => some ((Word.ofInt? (k + 1)).elim empty fun k => interval (max k d.lo) d.hi)
  | op => some (satisfying op k t)

theorem satisfyingChecked?_eq (op : BinaryOp) (hk : Word.Fits k) (t : CType) :
    satisfyingChecked? op k t = some (satisfying op k t) := by
  obtain ⟨hlo, hhi⟩ := t.fits_domain
  cases op with
  | ne =>
    refine complChecked?_eq ?_ t
    refine (normal_inter (normal_interval _ _) (normal_interval _ _)).words fun n hn => ?_
    rw [mem_inter (normal_interval _ _) (normal_interval _ _), mem_interval, mem_interval] at hn
    exact fits_of_mem_domain hn.2
  | lt =>
    by_cases hfits : Word.Fits (k - 1)
    · rw [satisfyingChecked?, ofInt?_of_fits hfits]
      rfl
    · have hleast : k - 1 < Word.min :=
        lt_of_not_ge fun h => hfits ⟨h, (Int.sub_le_self k (by decide)).trans hk.2⟩
      have hbelow : ¬t.domain.lo ≤ min (k - 1) t.domain.hi :=
        not_le_of_gt ((min_le_left _ _).trans_lt (hleast.trans_le hlo.1))
      rw [satisfyingChecked?, ofInt?_of_not_fits hfits, satisfying, interval, if_neg hbelow]
      rfl
  | gt =>
    by_cases hfits : Word.Fits (k + 1)
    · rw [satisfyingChecked?, ofInt?_of_fits hfits]
      rfl
    · have hgreatest : Word.max < k + 1 := lt_of_not_ge fun h => hfits ⟨hk.1.trans (Int.le_add_one le_rfl), h⟩
      have hbehind : ¬max (k + 1) t.domain.lo ≤ t.domain.hi :=
        not_le_of_gt (hhi.2.trans_lt (hgreatest.trans_le (le_max_left _ _)))
      rw [satisfyingChecked?, ofInt?_of_not_fits hfits, satisfying, interval, if_neg hbehind]
      rfl
  | _ => rfl

/-! ### All operations -/

/-- **The algebra of sets of ranges is exact.** Intersection, complement in a type, addition of a constant that
wraps at the width of a type, and the values in relation to a constant are sets in normal form with words as
ends, and have exactly the members that they should have. Computed in words and in 128 bits they come out the
same, so nothing overflows. -/
theorem algebra_exact (hs : s.Words) (ht : t.Words) (c : CType) (hk : Word.Fits k) (hdelta : Word.Fits delta) :
    ((s.inter t).Words ∧ ∀ n, n ∈ s.inter t ↔ n ∈ s ∧ n ∈ t) ∧
      ((s.compl c).Words ∧ (∀ n, n ∈ s.compl c ↔ n ∈ c.domain ∧ n ∉ s) ∧
        s.complChecked? c = some (s.compl c)) ∧
      ((s.shift delta c).Words ∧
        (∀ n, n ∈ s.shift delta c ↔ n ∈ c.domain ∧ ∃ v ∈ s, n ≡ v + delta [ZMOD 2 ^ c.bitWidth?.getD 64]) ∧
        s.shiftChecked? delta c = some (s.shift delta c)) ∧
      ∀ op : BinaryOp, (satisfying op k c).Words ∧
        (∀ n, n ∈ satisfying op k c ↔ n ∈ c.domain ∧ op.holds n k = true) ∧
        satisfyingChecked? op k c = some (satisfying op k c) := by
  have hinter : ∀ n, n ∈ s.inter t ↔ n ∈ s ∧ n ∈ t := fun n => mem_inter hs.toNormal ht.toNormal
  have hcompl : ∀ n, n ∈ s.compl c ↔ n ∈ c.domain ∧ n ∉ s := fun n => mem_compl hs.toNormal
  have hshift : ∀ n, n ∈ s.shift delta c ↔
      n ∈ c.domain ∧ ∃ v ∈ s, n ≡ v + delta [ZMOD 2 ^ c.bitWidth?.getD 64] := fun n => by
    rw [mem_shift hs.toNormal, wrapWidth]
    simp only [Int.modEq_comm (a := n), Int.modEq_iff_dvd]
  refine ⟨⟨?_, hinter⟩, ⟨?_, hcompl, complChecked?_eq hs c⟩, ⟨?_, hshift, shiftChecked?_eq hs hdelta c⟩,
    fun op => ⟨?_, fun n => mem_satisfying, satisfyingChecked?_eq op hk c⟩⟩
  · exact (normal_inter hs.toNormal ht.toNormal).words fun n hn => hs.fits_of_mem ((hinter n).1 hn).1
  · exact (normal_compl hs.toNormal).words fun n hn => fits_of_mem_domain ((hcompl n).1 hn).1
  · exact (normal_shift s delta c).words fun n hn => fits_of_mem_domain ((hshift n).1 hn).1
  · exact (normal_satisfying op k c).words fun n hn => fits_of_mem_domain (mem_satisfying.1 hn).1

/-- All words but zero, moved by the greatest word, and the positive ones. -/
theorem algebra_exact_ends :
    let s : RangeSet := ⟨[⟨Word.min, -1⟩, ⟨1, Word.max⟩]⟩
    let t : RangeSet := ⟨[⟨1, Word.max⟩]⟩
    s.Words ∧ t.Words ∧ Word.Fits Word.max ∧ Word.Fits Word.min ∧
      s.complChecked? .void = some (s.compl .void) ∧
      s.shiftChecked? Word.max .int = some (s.shift Word.max .int) ∧
      satisfyingChecked? .lt Word.min .void = some (satisfying .lt Word.min .void) := by
  intro s t
  have hs : s.Words := ⟨⟨by decide, by decide⟩, by decide⟩
  have ht : t.Words := ⟨⟨by decide, by decide⟩, by decide⟩
  have hmin : Word.Fits Word.min := by decide
  have hmax : Word.Fits Word.max := by decide
  obtain ⟨-, ⟨-, -, hcompl⟩, -, hop⟩ := algebra_exact hs ht .void hmin hmax
  obtain ⟨-, -, ⟨-, -, hshift⟩, -⟩ := algebra_exact hs ht .int hmin hmax
  exact ⟨hs, ht, hmax, hmin, hcompl, hshift, (hop .lt).2.2⟩

end RangeSet

end PathScout

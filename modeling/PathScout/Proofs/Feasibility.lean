import PathScout.Proofs.MapLaws
import PathScout.Proofs.RangeAlgebra

/-!
# Assumptions decide feasibility

A valuation gives every symbol a value of its type, so that sums with a constant and comparisons
with a constant have the values that they say. Constraints stand for the valuations that satisfy
them. To assume a condition keeps exactly the valuations that make it true (or false), and fails
exactly when there are none.

* `Valuation`, `Constraints.Holds`: valuations and the constraints that they satisfy.
* `Value.truth?`: whether a valuation makes a condition true.
* `Constraints.Decides`: what it means that constraints with an assumption are exact.
* `Catalog.SumsFit`, `Catalog.Fits`: sums whose types have all values of what is in them, in the whole
  catalog or in one symbol.
* `decides_narrow`, `decides_assumeSymbol`, `decides_assume`: exactness, from a single restriction up
  to every condition.
-/

namespace PathScout

open OrderedMap RangeSet Option

variable {c : Catalog} {s l : SymbolId} {op : BinaryOp} {k : Int}

open RangeSet (wrapWidth)

/-- A value for every symbol of a catalog. -/
structure Valuation (c : Catalog) where
  value : SymbolId → Int
  /-- Values are values of the type. -/
  mem_domain : ∀ s, value s ∈ (c.symbol s).type.domain
  /-- Sums with a constant wrap at the width of their type. -/
  sum : ∀ {s l k t}, c.symbol s = .symInt l .add k t → value s = t.wrap (Word.wrap (value l + k))
  /-- Differences with a constant wrap at the width of their type. -/
  difference : ∀ {s l k t}, c.symbol s = .symInt l .sub k t →
    value s = t.wrap (Word.wrap (value l - k))
  /-- Comparisons with a constant are zero or one. -/
  compare : ∀ {s l op k t}, c.symbol s = .symInt l op k t → op.isComparison = true →
    value s = Word.ofBool (op.holds (value l) k)
  /-- Comparisons of a constant are zero or one. -/
  compare_const : ∀ {s k op r t}, c.symbol s = .intSym k op r t → op.isComparison = true →
    value s = Word.ofBool (op.holds k (value r))

/-- Every value that the symbol in a sum or difference with a constant may have is a value of the
type of the sum. -/
def Catalog.SumsFit (c : Catalog) : Prop :=
  ∀ {s l op k t}, c.symbol s = .symInt l op k t → op = .add ∨ op = .sub →
    ∀ n, n ∈ (c.symbol l).type.domain → n ∈ t.domain

namespace Constraints

/-- All ranges are in normal form. -/
def Normal (m : Constraints) : Prop := ∀ s r, m.get? s = some r → r.Normal

/-- The valuation satisfies the constraints. -/
def Holds {c : Catalog} (m : Constraints) (ν : Valuation c) : Prop :=
  ∀ s r, m.get? s = some r → ν.value s ∈ r

theorem normal_empty : Normal {} := fun s r h => by cases h

theorem holds_empty {c : Catalog} (ν : Valuation c) : Holds {} ν := fun s r h => by cases h

/-- A result is exact for a condition: its valuations are those that satisfy the constraints and
the condition, and there is a result unless there are none. -/
structure Decides {c : Catalog} (m : Constraints) (result : Option Constraints)
    (holds : Valuation c → Prop) : Prop where
  normal : ∀ {m'}, result = some m' → m'.Normal
  exact : ∀ {m'}, result = some m' → ∀ ν, m'.Holds ν ↔ m.Holds ν ∧ holds ν
  impossible : result = none → ∀ ν, m.Holds ν → ¬ holds ν

end Constraints

/-! ### Sums with a constant -/

namespace Catalog

variable {c : Catalog}

/-- What a symbol is a sum of, the negated constant being added in a difference. -/
theorem shifted?_cases {s l : SymbolId} {delta : Int} (h : c.shifted? s = some (l, delta)) :
    (∃ t, c.symbol s = .symInt l .add delta t) ∨
      ∃ k t, c.symbol s = .symInt l .sub k t ∧ delta = Word.wrap (-k) := by
  replace h := (filter_eq_some_iff.1 h).1
  unfold Symbol.shifted? at h
  split at h
  · next l' k t hs =>
    obtain ⟨rfl, rfl⟩ := Prod.mk.inj (some.inj h)
    exact .inl ⟨t, hs⟩
  · next l' k t hs =>
    obtain ⟨rfl, rfl⟩ := Prod.mk.inj (some.inj h)
    exact .inr ⟨k, t, hs, rfl⟩
  · cases h

/-- Every sum with a constant that the symbol is made of has, among the values of its type, all
values that the symbol in it may have. -/
inductive Fits (c : Catalog) : SymbolId → Prop where
  | intro {s : SymbolId} :
    (∀ p, c.shifted? s = some p →
      ∀ n, n ∈ (c.symbol p.1).type.domain → n ∈ (c.symbol s).type.domain) →
    (∀ p, c.shifted? s = some p → Fits c p.1) →
    (∀ p, c.comparison? s = some p → Fits c p.1) → Fits c s

namespace Fits

variable {s : SymbolId} {p : SymbolId × Int} {n : Int}

theorem mem_domain (h : c.Fits s) (hp : c.shifted? s = some p)
    (hn : n ∈ (c.symbol p.1).type.domain) : n ∈ (c.symbol s).type.domain := by
  cases h with
  | intro hdomain _ _ => exact hdomain p hp n hn

theorem of_shifted? (h : c.Fits s) (hp : c.shifted? s = some p) : c.Fits p.1 := by
  cases h with
  | intro _ hsum _ => exact hsum p hp

theorem of_comparison? (h : c.Fits s) {p : SymbolId × BinaryOp × Int}
    (hp : c.comparison? s = some p) : c.Fits p.1 := by
  cases h with
  | intro _ _ hcompare => exact hcompare p hp

end Fits

/-- Where all sums fit, every symbol does. -/
theorem SumsFit.fits (hc : c.SumsFit) (s : SymbolId) : c.Fits s := by
  -- What a symbol is made of is older, so this is an induction on its number.
  induction h : s.index using Nat.strongRecOn generalizing s with
  | ind i ih =>
    subst h
    refine .intro (fun p hp n hn => ?_) (fun p hp => ?_) fun p hp => ?_
    · obtain ⟨l, delta⟩ := p
      rcases shifted?_cases hp with ⟨t, hs⟩ | ⟨k, t, hs, -⟩
      · rw [hs]
        exact hc hs (.inl rfl) n hn
      · rw [hs]
        exact hc hs (.inr rfl) n hn
    · exact ih _ (shifted?_lt hp) p.1 rfl
    · exact ih _ (comparison?_lt hp) p.1 rfl

end Catalog

namespace Valuation

variable {c : Catalog} (ν : Valuation c) {s l : SymbolId} {delta : Int}

/-- A sum and the symbol in it differ by the constant, up to the modulus of the type of the sum. -/
theorem dvd_of_shifted? (h : c.shifted? s = some (l, delta)) :
    ∃ op k t, c.symbol s = .symInt l op k t ∧ (op = .add ∨ op = .sub) ∧
      (2 ^ wrapWidth t : Int) ∣ ν.value s - (ν.value l + delta) := by
  rcases Catalog.shifted?_cases h with ⟨t, hs⟩ | ⟨k, t, hs, rfl⟩
  · refine ⟨.add, delta, t, hs, .inl rfl, ?_⟩
    rw [ν.sum hs]
    exact dvd_wrap_sub t _
  · refine ⟨.sub, k, t, hs, .inr rfl, ?_⟩
    rw [ν.difference hs]
    have := dvd_sub (dvd_wrap_sub t (ν.value l - k)) (dvd_wordWrap_sub t (-k))
    rwa [show ∀ a b : Int, a - (ν.value l - k) - (b - -k) = a - (ν.value l + b) by
      intro a b; ring] at this

/-- The value of a sum is allowed exactly when the value of the symbol in it is allowed once the
constant is taken away. -/
theorem mem_shifted_iff (hs : c.Fits s) (h : c.shifted? s = some (l, delta)) {allowed : RangeSet}
    (hn : allowed.Normal) (hd : ∀ n ∈ allowed, n ∈ (c.symbol s).type.domain) :
    ν.value l ∈ (allowed.shift (Word.wrap (-delta)) (c.symbol s).type).inter
        (.domain (c.symbol l).type) ↔ ν.value s ∈ allowed := by
  obtain ⟨op, k, t, hsum, -, hdvd⟩ := ν.dvd_of_shifted? h
  have htype : (c.symbol s).type = t := by rw [hsum]; rfl
  have hback : (2 ^ wrapWidth t : Int) ∣ ν.value l - (ν.value s + Word.wrap (-delta)) := by
    have := dvd_add hdvd (dvd_wordWrap_sub t (-delta))
    rw [← dvd_neg]
    rwa [show ∀ a b d : Int, a - (b + delta) + (d - -delta) = -(b - (a + d)) by
      intro a b d; ring] at this
  have hl := ν.mem_domain l
  rw [htype] at hd ⊢
  rw [mem_inter (normal_shift ..) (normal_domain _), mem_shift hn, RangeSet.mem_domain]
  constructor
  · rintro ⟨⟨-, v, hv, hvd⟩, -⟩
    -- Both `v` and the value of the sum are values of its type with the same residue.
    have : v = ν.value s := by
      refine eq_of_dvd_sub (hd v hv) (htype ▸ ν.mem_domain s) ?_
      have := dvd_sub hback hvd
      rwa [sub_sub_sub_cancel_left, add_sub_add_right_eq_sub] at this
    exact this ▸ hv
  · intro hv
    exact ⟨⟨htype ▸ hs.mem_domain h hl, _, hv, hback⟩, hl⟩

end Valuation

/-! ### Restrictions -/

namespace Constraints

variable {c : Catalog} {m : Constraints} {s : SymbolId} {allowed : RangeSet}

theorem Decides.congr {result : Option Constraints} {p q : Valuation c → Prop}
    (h : m.Decides result p) (hpq : ∀ ν, p ν ↔ q ν) : m.Decides result q where
  normal := h.normal
  exact hr ν := by rw [h.exact hr, hpq]
  impossible hr ν hm := by rw [← hpq]; exact h.impossible hr ν hm

/-- A condition that no valuation changes is decided by itself. -/
theorem decides_const (hm : m.Normal) (p : Prop) [Decidable p] :
    m.Decides (if p then some m else none) fun _ : Valuation c => p where
  normal h := by
    split at h
    · exact some.inj h ▸ hm
    · cases h
  exact h ν := by
    split at h
    · next hp => simp [← some.inj h, hp]
    · cases h
  impossible h ν _ := by
    split at h
    · cases h
    · assumption

theorem normal_range (hm : m.Normal) (s : SymbolId) : (m.range c s).Normal := by
  unfold range
  cases h : m.get? s with
  | none => exact normal_domain _
  | some r => exact hm s r h

theorem Holds.mem_range {ν : Valuation c} (h : m.Holds ν) (s : SymbolId) : ν.value s ∈ m.range c s := by
  unfold range
  cases hs : m.get? s with
  | none => exact RangeSet.mem_domain.2 (ν.mem_domain s)
  | some r => exact h s r hs

/-- Constraints with a narrower range for one symbol hold of fewer valuations. -/
theorem holds_insert {ν : Valuation c} {r : RangeSet} (hr : ∀ n, n ∈ r → n ∈ m.range c s) :
    Holds (m.insert s r) ν ↔ m.Holds ν ∧ ν.value s ∈ r := by
  constructor
  · intro h
    have hs : ν.value s ∈ r := h s r get?_insert_self
    refine ⟨fun s' r' h' => ?_, hs⟩
    by_cases e : s' = s
    · have := hr _ hs
      rw [range, ← e, h'] at this
      exact e ▸ this
    · exact h s' r' (by rwa [get?_insert_of_ne e])
  · rintro ⟨h, hs⟩ s' r' h'
    rw [get?_insert] at h'
    split at h'
    · next e =>
      rw [e, ← some.inj h']
      exact hs
    · exact h s' r' h'

/-- A symbol that is no sum is restricted by intersection. -/
theorem decides_restrict (hm : m.Normal) (s : SymbolId) (hn : allowed.Normal) : m.Decides
      (if ((m.range c s).inter allowed).isEmpty then none
        else some (m.insert s ((m.range c s).inter allowed)))
      fun ν : Valuation c => ν.value s ∈ allowed := by
  have hr := normal_range (c := c) hm s
  have hmem : ∀ n, n ∈ (m.range c s).inter allowed ↔ n ∈ m.range c s ∧ n ∈ allowed :=
    fun n => mem_inter hr hn
  refine ⟨fun h => ?_, fun h ν => ?_, fun h ν hν hs => ?_⟩
  · split at h
    · cases h
    · rw [← some.inj h]
      intro s' r' h'
      rw [get?_insert] at h'
      split at h'
      · exact some.inj h' ▸ normal_inter hr hn
      · exact hm s' r' h'
  · split at h
    · cases h
    · rw [← some.inj h, holds_insert fun n h => ((hmem n).1 h).1]
      refine and_congr_right fun hν => ?_
      rw [hmem]
      exact and_iff_right (hν.mem_range s)
  · split at h
    · next he =>
      rw [isEmpty_iff_forall_notMem (normal_inter hr hn)] at he
      exact he _ ((hmem _).2 ⟨hν.mem_range s, hs⟩)
    · cases h

theorem decides_narrow (hm : m.Normal) (hs : c.Fits s) (hn : allowed.Normal)
    (hd : ∀ n ∈ allowed, n ∈ (c.symbol s).type.domain) :
    m.Decides (m.narrow c s allowed) fun ν : Valuation c => ν.value s ∈ allowed := by
  fun_induction narrow m c s allowed with
  | case1 s allowed p h shifted ih =>
    have hnormal : (shifted.inter (.domain (c.symbol p.1).type)).Normal :=
      normal_inter (normal_shift ..) (normal_domain _)
    refine (ih (hs.of_shifted? h) hnormal fun n hn' => ?_).congr fun ν => ν.mem_shifted_iff hs h hn hd
    rw [mem_inter (normal_shift ..) (normal_domain _)] at hn'
    exact RangeSet.mem_domain.1 hn'.2
  | case2 s allowed h narrowed he =>
    have := decides_restrict (c := c) hm s hn
    rwa [if_pos he] at this
  | case3 s allowed h narrowed he =>
    have := decides_restrict (c := c) hm s hn
    rwa [if_neg he] at this

theorem decides_narrowBy (hm : m.Normal) (hs : c.Fits s) (op : BinaryOp) (k : Int) :
    m.Decides (m.narrowBy c s op k) fun ν : Valuation c => op.holds (ν.value s) k = true :=
  (decides_narrow hm hs (normal_satisfying ..) fun _ h => (mem_satisfying.1 h).1).congr fun ν => by
      rw [mem_satisfying]
      exact and_iff_right (ν.mem_domain s)

/-! ### Conditions -/

end Constraints

/-- What a symbol compares, a constant that is compared with a symbol being exchanged with it. -/
theorem Catalog.comparison?_cases (h : c.comparison? s = some (l, op, k)) :
    (op.isComparison = true ∧ ∃ t, c.symbol s = .symInt l op k t) ∨
      ∃ op' t, op'.isComparison = true ∧ op'.reversed? = some op ∧ c.symbol s = .intSym k op' l t := by
  replace h := (filter_eq_some_iff.1 h).1
  unfold Symbol.comparison? at h
  split at h
  · next l' op' k' t hs =>
    split at h
    · next hop =>
      obtain ⟨rfl, rfl, rfl⟩ : l' = l ∧ op' = op ∧ k' = k := by simpa using h
      exact .inl ⟨hop, t, hs⟩
    · cases h
  · next k' op' r t hs =>
    split at h
    · next hop =>
      obtain ⟨rev, hrev, hp⟩ := map_eq_some_iff.1 h
      obtain ⟨rfl, rfl, rfl⟩ : r = l ∧ rev = op ∧ k' = k := by simpa using hp
      exact .inr ⟨op', t, hop, hrev, hs⟩
    · cases h
  · cases h

/-- Every comparison has an opposite. -/
theorem Catalog.exists_negated_of_comparison? (h : c.comparison? s = some (l, op, k)) :
    ∃ neg, op.negated? = some neg := by
  rcases Catalog.comparison?_cases h with ⟨hop, -⟩ | ⟨op', t, hop, hrev, -⟩
  · cases op <;> simp_all [BinaryOp.isComparison, BinaryOp.negated?]
  · cases op' <;> cases hrev <;> simp [BinaryOp.negated?]

/-- There is always a comparison to assume. -/
theorem Catalog.assumed_ne_none {p : SymbolId × BinaryOp × Int} (h : c.comparison? s = some p)
    (truth : Bool) : (if truth then some p.2.1 else p.2.1.negated?) ≠ none := by
  obtain ⟨neg, hneg⟩ := Catalog.exists_negated_of_comparison? h
  cases truth with
  | true => exact some_ne_none _
  | false => exact hneg ▸ some_ne_none neg

/-- The value of a comparison is the truth of what it compares. -/
theorem Valuation.of_comparison? (ν : Valuation c) (h : c.comparison? s = some (l, op, k)) :
    ν.value s = Word.ofBool (op.holds (ν.value l) k) := by
  rcases Catalog.comparison?_cases h with ⟨hop, t, hs⟩ | ⟨op', t, hop, hrev, hs⟩
  · exact ν.compare hs hop
  · rw [BinaryOp.holds_reversed hrev]
    exact ν.compare_const hs hop

/-- A truth value as a number is not zero exactly when it is true. -/
theorem Word.decide_ofBool_ne_zero (b : Bool) : decide (Word.ofBool b ≠ 0) = b := by
  cases b <;> rfl

namespace Constraints

variable {c : Catalog} {m : Constraints} {s : SymbolId}

/-- What is assumed of a comparison, as a comparison that holds. -/
theorem assumed_iff {l : SymbolId} {op op' : BinaryOp} {k : Int} {truth : Bool}
    (h : c.comparison? s = some (l, op, k)) (h' : (if truth then some op else op.negated?) = some op')
    (ν : Valuation c) : op'.holds (ν.value l) k = true ↔ decide (ν.value s ≠ 0) = truth := by
  rw [ν.of_comparison? h, Word.decide_ofBool_ne_zero]
  cases truth with
  | true => rw [some.inj h']
  | false => rw [BinaryOp.holds_negated h', Bool.not_eq_true']

theorem decides_assumeSymbol (hm : m.Normal) (hs : c.Fits s) (truth : Bool) :
    m.Decides (m.assumeSymbol c s truth) fun ν : Valuation c => decide (ν.value s ≠ 0) = truth := by
  fun_induction assumeSymbol m c s truth with
  | case1 s truth h =>
    refine (decides_narrowBy hm hs _ 0).congr fun ν => ?_
    cases truth <;> simp [BinaryOp.holds]
  | case2 s truth p h h' => exact absurd h' (Catalog.assumed_ne_none h truth)
  | case3 s truth p h op h' hcond ih =>
    -- A comparison that is compared with zero is itself assumed, or its opposite.
    obtain ⟨l, op0, k⟩ := p
    obtain ⟨hk, hop, -⟩ := hcond
    refine (ih (hs.of_comparison? h)).congr fun ν => ?_
    rw [← assumed_iff h h' ν, show k = 0 from hk]
    rcases hop with rfl | rfl <;> simp [BinaryOp.holds]
  | case4 s truth p h op h' hcond =>
    exact (decides_narrowBy hm (hs.of_comparison? h) op p.2.2).congr fun ν => assumed_iff h h' ν

end Constraints

/-- Is a place not null? Known objects are not, and memory behind an unknown pointer is not if the
pointer is not. -/
def Loc.truth {c : Catalog} (ν : Valuation c) : Loc → Bool
  | .address n => n ≠ 0
  | .region r =>
    match c.symbolicBase? r with
    | some s => ν.value s ≠ 0
    | none => true

/-- Is a condition true? Values that are no numbers and no places are no conditions. -/
def Value.truth? {c : Catalog} (ν : Valuation c) : Value → Option Bool
  | .int n => some (n ≠ 0)
  | .symbol s => some (ν.value s ≠ 0)
  | .loc l | .locAsInt l => some (l.truth ν)
  | .undefined | .unknown | .snapshot .. => none

/-- Is the value a number or a place? -/
def Value.isCondition : Value → Bool
  | .int _ | .symbol _ | .loc _ | .locAsInt _ => true
  | .undefined | .unknown | .snapshot .. => false

/-- Is the symbol behind a place, if there is one, made of sums that fit? -/
def Loc.Fits (c : Catalog) : Loc → Prop
  | .address _ => True
  | .region r => ∀ s, c.symbolicBase? r = some s → c.Fits s

/-- Is what a value is made of made of sums that fit? -/
def Value.Fits (c : Catalog) : Value → Prop
  | .symbol s => c.Fits s
  | .loc l | .locAsInt l => l.Fits c
  | .int _ | .undefined | .unknown | .snapshot .. => True

/-- Where all sums fit, every value does. -/
theorem Catalog.SumsFit.fitsValue (hc : c.SumsFit) (v : Value) : v.Fits c := by
  have hloc : ∀ l : Loc, l.Fits c := fun l => by
    cases l with
    | address n => trivial
    | region r => exact fun s _ => hc.fits s
  cases v with
  | symbol s => exact hc.fits s
  | loc l | locAsInt l => exact hloc l
  | int | undefined | unknown | snapshot => trivial

theorem Value.exists_truth? (ν : Valuation c) {v : Value} (h : v.isCondition = true) :
    ∃ truth, v.truth? ν = some truth := by
  cases v with
  | int _ | symbol _ | loc _ | locAsInt _ => exact ⟨_, rfl⟩
  | undefined | unknown | snapshot => cases h

namespace Constraints

variable {c : Catalog} {m : Constraints} {v : Value}

theorem decides_assumeLoc (hm : m.Normal) {l : Loc} (hl : l.Fits c) (truth : Bool) :
    m.Decides (m.assumeLoc c l truth) fun ν : Valuation c => l.truth ν = truth := by
  cases l with
  | address n =>
    refine (decides_const hm ((n ≠ 0) = truth)).congr fun ν => ?_
    cases truth <;> simp [Loc.truth]
  | region r =>
    simp only [assumeLoc]
    split
    · next s hs =>
      refine (decides_assumeSymbol hm (hl s hs) truth).congr fun ν => ?_
      simp [Loc.truth, hs]
    · next hs =>
      refine (decides_const hm (truth = true)).congr fun ν => ?_
      simp [Loc.truth, hs, eq_comm]

/-- Assumptions about a condition that fits are exact. -/
theorem decides_assume_of_fits (hm : m.Normal) (hv : v.isCondition = true) (hf : v.Fits c) (truth : Bool)
    :
    m.Decides (m.assume c v truth) fun ν : Valuation c => v.truth? ν = some truth := by
  cases v with
  | int n =>
    refine (decides_const hm ((n ≠ 0) = truth)).congr fun ν => ?_
    cases truth <;> simp [Value.truth?]
  | symbol s => exact (decides_assumeSymbol hm hf truth).congr fun ν => by simp [Value.truth?]
  | loc l | locAsInt l =>
    exact (decides_assumeLoc hm hf truth).congr fun ν => by simp [Value.truth?]
  | undefined | unknown | snapshot => cases hv

theorem decides_assume (hc : c.SumsFit) (hm : m.Normal) (hv : v.isCondition = true) (truth : Bool) :
    m.Decides (m.assume c v truth) fun ν : Valuation c => v.truth? ν = some truth :=
  decides_assume_of_fits hm hv (hc.fitsValue v) truth

/-- **Path feasibility is decided exactly.** The constraints with a condition assumed to be true or
false hold of exactly the valuations that satisfy the constraints before and make the condition so;
there are none of these if the assumption fails. So every valuation that satisfies the constraints
satisfies those on exactly one side of a branch. -/
theorem assume_exact (hc : c.SumsFit) (hm : m.Normal) {v : Value} (hv : v.isCondition = true) :
    (∀ truth m', m.assume c v truth = some m' → m'.Normal ∧
        ∀ ν : Valuation c, m'.Holds ν ↔ m.Holds ν ∧ v.truth? ν = some truth) ∧
      (∀ truth, m.assume c v truth = none →
        ∀ ν : Valuation c, m.Holds ν → v.truth? ν ≠ some truth) ∧
      ∀ ν : Valuation c, m.Holds ν → ∃! truth, ∃ m', m.assume c v truth = some m' ∧ m'.Holds ν := by
  have decides := fun truth => decides_assume hc hm hv truth
  refine ⟨fun truth m' h => ⟨(decides truth).normal h, (decides truth).exact h⟩,
    fun truth h => (decides truth).impossible h, fun ν hν => ?_⟩
  obtain ⟨b, hb⟩ := Value.exists_truth? ν hv
  refine ⟨b, ?_, fun b' ⟨m', h', hm'⟩ => ?_⟩
  · cases h : m.assume c v b with
    | none => exact absurd hb ((decides b).impossible h ν hν)
    | some m' => exact ⟨m', h, ((decides b).exact h ν).2 ⟨hν, hb⟩⟩
  · have := (((decides b').exact h' ν).1 hm').2
    rw [hb] at this
    exact (some.inj this).symm

/-- A catalog with the symbols `x`, `x + 1` and `x + 1 < 5`. -/
def sumCatalog : Catalog where
  program := { file := "" }
  regions := ∅
  symbols :=
    ((Interned.empty.push (.regionValue ⟨0⟩ .int) (by simp [Interned.empty])).push
      (.symInt ⟨0⟩ .add 1 .int) (by simp [Interned.push, Interned.empty])).push
      (.symInt ⟨1⟩ .lt 5 .int) (by simp [Interned.push, Interned.empty])

theorem sumsFit_sumCatalog : sumCatalog.SumsFit := by
  intro s l op k t h hop n hn
  match s with
  | ⟨1⟩ => cases h; exact hn
  | ⟨2⟩ => cases h; simp at hop
  | ⟨0⟩ | ⟨_ + 3⟩ => cases h

/-- The valuation where `x` is one. -/
def sumValuation : Valuation sumCatalog where
  value
    | ⟨0⟩ => 1
    | ⟨1⟩ => 2
    | ⟨2⟩ => 1
    | _ => 0
  mem_domain
    | ⟨0⟩ | ⟨1⟩ | ⟨2⟩ => by decide
    | ⟨_ + 3⟩ => (by decide : (0 : Int) ∈ CType.int.domain)
  sum {s l k t} h := by
    match s with
    | ⟨1⟩ => cases h; decide
    | ⟨0⟩ | ⟨2⟩ | ⟨_ + 3⟩ => cases h
  difference {s l k t} h := by
    match s with
    | ⟨0⟩ | ⟨1⟩ | ⟨2⟩ | ⟨_ + 3⟩ => cases h
  compare {s l op k t} h hop := by
    match s with
    | ⟨1⟩ => cases h; cases hop
    | ⟨2⟩ => cases h; decide
    | ⟨0⟩ | ⟨_ + 3⟩ => cases h
  compare_const {s k op r t} h := by
    match s with
    | ⟨0⟩ | ⟨1⟩ | ⟨2⟩ | ⟨_ + 3⟩ => cases h

/-- The constraint that `x` is not zero. -/
def nonzero : Constraints := ⟨[(⟨0⟩, (RangeSet.point 0).compl .int)]⟩

theorem normal_nonzero : nonzero.Normal := fun s r h => by
  rw [nonzero, get?, lookup_cons] at h
  split at h
  · exact some.inj h ▸ normal_compl (normal_interval 0 0)
  · cases h

theorem holds_nonzero : nonzero.Holds sumValuation := fun s r h => by
  rw [nonzero, get?, lookup_cons] at h
  split at h
  · next e =>
    rw [e, ← some.inj h]
    refine (mem_compl (normal_interval 0 0)).2 ⟨by decide, fun h => ?_⟩
    exact absurd (mem_interval.1 h).2 (by decide)
  · cases h

/-- Branching on `x + 1 < 5`, where nothing is known of `x` but that it is not zero: the valuation
where `x` is one goes one way only. -/
theorem assume_exact_sum :
    sumCatalog.SumsFit ∧ nonzero.Normal ∧ nonzero.Holds sumValuation ∧
      ∃! truth, ∃ m', nonzero.assume sumCatalog (.symbol ⟨2⟩) truth = some m' ∧
        m'.Holds sumValuation :=
  ⟨sumsFit_sumCatalog, normal_nonzero, holds_nonzero,
    (assume_exact sumsFit_sumCatalog normal_nonzero rfl).2.2 sumValuation holds_nonzero⟩

end Constraints

end PathScout

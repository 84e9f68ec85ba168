import PathScout.Proofs.ScalarMemory

/-!
# Assumptions about numbers

To assume that a number is zero or not changes the constraints only. It keeps every run in which
the number is so, and it fails only if there is none.

* `Study.TameConstraints.assume`: only numbers are constrained.
* `Study.assume_holds`: the runs that an assumption keeps.
* `Study.exists_assume`: an assumption that is true of a run does not fail.
-/

namespace PathScout

open Constraints RangeSet

namespace Catalog

variable {c : Catalog} {P : Symbol → Prop} {x : SymbolId}

/-- The symbol in a comparison with a constant is made of the same atoms. -/
theorem Over.of_comparison? {p : SymbolId × BinaryOp × Int} (h : c.Over P x)
    (hp : c.comparison? x = some p) : c.Over P p.1 := by
  obtain ⟨l, op, k⟩ := p
  rcases comparison?_cases hp with ⟨-, t, hx⟩ | ⟨op', t, -, -, hx⟩
  iterate 2
    · exact h.operand (hx ▸ rfl) (by simp [hx, Symbol.operands])

end Catalog

namespace Study

variable {c z : Catalog} {P : Symbol → Prop} {m m' : Constraints} {x : SymbolId} {v : Value}
  {α : Assignment} {n : Int} {truth : Bool}

/-! ### What is constrained -/

/-- Only symbols whose atoms satisfy the condition are constrained. -/
def KeysOver (c : Catalog) (P : Symbol → Prop) (m : Constraints) : Prop :=
  ∀ x rs, m.get? x = some rs → c.Over P x

theorem KeysOver.narrow {allowed : RangeSet} (hm : KeysOver c P m) (hx : c.Over P x)
    (h : m.narrow c x allowed = some m') : KeysOver c P m' := by
  fun_induction Constraints.narrow m c x allowed with
  | case1 x allowed p hp shifted ih => exact ih (hx.of_shifted? hp) h
  | case2 x allowed hp narrowed hempty => cases h
  | case3 x allowed hp narrowed hempty =>
    cases h
    intro y rs hy
    rw [OrderedMap.get?_insert] at hy
    split at hy
    · next hyx => exact hyx ▸ hx
    · exact hm y rs hy

theorem KeysOver.assumeSymbol (hm : KeysOver c P m) (hx : c.Over P x)
    (h : m.assumeSymbol c x truth = some m') : KeysOver c P m' := by
  fun_induction Constraints.assumeSymbol m c x truth with
  | case1 x truth hp => exact hm.narrow hx h
  | case2 x truth p hp hop =>
    cases h
    exact hm
  | case3 x truth p hp op hop hcond ih => exact ih (hx.of_comparison? hp) h
  | case4 x truth p hp op hop hcond => exact hm.narrow (hx.of_comparison? hp) h

/-- Assumptions about numbers constrain numbers only. -/
theorem TameConstraints.assume (hc : c.Arithmetic) (hm : TameConstraints c P m) (hv : v.Plain c P)
    (h : m.assume c v truth = some m') : TameConstraints c P m' := by
  have hkeys : KeysOver c P m := fun x rs hx => (hm x rs hx).1
  cases v with
  | loc | locAsInt | snapshot => cases hv
  | undefined | unknown =>
    cases h
    exact hm
  | int n =>
    rw [Constraints.assume] at h
    split at h
    · cases h
      exact hm
    · cases h
  | symbol x =>
    intro y rs hy
    exact ⟨hkeys.assumeSymbol hv h y rs hy,
      (decides_assumeSymbol hm.normal (Catalog.SumsFit.fits hc.sumsFit x) truth).normal h y rs hy⟩

/-! ### Which runs are kept -/

/-- The ranges of constraints in terms of a later catalog. -/
theorem TameConstraints.holds_iff (hc : c.Arithmetic) (hm : TameConstraints c P m) (hcz : c ≤ z) :
    m.Holds (hc.valuation α) ↔ ∀ x rs, m.get? x = some rs → z.eval α x ∈ rs := by
  refine forall₃_congr fun x rs hx => ?_
  rw [(hm x rs hx).1.eval_mono hcz]
  rfl

section

variable (hc : c.Arithmetic) (hm : TameConstraints c P m) (hv : v.Plain c P) (hcz : c ≤ z)
  (hrange : ∀ x rs, m.get? x = some rs → z.eval α x ∈ rs) (hd : v.Denotes z α n)
include hc hm hv hcz hrange hd

/-- An assumption that is true of a run keeps it. -/
theorem assume_holds (h : m.assume c v (decide (n ≠ 0)) = some m') :
    ∀ x rs, m'.get? x = some rs → z.eval α x ∈ rs := by
  have hd := hd.of_le hv hcz
  have hdecides := decides_assume hc.sumsFit hm.normal hd.isCondition (decide (n ≠ 0))
  refine ((hm.assume hc hv h).holds_iff hc hcz).1 ((hdecides.exact h _).2 ⟨?_, hd.truth?_eq hc⟩)
  exact (hm.holds_iff hc hcz).2 hrange

/-- An assumption that is true of a run does not fail. -/
theorem exists_assume : ∃ m', m.assume c v (decide (n ≠ 0)) = some m' := by
  have hd := hd.of_le hv hcz
  have hdecides := decides_assume hc.sumsFit hm.normal hd.isCondition (decide (n ≠ 0))
  cases h : m.assume c v (decide (n ≠ 0)) with
  | some m' => exact ⟨m', rfl⟩
  | none => exact absurd (hd.truth?_eq hc) (hdecides.impossible h _ ((hm.holds_iff hc hcz).2 hrange))

end

end Study

/-!
## Ranges that can be satisfied

An assumption never leaves a symbol without a value, and where only atoms are constrained, the values
of the symbols can be chosen one by one. So all ranges of a state hold under some assignment, and the
ranges of some symbols can be satisfied without touching the others.

* `Study.Satisfies`: an assignment satisfies the ranges.
* `Study.satisfies_of_assume`: what satisfies the ranges after an assumption.
* `Study.Filled`: every range has a value of the type of its symbol.
* `Study.exists_satisfies`: symbols that are given up can have values in their ranges.
-/

namespace Study

variable {c z : Catalog} {P : Symbol → Prop} {m m' : Constraints} {x : SymbolId} {v : Value}
  {α β : Assignment} {n : Int} {truth : Bool}

/-- The assignment satisfies the ranges. -/
def Satisfies (z : Catalog) (α : Assignment) (m : Constraints) : Prop :=
  ∀ x rs, m.get? x = some rs → z.eval α x ∈ rs

/-- Only symbols that are not made of others are constrained. -/
def Atomic (z : Catalog) (m : Constraints) : Prop :=
  ∀ x rs, m.get? x = some rs → (z.symbol x).isAtomic = true

/-! ### Assumptions -/

/-- **An assumption is exact.** What satisfies the ranges after it satisfied them before, and makes the
condition as it was assumed. -/
theorem satisfies_of_assume (hc : c.Arithmetic) (hm : TameConstraints c P m) (hv : v.Plain c P)
    (hcz : c ≤ z) (h : m.assume c v truth = some m') (hα : Satisfies z α m') :
    Satisfies z α m ∧ ∀ n, v.Denotes z α n → decide (n ≠ 0) = truth := by
  by_cases hcond : v.isCondition = true
  · have hdecides := decides_assume hc.sumsFit hm.normal hcond truth
    obtain ⟨hbefore, htruth⟩ :=
      (hdecides.exact h (hc.valuation α)).1 (((hm.assume hc hv h).holds_iff hc hcz).2 hα)
    refine ⟨(hm.holds_iff hc hcz).1 hbefore, fun n hn => ?_⟩
    exact Option.some.inj (((hn.of_le hv hcz).truth?_eq hc).symm.trans htruth)
  · have hsame : m' = m := by
      cases v with
      | undefined | unknown => exact (Option.some.inj h).symm
      | int | symbol => exact absurd rfl hcond
      | _ => cases hv
    exact ⟨hsame ▸ hα, fun n hn => absurd (hn.isCondition) hcond⟩

/-- A value that cannot be assumed to be other than zero is zero. -/
theorem eq_zero_of_assume (hc : c.Arithmetic) (hm : TameConstraints c P m) (hv : v.Plain c P)
    (hcz : c ≤ z) (h : m.assume c v true = none) (hα : Satisfies z α m) (hn : v.Denotes z α n) :
    n = 0 := by
  by_contra hne
  obtain ⟨m', hm'⟩ := exists_assume hc hm hv hcz hα hn
  rw [decide_eq_true hne, h] at hm'
  cases hm'

/-! ### Values that are left -/

/-- Every range has a value, and only values of the type of its symbol. -/
def Filled (c : Catalog) (m : Constraints) : Prop :=
  ∀ x rs, m.get? x = some rs → (∃ n, n ∈ rs) ∧ ∀ n ∈ rs, n ∈ (c.symbol x).type.domain

theorem Filled.mono (h : Filled c m) (hm : TameConstraints c P m) (hcz : c ≤ z) : Filled z m := by
  intro x rs hx
  rw [Catalog.symbol_mono hcz (hm x rs hx).1.hasSymbol]
  exact h x rs hx

theorem Filled.mem_domain_of_range (h : Filled c m) (hn : n ∈ m.range c x) :
    n ∈ (c.symbol x).type.domain := by
  unfold Constraints.range at hn
  cases hx : m.get? x with
  | none =>
    rw [hx] at hn
    exact RangeSet.mem_domain.1 hn
  | some rs =>
    rw [hx] at hn
    exact (h x rs hx).2 n hn

theorem Filled.narrow {allowed : RangeSet} (hm : m.Normal) (h : Filled c m) (hn : allowed.Normal)
    (hm' : m.narrow c x allowed = some m') : Filled c m' := by
  fun_induction Constraints.narrow m c x allowed with
  | case1 x allowed p hp shifted ih => exact ih (normal_inter (normal_shift ..) (normal_domain _)) hm'
  | case2 x allowed hp narrowed hempty => cases hm'
  | case3 x allowed hp narrowed hempty =>
    cases hm'
    have hr := normal_range (c := c) hm x
    intro y rs hy
    rw [OrderedMap.get?_insert] at hy
    split at hy
    · next hyx =>
      cases hy
      subst hyx
      refine ⟨?_, fun n hmem => h.mem_domain_of_range ((mem_inter hr hn).1 hmem).1⟩
      by_contra hnone
      refine hempty ((isEmpty_iff_forall_notMem (normal_inter hr hn)).2 ?_)
      exact fun n hmem => hnone ⟨n, hmem⟩
    · exact h y rs hy

theorem Filled.assumeSymbol (hm : m.Normal) (h : Filled c m)
    (hm' : m.assumeSymbol c x truth = some m') : Filled c m' := by
  fun_induction Constraints.assumeSymbol m c x truth with
  | case1 x truth hp | case4 x truth p hp op hop hcond =>
    exact h.narrow hm (normal_satisfying _ _ _) hm'
  | case2 x truth p hp hop =>
    cases hm'
    exact h
  | case3 x truth p hp op hop hcond ih => exact ih hm'

/-- An assumption leaves every symbol a value. -/
theorem Filled.assume (hm : TameConstraints c P m) (h : Filled c m) (hv : v.Plain c P)
    (hm' : m.assume c v truth = some m') : Filled c m' := by
  cases v with
  | loc | locAsInt | snapshot => cases hv
  | undefined | unknown =>
    cases hm'
    exact h
  | int n =>
    rw [Constraints.assume] at hm'
    split at hm'
    · cases hm'
      exact h
    · cases hm'
  | symbol x => exact h.assumeSymbol hm.normal hm'

/-! ### Choosing values -/

open Classical in
/-- The assignment that gives atoms which are given up values in their ranges. -/
noncomputable def refill (z : Catalog) (m : Constraints) (dead : SymbolId → Prop) (β : Assignment) :
    Assignment where
  value a := if h : ∃ n x rs, m.get? x = some rs ∧ dead x ∧ z.symbol x = a ∧ n ∈ rs ∧
    n ∈ a.type.domain then h.choose else β.value a
  mem_domain a := by
    split
    · next h =>
      obtain ⟨-, -, -, -, -, -, hn⟩ := h.choose_spec
      exact hn
    · exact β.mem_domain a

/-- **Atoms that are given up can have values in their ranges**, and all others keep theirs. -/
theorem exists_satisfies (hm : TameConstraints z P m) (hfilled : Filled z m) (hatomic : Atomic z m)
    (dead : SymbolId → Prop) (β : Assignment)
    (hβ : ∀ x rs, m.get? x = some rs → ¬ dead x → z.eval β x ∈ rs) :
    ∃ α : Assignment, Satisfies z α m ∧
      ∀ a, (∀ x rs, m.get? x = some rs → z.symbol x = a → ¬ dead x) → α.value a = β.value a := by
  have hinj : ∀ {x y rs rs'}, m.get? x = some rs → m.get? y = some rs' →
      z.symbol x = z.symbol y → x = y := fun {x y rs rs'} hx hy heq => by
    have hx' := (hm x rs hx).1.hasSymbol.get?
    have hy' := (hm y rs' hy).1.hasSymbol.get?
    exact congrArg SymbolId.mk (Interned.get?_inj hx' (heq ▸ hy'))
  refine ⟨refill z m dead β, fun x rs hx => ?_, fun a ha => ?_⟩
  · have hat := hatomic x rs hx
    rw [Catalog.eval_of_isAtomic hat]
    by_cases hdead : dead x
    · obtain ⟨⟨n, hn⟩, hdomain⟩ := hfilled x rs hx
      have hex : ∃ n y rs', m.get? y = some rs' ∧ dead y ∧ z.symbol y = z.symbol x ∧ n ∈ rs' ∧
          n ∈ (z.symbol x).type.domain := ⟨n, x, rs, hx, hdead, rfl, hn, hdomain n hn⟩
      obtain ⟨y, rs', hy, -, heq, hmem, -⟩ := hex.choose_spec
      obtain rfl := hinj hy hx heq
      cases hx.symm.trans hy
      rw [show (refill z m dead β).value (z.symbol y) = hex.choose from dif_pos hex]
      exact hmem
    · have hnone : ¬ ∃ n y rs', m.get? y = some rs' ∧ dead y ∧ z.symbol y = z.symbol x ∧ n ∈ rs' ∧
          n ∈ (z.symbol x).type.domain := by
        rintro ⟨n, y, rs', hy, hdead', heq, -, -⟩
        exact hdead (hinj hy hx heq ▸ hdead')
      rw [show (refill z m dead β).value _ = _ from dif_neg hnone, ← Catalog.eval_of_isAtomic hat]
      exact hβ x rs hx hdead
  · refine dif_neg ?_
    rintro ⟨n, y, rs', hy, hdead, heq, -, -⟩
    exact ha y rs' hy heq hdead

end Study

end PathScout

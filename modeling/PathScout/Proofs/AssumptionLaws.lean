import PathScout.Proofs.CatalogLaws
import PathScout.Proofs.Feasibility

/-!
# Assumptions step by step

What is assumed of a symbol is passed on to the symbols that it is made of, which are older. So an
assumption is taken apart one symbol at a time, and no later symbol has a say in it: a larger catalog
gives the same answer.

* `Constraints.narrow_of_shifted?`, `Constraints.narrow_of_base`: one step of a restriction.
* `Constraints.assumeSymbol_of_some`, `Constraints.assumeSymbol_of_none`: one step of an assumption.
* `Constraints.narrow_mono`, `Constraints.assumeSymbol_mono`: the answers in a larger catalog.
-/

namespace PathScout

open Catalog

namespace Catalog

variable {c d : Catalog} {s : SymbolId}

theorem shifted?_mono (hcd : c ≤ d) (hs : c.HasSymbol s) : d.shifted? s = c.shifted? s := by
  rw [shifted?, shifted?, symbol_mono hcd hs]

theorem comparison?_mono (hcd : c ≤ d) (hs : c.HasSymbol s) : d.comparison? s = c.comparison? s := by
  rw [comparison?, comparison?, symbol_mono hcd hs]

end Catalog

namespace Constraints

variable {c d : Catalog} {m : Constraints} {s : SymbolId} {allowed : RangeSet} {truth : Bool}

/-! ### One step of an assumption -/

theorem narrow_of_shifted? {p : SymbolId × Int} (h : c.shifted? s = some p) :
    m.narrow c s allowed = m.narrow c p.1 ((allowed.shift (Word.wrap (-p.2))
      (c.symbol s).type).inter (.domain (c.symbol p.1).type)) := by
  rw [narrow]
  split
  · next q hq =>
    cases hq.symm.trans h
    rfl
  · next hq => cases hq.symm.trans h

theorem narrow_of_base (h : c.shifted? s = none) :
    m.narrow c s allowed = if ((m.range c s).inter allowed).isEmpty then none
      else some (m.insert s ((m.range c s).inter allowed)) := by
  rw [narrow]
  split
  · next q hq => cases h.symm.trans hq
  · rfl

theorem assumeSymbol_of_none (h : c.comparison? s = none) :
    m.assumeSymbol c s truth = m.narrowBy c s (if truth then .ne else .eq) 0 := by
  rw [assumeSymbol]
  split
  · rfl
  · next q hq => cases h.symm.trans hq

/-- What is assumed of a comparison is passed on to the comparison that it compares with zero, or
restricts the symbol that it compares. -/
theorem assumeSymbol_of_some {p : SymbolId × BinaryOp × Int} {op : BinaryOp}
    (h : c.comparison? s = some p)
    (hop : (if truth then some p.2.1 else p.2.1.negated?) = some op) :
    m.assumeSymbol c s truth = if p.2.2 = 0 ∧ (op = .eq ∨ op = .ne) ∧ (c.comparison? p.1).isSome then
        m.assumeSymbol c p.1 (op = .ne)
      else m.narrowBy c p.1 op p.2.2 := by
  rw [assumeSymbol]
  split
  · next hq => cases h.symm.trans hq
  · next q hq =>
    cases h.symm.trans hq
    split
    · next hnone => cases hop.symm.trans hnone
    · next op' hop' =>
      cases hop.symm.trans hop'
      rfl

/-! ### Larger catalogs -/

section

variable (hcd : c ≤ d) (hs : c.HasSymbol s)
include hcd hs

theorem range_mono : m.range d s = m.range c s := by rw [range, range, symbol_mono hcd hs]

theorem narrow_mono : m.narrow d s allowed = m.narrow c s allowed := by
  fun_induction narrow m c s allowed with
  | case1 s allowed p hp shifted ih =>
    have hlt : c.HasSymbol p.1 := (shifted?_lt hp).trans hs
    rw [narrow_of_shifted? ((shifted?_mono hcd hs).trans hp), symbol_mono hcd hs, symbol_mono hcd hlt]
    exact ih hlt
  | case2 s allowed hp narrowed hempty =>
    rw [narrow_of_base ((shifted?_mono hcd hs).trans hp), range_mono hcd hs, if_pos hempty]
  | case3 s allowed hp narrowed hempty =>
    rw [narrow_of_base ((shifted?_mono hcd hs).trans hp), range_mono hcd hs, if_neg hempty]

theorem narrowBy_mono (op : BinaryOp) (k : Int) : m.narrowBy d s op k = m.narrowBy c s op k := by
  rw [narrowBy, narrowBy, symbol_mono hcd hs, narrow_mono hcd hs]

theorem assumeSymbol_mono (truth : Bool) : m.assumeSymbol d s truth = m.assumeSymbol c s truth := by
  fun_induction assumeSymbol m c s truth with
  | case1 s truth hp =>
    rw [assumeSymbol_of_none ((comparison?_mono hcd hs).trans hp)]
    exact narrowBy_mono hcd hs _ 0
  | case2 s truth p hp hop => exact absurd hop (assumed_ne_none hp truth)
  | case3 s truth p hp op hop hcond ih =>
    have hlt : c.HasSymbol p.1 := (comparison?_lt hp).trans hs
    rw [assumeSymbol_of_some ((comparison?_mono hcd hs).trans hp) hop,
      comparison?_mono hcd hlt, if_pos hcond]
    exact ih hlt
  | case4 s truth p hp op hop hcond =>
    have hlt : c.HasSymbol p.1 := (comparison?_lt hp).trans hs
    rw [assumeSymbol_of_some ((comparison?_mono hcd hs).trans hp) hop,
      comparison?_mono hcd hlt, if_neg hcond]
    exact narrowBy_mono hcd hlt _ _

end

end Constraints

end PathScout

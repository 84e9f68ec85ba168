import PathScout.Proofs.AssumptionLaws
import PathScout.Proofs.SymbolLaws
import PathScout.State.Reach

/-!
# Ranges stay canonical

An assumption that succeeds narrows the range of one symbol, and one that is no sum: restrictions of
sums are passed on to the symbol in them. What is forgotten is forgotten as a whole. So every range
that is ever kept is in normal form, has members, and has only values of the type of its symbol, and
as long as only atoms are constrained their values can be chosen one by one.

* `Constraints.NarrowedAt`: what a single restriction does.
* `Constraints.narrow_cases`, `assumeSymbol_cases`, `assume_cases`: assumptions are such restrictions.
* `Constraints.Canonical`: the form of all ranges that are kept.
* `Constraints.Reached`: what assumptions and forgetting make of no constraints at all.
* `Catalog.compute`: the values of all symbols, given those of the atoms.
* `Constraints.Reached.canonical_and_satisfiable`: the form is kept, and can be satisfied.
-/

namespace PathScout

open Catalog RangeSet Naming Option OrderedMap

variable {op : BinaryOp} {t : CType}

/-- Is the symbol a sum or difference with a constant? -/
def Symbol.isSum : Symbol → Bool
  | symInt _ .add _ _ | symInt _ .sub _ _ => true
  | _ => false

namespace Catalog

variable {c d : Catalog} {s : SymbolId}

theorem Layered.of_le (hd : d.Layered) (hcd : c ≤ d) : c.Layered := fun x hx y hy =>
  hd x (hx.mono hcd) y (by rwa [symbol_mono hcd hx])

/-- Where operands are older, only sums are taken for sums, and all of them are. -/
theorem Layered.isSum_eq_false (hc : c.Layered) (h : c.shifted? s = none) :
    (c.symbol s).isSum = false := by
  have hpass : ∀ {l : SymbolId} {op : BinaryOp} {k : Int} {t : CType} {p : SymbolId × Int},
      c.symbol s = .symInt l op k t → (c.symbol s).shifted? = some p → p.1 = l → False := by
    intro l op k t p hs hp hl
    have hx : c.HasSymbol s := hasSymbol_of_ne (by rw [hs]; exact Symbol.noConfusion)
    have hlt : l.index < s.index := hc s hx l (by simp [hs, Symbol.operands])
    rw [shifted?, hp, filter_some, hl, if_pos (by simpa using hlt)] at h
    cases h
  cases hs : c.symbol s with
  | symInt l op k t =>
    cases op with
    | add | sub => exact (hpass hs (by rw [hs]; rfl) rfl).elim
    | _ => rfl
  | _ => rfl

end Catalog

/-- Is the symbol that an assumption about the value is about, if there is one, in the catalog? -/
def Value.Named (c : Catalog) : Value → Prop
  | .symbol s => c.HasSymbol s
  | .loc (.region r) | .locAsInt (.region r) => ∀ s, c.symbolicBase? r = some s → c.HasSymbol s
  | _ => True

namespace Constraints

variable {c d : Catalog} {m m' : Constraints} {x s : SymbolId} {r allowed : RangeSet} {v : Value}
  {truth : Bool}

/-! ### One symbol at a time -/

/-- A symbol that is no sum keeps some of the values that it had; no other symbol is touched. -/
structure NarrowedAt (c : Catalog) (m m' : Constraints) (x : SymbolId) (r : RangeSet) : Prop where
  eq_insert : m' = m.insert x r
  no_sum : c.shifted? x = none
  normal : r.Normal
  exists_mem : ∃ n, n ∈ r
  mem_range {n : Int} : n ∈ r → n ∈ m.range c x

/-- The symbol that is restricted is narrowed, or an older one that it is a sum of. -/
theorem narrow_cases (hm : m.Normal) (hn : allowed.Normal) (h : m.narrow c s allowed = some m') :
    ∃ x r, x.index ≤ s.index ∧ NarrowedAt c m m' x r := by
  fun_induction narrow m c s allowed with
  | case1 s allowed p hp shifted ih =>
    obtain ⟨x, r, hx, hr⟩ := ih (normal_inter (normal_shift ..) (normal_domain _)) h
    exact ⟨x, r, hx.trans (shifted?_lt hp).le, hr⟩
  | case2 s allowed hp narrowed hempty => cases h
  | case3 s allowed hp narrowed hempty =>
    have hr := normal_range (c := c) hm s
    have hnormal : narrowed.Normal := normal_inter hr hn
    refine ⟨s, narrowed, le_rfl, (some.inj h).symm, hp, hnormal, ?_, fun hmem =>
      ((mem_inter hr hn).1 hmem).1⟩
    by_contra hnone
    exact hempty ((isEmpty_iff_forall_notMem hnormal).2 fun n hmem => hnone ⟨n, hmem⟩)

theorem assumeSymbol_cases (hm : m.Normal) (h : m.assumeSymbol c s truth = some m') :
    ∃ x r, x.index ≤ s.index ∧ NarrowedAt c m m' x r := by
  fun_induction assumeSymbol m c s truth with
  | case1 s truth hp => exact narrow_cases hm (normal_satisfying ..) h
  | case2 s truth p hp hop => exact absurd hop (assumed_ne_none hp truth)
  | case3 s truth p hp op hop hcond ih =>
    obtain ⟨x, r, hx, hr⟩ := ih h
    exact ⟨x, r, hx.trans (comparison?_lt hp).le, hr⟩
  | case4 s truth p hp op hop hcond =>
    obtain ⟨x, r, hx, hr⟩ := narrow_cases hm (normal_satisfying ..) h
    exact ⟨x, r, hx.trans (comparison?_lt hp).le, hr⟩

/-- **What an assumption does.** It changes nothing, or it narrows one symbol. -/
theorem assume_cases (hm : m.Normal) (hv : v.Named c) (h : m.assume c v truth = some m') :
    m' = m ∨ ∃ x r, c.HasSymbol x ∧ NarrowedAt c m m' x r := by
  have hsymbol : ∀ s, c.HasSymbol s → m.assumeSymbol c s truth = some m' →
      m' = m ∨ ∃ x r, c.HasSymbol x ∧ NarrowedAt c m m' x r := fun s hs h => by
    obtain ⟨x, r, hx, hr⟩ := assumeSymbol_cases hm h
    exact .inr ⟨x, r, lt_of_le_of_lt hx hs, hr⟩
  have hconst : ∀ {p : Prop} [Decidable p], (if p then some m else none) = some m' → m' = m :=
    fun h => by
      split at h
      · exact (some.inj h).symm
      · cases h
  have hloc : ∀ l : Loc, (∀ r s, l = .region r → c.symbolicBase? r = some s → c.HasSymbol s) →
      m.assumeLoc c l truth = some m' →
      m' = m ∨ ∃ x r, c.HasSymbol x ∧ NarrowedAt c m m' x r := fun l hl h => by
    cases l with
    | address n => exact .inl (hconst h)
    | region q =>
      simp only [assumeLoc] at h
      split at h
      · next s hs => exact hsymbol s (hl q s rfl hs) h
      · exact .inl (hconst h)
  cases v with
  | undefined | unknown | snapshot => exact .inl (some.inj h).symm
  | int n => exact .inl (hconst h)
  | symbol s => exact hsymbol s hv h
  | loc l | locAsInt l =>
    refine hloc l (fun q s hq hs => ?_) h
    subst hq
    exact hv s hs

theorem NarrowedAt.get?_self (h : NarrowedAt c m m' x r) : m'.get? x = some r := by
  rw [h.eq_insert]
  exact get?_insert_self

theorem NarrowedAt.get?_of_ne (h : NarrowedAt c m m' x r) {y : SymbolId} (hy : y ≠ x) :
    m'.get? y = m.get? y := by
  rw [h.eq_insert]
  exact get?_insert_of_ne hy

/-! ### Canonical constraints -/

/-- What constraints say of a symbol: the symbol is in the catalog and no sum, and its range is in
normal form, has members, and has only values of its type. -/
structure Canonical (c : Catalog) (m : Constraints) : Prop where
  hasSymbol {x : SymbolId} {r : RangeSet} : m.get? x = some r → c.HasSymbol x
  isSum_eq_false {x : SymbolId} {r : RangeSet} : m.get? x = some r → (c.symbol x).isSum = false
  normal : m.Normal
  exists_mem {x : SymbolId} {r : RangeSet} : m.get? x = some r → ∃ n, n ∈ r
  mem_domain {x : SymbolId} {r : RangeSet} {n : Int} : m.get? x = some r → n ∈ r →
    n ∈ (c.symbol x).type.domain

namespace Canonical

theorem empty (c : Catalog) : Canonical c {} where
  hasSymbol h := nomatch h
  isSum_eq_false h := nomatch h
  normal := normal_empty
  exists_mem h := nomatch h
  mem_domain h := nomatch h

theorem mono (h : Canonical c m) (hcd : c ≤ d) : Canonical d m where
  hasSymbol hx := (h.hasSymbol hx).mono hcd
  isSum_eq_false hx := by
    rw [symbol_mono hcd (h.hasSymbol hx)]
    exact h.isSum_eq_false hx
  normal := h.normal
  exists_mem := h.exists_mem
  mem_domain hx hn := by
    rw [symbol_mono hcd (h.hasSymbol hx)]
    exact h.mem_domain hx hn

/-- What may be left of a symbol is of its type, whether anything is known of it or not. -/
theorem mem_domain_of_range (h : Canonical c m) {n : Int} (hn : n ∈ m.range c x) :
    n ∈ (c.symbol x).type.domain := by
  unfold range at hn
  cases hx : m.get? x with
  | none =>
    rw [hx] at hn
    exact RangeSet.mem_domain.1 hn
  | some r =>
    rw [hx] at hn
    exact h.mem_domain hx hn

/-- Only the entry of the symbol that is narrowed is new, and that one is canonical too. -/
theorem narrowedAt (h : Canonical c m) (hc : c.Layered) (hx : c.HasSymbol x)
    (hr : NarrowedAt c m m' x r) : Canonical c m' := by
  have hget : ∀ {y q}, m'.get? y = some q → y = x ∧ q = r ∨ m.get? y = some q := by
    intro y q hy
    by_cases hyx : y = x
    · subst hyx
      rw [hr.get?_self] at hy
      exact .inl ⟨rfl, (some.inj hy).symm⟩
    · rw [hr.get?_of_ne hyx] at hy
      exact .inr hy
  refine ⟨fun hy => ?_, fun hy => ?_, fun y q hy => ?_, fun hy => ?_, fun hy hn => ?_⟩ <;>
    rcases hget hy with ⟨rfl, rfl⟩ | hy
  · exact hx
  · exact h.hasSymbol hy
  · exact hc.isSum_eq_false hr.no_sum
  · exact h.isSum_eq_false hy
  · exact hr.normal
  · exact h.normal y q hy
  · exact hr.exists_mem
  · exact h.exists_mem hy
  · exact h.mem_domain_of_range (hr.mem_range hn)
  · exact h.mem_domain hy hn

/-- Forgetting symbols keeps the ranges of the others as they are. -/
theorem filter (h : Canonical c m) (keep : SymbolId → Bool) :
    Canonical c (m.filter fun x _ => keep x) := by
  have hget : ∀ {y q}, (m.filter fun x _ => keep x).get? y = some q → m.get? y = some q := by
    intro y q hy
    rw [get?_filter] at hy
    split at hy
    · exact hy
    · cases hy
  exact
    { hasSymbol := fun hy => h.hasSymbol (hget hy)
      isSum_eq_false := fun hy => h.isSum_eq_false (hget hy)
      normal := fun y q hy => h.normal y q (hget hy)
      exists_mem := fun hy => h.exists_mem (hget hy)
      mem_domain := fun hy => h.mem_domain (hget hy) }

theorem assume (h : Canonical c m) (hc : c.Layered) (hv : v.Named c)
    (ha : m.assume c v truth = some m') : Canonical c m' := by
  rcases assume_cases h.normal hv ha with rfl | ⟨x, r, hx, hr⟩
  · exact h
  · exact h.narrowedAt hc hx hr

end Canonical

/-- The constraints that are reached from none by assumptions that succeed and by forgetting what is
not live, while symbols are named. -/
inductive Reached : Catalog → Constraints → Prop where
  | start (c : Catalog) : Reached c {}
  | grow {c d : Catalog} {m : Constraints} : Reached c m → c ≤ d → Reached d m
  | assume {c : Catalog} {m m' : Constraints} {v : Value} {truth : Bool} : Reached c m →
    v.Named c → m.assume c v truth = some m' → Reached c m'
  | removeDead {c : Catalog} {s : State} (marks : Marks) : Reached c s.constraints →
    Reached c (s.removeDead c marks).constraints

theorem Reached.isCanonical (h : Reached c m) (hc : c.Layered) : Canonical c m := by
  induction h with
  | start c => exact .empty c
  | grow _ hcd ih => exact (ih (hc.of_le hcd)).mono hcd
  | assume _ hv ha ih => exact (ih hc).assume hc hv ha
  | removeDead marks _ ih => exact (ih hc).filter _

end Constraints

/-! ### Values for all symbols -/

/-- The number that an operator gives at a type; zero where it is undefined. -/
def numberAt (op : BinaryOp) (l r : Int) (t : CType) : Int :=
  match foldInts op l r t with
  | .int n => n
  | _ => 0

theorem numberAt_mem_domain {l r : Int} (ht : t.isInteger = true) : numberAt op l r t ∈ t.domain := by
  unfold numberAt
  split
  · next h => exact mem_domain_of_foldInts ht h
  · exact t.zero_mem_domain

theorem numberAt_comparison (ht : t.isInteger = true) (h : op.isComparison = true) (l r : Int) :
    numberAt op l r t = Word.ofBool (op.holds l r) := by
  rw [numberAt, foldInts_comparison ht h]

/-- The value of a symbol, given its own value if it is an atom and the values of the symbols that
it is made of if it is not. -/
def Symbol.computed (own : Int) (older : SymbolId → Int) : Symbol → Int
  | symInt l op k t => numberAt op (older l) k t
  | intSym k op r t => numberAt op k (older r) t
  | symSym l op r t => numberAt op (older l) (older r) t
  | _ => own

namespace Catalog

variable {c : Catalog} {atoms : SymbolId → Int} {x : SymbolId}

/-- The value of a symbol: an atom has the given value, and an operation is computed at its own type
from the values of its operands, which are older. -/
def compute (c : Catalog) (atoms : SymbolId → Int) (x : SymbolId) : Int :=
  (c.symbol x).computed (atoms x) fun y => if y.index < x.index then compute c atoms y else 0
termination_by x.index

theorem compute_of_isAtomic (h : (c.symbol x).isAtomic = true) : c.compute atoms x = atoms x := by
  rw [compute]
  cases hx : c.symbol x with
  | symInt | intSym | symSym =>
    rw [hx] at h
    cases h
  | _ => rfl

theorem compute_of_operation (hc : c.Layered) (h : (c.symbol x).isAtomic = false) :
    c.compute atoms x = (c.symbol x).computed (atoms x) (c.compute atoms) := by
  have hx : c.HasSymbol x := hasSymbol_of_ne fun he => by
    rw [he] at h
    cases h
  have holder : ∀ y ∈ (c.symbol x).operands,
      (if y.index < x.index then c.compute atoms y else 0) = c.compute atoms y := fun y hy =>
    if_pos (hc x hx y hy)
  rw [compute]
  cases hs : c.symbol x with
  | symInt l op k t => rw [Symbol.computed, Symbol.computed, holder l (by simp [hs, Symbol.operands])]
  | intSym k op r t => rw [Symbol.computed, Symbol.computed, holder r (by simp [hs, Symbol.operands])]
  | symSym l op r t =>
    rw [Symbol.computed, Symbol.computed, holder l (by simp [hs, Symbol.operands]),
      holder r (by simp [hs, Symbol.operands])]
  | _ => rfl

/-- All operations give integers. -/
def Integral (c : Catalog) : Prop :=
  ∀ x, (c.symbol x).isAtomic = false → (c.symbol x).type.isInteger = true

theorem Integral.symbol (hint : c.Integral) {a : Symbol}
    (ha : a.isAtomic = false → a.type.isInteger = true) : (Naming.symbol a c).2.Integral := by
  intro x hop
  have hx : (Naming.symbol a c).2.HasSymbol x := hasSymbol_of_ne fun h => by
    rw [h] at hop
    cases hop
  rcases Interned.get?_of_get?_intern hx.get? with h | ⟨-, he⟩
  · rw [symbol_mono (grows_symbol a c) (Interned.lt_size_of_get? h)] at hop ⊢
    exact hint x hop
  · rw [he] at hop ⊢
    exact ha hop

/-- The valuation that values for the atoms give. -/
def Layered.computed (hc : c.Layered) (hint : c.Integral)
    (hatoms : ∀ x, atoms x ∈ (c.symbol x).type.domain) : Valuation c where
  value := c.compute atoms
  mem_domain x := by
    by_cases h : (c.symbol x).isAtomic = true
    · rw [compute_of_isAtomic h]
      exact hatoms x
    · replace h := Bool.eq_false_iff.2 h
      have ht := hint x h
      rw [compute_of_operation hc h]
      cases hx : c.symbol x with
      | symInt | intSym | symSym => exact numberAt_mem_domain (hx ▸ ht)
      | _ =>
        rw [hx] at h
        cases h
  sum hs := by
    rw [compute_of_operation hc (by rw [hs]; rfl), hs]
    rfl
  difference hs := by
    rw [compute_of_operation hc (by rw [hs]; rfl), hs]
    rfl
  compare {s _ _ _ _} hs hop := by
    have hop' : (c.symbol s).isAtomic = false := by rw [hs]; rfl
    have ht := hint s hop'
    rw [hs] at ht
    rw [compute_of_operation hc hop', hs]
    exact numberAt_comparison ht hop _ _
  compare_const {s _ _ _ _} hs hop := by
    have hop' : (c.symbol s).isAtomic = false := by rw [hs]; rfl
    have ht := hint s hop'
    rw [hs] at ht
    rw [compute_of_operation hc hop', hs]
    exact numberAt_comparison ht hop _ _

end Catalog

namespace Constraints

variable {c : Catalog} {m m' : Constraints}

open Classical in
/-- A value for each symbol: one that is left, if the symbol is constrained, and else zero. -/
noncomputable def chosen (m : Constraints) (x : SymbolId) : Int :=
  if h : ∃ n r, m.get? x = some r ∧ n ∈ r then h.choose else 0

theorem Canonical.chosen_mem (h : Canonical c m) {x : SymbolId} {r : RangeSet}
    (hx : m.get? x = some r) : m.chosen x ∈ r := by
  obtain ⟨n, hn⟩ := h.exists_mem hx
  have hex : ∃ n r, m.get? x = some r ∧ n ∈ r := ⟨n, r, hx, hn⟩
  obtain ⟨q, hq, hmem⟩ := hex.choose_spec
  rw [chosen, dif_pos hex]
  cases hx.symm.trans hq
  exact hmem

theorem Canonical.chosen_mem_domain (h : Canonical c m) (x : SymbolId) :
    m.chosen x ∈ (c.symbol x).type.domain := by
  cases hx : m.get? x with
  | some r => exact h.mem_domain hx (h.chosen_mem hx)
  | none =>
    have hnone : ¬ ∃ n r, m.get? x = some r ∧ n ∈ r := by
      rintro ⟨n, r, hr, -⟩
      rw [hx] at hr
      cases hr
    rw [chosen, dif_neg hnone]
    exact CType.zero_mem_domain _

/-- **Constraints stay canonical and satisfiable.** All constraints that are reached keep ranges in
normal form, with members, for symbols that are no sums, and within their types. An assumption that
succeeds changes what is known of one symbol at most, and only to a part of what it was. If only atoms
are constrained, they have values from which the values of all symbols can be computed so that every
constraint is satisfied. -/
theorem Reached.canonical_and_satisfiable (h : Reached c m) (hc : c.Layered) :
    (∀ x r, m.get? x = some r → (∃ n, n ∈ r) ∧ r.Normal ∧
      (∀ n ∈ r, n ∈ (c.symbol x).type.domain) ∧ (c.symbol x).isSum = false) ∧
    (∀ v truth m', v.Named c → m.assume c v truth = some m' →
      ∃ x, (∀ y, y ≠ x → m'.get? y = m.get? y) ∧
        (m'.get? x = m.get? x ∨ ∃ r, m'.get? x = some r ∧ ∀ n ∈ r, n ∈ m.range c x)) ∧
    ((∀ x r, m.get? x = some r → (c.symbol x).isAtomic = true) →
      ∃ atoms : SymbolId → Int, (∀ x, atoms x ∈ (c.symbol x).type.domain) ∧
        (∀ x r, m.get? x = some r → c.compute atoms x ∈ r) ∧
        (c.Integral → ∃ ν : Valuation c, ν.value = c.compute atoms ∧ m.Holds ν)) := by
  have hm := h.isCanonical hc
  refine ⟨fun x r hx => ⟨hm.exists_mem hx, hm.normal x r hx, fun n => hm.mem_domain hx,
    hm.isSum_eq_false hx⟩, fun v truth m' hv ha => ?_, fun hatomic => ?_⟩
  · rcases assume_cases hm.normal hv ha with rfl | ⟨x, r, -, hr⟩
    · exact ⟨⟨0⟩, fun y _ => rfl, .inl rfl⟩
    · exact ⟨x, fun y hy => hr.get?_of_ne hy, .inr ⟨r, hr.get?_self, fun n => hr.mem_range⟩⟩
  · have hranges : ∀ x r, m.get? x = some r → c.compute m.chosen x ∈ r := fun x r hx => by
      rw [compute_of_isAtomic (hatomic x r hx)]
      exact hm.chosen_mem hx
    exact ⟨m.chosen, hm.chosen_mem_domain, hranges, fun hint =>
      ⟨hc.computed hint hm.chosen_mem_domain, rfl, hranges⟩⟩

theorem layered_sumCatalog : sumCatalog.Layered := by
  intro x hx y hy
  match x with
  | ⟨1⟩ | ⟨2⟩ =>
    obtain rfl := List.mem_singleton.1 hy
    decide
  | ⟨0⟩ | ⟨_ + 3⟩ => cases hy

/-- To assume that `x + 1 < 5` leaves ranges of the canonical form. -/
theorem canonical_and_satisfiable_sum :
    sumCatalog.Layered ∧ ∃ m, Constraints.assume {} sumCatalog (.symbol ⟨2⟩) true = some m ∧
      Reached sumCatalog m ∧ m.Holds sumValuation ∧
      ∀ x r, m.get? x = some r → (∃ n, n ∈ r) ∧ r.Normal ∧
        (∀ n ∈ r, n ∈ (sumCatalog.symbol x).type.domain) ∧ (sumCatalog.symbol x).isSum = false := by
  have hcond : (Value.symbol ⟨2⟩).isCondition = true := rfl
  have hdecides := decides_assume sumsFit_sumCatalog normal_empty hcond true
  cases hm : Constraints.assume {} sumCatalog (.symbol ⟨2⟩) true with
  | none => exact absurd rfl (hdecides.impossible hm sumValuation (holds_empty _))
  | some m =>
    have hreached : Reached sumCatalog m :=
      .assume (v := .symbol ⟨2⟩) (.start sumCatalog) (show 2 < sumCatalog.symbols.size by decide) hm
    exact ⟨layered_sumCatalog, m, rfl, hreached, (hdecides.exact hm sumValuation).2 ⟨holds_empty _, rfl⟩,
      (hreached.canonical_and_satisfiable layered_sumCatalog).1⟩

end Constraints

end PathScout

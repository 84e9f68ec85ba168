import PathScout.Proofs.CanonicalRanges

/-!
# Symbols with one value left

A symbol is known if its range is a single number, and a sum with a constant if the symbol in it is
known. What is known is so under every valuation. If a symbol at the end of a chain of sums is assumed
to equal a number, the number is traced back to the atom at the start of the chain, and from there the
values of all sums of the chain are computed again.

* `Catalog.Chain`: sums of sums with constants, down to an atom.
* `RangeSet.single?_eq_some_iff`: the only member of a range.
* `Constraints.value_of_known?`: what is known is the value of the symbol.
* `Constraints.known?_of_narrow`: a restriction to one number makes a chain known.
* `Constraints.known?_exact`: both, for symbols that are assumed to equal a number.
-/

namespace PathScout

open Catalog Naming RangeSet List Option

open RangeSet (wrapWidth)

/-! ### The only member of a range -/

namespace RangeSet

variable {r : RangeSet} {n : Int}

theorem single?_eq_some_iff (h : r.Normal) : r.single? = some n ↔ ∀ a, a ∈ r ↔ a = n := by
  obtain ⟨rs⟩ := r
  match rs, h with
  | [], _ => simp [single?]
  | [q], h =>
    have hle : q.lo ≤ q.hi := (normal_cons.1 h).1
    simp only [single?, mem_cons, mem_nil, or_false, Interval.mem_def]
    constructor
    · intro hq a
      split at hq
      · cases hq
        omega
      · cases hq
    · intro hq
      have hlo := (hq q.lo).1 ⟨le_rfl, hle⟩
      have hhi := (hq q.hi).1 ⟨hle, le_rfl⟩
      rw [if_pos (hlo.trans hhi.symm), hlo]
  | q :: p :: rest, h =>
    -- the lower ends of the first two ranges are different members
    have hlt : q.hi + 1 < p.lo := (normal_cons.1 h).2.1 p mem_cons_self
    have hq : q.lo ≤ q.hi := (normal_cons.1 h).1
    have hp : p.lo ≤ p.hi := h.le p (mem_cons_of_mem _ mem_cons_self)
    refine iff_of_false (by simp [single?]) fun hall => ?_
    have hfirst : q.lo = n := (hall q.lo).1 (mem_cons.2 (.inl ⟨le_rfl, hq⟩))
    have hsecond : p.lo = n := (hall p.lo).1 (mem_cons.2 (.inr (mem_cons.2 (.inl ⟨le_rfl, hp⟩))))
    omega

end RangeSet

/-! ### Chains of sums -/

/-- A symbol, the symbol in it if it is a sum with a constant, and so on down to an atom. The types of
the sums have all values that the symbols in them may have. -/
inductive Catalog.Chain (c : Catalog) : SymbolId → List SymbolId → Prop where
  | atom {s : SymbolId} : c.HasSymbol s → (c.symbol s).isAtomic = true → Chain c s [s]
  | sum {s l : SymbolId} {op : BinaryOp} {k : Int} {t : CType} {xs : List SymbolId} :
    c.symbol s = .symInt l op k t → op = .add ∨ op = .sub →
    (∀ n, n ∈ (c.symbol l).type.domain → n ∈ t.domain) → Chain c l xs → Chain c s (s :: xs)

namespace Catalog

variable {c d : Catalog} {s l : SymbolId} {op : BinaryOp} {k : Int} {t : CType}
  {xs : List SymbolId}

theorem Chain.hasSymbol (h : c.Chain s xs) : c.HasSymbol s := by
  cases h with
  | atom hs _ => exact hs
  | sum hs _ _ _ => exact hasSymbol_of_ne (by rw [hs]; exact Symbol.noConfusion)

theorem Chain.mono (h : c.Chain s xs) (hcd : c ≤ d) : d.Chain s xs := by
  induction h with
  | atom hs ha => exact .atom (hs.mono hcd) (by rwa [symbol_mono hcd hs])
  | sum hs hop hfit hl ih =>
    have hx := (Chain.sum hs hop hfit hl).hasSymbol
    refine .sum (by rwa [symbol_mono hcd hx]) hop (fun n hn => hfit n ?_) ih
    rwa [symbol_mono hcd hl.hasSymbol] at hn

theorem Chain.comparison? (h : c.Chain s xs) : c.comparison? s = none := by
  cases h with
  | atom _ ha =>
    cases hs : c.symbol s with
    | symInt | intSym | symSym =>
      rw [hs] at ha
      cases ha
    | _ => simp [Catalog.comparison?, hs, Symbol.comparison?]
  | sum hs hop _ _ => rcases hop with rfl | rfl <;> simp [Catalog.comparison?, hs,
      Symbol.comparison?, BinaryOp.isComparison]

theorem Chain.mem_self (h : c.Chain s xs) : s ∈ xs := by
  cases h <;> exact mem_cons_self

theorem shifted?_of_isAtomic (h : (c.symbol s).isAtomic = true) : c.shifted? s = none := by
  cases hs : c.symbol s with
  | symInt | intSym | symSym =>
    rw [hs] at h
    cases h
  | _ => simp [shifted?, hs, Symbol.shifted?]

/-- A sum is a sum of the symbol in it and the constant, which is negated in a difference. -/
theorem shifted?_of_sum (hc : c.Layered) (hs : c.symbol s = .symInt l op k t)
    (hop : op = .add ∨ op = .sub) : ∃ delta, c.shifted? s = some (l, delta) ∧
      ∀ n, (2 ^ wrapWidth t : Int) ∣ numberAt op n k t - (n + delta) := by
  have hx : c.HasSymbol s := hasSymbol_of_ne (by rw [hs]; exact Symbol.noConfusion)
  have hlt : l.index < s.index := hc s hx l (by simp [hs, Symbol.operands])
  rcases hop with rfl | rfl
  · exact ⟨k, by simp [shifted?, hs, Symbol.shifted?, hlt], fun n => dvd_wrap_sub t (n + k)⟩
  · refine ⟨Word.wrap (-k), by simp [shifted?, hs, Symbol.shifted?, hlt], fun n => ?_⟩
    have := dvd_sub (dvd_wrap_sub t (n - k)) (dvd_wordWrap_sub t (-k))
    rwa [show ∀ a b : Int, a - (n - k) - (b - -k) = a - (n + b) by intro a b; ring] at this

/-- A sum that has the residue of a value of its type has that value. -/
theorem numberAt_eq_of_dvd {n v : Int} (hop : op = .add ∨ op = .sub) (hv : v ∈ t.domain)
    (h : (2 ^ wrapWidth t : Int) ∣ numberAt op n k t - v) : numberAt op n k t = v := by
  refine eq_of_mem_words ?_ (domain_subset_words hv) h
  rcases hop with rfl | rfl <;> exact wrap_mem_words t _

end Catalog

namespace Constraints

variable {c : Catalog} {m m' : Constraints} {s l : SymbolId} {n k delta a : Int} {allowed : RangeSet}
  {xs : List SymbolId} {op : BinaryOp} {t u : CType}

/-! ### What is known is so -/

/-- **What is known of a symbol is its value** under all valuations that satisfy the constraints. -/
theorem value_of_known? (hm : m.Normal) (ν : Valuation c) (hν : m.Holds ν)
    (h : m.known? c s = some n) : ν.value s = n := by
  fun_induction known? m c s generalizing n with
  | case1 s k hk =>
    obtain ⟨r, hr, hsingle⟩ := bind_eq_some_iff.1 hk
    cases h
    exact ((single?_eq_some_iff (hm s r hr)).1 hsingle _).1 (hν s r hr)
  | case2 s hk l op k t hs hop ih =>
    obtain ⟨a, ha, hn⟩ := bind_eq_some_iff.1 h
    have hl := ih ha
    rcases hop.1 with rfl | rfl
    · rw [ν.sum hs, hl]
      exact some.inj hn
    · rw [ν.difference hs, hl]
      exact some.inj hn
  | case3 => cases h
  | case4 => cases h

/-! ### A restriction to one number -/

/-- What is known of a sum of which nothing is said is what is known of the symbol in it. -/
theorem known?_of_sum (hc : c.Layered) (hs : c.symbol s = .symInt l op k t) (hop : op = .add ∨ op = .sub)
    (hnone : m.get? s = none) (hl : m.known? c l = some n) :
    m.known? c s = some (numberAt op n k t) := by
  have hx : c.HasSymbol s := hasSymbol_of_ne (by rw [hs]; exact Symbol.noConfusion)
  have hlt : l.index < s.index := hc s hx l (by simp [hs, Symbol.operands])
  rw [known?, hnone]
  simp only [bind_none, hs]
  rw [dif_pos ⟨hop, hlt⟩, hl]
  rcases hop with rfl | rfl <;> rfl

/-- What the symbol in a sum may be, when the sum is restricted: values of its own type that give an
allowed sum. -/
theorem mem_traced (hn : allowed.Normal)
    (ha : a ∈ (allowed.shift (Word.wrap (-delta)) t).inter (.domain u)) :
    a ∈ u.domain ∧ ∃ v ∈ allowed, (2 ^ wrapWidth t : Int) ∣ a + delta - v := by
  rw [mem_inter (normal_shift ..) (normal_domain u), mem_shift hn, RangeSet.mem_domain] at ha
  obtain ⟨⟨-, v, hv, hva⟩, ha⟩ := ha
  refine ⟨ha, v, hv, ?_⟩
  have := dvd_add hva (dvd_wordWrap_sub t (-delta))
  rwa [show ∀ b : Int, a - (v + b) + (b - -delta) = a + delta - v by intro b; ring] at this

/-- Only one number is left for the symbol in a sum that is restricted to one number: two of them
would give the same sum, and the values of the symbol are no further apart than those of the sum. -/
theorem eq_of_mem_traced {b : Int} (hn : allowed.Normal) (hfit : ∀ n, n ∈ u.domain → n ∈ t.domain)
    (hone : ∀ a ∈ allowed, ∀ b ∈ allowed, a = b)
    (ha : a ∈ (allowed.shift (Word.wrap (-delta)) t).inter (.domain u))
    (hb : b ∈ (allowed.shift (Word.wrap (-delta)) t).inter (.domain u)) : a = b := by
  obtain ⟨ha, v, hv, hva⟩ := mem_traced hn ha
  obtain ⟨hb, w, hw, hwb⟩ := mem_traced hn hb
  obtain rfl := hone v hv w hw
  refine eq_of_dvd_sub (hfit a ha) (hfit b hb) ?_
  have := dvd_sub hva hwb
  rwa [sub_sub_sub_cancel_right, add_sub_add_right_eq_sub] at this

/-- An atom that is restricted to one number is known. -/
theorem known?_of_narrow_atom (hm : m.Normal) (hs : (c.symbol s).isAtomic = true)
    (hn : allowed.Normal) (hone : ∀ a ∈ allowed, ∀ b ∈ allowed, a = b)
    (h : m.narrow c s allowed = some m') : ∃ n ∈ allowed, m'.known? c s = some n := by
  have hr := normal_range (c := c) hm s
  have hnormal : ((m.range c s).inter allowed).Normal := normal_inter hr hn
  have hallowed : ∀ a, a ∈ (m.range c s).inter allowed → a ∈ allowed := fun a ha =>
    ((mem_inter hr hn).1 ha).2
  rw [narrow_of_base (shifted?_of_isAtomic hs)] at h
  split at h
  · cases h
  next hempty =>
  cases h
  obtain ⟨n, hmem⟩ : ∃ n, n ∈ (m.range c s).inter allowed := by
    by_contra hnone
    exact hempty ((isEmpty_iff_forall_notMem hnormal).2 fun n hn => hnone ⟨n, hn⟩)
  have hsingle : ((m.range c s).inter allowed).single? = some n := by
    rw [single?_eq_some_iff hnormal]
    refine fun a => ⟨fun ha => hone a (hallowed a ha) n (hallowed n hmem), ?_⟩
    rintro rfl
    exact hmem
  refine ⟨n, hallowed n hmem, ?_⟩
  rw [known?, OrderedMap.get?_insert_self]
  simp only [bind_some, hsingle]

/-- A restriction of a sum says nothing of the sum itself. -/
theorem get?_of_narrow_sum (hm : m.Normal) (hn : allowed.Normal) {p : SymbolId × Int}
    (hp : c.shifted? s = some p) (h : m.narrow c s allowed = some m') : m'.get? s = m.get? s := by
  obtain ⟨x, r, -, hr⟩ := narrow_cases hm hn h
  refine hr.get?_of_ne ?_
  rintro rfl
  cases hp.symm.trans hr.no_sum

/-- Nothing is said of a sum, where nothing is said of any. -/
theorem get?_of_sum (hkeys : ∀ x r, m.get? x = some r → (c.symbol x).isSum = false)
    (hs : c.symbol s = .symInt l op k t) (hop : op = .add ∨ op = .sub) : m.get? s = none := by
  cases hget : m.get? s with
  | none => rfl
  | some r =>
    have hsum := hkeys s r hget
    rw [hs] at hsum
    rcases hop with rfl | rfl <;> cases hsum

/-- A symbol at the end of a chain that is restricted to one number is known, and with it all symbols
of the chain: they have the values that are computed from a value of the atom. -/
theorem known?_of_narrow (hc : c.Layered) (hm : m.Normal)
    (hkeys : ∀ x r, m.get? x = some r → (c.symbol x).isSum = false) (hs : c.Chain s xs)
    (hn : allowed.Normal) (hd : ∀ n ∈ allowed, n ∈ (c.symbol s).type.domain)
    (hone : ∀ a ∈ allowed, ∀ b ∈ allowed, a = b) (h : m.narrow c s allowed = some m') :
    ∃ atom, c.compute (fun _ => atom) s ∈ allowed ∧
      ∀ x ∈ xs, m'.known? c x = some (c.compute (fun _ => atom) x) := by
  induction hs generalizing allowed with
  | @atom s hs ha =>
    obtain ⟨n, hmem, hknown⟩ := known?_of_narrow_atom hm ha hn hone h
    refine ⟨n, by rwa [compute_of_isAtomic ha], fun x hx => ?_⟩
    obtain rfl := mem_singleton.1 hx
    rwa [compute_of_isAtomic ha]
  | @sum s l op k t xs hs hop hfit hl ih =>
    obtain ⟨delta, hshift, hdvd⟩ := shifted?_of_sum hc hs hop
    have htype : (c.symbol s).type = t := by rw [hs]; rfl
    have hget := get?_of_narrow_sum hm hn hshift h
    rw [htype] at hd
    rw [narrow_of_shifted? hshift, htype] at h
    obtain ⟨n, hmem, hknown⟩ := ih (normal_inter (normal_shift ..)
      (normal_domain _)) (fun a ha => (mem_traced hn ha).1)
      (fun a ha b hb => eq_of_mem_traced hn hfit hone ha hb) h
    have hcompute : c.compute (fun _ => n) s = numberAt op (c.compute (fun _ => n) l) k t := by
      rw [compute_of_operation hc (by rw [hs]; rfl), hs]
      rfl
    obtain ⟨-, v, hv, hvn⟩ := mem_traced hn hmem
    have hvalue : c.compute (fun _ => n) s = v := by
      rw [hcompute]
      refine numberAt_eq_of_dvd hop (hd v hv) ?_
      have := dvd_add (hdvd (c.compute (fun _ => n) l)) hvn
      rwa [sub_add_sub_cancel] at this
    refine ⟨n, hvalue ▸ hv, fun x hx => ?_⟩
    rcases mem_cons.1 hx with rfl | hx
    · have hnone : m'.get? x = none := hget.trans (get?_of_sum hkeys hs hop)
      rw [hcompute]
      exact known?_of_sum hc hs hop hnone (hknown l hl.mem_self)
    · exact hknown x hx

end Constraints

/-! ### Equality with a constant -/

namespace Catalog

variable {c d : Catalog} {s : SymbolId}

/-- Symbols that fit do so in every larger catalog. -/
theorem Fits.mono (h : c.Fits s) (hs : c.HasSymbol s) (hcd : c ≤ d) : d.Fits s := by
  induction h with
  | @intro s hdomain _ _ ihsum ihcompare =>
    refine .intro (fun p hp n hn => ?_) (fun p hp => ?_) fun p hp => ?_
    · rw [shifted?_mono hcd hs] at hp
      have hlt : c.HasSymbol p.1 := (shifted?_lt hp).trans hs
      rw [symbol_mono hcd hlt] at hn
      rw [symbol_mono hcd hs]
      exact hdomain p hp n hn
    · rw [shifted?_mono hcd hs] at hp
      exact ihsum p hp ((shifted?_lt hp).trans hs)
    · rw [comparison?_mono hcd hs] at hp
      exact ihcompare p hp ((comparison?_lt hp).trans hs)

/-- A comparison of a symbol that fits with a constant fits. -/
theorem Fits.compare {e : SymbolId} {op : BinaryOp} {k : Int} {t : CType} (h : c.Fits s)
    (he : c.symbol e = .symInt s op k t) (hop : op.isComparison = true) : c.Fits e := by
  have hnone : c.shifted? e = none := by
    rw [shifted?, he]
    cases op with
    | add | sub => cases hop
    | _ => rfl
  refine .intro (fun p hp => ?_) (fun p hp => ?_) fun p hp => ?_
  · cases hnone.symm.trans hp
  · cases hnone.symm.trans hp
  · obtain ⟨l, op', k'⟩ := p
    rcases comparison?_cases hp with ⟨-, t', hs⟩ | ⟨_, t', -, -, hs⟩
    · cases he.symm.trans hs
      exact h
    · cases he.symm.trans hs

end Catalog

namespace Naming

/-- A symbol compared with a constant is a symbol of its own. -/
theorem binary_eq_const (s : SymbolId) (k : Int) (t : CType) (c : Catalog) :
    binary .eq (.symbol s) (.int k) t c =
      (.symbol (symbol (.symInt s .eq k t) c).1, (symbol (.symInt s .eq k t) c).2) := by
  show symbolWithInt s .eq k t c = _
  rw [symbolWithInt]
  rfl

/-- What is no sum is none either once a symbol that is no sum has been named. -/
theorem isSum_symbol {c : Catalog} {a : Symbol} (ha : a.isSum = false) {x : SymbolId}
    (hx : (c.symbol x).isSum = false) : ((symbol a c).2.symbol x).isSum = false := by
  by_cases hold : c.HasSymbol x
  · rw [symbol_mono (grows_symbol a c) hold]
    exact hx
  by_cases hnew : (symbol a c).2.HasSymbol x
  · rcases Interned.get?_of_get?_intern hnew.get? with hx | ⟨-, hx⟩
    · exact absurd (Interned.lt_size_of_get? hx) hold
    · rw [hx]
      exact ha
  · by_contra hsum
    exact hnew (hasSymbol_of_ne fun heq => hsum (by rw [heq]; rfl))

end Naming

namespace Constraints

variable {c : Catalog} {m : Constraints}

/-- **What is known is so, and what is assumed to equal a number is known.** What is known of a symbol
is its value under all valuations that satisfy the constraints. When a symbol at the end of a chain of
sums is assumed to equal a number, this number is known of it, and of every other symbol of the chain
the one that is computed from the value of the atom. -/
theorem known?_exact (hc : c.Layered) (hm : m.Normal)
    (hkeys : ∀ x r, m.get? x = some r → (c.symbol x).isSum = false) :
    (∀ s n, m.known? c s = some n → ∀ ν : Valuation c, m.Holds ν → ν.value s = n) ∧
    ∀ s xs k t v d m', c.Chain s xs → binary .eq (.symbol s) (.int k) t c = (v, d) →
      m.assume d v true = some m' → m'.known? d s = some k ∧
        ∃ atom, d.compute (fun _ => atom) s = k ∧
          ∀ x ∈ xs, m'.known? d x = some (d.compute (fun _ => atom) x) := by
  refine ⟨fun s n h ν hν => value_of_known? hm ν hν h, ?_⟩
  intro s xs k t v d m' hs hbinary h
  rw [binary_eq_const] at hbinary
  obtain ⟨rfl, rfl⟩ := Prod.mk.inj hbinary
  have hcd : c ≤ (symbol (.symInt s .eq k t) c).2 := grows_symbol _ c
  have he := symbol_symbol (.symInt s .eq k t) c
  have hd : (symbol (.symInt s .eq k t) c).2.Layered := hc.symbol fun y hy => by
    obtain rfl := mem_singleton.1 hy
    exact hs.hasSymbol
  have hlt : s.index < (symbol (.symInt s .eq k t) c).1.index :=
    hd _ (Interned.lt_size_of_get? (get?_symbol _ c)) s (by simp [he, Symbol.operands])
  have hkeys' : ∀ x r, m.get? x = some r →
      ((symbol (.symInt s .eq k t) c).2.symbol x).isSum = false := fun x r hx =>
    isSum_symbol rfl (hkeys x r hx)
  generalize symbol (.symInt s .eq k t) c = out at hcd he hd hlt hkeys' h
  have hs' := hs.mono hcd
  have hcompare : out.2.comparison? out.1 = some (s, .eq, k) := by
    simp [Catalog.comparison?, he, Symbol.comparison?, BinaryOp.isComparison, hlt]
  have hnarrow : m.narrow out.2 s (.satisfying .eq k (out.2.symbol s).type) = some m' := by
    rw [assume, assumeSymbol_of_some hcompare rfl] at h
    simpa [hs'.comparison?, narrowBy] using h
  have hmem : ∀ n ∈ RangeSet.satisfying .eq k (out.2.symbol s).type, n = k := fun n hn => by
    simpa [BinaryOp.holds] using (mem_satisfying.1 hn).2
  obtain ⟨atom, hatom, hknown⟩ := known?_of_narrow hd hm hkeys' hs' (normal_satisfying ..)
    (fun n hn => (mem_satisfying.1 hn).1)
    (fun a ha b hb => (hmem a ha).trans (hmem b hb).symm) hnarrow
  have hvalue := hmem _ hatom
  exact ⟨hvalue ▸ hknown s hs'.mem_self, atom, hvalue, hknown⟩

/-- If `x + 1` is assumed to equal the least `int`, then `x` is known to be the greatest one. -/
theorem known?_exact_wrapped : sumCatalog.Chain ⟨1⟩ [⟨1⟩, ⟨0⟩] ∧ ∃ v d m',
    binary .eq (.symbol ⟨1⟩) (.int (-0x80000000)) .int sumCatalog = (v, d) ∧
      Constraints.assume {} d v true = some m' ∧
      m'.known? d ⟨1⟩ = some (-0x80000000) ∧ m'.known? d ⟨0⟩ = some 0x7fffffff := by
  have hchain : sumCatalog.Chain ⟨1⟩ [⟨1⟩, ⟨0⟩] :=
    .sum rfl (.inl rfl) (fun n hn => hn) (.atom (show 0 < sumCatalog.symbols.size by decide) rfl)
  have hcheck : (Constraints.assume {}
      (Naming.binary .eq (.symbol ⟨1⟩) (.int (-0x80000000)) .int sumCatalog).2
      (Naming.binary .eq (.symbol ⟨1⟩) (.int (-0x80000000)) .int sumCatalog).1 true).any (fun m' =>
        m'.known? (Naming.binary .eq (.symbol ⟨1⟩) (.int (-0x80000000)) .int sumCatalog).2 ⟨0⟩ =
          some 0x7fffffff) = true := by
    decide +kernel
  obtain ⟨m', hm, hzero⟩ := (Option.any_eq_true _ _).1 hcheck
  obtain ⟨hknown, -⟩ := (known?_exact layered_sumCatalog normal_empty fun x r hx => nomatch hx).2
    ⟨1⟩ [⟨1⟩, ⟨0⟩] (-0x80000000) .int _ _ m' hchain rfl hm
  exact ⟨hchain, _, _, m', rfl, hm, hknown, of_decide_eq_true hzero⟩

end Constraints

end PathScout

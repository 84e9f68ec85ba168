import Mathlib.Tactic
import PathScout.Store

/-!
# Laws of catalogs

A catalog only grows: what has a number keeps it, and so do the regions that enclose it. What is
read off a region that has a number is therefore the same in every later catalog.

* `Catalog.Has`: the region has a number. `c ≤ d`: the catalog `d` has all that `c` has.
* `Catalog.WellFormed`: parts lie in older regions, and objects lie in memory spaces.
* `Catalog.chain_mono`, `Catalog.base_mono`, `Catalog.layers_mono`: readings that do not change.
* `Naming.Grows`: an action only adds to the catalog.
-/

namespace PathScout

open Catalog Interned List Naming Option Bool

namespace Interned

variable {α : Type} [BEq α] [Hashable α] [LawfulBEq α] {t : Interned α} {a b : α} {i : Nat}

/-- A thing that has a number is not given another one. -/
theorem intern_of_get? (h : t.get? i = some a) : t.intern a = (i, t) := by
  have hi : t.find? a = some i := (t.find?_eq_some_iff a i).2 h
  unfold intern
  split
  · next j hj =>
    obtain rfl : i = j := some.inj (hi.symm.trans hj)
    rfl
  · next hj =>
    rw [hi] at hj
    cases hj

omit [LawfulBEq α] in
/-- Different numbers belong to different things. -/
theorem get?_inj {j : Nat} (hi : t.get? i = some a) (hj : t.get? j = some a) : i = j :=
  some.inj (((t.index_iff a i).2 hi).symm.trans ((t.index_iff a j).2 hj))

theorem get?_push (fresh : t.index[a]? = none) :
    (t.push a fresh).get? i = if i = t.size then some a else t.get? i := by
  show (t.items.push a)[i]? = _
  rw [Array.getElem?_push]
  rfl

omit [LawfulBEq α] in
theorem lt_size_of_get? (h : t.get? i = some a) : i < t.size := (Array.getElem?_eq_some_iff.1 h).1

/-- Numbers do not change. -/
theorem get?_intern_of_get? (h : t.get? i = some b) : (t.intern a).2.get? i = some b := by
  unfold intern
  split
  · exact h
  · next hj =>
    rw [get?_push, if_neg (Nat.ne_of_lt (lt_size_of_get? h))]
    exact h

/-- Nothing else gets a number. -/
theorem get?_of_get?_intern (h : (t.intern a).2.get? i = some b) :
    t.get? i = some b ∨ i = t.size ∧ b = a := by
  unfold intern at h
  split at h
  · exact Or.inl h
  · next hj =>
    rw [get?_push] at h
    by_cases hi : i = t.size
    · rw [if_pos hi] at h
      exact Or.inr ⟨hi, (some.inj h).symm⟩
    · rw [if_neg hi] at h
      exact Or.inl h

/-- The table of some different things, numbered as they stand. -/
def ofList (as : List α) (h : as.Nodup) : Interned α where
  index := Std.HashMap.ofList as.zipIdx
  items := as.toArray
  index_iff := by
    intro a i
    have hmem : ∀ j, as[j]? = some a → (Std.HashMap.ofList as.zipIdx)[a]? = some j := fun j hj => by
      refine Std.HashMap.getElem?_ofList_of_mem (beq_self_eq_true a) ?_
        (mem_zipIdx_iff_getElem?.2 hj)
      rw [← zipIdx_map_fst 0 as, List.Nodup, pairwise_map] at h
      exact h.imp fun hne => beq_false_of_ne hne
    rw [getElem?_toArray]
    refine ⟨fun hi => ?_, hmem i⟩
    by_cases ha : a ∈ as
    · obtain ⟨j, hj⟩ := getElem?_of_mem ha
      rwa [some.inj (hi.symm.trans (hmem j hj))]
    · rw [Std.HashMap.getElem?_ofList_of_contains_eq_false] at hi
      · cases hi
      · rw [zipIdx_map_fst]
        exact eq_false_iff.2 fun h => ha (contains_iff_mem.1 h)

end Interned

namespace Catalog

variable {c d e : Catalog} {r q p m : RegionId}

/-! ### Growing -/

/-- The region has a number. -/
def Has (c : Catalog) (r : RegionId) : Prop := r.index < c.regions.size

instance : Decidable (c.Has r) := inferInstanceAs (Decidable (_ < _))

/-- The second catalog has all that the first one has, under the same numbers. -/
structure Extends (c d : Catalog) : Prop where
  program : d.program = c.program
  region {i : Nat} {a : Region} : c.regions.get? i = some a → d.regions.get? i = some a
  symbol {i : Nat} {a : Symbol} : c.symbols.get? i = some a → d.symbols.get? i = some a

instance : Preorder Catalog where
  le := Extends
  le_refl _ := ⟨rfl, id, id⟩
  le_trans _ _ _ h g :=
    ⟨g.program.trans h.program, fun x => g.region (h.region x), fun x => g.symbol (h.symbol x)⟩

theorem Has.get? (h : c.Has r) : c.regions.get? r.index = some (c.region r) := by
  have hr : c.regions.get? r.index = some (c.regions.items[r.index]) := Array.getElem?_eq_getElem h
  rw [region, hr]
  rfl

theorem has_of_get? {i : Nat} {a : Region} (h : c.regions.get? i = some a) : c.Has ⟨i⟩ :=
  lt_size_of_get? h

theorem region_of_get? {i : Nat} {a : Region} (h : c.regions.get? i = some a) : c.region ⟨i⟩ = a := by
  rw [region, h]
  rfl

theorem symbol_of_get? {i : Nat} {a : Symbol} (h : c.symbols.get? i = some a) : c.symbol ⟨i⟩ = a := by
  rw [symbol, h]
  rfl

/-- A region without a number counts as a memory space. -/
theorem region_of_not_has (h : ¬c.Has r) : c.region r = .space .unknown := by
  have hr : c.regions.get? r.index = none := Array.getElem?_eq_none (Nat.le_of_not_lt h)
  rw [region, hr]
  rfl

theorem has_of_parent? (h : (c.region r).parent? = some p) : c.Has r := by
  by_contra hr
  rw [region_of_not_has hr] at h
  cases h

theorem has_of_isPart (h : (c.region r).isPart = true) : c.Has r := by
  by_contra hr
  rw [region_of_not_has hr] at h
  cases h

theorem Has.mono (h : c.Has r) (hcd : c ≤ d) : d.Has r := has_of_get? (hcd.region h.get?)

theorem region_mono (hcd : c ≤ d) (h : c.Has r) : d.region r = c.region r :=
  region_of_get? (hcd.region h.get?)

/-- The symbol has a number. -/
def HasSymbol (c : Catalog) (s : SymbolId) : Prop := s.index < c.symbols.size

theorem HasSymbol.get? {s : SymbolId} (h : c.HasSymbol s) :
    c.symbols.get? s.index = some (c.symbol s) := by
  have hs : c.symbols.get? s.index = some (c.symbols.items[s.index]) := Array.getElem?_eq_getElem h
  rw [symbol, hs]
  rfl

theorem HasSymbol.mono {s : SymbolId} (h : c.HasSymbol s) (hcd : c ≤ d) : d.HasSymbol s :=
  lt_size_of_get? (hcd.symbol h.get?)

theorem hasSymbol_of_ne {s : SymbolId} (h : c.symbol s ≠ .regionValue ⟨0⟩ .int) : c.HasSymbol s := by
  by_contra hs
  have hn : c.symbols.get? s.index = none := Array.getElem?_eq_none (Nat.le_of_not_lt hs)
  rw [symbol, hn] at h
  exact h rfl

theorem symbol_mono {s : SymbolId} (hcd : c ≤ d) (h : c.HasSymbol s) : d.symbol s = c.symbol s :=
  symbol_of_get? (hcd.symbol h.get?)

/-! ### Enclosing regions -/

theorem enclosing?_mono (hcd : c ≤ d) (h : c.Has r) : d.enclosing? r = c.enclosing? r := by
  rw [enclosing?, enclosing?, region_mono hcd h]

theorem parent?_of_enclosing? (h : c.enclosing? r = some p) : (c.region r).parent? = some p :=
  (filter_eq_some_iff.1 h).1

theorem Has.enclosing (h : c.Has r) (hp : c.enclosing? r = some p) : c.Has p :=
  Nat.lt_trans (enclosing?_lt hp) h

theorem chain_of_some (h : c.enclosing? r = some p) : c.chain r = r :: c.chain p := by
  rw [chain]
  split
  · next q hq => rw [some.inj (hq.symm.trans h)]
  · next hq => cases hq.symm.trans h

theorem chain_of_none (h : c.enclosing? r = none) : c.chain r = [r] := by
  rw [chain]
  split
  · next q hq => cases hq.symm.trans h
  · rfl

theorem mem_chain_self : r ∈ c.chain r := by
  cases h : c.enclosing? r with
  | none => simp [chain_of_none h]
  | some p => simp [chain_of_some h]

/-- A property of a region that what encloses it has, if that is anything, is a property of every
region. -/
theorem chain_induction {motive : RegionId → Prop} (c : Catalog)
    (top : ∀ r, c.enclosing? r = none → motive r)
    (inner : ∀ r p, c.enclosing? r = some p → motive p → motive r) (r : RegionId) : motive r := by
  induction r using chain.induct c with
  | case1 r p h ih => exact inner r p h ih
  | case2 r h => exact top r h

theorem chain_mono (hcd : c ≤ d) (h : c.Has r) : d.chain r = c.chain r := by
  induction r using chain_induction c with
  | top r hr => rw [chain_of_none hr, chain_of_none ((enclosing?_mono hcd h).trans hr)]
  | inner r p hr ih =>
    rw [chain_of_some hr, chain_of_some ((enclosing?_mono hcd h).trans hr), ih (h.enclosing hr)]

theorem Has.of_mem_chain (h : c.Has r) (hm : m ∈ c.chain r) : c.Has m := by
  induction r using chain_induction c with
  | top r hr =>
    rw [chain_of_none hr, mem_singleton] at hm
    exact hm ▸ h
  | inner r p hr ih =>
    rw [chain_of_some hr] at hm
    rcases mem_cons.1 hm with rfl | hm
    · exact h
    · exact ih (h.enclosing hr) hm

/-- What encloses a region keeps enclosing it. -/
theorem mem_chain_mono (hcd : c ≤ d) (hm : m ∈ c.chain r) : m ∈ d.chain r := by
  by_cases h : c.Has r
  · rwa [chain_mono hcd h]
  · have hr : c.enclosing? r = none := by
      rw [enclosing?, region_of_not_has h]
      rfl
    rw [chain_of_none hr, mem_singleton] at hm
    exact hm ▸ mem_chain_self

/-- What encloses a region is older. -/
theorem index_le_of_mem_chain (hm : m ∈ c.chain r) : m.index ≤ r.index := by
  induction r using chain_induction c with
  | top r hr =>
    rw [chain_of_none hr, mem_singleton] at hm
    exact Nat.le_of_eq (congrArg _ hm)
  | inner r p hr ih =>
    rw [chain_of_some hr] at hm
    rcases mem_cons.1 hm with rfl | hm
    · exact Nat.le_refl _
    · exact Nat.le_of_lt (Nat.lt_of_le_of_lt (ih hm) (enclosing?_lt hr))

/-- The chain of a region ends with the chain of everything in it. -/
theorem chain_suffix (hm : m ∈ c.chain r) : c.chain m <:+ c.chain r := by
  induction r using chain_induction c with
  | top r hr =>
    rw [chain_of_none hr, mem_singleton] at hm
    exact hm ▸ suffix_refl _
  | inner r p hr ih =>
    rw [chain_of_some hr] at hm ⊢
    rcases mem_cons.1 hm with rfl | hm
    · rw [chain_of_some hr]
    · exact (ih hm).trans (suffix_cons _ _)

theorem mem_chain_trans (hq : q ∈ c.chain r) (hm : m ∈ c.chain q) : m ∈ c.chain r :=
  (chain_suffix hq).subset hm

/-- Of two regions that enclose the same one, one encloses the other. -/
theorem mem_chain_total (hq : q ∈ c.chain r) (hm : m ∈ c.chain r) : q ∈ c.chain m ∨ m ∈ c.chain q := by
  rcases suffix_or_suffix_of_suffix (chain_suffix hq) (chain_suffix hm) with h | h
  · exact Or.inl (h.subset mem_chain_self)
  · exact Or.inr (h.subset mem_chain_self)

theorem isInside_iff : c.isInside r m = true ↔ m ∈ c.chain r ∧ m ≠ r := by
  rw [isInside, contains_iff_mem]
  cases h : c.enclosing? r with
  | none =>
    rw [chain_of_none h]
    simp
  | some p =>
    rw [chain_of_some h, tail_cons, mem_cons]
    have hlt : m ∈ c.chain p → m ≠ r := fun hm e => by
      have := index_le_of_mem_chain hm
      have := enclosing?_lt h
      subst e
      omega
    constructor
    · exact fun hm => ⟨Or.inr hm, hlt hm⟩
    · rintro ⟨rfl | hm, hne⟩
      · exact absurd rfl hne
      · exact hm

/-! ### Objects -/

/-- Parts lie in regions that are older, and objects lie in memory spaces: the regions that lie in
nothing. -/
structure WellFormed (c : Catalog) : Prop where
  older {r p : RegionId} : (c.region r).parent? = some p → p.index < r.index
  inSpace {r p : RegionId} : (c.region r).isPart = false → (c.region r).parent? = some p →
    (c.region p).parent? = none

/-- Regions without a number lie in nothing, so there are finitely many regions to look at. -/
theorem wellFormed_iff : c.WellFormed ↔ ∀ i < c.regions.size, ∀ p ∈ (c.region ⟨i⟩).parent?,
    p.index < i ∧ ((c.region ⟨i⟩).isPart = false → (c.region p).parent? = none) := by
  constructor
  · intro hc i _ p hp
    exact ⟨hc.older hp, fun h => hc.inSpace h hp⟩
  · intro h
    exact ⟨fun {r p} hp => (h r.index (has_of_parent? hp) p hp).1,
      fun {r p} hpart hp => (h r.index (has_of_parent? hp) p hp).2 hpart⟩

instance : Decidable c.WellFormed := decidable_of_iff' _ wellFormed_iff

/-- What is well-formed later was so before. -/
theorem WellFormed.of_le (hd : d.WellFormed) (hcd : c ≤ d) : c.WellFormed := by
  have hr : ∀ {r p : RegionId}, (c.region r).parent? = some p → d.region r = c.region r :=
    fun h => region_mono hcd (has_of_parent? h)
  refine ⟨fun {r p} h => hd.older (hr h ▸ h), fun {r p} hp h => ?_⟩
  have hlt : c.Has p := Nat.lt_trans (hd.older (hr h ▸ h)) (has_of_parent? h)
  rw [← region_mono hcd hlt]
  exact hd.inSpace (hr h ▸ hp) (hr h ▸ h)

theorem WellFormed.of_regions_eq (hc : c.WellFormed) (h : d.regions = c.regions) : d.WellFormed := by
  have hr : ∀ r, d.region r = c.region r := fun r => by rw [region, region, h]
  exact ⟨fun {r p} hp => hc.older (hr r ▸ hp), fun {r p} hpart hp => by
    rw [hr] at hpart hp ⊢
    exact hc.inSpace hpart hp⟩

theorem parent?_of_isPart (h : (c.region r).isPart = true) : ∃ p, (c.region r).parent? = some p := by
  cases hr : c.region r with
  | field f p | element t i p => exact ⟨p, rfl⟩
  | _ =>
    rw [hr] at h
    cases h

namespace WellFormed

theorem enclosing?_eq (hc : c.WellFormed) (r : RegionId) : c.enclosing? r = (c.region r).parent? := by
  rw [enclosing?]
  cases h : (c.region r).parent? with
  | none => rfl
  | some p => simp [hc.older h]

theorem enclosing_part (hc : c.WellFormed) (h : (c.region r).isPart = true) :
    ∃ p, c.enclosing? r = some p := by
  rw [hc.enclosing?_eq]
  exact parent?_of_isPart h

/-- Every chain has an object or a memory space in it. -/
theorem dropWhile_chain_ne_nil (hc : c.WellFormed) (r : RegionId) :
    (c.chain r).dropWhile (fun q => (c.region q).isPart) ≠ [] := by
  induction r using chain_induction c with
  | top r hr =>
    have h : (c.region r).isPart ≠ true := fun h => by
      obtain ⟨p, hp⟩ := hc.enclosing_part h
      cases hr.symm.trans hp
    simp [chain_of_none hr, h]
  | inner r p hr ih =>
    rw [chain_of_some hr]
    by_cases h : (c.region r).isPart = true
    · rwa [dropWhile_cons, if_pos h]
    · rw [dropWhile_cons, if_neg h]
      exact cons_ne_nil _ _

end WellFormed

theorem base_of_not_part (h : (c.region r).isPart = false) : c.base r = r := by
  rw [base]
  cases hr : c.enclosing? r with
  | none => simp [chain_of_none hr, h]
  | some p => simp [chain_of_some hr, h]

section

variable (hc : c.WellFormed)
include hc

theorem base_of_part (h : (c.region r).isPart = true) (hr : c.enclosing? r = some p) :
    c.base r = c.base p := by
  rw [base, base, chain_of_some hr, dropWhile_cons, if_pos h]
  cases hp : (c.chain p).dropWhile fun q => (c.region q).isPart with
  | nil => exact absurd hp (hc.dropWhile_chain_ne_nil p)
  | cons a as => rfl

/-- What is true of the objects and of the parts of what it is true of is true of every region. -/
theorem part_induction {motive : RegionId → Prop} (object : ∀ r, (c.region r).isPart = false → motive r)
    (part : ∀ r p, (c.region r).isPart = true → c.enclosing? r = some p → motive p → motive r)
    (r : RegionId) : motive r := by
  induction r using chain_induction c with
  | top r hr =>
    refine object r (eq_false_iff.2 fun h => ?_)
    obtain ⟨p, hp⟩ := hc.enclosing_part h
    cases hr.symm.trans hp
  | inner r p hr ih =>
    by_cases h : (c.region r).isPart = true
    · exact part r p h hr ih
    · exact object r (eq_false_iff.2 h)

theorem base_mem_chain (r : RegionId) : c.base r ∈ c.chain r := by
  induction r using part_induction hc with
  | object r h =>
    rw [base_of_not_part h]
    exact mem_chain_self
  | part r p h hr ih =>
    rw [base_of_part hc h hr, chain_of_some hr]
    exact mem_cons_of_mem _ ih

theorem isPart_base (r : RegionId) : (c.region (c.base r)).isPart = false := by
  induction r using part_induction hc with
  | object r h => rwa [base_of_not_part h]
  | part r p h hr ih => rwa [base_of_part hc h hr]

theorem base_base (r : RegionId) : c.base (c.base r) = c.base r := base_of_not_part (isPart_base hc r)

/-- A region that lies in an object which is not a memory space is the object or a part of it. -/
theorem base_eq_of_mem_chain (hb : (c.region m).isPart = false) (hs : (c.region m).parent? ≠ none)
    (hm : m ∈ c.chain q) : c.base q = m := by
  induction q using part_induction hc with
  | part q p h hq ih =>
    rw [chain_of_some hq] at hm
    rw [base_of_part hc h hq]
    rcases mem_cons.1 hm with rfl | hm
    · rw [h] at hb
      cases hb
    · exact ih hm
  | object q h =>
    rw [base_of_not_part h]
    cases hq : c.enclosing? q with
    | none =>
      rw [chain_of_none hq, mem_singleton] at hm
      exact hm.symm
    | some p =>
      -- an object lies in a memory space, and in nothing else
      have hp : (c.region p).parent? = none := hc.inSpace h (parent?_of_enclosing? hq)
      have hp' : c.enclosing? p = none := by rw [hc.enclosing?_eq, hp]
      rw [chain_of_some hq, chain_of_none hp', mem_cons, mem_singleton] at hm
      rcases hm with rfl | rfl
      · rfl
      · exact absurd hp hs

theorem Has.base (h : c.Has r) : c.Has (c.base r) := h.of_mem_chain (base_mem_chain hc r)

end

theorem dropWhile_isPart_mono (hcd : c ≤ d) {rs : List RegionId} (h : ∀ r ∈ rs, c.Has r) :
    rs.dropWhile (fun q => (d.region q).isPart) = rs.dropWhile fun q => (c.region q).isPart := by
  induction rs with
  | nil => rfl
  | cons r rs ih =>
    rw [dropWhile_cons, dropWhile_cons, region_mono hcd (h r mem_cons_self),
      ih fun q hq => h q (mem_cons_of_mem _ hq)]

theorem base_mono (hcd : c ≤ d) (h : c.Has r) : d.base r = c.base r := by
  rw [base, base, chain_mono hcd h, dropWhile_isPart_mono hcd fun m hm => h.of_mem_chain hm]

/-- A region lies in the same memory space as its object. -/
theorem space_base (hc : c.WellFormed) (r : RegionId) : c.space (c.base r) = c.space r := by
  induction r using part_induction hc with
  | object r h => rw [base_of_not_part h]
  | part r p h hr ih =>
    have hs : c.spaceRegion r = c.spaceRegion p := by
      obtain ⟨m, hm⟩ := getLast?_isSome.2 (ne_nil_of_mem (mem_chain_self (c := c) (r := p)))
        |> isSome_iff_exists.1
      rw [spaceRegion, spaceRegion, chain_of_some hr, getLastD_eq_getLast?,
        getLastD_eq_getLast?, getLast?_cons, hm]
      rfl
    rw [base_of_part hc h hr, ih, space, space, hs]

/-- The memory space of an object that lies directly in it. -/
theorem space_of_parent? {q : RegionId} {s : Space} (hc : c.WellFormed)
    (hr : (c.region r).parent? = some q) (hq : c.region q = .space s) : c.space r = s := by
  have hq' : c.enclosing? q = none := by rw [hc.enclosing?_eq, hq]; rfl
  have hchain : c.chain r = [r, q] := by
    rw [chain_of_some (by rw [hc.enclosing?_eq, hr]), chain_of_none hq']
  have hlast : c.spaceRegion r = q := by rw [spaceRegion, hchain]; rfl
  rw [space, hlast, hq]

theorem space_mono (hcd : c ≤ d) (h : c.Has r) : d.space r = c.space r := by
  have hs : c.Has (c.spaceRegion r) := by
    rw [spaceRegion, getLastD_eq_getLast?]
    cases hl : (c.chain r).getLast? with
    | none => exact h
    | some m => exact h.of_mem_chain (mem_of_getLast? hl)
  have he : d.spaceRegion r = c.spaceRegion r := by rw [spaceRegion, spaceRegion, chain_mono hcd h]
  rw [space, space, he, region_mono hcd hs]

theorem valueType?_mono (hcd : c ≤ d) (h : c.Has r) : d.valueType? r = c.valueType? r := by
  rw [valueType?, valueType?, region_mono hcd h, hcd.program]

theorem symbolicBase?_mono (hc : c.WellFormed) (hcd : c ≤ d) (h : c.Has r) :
    d.symbolicBase? r = c.symbolicBase? r := by
  rw [symbolicBase?, base_mono hcd h, region_mono hcd (h.base hc), symbolicBase?]

/-! ### Layers -/

theorem layers_of_not_part (h : (c.region r).isPart = false) : c.layers r = [r] := by
  rw [layers, parts]
  cases hr : c.enclosing? r with
  | none => simp [chain_of_none hr, h]
  | some p => simp [chain_of_some hr, h]

theorem layers_of_part (h : (c.region r).isPart = true) (hr : c.enclosing? r = some p) :
    c.layers r = r :: c.layers p := by
  rw [layers, layers, parts, parts, chain_of_some hr, map_cons,
    takeWhile_cons_of_pos h, length_cons, take_succ_cons]

theorem mem_layers_self (hc : c.WellFormed) (r : RegionId) : r ∈ c.layers r := by
  by_cases hr : (c.region r).isPart = true
  · obtain ⟨p, hp⟩ := hc.enclosing_part hr
    rw [layers_of_part hr hp]
    exact mem_cons_self
  · rw [layers_of_not_part (eq_false_iff.2 hr)]
    exact mem_cons_self

theorem mem_chain_of_mem_layers (hm : m ∈ c.layers r) : m ∈ c.chain r := mem_of_mem_take hm

/-- The layers of a region are parts of one object. -/
theorem base_of_mem_layers (hc : c.WellFormed) (hm : m ∈ c.layers r) : c.base m = c.base r := by
  induction r using part_induction hc with
  | object r hr =>
    rw [layers_of_not_part hr, mem_singleton] at hm
    rw [hm]
  | part r p hr hp ih =>
    rw [layers_of_part hr hp] at hm
    rcases mem_cons.1 hm with rfl | hm
    · rfl
    · rw [ih hm, base_of_part hc hr hp]

/-- A region that encloses another one is one of its layers, unless it is a memory space. -/
theorem mem_layers_of_mem_chain (hc : c.WellFormed) (hm : m ∈ c.chain r)
    (hspace : (c.region m).parent? ≠ none) : m ∈ c.layers r := by
  induction r using part_induction hc with
  | object r hr =>
    rw [layers_of_not_part hr, mem_singleton]
    cases he : c.enclosing? r with
    | none => rwa [chain_of_none he, mem_singleton] at hm
    | some p =>
      -- what an object lies in is a memory space
      have htop : (c.region p).parent? = none := hc.inSpace hr (parent?_of_enclosing? he)
      rw [chain_of_some he, chain_of_none (by rw [hc.enclosing?_eq, htop]), mem_cons,
        mem_singleton] at hm
      exact hm.resolve_right fun h => hspace (h ▸ htop)
  | part r p hr hp ih =>
    rw [chain_of_some hp] at hm
    rw [layers_of_part hr hp]
    rcases mem_cons.1 hm with rfl | hm
    · exact mem_cons_self
    · exact mem_cons_of_mem _ (ih hm)

end Catalog

/-! ### Actions -/

namespace Naming

variable {α β : Type} {c : Catalog}

@[simp] theorem bind_apply (a : Naming α) (f : α → Naming β) (c : Catalog) :
    (a >>= f) c = f (a c).1 (a c).2 := rfl

@[simp] theorem pure_apply (x : α) (c : Catalog) : (pure x : Naming α) c = (x, c) := rfl

@[simp] theorem query_apply (f : Catalog → α) (c : Catalog) : query f c = (f c, c) := rfl

theorem ite_apply {p : Prop} [Decidable p] (a b : Naming α) (c : Catalog) :
    (if p then a else b : Naming α) c = if p then a c else b c := by
  split <;> rfl

/-- The action only adds to the catalog. -/
def Grows (a : Naming α) : Prop := ∀ c, c ≤ (a c).2

theorem grows_pure (x : α) : Grows (pure x) := fun _ => le_rfl

theorem grows_query (f : Catalog → α) : Grows (query f) := fun _ => le_rfl

theorem Grows.bind {a : Naming α} {f : α → Naming β} (ha : Grows a) (hf : ∀ x, Grows (f x)) :
    Grows (a >>= f) := fun c => (ha c).trans (hf _ _)

theorem Grows.ite {p : Prop} [Decidable p] {a b : Naming α} (ha : Grows a) (hb : Grows b) :
    Grows (if p then a else b) := by
  split
  · exact ha
  · exact hb

theorem Grows.mapM {f : α → Naming β} (hf : ∀ x, Grows (f x)) (xs : List α) : Grows (xs.mapM f) := by
  induction xs with
  | nil => exact grows_pure _
  | cons x xs ih =>
    rw [mapM_cons]
    exact (hf x).bind fun _ => ih.bind fun _ => grows_pure _

theorem grows_region (r : Region) : Grows (region r) := fun _ => ⟨rfl, get?_intern_of_get?, id⟩

theorem grows_symbol (s : Symbol) : Grows (symbol s) := fun _ => ⟨rfl, id, get?_intern_of_get?⟩

/-- The number that a region is given is its number. -/
theorem get?_region (r : Region) (c : Catalog) :
    (region r c).2.regions.get? (region r c).1.index = some r := get?_intern _ _

theorem get?_symbol (s : Symbol) (c : Catalog) :
    (symbol s c).2.symbols.get? (symbol s c).1.index = some s := get?_intern _ _

theorem region_region (r : Region) (c : Catalog) : (region r c).2.region (region r c).1 = r :=
  region_of_get? (get?_region r c)

theorem symbol_symbol (s : Symbol) (c : Catalog) : (symbol s c).2.symbol (symbol s c).1 = s :=
  symbol_of_get? (get?_symbol s c)

theorem has_region (r : Region) (c : Catalog) : (region r c).2.Has (region r c).1 :=
  has_of_get? (get?_region r c)

/-- A region that has a number is found under it. -/
theorem region_of_region_eq {q : RegionId} {r : Region} (hq : c.Has q) (h : c.region q = r) :
    region r c = (q, c) := by
  have hr : c.regions.intern r = (q.index, c.regions) := intern_of_get? (h ▸ hq.get?)
  rw [region, hr]

theorem grows_space (s : Space) : Grows (space s) := grows_region _

theorem grows_var (v : VarId) (frame : FrameId) : Grows (var v frame) :=
  (grows_query _).bind fun _ => (grows_space _).bind fun _ => grows_region _

theorem grows_symbolic (s : SymbolId) : Grows (symbolic s) :=
  (grows_space _).bind fun _ => grows_region _

theorem grows_symbolValue (s : SymbolId) : Grows (symbolValue s) :=
  (grows_query _).bind fun _ => .ite ((grows_symbolic s).bind fun _ => grows_pure _) (grows_pure _)

theorem grows_scalarValue (s : Symbol) : Grows (scalarValue s) :=
  .ite ((grows_symbol s).bind fun _ => grows_symbolValue _) (grows_pure _)

/-! ### Well-formedness -/

/-- A region may be named if it is a part of a region that has a number, an object in a memory
space that has a number, or a memory space. -/
structure Placed (c : Catalog) (r : Region) : Prop where
  has {p : RegionId} : r.parent? = some p → c.Has p
  inSpace {p : RegionId} : r.isPart = false → r.parent? = some p → (c.region p).parent? = none

/-- Regions that are named in their place leave the catalog well-formed. -/
theorem wellFormed_region (hc : c.WellFormed) {r : Region} (hr : Placed c r) :
    (region r c).2.WellFormed := by
  have hcd : c ≤ (region r c).2 := grows_region r c
  have hcase : ∀ q, (region r c).2.Has q →
      c.Has q ∨ q.index = c.regions.size ∧ (region r c).2.region q = r := fun q hq => by
    rcases get?_of_get?_intern hq.get? with h | h
    · exact Or.inl (has_of_get? h)
    · exact Or.inr h
  constructor
  · intro q p hp
    rcases hcase q (has_of_parent? hp) with hq | ⟨hq, he⟩
    · rw [region_mono hcd hq] at hp
      exact hc.older hp
    · rw [he] at hp
      exact hq ▸ hr.has hp
  · intro q p hpart hp
    rcases hcase q (has_of_parent? hp) with hq | ⟨-, he⟩
    · rw [region_mono hcd hq] at hp hpart
      have hlt : c.Has p := Nat.lt_trans (hc.older hp) hq
      rw [region_mono hcd hlt]
      exact hc.inSpace hpart hp
    · rw [he] at hp hpart
      rw [region_mono hcd (hr.has hp)]
      exact hr.inSpace hpart hp

theorem wellFormed_space (hc : c.WellFormed) (s : Space) : (space s c).2.WellFormed :=
  wellFormed_region hc ⟨(nomatch ·), fun _ h => nomatch h⟩

/-- Objects that are named in a memory space leave the catalog well-formed. -/
theorem wellFormed_inSpace (hc : c.WellFormed) (s : Space) {object : RegionId → Region}
    (h : ∀ p, (object p).parent? = some p) :
    ((do region (object (← space s)) : Naming RegionId) c).2.WellFormed := by
  have hs : ∀ {p}, (object (space s c).1).parent? = some p → (space s c).1 = p := fun hp =>
    some.inj ((h _).symm.trans hp)
  refine wellFormed_region (wellFormed_space hc s) ⟨fun hp => ?_, fun _ hp => ?_⟩
  · exact hs hp ▸ has_region _ _
  · rw [← hs hp, space, region_region]
    rfl

theorem wellFormed_var (hc : c.WellFormed) (v : VarId) (frame : FrameId) :
    (var v frame c).2.WellFormed := wellFormed_inSpace hc _ fun _ => rfl

/-- A named object, and the space that it is in. -/
theorem region_inSpace (s : Space) (object : RegionId → Region) (c : Catalog) :
    ∃ q, (region (object (space s c).1) (space s c).2).2.region
        (region (object (space s c).1) (space s c).2).1 = object q ∧
      (region (object (space s c).1) (space s c).2).2.region q = .space s :=
  ⟨(space s c).1, region_region _ _, (region_mono (grows_region _ _) (has_region _ _)).trans
    (region_region _ _)⟩

theorem wellFormed_symbolic (hc : c.WellFormed) (s : SymbolId) : (symbolic s c).2.WellFormed :=
  wellFormed_inSpace hc _ fun _ => rfl

end Naming

/-! ### Variables -/

namespace Catalog

variable {c d : Catalog} {f : FrameId} {v w : VarId} {r q : RegionId}

/-- The region is that of a variable in a frame. -/
def IsVar (c : Catalog) (f : FrameId) (v : VarId) (r : RegionId) : Prop :=
  ∃ q : RegionId, c.regions.get? r.index = some (.var v q) ∧
    c.regions.get? q.index = some (.space (varSpace (c.program.var v).kind f))

namespace IsVar

theorem mono (h : c.IsVar f v r) (hcd : c ≤ d) : d.IsVar f v r := by
  obtain ⟨q, hr, hq⟩ := h
  exact ⟨q, hcd.region hr, by rw [hcd.program]; exact hcd.region hq⟩

theorem has (h : c.IsVar f v r) : c.Has r := by
  obtain ⟨q, hr, -⟩ := h
  exact has_of_get? hr

theorem region_eq (h : c.IsVar f v r) : ∃ q, c.region r = .var v q := by
  obtain ⟨q, hr, -⟩ := h
  exact ⟨q, region_of_get? hr⟩

theorem isPart_eq (h : c.IsVar f v r) : (c.region r).isPart = false := by
  obtain ⟨q, hr⟩ := h.region_eq
  rw [hr]
  rfl

/-- A variable has one region in a frame. -/
theorem unique (h : c.IsVar f v r) (h' : c.IsVar f v q) : r = q := by
  obtain ⟨p, hr, hp⟩ := h
  obtain ⟨p', hq, hp'⟩ := h'
  have hpp : p = p' := congrArg RegionId.mk (get?_inj hp hp')
  subst hpp
  exact congrArg RegionId.mk (get?_inj hr hq)

/-- A region belongs to one variable. -/
theorem var_eq (h : c.IsVar f v r) (h' : c.IsVar f w r) : v = w := by
  obtain ⟨p, hr⟩ := h.region_eq
  obtain ⟨p', hr'⟩ := h'.region_eq
  cases hr.symm.trans hr'
  rfl

/-- What is the region of a variable later was so as soon as it had a number. -/
theorem of_le (h : d.IsVar f v r) (hcd : c ≤ d) (hc : c.WellFormed) (hr : c.Has r) : c.IsVar f v r := by
  obtain ⟨q, hdr, hdq⟩ := h
  have hregion : c.region r = .var v q := (region_mono hcd hr).symm.trans (region_of_get? hdr)
  have hq : c.Has q := Nat.lt_trans (hc.older (show _ = some q by rw [hregion]; rfl)) hr
  refine ⟨q, hregion ▸ hr.get?, ?_⟩
  rw [hq.get?, ← region_mono hcd hq, region_of_get? hdq, hcd.program]

theorem base_eq (h : c.IsVar f v r) : c.base r = r := base_of_not_part h.isPart_eq

theorem symbolicBase?_eq (h : c.IsVar f v r) : c.symbolicBase? r = none := by
  obtain ⟨q, hr⟩ := h.region_eq
  rw [symbolicBase?, h.base_eq, hr]

theorem valueType?_eq (h : c.IsVar f v r) : c.valueType? r = some (c.program.var v).type := by
  obtain ⟨q, hr⟩ := h.region_eq
  rw [valueType?, hr]

theorem chain_eq (h : c.IsVar f v r) (hc : c.WellFormed) :
    ∃ q, c.region q = .space (varSpace (c.program.var v).kind f) ∧ c.chain r = [r, q] := by
  obtain ⟨q, hr, hq⟩ := h
  have hqr := region_of_get? hq
  refine ⟨q, hqr, ?_⟩
  have hq' : c.enclosing? q = none := by rw [hc.enclosing?_eq, hqr]; rfl
  rw [chain_of_some (by rw [hc.enclosing?_eq, region_of_get? hr]; rfl), chain_of_none hq']

theorem space_eq (h : c.IsVar f v r) (hc : c.WellFormed) :
    c.space r = varSpace (c.program.var v).kind f := by
  obtain ⟨q, hq, hchain⟩ := h.chain_eq hc
  have hlast : c.spaceRegion r = q := by rw [spaceRegion, hchain]; rfl
  rw [space, hlast, hq]

/-- Of the regions of variables, only the region itself encloses it. -/
theorem mem_chain_iff (h : c.IsVar f v r) (hq : c.IsVar f w q) (hc : c.WellFormed) :
    q ∈ c.chain r ↔ q = r := by
  obtain ⟨m, hm, hchain⟩ := h.chain_eq hc
  obtain ⟨p, hp⟩ := hq.region_eq
  rw [hchain, mem_cons, mem_singleton]
  constructor
  · rintro (rfl | rfl)
    · rfl
    · cases hp.symm.trans hm
  · exact Or.inl

end IsVar

theorem isVar_var (v : VarId) (f : FrameId) (c : Catalog) :
    (var v f c).2.IsVar f v (var v f c).1 := by
  refine ⟨_, get?_region _ _, ?_⟩
  exact (grows_region _ _).region (get?_region _ _)

end Catalog

end PathScout

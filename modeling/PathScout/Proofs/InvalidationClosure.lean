import PathScout.Proofs.ForgottenObjects

/-!
# What a request forgets and what it leaves alone

The loop that forgets objects visits each of them once. In the catalog that it ends with, memory is
the old one with the visited objects renewed one after the other, in the order of the visits. Which
order that is does not matter, as long as no visited object lies in another one, and only a memory
space can hold another object.

* `Store.conjureContents_again`: the contents of an object have numbers once it was visited.
* `Store.forgetNoting_visits`: the loop renews what it visits.
* `Store.forgetNoting_more`: the loop comes to an end.
* `Store.get?_renewed_of_notMem`, `Store.get?_renewed_of_mem`: what is bound after some visits.
* `Store.invalidate_exact`: what a request forgets, what it binds and what it leaves alone.
* `Store.invalidate_drops_space`: a pointer to a memory space takes all the bindings of the space.
-/

namespace PathScout

open Catalog List Naming

/-! ### Names that were given -/

namespace Naming

variable {c d : Catalog} {x : SymbolId}

theorem region_again {r : Region} (hle : (region r c).2 ≤ d) : region r d = ((region r c).1, d) := by
  refine region_of_region_eq ((has_region r c).mono hle) ?_
  rw [region_mono hle (has_region r c), region_region]

/-- A symbol that has a number is found under it. -/
theorem symbol_of_symbol_eq {a : Symbol} (hx : c.HasSymbol x) (h : c.symbol x = a) :
    symbol a c = (x, c) := by
  have hs : c.symbols.intern a = (x.index, c.symbols) := Interned.intern_of_get? (h ▸ hx.get?)
  rw [symbol, hs]

theorem hasSymbol_symbol (a : Symbol) (c : Catalog) :
    (symbol a c).2.HasSymbol (symbol a c).1 := Interned.lt_size_of_get? (get?_symbol a c)

theorem symbol_again {a : Symbol} (hle : (symbol a c).2 ≤ d) : symbol a d = ((symbol a c).1, d) := by
  refine symbol_of_symbol_eq ((hasSymbol_symbol a c).mono hle) ?_
  rw [symbol_mono hle (hasSymbol_symbol a c), symbol_symbol]

theorem symbolic_again (hle : (symbolic x c).2 ≤ d) : symbolic x d = ((symbolic x c).1, d) := by
  have hspace : space .unknown d = ((space .unknown c).1, d) :=
    region_again ((grows_region _ _).trans hle)
  have hd : symbolic x d = region (.symbolic x (space .unknown d).1) (space .unknown d).2 := rfl
  rw [hd, hspace]
  exact region_again hle

theorem symbolValue_again (hx : c.HasSymbol x) (hle : (symbolValue x c).2 ≤ d) :
    symbolValue x d = ((symbolValue x c).1, d) := by
  have hsymbol : d.symbol x = c.symbol x := symbol_mono ((grows_symbolValue x c).trans hle) hx
  unfold symbolValue at hle ⊢
  rw [bind_apply, query_apply] at hle ⊢
  rw [bind_apply, query_apply, hsymbol]
  split
  · next hp =>
    rw [if_pos hp] at hle
    have hagain := symbolic_again hle
    rw [bind_apply, hagain]
    rfl
  · rfl

end Naming

namespace Catalog

variable {c : Catalog} {r m : RegionId}

theorem spaceRegion_of_mem_chain (hm : m ∈ c.chain r) : c.spaceRegion m = c.spaceRegion r := by
  have hne : c.chain m ≠ [] := ne_nil_of_mem mem_chain_self
  have hne' : c.chain r ≠ [] := ne_nil_of_mem mem_chain_self
  rw [spaceRegion, spaceRegion, getLastD_eq_getLast?, getLastD_eq_getLast?,
    getLast?_eq_some_getLast hne, getLast?_eq_some_getLast hne',
    (chain_suffix hm).getLast hne]
  rfl

/-- An object that a region lies in is the object of the region or its memory space. -/
theorem eq_base_or_eq_spaceRegion (hc : c.WellFormed) (hpart : (c.region m).isPart = false)
    (hm : m ∈ c.chain r) : m = c.base r ∨ m = c.spaceRegion r := by
  by_cases hp : (c.region m).parent? = none
  · refine .inr ?_
    rw [← spaceRegion_of_mem_chain hm, spaceRegion, chain_of_none (by rw [hc.enclosing?_eq, hp])]
    rfl
  · exact .inl (base_eq_of_mem_chain hc hpart hp hm).symm

end Catalog

namespace Store

variable {c d : Catalog} {s before : Store} {request : Invalidation} {o q : RegionId} {v : Value}
  {k : BindingKey} {x : SymbolId} {stack seen noted visited : List RegionId}
  {symbols : List SymbolId} {steps : Nat}

/-- Once an object has contents, it gets the same contents again. -/
theorem conjureContents_again (ho : c.Has o) (hle : (conjureContents o request c).2 ≤ d) :
    conjureContents o request d = ((conjureContents o request c).1, d) := by
  have hcd : c ≤ d := (grows_conjureContents o request c).trans hle
  have hsymbol : request.symbol d o = request.symbol c o := Invalidation.symbol_mono hcd ho
  have htype := valueType?_mono hcd ho
  by_cases hs : (c.valueType? o).any (·.isScalar) = true
  · rw [conjureContents_of_scalar hs] at hle ⊢
    rw [conjureContents_of_scalar (htype ▸ hs), hsymbol,
      symbol_again ((grows_symbolValue _ _).trans hle)]
    rw [symbolValue_again (hasSymbol_symbol _ c) hle]
  · have hs := Bool.eq_false_iff.2 hs
    rw [conjureContents_of_not_scalar hs] at hle ⊢
    rw [conjureContents_of_not_scalar (htype ▸ hs), hsymbol, symbol_again hle]

theorem kill_mono (hcd : c ≤ d) (hs : ∀ e ∈ s.bindings.entries, c.Has e.1.region) (o : RegionId) :
    s.kill d o = s.kill c o := by
  refine congrArg (fun es => (⟨⟨es⟩⟩ : Store)) (filter_congr fun e he => ?_)
  show (e.1.region != o && !(d.chain e.1.region).tail.contains o) = _
  rw [chain_mono hcd (hs e he)]
  rfl

/-- An object is renewed in the same way in every later catalog. -/
theorem renew_mono (hs : ∀ e ∈ s.bindings.entries, c.Has e.1.region) (ho : c.Has o)
    (hle : (conjureContents o request c).2 ≤ d) : s.renew request d o = s.renew request c o := by
  rw [renew, renew, conjureContents_again ho hle,
    kill_mono ((grows_conjureContents o request c).trans hle) hs]

theorem has_of_mem_renew (hc : c.WellFormed) (ho : c.Has o)
    (hs : ∀ e ∈ s.bindings.entries, c.Has e.1.region) :
    ∀ e ∈ (s.renew request c o).bindings.entries, (conjureContents o request c).2.Has e.1.region := by
  intro e he
  obtain ⟨hgrow, -, hkey, -⟩ := conjureContents_spec request hc ho
  rcases OrderedMap.mem_of_mem_put he with rfl | he
  · rw [hkey, contentsKey_region]
    exact ho.mono hgrow
  · exact (hs e (mem_of_mem_filter he)).mono hgrow

/-- The symbols that the bindings of an object show. -/
def shownSymbols (s : Store) (c : Catalog) (o : RegionId) : List SymbolId :=
  (s.ofObject c o).filterMap (shownSymbol? c)

theorem shownSymbol?_eq_some_iff : shownSymbol? c v = some x ↔
    v = .symbol x ∨ ∃ p, v = .pointer p ∧ c.symbolicBase? p = some x := by
  constructor
  · intro h
    cases v with
    | symbol y => exact .inl (congrArg Value.symbol (Option.some.inj h))
    | loc l =>
      cases l with
      | region p => exact .inr ⟨p, rfl, h⟩
      | address n => cases h
    | _ => cases h
  · rintro (rfl | ⟨p, rfl, hp⟩)
    · rfl
    · exact hp

theorem mem_shownSymbols_iff : x ∈ s.shownSymbols c o ↔
    ∃ k v, (k, v) ∈ s.bindings.entries ∧ c.base k.region = o ∧
      (v = .symbol x ∨ ∃ p, v = .pointer p ∧ c.symbolicBase? p = some x) := by
  rw [shownSymbols, mem_filterMap]
  simp only [mem_ofObject_iff, shownSymbol?_eq_some_iff]
  constructor
  · rintro ⟨v, ⟨k, hk, hbase⟩, hv⟩
    exact ⟨k, v, hk, hbase, hv⟩
  · rintro ⟨k, v, hk, hbase, hv⟩
    exact ⟨v, ⟨k, hk, hbase⟩, hv⟩

theorem shownSymbols_mono (hc : c.WellFormed) (hcd : c ≤ d) (hs : s.NamedIn c) (o : RegionId) :
    s.shownSymbols d o = s.shownSymbols c o := by
  rw [shownSymbols, shownSymbols, ofObject_mono hcd hs]
  refine filterMap_congr fun v hv => ?_
  obtain ⟨k, hk, -⟩ := mem_ofObject_iff.1 hv
  cases v with
  | loc l =>
    cases l with
    | region p => exact Catalog.symbolicBase?_mono hc hcd (hs.pointer hk rfl)
    | address n => rfl
  | _ => rfl

/-! ### The visits of the loop -/

/-- Memory once some objects are forgotten one after the other. -/
def renewed (s : Store) (request : Invalidation) (d : Catalog) (visited : List RegionId) : Store :=
  visited.foldl (fun s o => s.renew request d o) s

theorem renewed_append_cons (earlier later : List RegionId) :
    s.renewed request d (earlier ++ o :: later) =
      ((s.renewed request d earlier).renew request d o).renewed request d later := by
  rw [renewed, foldl_append, foldl_cons]
  rfl

/-- What waits once an object is forgotten are objects with numbers. -/
theorem waiting_object (hc : c.WellFormed) (hs : before.NamedIn c)
    (hstack : ∀ q ∈ o :: stack, c.Has q ∧ (c.region q).isPart = false) (hcd : c ≤ d)
    (hq : q ∈ (before.targets c o).reverse ++ stack) : d.Has q ∧ (d.region q).isPart = false := by
  have hhas := has_waiting hc hs (fun q hq => (hstack q hq).1) hq
  refine ⟨hhas.mono hcd, ?_⟩
  rw [region_mono hcd hhas]
  rcases mem_append.1 hq with hq | hq
  · obtain ⟨e, -, p, -, rfl⟩ := mem_targets (mem_reverse.1 hq)
    exact isPart_base hc p
  · exact (hstack q (mem_cons_of_mem _ hq)).2

/-- The objects that the loop visits are new to it and different from each other. It renews them in
turn and collects the symbols that they show. -/
theorem forgetNoting_visits (hc : c.WellFormed) (hs : before.NamedIn c)
    (hkeys : ∀ e ∈ s.bindings.entries, c.Has e.1.region)
    (hstack : ∀ o ∈ stack, c.Has o ∧ (c.region o).isPart = false)
    (hle : (forgetNoting before request steps stack seen s symbols noted c).2 ≤ d) :
    ∃ visited : List RegionId, visited.Nodup ∧
      (∀ o ∈ visited, o ∉ seen ∧ d.Has o ∧ (d.region o).isPart = false ∧
        (conjureContents o request d).2 = d) ∧
      (forgetNoting before request steps stack seen s symbols noted c).1 =
        ((s.renewed request d visited, symbols ++ visited.flatMap (before.shownSymbols d)),
          noted ++ visited) := by
  have hstop : ∀ (s : Store) (symbols : List SymbolId) (noted : List RegionId),
      ((s, symbols), noted) = ((s.renewed request d [],
        symbols ++ [].flatMap (before.shownSymbols d)), noted ++ []) := by
    simp [renewed]
  induction steps generalizing stack seen s symbols noted c with
  | zero => exact ⟨[], nodup_nil, fun _ h => absurd h not_mem_nil, hstop ..⟩
  | succ steps ih =>
    cases stack with
    | nil => exact ⟨[], nodup_nil, fun _ h => absurd h not_mem_nil, hstop ..⟩
    | cons o stack =>
      have hcd : c ≤ d := (grows_forgetNoting ..).trans hle
      obtain ⟨ho, hpart⟩ := hstack o mem_cons_self
      by_cases hskip : (seen.contains o || isImmutable c o) = true
      · rw [forgetNoting_of_skip hskip] at hle ⊢
        obtain ⟨visited, hnodup, hvisited, hout⟩ :=
          ih hc hs hkeys (fun q hq => hstack q (mem_cons_of_mem _ hq)) hle
        refine ⟨visited, hnodup, fun q hq => ?_, hout⟩
        obtain ⟨hseen, hrest⟩ := hvisited q hq
        exact ⟨fun h => hseen (mem_cons_of_mem _ h), hrest⟩
      · rw [forgetNoting_of_not_skip hskip] at hle ⊢
        have hagain : (conjureContents o request c).2 ≤ d := (grows_forgetNoting ..).trans hle
        obtain ⟨hgrow, hwf, -, -⟩ := conjureContents_spec request hc ho
        obtain ⟨visited, hnodup, hvisited, hout⟩ :=
          ih hwf (hs.mono hgrow) (has_of_mem_renew hc ho hkeys)
            (fun q hq => waiting_object hc hs hstack hgrow hq) hle
        refine ⟨o :: visited, ?_, fun q hq => ?_, ?_⟩
        · exact nodup_cons.2 ⟨fun h => (hvisited o h).1 mem_cons_self, hnodup⟩
        · rcases mem_cons.1 hq with rfl | hq
          · rw [Bool.or_eq_true, not_or, contains_iff_mem] at hskip
            refine ⟨hskip.1, ho.mono hcd, ?_, ?_⟩
            · rw [region_mono hcd ho, hpart]
            · rw [conjureContents_again ho hagain]
          · obtain ⟨hseen, hrest⟩ := hvisited q hq
            exact ⟨fun h => hseen (mem_cons_of_mem _ h), hrest⟩
        · rw [hout, renewed, renewed, foldl_cons, renew_mono hkeys ho hagain,
            flatMap_cons, shownSymbols_mono hc hcd hs, append_assoc, append_assoc]
          rfl

theorem forgetNoting_nil :
    forgetNoting before request steps [] seen s symbols noted c = (((s, symbols), noted), c) := by
  cases steps <;> rfl

/-- Once the steps are enough to empty the stack, more of them change nothing. -/
theorem forgetNoting_more (hc : c.WellFormed) (hs : before.NamedIn c)
    (hstack : ∀ o ∈ stack, c.Has o) (hsteps : stack.length + before.unmet c seen ≤ steps)
    (more : Nat) :
    forgetNoting before request (steps + more) stack seen s symbols noted c =
      forgetNoting before request steps stack seen s symbols noted c := by
  induction steps generalizing stack seen s symbols noted c with
  | zero =>
    obtain rfl : stack = [] := length_eq_zero_iff.1 (by omega)
    rw [forgetNoting_nil, forgetNoting_nil]
  | succ steps ih =>
    cases stack with
    | nil => rw [forgetNoting_nil, forgetNoting_nil]
    | cons o stack =>
      rw [length_cons] at hsteps
      rw [Nat.succ_add]
      by_cases hskip : (seen.contains o || isImmutable c o) = true
      · rw [forgetNoting_of_skip hskip, forgetNoting_of_skip hskip]
        have := before.unmet_cons_le c seen o
        exact ih hc hs (fun q hq => hstack q (mem_cons_of_mem _ hq)) (by omega)
      · rw [forgetNoting_of_not_skip hskip, forgetNoting_of_not_skip hskip]
        rw [Bool.or_eq_true, not_or, contains_iff_mem] at hskip
        have hlen := length_targets_add_unmet_le (s := before) (c := c) hskip.1
        obtain ⟨hgrow, hwf, -, -⟩ := conjureContents_spec request hc (hstack o mem_cons_self)
        refine ih hwf (hs.mono hgrow) (fun q hq => (has_waiting hc hs hstack hq).mono hgrow) ?_
        rw [unmet_mono hgrow hs, length_append, length_reverse]
        omega

/-! ### What the visits leave -/

section

variable (hd : d.WellFormed) (hhas : ∀ o ∈ visited, d.Has o)
include hd hhas

/-- What lies in no visited object is left alone. -/
theorem get?_renewed_of_notMem (h : ∀ o ∈ visited, o ∉ d.chain k.region) :
    (s.renewed request d visited).bindings.get? k = s.bindings.get? k := by
  induction visited generalizing s with
  | nil => rfl
  | cons o visited ih =>
    have ho : o ∉ d.chain k.region := h o mem_cons_self
    have hne : k ≠ contentsKey d o := fun hk => ho (by
      rw [hk, contentsKey_region]
      exact mem_chain_self)
    have hrest := ih (s := s.renew request d o) (fun q hq => hhas q (mem_cons_of_mem _ hq))
      fun q hq => h q (mem_cons_of_mem _ hq)
    rw [get?_renew hd (hhas o mem_cons_self), if_neg hne, if_neg ho] at hrest
    exact hrest

/-- What is not bound is bound by a visit only as the contents of the visited object. -/
theorem get?_renewed_eq_none (hk : s.bindings.get? k = none)
    (hne : ∀ o ∈ visited, k ≠ contentsKey d o) :
    (s.renewed request d visited).bindings.get? k = none := by
  induction visited generalizing s with
  | nil => exact hk
  | cons o visited ih =>
    refine ih (s := s.renew request d o) (fun q hq => hhas q (mem_cons_of_mem _ hq)) ?_
      fun q hq => hne q (mem_cons_of_mem _ hq)
    rw [get?_renew hd (hhas o mem_cons_self), if_neg (hne o mem_cons_self), hk, ite_self]

/-- What was bound in a visited object is gone. -/
theorem get?_renewed_of_mem_chain (ho : o ∈ visited) (hk : o ∈ d.chain k.region)
    (hne : ∀ q ∈ visited, k ≠ contentsKey d q) :
    (s.renewed request d visited).bindings.get? k = none := by
  obtain ⟨earlier, later, rfl⟩ := append_of_mem ho
  rw [renewed_append_cons]
  refine get?_renewed_eq_none hd (fun q hq => hhas q (by simp [hq])) ?_
    fun q hq => hne q (by simp [hq])
  rw [get?_renew hd (hhas o ho), if_neg (hne o ho), if_pos hk]

/-- A visited object that does not lie in another one holds its contents and nothing else, if no
other visited object lies in it. -/
theorem get?_renewed_of_mem (hnodup : visited.Nodup) (ho : o ∈ visited)
    (hout : ∀ q ∈ visited, q ≠ o → q ∉ d.chain o ∧ o ∉ d.chain q) (hk : o ∈ d.chain k.region) :
    (s.renewed request d visited).bindings.get? k =
      if k = contentsKey d o then some (conjureContents o request d).1.2 else none := by
  split
  · next hkey =>
    obtain ⟨earlier, later, rfl⟩ := append_of_mem ho
    have hlater : o ∉ later := (nodup_cons.1 (nodup_append.1 hnodup).2.1).1
    rw [renewed_append_cons]
    refine (get?_renewed_of_notMem hd (fun q hq => hhas q (by simp [hq]))
      fun q hq => ?_).trans ?_
    · rw [hkey, contentsKey_region]
      exact (hout q (by simp [hq]) fun e => hlater (e ▸ hq)).1
    · rw [get?_renew hd (hhas o ho), if_pos hkey]
  · next hkey =>
    refine get?_renewed_of_mem_chain hd hhas ho hk fun q hq e => ?_
    have hqo : q ≠ o := fun h => hkey (h ▸ e)
    rw [e, contentsKey_region] at hk
    exact (hout q hq hqo).2 hk

end

/-! ### Requests -/

/-- What a request forgets: every object once, and memory is renewed in the order of the visits. -/
theorem invalidateNoting_visits (hc : c.WellFormed) (hs : s.NamedIn c)
    (hregions : ∀ r ∈ request.regions, c.Has r) :
    let out := s.invalidateNoting request c
    out.1.2.Nodup ∧ (∀ o ∈ out.1.2, out.2.Has o ∧ (out.2.region o).isPart = false ∧
        (conjureContents o request out.2).2 = out.2) ∧
      out.1.1 = (s.renewed request out.2 out.1.2, out.1.2.flatMap (s.shownSymbols out.2)) := by
  intro out
  obtain ⟨hgrow, hwf, -, hcases⟩ := invalidationRoots_spec request hc
  have hroots : ∀ o ∈ (invalidationRoots request c).1.reverse, (invalidationRoots request c).2.Has o ∧
        ((invalidationRoots request c).2.region o).isPart = false := fun o ho => by
    refine ⟨has_root hc hregions ho, ?_⟩
    rcases hcases o (mem_reverse.1 ho) with ⟨r, hr, rfl⟩ | ⟨v, p, hv⟩
    · rw [region_mono hgrow ((hregions r hr).base hc)]
      exact isPart_base hc r
    · rw [hv]
      rfl
  obtain ⟨visited, hnodup, hvisited, hout⟩ := forgetNoting_visits hwf (hs.mono hgrow)
    (fun e he => (hs.mono hgrow).key he) hroots (le_refl out.2)
  have hout : out.1 = ((s.renewed request out.2 visited,
      visited.flatMap (s.shownSymbols out.2)), visited) := hout
  have hnoted : out.1.2 = visited := congrArg Prod.snd hout
  rw [hnoted]
  exact ⟨hnodup, fun o ho => (hvisited o ho).2, congrArg Prod.fst hout⟩

/-- **What a request forgets.** The loop comes to an end, and forgets exactly the objects that the
request reaches and that can change, each of them once. A binding stays as it is if neither its
object nor its memory space is forgotten. A forgotten object holds its fresh contents and nothing
else, unless its memory space is forgotten. The symbols that are told are those that the forgotten
objects showed. -/
theorem invalidate_exact (hc : c.WellFormed) (hs : s.NamedIn c)
    (hregions : ∀ r ∈ request.regions, c.Has r) :
    let roots := invalidationRoots request c
    let out := s.invalidateNoting request c
    let after := out.1.1.1
    let lost := out.1.1.2
    let noted := out.1.2
    let d := out.2
    s.invalidate request c = ((after, lost), d) ∧
      (∀ steps, roots.1.length + s.bindings.size ≤ steps →
        forget s request steps roots.1.reverse [] s [] roots.2 = ((after, lost), d)) ∧
      noted.Nodup ∧
      (∀ o, o ∈ noted ↔ request.Reaches s d o ∧ isImmutable d o = false) ∧
      (∀ k : BindingKey, d.base k.region ∉ noted → d.spaceRegion k.region ∉ noted →
        after.bindings.get? k = s.bindings.get? k) ∧
      (∀ o ∈ noted, d.spaceRegion o ∉ noted → ∃ k v, conjureContents o request d = ((k, v), d) ∧
        k.region = o ∧ ∀ k' : BindingKey, o ∈ d.chain k'.region →
          after.bindings.get? k' = if k' = k then some v else none) ∧
      ∀ x, x ∈ lost ↔ ∃ k v, (k, v) ∈ s.bindings.entries ∧ d.base k.region ∈ noted ∧
        (v = .symbol x ∨ ∃ p, v = .pointer p ∧ d.symbolicBase? p = some x) := by
  intro roots out after lost noted d
  have hd : d.WellFormed := wellFormed_invalidateNoting hc hs hregions
  obtain ⟨hgrow, hwf, -, -⟩ := invalidationRoots_spec request hc
  obtain ⟨hnodup, hvisited, hout⟩ := invalidateNoting_visits hc hs hregions
  have hhas : ∀ o ∈ noted, d.Has o := fun o ho => (hvisited o ho).1
  have hafter : after = s.renewed request d noted := congrArg Prod.fst hout
  have hlost : lost = noted.flatMap (s.shownSymbols d) := congrArg Prod.snd hout
  -- a forgotten object that a region lies in is its object or its memory space
  have henclosing : ∀ {q r}, q ∈ noted → q ∈ d.chain r → q = d.base r ∨ q = d.spaceRegion r :=
    fun hq => eq_base_or_eq_spaceRegion hd (hvisited _ hq).2.1
  refine ⟨invalidateNoting_invalidates s request c, fun steps hsteps => ?_, hnodup,
    fun o => mem_noted_iff hd le_rfl hs hregions, fun k hbase hspace => ?_, fun o ho hspace => ?_,
    fun x => ?_⟩
  · obtain ⟨more, rfl⟩ := Nat.exists_eq_add_of_le hsteps
    have hmore : forgetNoting s request (roots.1.length + s.bindings.size + more)
        roots.1.reverse [] s [] [] roots.2 = out := by
      refine forgetNoting_more hwf (hs.mono hgrow) (fun o ho => has_root hc hregions ho) ?_ more
      rw [length_reverse]
      exact Nat.add_le_add_left countP_le_length _
    rw [forgetNoting_forgets s request _ _ _ _ _ [], hmore]
  · rw [hafter]
    refine get?_renewed_of_notMem hd hhas fun o ho hchain => ?_
    rcases henclosing ho hchain with rfl | rfl
    · exact hbase ho
    · exact hspace ho
  · obtain ⟨-, -, hkey, -⟩ := conjureContents_spec request hd (hhas o ho)
    refine ⟨(conjureContents o request d).1.1, (conjureContents o request d).1.2,
      Prod.ext rfl (hvisited o ho).2.2, by rw [hkey, contentsKey_region], fun k hk => ?_⟩
    have hobase : d.base o = o := base_of_not_part (hvisited o ho).2.1
    rw [hafter, hkey]
    refine get?_renewed_of_mem hd hhas hnodup ho (fun q hq hne => ⟨fun hin => ?_, fun hin => ?_⟩) hk
    · rcases henclosing hq hin with h | rfl
      · exact hne (h.trans hobase)
      · exact hspace hq
    · rcases henclosing ho hin with h | h
      · rw [base_of_not_part (hvisited q hq).2.1] at h
        exact hne h.symm
      · rw [h, spaceRegion_of_mem_chain (h ▸ hin), ← h] at hspace
        exact hspace ho
  · rw [hlost, mem_flatMap]
    simp only [mem_shownSymbols_iff]
    constructor
    · rintro ⟨o, ho, k, v, hk, rfl, hv⟩
      exact ⟨k, v, hk, ho, hv⟩
    · rintro ⟨k, v, hk, ho, hv⟩
      exact ⟨_, ho, k, v, hk, rfl, hv⟩

/-- A request for the field of `a` forgets `a`, once. -/
theorem invalidate_exact_pointer :
    let out := pointerStore.invalidateNoting (requestOf [⟨4⟩]) pointerCatalog
    pointerCatalog.WellFormed ∧ pointerStore.NamedIn pointerCatalog ∧
      (∀ r ∈ (requestOf [⟨4⟩]).regions, pointerCatalog.Has r) ∧ out.1.2.Nodup ∧ ⟨2⟩ ∈ out.1.2 := by
  have hc : pointerCatalog.WellFormed := by decide
  have hs : pointerStore.NamedIn pointerCatalog := by decide
  have hregions : ∀ r ∈ (requestOf [⟨4⟩]).regions, pointerCatalog.Has r := by decide
  obtain ⟨-, -, hnodup, hnoted, -⟩ := invalidate_exact hc hs hregions
  refine ⟨hc, hs, hregions, hnodup, (hnoted _).2 ⟨?_, by decide +kernel⟩⟩
  exact .root (.inl ⟨⟨4⟩, mem_cons_self, by decide +kernel⟩)

/-! ### A pointer to a memory space -/

/-- A program with a global variable `p` of a pointer type and a local variable `x`. -/
def spaceProgram : Program where
  file := ""
  vars := #[⟨"p", .pointer .int, .global false, none, default⟩, ⟨"x", .int, .local, none, default⟩]

/-- The local variable is the region 1, and the global variable is the region 3. -/
def spaceCatalog : Catalog where
  program := spaceProgram
  regions := .ofList
    [.space (.locals ⟨0⟩), .var ⟨1⟩ ⟨0⟩, .space (.globals .globals), .var ⟨0⟩ ⟨2⟩] (by decide)
  symbols := ∅

/-- Memory where the global variable points to the space of the local variables. -/
def spaceStore : Store := ⟨⟨[(.direct ⟨1⟩, .int 7), (.direct ⟨3⟩, .pointer ⟨0⟩)]⟩⟩

/-- A pointer to the space of `x` makes a request for `p` forget `x` with the space. The object `x` is
not among those that are forgotten, and yet its binding is gone. -/
theorem invalidate_drops_space :
    let out := spaceStore.invalidateNoting (requestOf [⟨3⟩]) spaceCatalog
    spaceCatalog.WellFormed ∧ spaceStore.NamedIn spaceCatalog ∧
      (∀ r ∈ (requestOf [⟨3⟩]).regions,
        spaceCatalog.Has r ∧ (spaceCatalog.region r).parent? ≠ none) ∧
      spaceStore.invalidate (requestOf [⟨3⟩]) spaceCatalog = (out.1.1, out.2) ∧
      spaceStore.bindings.get? (.direct ⟨1⟩) = some (.int 7) ∧ out.2.base ⟨1⟩ ∉ out.1.2 ∧
      out.1.1.1.bindings.get? (.direct ⟨1⟩) = none := by
  refine ⟨by decide, by decide, by decide, invalidateNoting_invalidates _ _ _, rfl, ?_⟩
  decide +kernel

end Store

end PathScout

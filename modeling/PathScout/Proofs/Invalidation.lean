import PathScout.Proofs.StoreLaws

/-!
# Forgetting objects

A request to forget some regions gives each of their objects fresh contents: a symbol of the request,
bound to the object itself if it is a scalar and to all its parts otherwise. Everything that is read
in the object afterwards comes from this symbol, except for parts that a scalar is reinterpreted as:
these are read as if the object had never been written.

* `Invalidation.symbol`: the symbol of a request for an object.
* `Invalidation.Fresh`: a value that comes from this symbol.
* `Store.Renewed`: memory where an object holds its fresh contents and nothing else.
* `Store.Forgetting`: the invariant of the loop that forgets one object after the other.
* `Store.retrieve_invalidate_fresh_iff`: which parts of a forgotten object hold a fresh value.
-/

namespace PathScout

open Catalog Naming List

variable {c d : Catalog} {s before : Store} {request : Invalidation} {b o q r : RegionId} {t : CType}
  {v : Value} {k : BindingKey} {x y : SymbolId}

/-! ### Fresh values -/

/-- The symbol that a request gives an object. -/
def Invalidation.symbol (request : Invalidation) (c : Catalog) (b : RegionId) : Symbol :=
  .conjured request.expr request.frame ((c.valueType? b).getD .int) request.count (some b)

/-- The value is the symbol, or it points to the memory that the symbol points to. -/
def Value.Shows (v : Value) (c : Catalog) (x : SymbolId) : Prop :=
  v = .symbol x ∨ ∃ r p, v = .pointer r ∧ c.region r = .symbolic x p

/-- The value shows the symbol that the request gives the object, or a part of that symbol. -/
def Invalidation.Fresh (request : Invalidation) (c : Catalog) (b : RegionId) (v : Value) : Prop :=
  ∃ x, v.Shows c x ∧ (c.symbol x = request.symbol c b ∨
    ∃ y r t, c.symbol x = .derived y r t ∧ c.symbol y = request.symbol c b)

theorem Invalidation.symbol_mono (hcd : c ≤ d) (hb : c.Has b) :
    request.symbol d b = request.symbol c b := by
  rw [symbol, symbol, valueType?_mono hcd hb]

/-- The symbol of an object keeps its number. -/
theorem Catalog.symbol_request_mono (hcd : c ≤ d) (hb : c.Has b)
    (h : c.symbol x = request.symbol c b) : d.symbol x = request.symbol d b := by
  have hx : c.HasSymbol x := hasSymbol_of_ne (by rw [h]; exact fun e => nomatch e)
  rw [symbol_mono hcd hx, h, Invalidation.symbol_mono hcd hb]

namespace Value

theorem Shows.mono (hcd : c ≤ d) (h : v.Shows c x) : v.Shows d x := by
  rcases h with h | ⟨r, p, h, hr⟩
  · exact Or.inl h
  · have hp : (c.region r).parent? = some p := by rw [hr]; rfl
    exact Or.inr ⟨r, p, h, (region_mono hcd (has_of_parent? hp)).trans hr⟩

/-- A value shows one symbol at most. -/
theorem Shows.unique (hx : v.Shows c x) (hy : v.Shows c y) : x = y := by
  rcases hx with rfl | ⟨r, p, rfl, hr⟩ <;> rcases hy with hy | ⟨r', p', hy, hr'⟩ <;> cases hy
  · rfl
  · rw [hr] at hr'
    cases hr'
    rfl

theorem eq_pointer_of_region? (h : v.region? = some r) : v = .pointer r := by
  cases v with
  | loc l =>
    cases l with
    | region q => rw [Option.some.inj h, pointer]
    | address n => cases h
  | _ => cases h

theorem Shows.fit_eq (h : v.Shows c x) : Store.fit v t = v := by
  rcases h with rfl | ⟨r, p, rfl, -⟩ <;> rfl

end Value

namespace Naming

theorem shows_symbolValue (x : SymbolId) (c : Catalog) :
    (symbolValue x c).1.Shows (symbolValue x c).2 x := by
  unfold symbolValue
  rw [bind_apply, query_apply]
  split
  · exact Or.inr ⟨_, _, rfl, region_region _ _⟩
  · exact Or.inl rfl

theorem wellFormed_symbolValue (hc : c.WellFormed) (x : SymbolId) : (symbolValue x c).2.WellFormed := by
  unfold symbolValue
  rw [bind_apply, query_apply]
  split
  · exact wellFormed_symbolic hc x
  · exact hc

/-- The value of a new symbol of scalar type shows the symbol. -/
theorem shows_scalarValue {a : Symbol} (ha : a.type.isScalar = true) (c : Catalog) :
    ∃ x, (scalarValue a c).1.Shows (scalarValue a c).2 x ∧
      (symbol a c).2.HasSymbol x ∧ (symbol a c).2.symbol x = a ∧
      (symbol a c).2 ≤ (scalarValue a c).2 := by
  have he : scalarValue a c = symbolValue (symbol a c).1 (symbol a c).2 := by
    unfold scalarValue
    rw [if_pos ha]
    rfl
  rw [he]
  exact ⟨(symbol a c).1, shows_symbolValue _ _, Interned.lt_size_of_get? (get?_symbol a c),
    symbol_symbol a c, grows_symbolValue _ _⟩

end Naming

namespace Store

/-- The binding that holds the contents of an object. -/
def contentsKey (c : Catalog) (b : RegionId) : BindingKey :=
  if (c.valueType? b).any (·.isScalar) then .direct b else .default b

@[simp] theorem contentsKey_region : (contentsKey c b).region = b := by
  unfold contentsKey
  split <;> rfl

theorem contentsKey_mono (hcd : c ≤ d) (hb : c.Has b) : contentsKey d b = contentsKey c b := by
  rw [contentsKey, contentsKey, valueType?_mono hcd hb]

/-- The value is what a request gives an object. -/
def IsContents (request : Invalidation) (c : Catalog) (b : RegionId) (v : Value) : Prop :=
  ∃ x, c.symbol x = request.symbol c b ∧ v.Shows c x ∧
    ((c.valueType? b).any (·.isScalar) = false → v = .symbol x)

theorem IsContents.mono (hcd : c ≤ d) (hb : c.Has b) (h : IsContents request c b v) :
    IsContents request d b v := by
  obtain ⟨x, hx, hv, hs⟩ := h
  refine ⟨x, symbol_request_mono hcd hb hx, hv.mono hcd, fun h => hs ?_⟩
  rwa [← valueType?_mono hcd hb]

theorem conjureContents_of_scalar (h : (c.valueType? b).any (·.isScalar) = true) :
    let named := symbol (request.symbol c b) c
    conjureContents b request c = ((.direct b, (symbolValue named.1 named.2).1),
        (symbolValue named.1 named.2).2) := by
  unfold conjureContents
  rw [bind_apply, query_apply, bind_apply, if_pos h]
  rfl

theorem conjureContents_of_not_scalar (h : (c.valueType? b).any (·.isScalar) = false) :
    let named := symbol (request.symbol c b) c
    conjureContents b request c = ((.default b, .symbol named.1), named.2) := by
  unfold conjureContents
  rw [bind_apply, query_apply, bind_apply, if_neg (Bool.eq_false_iff.1 h)]
  rfl

/-- An object is given one binding, for its contents, which show the symbol of the request. -/
theorem conjureContents_spec (request : Invalidation) (hc : c.WellFormed) (hb : c.Has b) :
    c ≤ (conjureContents b request c).2 ∧ (conjureContents b request c).2.WellFormed ∧
      (conjureContents b request c).1.1 = contentsKey c b ∧
      IsContents request (conjureContents b request c).2 b (conjureContents b request c).1.2 := by
  have hgrow : c ≤ (symbol (request.symbol c b) c).2 := grows_symbol _ c
  have hsym := symbol_symbol (request.symbol c b) c
  have hwf : (symbol (request.symbol c b) c).2.WellFormed := ⟨hc.older, hc.inSpace⟩
  rw [← Invalidation.symbol_mono hgrow hb] at hsym
  by_cases hs : (c.valueType? b).any (·.isScalar) = true
  · rw [conjureContents_of_scalar hs, contentsKey, if_pos hs]
    have hv := grows_symbolValue (symbol (request.symbol c b) c).1
      (symbol (request.symbol c b) c).2
    refine ⟨hgrow.trans hv, wellFormed_symbolValue hwf _, rfl, _,
      symbol_request_mono hv (hb.mono hgrow) hsym, shows_symbolValue _ _, fun h => ?_⟩
    rw [valueType?_mono (hgrow.trans hv) hb, hs] at h
    cases h
  · rw [conjureContents_of_not_scalar (Bool.eq_false_iff.2 hs), contentsKey, if_neg hs]
    exact ⟨hgrow, hwf, rfl, _, hsym, Or.inl rfl, fun _ => rfl⟩

/-! ### The loop -/

/-- The object holds what the request gave it, and nothing else is bound in it. -/
structure Renewed (s : Store) (request : Invalidation) (c : Catalog) (b : RegionId) : Prop where
  contents : ∃ v, s.bindings.get? (contentsKey c b) = some v ∧ IsContents request c b v
  alone {k : BindingKey} : b ∈ c.chain k.region → k ≠ contentsKey c b → s.bindings.get? k = none

/-- What is bound has numbers. -/
def KeysNamedIn (s : Store) (c : Catalog) : Prop :=
  ∀ k v, s.bindings.get? k = some v → c.Has k.region

theorem Renewed.mono (hcd : c ≤ d) (hb : c.Has b) (hs : s.KeysNamedIn c)
    (h : s.Renewed request c b) : s.Renewed request d b := by
  have hkey := contentsKey_mono hcd hb
  constructor
  · obtain ⟨v, hv, hcontents⟩ := h.contents
    exact ⟨v, by rw [hkey, hv], hcontents.mono hcd hb⟩
  · intro k hk hne
    rw [hkey] at hne
    cases hv : s.bindings.get? k with
    | none => rfl
    | some v =>
      rw [chain_mono hcd (hs k v hv)] at hk
      rw [h.alone hk hne] at hv
      cases hv

/-- Memory once an object is forgotten. -/
def renew (s : Store) (request : Invalidation) (c : Catalog) (o : RegionId) : Store :=
  ⟨(s.kill c o).bindings.insert (conjureContents o request c).1.1 (conjureContents o request c).1.2⟩

theorem get?_renew (hc : c.WellFormed) (ho : c.Has o) : (s.renew request c o).bindings.get? k =
      if k = contentsKey c o then some (conjureContents o request c).1.2
      else if o ∈ c.chain k.region then none else s.bindings.get? k := by
  rw [renew, OrderedMap.get?_insert, get?_kill, (conjureContents_spec request hc ho).2.2.1]

theorem keysNamedIn_renew (hc : c.WellFormed) (ho : c.Has o) (hs : s.KeysNamedIn c) :
    (s.renew request c o).KeysNamedIn (conjureContents o request c).2 := by
  intro k v hv
  have hgrow := (conjureContents_spec request hc ho).1
  rw [get?_renew hc ho] at hv
  split at hv
  · next hk =>
    rw [hk, contentsKey_region]
    exact ho.mono hgrow
  · split at hv
    · cases hv
    · exact (hs k v hv).mono hgrow

/-- A forgotten object holds fresh contents. -/
theorem renewed_renew (hc : c.WellFormed) (hb : c.Has b) (hs : s.KeysNamedIn c) :
    (s.renew request c b).Renewed request (conjureContents b request c).2 b := by
  obtain ⟨hgrow, -, -, hcontents⟩ := conjureContents_spec request hc hb
  have hkey := contentsKey_mono hgrow hb
  constructor
  · exact ⟨_, by rw [hkey, get?_renew hc hb, if_pos rfl], hcontents⟩
  · intro k hk hne
    rw [hkey] at hne
    rw [get?_renew hc hb, if_neg hne]
    split
    · rfl
    · next hin =>
      cases hv : s.bindings.get? k with
      | none => rfl
      | some v => exact absurd (chain_mono hgrow (hs k v hv) ▸ hk) hin

/-- Forgetting one object leaves the contents of another alone, unless the other lies in it. -/
theorem Renewed.renew (h : s.Renewed request c b) (hc : c.WellFormed) (hs : s.KeysNamedIn c)
    (hb : c.Has b) (ho : c.Has o) (hob : o ∉ c.chain b) (hbo : b ∉ c.chain o) :
    (s.renew request c o).Renewed request (conjureContents o request c).2 b := by
  have hgrow := (conjureContents_spec request hc ho).1
  have hne : contentsKey c b ≠ contentsKey c o := fun e => by
    have : b = o := by simpa using congrArg BindingKey.region e
    exact hob (this ▸ mem_chain_self)
  have hrenewed : (s.renew request c o).Renewed request c b := by
    constructor
    · obtain ⟨v, hv, hcontents⟩ := h.contents
      refine ⟨v, ?_, hcontents⟩
      rw [get?_renew hc ho, if_neg hne, contentsKey_region, if_neg hob, hv]
    · intro k hk hkne
      have hko : k ≠ contentsKey c o := fun e => by
        rw [e, contentsKey_region] at hk
        exact hbo hk
      rw [get?_renew hc ho, if_neg hko, h.alone hk hkne]
      split <;> rfl
  have hs' : (s.renew request c o).KeysNamedIn c := by
    intro k v hv
    rw [get?_renew hc ho] at hv
    split at hv
    · next hk => rwa [hk, contentsKey_region]
    · split at hv
      · cases hv
      · exact hs k v hv
  exact hrenewed.mono hgrow hb hs'

/-- The objects that an object points to in memory. -/
def targets (s : Store) (c : Catalog) (o : RegionId) : List RegionId :=
  (s.ofObject c o).filterMap fun v => v.region?.map c.base

/-- The number of bindings of objects that were not met yet. -/
def unmet (s : Store) (c : Catalog) (seen : List RegionId) : Nat :=
  s.bindings.entries.countP fun e => c.base e.1.region ∉ seen

theorem unmet_mono (hcd : c ≤ d) (hs : s.NamedIn c) (seen : List RegionId) :
    s.unmet d seen = s.unmet c seen := by
  refine countP_congr fun e he => ?_
  rw [base_mono hcd (hs.key he)]

theorem unmet_cons_le (s : Store) (c : Catalog) (seen : List RegionId) (o : RegionId) :
    s.unmet c (o :: seen) ≤ s.unmet c seen := by
  refine countP_mono_left fun e _ h => ?_
  rw [decide_eq_true_eq] at h ⊢
  exact fun hin => h (mem_cons_of_mem _ hin)

/-- A new object takes its bindings away from those that were not met yet, and every pointer that
is followed from it is one of them. -/
theorem length_targets_add_unmet_le {seen : List RegionId} (h : o ∉ seen) :
    (s.targets c o).length + s.unmet c (o :: seen) ≤ s.unmet c seen := by
  have hlen : (s.targets c o).length ≤ (s.ofObject c o).length := length_filterMap_le _ _
  refine (Nat.add_le_add_right hlen _).trans ?_
  unfold ofObject unmet
  induction s.bindings.entries with
  | nil => exact le_rfl
  | cons e es ih =>
    rw [filterMap_cons, countP_cons, countP_cons]
    by_cases he : c.base e.1.region = o
    · simp only [he, if_true, length_cons, h, mem_cons_self, not_true_eq_false,
        not_false_eq_true, decide_true, decide_false, Bool.false_eq_true, if_false]
      omega
    · simp only [he, if_false, mem_cons, false_or]
      simp only [mem_cons] at ih
      omega

/-- The invariant of the loop: the object `b` is waiting to be forgotten or holds its fresh
contents. Nothing that it lies in is waiting or pointed to. -/
structure Forgetting (before : Store) (request : Invalidation) (b : RegionId) (c : Catalog)
    (stack seen : List RegionId) (s : Store) : Prop where
  wellFormed : c.WellFormed
  named : before.NamedIn c
  keys : s.KeysNamedIn c
  has : c.Has b
  isObject : (c.region b).isPart = false
  notSpace : (c.region b).parent? ≠ none
  isMutable : isImmutable c b = false
  stack_has : ∀ o ∈ stack, c.Has o ∧ (c.region o).isPart = false
  stack_outside : ∀ o ∈ stack, o ∈ c.chain b → o = b
  pointers_outside : ∀ e ∈ before.bindings.entries, ∀ p ∈ e.2.region?,
    c.base p ∈ c.chain b → c.base p = b
  progress : b ∈ stack ∧ b ∉ seen ∨ b ∈ seen ∧ s.Renewed request c b

theorem isImmutable_mono (hcd : c ≤ d) (h : c.Has r) : isImmutable d r = isImmutable c r := by
  rw [isImmutable, isImmutable, space_mono hcd h]

theorem mem_targets (h : r ∈ s.targets c o) :
    ∃ e ∈ s.bindings.entries, ∃ p ∈ e.2.region?, r = c.base p := by
  obtain ⟨v, hv, hr⟩ := mem_filterMap.1 h
  obtain ⟨e, he, hev⟩ := mem_filterMap.1 hv
  obtain ⟨p, hp, rfl⟩ := Option.map_eq_some_iff.1 hr
  split at hev
  · obtain rfl := Option.some.inj hev
    exact ⟨e, he, p, hp, rfl⟩
  · cases hev

namespace Forgetting

variable {stack seen : List RegionId}

/-- An object that was forgotten before, or never changes, is passed over. -/
theorem skip (h : Forgetting before request b c (o :: stack) seen s)
    (ho : o ∈ seen ∨ isImmutable c o = true) :
    Forgetting before request b c stack (o :: seen) s := by
  refine { h with
    stack_has := fun p hp => h.stack_has p (mem_cons_of_mem _ hp)
    stack_outside := fun p hp => h.stack_outside p (mem_cons_of_mem _ hp)
    progress := ?_ }
  rcases h.progress with ⟨hb, hseen⟩ | ⟨hseen, hr⟩
  · have hne : b ≠ o := fun e => by
      subst e
      rcases ho with ho | ho
      · exact hseen ho
      · rw [h.isMutable] at ho
        cases ho
    refine Or.inl ⟨(mem_cons.1 hb).resolve_left hne, fun hb => ?_⟩
    exact (mem_cons.1 hb).elim hne hseen
  · exact Or.inr ⟨mem_cons_of_mem _ hseen, hr⟩

/-- An object is forgotten, and what it points to waits. -/
theorem renew (h : Forgetting before request b c (o :: stack) seen s) :
    Forgetting before request b (conjureContents o request c).2
      ((before.targets c o).reverse ++ stack) (o :: seen) (s.renew request c o) := by
  obtain ⟨hohas, hopart⟩ := h.stack_has o mem_cons_self
  obtain ⟨hgrow, hwf, -, -⟩ := conjureContents_spec request h.wellFormed hohas
  have hregion := region_mono hgrow h.has
  have hstack : ∀ p ∈ (before.targets c o).reverse ++ stack,
      (c.Has p ∧ (c.region p).isPart = false) ∧ (p ∈ c.chain b → p = b) := fun p hp => by
    rcases mem_append.1 hp with hp | hp
    · obtain ⟨e, he, r, hr, rfl⟩ := mem_targets (mem_reverse.1 hp)
      exact ⟨⟨(h.named.pointer he hr).base h.wellFormed, isPart_base h.wellFormed r⟩,
        h.pointers_outside e he r hr⟩
    · exact ⟨h.stack_has p (mem_cons_of_mem _ hp),
        h.stack_outside p (mem_cons_of_mem _ hp)⟩
  refine
    { wellFormed := hwf
      named := ⟨fun he => (h.named.key he).mono hgrow, fun he hp => (h.named.pointer he hp).mono hgrow⟩
      keys := keysNamedIn_renew h.wellFormed hohas h.keys
      has := h.has.mono hgrow
      isObject := by rw [hregion]; exact h.isObject
      notSpace := by rw [hregion]; exact h.notSpace
      isMutable := by rw [isImmutable_mono hgrow h.has]; exact h.isMutable
      stack_has := fun p hp => ?_
      stack_outside := fun p hp => ?_
      pointers_outside := fun e he p hp => ?_
      progress := ?_ }
  · obtain ⟨⟨hp, hpart⟩, -⟩ := hstack p hp
    exact ⟨hp.mono hgrow, by rw [region_mono hgrow hp]; exact hpart⟩
  · rw [chain_mono hgrow h.has]
    exact (hstack p hp).2
  · rw [chain_mono hgrow h.has, base_mono hgrow (h.named.pointer he hp)]
    exact h.pointers_outside e he p hp
  · by_cases hob : o = b
    · subst hob
      exact Or.inr ⟨mem_cons_self, renewed_renew h.wellFormed h.has h.keys⟩
    · rcases h.progress with ⟨hb, hseen⟩ | ⟨hseen, hr⟩
      · refine Or.inl ⟨mem_append_right _ ((mem_cons.1 hb).resolve_left fun e => hob e.symm),
          fun hb => ?_⟩
        exact (mem_cons.1 hb).elim (fun e => hob e.symm) hseen
      · refine Or.inr ⟨mem_cons_of_mem _ hseen, ?_⟩
        -- neither of two objects lies in the other
        have hbo : b ∉ c.chain o := fun hbo => by
          have := base_eq_of_mem_chain h.wellFormed h.isObject h.notSpace hbo
          rw [base_of_not_part hopart] at this
          exact hob this
        exact hr.renew h.wellFormed h.keys h.has hohas
          (fun hin => hob (h.stack_outside o mem_cons_self hin)) hbo

/-- The steps are enough for the loop to forget the object. -/
theorem forget_spec {steps : Nat} (symbols : List SymbolId)
    (h : Forgetting before request b c stack seen s)
    (hsteps : stack.length + before.unmet c seen ≤ steps) :
    let out := forget before request steps stack seen s symbols c
    c ≤ out.2 ∧ out.2.WellFormed ∧ out.1.1.KeysNamedIn out.2 ∧ out.1.1.Renewed request out.2 b := by
  induction steps generalizing stack seen s symbols c with
  | zero =>
    obtain rfl : stack = [] := length_eq_zero_iff.1 (by omega)
    have hr := (h.progress.resolve_left fun hb => nomatch hb.1).2
    exact ⟨le_rfl, h.wellFormed, h.keys, hr⟩
  | succ steps ih =>
    cases stack with
    | nil =>
      have hr := (h.progress.resolve_left fun hb => nomatch hb.1).2
      exact ⟨le_rfl, h.wellFormed, h.keys, hr⟩
    | cons o stack =>
      rw [length_cons] at hsteps
      unfold forget
      rw [bind_apply, query_apply]
      by_cases hskip : (seen.contains o || isImmutable c o) = true
      · rw [if_pos hskip]
        have ho : o ∈ seen ∨ isImmutable c o = true := by
          rwa [Bool.or_eq_true, contains_iff_mem] at hskip
        have := before.unmet_cons_le c seen o
        exact ih symbols (h.skip ho) (by omega)
      · rw [if_neg hskip]
        have ho : o ∉ seen := fun ho => hskip (by rw [contains_iff_mem.2 ho]; rfl)
        have hlen := length_targets_add_unmet_le (s := before) (c := c) ho
        have hgrow := (conjureContents_spec request h.wellFormed (h.stack_has o mem_cons_self).1).1
        have hrun := ih (symbols ++ (before.ofObject c o).filterMap (shownSymbol? c)) h.renew (by
          rw [unmet_mono hgrow h.named, length_append, length_reverse]
          omega)
        exact ⟨hgrow.trans hrun.1, hrun.2⟩

end Forgetting

/-! ### Requests -/

/-- The objects of the global variables are named as variables. -/
theorem mapM_var_spec (frame : FrameId) (vars : List VarId) (hc : c.WellFormed) :
    let out := (vars.mapM fun v => var v frame : Naming (List RegionId)) c
    c ≤ out.2 ∧ out.2.WellFormed ∧ ∀ o ∈ out.1, ∃ v p, out.2.region o = .var v p := by
  induction vars generalizing c with
  | nil => exact ⟨le_rfl, hc, fun _ h => nomatch h⟩
  | cons v vars ih =>
    rw [mapM_cons]
    have hgrow := grows_var v frame c
    obtain ⟨hle, hwf, hvars⟩ := ih (wellFormed_var hc v frame)
    refine ⟨hgrow.trans hle, hwf, fun o ho => ?_⟩
    rcases mem_cons.1 ho with rfl | ho
    · have hregion : ∃ p, (var v frame c).2.region (var v frame c).1 = .var v p :=
        ⟨_, region_region _ _⟩
      obtain ⟨p, hp⟩ := hregion
      refine ⟨v, p, ?_⟩
      exact (region_mono hle (has_region _ _)).trans hp
    · exact hvars o ho

/-- The objects that a request starts from are those of its regions and global variables. -/
theorem invalidationRoots_spec (request : Invalidation) (hc : c.WellFormed) :
    let out := invalidationRoots request c
    c ≤ out.2 ∧ out.2.WellFormed ∧ (∀ r ∈ request.regions, c.base r ∈ out.1) ∧
      ∀ o ∈ out.1, (∃ r ∈ request.regions, o = c.base r) ∨ ∃ v p, out.2.region o = .var v p := by
  unfold invalidationRoots
  rw [bind_apply, query_apply]
  have hgiven : ∀ o ∈ request.regions.map c.base, ∃ r ∈ request.regions, o = c.base r :=
    fun o ho => by
      obtain ⟨r, hr, rfl⟩ := mem_map.1 ho
      exact ⟨r, hr, rfl⟩
  by_cases hg : request.includeGlobals = true
  · rw [if_pos hg]
    obtain ⟨hle, hwf, hvars⟩ := mapM_var_spec request.frame c.program.globalVars hc
    refine ⟨hle, hwf, fun r hr => mem_append_left _ (mem_map_of_mem hr), fun o ho => ?_⟩
    rcases mem_append.1 ho with ho | ho
    · exact Or.inl (hgiven o ho)
    · exact Or.inr (hvars o ho)
  · rw [if_neg hg]
    exact ⟨le_rfl, hc, fun r hr => mem_map_of_mem hr, fun o ho => Or.inl (hgiven o ho)⟩

/-- A request forgets the objects of its regions, if nothing that they lie in is forgotten too. -/
theorem invalidate_spec (request : Invalidation) (hc : c.WellFormed) (hs : s.NamedIn c)
    (hregions : ∀ r ∈ request.regions, c.Has r) (hr : r ∈ request.regions)
    (hspace : (c.region (c.base r)).parent? ≠ none) (hmut : isImmutable c r = false)
    (hfree : ∀ p, p ∈ request.regions ∨ (∃ k, (k, .pointer p) ∈ s.bindings.entries) →
      c.isInside (c.base r) (c.base p) = false) :
    let out := s.invalidate request c
    c ≤ out.2 ∧ out.2.WellFormed ∧ out.1.1.KeysNamedIn out.2 ∧
      out.1.1.Renewed request out.2 (c.base r) := by
  obtain ⟨hle, hwf, hroots, hcases⟩ := invalidationRoots_spec request hc
  have hb : c.Has (c.base r) := (hregions r hr).base hc
  have hregion := region_mono hle hb
  have hchain := chain_mono hle hb
  have houtside : ∀ p, p ∈ request.regions ∨ (∃ k, (k, .pointer p) ∈ s.bindings.entries) →
      c.base p ∈ c.chain (c.base r) → c.base p = c.base r := fun p hp hin => by
    by_contra hne
    have := isInside_iff.2 ⟨hin, hne⟩
    rw [hfree p hp] at this
    cases this
  have hvar : ∀ {o v p}, (invalidationRoots request c).2.region o = .var v p →
      o ∈ (invalidationRoots request c).2.chain (c.base r) → o = c.base r := fun ho hin => by
    have he := base_eq_of_mem_chain hwf (by rw [ho]; rfl) (by rw [ho]; nofun) hin
    rw [← he, base_mono hle hb, base_base hc]
  have hstart : Forgetting s request (c.base r) (invalidationRoots request c).2
      (invalidationRoots request c).1.reverse [] s :=
    { wellFormed := hwf
      named := ⟨fun he => (hs.key he).mono hle, fun he hp => (hs.pointer he hp).mono hle⟩
      keys := fun k v hv => (hs.has hv).mono hle
      has := hb.mono hle
      isObject := by rw [hregion]; exact isPart_base hc r
      notSpace := by rw [hregion]; exact hspace
      isMutable := by
        rw [isImmutable_mono hle hb]
        rw [isImmutable] at hmut ⊢
        rwa [space_base hc]
      stack_has := fun o ho => by
        rcases hcases o (mem_reverse.1 ho) with ⟨p, hp, rfl⟩ | ⟨v, p, ho⟩
        · have hhas := (hregions p hp).base hc
          exact ⟨hhas.mono hle, by rw [region_mono hle hhas]; exact isPart_base hc p⟩
        · exact ⟨has_of_parent? (p := p) (by rw [ho]; rfl), by rw [ho]; rfl⟩
      stack_outside := fun o ho => by
        rcases hcases o (mem_reverse.1 ho) with ⟨p, hp, rfl⟩ | ⟨v, p, ho⟩
        · rw [hchain]
          exact houtside p (Or.inl hp)
        · exact hvar ho
      pointers_outside := fun e he p hp => by
        rw [hchain, base_mono hle (hs.pointer he hp)]
        exact houtside p (Or.inr ⟨e.1, Value.eq_pointer_of_region? hp ▸ he⟩)
      progress := Or.inl ⟨mem_reverse.2 (hroots r hr), not_mem_nil⟩ }
  have hsteps : (invalidationRoots request c).1.reverse.length +
      s.unmet (invalidationRoots request c).2 [] ≤
        (invalidationRoots request c).1.length + s.bindings.size := by
    rw [length_reverse]
    exact Nat.add_le_add_left countP_le_length _
  obtain ⟨hle', hrest⟩ := hstart.forget_spec [] hsteps
  exact ⟨hle.trans hle', hrest⟩

theorem grows_conjureContents (b : RegionId) (request : Invalidation) :
    (conjureContents b request).Grows :=
  (grows_query _).bind fun _ => (grows_symbol _).bind fun _ =>
    .ite ((grows_symbolValue _).bind fun _ => grows_pure _) (grows_pure _)

theorem grows_forget (before : Store) (request : Invalidation) (steps : Nat)
    (stack seen : List RegionId) (s : Store) (symbols : List SymbolId) :
    (forget before request steps stack seen s symbols).Grows := by
  induction steps generalizing stack seen s symbols with
  | zero => exact grows_pure _
  | succ steps ih =>
    cases stack with
    | nil => exact grows_pure _
    | cons o stack =>
      refine (grows_query _).bind fun _ => .ite (ih _ _ _ _) ?_
      refine (grows_query _).bind fun _ => (grows_query _).bind fun _ => ?_
      exact (grows_conjureContents o request).bind fun _ => ih _ _ _ _

theorem grows_invalidate (s : Store) (request : Invalidation) : (s.invalidate request).Grows := by
  refine Naming.Grows.bind ?_ fun _ => grows_forget _ _ _ _ _ _ _
  refine (grows_query _).bind fun _ => .ite ?_ (grows_pure _)
  exact (grows_query _).bind fun _ =>
    (Naming.Grows.mapM (fun v => grows_var v _) _).bind fun _ => grows_pure _

/-! ### Reading what was forgotten -/

/-- Where no part of an object has a default, the nearest one is that of the object. -/
theorem nearestDefault?_of_base (hd : d.WellFormed)
    (h : ∀ m, d.base m = b → m ≠ b → s.default? m = none) (hq : d.base q = b) :
    nearestDefault? d s.bindings.entries q = (s.default? b).map (b, ·) := by
  induction q using part_induction hd with
  | object q hpart =>
    rw [base_of_not_part hpart] at hq
    rw [hq] at hpart ⊢
    exact nearestDefault?_of_not_part hpart
  | part q p hpart hp ih =>
    have hne : q ≠ b := fun e => by
      have := isPart_base hd q
      rw [hq, ← e, hpart] at this
      cases this
    have hnone : OrderedMap.lookup (.default q) s.bindings.entries = none := h q hq hne
    rw [nearestDefault?_of_part hpart hp, hnone]
    exact ih (base_of_part hd hpart hp ▸ hq)

/-- The characters of a literal are known. -/
theorem not_shows_literalByte? (h : literalByte? c r = some v) : ¬v.Shows d x := by
  unfold literalByte? at h
  rintro (rfl | ⟨p, q, rfl, -⟩)
  all_goals
    split at h
    · split at h
      · split at h
        · simp only at h
          split at h
          · cases h
          · split at h <;> cases h
        · cases h
      · cases h
    · cases h

/-- What was never written is known, or it is the symbol of the region. -/
theorem initialValue_cases (q : RegionId) (t : CType) (d : Catalog) :
    (∀ x, ¬(initialValue q t d).1.Shows (initialValue q t d).2 x) ∨
      initialValue q t d = regionValue q t d := by
  unfold initialValue
  rw [bind_apply, query_apply]
  cases hv : literalByte? d q with
  | some v => exact Or.inl fun x => not_shows_literalByte? hv
  | none =>
    simp only [bind_apply, query_apply]
    cases d.space q with
    | locals f | code => exact Or.inl fun x h => by rcases h with h | ⟨r, p, h, -⟩ <;> cases h
    | _ => exact Or.inr rfl

/-- What was never written is not fresh. -/
theorem not_fresh_initialValue (request : Invalidation) (b q : RegionId) (d : Catalog)
    (ht : t.isScalar = true) :
    ¬request.Fresh (initialValue q t d).2 b (initialValue q t d).1 := by
  rintro ⟨x, hshows, hx⟩
  rcases initialValue_cases q t d with h | h
  · exact h x hshows
  · rw [h] at hshows hx
    obtain ⟨y, hy, hhas, hsymbol, hle⟩ := shows_scalarValue (a := .regionValue q t) ht d
    obtain rfl := hshows.unique hy
    have hregion : (regionValue q t d).2.symbol x = .regionValue q t :=
      (symbol_mono hle hhas).trans hsymbol
    rw [hregion] at hx
    rcases hx with hx | ⟨z, p, u, hx, -⟩ <;> cases hx

/-- A renewed object that is no scalar gives all its parts values that come from its symbol. -/
theorem Renewed.fresh_of_not_scalar (hd : d.WellFormed) (h : s.Renewed request d b)
    (hhas : d.Has b) (hb : (d.valueType? b).any (·.isScalar) = false) (hq : d.base q = b)
    (ht : t.isScalar = true) :
    request.Fresh (s.retrieve (.region q) t d).2 b (s.retrieve (.region q) t d).1 := by
  obtain ⟨v, hv, x, hx, -, hsymbol⟩ := h.contents
  have hkey : contentsKey d b = .default b := if_neg (Bool.eq_false_iff.1 hb)
  obtain rfl := hsymbol hb
  rw [hkey] at hv
  have hdirect : s.direct? q = none :=
    h.alone (k := .direct q) (hq ▸ base_mem_chain hd q) (hkey ▸ BindingKey.direct_ne_default q b)
  have hn : nearestDefault? d s.bindings.entries q = some (b, .symbol x) := by
    rw [nearestDefault?_of_base hd (fun m hm hne => ?_) hq, default?, hv]
    · rfl
    · refine h.alone (k := .default m) (hm ▸ base_mem_chain hd m) fun e => ?_
      rw [hkey] at e
      exact hne (congrArg BindingKey.region e)
  rw [retrieve, retrieveFrom_of_symbol ht hdirect hn]
  split
  · have hgrow := grows_symbolValue x d
    exact ⟨x, shows_symbolValue x d, Or.inl (symbol_request_mono hgrow hhas hx)⟩
  · obtain ⟨y, hy, hyhas, hysymbol, hle⟩ := shows_scalarValue (a := .derived x q t) ht d
    have hgrow := (grows_symbol (.derived x q t) d).trans hle
    exact ⟨y, hy, Or.inr ⟨x, q, t, (symbol_mono hle hyhas).trans hysymbol,
      symbol_request_mono hgrow hhas hx⟩⟩

theorem Renewed.fresh_of_scalar (h : s.Renewed request d b)
    (hb : (d.valueType? b).any (·.isScalar) = true) (ht : t.isScalar = true) :
    request.Fresh (s.retrieve (.region b) t d).2 b (s.retrieve (.region b) t d).1 := by
  obtain ⟨v, hv, x, hx, hshows, -⟩ := h.contents
  rw [contentsKey, if_pos hb] at hv
  rw [retrieve, retrieveFrom_of_direct ht hv, hshows.fit_eq]
  exact ⟨x, hshows, Or.inl hx⟩

/-- The parts that a renewed scalar is reinterpreted as are read as if it had never been written. -/
theorem Renewed.retrieve_of_scalar (hd : d.WellFormed) (h : s.Renewed request d b)
    (hb : (d.valueType? b).any (·.isScalar) = true) (hq : d.base q = b) (hne : q ≠ b)
    (ht : t.isScalar = true) : s.retrieve (.region q) t d = initialValue q t d := by
  have hkey : contentsKey d b = .direct b := if_pos hb
  have hdefault : ∀ m, d.base m = b → s.default? m = none := fun m hm =>
    h.alone (k := .default m) (hm ▸ base_mem_chain hd m)
      (hkey ▸ (BindingKey.direct_ne_default b m).symm)
  have hdirect : s.direct? q = none :=
    h.alone (k := .direct q) (hq ▸ base_mem_chain hd q) fun e => by
      rw [hkey] at e
      exact hne (congrArg BindingKey.region e)
  have hn := nearestDefault?_of_base hd (fun m hm _ => hdefault m hm) hq
  have hbase : d.base b = b := by rw [← hq, base_base hd]
  rw [hdefault b hbase] at hn
  exact retrieveFrom_of_none ht hdirect hn

/-- **What is read in a forgotten object.** A request forgets the object of each of its regions that
can change, as long as it does not forget a memory space that the object lies in as well. Whatever
is read in the object afterwards, at a scalar type and in any later catalog, is a fresh value of the
request, with one exception: what lies in a scalar is never fresh. -/
theorem retrieve_invalidate_fresh_iff (hd : d.WellFormed) (hle : (s.invalidate request c).2 ≤ d)
    (hs : s.NamedIn c) (hregions : ∀ r ∈ request.regions, c.Has r) (hr : r ∈ request.regions)
    (hspace : (c.region (c.base r)).parent? ≠ none) (hmut : isImmutable c r = false)
    (hfree : ∀ p, p ∈ request.regions ∨ (∃ k, (k, .pointer p) ∈ s.bindings.entries) →
      c.isInside (c.base r) (c.base p) = false)
    (hq : c.base r ∈ d.chain q) (ht : t.isScalar = true) :
    request.Fresh ((s.invalidate request c).1.1.retrieve (.region q) t d).2 (c.base r)
        ((s.invalidate request c).1.1.retrieve (.region q) t d).1 ↔
      q = c.base r ∨ (c.valueType? (c.base r)).any (·.isScalar) = false := by
  have hcd : c ≤ d := (grows_invalidate s request c).trans hle
  have hc : c.WellFormed := hd.of_le hcd
  have hb : c.Has (c.base r) := (hregions r hr).base hc
  obtain ⟨hgrow, -, hkeys, hrenewed⟩ := invalidate_spec request hc hs hregions hr hspace hmut hfree
  have h := hrenewed.mono hle (hb.mono hgrow) hkeys
  have hbase : d.base q = c.base r := by
    refine base_eq_of_mem_chain hd ?_ ?_ hq
    · rw [region_mono hcd hb]
      exact isPart_base hc r
    · rwa [region_mono hcd hb]
  rw [← valueType?_mono hcd hb]
  by_cases hscalar : (d.valueType? (c.base r)).any (·.isScalar) = true
  · rw [hscalar]
    constructor
    · intro hfresh
      by_contra hne
      rw [h.retrieve_of_scalar hd hscalar hbase (fun e => hne (Or.inl e)) ht] at hfresh
      exact not_fresh_initialValue request _ _ _ ht hfresh
    · rintro (rfl | hfalse)
      · exact h.fresh_of_scalar hscalar ht
      · cases hfalse
  · have hfalse := Bool.eq_false_iff.2 hscalar
    exact iff_of_true (h.fresh_of_not_scalar hd (hb.mono hcd) hfalse hbase ht) (Or.inr hfalse)

/-! ### A scalar and a structure -/

/-- A program with the local variables `x` of type `int` and `y` of a structure type. -/
def twoVarProgram : Program where
  file := ""
  vars := #[⟨"x", .int, .local, none, default⟩, ⟨"y", .struct "S", .local, none, default⟩]
  structs := #[⟨"S", [⟨"f", .int⟩], default⟩]

/-- The variables are the regions 1 and 2; the region 3 is the first character of `x`, and the
region 4 is the field of `y`. -/
def twoVarCatalog : Catalog where
  program := twoVarProgram
  regions := .ofList
    [.space (.locals ⟨0⟩), .var ⟨0⟩ ⟨0⟩, .var ⟨1⟩ ⟨0⟩, .element .char (.known 0) ⟨1⟩,
      .field ⟨⟨0⟩, 0⟩ ⟨2⟩] (by decide)
  symbols := ∅

/-- Memory where both variables were written. -/
def twoVarStore : Store := ⟨⟨[(.direct ⟨1⟩, .int 7), (.direct ⟨4⟩, .pointer ⟨1⟩)]⟩⟩

/-- A request to forget some regions. -/
def requestOf (regions : List RegionId) : Invalidation := ⟨regions, ⟨0⟩, ⟨0⟩, 1, false⟩

/-- What is needed to forget the field of `y`, and what its field holds then. -/
theorem retrieve_invalidate_field :
    let out := twoVarStore.invalidate (requestOf [⟨4⟩]) twoVarCatalog
    out.2.WellFormed ∧ twoVarStore.NamedIn twoVarCatalog ∧
      isImmutable twoVarCatalog ⟨4⟩ = false ∧ twoVarCatalog.base ⟨4⟩ ∈ out.2.chain ⟨4⟩ ∧
      (requestOf [⟨4⟩]).Fresh (out.1.1.retrieve (.region ⟨4⟩) .int out.2).2 (twoVarCatalog.base ⟨4⟩)
        (out.1.1.retrieve (.region ⟨4⟩) .int out.2).1 := by
  have hwf : (twoVarStore.invalidate (requestOf [⟨4⟩]) twoVarCatalog).2.WellFormed := by decide +kernel
  have hnamed : twoVarStore.NamedIn twoVarCatalog := by decide
  have hmut : isImmutable twoVarCatalog ⟨4⟩ = false := by decide +kernel
  have hmem : twoVarCatalog.base ⟨4⟩ ∈
      (twoVarStore.invalidate (requestOf [⟨4⟩]) twoVarCatalog).2.chain ⟨4⟩ := by decide +kernel
  -- the only pointer in memory is to the other variable
  have hfree : ∀ p, p ∈ (requestOf [⟨4⟩]).regions ∨
      (∃ k, (k, .pointer p) ∈ twoVarStore.bindings.entries) →
      twoVarCatalog.isInside (twoVarCatalog.base ⟨4⟩) (twoVarCatalog.base p) = false := by
    rintro p (hp | ⟨k, hp⟩)
    · cases mem_singleton.1 hp
      decide +kernel
    · rcases mem_cons.1 hp with hp | hp
      · cases hp
      · cases mem_singleton.1 hp
        decide +kernel
  refine ⟨hwf, hnamed, hmut, hmem, ?_⟩
  exact (retrieve_invalidate_fresh_iff hwf le_rfl hnamed (by decide) mem_cons_self
    (by decide +kernel) hmut hfree hmem rfl).2 (.inr (by decide +kernel))

/-- The first character of `x` is not fresh once `x` is forgotten: it is undefined. -/
theorem retrieve_invalidate_character :
    let out := twoVarStore.invalidate (requestOf [⟨1⟩]) twoVarCatalog
    (out.1.1.retrieve (.region ⟨3⟩) .char out.2).1 = .undefined := by
  decide +kernel

end Store

end PathScout

import PathScout.Proofs.CatalogLaws
import PathScout.Proofs.MapLaws

/-!
# Laws of memory

What writing does to the bindings, and which binding reading a scalar comes from.

* `Store.get?_kill`, `Store.bind_eq_insert`, `Store.bind_eq_kill_insert`: bindings after a write.
* `Store.nearestDefault?_of_part`, `Store.nearestDefault?_of_not_part`: the search for a default.
* `Store.retrieveFrom_of_direct`, `retrieveFrom_of_symbol`, `retrieveFrom_of_snapshot`,
  `retrieveFrom_of_none`: the four ways to read a scalar.
-/

namespace PathScout

open Catalog List Naming OrderedMap Bool

theorem CType.isStruct_of_isScalar {t : CType} (h : t.isScalar = true) : t.isStruct = false := by
  cases t <;> first | rfl | cases h

theorem CType.isArray_of_isScalar {t : CType} (h : t.isScalar = true) : t.isArray = false := by
  cases t <;> first | rfl | cases h

theorem BindingKey.direct_ne_default (r q : RegionId) : direct r ≠ default q := fun h => by
  cases congrArg kind h

namespace Store

variable {c : Catalog} {s : Store} {r q p : RegionId} {t : CType} {v : Value} {k : BindingKey}
  {bindings : List (BindingKey × Value)}

/-- The regions that memory binds and the regions that it points to all have numbers. -/
structure NamedIn (s : Store) (c : Catalog) : Prop where
  key {e : BindingKey × Value} : e ∈ s.bindings.entries → c.Has e.1.region
  pointer {e : BindingKey × Value} {p : RegionId} :
    e ∈ s.bindings.entries → e.2.region? = some p → c.Has p

theorem namedIn_iff : s.NamedIn c ↔
    ∀ e ∈ s.bindings.entries, c.Has e.1.region ∧ ∀ p ∈ e.2.region?, c.Has p :=
  ⟨fun h _ he => ⟨h.key he, fun _ hp => h.pointer he hp⟩,
    fun h => ⟨fun he => (h _ he).1, fun he hp => (h _ he).2 _ hp⟩⟩

instance : Decidable (s.NamedIn c) := decidable_of_iff' _ namedIn_iff

theorem NamedIn.has (h : s.NamedIn c) (hk : s.bindings.get? k = some v) : c.Has k.region :=
  h.key (mem_of_lookup_eq hk)

theorem mem_ofObject_iff {o : RegionId} : v ∈ s.ofObject c o ↔
    ∃ k, (k, v) ∈ s.bindings.entries ∧ c.base k.region = o := by
  constructor
  · intro h
    obtain ⟨e, he, hev⟩ := mem_filterMap.1 h
    obtain ⟨hbase, rfl⟩ : c.base e.1.region = o ∧ e.2 = v := by simpa using hev
    exact ⟨e.1, he, hbase⟩
  · rintro ⟨k, hk, rfl⟩
    exact mem_filterMap.2 ⟨_, hk, if_pos rfl⟩

/-! ### Writing -/

/-- Of the bindings, exactly those of the region and its parts are forgotten. -/
theorem get?_kill (s : Store) (c : Catalog) (r : RegionId) (k : BindingKey) :
    (s.kill c r).bindings.get? k = if r ∈ c.chain k.region then none else s.bindings.get? k := by
  have hf : (s.kill c r).bindings.get? k = _ :=
    get?_filter fun k : BindingKey => k.region != r && !c.isInside k.region r
  have h : (k.region != r && !c.isInside k.region r) = true ↔ r ∉ c.chain k.region := by
    rw [and_eq_true, bne_iff_ne, not_eq_true', eq_false_iff, Ne.eq_1 (c.isInside _ _),
      isInside_iff]
    constructor
    · rintro ⟨hne, hin⟩ hmem
      exact hin ⟨hmem, fun e => hne e.symm⟩
    · intro hmem
      exact ⟨fun e => hmem (e ▸ mem_chain_self), fun hin => hmem hin.1⟩
  by_cases hr : r ∈ c.chain k.region
  · rw [hf, if_pos hr, if_neg fun hk => h.1 hk hr]
  · rw [hf, if_neg hr, if_pos (h.2 hr)]

theorem bind_eq_insert (h : setsWhole v (c.valueType? r) = false) :
    s.bind c (.region r) v = ⟨s.bindings.insert (.direct r) v⟩ := by
  show (if setsWhole v (c.valueType? r) = true then _ else _) = _
  rw [h]
  rfl

theorem bind_eq_kill_insert (h : setsWhole v (c.valueType? r) = true) :
    s.bind c (.region r) v = ⟨(s.kill c r).bindings.insert (.default r) v⟩ := if_pos h

/-- A write leaves the bindings alone that are not of the region or its parts. -/
theorem get?_bind_of_not_mem (h : r ∉ c.chain k.region) :
    (s.bind c (.region r) v).bindings.get? k = s.bindings.get? k := by
  have hne : k.region ≠ r := fun e => h (e ▸ mem_chain_self)
  by_cases hw : setsWhole v (c.valueType? r) = true
  · rw [bind_eq_kill_insert hw, get?_insert_of_ne fun e => hne (congrArg _ e), get?_kill,
      if_neg h]
  · rw [bind_eq_insert (eq_false_iff.2 hw),
      get?_insert_of_ne fun e => hne (congrArg _ e)]

/-! ### Searching for a default -/

theorem nearestDefault?_of_not_part (h : (c.region r).isPart = false) :
    nearestDefault? c bindings r = (OrderedMap.lookup (.default r) bindings).map (r, ·) := by
  rw [nearestDefault?, layers_of_not_part h, findSome?_cons, findSome?_nil]
  cases (OrderedMap.lookup (.default r) bindings) <;> rfl

/-- The default of the region itself is the nearest. -/
theorem nearestDefault?_self (h : OrderedMap.lookup (.default r) bindings = some v) :
    nearestDefault? c bindings r = some (r, v) := by
  have hl : (c.layers r).head? = some r := by
    rw [Catalog.layers]
    cases hr : c.enclosing? r with
    | none => rw [chain_of_none hr, take_succ_cons, head?_cons]
    | some p => rw [chain_of_some hr, take_succ_cons, head?_cons]
  obtain ⟨rest, hrest⟩ := head?_eq_some_iff.1 hl
  rw [nearestDefault?, hrest, findSome?_cons, h]
  rfl

theorem nearestDefault?_of_part (h : (c.region r).isPart = true) (hr : c.enclosing? r = some p) :
    nearestDefault? c bindings r =
      ((OrderedMap.lookup (.default r) bindings).map (r, ·)).or (nearestDefault? c bindings p) := by
  rw [nearestDefault?, nearestDefault?, layers_of_part h hr, findSome?_cons]
  cases (OrderedMap.lookup (.default r) bindings) <;> rfl

/-! ### Reading a scalar -/

theorem retrieveFrom_of_direct (ht : t.isScalar = true)
    (hd : OrderedMap.lookup (.direct r) bindings = some v) :
    retrieveFrom bindings r t c = (fit v t, c) := by
  rw [retrieveFrom, hd]
  simp [CType.isStruct_of_isScalar ht, CType.isArray_of_isScalar ht]

section

variable (ht : t.isScalar = true) (hd : OrderedMap.lookup (.direct r) bindings = none)
include ht hd

/-- A scalar without a binding of its own comes from the nearest default. -/
theorem retrieveFrom_of_default : retrieveFrom bindings r t c = match nearestDefault? c bindings r with
      | none => initialValue r t c
      | some (q, .symbol x) =>
        if q = r ∧ (c.symbol x).type = t then symbolValue x c
        else derivedValue x r t c
      | some (q, .snapshot inner source) =>
        retrieveFrom inner (rebase r q source c).1 t (rebase r q source c).2
      | some (_, v) => (fit v t, c) := by
  rw [retrieveFrom, hd]
  simp only [CType.isStruct_of_isScalar ht, CType.isArray_of_isScalar ht, false_eq_true, if_false]
  split <;> simp_all
  rfl

theorem retrieveFrom_of_none (hn : nearestDefault? c bindings r = none) :
    retrieveFrom bindings r t c = initialValue r t c := by
  rw [retrieveFrom_of_default ht hd, hn]

theorem retrieveFrom_of_symbol {x : SymbolId} (hn : nearestDefault? c bindings r = some (q, .symbol x)) :
    retrieveFrom bindings r t c = if q = r ∧ (c.symbol x).type = t then Naming.symbolValue x c
      else Naming.derivedValue x r t c := by
  rw [retrieveFrom_of_default ht hd, hn]

theorem retrieveFrom_of_snapshot {inner : List (BindingKey × Value)} {source : RegionId}
    (hn : nearestDefault? c bindings r = some (q, .snapshot inner source)) :
    retrieveFrom bindings r t c =
      retrieveFrom inner (Naming.rebase r q source c).1 t (Naming.rebase r q source c).2 := by
  rw [retrieveFrom_of_default ht hd, hn]

end

/-- A region around which there is nothing nearer is where the nearest default comes from. -/
theorem nearestDefault?_of_mem_layers (hc : c.WellFormed) (hq : r ∈ c.layers q)
    (hr : OrderedMap.lookup (.default r) bindings = some v)
    (hnone : ∀ m ∈ c.layers q, r ∈ c.chain m → m ≠ r → OrderedMap.lookup (.default m) bindings = none) :
    nearestDefault? c bindings q = some (r, v) := by
  induction q using part_induction hc with
  | object q hpart =>
    rw [layers_of_not_part hpart] at hq
    obtain rfl := mem_singleton.1 hq
    exact nearestDefault?_self hr
  | part q p hpart hp ih =>
    by_cases hne : q = r
    · subst hne
      exact nearestDefault?_self hr
    · have hlayers := layers_of_part hpart hp
      rw [nearestDefault?_of_part hpart hp,
        hnone q (mem_layers_self hc q) (mem_chain_of_mem_layers hq) hne,
        ih ((mem_cons.1 (hlayers ▸ hq)).resolve_left fun h => hne h.symm) fun m hm =>
          hnone m (hlayers ▸ mem_cons_of_mem _ hm)]
      rfl

/-- The nearest default depends on the defaults of the region and of the parts that it lies in. -/
theorem nearestDefault?_congr {bindings' : List (BindingKey × Value)}
    (h : ∀ m ∈ c.layers r, OrderedMap.lookup (.default m) bindings =
      OrderedMap.lookup (.default m) bindings') :
    nearestDefault? c bindings r = nearestDefault? c bindings' r := by
  unfold nearestDefault?
  revert h
  generalize c.layers r = ms
  intro h
  induction ms with
  | nil => rfl
  | cons m ms ih =>
    rw [findSome?_cons, findSome?_cons, h m mem_cons_self, ih fun m hm => h m (mem_cons_of_mem _ hm)]

/-- What a scalar reads as depends only on its own binding and on the defaults around it. -/
theorem retrieve_congr {s' : Store} (ht : t.isScalar = true) (hdirect : s.direct? r = s'.direct? r)
    (hdefault : ∀ m ∈ c.layers r, s.default? m = s'.default? m) :
    s.retrieve (.region r) t c = s'.retrieve (.region r) t c := by
  rw [retrieve, retrieve]
  cases hr : s.direct? r with
  | some w => rw [retrieveFrom_of_direct ht hr, retrieveFrom_of_direct ht (hdirect.symm.trans hr)]
  | none =>
    rw [retrieveFrom_of_default ht hr, retrieveFrom_of_default ht (hdirect.symm.trans hr),
      nearestDefault?_congr hdefault]

/-- What a scalar value is written to holds it. -/
theorem retrieve_bind_self {d : Catalog} (h : setsWhole v (c.valueType? r) = false)
    (ht : t.isScalar = true) : (s.bind c (.region r) v).retrieve (.region r) t d = (fit v t, d) := by
  rw [bind_eq_insert h]
  exact retrieveFrom_of_direct ht OrderedMap.get?_insert_self

end Store

end PathScout

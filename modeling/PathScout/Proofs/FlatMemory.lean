import PathScout.Proofs.InvalidationClosure
import PathScout.Proofs.MarkLaws
import PathScout.Proofs.NamingLaws

/-!
# Scalar variables under both policies

One policy follows every region of memory, the other one scalar variables only. As long as nothing but scalar
variables is written, and no pointer to a region is stored, both tell the same about every scalar variable. The
two memories are not equal: a request that forgets the global variables binds arrays and structures, and what
unknown pointers point to, under the finer policy only. But this never reaches a scalar variable, since all
pointers in memory lead to memory of unknown symbols.

* `MemoryOp`, `StorePolicy.perform`: the operations on memory.
* `Abreast`: memory under the two policies after the same operations, with one catalog for both.
* `Store.Stray`: every pointer that is stored leads to memory of an unknown symbol.
* `Agreement`: the invariant. `Agreement.perform`: an operation under both policies keeps it.
* `Abreast.retrieve_eq`: every scalar variable has the same value under both policies.
-/

namespace PathScout

open Catalog Naming OrderedMap List

/-- The region is that of a variable of the scalar type `t`. -/
def Catalog.IsScalarVar (c : Catalog) (r : RegionId) (t : CType) : Prop :=
  ∃ frame v, c.IsVar frame v r ∧ (c.program.var v).type = t ∧ t.isScalar = true

/-- An operation on memory: to write or to forget a region, to forget what a request reaches, and to forget the
regions that are not live. -/
inductive MemoryOp where
  | bind (r : RegionId) (v : Value)
  | kill (r : RegionId)
  | forget (request : Invalidation)
  | reap (marks : Marks)

/-- Performs an operation under a policy. -/
def StorePolicy.perform (p : StorePolicy) : MemoryOp → Store → Naming Store
  | .bind r v, s => query fun c => p.bind s c (.region r) v
  | .kill r, s => query fun c => s.kill c r
  | .forget request, s => do return (← p.invalidate s request).1
  | .reap marks, s => query fun c => s.removeDead c marks

/-- The operation is about scalar variables, and what it writes is no pointer to a region and no copy of a
structure. -/
def MemoryOp.OnScalars (c : Catalog) : MemoryOp → Prop
  | bind r v => (∃ t, c.IsScalarVar r t) ∧ v.region? = none ∧ v.isSnapshot = false
  | kill r => ∃ t, c.IsScalarVar r t
  | forget request => ∀ r ∈ request.regions, ∃ t, c.IsScalarVar r t
  | reap _ => True

/-- Memory under the flat policy and under the policy that follows regions, after the same operations on scalar
variables. The catalog belongs to both, may be used otherwise in between, and it does not matter under which
policy an operation is performed first. -/
inductive Abreast : Store → Store → Catalog → Prop where
  | start {c : Catalog} : c.WellFormed → Abreast {} {} c
  | named {f g : Store} {c d : Catalog} : Abreast f g c → c ≤ d → d.WellFormed → Abreast f g d
  | flatFirst {f g f' g' : Store} {c d e : Catalog} {op : MemoryOp} : Abreast f g c → op.OnScalars c →
      StorePolicy.flat.perform op f c = (f', d) → StorePolicy.region.perform op g d = (g', e) → Abreast f' g' e
  | regionFirst {f g f' g' : Store} {c d e : Catalog} {op : MemoryOp} : Abreast f g c → op.OnScalars c →
      StorePolicy.region.perform op g c = (g', d) → StorePolicy.flat.perform op f d = (f', e) → Abreast f' g' e

variable {f g s : Store} {c d : Catalog} {r q : RegionId} {t : CType} {v : Value} {op : MemoryOp}
  {request : Invalidation}

/-! ### Scalar variables -/

namespace Catalog.IsScalarVar

theorem mono (h : c.IsScalarVar r t) (hcd : c ≤ d) : d.IsScalarVar r t := by
  obtain ⟨frame, v, hv, ht, hs⟩ := h
  exact ⟨frame, v, hv.mono hcd, by rw [hcd.program, ht], hs⟩

theorem of_le (h : d.IsScalarVar r t) (hcd : c ≤ d) (hc : c.WellFormed) (hr : c.Has r) : c.IsScalarVar r t := by
  obtain ⟨frame, v, hv, ht, hs⟩ := h
  exact ⟨frame, v, hv.of_le hcd hc hr, by rw [← hcd.program, ht], hs⟩

section

variable (h : c.IsScalarVar r t)
include h

theorem isScalar : t.isScalar = true := h.choose_spec.choose_spec.2.2

theorem has : c.Has r := h.choose_spec.choose_spec.1.has

theorem valueType?_eq : c.valueType? r = some t := by
  obtain ⟨frame, v, hv, ht, -⟩ := h
  rw [hv.valueType?_eq, ht]

theorem base_eq : c.base r = r := h.choose_spec.choose_spec.1.base_eq

theorem isPart_eq : (c.region r).isPart = false := h.choose_spec.choose_spec.1.isPart_eq

theorem isScalarVar_eq : Store.isScalarVar c r = true := by
  have ht := h.valueType?_eq
  obtain ⟨frame, v, hv, -, hs⟩ := h
  obtain ⟨p, hp⟩ := hv.region_eq
  simp [Store.isScalarVar, hp, ht, hs]

/-- Variables lie in memory that is never code and that can change. -/
theorem space_cases (hc : c.WellFormed) :
    (∃ frame, c.space r = .locals frame) ∨ (∃ frame, c.space r = .arguments frame) ∨
      c.space r = .globals .staticGlobals ∨ c.space r = .globals .globals := by
  obtain ⟨frame, v, hv, -, -⟩ := h
  rw [hv.space_eq hc]
  unfold varSpace
  split <;> simp

theorem parent?_spaceRegion (hc : c.WellFormed) : (c.region (c.spaceRegion r)).parent? = none := by
  obtain ⟨frame, v, hv, -⟩ := h
  obtain ⟨q, hq, hchain⟩ := hv.chain_eq hc
  have hlast : c.spaceRegion r = q := by rw [Catalog.spaceRegion, hchain]; rfl
  rw [hlast, hq]
  rfl

theorem isImmutable_eq (hc : c.WellFormed) : Store.isImmutable c r = false := by
  rcases h.space_cases hc with ⟨frame, hs⟩ | ⟨frame, hs⟩ | hs | hs <;> rw [Store.isImmutable, hs]

theorem setsWhole_eq (hv : v.isSnapshot = false) : Store.setsWhole v (c.valueType? r) = false := by
  have ht : t.isAggregate = false := by
    rw [CType.isAggregate, CType.isStruct_of_isScalar h.isScalar, CType.isArray_of_isScalar h.isScalar]
    rfl
  rw [h.valueType?_eq]
  cases v with
  | snapshot => cases hv
  | _ => first | rfl | exact ht

/-- A scalar variable that was never written. -/
theorem initialValue_eq (hc : c.WellFormed) : Store.initialValue r t c =
      if c.hasLocalStorage r then (.undefined, c) else regionValue r t c := by
  have hbyte : Store.literalByte? c r = none := by
    obtain ⟨frame, v, hv, -, -⟩ := h
    obtain ⟨p, hp⟩ := hv.region_eq
    simp [Store.literalByte?, hp]
  unfold Store.initialValue
  rw [bind_apply, query_apply]
  simp only [hbyte, bind_apply, query_apply]
  rcases h.space_cases hc with ⟨frame, hs⟩ | ⟨frame, hs⟩ | hs | hs <;>
    simp [Catalog.hasLocalStorage, hs]

end

end Catalog.IsScalarVar

theorem MemoryOp.OnScalars.mono (h : op.OnScalars c) (hcd : c ≤ d) : op.OnScalars d := by
  cases op with
  | bind r v => exact ⟨h.1.imp fun _ hr => Catalog.IsScalarVar.mono hr hcd, h.2⟩
  | kill r => exact Exists.imp (fun _ hr => Catalog.IsScalarVar.mono hr hcd) h
  | forget request => exact fun r hr => (h r hr).imp fun _ hv => Catalog.IsScalarVar.mono hv hcd
  | reap marks => trivial

namespace Naming

theorem regionValue_of_isScalar (ht : t.isScalar = true) (r : RegionId) (c : Catalog) :
    regionValue r t c = symbolValue (symbol (.regionValue r t) c).1 (symbol (.regionValue r t) c).2 := by
  rw [regionValue, scalarValue, if_pos (show (Symbol.regionValue r t).type.isScalar = true from ht), bind_apply]

theorem wellFormed_regionValue (hc : c.WellFormed) (ht : t.isScalar = true) (r : RegionId) :
    (regionValue r t c).2.WellFormed := by
  have hwf : (symbol (.regionValue r t) c).2.WellFormed := ⟨hc.older, hc.inSpace⟩
  rw [regionValue_of_isScalar ht]
  exact wellFormed_symbolValue hwf _

/-- A region that has a symbol for what it held at first has it for good. -/
theorem regionValue_again (ht : t.isScalar = true) (hle : (regionValue r t c).2 ≤ d) :
    regionValue r t d = ((regionValue r t c).1, d) := by
  rw [regionValue_of_isScalar ht] at hle ⊢
  rw [regionValue_of_isScalar ht, symbol_again ((grows_symbolValue _ _).trans hle)]
  exact symbolValue_again (hasSymbol_symbol _ c) hle

end Naming

namespace Store

variable {k : BindingKey}

/-! ### Reading -/

theorem retrieveFlat_eq (h : c.IsScalarVar r t) : s.retrieveFlat (.region r) t c =
    match s.direct? r with
    | some v => (fit v t, c)
    | none => if c.hasLocalStorage r then (.undefined, c) else regionValue r t c := by
  unfold retrieveFlat
  simp only [bind_apply, query_apply, h.isScalarVar_eq, if_true]
  cases s.direct? r with
  | some v => rfl
  | none =>
    simp only [bind_apply, query_apply]
    exact ite_apply _ _ _

/-- A scalar variable is read in the same way under both policies, if no default is bound to it. -/
theorem retrieve_eq_retrieveFlat (h : c.IsScalarVar r t) (hc : c.WellFormed) (hdefault : g.default? r = none)
    (hdirect : f.direct? r = g.direct? r) : g.retrieve (.region r) t c = f.retrieveFlat (.region r) t c := by
  rw [retrieveFlat_eq h, hdirect]
  cases hd : g.direct? r with
  | some v => exact retrieveFrom_of_direct h.isScalar hd
  | none =>
    have hnearest : nearestDefault? c g.bindings.entries r = none := by
      rw [nearestDefault?_of_not_part h.isPart_eq]
      exact Option.map_eq_none_iff.2 hdefault
    exact (retrieveFrom_of_none h.isScalar hd hnearest).trans (h.initialValue_eq hc)

/-! ### Forgetting under the flat policy -/

theorem conjureContents_scalarVar (h : c.IsScalarVar r t) (request : Invalidation) :
    (conjureContents r request c).1.1 = .direct r := by
  rw [conjureContents_of_scalar (by rw [h.valueType?_eq]; exact h.isScalar)]

/-- A scalar variable among the objects that were not met before gets fresh contents, and every other one
keeps what it holds. -/
theorem forgetFlat_spec {before : Store} {objects : List RegionId} (seen : List RegionId)
    (symbols : List SymbolId) (hc : c.WellFormed) (hobjects : ∀ o ∈ objects, c.Has o)
    (hkeys : s.KeysNamedIn c) :
    let out := forgetFlat before request objects seen s symbols c
    c ≤ out.2 ∧ out.2.WellFormed ∧ out.1.1.KeysNamedIn out.2 ∧
      ∀ d, out.2 ≤ d → ∀ r t, d.IsScalarVar r t → out.1.1.direct? r =
        if r ∈ objects ∧ r ∉ seen then some (conjureContents r request d).1.2 else s.direct? r := by
  induction objects generalizing seen s symbols c with
  | nil => exact ⟨le_rfl, hc, hkeys, fun d _ r t _ => by simp [forgetFlat]⟩
  | cons o rest ih =>
    obtain ⟨ho, hrest⟩ := forall_mem_cons.1 hobjects
    unfold forgetFlat
    rw [bind_apply, query_apply, ite_apply]
    by_cases hskip : (seen.contains o || !isScalarVar c o) = true
    · rw [if_pos hskip]
      obtain ⟨hgrow, hwf, hnamed, hdirect⟩ := @ih s c (o :: seen) symbols hc hrest hkeys
      refine ⟨hgrow, hwf, hnamed, fun d hd r t hr => ?_⟩
      have hor : r = o → o ∈ seen := by
        rintro rfl
        have hvar := (hr.of_le (hgrow.trans hd) hc ho).isScalarVar_eq
        simpa [hvar] using hskip
      rw [hdirect d hd r t hr]
      refine if_congr ?_ rfl rfl
      simp only [mem_cons, not_or]
      constructor
      · rintro ⟨hr, -, hseen⟩
        exact ⟨.inr hr, hseen⟩
      · rintro ⟨hr, hseen⟩
        have hne : r ≠ o := fun e => hseen (e ▸ hor e)
        exact ⟨hr.resolve_left hne, hne, hseen⟩
    · rw [if_neg hskip]
      simp only [bind_apply, query_apply]
      obtain ⟨hgrow, hwf, hkey, -⟩ := conjureContents_spec request hc ho
      have hnamed : (⟨s.bindings.insert (conjureContents o request c).1.1 (conjureContents o request c).1.2⟩ :
          Store).KeysNamedIn (conjureContents o request c).2 := fun k w hk => by
        rw [get?_insert] at hk
        split at hk
        · next h =>
          rw [h, hkey, contentsKey_region]
          exact ho.mono hgrow
        · exact (hkeys k w hk).mono hgrow
      obtain ⟨hgrow', hwf', hnamed', hdirect⟩ := @ih _ _ (o :: seen)
        (symbols ++ ((before.direct? o).bind (shownSymbol? c)).toList) hwf
        (fun q hq => (hrest q hq).mono hgrow) hnamed
      refine ⟨hgrow.trans hgrow', hwf', hnamed', fun d hd r t hr => ?_⟩
      rw [Bool.or_eq_true, not_or, contains_iff_mem] at hskip
      rw [hdirect d hd r t hr]
      by_cases hro : r = o
      · subst hro
        have hvar : c.IsScalarVar r t := hr.of_le (hgrow.trans (hgrow'.trans hd)) hc ho
        rw [if_neg fun h => h.2 mem_cons_self, if_pos ⟨mem_cons_self, hskip.1⟩,
          conjureContents_again ho (hgrow'.trans hd), direct?, conjureContents_scalarVar hvar]
        exact get?_insert_self
      · have hdirect' : (⟨s.bindings.insert (conjureContents o request c).1.1
            (conjureContents o request c).1.2⟩ : Store).direct? r = s.direct? r := by
          refine get?_insert_of_ne fun e => hro ?_
          have hregion := congrArg BindingKey.region e
          rwa [hkey, contentsKey_region] at hregion
        rw [hdirect']
        simp only [mem_cons, hro, false_or]

/-- A request forgets the scalar variables among its roots. -/
theorem invalidateFlat_scalarVars (hc : c.WellFormed) (hregions : ∀ r ∈ request.regions, c.Has r)
    (hkeys : s.KeysNamedIn c) :
    let out := s.invalidateFlat request c
    c ≤ out.2 ∧ out.2.WellFormed ∧ out.1.1.KeysNamedIn out.2 ∧
      ∀ d, out.2 ≤ d → ∀ r t, d.IsScalarVar r t →
        (request.IsRoot d r → out.1.1.direct? r = some (conjureContents r request d).1.2) ∧
        (¬request.IsRoot d r → out.1.1.direct? r = s.direct? r) := by
  obtain ⟨hgrow, hwf, -, -⟩ := invalidationRoots_spec request hc
  have hobjects : ∀ o ∈ (invalidationRoots request c).1, (invalidationRoots request c).2.Has o :=
    fun o ho => has_root hc hregions (mem_reverse.2 ho)
  obtain ⟨hgrow', hwf', hnamed, hdirect⟩ :
      let out := forgetFlat s request (invalidationRoots request c).1 [] s [] (invalidationRoots request c).2
      (invalidationRoots request c).2 ≤ out.2 ∧ out.2.WellFormed ∧ out.1.1.KeysNamedIn out.2 ∧ _ :=
    forgetFlat_spec [] [] hwf hobjects fun k v hk => (hkeys k v hk).mono hgrow
  refine ⟨hgrow.trans hgrow', hwf', hnamed, fun d hd r t hr => ?_⟩
  have hroot := mem_invalidationRoots_iff (o := r) hregions (hgrow'.trans hd)
  have hfresh := hdirect d hd r t hr
  exact ⟨fun h => hfresh.trans (if_pos ⟨hroot.2 h, not_mem_nil⟩),
    fun h => hfresh.trans (if_neg fun h' => h (hroot.1 h'.1))⟩

/-! ### Forgetting under the policy that follows regions -/

/-- Every pointer that is stored leads to memory of an unknown symbol. -/
def Stray (s : Store) (c : Catalog) : Prop :=
  ∀ e ∈ s.bindings.entries, c.Has e.1.region ∧
    ∀ p, e.2.region? = some p → ∃ x q, c.region p = .symbolic x q

theorem Stray.namedIn (h : s.Stray c) : s.NamedIn c where
  key he := (h _ he).1
  pointer he hp := by
    obtain ⟨x, q, hregion⟩ := (h _ he).2 _ hp
    exact has_of_parent? (p := q) (by rw [hregion]; rfl)

theorem Stray.mono (h : s.Stray c) (hcd : c ≤ d) : s.Stray d := fun e he => by
  refine ⟨(h e he).1.mono hcd, fun p hp => ?_⟩
  rw [region_mono hcd (h.namedIn.pointer he hp)]
  exact (h e he).2 p hp

theorem Stray.keysNamedIn (h : s.Stray c) : s.KeysNamedIn c := fun _ _ hk => h.namedIn.has hk

theorem Stray.sublist {s' : Store} (h : s.Stray c) (hsub : s'.bindings.entries ⊆ s.bindings.entries) :
    s'.Stray c := fun e he => h e (hsub he)

theorem Stray.insert (h : s.Stray c) (hk : c.Has k.region)
    (hv : ∀ p, v.region? = some p → ∃ x q, c.region p = .symbolic x q) :
    Stray ⟨s.bindings.insert k v⟩ c := fun e he => by
  rcases mem_of_mem_put he with rfl | he
  · exact ⟨hk, hv⟩
  · exact h e he

/-- What is renewed holds pointers to memory of fresh symbols only. -/
theorem Stray.renewed {visited : List RegionId} (hd : d.WellFormed) (h : s.Stray d)
    (hvisited : ∀ o ∈ visited, d.Has o ∧ (conjureContents o request d).2 = d) :
    (s.renewed request d visited).Stray d := by
  induction visited generalizing s with
  | nil => exact h
  | cons o visited ih =>
    obtain ⟨⟨ho, hsame⟩, hrest⟩ := forall_mem_cons.1 hvisited
    obtain ⟨-, -, hkey, x, -, hshows, -⟩ := conjureContents_spec request hd ho
    rw [hsame] at hshows
    have hkill : (s.kill d o).Stray d := h.sublist fun _ he => mem_of_mem_filter he
    refine ih (s := s.renew request d o) (hkill.insert ?_ fun p hp => ?_) hrest
    · rw [hkey, contentsKey_region]
      exact ho
    · rcases hshows with hv | ⟨r, q, hv, hregion⟩
      · rw [hv] at hp
        cases hp
      · rw [hv] at hp
        cases hp
        exact ⟨x, q, hregion⟩

/-- What a request reaches is the memory of an unknown symbol, if the request does not start from it. -/
theorem Stray.reaches (h : s.Stray c) (hcd : c ≤ d) (hq : request.Reaches s d q) :
    request.IsRoot d q ∨ ∃ x p, d.region q = .symbolic x p := by
  cases hq with
  | root hroot => exact .inl hroot
  | held _ _ he =>
    obtain ⟨x, p, hp⟩ := (h.mono hcd _ he).2 _ rfl
    rw [base_of_not_part (by rw [hp]; rfl)]
    exact .inr ⟨x, p, hp⟩

/-- A request for scalar variables forgets memory of unknown symbols and variables, but no memory space. -/
theorem Stray.reaches_parent (h : s.Stray c) (hcd : c ≤ d)
    (hregions : ∀ r ∈ request.regions, ∃ t, c.IsScalarVar r t) (hq : request.Reaches s d q) :
    (d.region q).parent? ≠ none := by
  have hvar : ∀ {frame v}, d.IsVar frame v q → (d.region q).parent? ≠ none := fun hv => by
    obtain ⟨p, hp⟩ := hv.region_eq
    rw [hp]
    exact Option.some_ne_none p
  rcases h.reaches hcd hq with (⟨r, hr, rfl⟩ | ⟨-, v, -, hv⟩) | ⟨x, p, hp⟩
  · obtain ⟨t, ht⟩ := hregions r hr
    obtain ⟨frame, v, hv, -⟩ := ht.mono hcd
    rw [hv.base_eq] at hvar ⊢
    exact hvar hv
  · exact hvar hv
  · rw [hp]
    exact Option.some_ne_none p

/-- A request forgets the scalar variables among its roots. It may forget other memory too, and no memory that
it then holds leads back to a variable. -/
theorem invalidate_scalarVars (hc : c.WellFormed) (hregions : ∀ r ∈ request.regions, ∃ t, c.IsScalarVar r t)
    (hs : s.Stray c) :
    let out := s.invalidate request c
    c ≤ out.2 ∧ out.2.WellFormed ∧ out.1.1.Stray out.2 ∧ ∀ d, out.2 ≤ d → ∀ r t, d.IsScalarVar r t →
        (request.IsRoot d r →
          out.1.1.direct? r = some (conjureContents r request d).1.2 ∧ out.1.1.default? r = none) ∧
        (¬request.IsRoot d r → out.1.1.direct? r = s.direct? r ∧ out.1.1.default? r = s.default? r) := by
  have hhas : ∀ r ∈ request.regions, c.Has r := fun r hr => (hregions r hr).choose_spec.has
  obtain ⟨hout, -, -, hnoted, hleft, hheld, -⟩ := invalidate_exact hc hs.namedIn hhas
  obtain ⟨-, hvisited, hrenewed⟩ := invalidateNoting_visits hc hs.namedIn hhas
  have hwf := wellFormed_invalidateNoting hc hs.namedIn hhas
  have hgrow := grows_invalidateNoting s request c
  have hroots : (invalidationRoots request c).2 ≤ (s.invalidateNoting request c).2 := grows_forgetNoting ..
  have hstray : (s.invalidateNoting request c).1.1.1.Stray (s.invalidateNoting request c).2 := by
    rw [congrArg Prod.fst hrenewed]
    exact Stray.renewed hwf (hs.mono hgrow) fun o ho => ⟨(hvisited o ho).1, (hvisited o ho).2.2⟩
  rw [hout]
  intro out
  refine ⟨hgrow, hwf, hstray, fun d hd r t hr => ?_⟩
  have hroot : ∀ {o}, request.IsRoot out.2 o ↔ request.IsRoot d o := fun {o} =>
    (mem_invalidationRoots_iff hhas hroots).symm.trans (mem_invalidationRoots_iff hhas (hroots.trans hd))
  by_cases hhasr : out.2.Has r
  · have hr' : out.2.IsScalarVar r t := hr.of_le hd hwf hhasr
    have hspace : out.2.spaceRegion r ∉ (s.invalidateNoting request c).1.2 := fun h => by
      refine hs.reaches_parent hgrow hregions ((hnoted _).1 h).1 ?_
      exact hr'.parent?_spaceRegion hwf
    have hmem : r ∈ (s.invalidateNoting request c).1.2 ↔ request.IsRoot d r := by
      rw [hnoted, hr'.isImmutable_eq hwf, and_iff_left rfl, ← hroot]
      refine ⟨fun h => (hs.reaches hgrow h).resolve_right ?_, .root⟩
      rintro ⟨x, p, hp⟩
      obtain ⟨frame, v, hv, -⟩ := hr'
      obtain ⟨p', hp'⟩ := hv.region_eq
      cases hp.symm.trans hp'
    constructor
    · intro h
      obtain ⟨k, v, hkv, -, hget⟩ := hheld r (hmem.2 h) hspace
      have hk : k = .direct r := by rw [← conjureContents_scalarVar hr' request, hkv]
      have hv : (conjureContents r request d).1.2 = v := by
        rw [conjureContents_again hhasr (by rw [hkv]; exact hd), hkv]
      subst hk
      rw [direct?, default?, hget (.direct r) mem_chain_self, hget (.default r) mem_chain_self, hv]
      exact ⟨if_pos rfl, if_neg (by simp [BindingKey.direct, BindingKey.default])⟩
    · intro h
      have hbase : out.2.base r ∉ (s.invalidateNoting request c).1.2 := by
        rw [hr'.base_eq]
        exact fun h' => h (hmem.1 h')
      exact ⟨hleft (.direct r) hbase hspace, hleft (.default r) hbase hspace⟩
  · have hnone : ∀ k : BindingKey, k.region = r →
        (s.invalidateNoting request c).1.1.1.bindings.get? k = s.bindings.get? k := by
      rintro k rfl
      rw [Option.eq_none_iff_forall_ne_some.2 fun v hv => hhasr (hstray.keysNamedIn k v hv),
        Option.eq_none_iff_forall_ne_some.2 fun v hv => hhasr ((hs.keysNamedIn k v hv).mono hgrow)]
    refine ⟨fun h => absurd ?_ hhasr, fun _ => ⟨hnone _ rfl, hnone _ rfl⟩⟩
    have hmem := (mem_invalidationRoots_iff hhas (hroots.trans hd)).2 h
    exact (has_root hc hhas (mem_reverse.2 hmem)).mono hroots

/-! ### Operations without fresh values -/

theorem KeysNamedIn.get?_eq_none (h : s.KeysNamedIn c) (hk : ¬c.Has k.region) :
    s.bindings.get? k = none :=
  Option.eq_none_iff_forall_ne_some.2 fun v hv => hk (h k v hv)

theorem direct?_kill (hs : s.KeysNamedIn c) (hcd : c ≤ d) (q r : RegionId) :
    (s.kill c q).direct? r = if q ∈ d.chain r then none else s.direct? r := by
  rw [direct?, get?_kill, direct?]
  by_cases hr : c.Has r
  · rw [chain_mono hcd hr]
    rfl
  · rw [hs.get?_eq_none (k := .direct r) hr, ite_self, ite_self]

theorem get?_removeDead_eq_ite (s : Store) (c : Catalog) (marks : Marks) (k : BindingKey) :
    (s.removeDead c marks).bindings.get? k =
      if marks.isLiveRegion c k.region then s.bindings.get? k else none :=
  get?_filter fun k : BindingKey => marks.isLiveRegion c k.region

theorem direct?_removeDead (hc : c.WellFormed) (hs : s.KeysNamedIn c) (hcd : c ≤ d) (hr : d.IsScalarVar r t)
    (marks : Marks) :
    (s.removeDead c marks).direct? r = if marks.isLiveRegion d r then s.direct? r else none := by
  rw [direct?, get?_removeDead_eq_ite, direct?]
  by_cases hhas : c.Has r
  · obtain ⟨frame, v, hv, -⟩ := hr.of_le hcd hc hhas
    rw [Marks.isLiveRegion, Marks.isLiveRegion, Marks.isLiveRegionBy_congr hc hcd hhas]
    · rfl
    · intro x hx
      rw [hv.symbolicBase?_eq] at hx
      cases hx
  · rw [hs.get?_eq_none (k := .direct r) hhas, ite_self, ite_self]

end Store

/-! ### One operation under each policy -/

/-- What an operation on scalar variables leaves in a variable that held `old`. -/
def MemoryOp.Leaves (c : Catalog) (r : RegionId) (old new : Option Value) : MemoryOp → Prop
  | bind q v => new = if r = q then some v else old
  | kill q => new = if q ∈ c.chain r then none else old
  | forget request =>
    (request.IsRoot c r → new = some (Store.conjureContents r request c).1.2) ∧
      (¬request.IsRoot c r → new = old)
  | reap marks => new = if marks.isLiveRegion c r then old else none

theorem MemoryOp.Leaves.unique {old new new' : Option Value} (h : op.Leaves c r old new)
    (h' : op.Leaves c r old new') : new = new' := by
  cases op with
  | forget request =>
    by_cases hroot : request.IsRoot c r
    · exact (h.1 hroot).trans (h'.1 hroot).symm
    · exact (h.2 hroot).trans (h'.2 hroot).symm
  | _ => exact Eq.trans h (Eq.symm h')

namespace StorePolicy

open Store

theorem flat_perform (hc : c.WellFormed) (hop : op.OnScalars c) (hs : s.KeysNamedIn c) :
    let out := flat.perform op s c
    c ≤ out.2 ∧ out.2.WellFormed ∧ out.1.KeysNamedIn out.2 ∧
      ∀ d, out.2 ≤ d → ∀ r t, d.IsScalarVar r t → op.Leaves d r (s.direct? r) (out.1.direct? r) := by
  cases op with
  | bind q v =>
    obtain ⟨⟨t, hq⟩, -, -⟩ := hop
    have hbind : flat.perform (.bind q v) s c = (⟨s.bindings.insert (.direct q) v⟩, c) := by
      show (s.bindFlat c (.region q) v, c) = _
      rw [bindFlat, if_pos hq.isScalarVar_eq]
    rw [hbind]
    refine ⟨le_rfl, hc, fun k w hk => ?_, fun d _ r t _ => ?_⟩
    · rw [get?_insert] at hk
      split at hk
      · next h =>
        subst h
        exact hq.has
      · exact hs k w hk
    · show get? _ _ = _
      rw [get?_insert]
      exact if_congr (by simp [BindingKey.direct]) rfl rfl
  | kill q =>
    refine ⟨le_rfl, hc, fun k w hk => ?_, fun d hd r t _ => direct?_kill hs hd q r⟩
    change (s.kill c q).bindings.get? k = some w at hk
    rw [get?_kill] at hk
    exact hs k w (Option.ite_none_left_eq_some.1 hk).2
  | forget request => exact invalidateFlat_scalarVars hc (fun r hr => (hop r hr).choose_spec.has) hs
  | reap marks =>
    refine ⟨le_rfl, hc, fun k w hk => ?_, fun d hd r t hr => direct?_removeDead hc hs hd hr marks⟩
    change (s.removeDead c marks).bindings.get? k = some w at hk
    rw [get?_removeDead_eq_ite] at hk
    exact hs k w (Option.ite_none_right_eq_some.1 hk).2

theorem region_perform (hc : c.WellFormed) (hop : op.OnScalars c) (hs : s.Stray c) :
    let out := region.perform op s c
    c ≤ out.2 ∧ out.2.WellFormed ∧ out.1.Stray out.2 ∧
      ∀ d, out.2 ≤ d → ∀ r t, d.IsScalarVar r t → op.Leaves d r (s.direct? r) (out.1.direct? r) ∧
        (s.default? r = none → out.1.default? r = none) := by
  cases op with
  | bind q v =>
    obtain ⟨⟨t, hq⟩, hv, hsnapshot⟩ := hop
    have hbind : region.perform (.bind q v) s c = (⟨s.bindings.insert (.direct q) v⟩, c) :=
      congrArg (·, c) (bind_eq_insert (hq.setsWhole_eq hsnapshot))
    rw [hbind]
    refine ⟨le_rfl, hc, hs.insert hq.has fun p hp => ?_, fun d _ r t _ => ⟨?_, fun h => ?_⟩⟩
    · rw [hv] at hp
      cases hp
    · show get? _ _ = _
      rw [get?_insert]
      exact if_congr (by simp [BindingKey.direct]) rfl rfl
    · exact (get?_insert_of_ne (by simp [BindingKey.direct, BindingKey.default])).trans h
  | kill q =>
    refine ⟨le_rfl, hc, hs.sublist fun _ he => mem_of_mem_filter he, fun d hd r t _ =>
      ⟨direct?_kill hs.keysNamedIn hd q r, fun h => ?_⟩⟩
    show (s.kill c q).bindings.get? (.default r) = none
    rw [get?_kill]
    exact (if_congr Iff.rfl rfl h).trans (ite_self _)
  | forget request =>
    obtain ⟨hgrow, hwf, hstray, hleaves⟩ := invalidate_scalarVars hc hop hs
    refine ⟨hgrow, hwf, hstray, fun d hd r t hr => ?_⟩
    obtain ⟨hroot, hother⟩ := hleaves d hd r t hr
    refine ⟨⟨fun h => (hroot h).1, fun h => (hother h).1⟩, fun h => ?_⟩
    by_cases hr : request.IsRoot d r
    · exact (hroot hr).2
    · exact (hother hr).2.trans h
  | reap marks =>
    refine ⟨le_rfl, hc, hs.sublist fun _ he => mem_of_mem_filter he, fun d hd r t hr =>
      ⟨direct?_removeDead hc hs.keysNamedIn hd hr marks, fun h => ?_⟩⟩
    show (s.removeDead c marks).bindings.get? (.default r) = none
    rw [get?_removeDead_eq_ite]
    exact (if_congr Iff.rfl h rfl).trans (ite_self _)

end StorePolicy

/-! ### The invariant -/

/-- The two memories hold the same in every scalar variable, and what the finer policy follows besides never
leads back to one. -/
structure Agreement (f g : Store) (c : Catalog) : Prop where
  wellFormed : c.WellFormed
  named : f.KeysNamedIn c
  stray : g.Stray c
  direct {r : RegionId} {t : CType} : c.IsScalarVar r t → f.direct? r = g.direct? r
  noDefault {r : RegionId} {t : CType} : c.IsScalarVar r t → g.default? r = none

namespace Agreement

variable {f' g' : Store} {e : Catalog}

theorem mono (h : Agreement f g c) (hcd : c ≤ d) (hd : d.WellFormed) : Agreement f g d where
  wellFormed := hd
  named k v hk := (h.named k v hk).mono hcd
  stray := h.stray.mono hcd
  direct {r _} hr := by
    by_cases hhas : c.Has r
    · exact h.direct (hr.of_le hcd h.wellFormed hhas)
    · exact (h.named.get?_eq_none hhas).trans (h.stray.keysNamedIn.get?_eq_none hhas).symm
  noDefault {r _} hr := by
    by_cases hhas : c.Has r
    · exact h.noDefault (hr.of_le hcd h.wellFormed hhas)
    · exact h.stray.keysNamedIn.get?_eq_none hhas

/-- What both policies leave agrees, wherever each leaves in scalar variables what the operation asks. -/
theorem perform (h : Agreement f g c) (hnamed : f'.KeysNamedIn c) (hstray : g'.Stray c)
    (hflat : ∀ r t, c.IsScalarVar r t → op.Leaves c r (f.direct? r) (f'.direct? r))
    (hregion : ∀ r t, c.IsScalarVar r t → op.Leaves c r (g.direct? r) (g'.direct? r) ∧
      (g.default? r = none → g'.default? r = none)) : Agreement f' g' c where
  wellFormed := h.wellFormed
  named := hnamed
  stray := hstray
  direct {r t} hr := (hflat r t hr).unique (h.direct hr ▸ (hregion r t hr).1)
  noDefault {r t} hr := (hregion r t hr).2 (h.noDefault hr)

theorem flatFirst (h : Agreement f g c) (hop : op.OnScalars c)
    (hflat : StorePolicy.flat.perform op f c = (f', d))
    (hregion : StorePolicy.region.perform op g d = (g', e)) : Agreement f' g' e := by
  obtain ⟨hcd, hd, hnamed, hleft⟩ := StorePolicy.flat_perform h.wellFormed hop h.named
  rw [hflat] at hcd hd hnamed hleft
  have hmid := h.mono hcd hd
  obtain ⟨hde, he, hstray, hleft'⟩ := StorePolicy.region_perform hd (hop.mono hcd) hmid.stray
  rw [hregion] at hde he hstray hleft'
  exact (hmid.mono hde he).perform (fun k v hk => (hnamed k v hk).mono hde) hstray (hleft e hde)
    (hleft' e le_rfl)

theorem regionFirst (h : Agreement f g c) (hop : op.OnScalars c)
    (hregion : StorePolicy.region.perform op g c = (g', d))
    (hflat : StorePolicy.flat.perform op f d = (f', e)) : Agreement f' g' e := by
  obtain ⟨hcd, hd, hstray, hleft'⟩ := StorePolicy.region_perform h.wellFormed hop h.stray
  rw [hregion] at hcd hd hstray hleft'
  have hmid := h.mono hcd hd
  obtain ⟨hde, he, hnamed, hleft⟩ := StorePolicy.flat_perform hd (hop.mono hcd) hmid.named
  rw [hflat] at hde he hnamed hleft
  exact (hmid.mono hde he).perform hnamed (hstray.mono hde) (hleft e le_rfl) (hleft' e hde)

/-- Both policies read a scalar variable in the same way. -/
theorem retrieve_same (h : Agreement f g c) (hr : c.IsScalarVar r t) :
    g.retrieve (.region r) t c = f.retrieveFlat (.region r) t c :=
  Store.retrieve_eq_retrieveFlat hr h.wellFormed (h.noDefault hr) (h.direct hr)

end Agreement

theorem Agreement.start (hc : c.WellFormed) : Agreement {} {} c where
  wellFormed := hc
  named _ _ hk := nomatch hk
  stray _ he := nomatch he
  direct _ := rfl
  noDefault _ := rfl

theorem Abreast.perform (h : Abreast f g c) (hop : op.OnScalars c) :
    let flat := StorePolicy.flat.perform op f c
    let fine := StorePolicy.region.perform op g flat.2
    Abreast flat.1 fine.1 fine.2 := .flatFirst h hop rfl rfl

theorem Abreast.agreement (h : Abreast f g c) : Agreement f g c := by
  induction h with
  | start hc => exact .start hc
  | named _ hcd hd ih => exact ih.mono hcd hd
  | flatFirst _ hop hflat hregion ih => exact ih.flatFirst hop hflat hregion
  | regionFirst _ hop hregion hflat ih => exact ih.regionFirst hop hregion hflat

namespace Store

theorem wellFormed_retrieveFlat (hc : c.WellFormed) (h : c.IsScalarVar r t) :
    (s.retrieveFlat (.region r) t c).2.WellFormed := by
  rw [retrieveFlat_eq h]
  cases s.direct? r with
  | some v => exact hc
  | none =>
    dsimp only
    split
    · exact hc
    · exact wellFormed_regionValue hc h.isScalar r

/-- Once a scalar variable was read, it is read as the same value again. -/
theorem retrieveFlat_again (h : c.IsScalarVar r t) (hle : (s.retrieveFlat (.region r) t c).2 ≤ d) :
    s.retrieveFlat (.region r) t d = ((s.retrieveFlat (.region r) t c).1, d) := by
  have hcd : c ≤ d := (grows_retrieveFlat s _ t c).trans hle
  have hlocal : d.hasLocalStorage r = c.hasLocalStorage r := by
    rw [Catalog.hasLocalStorage, space_mono hcd h.has]
    rfl
  rw [retrieveFlat_eq h] at hle ⊢
  rw [retrieveFlat_eq (h.mono hcd), hlocal]
  cases hs : s.direct? r with
  | some v => rfl
  | none =>
    rw [hs] at hle
    dsimp only at hle ⊢
    split
    · rfl
    · next hl =>
      rw [if_neg hl] at hle
      exact regionValue_again h.isScalar hle

end Store

/-- **Both policies agree on scalar variables.** Whatever was written, forgotten and cleared in scalar variables
before, reading one gives the same value and the same catalog under both policies. It gives this value ever
after, so it does not matter under which of them the variable is read first. -/
theorem Abreast.retrieve_eq (h : Abreast f g c) (hr : c.IsScalarVar r t) :
    let flat := StorePolicy.flat.retrieve f (.region r) t
    let fine := StorePolicy.region.retrieve g (.region r) t
    fine c = flat c ∧ (flat c).2.WellFormed ∧
      ∀ d, (flat c).2 ≤ d → d.WellFormed → flat d = ((flat c).1, d) ∧ fine d = ((flat c).1, d) := by
  intro flat fine
  refine ⟨h.agreement.retrieve_same hr, Store.wellFormed_retrieveFlat h.agreement.wellFormed hr,
    fun d hd hwf => ?_⟩
  have hcd : c ≤ d := (StorePolicy.grows_retrieve _ _ _ _ c).trans hd
  have hagain : flat d = ((flat c).1, d) := Store.retrieveFlat_again hr hd
  exact ⟨hagain, ((h.agreement.mono hcd hwf).retrieve_same (hr.mono hcd)).trans hagain⟩

/-- The local variable `x` is written, and then the global variable `p` is forgotten. The finer policy makes up
new memory for `p` once, and both policies tell the pointer to it. -/
theorem Abreast.retrieve_eq_forgotten :
    let written := StorePolicy.flat.perform (.bind ⟨1⟩ (.int 7)) {} Store.spaceCatalog
    let forget := MemoryOp.forget { Store.requestOf [⟨3⟩] with includeGlobals := true }
    let flat := StorePolicy.flat.perform forget written.1 Store.spaceCatalog
    let fine := StorePolicy.region.perform forget written.1 flat.2
    Abreast flat.1 fine.1 fine.2 ∧ fine.2.IsScalarVar ⟨3⟩ (.pointer .int) ∧
      StorePolicy.region.retrieve fine.1 (.region ⟨3⟩) (.pointer .int) fine.2 =
        StorePolicy.flat.retrieve flat.1 (.region ⟨3⟩) (.pointer .int) fine.2 ∧
      (StorePolicy.flat.retrieve flat.1 (.region ⟨3⟩) (.pointer .int) fine.2).1 = .pointer ⟨5⟩ := by
  intro written forget flat fine
  have hx : Store.spaceCatalog.IsScalarVar ⟨1⟩ .int :=
    ⟨⟨0⟩, ⟨1⟩, ⟨⟨0⟩, by decide, by decide⟩, rfl, rfl⟩
  have hp : Store.spaceCatalog.IsScalarVar ⟨3⟩ (.pointer .int) :=
    ⟨⟨0⟩, ⟨0⟩, ⟨⟨2⟩, by decide, by decide⟩, rfl, rfl⟩
  have hbind : (MemoryOp.bind ⟨1⟩ (.int 7)).OnScalars Store.spaceCatalog := ⟨⟨_, hx⟩, rfl, rfl⟩
  have hwritten : Abreast written.1 written.1 Store.spaceCatalog := (Abreast.start (by decide)).perform hbind
  have hforget : forget.OnScalars Store.spaceCatalog := fun r hr => ⟨_, mem_singleton.1 hr ▸ hp⟩
  have hforgotten : Abreast flat.1 fine.1 fine.2 := hwritten.perform hforget
  have hp' : fine.2.IsScalarVar ⟨3⟩ (.pointer .int) :=
    ⟨⟨0⟩, ⟨0⟩, ⟨⟨2⟩, by decide +kernel, by decide +kernel⟩, by decide +kernel, rfl⟩
  exact ⟨hforgotten, hp', (hforgotten.retrieve_eq hp').1, by decide +kernel⟩

end PathScout

import Mathlib.Data.List.TakeWhile
import PathScout.Proofs.QuietActions

/-!
# Memory that calls may hold

A call that is not followed may keep what it can reach. The objects that it may change are given
fresh contents, and allocated memory that they pointed to has escaped before the path goes on.

* `Catalog.Whole`, `Catalog.AddsWholes`: regions that are no parts of others, and catalogs that get
  such regions only.
* `Invalidation.Overwrites`: a request replaced a pointer by fresh contents.
* `StorePolicy.mem_lost_of_overwrites`: the symbols of such pointers are told.
* `Allocation.escapeCall_of_mem`: what is told at a call escapes.
* `Exploring.ends_conservativeCall`, `Exploring.ends_widenLoop_forgets`: what calls that are not
  followed and loops that are given up forget. Only calls tell what was lost.
* `Exploring.escapes_of_conservativeCall`: what calls tell escapes before the path goes on.
-/

namespace PathScout

open Catalog Naming List OrderedMap

variable {c d d' : Catalog} {r q : RegionId} {k : BindingKey} {v : Value} {x : SymbolId}
  {request : Invalidation} {s before : Store}

/-! ### Regions that are no parts -/

namespace Catalog

/-- The region is no part of another one, as far as the regions around it tell. -/
def Whole (c : Catalog) (q : RegionId) : Prop :=
  (c.region q).isPart = false ∨ ∀ m ∈ c.chain q, (c.region m).isPart = true

theorem whole_base (c : Catalog) (r : RegionId) : c.Whole (c.base r) := by
  unfold base
  cases h : (c.chain r).dropWhile fun q => (c.region q).isPart with
  | nil => exact .inr (dropWhile_eq_nil_iff.1 h)
  | cons q rest =>
    have hhead := head?_dropWhile_not (fun q => (c.region q).isPart) (c.chain r)
    rw [h] at hhead
    exact .inl (by simpa using hhead)

/-- What a region lies in and is no part itself is the object of the region, or that lies in it. -/
theorem Whole.mem_chain_base (hq : c.Whole q) (hr : q ∈ c.chain r) : q ∈ c.chain (c.base r) := by
  induction r using chain_induction c with
  | top r h =>
    suffices hbase : c.base r = r by rwa [hbase]
    rw [base, chain_of_none h, dropWhile_cons]
    split <;> rfl
  | inner r p h ih =>
    by_cases hpart : (c.region r).isPart = true
    · rw [chain_of_some h] at hr
      rcases mem_cons.1 hr with rfl | hr
      · -- the region is a part: all that it lies in are parts too
        have hall := hq.resolve_left (by rw [hpart]; exact Bool.noConfusion)
        rw [base, dropWhile_eq_nil_iff.2 hall]
        exact mem_chain_self
      · have hmem := ih hr
        cases hdrop : (c.chain p).dropWhile fun q => (c.region q).isPart with
        | nil =>
          rw [base, chain_of_some h, dropWhile_cons, if_pos hpart, hdrop]
          exact (chain_of_some h) ▸ mem_cons_of_mem _ hr
        | cons a rest =>
          have hbase : c.base r = c.base p := by
            rw [base, base, chain_of_some h, dropWhile_cons, if_pos hpart, hdrop]
            rfl
          rwa [hbase]
    · rwa [base_of_not_part (Bool.eq_false_iff.2 hpart)]

/-- The catalog got more regions, but none that is a part. -/
structure AddsWholes (c d : Catalog) : Prop where
  le : c ≤ d
  has {r : RegionId} : (d.region r).isPart = true → c.Has r

theorem AddsWholes.refl (c : Catalog) : c.AddsWholes c := ⟨le_rfl, has_of_isPart⟩

theorem AddsWholes.trans (h : c.AddsWholes d) (h' : d.AddsWholes d') : c.AddsWholes d' where
  le := h.le.trans h'.le
  has {r} hr := h.has (by rwa [← region_mono h'.le (h'.has hr)])

theorem Whole.mono (hq : c.Whole q) (h : c.AddsWholes d) : d.Whole q := by
  by_cases hhas : c.Has q
  · rw [Whole, region_mono h.le hhas, chain_mono h.le hhas]
    exact hq.imp_right fun hall m hm => by
      rw [region_mono h.le (hhas.of_mem_chain hm)]
      exact hall m hm
  · exact .inl (Bool.eq_false_iff.2 fun hpart => hhas (h.has hpart))

end Catalog

namespace Naming

variable {α β : Type}

/-- The action names no parts. -/
def AddsWholes (act : Naming α) : Prop := ∀ c, Catalog.AddsWholes c (act c).2

theorem addsWholes_pure (a : α) : (pure a : Naming α).AddsWholes := Catalog.AddsWholes.refl

theorem addsWholes_query (f : Catalog → α) : (query f).AddsWholes := Catalog.AddsWholes.refl

theorem AddsWholes.bind {act : Naming α} {f : α → Naming β} (h : act.AddsWholes)
    (hf : ∀ a, (f a).AddsWholes) : (act >>= f).AddsWholes := fun c =>
  (h c).trans (hf (act c).1 (act c).2)

theorem addsWholes_region {a : Region} (ha : a.isPart = false) : (region a).AddsWholes := fun c =>
  ⟨grows_region a c, fun {r} hr => by
    rcases Interned.get?_of_get?_intern (has_of_isPart hr).get? with h | ⟨-, h⟩
    · exact has_of_get? h
    · have heq : (region a c).2.region r = a := h
      rw [heq, ha] at hr
      cases hr⟩

theorem addsWholes_symbol (a : Symbol) : (symbol a).AddsWholes := fun c =>
  ⟨grows_symbol a c, has_of_isPart⟩

theorem addsWholes_var (v : VarId) (frame : FrameId) : (var v frame).AddsWholes :=
  (addsWholes_query _).bind fun _ => (addsWholes_region rfl).bind fun _ => addsWholes_region rfl

theorem addsWholes_symbolValue (x : SymbolId) : (symbolValue x).AddsWholes := by
  refine (addsWholes_query _).bind fun t => ?_
  split
  · exact AddsWholes.bind ((addsWholes_region rfl).bind fun _ => addsWholes_region rfl) fun _ =>
      addsWholes_pure _
  · exact addsWholes_pure _

end Naming

/-- What the action gives satisfies the condition, in the catalog that it leaves. -/
def Naming.Yields {α : Type} (act : Naming α) (c : Catalog) (post : α → Catalog → Prop) : Prop :=
  post (act c).1 (act c).2

namespace Naming

variable {α β : Type} {act : Naming α} {f : α → Naming β} {post : β → Catalog → Prop}

theorem yields_bind (h : (f (act c).1).Yields (act c).2 post) : (act >>= f).Yields c post := h

theorem yields_ite {p : Prop} [Decidable p] {a b : Naming β} (ha : p → a.Yields c post)
    (hb : ¬ p → b.Yields c post) : (if p then a else b : Naming β).Yields c post := by
  split
  · next hp => exact ha hp
  · next hp => exact hb hp

end Naming

/-! ### Pointers that are overwritten -/

/-- A pointer into the memory of the symbol was bound in an object, and a request replaced it by
fresh contents of the object. -/
def Invalidation.Overwrites (request : Invalidation) (c : Catalog) (before : Store) (d : Catalog)
    (after : Store) (x : SymbolId) : Prop :=
  ∃ k r, c.Has k.region ∧ before.bindings.get? k = some (.pointer r) ∧
    c.symbolicBase? r = some x ∧ after.bindings.get? k ≠ some (.pointer r) ∧
    ∃ v, after.bindings.get? (Store.contentsKey d (c.base k.region)) = some v ∧
      Store.IsContents request d (c.base k.region) v

namespace Store

/-- A value that a binding holds, and the symbol that it shows. -/
structure Holds (s : Store) (c : Catalog) (k : BindingKey) (v : Value) (x : SymbolId) : Prop where
  has : c.Has k.region
  value : s.bindings.get? k = some v
  shown : shownSymbol? c v = some x

theorem shownSymbol?_mono (hcd : c ≤ d) (h : shownSymbol? c v = some x) :
    shownSymbol? d v = some x := by
  cases v with
  | symbol y => exact h
  | loc l =>
    cases l with
    | address n => cases h
    | region r =>
      change c.symbolicBase? r = some x at h
      show d.symbolicBase? r = some x
      have hr : c.Has r := by
        by_contra hhas
        have hregion := region_of_not_has hhas
        rw [Catalog.symbolicBase?, base_of_not_part (by rw [hregion]; rfl), hregion] at h
        cases h
      unfold Catalog.symbolicBase? at h ⊢
      split at h
      · next y p hbase =>
        have hhas : c.Has (c.base r) := has_of_parent? (p := p) (by rw [hbase]; rfl)
        rw [base_mono hcd hr, region_mono hcd hhas, hbase]
        exact h
      · cases h
  | _ => cases h

theorem Holds.mono (h : s.Holds c k v x) (hcd : c ≤ d) : s.Holds d k v x :=
  ⟨h.has.mono hcd, h.value, shownSymbol?_mono hcd h.shown⟩

/-- What became of a binding so far: its symbol was told, or it is still there, or its object was
swept away with the memory space that it lies in, and holds nothing. -/
def Told (b : RegionId) (k : BindingKey) (v : Value) (x : SymbolId) (s : Store)
    (symbols : List SymbolId) : Prop :=
  x ∈ symbols ∨ s.bindings.get? k = some v ∨ ∀ key, key.region = b → s.bindings.get? key = none

variable {symbols : List SymbolId}

theorem conjureContents_region (b : RegionId) (request : Invalidation) (c : Catalog) :
    (conjureContents b request c).1.1.region = b := by
  by_cases hs : (c.valueType? b).any (·.isScalar) = true
  · exact congrArg (·.1.1.region) (conjureContents_of_scalar hs)
  · exact congrArg (·.1.1.region) (conjureContents_of_not_scalar (Bool.eq_false_iff.2 hs))

theorem addsWholes_conjureContents (b : RegionId) (request : Invalidation) :
    (conjureContents b request).AddsWholes := by
  refine (addsWholes_query _).bind fun t => (addsWholes_symbol _).bind fun x => ?_
  split
  · exact (addsWholes_symbolValue x).bind fun _ => addsWholes_pure _
  · exact addsWholes_pure _

/-- Of what was bound, only what does not lie in a forgotten object is left. -/
theorem get?_renew_of_ne (h : k.region ≠ q) : (s.renew request c q).bindings.get? k =
    if q ∈ c.chain k.region then none else s.bindings.get? k := by
  have hne : k ≠ (conjureContents q request c).1.1 := fun e => h (by rw [e, conjureContents_region])
  rw [renew, get?_insert_of_ne hne, get?_kill]

/-- When an object is forgotten, the symbols in it are told. -/
theorem Told.renew (h : Told (c.base k.region) k v x s symbols) (hk : before.Holds c k v x)
    (hq : c.Whole q) : Told (c.base k.region) k v x (s.renew request c q)
      (symbols ++ (before.ofObject c q).filterMap (shownSymbol? c)) := by
  by_cases hbase : c.base k.region = q
  · refine .inl (mem_append_right _ (mem_filterMap.2 ⟨v, ?_, hk.shown⟩))
    exact mem_filterMap.2 ⟨(k, v), mem_of_lookup_eq hk.value, if_pos hbase⟩
  · have hnone : q ∈ c.chain (c.base k.region) ∨
        (∀ key, key.region = c.base k.region → s.bindings.get? key = none) →
          ∀ key, key.region = c.base k.region → (s.renew request c q).bindings.get? key = none := by
      intro hcase key hkey
      rw [get?_renew_of_ne (hkey.trans_ne hbase), hkey]
      rcases hcase with hin | hall
      · exact if_pos hin
      · rw [hall key hkey, ite_self]
    rcases h with hmem | hvalue | hall
    · exact .inl (mem_append_left _ hmem)
    · by_cases hin : q ∈ c.chain k.region
      · exact .inr (.inr (hnone (.inl (hq.mem_chain_base hin))))
      · have hne : k.region ≠ q := fun e => hin (e ▸ mem_chain_self)
        exact .inr (.inl (by rw [get?_renew_of_ne hne, if_neg hin, hvalue]))
    · exact .inr (.inr (hnone (.inr hall)))

/-- **Forgetting objects tells the symbols that are lost.** -/
theorem told_forget {steps : Nat} {stack seen : List RegionId} (hk : before.Holds c k v x)
    (hstack : ∀ q ∈ stack, c.Whole q) (h : Told (c.base k.region) k v x s symbols) :
    let out := forget before request steps stack seen s symbols c
    Told (c.base k.region) k v x out.1.1 out.1.2 := by
  induction steps generalizing stack seen s symbols c with
  | zero => exact h
  | succ steps ih =>
    cases stack with
    | nil => exact h
    | cons q stack =>
      unfold forget
      rw [bind_apply, query_apply]
      by_cases hskip : (seen.contains q || isImmutable c q) = true
      · rw [if_pos hskip]
        exact ih hk (fun p hp => hstack p (mem_cons_of_mem _ hp)) h
      · rw [if_neg hskip]
        have hadds := addsWholes_conjureContents q request c
        have hbase := base_mono hadds.le hk.has
        have htold : Told (c.base k.region) k v x (s.renew request c q) _ :=
          h.renew hk (hstack q mem_cons_self)
        rw [← hbase] at htold ⊢
        refine ih (hk.mono hadds.le) (fun p hp => ?_) htold
        rcases mem_append.1 hp with hp | hp
        · obtain ⟨e, -, r, -, rfl⟩ := mem_targets (mem_reverse.1 hp)
          exact (c.whole_base r).mono hadds
        · exact (hstack p (mem_cons_of_mem _ hp)).mono hadds

theorem whole_mapM_var (frame : FrameId) (vars : List VarId) (c : Catalog) :
    let out := (vars.mapM fun v => var v frame : Naming (List RegionId)) c
    c.AddsWholes out.2 ∧ ∀ q ∈ out.1, out.2.Whole q := by
  induction vars generalizing c with
  | nil => exact ⟨.refl c, fun _ h => by cases h⟩
  | cons v vars ih =>
    rw [mapM_cons]
    obtain ⟨hadds, hwhole⟩ := ih (var v frame c).2
    refine ⟨(addsWholes_var v frame c).trans hadds, fun q hq => ?_⟩
    have hvar : (var v frame c).2.Whole (var v frame c).1 :=
      .inl (isVar_var v frame c).isPart_eq
    rcases mem_cons.1 hq with he | hq
    · exact he ▸ hvar.mono hadds
    · exact hwhole q hq

theorem whole_invalidationRoots (request : Invalidation) (c : Catalog) :
    let out := invalidationRoots request c
    c.AddsWholes out.2 ∧ ∀ q ∈ out.1, out.2.Whole q := by
  have hgiven : ∀ q ∈ request.regions.map c.base, c.Whole q := fun q hq => by
    obtain ⟨r, -, rfl⟩ := mem_map.1 hq
    exact c.whole_base r
  unfold invalidationRoots
  rw [bind_apply, query_apply]
  by_cases hg : request.includeGlobals = true
  · rw [if_pos hg]
    obtain ⟨hadds, hwhole⟩ := whole_mapM_var request.frame c.program.globalVars c
    refine ⟨hadds, fun q hq => ?_⟩
    rcases mem_append.1 hq with hq | hq
    · exact (hgiven q hq).mono hadds
    · exact hwhole q hq
  · rw [if_neg hg]
    exact ⟨.refl c, hgiven⟩

theorem told_invalidate (request : Invalidation) (hk : s.Holds c k v x) :
    let out := s.invalidate request c
    Told (c.base k.region) k v x out.1.1 out.1.2 := by
  obtain ⟨hadds, hwhole⟩ := whole_invalidationRoots request c
  rw [← base_mono hadds.le hk.has]
  exact told_forget (hk.mono hadds.le) (fun q hq => hwhole q (mem_reverse.1 hq)) (.inr (.inl hk.value))

/-! ### Flat memory -/

theorem isScalar_of_isScalarVar (h : isScalarVar c r = true) :
    (c.valueType? r).any (·.isScalar) = true := by
  unfold isScalarVar at h
  split at h
  · exact h
  · cases h

/-- Forgetting scalar variables tells the symbols that are lost. -/
theorem told_forgetFlat {objects seen : List RegionId} (hk : before.Holds c k v x)
    (h : x ∈ symbols ∨ s.bindings.get? k = some v) :
    let out := forgetFlat before request objects seen s symbols c
    x ∈ out.1.2 ∨ out.1.1.bindings.get? k = some v := by
  induction objects generalizing seen s symbols c with
  | nil => exact h
  | cons r objects ih =>
    unfold forgetFlat
    rw [bind_apply, query_apply]
    by_cases hskip : (seen.contains r || !isScalarVar c r) = true
    · rw [if_pos hskip]
      exact ih hk h
    · rw [if_neg hskip]
      have hscalar : isScalarVar c r = true := by
        rw [Bool.or_eq_true, not_or, Bool.not_eq_true, Bool.not_eq_true] at hskip
        simpa using hskip.2
      have hkey : (conjureContents r request c).1.1 = .direct r :=
        congrArg (·.1.1) (conjureContents_of_scalar (isScalar_of_isScalarVar hscalar))
      refine ih (hk.mono (grows_conjureContents r request c)) ?_
      rcases h with hmem | hvalue
      · exact .inl (mem_append_left _ hmem)
      · by_cases hkr : k = .direct r
        · refine .inl (mem_append_right _ (Option.mem_toList.2 ?_))
          rw [direct?, ← hkr, hk.value]
          exact hk.shown
        · have hne : k ≠ (conjureContents r request c).1.1 := fun e => hkr (e.trans hkey)
          exact .inr ((get?_insert_of_ne hne).trans hvalue)

end Store

/-- **The symbols of the pointers that are overwritten are told.** -/
theorem StorePolicy.mem_lost_of_overwrites (p : StorePolicy)
    (h : request.Overwrites c s d (p.invalidate s request c).1.1 x) :
    x ∈ (p.invalidate s request c).1.2 := by
  obtain ⟨k, r, hhas, hvalue, hx, hlost, w, hw, -⟩ := h
  have hk : s.Holds c k (.pointer r) x := ⟨hhas, hvalue, hx⟩
  cases p with
  | region =>
    rcases Store.told_invalidate request hk with hmem | hkept | hnone
    · exact hmem
    · exact absurd hkept hlost
    · cases hw.symm.trans (hnone _ Store.contentsKey_region)
  | flat =>
    have hroots := (Store.whole_invalidationRoots request c).1.le
    exact (Store.told_forgetFlat (hk.mono hroots) (.inr hvalue)).resolve_right hlost

/-! ### What is told escapes -/

namespace Allocation

variable {sym y : SymbolId} {origin : ExprId} {t : State} {symbols : List SymbolId}

/-- The memory is held, or it has escaped. -/
def MayEscape (t : State) (sym : SymbolId) (origin : ExprId) : Prop :=
  t.heap.get? sym = some ⟨.allocated, origin⟩ ∨ t.heap.get? sym = some ⟨.escaped, origin⟩

theorem escapeSymbol_of_ne (h : sym ≠ y) : (escapeSymbol t y).heap.get? sym = t.heap.get? sym := by
  unfold escapeSymbol
  split
  · exact get?_insert_of_ne h
  · rfl

theorem escapeSymbol_self (h : MayEscape t sym origin) :
    (escapeSymbol t sym).heap.get? sym = some ⟨.escaped, origin⟩ := by
  unfold escapeSymbol
  rcases h with h | h
  · rw [h]
    exact get?_insert_self ..
  · rw [h]
    exact h

theorem escapeSymbol_of_escaped (h : t.heap.get? sym = some ⟨.escaped, origin⟩) (y : SymbolId) :
    (escapeSymbol t y).heap.get? sym = some ⟨.escaped, origin⟩ := by
  by_cases hy : sym = y
  · exact hy ▸ escapeSymbol_self (.inr h)
  · rwa [escapeSymbol_of_ne hy]

theorem MayEscape.escapeSymbol (h : MayEscape t sym origin) (y : SymbolId) :
    MayEscape (escapeSymbol t y) sym origin := by
  by_cases hy : sym = y
  · exact .inr (hy ▸ escapeSymbol_self h)
  · rwa [MayEscape, escapeSymbol_of_ne hy]

theorem MayEscape.foldl_escapeValue (h : MayEscape t sym origin) (values : List Value) :
    MayEscape (values.foldl (escapeValue c) t) sym origin := by
  induction values generalizing t with
  | nil => exact h
  | cons v values ih =>
    refine ih ?_
    unfold escapeValue
    split
    · exact h.escapeSymbol _
    · exact h

theorem foldl_escapeSymbol_of_escaped (h : t.heap.get? sym = some ⟨.escaped, origin⟩) :
    (symbols.foldl escapeSymbol t).heap.get? sym = some ⟨.escaped, origin⟩ := by
  induction symbols generalizing t with
  | nil => exact h
  | cons y symbols ih => exact ih (escapeSymbol_of_escaped h y)

theorem foldl_escapeSymbol_of_mem (h : MayEscape t sym origin) (hmem : sym ∈ symbols) :
    (symbols.foldl escapeSymbol t).heap.get? sym = some ⟨.escaped, origin⟩ := by
  induction symbols generalizing t with
  | nil => cases hmem
  | cons y symbols ih =>
    rw [foldl_cons]
    rcases mem_cons.1 hmem with rfl | hmem
    · exact foldl_escapeSymbol_of_escaped (escapeSymbol_self h)
    · exact ih (h.escapeSymbol y) hmem

/-- What is told at a call escapes. -/
theorem escapeCall_of_mem {call : CallEvent} (h : MayEscape t sym origin)
    (hmem : sym ∈ call.invalidated) :
    (escapeCall c t call).heap.get? sym = some ⟨.escaped, origin⟩ :=
  foldl_escapeSymbol_of_mem (h.foldl_escapeValue call.args) hmem

end Allocation

/-! ### Calls and loops of an exploration -/

namespace Exploring

variable {o : Options} {e e₁ e₂ : Exploration} {pred n : NodeId} {point : Point} {call : CallEvent}
  {spot : Spot} {out : Outcome} {sym : SymbolId} {origin : ExprId}

/-- No checker but that of allocated memory has anything to say to the end of a call. -/
theorem check_callEnds {checker : Checker} (h : checker ≠ .malloc) (call : CallEvent)
    (scene : Scene) : checker.check (.callEnds call) scene = pure .pass := by
  cases checker with
  | malloc => exact absurd rfl h
  | _ => rfl

theorem check_malloc_callEnds (h : call.conservative = true) (scene : Scene) (c : Catalog) :
    Checker.malloc.check (.callEnds call) scene c =
      (.proceed (Allocation.escapeCall c scene.state call), c) := by
  show Allocation.check (.callEnds call) scene c = _
  unfold Allocation.check
  dsimp only
  rw [if_pos h]
  rfl

/-- At the end of a call that was not followed, what it was told to hold escapes. -/
theorem ends_consultAll_callEnds (o : Options) (visits : Nat) (h : call.conservative = true)
    (checkers : List Checker) :
    (consultAll o point visits (.callEnds call) checkers n).Ends e fun n? e' =>
      ∃ m, n? = some m ∧ ∀ sym ∈ call.invalidated, ∀ origin,
        (e.graph.state n).heap.get? sym = some ⟨.escaped, origin⟩ ∨
          .malloc ∈ checkers ∧ Allocation.MayEscape (e.graph.state n) sym origin →
        (e'.graph.state m).heap.get? sym = some ⟨.escaped, origin⟩ := by
  induction checkers generalizing n e with
  | nil => exact ends_pure ⟨n, rfl, fun sym _ origin h => h.resolve_right fun h => by cases h.1⟩
  | cons checker rest ih =>
    refine ends_query_bind ?_
    by_cases hchecker : checker = .malloc
    · subst hchecker
      have hverdict : (naming (Checker.malloc.check (.callEnds call)
          ⟨e.graph.state n, point.tagged .malloc, visits, e.frames, o.store⟩)).Ends e
          fun verdict e' => verdict = .proceed (Allocation.escapeCall e.catalog (e.graph.state n) call) ∧
            e'.graph = e.graph :=
        ⟨_, _, rfl, congrArg (·.1) (check_malloc_callEnds h _ _), rfl⟩
      refine hverdict.bind ?_
      rintro _ d ⟨rfl, hd⟩
      have hobey : (obey n (point.tagged .malloc) (.proceed
          (Allocation.escapeCall e.catalog (e.graph.state n) call))).Ends d fun n? e' =>
          ∃ m, n? = some m ∧
            e'.graph.state m = Allocation.escapeCall e.catalog (e.graph.state n) call :=
        (ends_settle_state _).bind fun m d' hm => ends_pure ⟨m, rfl, hm.state_eq⟩
      refine hobey.bind ?_
      rintro _ d' ⟨m, rfl, hm⟩
      refine ih.imp ?_
      rintro _ e' ⟨m', rfl, hm'⟩
      refine ⟨m', rfl, fun sym hsym origin hcase => hm' sym hsym origin (.inl ?_)⟩
      rw [hm]
      exact Allocation.escapeCall_of_mem (hcase.elim .inr And.right) hsym
    · rw [check_callEnds hchecker]
      refine ih.imp ?_
      rintro _ e' ⟨m, rfl, hm⟩
      refine ⟨m, rfl, fun sym hsym origin hcase => hm sym hsym origin (hcase.imp_right ?_)⟩
      rintro ⟨hmem, hmay⟩
      exact ⟨(mem_cons.1 hmem).resolve_left (Ne.symm hchecker), hmay⟩

theorem ends_naming_of {α : Type} {act : Naming α} {P : α → Catalog → Prop}
    (h : act.Yields e.catalog P) :
    (naming act).Ends e fun a e' => e'.graph = e.graph ∧ P a e'.catalog := ⟨_, _, rfl, rfl, h⟩

/-- What a call that is not followed forgets. -/
def callRequest (o : Options) (spot : Spot) (call : CallEvent) (c : Catalog) : Invalidation :=
  ⟨exposed c call.args, call.expr, call.frame, spot.count, o.invalidateGlobals⟩

/-- A call that is not followed changes memory and tells what memory held. Allocations stay. -/
theorem ends_conservativeCall (o : Options) (spot : Spot) (pred : NodeId) (call : CallEvent)
    (e : Exploration) :
    let request := callRequest o spot call e.catalog
    let forgotten := o.store.invalidate (e.graph.state pred).store request e.catalog
    (conservativeCall o spot pred call).Ends e fun out e₁ => e₁.graph = e.graph ∧
      forgotten.2 ≤ e₁.catalog ∧ out.state.heap = (e.graph.state pred).heap ∧
      out.state.store = forgotten.1.1 ∧
      out.call = some { call with conservative := true, invalidated := forgotten.1.2 } := by
  intro request forgotten
  refine ends_query_bind (ends_naming_of (P := fun (out : Outcome) d => forgotten.2 ≤ d ∧
    out.state.heap = (e.graph.state pred).heap ∧ out.state.store = forgotten.1.1 ∧
      out.call = some { call with conservative := true, invalidated := forgotten.1.2 }) ?_)
  refine yields_bind (yields_bind (yields_bind ?_))
  refine yields_ite (fun _ => ?_) fun _ => ?_
  · exact ⟨le_rfl, rfl, rfl, rfl⟩
  · exact ⟨grows_scalarValue _ _, rfl, rfl, rfl⟩

/-- A loop changes memory only, and keeps what memory held to itself. -/
theorem ends_widenLoop_forgets {t : State} {b : Block} {f : FrameId} {x : ExprId} {g : Function}
    {regions : List RegionId} {count : Nat} (hx : loopExpr? b = some x)
    (hf : (functionOf f).Ends e fun g' e' => g' = g ∧ e' = e)
    (hvars : ((g.params ++ (g.body.map (·.locals)).getD []).mapM (var · f) :
      Naming (List RegionId)) e.catalog = (regions, e.catalog)) :
    let forgotten := o.store.invalidate t.store ⟨regions, x, f, count, true⟩ e.catalog
    (widenLoop o t b f count).Ends e fun t' e' =>
      t' = { t with store := forgotten.1.1 } ∧ e'.catalog = forgotten.2 := by
  intro forgotten
  unfold widenLoop
  rw [hx]
  refine hf.bind ?_
  rintro _ _ ⟨rfl, rfl⟩
  refine (ends_naming_of (P := fun (t' : State) d =>
    t' = { t with store := forgotten.1.1 } ∧ d = forgotten.2) ?_).imp fun _ _ h => h.2
  refine yields_bind ?_
  rw [hvars]
  exact ⟨rfl, rfl⟩

/-- **Memory that a call may hold is never missed.** A call that is not followed goes on from one
node, unless a path came to the same point in the same state before. If allocated memory is followed,
then whatever is allocated and was pointed to by memory that the call replaced by fresh contents has
escaped at that node. -/
theorem escapes_of_conservativeCall (hmalloc : .malloc ∈ o.checkers) (spot : Spot) (pred : NodeId)
    (call : CallEvent) (e : Exploration) :
    (conservativeCall o spot pred call).Ends e fun out e₁ =>
      (finishElement o spot out).Ends e₁ fun _ e₂ =>
        (∃ n, e₁.graph.node? n = some ⟨spot.after, out.state, false⟩) ∨
        ∃ n, e₂.worklist = e₁.worklist.push ⟨n, spot.visits⟩ ∧ Stands e₂ n spot.after ∧
          ∀ sym origin, (e.graph.state pred).heap.get? sym = some ⟨.allocated, origin⟩ →
            (callRequest o spot call e.catalog).Overwrites e.catalog (e.graph.state pred).store
              e₁.catalog out.state.store sym →
            (e₂.graph.state n).heap.get? sym = some ⟨.escaped, origin⟩ := by
  refine (ends_conservativeCall o spot pred call e).imp ?_
  rintro ⟨pred', t, call'⟩ e₁ ⟨-, -, hheap, hstore, rfl⟩
  dsimp only at hheap hstore ⊢
  have harrive : (arrive pred' ⟨spot.after, t, false⟩).Ends e₁ fun a d =>
      a = (e₁.graph.add ⟨spot.after, t, false⟩).1 ∧ d = arrived e₁ pred' ⟨spot.after, t, false⟩ :=
    ⟨_, _, rfl, rfl, rfl⟩
  refine harrive.bind ?_
  rintro _ _ ⟨rfl, rfl⟩
  have hnode := node?_arrived e₁ pred' ⟨spot.after, t, false⟩
  rcases PathGraph.add_cases e₁.graph ⟨spot.after, t, false⟩ with ⟨n, hn, hadd⟩ | ⟨hadd, -, -⟩
  · rw [hadd]
    exact ends_pure (.inl ⟨n, hn⟩)
  · rw [hadd] at hnode ⊢
    refine ((ends_consult o spot.count _).and
      (ends_consultAll_callEnds o spot.count rfl o.checkers)).bind ?_
    rintro _ d ⟨⟨hstays, hstands⟩, m, rfl, hescaped⟩
    refine ⟨_, _, rfl, .inr ⟨m, congrArg (Worklist.push · _) hstays.worklist,
      (hstands m rfl).stands ⟨_, hnode, rfl, rfl⟩, fun sym origin hsym hover => ?_⟩⟩
    rw [hstore] at hover
    refine hescaped sym (o.store.mem_lost_of_overwrites hover) origin (.inr ⟨hmalloc, .inl ?_⟩)
    rw [PathGraph.state_eq hnode]
    exact hheap ▸ hsym

/-! ### A pointer that is held -/

/-- The program `int *malloc(int); void keep(int **); void f(void) { int *p = malloc(4); keep(&p); }`
with the type of its variable and of its calls. -/
def heldProgram : Program where
  file := ""
  exprs := #[⟨.call ⟨1⟩ [], .pointer .int, default⟩, ⟨.call ⟨2⟩ [], .void, default⟩]
  vars := #[⟨"p", .pointer .int, .local, some ⟨0⟩, default⟩]
  functions := #[{ (default : Function) with name := "f", body := some ⟨⟨#[], ⟨0⟩, ⟨0⟩⟩, [⟨0⟩], ⟨#[], []⟩⟩ },
    { (default : Function) with name := "malloc" }, { (default : Function) with name := "keep" }]

/-- The variable is the region 1, and the allocated memory is the region 3. -/
def heldCatalog : Catalog where
  program := heldProgram
  regions := .ofList [.space (.locals ⟨0⟩), .var ⟨0⟩ ⟨0⟩, .space .heap, .symbolic ⟨0⟩ ⟨2⟩] (by decide)
  symbols := .ofList [.conjured ⟨0⟩ ⟨0⟩ (.pointer .int) 1 none] (by decide)

/-- The variable points to the allocated memory. -/
def heldState : State where
  store := ⟨⟨[(.direct ⟨1⟩, .pointer ⟨3⟩)]⟩⟩
  heap := ⟨[(⟨0⟩, ⟨.allocated, ⟨0⟩⟩)]⟩

/-- An exploration that stands in this state, in the frame of the function. -/
def heldExploration : Exploration where
  catalog := heldCatalog
  frames := (Frames.top ∅ ⟨0⟩).2
  graph := (PathGraph.add {} ⟨⟨.entrance ⟨0⟩, topFrame, none⟩, heldState, false⟩).2
  worklist := { order := .depthFirst }

theorem base_heldCatalog : heldCatalog.base ⟨1⟩ = ⟨1⟩ := base_of_not_part rfl

theorem node?_heldExploration (n : NodeId) : heldExploration.graph.node? n =
    if n.index = 0 then some ⟨⟨.entrance ⟨0⟩, topFrame, none⟩, heldState, false⟩ else none := by
  obtain ⟨_ | i⟩ := n
  · decide +kernel
  · rfl

/-- The pointer is overwritten by any request to forget the variable. -/
theorem overwrites_held {request : Invalidation} (hregions : request.regions = [⟨1⟩])
    (hd : (heldState.store.invalidate request heldCatalog).2 ≤ d) :
    request.Overwrites heldCatalog heldState.store d
      (heldState.store.invalidate request heldCatalog).1.1 ⟨0⟩ := by
  have hheld : heldCatalog.base ⟨3⟩ = ⟨3⟩ := base_of_not_part rfl
  obtain ⟨hle, -, hkeys, hrenewed⟩ := Store.invalidate_spec request (r := ⟨1⟩) (s := heldState.store)
    (c := heldCatalog) (by decide) (by decide) (by rw [hregions]; decide)
    (by rw [hregions]; exact mem_cons_self) (by decide +kernel) (by decide +kernel) (by
      rw [hregions]
      rintro p (hp | ⟨k, hp⟩)
      · cases mem_singleton.1 hp
        decide +kernel
      · cases mem_singleton.1 hp
        decide +kernel)
  rw [base_heldCatalog] at hrenewed
  have hvar : heldCatalog.Has ⟨1⟩ := by decide
  obtain ⟨v, hv, hcontents⟩ := (hrenewed.mono hd (hvar.mono hle) hkeys).contents
  refine ⟨.direct ⟨1⟩, ⟨3⟩, hvar, rfl, ?_, fun hkept => ?_, v, base_heldCatalog.symm ▸ hv,
    base_heldCatalog.symm ▸ hcontents⟩
  · rw [Catalog.symbolicBase?, hheld]
    rfl
  · -- what is bound now shows the symbol of the request, which is not the one that was allocated
    have hcd : heldCatalog ≤ d := hle.trans hd
    have hkey : Store.contentsKey d ⟨1⟩ = .direct ⟨1⟩ := (Store.contentsKey_mono hcd hvar).trans rfl
    obtain rfl : v = .pointer ⟨3⟩ := Option.some.inj ((hkey ▸ hv).symm.trans hkept)
    obtain ⟨x, hx, hshows, -⟩ := hcontents
    have hold : (Value.pointer ⟨3⟩).Shows heldCatalog ⟨0⟩ := .inr ⟨⟨3⟩, ⟨2⟩, rfl, rfl⟩
    obtain rfl := hshows.unique (hold.mono hcd)
    have hsymbol : d.symbol ⟨0⟩ = .conjured ⟨0⟩ ⟨0⟩ (.pointer .int) 1 none :=
      symbol_mono (s := ⟨0⟩) hcd Nat.zero_lt_one
    cases (Symbol.conjured.inj (hsymbol.symm.trans hx)).2.2.2.2

/-- The event of the call `keep(&p)`. -/
def heldCall : CallEvent where
  expr := ⟨1⟩
  callee := ⟨2⟩
  name := "keep"
  args := [.pointer ⟨1⟩]
  argExprs := [⟨1⟩]
  frame := topFrame
  site := ⟨⟨0⟩, 1, ⟨1⟩⟩

/-- The memory that the variable points to escapes at the call. -/
theorem escapes_of_conservativeCall_held :
    (conservativeCall { checkers := [.malloc] } ⟨topFrame, ⟨0⟩, 1, {}⟩ ⟨0⟩ heldCall).Ends heldExploration
      fun out e₁ => (finishElement { checkers := [.malloc] } ⟨topFrame, ⟨0⟩, 1, {}⟩ out).Ends e₁
        fun _ e₂ => ∃ n, n ∈ e₂.worklist.pending.map (·.node) ∧
          (e₂.graph.state n).heap.get? ⟨0⟩ = some ⟨.escaped, ⟨0⟩⟩ := by
  have hstate : heldExploration.graph.state ⟨0⟩ = heldState :=
    PathGraph.state_eq (node?_heldExploration ⟨0⟩)
  have hexposed : exposed heldCatalog heldCall.args = [⟨1⟩] := by decide +kernel
  refine ((ends_conservativeCall _ _ ⟨0⟩ heldCall heldExploration).and
    (escapes_of_conservativeCall (by decide) _ ⟨0⟩ heldCall heldExploration)).imp ?_
  rintro out e₁ ⟨⟨hgraph, hle, -, hstore, -⟩, hends⟩
  rw [hstate] at hstore hle
  refine hends.imp ?_
  rintro _ e₂ (⟨n, hn⟩ | ⟨n, hwork, -, hescapes⟩)
  · rw [hgraph, node?_heldExploration] at hn
    split at hn <;> cases hn
  · refine ⟨n, by rw [hwork]; exact mem_map.2 ⟨_, Worklist.mem_push.2 (.inl rfl), rfl⟩, ?_⟩
    refine hescapes ⟨0⟩ ⟨0⟩ (by rw [hstate]; rfl) ?_
    rw [hstore, hstate]
    exact overwrites_held hexposed hle

/-- A loop that may change the variable is over, with the condition of the call's number. -/
def heldLoop : Block := ⟨#[],
  .branch ⟨1⟩ ⟨0⟩ ⟨0⟩ (.loop .while) ⟨1, 1⟩, true⟩

/-- A loop that forgets the variable leaves the memory allocated that it pointed to. -/
theorem widenLoop_held :
    (widenLoop { checkers := [.malloc] } heldState heldLoop topFrame 4).Ends heldExploration
      fun t e => Invalidation.Overwrites ⟨[⟨1⟩], ⟨1⟩, topFrame, 4, true⟩ heldCatalog heldState.store
          e.catalog t.store ⟨0⟩ ∧
        t.heap.get? ⟨0⟩ = some ⟨.allocated, ⟨0⟩⟩ := by
  have hfunction : (functionOf topFrame).Ends heldExploration fun g e =>
      g = heldProgram.function ⟨0⟩ ∧ e = heldExploration :=
    ⟨heldProgram.function ⟨0⟩, heldExploration, rfl, rfl, rfl⟩
  have hvars : ([⟨0⟩].mapM (Naming.var · topFrame) : Naming (List RegionId)) heldCatalog =
      ([⟨1⟩], heldCatalog) := rfl
  refine (ends_widenLoop_forgets (x := ⟨1⟩) rfl hfunction hvars).imp ?_
  rintro _ e ⟨rfl, he⟩
  exact ⟨he ▸ overwrites_held rfl le_rfl, rfl⟩

end Exploring

end PathScout

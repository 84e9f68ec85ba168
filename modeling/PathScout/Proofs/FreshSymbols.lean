import PathScout.Proofs.ForgetfulSteps
import PathScout.Proofs.SpentSymbols

/-!
# Conjured symbols are fresh

Where memory is forgotten, symbols take the place of what is forgotten. They are fresh: they occur
nowhere in the state before, so that a variable never holds the symbol that it held before.

* `Store.Given`, `StorePolicy.makes_invalidate_anew`: what is bound after forgetting.
* `State.Renews`: symbols are conjured that did not occur before, and no others.
* `Program.conjures_fresh`: this is so where a call is not followed and where a loop is forgotten,
  in every exploration of every program; but a call may stand for the loop that was forgotten last.
-/

namespace PathScout

open Exploring Naming List Option

/-! ### What is given in place -/

/-- The binding shows one of the conjured symbols, for the object that it is in. -/
def Store.Given (K : Set Conjuring) (c : Catalog) (e : BindingKey × Value) : Prop :=
  ∃ y k, e.2.Shows c y ∧ c.HasSymbol y ∧ (c.symbol y).conjuring? = some k ∧ k ∈ K ∧
    k.tag = some e.1.region

section

variable {c d : Catalog} {K : Set Conjuring} {s before : Store} {request : Invalidation}
  {r : RegionId}

theorem Store.Given.mono {e : BindingKey × Value} (h : Given K c e) (hcd : c ≤ d) : Given K d e := by
  obtain ⟨y, k, hshows, hy, hk, hmem, htag⟩ := h
  exact ⟨y, k, hshows.mono hcd, hy.mono hcd, by rwa [Catalog.symbol_mono hcd hy], hmem, htag⟩

namespace Store

variable {seen : List RegionId} {symbols : List SymbolId} {σ : Store}

/-- All bindings are among the earlier ones, or show conjured symbols. -/
def Anew (K : Set Conjuring) (c : Catalog) (before s : Store) : Prop :=
  ∀ e ∈ s.bindings.entries, e ∈ before.bindings.entries ∨ Given K c e

theorem Anew.mono (h : Anew K c before s) (hcd : c ≤ d) : Anew K d before s :=
  fun e he => (h e he).imp_right fun hgiven => hgiven.mono hcd

theorem Anew.subset {Q : Set Conjuring} (h : Anew K c before s) (hKQ : K ⊆ Q) :
    Anew Q c before s := fun e he => (h e he).imp_right fun ⟨y, k, hshows, hy, hk, hmem, htag⟩ =>
  ⟨y, k, hshows, hy, hk, hKQ hmem, htag⟩

theorem Anew.insert {e : BindingKey × Value} (h : Anew K c before s)
    (he : Given K c e) : Anew K c before ⟨s.bindings.insert e.1 e.2⟩ := fun e' he' => by
  rcases OrderedMap.mem_insert he' with rfl | he'
  · exact .inr he
  · exact h e' he'

theorem Anew.kill (h : Anew K c before s) (d : Catalog) (r : RegionId) :
    Anew K c before (s.kill d r) := fun e he => h e (mem_filter.1 he).1

theorem makes_conjureContents_given :
    (conjureContents r request).Makes c fun e d => Given request.conjures d e := by
  refine makes_query_bind ?_
  generalize (c.valueType? r).getD .int = t
  have hsymbol : (symbol (.conjured request.expr request.frame t request.count
      (some r))).Makes c fun y d => d.HasSymbol y ∧
        d.symbol y = .conjured request.expr request.frame t request.count (some r) :=
    ⟨grows_symbol _ c, Interned.lt_size_of_get? (get?_symbol _ c), symbol_symbol _ c⟩
  refine hsymbol.bind fun y d _ hy => ?_
  have hkind : (d.symbol y).conjuring? =
      some ⟨request.expr, request.frame, t, request.count, some r⟩ := by rw [hy.2]; rfl
  have hshown : Given request.conjures d (.default r, .symbol y) :=
    ⟨y, _, .inl rfl, hy.1, hkind, ⟨⟨rfl, rfl, rfl⟩, rfl⟩, rfl⟩
  refine makes_ite (fun _ => ?_) fun _ => makes_pure hshown
  have hvalue : (symbolValue y).Makes d fun v d' => v.Shows d' y :=
    ⟨grows_symbolValue y d, shows_symbolValue y d⟩
  refine hvalue.bind fun v d' hd' hv => makes_pure ?_
  exact ⟨y, _, hv, hy.1.mono hd', by rw [Catalog.symbol_mono hd' hy.1]; exact hkind,
    ⟨⟨rfl, rfl, rfl⟩, rfl⟩, rfl⟩

theorem makes_forget_anew {steps : Nat} {stack : List RegionId} (hs : Anew request.conjures c σ s) :
    (forget before request steps stack seen s symbols).Makes c
      fun out d => Anew request.conjures d σ out.1 := by
  induction steps generalizing c stack seen s symbols with
  | zero => exact makes_pure hs
  | succ steps ih =>
    cases stack with
    | nil => exact makes_pure hs
    | cons object stack =>
      rw [forget]
      refine makes_query_bind (makes_ite (fun _ => ih hs) fun _ => ?_)
      refine makes_query_bind (makes_query_bind ?_)
      exact makes_conjureContents_given.bind fun e d hd he =>
        ih (((hs.kill c object).mono hd).insert he)

theorem makes_forgetFlat_anew {objects : List RegionId} (hs : Anew request.conjures c σ s) :
    (forgetFlat before request objects seen s symbols).Makes c
      fun out d => Anew request.conjures d σ out.1 := by
  induction objects generalizing c seen s symbols with
  | nil => exact makes_pure hs
  | cons r rest ih =>
    rw [forgetFlat]
    refine makes_query_bind (makes_ite (fun _ => ih hs) fun _ => ?_)
    refine makes_query_bind ?_
    exact makes_conjureContents_given.bind fun e d hd he => ih ((hs.mono hd).insert he)

end Store

/-- **What is bound after forgetting** was bound before, or is conjured for its object. -/
theorem StorePolicy.makes_invalidate_anew (p : StorePolicy) (s : Store) :
    (p.invalidate s request).Makes c fun out d => Store.Anew request.conjures d s out.1 := by
  have hroots : (Store.invalidationRoots request).Makes c fun _ _ => True :=
    ⟨Store.grows_invalidationRoots request c, trivial⟩
  cases p with
  | region => exact hroots.bind fun roots d _ _ => Store.makes_forget_anew fun e he => .inl he
  | flat => exact hroots.bind fun roots d _ _ => Store.makes_forgetFlat_anew fun e he => .inl he

end

/-! ### States -/

/-- A symbol that was conjured so occurs in the value. -/
def Value.Conjured (v : Value) (c : Catalog) (k : Conjuring) : Prop :=
  ∃ y ∈ v.entities, ∃ x, c.Mentions y (.symbol x) ∧ (c.symbol x).conjuring? = some k

/-- A symbol that was conjured so occurs in the state. -/
def State.Conjured (s : State) (c : Catalog) (k : Conjuring) : Prop :=
  ∃ x, s.Mentions c x ∧ (c.symbol x).conjuring? = some k

section

variable {c d : Catalog} {P K : Set Conjuring} {s s' : State} {v : Value} {x : Entity} {k : Conjuring}

/-- What occurs in a region or a symbol is of the set of what does. -/
theorem Catalog.From.own (h : c.From P x) :
    c.From {k | ∃ y, c.Mentions x (.symbol y) ∧ (c.symbol y).conjuring? = some k} x := by
  induction h with
  | region hr _ ih =>
    refine .region hr fun y hy => (ih y hy).subset ?_
    rintro k ⟨z, hz, hk⟩
    exact ⟨z, .ref hy hz, hk⟩
  | symbol hs _ _ ih =>
    refine .symbol hs (fun k hk => ⟨_, .self, hk⟩) fun y hy => (ih y hy).subset ?_
    rintro k ⟨z, hz, hk⟩
    exact ⟨z, .ref hy hz, hk⟩

theorem Value.From.own (h : v.From c P) : v.From c {k | v.Conjured c k} := fun y hy =>
  (h y hy).own.subset fun _ hk => ⟨y, hy, hk⟩

theorem State.From.own (h : s.From c P) : s.From c {k | s.Conjured c k} := fun y hy =>
  (h y hy).own.subset fun _ ⟨x, hx, hk⟩ => ⟨x, ⟨y, hy, hx⟩, hk⟩

theorem State.From.of_conjured (h : s.From c P) (hk : s.Conjured c k) : k ∈ P := by
  obtain ⟨x, hx, hk⟩ := hk
  exact h.mem_of_mentions hx hk

/-- A conjured symbol that a stored value shows occurs in the state. -/
theorem State.From.conjured_of_shows {e : BindingKey × Value} {y : SymbolId} (h : s.From c P)
    (he : e ∈ s.store.bindings.entries) (hcd : c ≤ d) (hy : e.2.Shows d y)
    (hk : (d.symbol y).conjuring? = some k) : s.Conjured c k := by
  obtain ⟨a, v⟩ := e
  -- the value is named in the earlier catalog, and so is the symbol
  obtain ⟨x, hx, hxy⟩ : ∃ x, s.Holds x ∧ c.Mentions x (.symbol y) := by
    rcases hy with rfl | ⟨r, q, rfl, hr⟩
    · exact ⟨_, .stored he mem_cons_self, .self⟩
    · refine ⟨.region r, .stored he mem_cons_self, .ref ?_ .self⟩
      rw [Catalog.region_mono hcd (h _ (.stored he mem_cons_self)).has] at hr
      rw [Catalog.refs, hr]
      exact mem_cons_self
  have hhas := ((h x hx).mentions hxy).hasSymbol
  exact ⟨y, ⟨x, hx, hxy⟩, by rwa [← Catalog.symbol_mono hcd hhas]⟩

/-- **The symbols that are conjured are fresh.** None of them occurs before. Afterwards no other
ones occur than those that occurred before, in the state or in the arguments of a call. What is bound
in memory afterwards and was not bound so before shows one of them, and is no value that was held. -/
structure State.Renews (s : State) (c : Catalog) (args : List Value) (s' : State) (d : Catalog)
    (K : Set Conjuring) : Prop where
  fresh {k : Conjuring} : k ∈ K → ¬ s.Conjured c k
  only {k : Conjuring} : s'.Conjured d k → k ∈ K ∨ s.Conjured c k ∨ ∃ v ∈ args, v.Conjured c k
  anew {e : BindingKey × Value} : e ∈ s'.store.bindings.entries →
    e ∈ s.store.bindings.entries ∨
      Store.Given K d e ∧ ∀ e' ∈ s.store.bindings.entries, e'.2 ≠ e.2

/-- What may occur after an action that conjures. -/
def State.allowed (s : State) (c : Catalog) (args : List Value) (K : Set Conjuring) :
    Set Conjuring :=
  {k | k ∈ K ∨ s.Conjured c k ∨ ∃ v ∈ args, v.Conjured c k}

theorem State.From.renews {args : List Value} (hs : s.From c P) (hcd : c ≤ d)
    (hfresh : ∀ k ∈ K, k ∉ P) (hfrom : s'.From d (s.allowed c args K))
    (hanew : Store.Anew K d s.store s'.store) : s.Renews c args s' d K where
  fresh hk hold := hfresh _ hk (hs.of_conjured hold)
  only hk := hfrom.of_conjured hk
  anew {e} he := by
    refine (hanew e he).imp_right fun hgiven => ⟨hgiven, fun e' he' heq => ?_⟩
    obtain ⟨y, k, hshows, -, hk, hmem, -⟩ := hgiven
    exact hfresh k hmem (hs.of_conjured (hs.conjured_of_shows he' hcd (heq ▸ hshows) hk))

end

namespace Exploring

variable {o : Options} {e d : Exploration} {P : Set Conjuring} {n pred : NodeId} {spot : Spot}
  {call : CallEvent} {s : State} {f : FrameId} {block : Block} {count : Nat} {x : ExprId}

theorem adds_conservativeCall_anew : (conservativeCall o spot pred call).Adds e fun outcome e' =>
      Store.Anew (conjuredFor call.expr call.frame spot.count) e'.catalog (e.graph.state pred).store
        outcome.state.store := by
  refine gives_query_bind ?_
  suffices h : Naming.Makes _ e.catalog fun (outcome : Outcome) d =>
      Store.Anew (conjuredFor call.expr call.frame spot.count) d (e.graph.state pred).store
        outcome.state.store from adds_naming h
  refine makes_query_bind ?_
  let request : Invalidation := ⟨exposed e.catalog call.args, call.expr, call.frame, spot.count,
    o.invalidateGlobals⟩
  have hstore : ((e.graph.state pred).invalidate o.store request).Makes e.catalog fun out d =>
      Store.Anew (conjuredFor call.expr call.frame spot.count) d (e.graph.state pred).store
        out.1.store :=
    (o.store.makes_invalidate_anew _).bind fun _ _ _ h => makes_pure (h.subset fun _ hk => hk.1)
  refine hstore.bind fun out d hd hout => makes_query_bind ?_
  refine makes_ite (fun _ => makes_pure hout) fun _ => ?_
  have hconjure : (conjure call.expr call.frame (d.program.expr call.expr).type
      spot.count).Makes d fun _ _ => True := ⟨grows_scalarValue _ d, trivial⟩
  exact hconjure.bind fun v d' hd' _ => makes_pure (hout.mono hd')

theorem adds_widenLoop_anew (hx : loopExpr? block = some x) :
    (widenLoop o s block f count).Adds e fun s' e' =>
      Store.Anew (conjuredFor x f count) e'.catalog s.store s'.store := by
  unfold widenLoop
  rw [hx]
  refine Gives.bind gives_functionOf ?_
  rintro function d ⟨-, rfl⟩
  suffices h : Naming.Makes _ d.catalog fun (s' : State) d' =>
      Store.Anew (conjuredFor x f count) d' s.store s'.store from adds_naming h
  refine (Store.makes_mapM_var (P := ∅) f _).bind fun regions d' _ _ => ?_
  let request : Invalidation := ⟨regions, x, f, count, true⟩
  have hstore : (s.invalidate o.store request).Makes d' fun out d =>
      Store.Anew (conjuredFor x f count) d s.store out.1.store :=
    (o.store.makes_invalidate_anew _).bind fun _ _ _ h => makes_pure (h.subset fun _ hk => hk.1)
  exact hstore.bind fun _ _ _ h => makes_pure h

/-- A call that is not followed conjures fresh symbols, where none of them is spent. -/
theorem renews_conservativeCall {outcome : Outcome} (hn : e.NodeFrom P n)
    (hargs : ∀ v ∈ call.args, v.From e.catalog P)
    (hfresh : ∀ k ∈ conjuredFor call.expr call.frame spot.count, k ∉ P)
    (hrun : conservativeCall o spot n call e = .ok (outcome, d)) :
    (e.graph.state n).Renews e.catalog call.args outcome.state d.catalog
      (conjuredFor call.expr call.frame spot.count) := by
  let Q := (e.graph.state n).allowed e.catalog call.args
    (conjuredFor call.expr call.frame spot.count)
  have hnode : e.NodeFrom Q n := by
    obtain ⟨x, hx, hs⟩ := hn
    refine ⟨x, hx, hs.own.subset fun k hk => .inr (.inl ?_)⟩
    rwa [PathGraph.state_eq hx]
  have hvalues : ∀ v ∈ call.args, v.From e.catalog Q := fun v hv =>
    (hargs v hv).own.subset fun k hk => .inr (.inr ⟨v, hv, hk⟩)
  obtain ⟨hstays, hfrom⟩ := adds_conservativeCall hnode hvalues (fun k hk => .inl hk) _ _ hrun
  exact hn.state.renews hstays.le hfresh hfrom (adds_conservativeCall_anew _ _ hrun).2

/-- Forgetting a loop conjures fresh symbols, where none of them is spent. -/
theorem renews_widenLoop {s' : State} (hs : s.From e.catalog P) (hx : loopExpr? block = some x)
    (hfresh : ∀ k ∈ conjuredFor x f count, k ∉ P) (hrun : widenLoop o s block f count e = .ok (s', d)) :
    s.Renews e.catalog [] s' d.catalog (conjuredFor x f count) := by
  have hwide : s.From e.catalog (s.allowed e.catalog [] (conjuredFor x f count)) :=
    hs.own.subset fun k hk => .inr (.inl hk)
  obtain ⟨hstays, hfrom⟩ := adds_widenLoop hwide (fun y hy k hk => by
    cases hx.symm.trans hy
    exact .inl hk.1) _ _ hrun
  exact hs.renews hstays.le hfresh hfrom (adds_widenLoop_anew hx _ _ hrun).2

end Exploring

/-! ### The search -/

section

variable {p : Program} {o : Options} {main : FunctionId} {e d : Exploration} {q : Pending} {x : PathNode}
  {spot : Spot} {n : NodeId} {call : CallEvent} {w : Entrance} {globals : Names} {fs : Frames}

/-- A call that is not followed is evaluated once in its block, so that nothing was conjured for it
yet, unless the loop of the block was forgotten for it. -/
theorem Exploring.CallFrom.not_spent (hp : p.Built globals)
    (h : CallFrom p x.point q.visits (Spent p o fs x.point q.visits) d spot n call) (hfs : d.frames = fs)
    (hkept : ∀ block, Frames.HasBlock p fs spot.frame spot.block block →
      ¬ Forgets o block call.expr spot.count) :
    ∀ k ∈ conjuredFor call.expr call.frame spot.count, k ∉ Spent p o fs x.point q.visits := by
  rintro ⟨a, g, t, c, tag⟩ ⟨rfl, rfl, rfl⟩ hk
  obtain ⟨block, root, hat, hel⟩ := h.step
  have hblock := hfs ▸ hat.block
  refine hkept block hblock (Spent.forgets hk hp.evaluatesOnce (h.frame ▸ hblock) hel ?_ ?_).1
  · exact h.frame ▸ .before hat.before
  · rw [h.frame, Spot.count, hat.visits]

/-- Where a block is entered, nothing was conjured for it at the next count. -/
theorem Exploring.EntranceFrom.not_spent {y : ExprId} (hp : p.Built globals)
    (h : EntranceFrom p o q.visits (Spent p o fs x.point q.visits) e d w) (hfs : e.frames = fs)
    (hy : loopExpr? w.block = some y) :
    ∀ k ∈ conjuredFor y w.frame w.count, k ∉ Spent p o fs x.point q.visits := by
  rintro ⟨a, g, t, c, tag⟩ ⟨rfl, rfl, rfl⟩ ⟨b, i, block, root, hb, hel, hle, -⟩
  obtain ⟨j, root', hel'⟩ := hp.exists_of_loopExpr? h.block hy
  obtain ⟨body, ⟨x, hx, hbody⟩, hblock⟩ := hb.mono (hfs ▸ h.frames)
  obtain ⟨body', ⟨x', hx', hbody'⟩, hblock'⟩ := h.block
  obtain ⟨-, rfl, -⟩ := hp.evaluatesOnce _ _ body body' b w.id block w.block i j _ root root' hbody
    hbody' hblock hblock' hel hel'
  have hcount := h.count
  dsimp only at hle
  omega

variable {u : SourceUnit} {file : String} {body : FunctionBody} {steps : Nat} {rest : Worklist}

/-- **Conjured symbols are fresh**, in every exploration. Where a call is evaluated without
following it, none of the symbols that are conjured for it occurs in the state, and where a loop is
forgotten, none of those that are conjured for the loop does. There is one exception: the loop of the
block was forgotten when the block was entered, and the call is the expression that stood for it. -/
theorem Program.conjures_fresh (hu : Program.ofUnit u file = .ok p)
    (hf : (p.function main).body = some body)
    (hsteps : Exploring.Steps o steps (.start o p main) e)
    (hpop : e.worklist.pop? = some (q, rest)) :
    (∀ spot n call d,
      unfollowedCall o q { e with worklist := rest } = .ok (some (spot, n, call), d) →
      ∃ outcome d', conservativeCall o spot n call d = .ok (outcome, d') ∧
        dispatch o q { e with worklist := rest } =
          finishElement o spot outcome d' ∧
        ((∀ block, Frames.HasBlock p d.frames spot.frame spot.block block →
            ¬ Forgets o block call.expr spot.count) →
          (d.graph.state n).Renews d.catalog call.args outcome.state d'.catalog
            (conjuredFor call.expr call.frame spot.count))) ∧
    ∀ w d, forgottenLoop o q { e with worklist := rest } = .ok (some w, d) →
      ∃ s d', widenLoop o (d.graph.state w.pred) w.block w.frame w.count d =
          .ok (s, d') ∧
        dispatch o q { e with worklist := rest } =
          enterForgotten w q.visits s d' ∧
        (loopExpr? w.block = none → s = d.graph.state w.pred) ∧
        ∀ x, loopExpr? w.block = some x →
          (d.graph.state w.pred).Renews d.catalog [] s d'.catalog
            (conjuredFor x w.frame w.count) := by
  obtain ⟨globals, hp⟩ := Program.ofUnit_built hu
  obtain ⟨hexplores, htracks⟩ := (Exploration.explores_start (o := o) hf).tracks_steps hp
    Exploration.tracks_start hsteps
  have hpending := Worklist.pending_of_pop? hpop
  obtain ⟨x, hx, hs⟩ := htracks q (hpending ▸ mem_cons_self)
  have hprogram := hexplores.regular.program
  obtain ⟨d₀, hdispatch, -⟩ := hexplores.cut hp.closed hpop
  refine ⟨fun spot n call d hnext => ?_, fun w d hnext => ?_⟩
  · have heq := dispatch_of_unfollowedCall hnext
    obtain ⟨hstays, hfrom⟩ :=
      adds_unfollowedCall (e := { e with worklist := rest }) hprogram hx hs _ _ hnext
    have hcall := hfrom spot n call rfl
    obtain ⟨outcome, d', hrun, -⟩ := bind_eq_ok.1 (heq.symm.trans hdispatch)
    refine ⟨outcome, d', hrun, heq.trans (bind_of_ok hrun), fun hkept => ?_⟩
    refine renews_conservativeCall hcall.node hcall.args ?_ hrun
    exact hcall.not_spent hp hstays.frames (hstays.frames ▸ hkept)
  · have heq := dispatch_of_forgottenLoop hnext
    have hw := gives_forgottenLoop (e := { e with worklist := rest }) hprogram hx hs _ _
      hnext w rfl
    obtain ⟨s, d', hrun, -⟩ := bind_eq_ok.1 (heq.symm.trans hdispatch)
    refine ⟨s, d', hrun, heq.trans (bind_of_ok hrun), fun hnone => ?_, fun y hy => ?_⟩
    · rw [widenLoop, hnone] at hrun
      cases hrun
      rfl
    · exact renews_widenLoop hw.node.state hy (hw.not_spent hp rfl hy) hrun

end

/-- The unit `int f(void) { int x = 1; while (g(&x)) ; return x; }`. -/
def renewingUnit : SourceUnit :=
  let l : Location := ⟨1, 1⟩
  let x : Expr := .ident (.point l) "x"
  .single .int [] [.decl l [⟨"x", .int, some (.expr (.int (.point l) 1)), false, l⟩],
    .whileDo l (.call (.point l) "g" [.unary (.point l) .addrOf x]) (.empty l), .return l (some x)]

/-- Loops are forgotten where they are entered for the second time, and nobody checks anything. -/
def renewingOptions : Options := { maxBlockVisits := 2, checkers := [] }

/-- Something is bound that was not bound so before. -/
def State.changesFrom (s' s : State) : Bool :=
  s'.store.bindings.entries.any fun b => b ∉ s.store.bindings.entries

theorem State.Renews.exists_given {s s' : State} {c d : Catalog} {args : List Value}
    {K : Set Conjuring} (h : s.Renews c args s' d K) (hchanges : s'.changesFrom s = true) :
    ∃ b ∈ s'.store.bindings.entries, Store.Given K d b ∧
      ∀ b' ∈ s.store.bindings.entries, b'.2 ≠ b.2 := by
  obtain ⟨b, hb, hnew⟩ := any_eq_true.1 hchanges
  exact ⟨b, hb, (h.anew hb).resolve_left (of_decide_eq_true hnew)⟩

/-- The call conjures its result and what the variable holds then, and later the forgotten loop conjures
again what the variable holds. Each time the variable holds a fresh symbol. -/
theorem Program.conjures_fresh_calling : ∃ p body, Program.ofUnit renewingUnit "a.c" = .ok p ∧
    (p.function ⟨0⟩).body = some body ∧
    (∃ e q rest spot n call d outcome d',
      Steps renewingOptions 7 (.start renewingOptions p ⟨0⟩) e ∧ e.worklist.pop? = some (q, rest) ∧
      unfollowedCall renewingOptions q { e with worklist := rest } = .ok (some (spot, n, call), d) ∧
      conservativeCall renewingOptions spot n call d = .ok (outcome, d') ∧
      d'.catalog.symbols.size = d.catalog.symbols.size + 2 ∧
      (d.graph.state n).Renews d.catalog call.args outcome.state d'.catalog
        (conjuredFor call.expr call.frame spot.count) ∧
      ∃ b ∈ outcome.state.store.bindings.entries,
        Store.Given (conjuredFor call.expr call.frame spot.count) d'.catalog b) ∧
    ∃ e q rest w d s d' x,
      Steps renewingOptions 19 (.start renewingOptions p ⟨0⟩) e ∧ e.worklist.pop? = some (q, rest) ∧
      forgottenLoop renewingOptions q { e with worklist := rest } = .ok (some w, d) ∧
      widenLoop renewingOptions (d.graph.state w.pred) w.block w.frame w.count d = .ok (s, d') ∧
      loopExpr? w.block = some x ∧ d'.catalog.symbols.size = d.catalog.symbols.size + 1 ∧
      (d.graph.state w.pred).Renews d.catalog [] s d'.catalog (conjuredFor x w.frame w.count) ∧
      ∃ b ∈ s.store.bindings.entries, Store.Given (conjuredFor x w.frame w.count) d'.catalog b := by
  have hcheck : (Program.ofUnit renewingUnit "a.c").toOption.any
      (fun p => (p.function ⟨0⟩).body.isSome) = true := by decide +kernel
  obtain ⟨p, hu, hbody⟩ := exists_ok_of_any hcheck
  obtain ⟨body, hbody⟩ := isSome_iff_exists.1 hbody
  refine ⟨p, body, hu, hbody, ?_, ?_⟩
  · -- after seven steps the call is next
    have hcheck : (Program.ofUnit renewingUnit "a.c").toOption.any (fun p =>
        (after? renewingOptions 7 (.start renewingOptions p ⟨0⟩)).any fun e =>
          e.worklist.pop?.any fun next => (unfollowedCall renewingOptions next.1
            { e with worklist := next.2 }).toOption.any fun found => found.1.any fun (spot, n, call) =>
              (conservativeCall renewingOptions spot n call found.2).toOption.any fun out => decide
                (spot.count = 1 ∧ out.2.catalog.symbols.size = found.2.catalog.symbols.size + 2 ∧
                  out.1.state.changesFrom (found.2.graph.state n))) = true := by
      decide +kernel
    obtain ⟨_, hu', hcheck⟩ := exists_ok_of_any hcheck
    cases hu.symm.trans hu'
    obtain ⟨e, hsteps, hcheck⟩ := (any_eq_true _ _).1 hcheck
    obtain ⟨⟨q, rest⟩, hpop, hcheck⟩ := (any_eq_true _ _).1 hcheck
    obtain ⟨⟨_, d⟩, hnext, hcheck⟩ := exists_ok_of_any hcheck
    obtain ⟨⟨spot, n, call⟩, rfl, hcheck⟩ := (any_eq_true _ _).1 hcheck
    obtain ⟨⟨outcome, d'⟩, hrun, hcheck⟩ := exists_ok_of_any hcheck
    obtain ⟨hcount, hsize, hchanges⟩ := of_decide_eq_true hcheck
    replace hsteps := steps_of_after? hsteps
    obtain ⟨_, _, hrun', -, hfresh⟩ := (conjures_fresh hu hbody hsteps hpop).1 _ _ _ _ hnext
    cases hrun.symm.trans hrun'
    -- the loop is not forgotten yet
    have hrenews := hfresh fun block _ hforgets => absurd hforgets.1.1 (by rw [hcount]; decide)
    obtain ⟨b, hb, hgiven, -⟩ := hrenews.exists_given hchanges
    exact ⟨e, q, rest, spot, n, call, d, outcome, d', hsteps, hpop, hnext, hrun, hsize, hrenews, b, hb, hgiven⟩
  · -- after nineteen steps the loop is forgotten next
    have hcheck : (Program.ofUnit renewingUnit "a.c").toOption.any (fun p =>
        (after? renewingOptions 19 (.start renewingOptions p ⟨0⟩)).any fun e =>
          e.worklist.pop?.any fun next => (forgottenLoop renewingOptions next.1
            { e with worklist := next.2 }).toOption.any fun found => found.1.any fun w =>
              (widenLoop renewingOptions (found.2.graph.state w.pred) w.block w.frame w.count
                found.2).toOption.any fun out => decide ((loopExpr? w.block).isSome ∧
                  out.2.catalog.symbols.size = found.2.catalog.symbols.size + 1 ∧
                  out.1.changesFrom (found.2.graph.state w.pred))) = true := by
      decide +kernel
    obtain ⟨_, hu', hcheck⟩ := exists_ok_of_any hcheck
    cases hu.symm.trans hu'
    obtain ⟨e, hsteps, hcheck⟩ := (any_eq_true _ _).1 hcheck
    obtain ⟨⟨q, rest⟩, hpop, hcheck⟩ := (any_eq_true _ _).1 hcheck
    obtain ⟨⟨_, d⟩, hnext, hcheck⟩ := exists_ok_of_any hcheck
    obtain ⟨w, rfl, hcheck⟩ := (any_eq_true _ _).1 hcheck
    obtain ⟨⟨s, d'⟩, hrun, hcheck⟩ := exists_ok_of_any hcheck
    obtain ⟨hloop, hsize, hchanges⟩ := of_decide_eq_true hcheck
    obtain ⟨x, hx⟩ := isSome_iff_exists.1 hloop
    replace hsteps := steps_of_after? hsteps
    obtain ⟨_, _, hrun', -, -, hfresh⟩ := (conjures_fresh hu hbody hsteps hpop).2 w d hnext
    cases hrun.symm.trans hrun'
    obtain ⟨b, hb, hgiven, -⟩ := (hfresh x hx).exists_given hchanges
    exact ⟨e, q, rest, w, d, s, d', x, hsteps, hpop, hnext, hrun, hx, hsize, hfresh x hx, b, hb, hgiven⟩

end PathScout

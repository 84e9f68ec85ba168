import PathScout.Proofs.PathEdges
import PathScout.Proofs.Termination

/-!
# What an exploration records

Each action of an exploration adds edges that have a reason, and makes nodes pending at which a path may
be continued. There is one lemma for each action, from asking checkers up to `Exploring.dispatch`.

* `Exploring.keeps_consult`: checkers are asked about an event.
* `Exploring.keeps_evalElement`: a step of a block is evaluated.
* `Exploring.keeps_dispatch`: a pending node is continued.
* `Exploration.records_of_explore`: every graph that an exploration leaves has edges with reasons only.
-/

namespace PathScout

open Naming State List Option Exploring Bool

namespace Exploring

variable {β : Type} {p : Program} {o : Options} {root x y : PathNode} {e e' : Exploration}
  {n m pred : NodeId} {q : Point} {s t : State} {f g : FrameId} {b : BlockId} {block : Block}
  {spot : Spot} {el : Element} {V : Visits} {event : Event} {call : CallEvent}
  {location value : Value} {type : CType} {place : ExprId} {isRoot sink : Bool} {site : CallSite}
  {callee : FunctionId} {args : List ExprId} {fs : Frames} {l : Location} {tag : Option Checker}
  {depth : Nat}

/-! ### Asking checkers -/

/-- The path goes on from the same node, or from one that a checker made at the point. -/
def Told (e : Exploration) (q : Point) (n m : NodeId) : Prop :=
  m = n ∨ ∃ y checker, e.graph.node? m = some y ∧ y.sink = false ∧ y.point = q.tagged checker

theorem Told.mono (h : Told e q n m) (hgains : e.Gains p o root e') : Told e' q n m :=
  h.imp_right fun ⟨y, checker, hy, hrest⟩ => ⟨y, checker, hgains.node hy, hrest⟩

theorem Told.stood (h : Told e q n m) (hn : e.Stood p o q n) : e.Stood p o q m := by
  rcases h with rfl | ⟨y, checker, hy, hsink, hpoint⟩
  · exact hn
  · obtain ⟨_, _, _, hlooks⟩ := hn
    obtain ⟨kind, f, tag⟩ := q
    obtain ⟨hasked, rfl⟩ := hlooks.asked
    refine ⟨y, hy, hsink, ?_⟩
    rw [hpoint]
    exact .told hasked

/-- What a checker says is done with a reason. -/
theorem keeps_obey {checker : Checker} {verdict : Verdict} (he : e.Records p o root)
    (hx : e.graph.node? pred = some x) (hsink : x.sink = false)
    (hverdict : ∀ t sink, verdict.Reaches t sink → Edge p o e.frames x ⟨q.tagged checker, t, sink⟩) :
    Keeps p o root (obey pred (q.tagged checker) verdict) e fun n? e' =>
      ∀ n, n? = some n → Told e' q pred n := by
  cases verdict with
  | pass =>
    refine keeps_pure he ?_
    rintro n ⟨⟩
    exact .inl rfl
  | proceed s =>
    have hsettle : Keeps p o root (settle pred (q.tagged checker) s) e fun n e' =>
        Told e' q pred n := by
      refine keeps_query_bind (keeps_ite (fun _ => keeps_pure he (.inl rfl)) fun _ => ?_)
      refine .bind (keeps_arrive he hx ⟨hsink, hverdict _ _ .proceed⟩) fun a d hd ha => ?_
      exact keeps_pure hd.records (.inr ⟨_, checker, ha.1, rfl, rfl⟩)
    refine hsettle.bind fun n d hd hn => keeps_pure hd.records ?_
    rintro m ⟨⟩
    exact hn
  | report s findings =>
    refine .bind (keeps_arrive he hx ⟨hsink, hverdict _ _ .report⟩) fun a d hd ha => ?_
    refine .bind (keeps_report hd.records ha.1) fun _ d' hd' hgraph => keeps_pure hd'.records ?_
    rintro m ⟨⟩
    exact .inr ⟨_, checker, hgraph.1 ▸ ha.1, rfl, rfl⟩
  | stop s findings =>
    refine .bind (keeps_arrive he hx ⟨hsink, hverdict _ _ .stop⟩) fun a d hd ha => ?_
    exact .bind (keeps_report hd.records ha.1) fun _ d' hd' _ =>
      keeps_pure hd'.records fun m hm => nomatch hm

/-- **Asking checkers** about an event. -/
theorem keeps_consult {visits : Nat} (he : e.Records p o root) (hn : e.Stood p o q n) :
    Keeps p o root (consult o n q visits event) e fun n? e' => ∀ m, n? = some m → Told e' q n m := by
  unfold consult
  suffices h : ∀ checkers ⊆ o.checkers, ∀ m, Told e q n m →
      Keeps p o root (consultAll o q visits event checkers m) e fun n? e' =>
        ∀ m, n? = some m → Told e' q n m from h _ (List.Subset.refl _) n (.inl rfl)
  intro checkers
  induction checkers generalizing e with
  | nil =>
    refine fun _ m hm => keeps_pure he ?_
    rintro _ ⟨⟩
    exact hm
  | cons checker rest ih =>
    intro hsub m hm
    obtain ⟨x, hx, hsink, hlooks⟩ := hm.stood hn
    refine keeps_query_bind ?_
    rw [PathGraph.state_eq hx]
    have hedge : ∀ t sink, (checker.check event ⟨x.state, q.tagged checker, visits, e.frames, o.store⟩
          e.catalog).1.Reaches t sink → Edge p o e.frames x ⟨q.tagged checker, t, sink⟩ :=
      fun _ _ => .tell hlooks (hsub mem_cons_self)
    refine .bind (keeps_naming (P := fun verdict => ∀ t sink, verdict.Reaches t sink →
      Edge p o e.frames x ⟨q.tagged checker, t, sink⟩) he (checker.grows_check event _) hedge)
      fun verdict d hd hverdict => ?_
    obtain ⟨hverdict, hgraph, hframes⟩ := hverdict
    refine .bind (keeps_obey hd.records (hd.node hx) hsink (hframes ▸ hverdict)) fun n? d' hd' hn' => ?_
    cases n? with
    | none => exact keeps_pure hd'.records fun _ h => nomatch h
    | some k =>
      have hgains := hd.trans hd'
      refine ih hgains.records (hn.mono he hgains) (fun c hc => hsub (mem_cons_of_mem _ hc)) k ?_
      rcases hn' k rfl with rfl | hk
      · exact hm.mono hgains
      · exact .inr hk

/-- Nobody minds the end of a call that was followed. -/
theorem consult_callEnds (visits : Nat) (h : call.conservative = false) :
    consult o n q visits (.callEnds call) e = .ok (some n, e) := by
  unfold consult
  induction o.checkers with
  | nil => rfl
  | cons checker rest ih =>
    unfold consultAll
    dsimp only
    simp only [checker.check_callEnds h]
    exact ih

/-! ### Evaluating steps -/

/-- The state after a step is one that the step leads to from the state of the last node. -/
def Fits (p : Program) (o : Options) (spot : Spot) (el : Element) (outcome? : Option Outcome)
    (e : Exploration) : Prop :=
  ∀ outcome, outcome? = some outcome → ∃ x, e.graph.node? outcome.pred = some x ∧ x.sink = false ∧
    Looks p o e.frames x.point spot.before ∧ el.Sets spot.frame x.state outcome.state ∧
    ∀ call, outcome.call = some call → call.conservative = true →
      Skips p o e.frames spot.frame spot.block spot.index

theorem fits_none : Fits p o spot el none e := fun _ h => nomatch h

theorem fits_plain (hn : e.Stood p o spot.before n)
    (hsets : el.Sets spot.frame (e.graph.state n) s) : Fits p o spot el (some ⟨n, s, none⟩) e := by
  rintro outcome ⟨⟩
  obtain ⟨x, hx, hsink, hlooks⟩ := hn
  rw [PathGraph.state_eq hx] at hsets
  exact ⟨x, hx, hsink, hlooks, hsets, fun _ h => nomatch h⟩

theorem keeps_ask (he : e.Records p o root) (hn : e.Stood p o spot.before n) :
    Keeps p o root (ask o spot n event) e fun n? e' =>
      ∀ m, n? = some m → e'.Stood p o spot.before m := fun a e' h => by
  obtain ⟨hgains, htold⟩ := keeps_consult he hn a e' h
  exact ⟨hgains, fun m hm => (htold m hm).stood (hn.mono he hgains)⟩

theorem keeps_read (he : e.Records p o root) :
    Keeps p o root (read o s location type) e fun _ e' => e'.graph = e.graph ∧
      e'.frames = e.frames := by
  unfold read
  split
  · exact (keeps_naming (P := fun _ => True) he (StorePolicy.grows_retrieve _ _ _ _) trivial).imp
      fun _ _ h => h.2
  · exact keeps_pure he ⟨rfl, rfl⟩

section

variable (he : e.Records p o root) (hn : e.Stood p o spot.before pred)
include he hn

theorem keeps_evalLoad {x : ExprId} :
    Keeps p o root (evalLoad o spot pred x place) e (Fits p o spot (.expr x isRoot)) := by
  refine keeps_query_bind ?_
  refine .bind (keeps_ask he hn) fun n? d hd hn' => ?_
  cases n? with
  | none => exact keeps_pure hd.records fits_none
  | some m =>
    refine keeps_query_bind (keeps_query_bind ?_)
    refine .bind (keeps_read hd.records) fun v d' hd' hsame => keeps_pure hd'.records ?_
    refine fits_plain ((hn' m rfl).of_eq hsame.1 hsame.2) ?_
    rw [hsame.1]
    exact .expr (sameEnvBut_bindExpr _ _ _ _) rfl

theorem keeps_store {span : Span} :
    Keeps p o root (store o spot pred location value span) e fun stored? e' =>
      ∀ m t, stored? = some (m, t) → e'.Stood p o spot.before m ∧ (e'.graph.state m).Keeps t := by
  refine .bind (keeps_ask he hn) fun n? d hd hn' => ?_
  cases n? with
  | none => exact keeps_pure hd.records fun _ _ h => nomatch h
  | some m =>
    refine keeps_query_bind ?_
    split
    · refine .bind (keeps_naming (P := (d.graph.state m).Keeps) hd.records (grows_write _ _ _ _)
        (keeps_write _ _ _ _ _)) fun t d' hd' ht => keeps_pure hd'.records ?_
      rintro _ _ ⟨⟩
      exact ⟨(hn' m rfl).of_eq ht.2.1 ht.2.2, ht.2.1 ▸ ht.1⟩
    · refine keeps_pure hd.records ?_
      rintro _ _ ⟨⟩
      exact ⟨hn' m rfl, .refl _⟩

theorem keeps_evalStore {x : ExprId} :
    Keeps p o root (evalStore o spot pred x place) e (Fits p o spot (.expr x isRoot)) := by
  refine keeps_query_bind (keeps_query_bind ?_)
  refine .bind (keeps_ask he hn) fun n? d hd hn' => ?_
  cases n? with
  | none => exact keeps_pure hd.records fits_none
  | some m =>
    refine keeps_query_bind ?_
    refine .bind (keeps_read hd.records) fun old d1 hd1 hsame1 => ?_
    refine .bind (keeps_naming (P := fun _ => True) hd1.records (grows_updated _ _ _ _) trivial)
      fun values d2 hd2 hsame2 => ?_
    have hm := ((hn' m rfl).of_eq hsame1.1 hsame1.2).of_eq hsame2.2.1 hsame2.2.2
    refine .bind (keeps_store hd2.records hm) fun stored? d3 hd3 hstored => ?_
    cases stored? with
    | none => exact keeps_pure hd3.records fits_none
    | some stored =>
      obtain ⟨hm, hkeeps⟩ := hstored _ _ rfl
      refine keeps_pure hd3.records (fits_plain hm (.expr (fun k hk => ?_) hkeeps.heap))
      exact (sameEnvBut_bindExpr stored.2 _ _ _ k hk).trans (congrArg (OrderedMap.get? · k) hkeeps.env)

theorem keeps_evalDecl {v : VarId} {init : Option DeclInit} {location : Location} :
    Keeps p o root (evalDecl o spot pred v init location) e
      (Fits p o spot (.decl v init location)) := by
  refine keeps_query_bind ?_
  refine .bind (keeps_naming (P := fun _ => True) he (grows_var v _) trivial) fun r d hd hsame => ?_
  have hn' := hn.of_eq hsame.2.1 hsame.2.2
  have hdecl : ∀ {d' : Exploration} {t : State}, d'.graph = d.graph → d'.frames = d.frames →
      (e.graph.state pred).Keeps t →
      Fits p o spot (.decl v init location) (some ⟨pred, t, none⟩) d' := fun hgraph hframes ht => by
    refine fits_plain (hn'.of_eq hgraph hframes) (.decl ?_)
    rw [hgraph, hsame.2.1]
    exact ht
  refine keeps_query_bind ?_
  dsimp only
  split
  · exact keeps_query_bind (keeps_pure hd.records (hdecl rfl rfl ⟨rfl, rfl⟩))
  · exact .bind (keeps_naming hd.records (grows_writeList _ _ _ _ _ _)
      (keeps_writeList _ _ _ _ _ _ _)) fun t d' hd' ht =>
        keeps_pure hd'.records (hdecl ht.2.1 ht.2.2 ht.1)
  · split
    · exact .bind (keeps_naming hd.records (grows_writeText _ _ _ _)
        (keeps_writeText _ _ _ _ _)) fun t d' hd' ht =>
          keeps_pure hd'.records (hdecl ht.2.1 ht.2.2 ht.1)
    · refine .bind (keeps_store hd.records hn') fun stored? d' hd' hstored => ?_
      cases stored? with
      | none => exact keeps_pure hd'.records fits_none
      | some stored =>
        obtain ⟨hm, hkeeps⟩ := hstored _ _ rfl
        exact keeps_pure hd'.records (fits_plain hm (.decl hkeeps))

end

/-! ### Calls -/

/-- What is known of a call: it is the call of an expression, and it is about to happen. -/
theorem callEvent?_call {x : ExprId} (h : s.callEvent? p f x site = some call) :
    call.expr = x ∧ call.frame = f ∧ call.site = site ∧
      (p.expr x).op = .call call.callee call.argExprs ∧ call.name = (p.function call.callee).name ∧
      call.conservative = false := by
  unfold State.callEvent? at h
  split at h
  · next hop =>
    cases h
    exact ⟨rfl, rfl, rfl, hop, rfl, rfl⟩
  · cases h

theorem mayInline_iff (hp : e.catalog.program = p) :
    mayInline o f callee e = true ↔ Frames.MayEnter p o e.frames f callee := by
  unfold mayInline
  simp only [and_eq_true, decide_eq_true_eq, not_eq_true', hp, isSome_iff_exists]
  constructor
  · rintro ⟨⟨⟨henabled, hbody⟩, hdepth⟩, hinactive⟩
    exact ⟨henabled, hbody, hdepth, hinactive⟩
  · rintro ⟨henabled, hbody, hdepth, hinactive⟩
    exact ⟨⟨⟨henabled, hbody⟩, hdepth⟩, hinactive⟩

section

variable (he : e.Records p o root)
include he

theorem keeps_evalByChecker {x callee : _} {checkers : List Checker} (hn : e.Stood p o spot.before n)
    (hblock : Frames.HasBlock p e.frames spot.frame spot.block block)
    (hel : block.elements[spot.index]? = some (.expr x isRoot)) (hop : (p.expr x).op = .call callee args)
    (hexpr : call.expr = x) (hframe : call.frame = spot.frame)
    (hname : call.name = (p.function callee).name) (hsub : checkers ⊆ o.checkers) :
    Keeps p o root (evalByChecker o spot n call checkers) e fun answer e' =>
      ∀ m, answer = some (some m) → e'.Stood p o spot.before m := by
  induction checkers generalizing e with
  | nil => exact keeps_pure he fun _ h => nomatch h
  | cons checker rest ih =>
    obtain ⟨y, hy, hsink, hlooks⟩ := id hn
    refine keeps_query_bind ?_
    rw [PathGraph.state_eq hy]
    refine .bind (keeps_naming (P := fun verdict? => ∀ verdict, verdict? = some verdict → ∀ t sink,
      verdict.Reaches t sink → Edge p o e.frames y ⟨spot.before.tagged checker, t, sink⟩) he
      (checker.grows_evalCall? call _) fun verdict hverdict t sink ht => ?_)
      fun verdict? d hd hverdict => ?_
    · exact .evaluate hlooks hblock hel hop hexpr hframe hname (hsub mem_cons_self) hverdict ht
    obtain ⟨hverdict, hgraph, hframes⟩ := hverdict
    have hn' := hn.of_eq hgraph hframes
    cases verdict? with
    | none => exact ih hd.records hn' (hframes ▸ hblock) fun c hc => hsub (mem_cons_of_mem _ hc)
    | some verdict =>
      refine .bind (keeps_obey hd.records (hd.node hy) hsink (hframes ▸ hverdict verdict rfl))
        fun n? d' hd' htold => keeps_pure hd'.records fun m hm => ?_
      exact (htold m (some.inj hm)).stood (hn'.mono hd.records hd')

/-- The frame of a call. -/
theorem keeps_call {caller : FrameId} {z : Frame} (hz : e.frames.frame? caller = some z)
    (hblock : Frames.HasBlock p e.frames caller site.block block)
    (hel : block.elements[site.index]? = some (.expr site.expr isRoot))
    (hop : (p.expr site.expr).op = .call callee args) (hmay : Frames.MayEnter p o e.frames caller callee)
    :
    Keeps p o root (onFrames fun fs => Frames.call fs caller callee site) e fun g e' =>
      e'.frames.frame? g = some ⟨some caller, callee, some site, z.depth + 1⟩ ∧
        e'.graph = e.graph := fun g e' h => by
  cases h
  have hstacked := he.stacked.call hz hblock hel hop hmay
  have hcall := Frames.call_eq hz callee site
  have hext : e.frames.Extends (Frames.call e.frames caller callee site).2 :=
    hcall ▸ Frames.extends_add _ _
  refine ⟨⟨⟨he.program, hstacked, he.tracks.mono fun _ _ h => h.mono he.stacked hext, fun hq => ?_,
    he.reported⟩, hext, id⟩, ?_, rfl⟩
  · obtain ⟨w, hw, hsink, hpends⟩ := he.pending hq
    exact ⟨w, hw, hsink, hpends.mono he.stacked hext⟩
  · show (Frames.call e.frames caller callee site).2.frame?
      (Frames.call e.frames caller callee site).1 = _
    rw [hcall]
    exact Frames.frame?_add _ _

theorem keeps_inlineCall {x : ExprId} (hn : e.Stood p o spot.before n)
    (hblock : Frames.HasBlock p e.frames spot.frame spot.block block)
    (hel : block.elements[spot.index]? = some (.expr x isRoot)) (hframe : call.frame = spot.frame)
    (hsite : call.site = spot.site x) (hop : (p.expr x).op = .call call.callee call.argExprs)
    (hmay : Frames.MayEnter p o e.frames spot.frame call.callee) :
    Keeps p o root (inlineCall o spot n call) e fun _ _ => True := by
  obtain ⟨body, ⟨z, hz, hbody⟩, hb⟩ := id hblock
  refine keeps_query_bind ?_
  rw [hframe, hsite]
  replace hblock : Frames.HasBlock p e.frames spot.frame (spot.site x).block block := hblock
  refine .bind (keeps_call he hz hblock hel hop hmay) fun g d hd hg => ?_
  obtain ⟨y, hy, hsink, hlooks⟩ := hn.mono he hd
  refine keeps_query_bind ?_
  rw [PathGraph.state_eq hy]
  refine .bind (keeps_naming (P := y.state.Keeps) hd.records (grows_bindParams _ _ _ _ _)
    (keeps_bindParams _ _ _ _ _ _)) fun t d' hd' ht => ?_
  obtain ⟨hkeeps, -, hframes⟩ := ht
  have hg' := hd'.frames _ _ hg.1
  refine keeps_advance hd'.records (hd'.node hy) ⟨hsink, .call ?_ hg' hkeeps⟩ ?_
  · rw [hframes]
    exact hlooks
  · refine ⟨.inl rfl, fun h => ?_, fun h => nomatch h⟩
    cases h
    exact ⟨g, _, hg'⟩

theorem keeps_conservativeCall : Keeps p o root (conservativeCall o spot n call) e fun outcome e' =>
      (outcome.pred = n ∧ (e.graph.state n).SameEnvBut call.frame call.expr outcome.state ∧
        outcome.state.heap = (e.graph.state n).heap) ∧ e'.graph = e.graph ∧
        e'.frames = e.frames := by
  refine keeps_of_stays he ((quiet_conservativeCall call).adds.imp fun _ _ h => h.1) ?_
  refine gives_query_bind ?_
  suffices h : Naming.Always _ fun (outcome : Outcome) => outcome.pred = n ∧
      (e.graph.state n).SameEnvBut call.frame call.expr outcome.state ∧
        outcome.state.heap = (e.graph.state n).heap from gives_naming (h e.catalog)
  refine always_bind fun regions => ?_
  refine (keeps_invalidate _ _ _).bind fun out hout => always_bind fun type => ?_
  refine always_ite (always_pure ⟨rfl, State.SameEnv.sameEnvBut hout.env _ _, hout.heap⟩) ?_
  refine always_bind fun value => always_pure ⟨rfl, fun k hk => ?_, hout.heap⟩
  exact (sameEnvBut_bindExpr _ _ _ _ k hk).trans (congrArg (OrderedMap.get? · k) hout.env)

theorem keeps_evalCall {x : ExprId} (hn : e.Stood p o spot.before pred)
    (hblock : Frames.HasBlock p e.frames spot.frame spot.block block)
    (hel : block.elements[spot.index]? = some (.expr x isRoot)) :
    Keeps p o root (evalCall o spot pred x) e (Fits p o spot (.expr x isRoot)) := by
  refine keeps_query_bind (keeps_query_bind ?_)
  rw [he.program]
  cases hcall : (e.graph.state pred).callEvent? p spot.frame x (spot.site x) with
  | none => exact keeps_pure he fits_none
  | some call =>
    obtain ⟨hexpr, hframe, hsite, hop, hname, hconservative⟩ := callEvent?_call hcall
    refine .bind (keeps_ask he hn) fun n? d hd hn' => ?_
    cases n? with
    | none => exact keeps_pure hd.records fits_none
    | some m =>
      refine .bind (keeps_evalByChecker hd.records (hn' m rfl) (hblock.mono hd.frames) hel hop hexpr
        hframe hname (List.Subset.refl _)) fun answer d1 hd1 hanswer => ?_
      have hm := (hn' m rfl).mono hd.records hd1
      have hblock1 := hblock.mono (hd.trans hd1).frames
      match answer with
      | some none => exact keeps_pure hd1.records fits_none
      | some (some k) =>
        obtain ⟨y, hy, hsink, hlooks⟩ := hanswer k rfl
        refine keeps_query_bind (keeps_pure hd1.records ?_)
        rintro outcome ⟨⟩
        rw [PathGraph.state_eq hy]
        refine ⟨y, hy, hsink, hlooks, .expr (fun _ _ => rfl) rfl, fun call' hcall' h => ?_⟩
        cases hcall'
        exact absurd h (hconservative ▸ false_ne_true)
      | none =>
        refine keeps_query_bind (keeps_ite (fun hmay => ?_) fun hmay => ?_)
        · have hmay' := (mayInline_iff hd1.records.program).1 hmay
          exact .bind (keeps_inlineCall hd1.records hm hblock1 hel hframe hsite hop hmay')
            fun _ _ hd2 _ => keeps_pure hd2.records fits_none
        · have hskips : Skips p o d1.frames spot.frame spot.block spot.index :=
            ⟨block, x, isRoot, _, _, hblock1, hel, hop,
              fun h => hmay ((mayInline_iff hd1.records.program).2 h)⟩
          refine .bind (keeps_conservativeCall hd1.records) fun outcome d2 hd2 hout =>
            keeps_pure hd2.records ?_
          obtain ⟨⟨hpred, henv, hheap⟩, hgraph, hframes⟩ := hout
          rintro _ ⟨⟩
          obtain ⟨y, hy, hsink, hlooks⟩ := hm
          rw [PathGraph.state_eq hy, hexpr, hframe] at henv
          rw [PathGraph.state_eq hy] at hheap
          rw [hpred, hgraph, hframes]
          exact ⟨y, hy, hsink, hlooks, .expr henv hheap, fun _ _ _ => hskips⟩

/-- **Evaluating a step.** -/
theorem keeps_evalElement (hn : e.Stood p o spot.before pred)
    (hblock : Frames.HasBlock p e.frames spot.frame spot.block block)
    (hel : block.elements[spot.index]? = some el) :
    Keeps p o root (evalElement o spot pred el) e (Fits p o spot el) := by
  cases el with
  | expr x isRoot =>
    unfold evalElement evalExpr
    refine keeps_query_bind ?_
    split
    · exact keeps_evalLoad he hn
    iterate 3
      · exact keeps_evalStore he hn
    · exact keeps_evalCall he hn hblock hel
    · refine keeps_query_bind ?_
      refine .bind (keeps_naming (P := fun _ => True) he (grows_evaluate? _ _ _) trivial)
        fun v? d hd hsame => ?_
      have hn' := hn.of_eq hsame.2.1 hsame.2.2
      rw [← hsame.2.1]
      cases v? with
      | none => exact keeps_pure hd.records (fits_plain hn' (.expr (fun _ _ => rfl) rfl))
      | some v =>
        exact keeps_pure hd.records (fits_plain hn' (.expr (sameEnvBut_bindExpr _ _ _ _) rfl))
  | decl v init l => exact keeps_evalDecl he hn
  | merge target value =>
    exact keeps_query_bind (keeps_query_bind (keeps_pure he (fits_plain hn (.merge _))))
  | «return» value l =>
    refine keeps_query_bind ?_
    cases value with
    | none => exact keeps_pure he (fits_plain hn .noResult)
    | some a => exact keeps_pure he (fits_plain hn .result)

end

/-! ### Going on in a block -/

/-- A point that is neither at the start nor at the end of a call. -/
theorem pends_plain {kind : PointKind} (henter : ∀ site callee, kind ≠ .callEnter site callee)
    (hexit : ∀ site, kind ≠ .callExit site) : Point.Pends p o fs ⟨kind, f, none⟩ :=
  ⟨.inl rfl, fun h => absurd h (henter _ _), fun h => absurd h (hexit _)⟩

/-- A step was evaluated: the path stands after it, also where a checker made the last node. -/
theorem keeps_finishElement {outcome : Outcome} (he : e.Records p o root)
    (hx : e.graph.node? outcome.pred = some x)
    (hxy : Passage p o e.frames x ⟨spot.after, outcome.state, false⟩)
    (hcall : ∀ call, outcome.call = some call → call.conservative = true →
      Skips p o e.frames spot.frame spot.block spot.index) :
    Keeps p o root (finishElement o spot outcome) e fun _ _ => True := by
  have hpends : ∀ fs, Point.Pends p o fs spot.after := fun fs =>
    pends_plain (fun _ _ h => nomatch h) fun _ h => nomatch h
  refine .bind (keeps_arrive he hx hxy) fun a d hd ha => keeps_ite (fun _ => ?_) fun _ => ?_
  · obtain ⟨hnode, hframes⟩ := ha
    have hopen : d.Open p o a.1 := ⟨_, hnode, rfl, hpends _⟩
    cases hsome : outcome.call with
    | none => exact keeps_queue hd.records hopen
    | some call =>
      cases hconservative : call.conservative with
      | false =>
        intro u e' h
        obtain ⟨n?, d', hconsult, hrest⟩ := bind_eq_ok.1 h
        rw [consult_callEnds _ hconservative] at hconsult
        cases hconsult
        exact keeps_queue hd.records hopen u e' hrest
      | true =>
        have hskips : Skips p o d.frames spot.frame spot.block spot.index :=
          hframes ▸ hcall call hsome hconservative
        have hstood : d.Stood p o spot.after a.1 := ⟨_, hnode, rfl, .heads (hpends _) (.skipped hskips)⟩
        refine .bind (keeps_consult hd.records hstood) fun n? d' hd' htold => ?_
        cases n? with
        | none => exact keeps_pure hd'.records trivial
        | some m =>
          refine keeps_queue hd'.records ?_
          rcases htold m rfl with rfl | ⟨y, checker, hy, hsink, hpoint⟩
          · exact hopen.mono hd.records hd'
          · refine ⟨y, hy, hsink, ?_⟩
            rw [hpoint]
            exact ⟨.inr ⟨_, _, rfl, hskips.mono hd.records.stacked hd'.frames⟩, fun h => (nomatch h),
              fun h => nomatch h⟩
  · exact keeps_pure hd.records trivial

theorem keeps_settle (he : e.Records p o root) (hx : e.graph.node? pred = some x)
    (hsink : x.sink = false) (hpends : x.point.Pends p o e.frames)
    (hheads : Heads p o e.frames x.point q)
    (hkind : (∃ b i, q.kind = .before b i) ∨ (∃ b, q.kind = .exit b))
    (hrests : x.state.Rests q.frame s) :
    Keeps p o root (settle pred q s) e fun n e' => e'.frames = e.frames ∧
      (n = pred ∨ e'.graph.node? n = some ⟨q, s, false⟩) := by
  refine keeps_query_bind (keeps_ite (fun _ => keeps_pure he ⟨rfl, .inl rfl⟩) fun _ => ?_)
  refine .bind (keeps_arrive he hx ⟨hsink, .pause hpends hheads hkind hrests⟩) fun a d hd ha => ?_
  exact keeps_pure hd.records ⟨ha.2, .inr ha.1⟩

/-- What a checker looks at after the path came to a point. -/
theorem stood_of_settle (hx : e'.graph.node? pred = some x) (hsink : x.sink = false)
    (hpends : x.point.Pends p o e'.frames) (hheads : Heads p o e'.frames x.point q)
    (hkind : (∃ b i, q.kind = .before b i) ∨ (∃ b, q.kind = .exit b))
    (hn : n = pred ∨ e'.graph.node? n = some ⟨q, s, false⟩) : e'.Stood p o q n := by
  rcases hn with rfl | hn
  · exact ⟨x, hx, hsink, .heads hpends hheads⟩
  · refine ⟨_, hn, rfl, ?_⟩
    obtain ⟨kind, f, tag⟩ := q
    obtain ⟨-, rfl⟩ := hheads.asked
    rcases hkind with ⟨b, i, rfl⟩ | ⟨b, rfl⟩
    · exact .before
    · exact .exit

/-- A path at the node is continued at the spot. -/
structure Continues (p : Program) (o : Options) (e : Exploration) (spot : Spot) (block : Block)
    (x : PathNode) (pred : NodeId) : Prop where
  node : e.graph.node? pred = some x
  continues : x.sink = false
  pends : x.point.Pends p o e.frames
  before : x.point.Before spot.frame spot.block spot.index
  block : Frames.HasBlock p e.frames spot.frame spot.block block

theorem Continues.mono (h : Continues p o e spot block x pred) (he : e.Records p o root)
    (hgains : e.Gains p o root e') : Continues p o e' spot block x pred :=
  ⟨hgains.node h.node, h.continues, h.pends.mono he.stacked hgains.frames, h.before,
    h.block.mono hgains.frames⟩

theorem keeps_processElement (he : e.Records p o root) (hc : Continues p o e spot block x pred)
    (hel : block.elements[spot.index]? = some el) (hrests : x.state.Rests spot.frame s) :
    Keeps p o root (processElement o spot pred s el) e fun _ _ => True := by
  have hheads : Heads p o e.frames x.point spot.before := .before hc.before hc.block hel
  have hkind : (∃ b i, spot.before.kind = .before b i) ∨ (∃ b, spot.before.kind = .exit b) :=
    .inl ⟨_, _, rfl⟩
  refine .bind (keeps_settle he hc.node hc.continues hc.pends hheads hkind hrests) fun n d hd hn => ?_
  have hcd := hc.mono he hd
  have hstood := stood_of_settle hcd.node hcd.continues hcd.pends
    (hheads.mono he.stacked hd.frames) hkind hn.2
  refine .bind (keeps_ask hd.records hstood) fun n? d1 hd1 hn' => ?_
  have hc1 := hcd.mono hd.records hd1
  cases n? with
  | none => exact keeps_pure hd1.records trivial
  | some m =>
    refine .bind (keeps_evalElement hd1.records (hn' m rfl) hc1.block hel) fun out? d2 hd2 hfits => ?_
    cases out? with
    | none => exact keeps_pure hd2.records trivial
    | some outcome =>
      obtain ⟨y, hy, hsink, hlooks, hsets, hcall⟩ := hfits outcome rfl
      exact keeps_finishElement hd2.records hy
        ⟨hsink, .step hlooks (hc1.block.mono hd2.frames) hel hsets⟩ hcall

/-! ### Leaving blocks -/

theorem keeps_followEdge {target : BlockId} (he : e.Records p o root)
    (hn : e.Stood p o ⟨.exit b, f, none⟩ n) (hblock : Frames.HasBlock p e.frames f b block)
    (htarget : target ∈ block.terminator.successors) (hrests : (e.graph.state n).Rests f s) :
    Keeps p o root (followEdge f V n b target s) e fun _ _ => True := by
  obtain ⟨x, hx, hsink, hlooks⟩ := hn
  rw [PathGraph.state_eq hx] at hrests
  exact keeps_advance he hx ⟨hsink, .leave hlooks hblock htarget hrests⟩
    (pends_plain (fun _ _ h => nomatch h) fun _ h => nomatch h)

theorem keeps_branchStates {c : Catalog} {ways : Option State × Option State}
    (h : branchStates c s value = ways) :
    (∀ t, ways.1 = some t → s.Keeps t) ∧ ∀ t, ways.2 = some t → s.Keeps t := by
  subst h
  unfold branchStates
  split
  · exact ⟨fun t ht => some.inj ht ▸ .refl s, fun t ht => some.inj ht ▸ .refl s⟩
  · exact ⟨fun t ht => keeps_assume ht, fun t ht => keeps_assume ht⟩

theorem keeps_switchStates {targets : List CaseTarget} {rest : Option State}
    (hrest : ∀ t, rest = some t → s.Keeps t) :
    (switchStates s value type targets rest).Always fun out =>
      (∀ way ∈ out.1, s.Keeps way.2) ∧ ∀ t, out.2 = some t → s.Keeps t := by
  induction targets generalizing rest with
  | nil => exact always_pure ⟨fun _ h => absurd h not_mem_nil, hrest⟩
  | cons target more ih =>
    refine always_ite ((ih hrest).bind ?_) (always_bind fun matched => ?_)
    · rintro ⟨ways, rest⟩ ⟨hways, hrest⟩
      refine always_pure ⟨fun way hway => ?_, hrest⟩
      rcases mem_cons.1 hway with rfl | hway
      · exact .refl s
      · exact hways way hway
    · refine Naming.Always.bind (P := fun out => (∀ t, out.1 = some t → s.Keeps t) ∧
        ∀ t, out.2 = some t → s.Keeps t) (always_query fun c => ?_) ?_
      · refine ⟨fun t ht => keeps_assume ht, fun t ht => ?_⟩
        obtain ⟨r, hr, hassume⟩ := bind_eq_some_iff.1 ht
        exact (hrest r hr).trans (keeps_assume hassume)
      · rintro ⟨yes, no⟩ ⟨hyes, hno⟩
        refine (ih hno).bind ?_
        rintro ⟨ways, rest⟩ ⟨hways, hrest⟩
        refine always_pure ⟨fun way hway => ?_, hrest⟩
        rcases mem_append.1 hway with hway | hway
        · obtain ⟨t, ht, rfl⟩ := map_eq_some_iff.1 (mem_toList.1 hway)
          exact hyes t ht
        · exact hways way hway

section

variable (he : e.Records p o root)
include he

/-- **Leaving a block.** -/
theorem keeps_branchOut (hc : Continues p o e spot block x pred)
    (hel : block.elements[spot.index]? = none) (hrests : x.state.Rests spot.frame s) :
    Keeps p o root (branchOut o pred s spot.block spot.frame spot.visits) e fun _ _ => True := by
  have hheads : Heads p o e.frames x.point ⟨.exit spot.block, spot.frame, none⟩ :=
    .exit hc.before hc.block hel
  -- the path comes to the end of the block, and checkers look at it there
  have hsettle : ∀ {event : Event} {next : Option NodeId → Exploring Unit},
      (∀ d, e.Gains p o root d → Keeps p o root (next none) d fun _ _ => True) →
      (∀ m d, e.Gains p o root d → d.Stood p o ⟨.exit spot.block, spot.frame, none⟩ m →
        Keeps p o root (next (some m)) d fun _ _ => True) →
      Keeps p o root (do
        let n ← settle pred ⟨.exit spot.block, spot.frame, none⟩ s
        next (← consult o n ⟨.exit spot.block, spot.frame, none⟩
          (spot.visits.count spot.frame spot.block) event)) e fun _ _ => True := by
    intro event next hnone hsome
    have hkind : (∃ b i, PointKind.exit spot.block = .before b i) ∨
        (∃ b, PointKind.exit spot.block = .exit b) := .inr ⟨_, rfl⟩
    refine .bind (keeps_settle he hc.node hc.continues hc.pends hheads hkind hrests) fun n d hd hn => ?_
    have hcd := hc.mono he hd
    have hstood := stood_of_settle hcd.node hcd.continues hcd.pends
      (hheads.mono he.stacked hd.frames) hkind hn.2
    refine .bind (keeps_consult hd.records hstood) fun n? d1 hd1 htold => ?_
    cases n? with
    | none => exact hnone d1 (hd.trans hd1)
    | some m => exact hsome m d1 (hd.trans hd1) ((htold m rfl).stood (hstood.mono hd.records hd1))
  unfold branchOut
  refine .afterLookup (gives_blockOf he.program) fun block' hblock' => ?_
  obtain rfl := hblock'.unique hc.block
  dsimp only
  cases hterm : block'.terminator with
  | goto target kind =>
    refine keeps_followEdge he ⟨x, hc.node, hc.continues, .heads hc.pends hheads⟩ hc.block ?_ ?_
    · rw [hterm]
      exact mem_cons_self
    · rw [PathGraph.state_eq hc.node]
      exact hrests
  | branch cond yes no kind l =>
    refine hsettle (fun d hd => keeps_pure hd.records trivial) fun m d hd hm => ?_
    refine keeps_query_bind (keeps_query_bind ?_)
    obtain ⟨hyes, hno⟩ := keeps_branchStates (rfl : branchStates d.catalog (d.graph.state m)
      ((d.graph.state m).value spot.frame cond) = _)
    have hblock := hc.block.mono hd.frames
    refine .bind (keeps_optionForM hd.records fun t ht => ?_) fun _ d1 hd1 _ =>
      keeps_optionForM hd1.records fun t ht => ?_
    · exact keeps_followEdge hd.records hm hblock (by rw [hterm]; exact mem_cons_self)
        ((hyes t ht).rests _)
    · refine keeps_followEdge hd1.records (hm.mono hd.records hd1) (hblock.mono hd1.frames)
        (by rw [hterm]; exact mem_cons_of_mem _ mem_cons_self) ?_
      obtain ⟨y, hy, -⟩ := hm
      rw [PathGraph.state_eq (hd1.node hy), ← PathGraph.state_eq hy]
      exact (hno t ht).rests _
  | switch cond targets default dl l =>
    refine hsettle (fun d hd => keeps_pure hd.records trivial) fun m d hd hm => ?_
    refine keeps_query_bind (keeps_query_bind ?_)
    have hblock := hc.block.mono hd.frames
    have hsuccessors : block'.terminator.successors = targets.map (·.block) ++ [default] := by
      rw [hterm]
      rfl
    refine .bind (keeps_naming (P := fun out => ((∀ way ∈ out.1, (d.graph.state m).Keeps way.2) ∧
        ∀ t, out.2 = some t → (d.graph.state m).Keeps t) ∧
          ∀ way ∈ out.1, way.1 ∈ targets.map (·.block)) hd.records (grows_switchStates _ _ _ _ _)
        ⟨keeps_switchStates (fun t ht => some.inj ht ▸ .refl _) _,
          fun way hway => mem_switchStates hway⟩) fun out d1 hd1 hout => ?_
    obtain ⟨⟨⟨hways, hrest⟩, htargets⟩, hgraph, hframes⟩ := hout
    have hm1 := hm.mono hd.records hd1
    have hblock1 := hblock.mono hd1.frames
    have hstate : ∀ {d2 : Exploration}, d1.Gains p o root d2 →
        d2.graph.state m = d.graph.state m := fun hd2 => by
      obtain ⟨y, hy, -⟩ := hm
      rw [PathGraph.state_eq (hd2.node (hd1.node hy)), ← PathGraph.state_eq hy]
    refine .bind (keeps_forM hd1.records fun way hway d2 hd2 => ?_) fun _ d2 hd2 _ =>
      keeps_optionForM hd2.records fun t ht => ?_
    · refine keeps_followEdge hd2.records (hm1.mono hd1.records hd2) (hblock1.mono hd2.frames) ?_ ?_
      · rw [hsuccessors]
        exact mem_append_left _ (htargets way hway)
      · rw [hstate hd2]
        exact (hways way hway).rests _
    · refine keeps_followEdge hd2.records (hm1.mono hd1.records hd2) (hblock1.mono hd2.frames) ?_ ?_
      · rw [hsuccessors]
        exact mem_append_right _ mem_cons_self
      · rw [hstate hd2]
        exact (hrest t ht).rests _
  | exit =>
    have hkind : (∃ b i, PointKind.exit spot.block = .before b i) ∨
        (∃ b, PointKind.exit spot.block = .exit b) := .inr ⟨_, rfl⟩
    refine .bind (keeps_settle he hc.node hc.continues hc.pends hheads hkind hrests) fun n d hd hn => ?_
    have hcd := hc.mono he hd
    have hstood : d.Stood p o ⟨.finish, spot.frame, none⟩ n := by
      rcases hn.2 with rfl | hn
      · exact ⟨x, hcd.node, hcd.continues, .heads hcd.pends (.finish hcd.before hcd.block hel hterm)⟩
      · exact ⟨_, hn, rfl, .heads (pends_plain (fun _ _ h => nomatch h) fun _ h => nomatch h)
          (.leave hcd.block hterm)⟩
    refine .bind (keeps_consult hd.records hstood) fun n? d1 hd1 htold => ?_
    cases n? with
    | none => exact keeps_pure hd1.records trivial
    | some m =>
      obtain ⟨y, hy, hsink, hlooks⟩ := (htold m rfl).stood (hstood.mono hd.records hd1)
      refine keeps_query_bind ?_
      rw [PathGraph.state_eq hy]
      exact keeps_advance hd1.records hy ⟨hsink, .finish hlooks⟩
        (pends_plain (fun _ _ h => nomatch h) fun _ h => nomatch h)

/-- **Going on in a block.** -/
theorem keeps_continueBlock (hx : e.graph.node? pred = some x) (hsink : x.sink = false)
    (hpends : x.point.Pends p o e.frames) (hbefore : x.point.Before spot.frame spot.block spot.index)
    (hrests : x.state.Rests spot.frame s) :
    Keeps p o root (continueBlock o pred s spot) e fun _ _ => True := by
  unfold continueBlock
  refine .afterLookup (gives_blockOf he.program) fun block hblock => ?_
  have hc : Continues p o e spot block x pred := ⟨hx, hsink, hpends, hbefore, hblock⟩
  cases hel : block.elements[spot.index]? with
  | none => exact keeps_branchOut he hc hel hrests
  | some el => exact keeps_processElement he hc hel hrests

theorem keeps_afterElement (hx : e.graph.node? n = some x) (hsink : x.sink = false)
    (hpends : x.point.Pends p o e.frames)
    (hbefore : x.point.Before spot.frame spot.block (spot.index + 1)) :
    Keeps p o root (afterElement o n spot) e fun _ _ => True := by
  unfold afterElement
  refine keeps_query_bind (.afterLookup (gives_blockOf he.program) fun block _ => ?_)
  refine keeps_continueBlock he hx hsink hpends hbefore ?_
  rw [PathGraph.state_eq hx]
  split
  · exact ⟨.inr rfl, rfl⟩
  · exact ⟨.inl rfl, rfl⟩

/-! ### Entering blocks -/

theorem keeps_liveMarks {chain : List FrameId} {entering : Option BlockId} :
    Keeps p o root (liveMarks s chain entering) e fun _ e' => e'.graph = e.graph ∧
      e'.frames = e.frames := by
  refine keeps_query_bind ?_
  exact (keeps_naming (P := fun _ => True) he ((grows_markFrames _ _ _ _).bind fun _ =>
    grows_query _) trivial).imp fun _ _ h => h.2

theorem keeps_noteCoverage {kind : CoverageKind} :
    Keeps p o root (noteCoverage f kind l) e fun _ _ => True := fun u e' h => by
  cases h
  refine ⟨?_, trivial⟩
  dsimp only
  split
  · exact he.gains
  · split
    · exact he.gains
    · exact ⟨⟨he.program, he.stacked, he.tracks, he.pending, he.reported⟩, .refl _, id⟩

theorem keeps_widenLoop {count : Nat} :
    Keeps p o root (widenLoop o s block f count) e fun t e' => s.Keeps t ∧ e'.graph = e.graph ∧
      e'.frames = e.frames := by
  unfold widenLoop
  split
  · exact keeps_pure he ⟨.refl s, rfl, rfl⟩
  · refine .afterLookup gives_functionOf fun function _ => ?_
    refine keeps_naming he ((Naming.Grows.mapM (fun v => grows_var v f) _).bind fun _ =>
      (grows_stateInvalidate _ _ _).bind fun _ => grows_pure _) ?_
    exact (always_bind fun regions => (keeps_invalidate s _ _).bind fun out hout =>
      always_pure hout) e.catalog

/-- **Entering a block.** -/
theorem keeps_enterBlock (hx : e.graph.node? pred = some x) (hsink : x.sink = false)
    (hpends : x.point.Pends p o e.frames) (hleads : Leads p e.frames x.point f b) :
    Keeps p o root (enterBlock o pred b f V) e fun _ _ => True := by
  unfold enterBlock
  refine .afterLookup (gives_blockOf he.program) fun block hblock => keeps_query_bind ?_
  rw [PathGraph.state_eq hx]
  refine keeps_ite (fun _ => ?_) fun _ => ?_
  · refine .bind (keeps_arrive he hx ⟨hsink, .giveUp hpends hleads⟩) fun _ d hd _ => ?_
    refine .afterLookup gives_functionOf fun function _ => keeps_query_bind ?_
    exact keeps_noteCoverage hd.records
  · refine keeps_query_bind (.bind (keeps_liveMarks he) fun marks d hd hsame => ?_)
    have hstood : d.Stood p o ⟨.entrance b, f, none⟩ pred := by
      refine Exploration.Stood.of_eq (e := e) ⟨x, hx, hsink, ?_⟩ hsame.1 hsame.2
      exact .heads hpends (.entrance hleads)
    refine .bind (keeps_consult hd.records hstood) fun n? d1 hd1 htold => ?_
    cases n? with
    | none => exact keeps_pure hd1.records trivial
    | some n =>
      obtain ⟨y, hy, hysink, hlooks⟩ := (htold n rfl).stood (hstood.mono hd.records hd1)
      refine keeps_query_bind ?_
      rw [PathGraph.state_eq hy]
      have hadvance : ∀ t d2, y.state.Keeps t → d1.Gains p o root d2 → Keeps p o root (do
            let state ← query fun e => State.removeDead t e.catalog marks
            advance n ⟨.entrance b, f, none⟩ state (V.enter f b)) d2 fun _ _ => True := by
        intro t d2 ht hd2
        refine keeps_query_bind (keeps_advance hd2.records (hd2.node hy) ⟨hysink, .enter ?_ ?_⟩ ?_)
        · exact hlooks.mono hd1.records.stacked hd2.frames
        · exact ht.trans (keeps_removeDead _ _ _)
        · exact pends_plain (fun _ _ h => nomatch h) fun _ h => nomatch h
      refine keeps_ite (fun _ => ?_) fun _ => hadvance _ d1 (.refl _) hd1.records.gains
      exact .bind (keeps_widenLoop hd1.records) fun t d2 hd2 ht => hadvance t d2 ht.1 hd2

/-! ### Leaving functions -/

theorem keeps_leaveFrame (hx : e.graph.node? n = some ⟨⟨.finish, f, tag⟩, s, sink⟩)
    (hsink : sink = false) (hpends : Point.Pends p o e.frames ⟨.finish, f, tag⟩) :
    Keeps p o root (leaveFrame o n f V) e fun _ _ => True := by
  obtain rfl : tag = none := hpends.tag.resolve_right fun ⟨_, _, h, _⟩ => nomatch h
  unfold leaveFrame
  refine keeps_query_bind (keeps_query_bind ?_)
  rw [PathGraph.state_eq hx]
  cases hframe : e.frames.frame? f with
  | none => exact keeps_throw
  | some z =>
    have hended : z.parent = none → Keeps p o root (do
        let marks ← liveMarks s [] none
        let _ ← consult o n ⟨.finish, f, none⟩ 0 (.dead marks)) e fun _ _ => True := fun hparent => by
      refine .bind (keeps_liveMarks he) fun marks d hd hsame => ?_
      refine .bind (keeps_consult hd.records (Exploration.Stood.of_eq (e := e) ⟨_, hx, hsink, ?_⟩
        hsame.1 hsame.2)) fun _ d' hd' _ => keeps_pure hd'.records trivial
      exact .heads hpends (.ended hframe hparent)
    cases he.stacked f z hframe with
    | top => exact hended rfl
    | called =>
      refine keeps_advance he hx ⟨hsink, .giveBack hframe rfl⟩
        ⟨.inl rfl, fun h => (nomatch h), fun h => ?_⟩
      cases h
      exact ⟨_, _, _, hframe⟩

theorem keeps_returnToCaller (hx : e.graph.node? n = some ⟨⟨.callExit site, g, tag⟩, s, sink⟩)
    (hsink : sink = false) (hpends : Point.Pends p o e.frames ⟨.callExit site, g, tag⟩) :
    Keeps p o root (returnToCaller o n site g V) e fun _ _ => True := by
  obtain rfl : tag = none := hpends.tag.resolve_right fun ⟨_, _, h, _⟩ => nomatch h
  obtain ⟨caller, callee, depth, hg⟩ := hpends.returns rfl
  unfold returnToCaller
  refine keeps_query_bind ?_
  rw [show Frames.caller? e.frames g = some caller by rw [Frames.caller?, hg]; rfl]
  refine keeps_query_bind (.afterLookup (gives_blockOf he.program) fun block hblock => ?_)
  refine keeps_ite (fun _ => .afterLookup gives_functionOf fun _ _ => ?_) fun _ => keeps_query_bind ?_
  · have hthrow : ∀ {err}, Keeps p o root (throw err : Exploring PUnit) e fun _ _ => False := keeps_throw
    exact hthrow.bind fun _ _ _ h => h.elim
  rw [PathGraph.state_eq hx]
  refine keeps_query_bind (.bind (keeps_liveMarks he) fun marks d1 hd1 hsame => ?_)
  have hback : Heads p o e.frames ⟨.callExit site, g, none⟩
      ⟨.after site.block site.index, caller, none⟩ := .back hg
  have hstood : d1.Stood p o ⟨.after site.block site.index, caller, none⟩ n :=
    Exploration.Stood.of_eq (e := e) ⟨_, hx, hsink, .heads hpends hback⟩ hsame.1 hsame.2
  refine .bind (keeps_consult hd1.records hstood) fun n? d2 hd2 htold => ?_
  cases n? with
  | none => exact keeps_pure hd2.records trivial
  | some done =>
    have hg2 := hd2.frames _ _ (hd1.frames _ _ hg)
    have hdone : ∃ y, d2.graph.node? done = some y ∧ y.sink = false ∧
        (y.point = ⟨.callExit site, g, none⟩ ∨
          ∃ checker, y.point = ⟨.after site.block site.index, caller, some checker⟩) := by
      rcases htold done rfl with rfl | ⟨y, checker, hy, hysink, hpoint⟩
      · exact ⟨_, hd2.node (hd1.node hx), hsink, .inl rfl⟩
      · exact ⟨y, hy, hysink, .inr ⟨checker, hpoint⟩⟩
    obtain ⟨y, hy, hysink, hpoint⟩ := hdone
    refine keeps_query_bind (keeps_query_bind ?_)
    rw [PathGraph.state_eq hy]
    refine keeps_finishElement hd2.records hy
      ⟨hysink, .resume hg2 hpoint (keeps_removeDead _ _ _)⟩ fun call hcall h => ?_
    exact absurd h ((callEvent?_call hcall).2.2.2.2.2 ▸ false_ne_true)

end

/-! ### Pending nodes -/

/-- The frame of a call that is there. -/
theorem call_of_frame (hs : fs.Stacked p o) (hg : fs.frame? g = some ⟨some f, callee, some site, depth⟩)
    :
    Frames.call fs f callee site = (g, fs) := by
  cases hs g _ hg with
  | called _ hz =>
    rw [Frames.call_eq hz]
    unfold Frames.add
    rw [Interned.intern_of_get? hg]

section

variable (he : e.Records p o root)
include he

theorem keeps_known_call {next : FrameId → Exploring β} {post : β → Exploration → Prop}
    (hg : e.frames.frame? g = some ⟨some f, callee, some site, depth⟩)
    (hnext : Keeps p o root (next g) e post) :
    Keeps p o root ((onFrames fun fs => Frames.call fs f callee site) >>= next) e post :=
  fun u e' h => by
    rw [onFrames_bind, call_of_frame he.stacked hg] at h
    exact hnext u e' h

/-- **Continuing a pending node.** -/
theorem keeps_dispatch {r : Pending} (hr : e.Open p o r.node) :
    Keeps p o root (dispatch o r) e fun _ _ => True := by
  obtain ⟨⟨⟨kind, f, tag⟩, s, sink⟩, hx, hsink, hpends⟩ := hr
  unfold dispatch
  refine keeps_query_bind ?_
  rw [PathGraph.point_eq hx]
  cases kind with
  | entry =>
    refine .afterLookup (gives_bodyOf he.program) fun body hruns => ?_
    exact keeps_enterBlock he hx hsink hpends (.entry hruns)
  | edge source target => exact keeps_enterBlock he hx hsink hpends .edge
  | entrance b =>
    refine keeps_query_bind (keeps_continueBlock he hx hsink hpends .entrance ?_)
    rw [PathGraph.state_eq hx]
    exact (State.Keeps.refl s).rests f
  | after b i => exact keeps_afterElement he hx hsink hpends .after
  | callEnter site callee =>
    obtain ⟨g, depth, hg⟩ := hpends.enters rfl
    refine keeps_known_call he hg (.afterLookup (gives_bodyOf he.program) fun body hruns => ?_)
    exact keeps_enterBlock he hx hsink hpends (.call hg hruns)
  | finish => exact keeps_leaveFrame he hx hsink hpends
  | callExit site => exact keeps_returnToCaller he hx hsink hpends
  | before | exit => exact keeps_pure he trivial

/-! ### The search -/

theorem keeps_nextPending :
    Keeps p o root nextPending e fun q? e' => ∀ r, q? = some r → e'.Open p o r.node := by
  intro q? e' h
  unfold nextPending at h
  cases hpop : e.worklist.pop? with
  | none =>
    rw [hpop] at h
    cases h
    exact ⟨he.gains, fun _ h => nomatch h⟩
  | some out =>
    obtain ⟨r, w⟩ := out
    rw [hpop] at h
    cases h
    have hpending := Worklist.pending_of_pop? hpop
    refine ⟨⟨⟨he.program, he.stacked, he.tracks, fun hq => ?_, he.reported⟩, .refl _, id⟩, ?_⟩
    · exact he.pending (hpending ▸ mem_cons_of_mem r hq)
    · rintro _ ⟨⟩
      exact he.pending (hpending ▸ mem_cons_self)

theorem keeps_clear :
    Keeps p o root (modify fun e => { e with worklist := e.worklist.clear }) e fun _ _ => True :=
  fun u e' h => by
    cases h
    exact ⟨⟨⟨he.program, he.stacked, he.tracks, fun hq => absurd hq not_mem_nil, he.reported⟩,
      .refl _, id⟩, trivial⟩

/-- **The search**, however it ends. -/
theorem keeps_search {steps : Nat} : Keeps p o root (search o f l steps) e fun _ _ => True := by
  induction steps generalizing e with
  | zero => exact keeps_pure he trivial
  | succ steps ih =>
    refine .bind (keeps_nextPending he) fun r? d hd hr => ?_
    cases r? with
    | none => exact keeps_pure hd.records trivial
    | some r =>
      refine keeps_query_bind (keeps_ite (fun _ => ?_) fun _ => ?_)
      · exact .bind (keeps_noteCoverage hd.records) fun _ _ hd' _ => keeps_clear hd'.records
      · exact .bind (keeps_dispatch hd.records (hr r rfl)) fun _ _ hd' _ => ih hd'.records

end

end Exploring

namespace Exploration

variable {p : Program} {o : Options} {f : FunctionId} {e d : Exploration} {x : PathNode} {n : Nat}

/-- There is one node at the start, and nothing leads to it. -/
theorem records_start (o : Options) (p : Program) (f : FunctionId) :
    (start o p f).Records p o (root o p f) := by
  refine ⟨?_, Frames.stacked_top f, PathGraph.Tracks.single _ _, fun hq => ?_, fun hk => ?_⟩
  · show (opening o p f).2.program = p
    unfold opening
    split
    · exact (grows_ofGlobals o.store topFrame (.ofProgram p)).program
    · rfl
  · obtain ⟨m, hpending, hnode⟩ := start_spec o p f
    rw [hpending, mem_singleton] at hq
    subst hq
    exact ⟨_, (hnode m _).2 ⟨rfl, rfl⟩, rfl,
      pends_plain (fun _ _ h => nomatch h) fun _ h => nomatch h⟩
  · exact absurd hk not_mem_nil

/-- However many pending nodes are continued, all edges have a reason. -/
theorem Records.steps (he : e.Records p o x) (h : Exploring.Steps o n e d) : d.Records p o x := by
  induction h with
  | refl => exact he
  | @step e d e' q w n hpop hrun _ ih =>
    have hpending := Worklist.pending_of_pop? hpop
    have hrest : Records p o x { e with worklist := w } :=
      ⟨he.program, he.stacked, he.tracks,
        fun hq => he.pending (hpending ▸ mem_cons_of_mem q hq), he.reported⟩
    have hopen : Open p o { e with worklist := w } q.node := he.pending (hpending ▸ mem_cons_self)
    exact ih (keeps_dispatch hrest hopen _ _ hrun).1.records

/-- Only functions with a body are explored. -/
theorem exists_body_of_explore (h : explore o p f = .ok e) :
    ∃ body, (p.function f).body = some body := by
  cases hbody : (p.function f).body with
  | some body => exact ⟨body, rfl⟩
  | none =>
    have hnone : (p.function f).body.isNone = true := by
      rw [hbody]
      rfl
    unfold explore at h
    change _ <$> Exploring.followAll o f _ = _ at h
    unfold Exploring.followAll at h
    rw [query_bind, show Catalog.program _ = p from rfl, hnone, if_pos rfl] at h
    cases h

/-- The exploration of a function, after some pending nodes were continued or at its end. -/
inductive Reached (o : Options) (p : Program) (f : FunctionId) : Exploration → Prop where
  | steps {n : Nat} {e : Exploration} : Exploring.Steps o n (start o p f) e → Reached o p f e
  | ended {e : Exploration} : explore o p f = .ok e → Reached o p f e

/-- **Every graph that an exploration leaves**, whether it went through all paths or not, has edges with
a reason only. -/
theorem Reached.records (h : Reached o p f e) : e.Records p o (root o p f) := by
  cases h with
  | steps h => exact (records_start o p f).steps h
  | ended h =>
    obtain ⟨body, hbody⟩ := exists_body_of_explore h
    exact (keeps_search (records_start o p f) _ _ ((explore_eq_ok hbody).1 h)).1.records

end Exploration

end PathScout

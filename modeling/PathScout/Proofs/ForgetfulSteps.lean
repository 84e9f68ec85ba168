import PathScout.Proofs.SourceSteps

/-!
# Where something is forgotten

Memory is forgotten in two places: where a call is evaluated that is not followed, and where a block
is entered whose loop is to be forgotten. What is done before, when a pending node is continued,
tells whether this is next.

* `Exploring.upcoming`: the step that is evaluated next. `Exploring.unfollowedCall`: the call that
  is evaluated next, without following it.
* `Exploring.forgottenLoop`: the loop that is forgotten next.
* `Exploring.dispatch_of_unfollowedCall`, `Exploring.dispatch_of_forgottenLoop`: that is what
  happens then.
-/

namespace PathScout

/-- A step that is evaluated next, from a node. -/
structure Upcoming where
  spot : Spot
  pred : NodeId
  element : Element

/-- A block that is entered by a path at a node, and for the how-many-th time. -/
structure Entrance where
  id : BlockId
  block : Block
  frame : FrameId
  count : Nat
  marks : Marks
  pred : NodeId

namespace Exploring

/-! ### Calls -/

/-- The step that is evaluated next in a block. -/
def upcomingIn (o : Options) (pred : NodeId) (state : State) (spot : Spot) :
    Exploring (Option Upcoming) := do
  match (← blockOf spot.frame spot.block).elements[spot.index]? with
  | some element =>
    let pred ← settle pred spot.before state
    match ← ask o spot pred (.element element) with
    | none => return none
    | some n => return some ⟨spot, n, element⟩
  | none => return none

/-- The step that is evaluated next where a pending node is continued. -/
def upcoming (o : Options) (q : Pending) : Exploring (Option Upcoming) := do
  let point ← query fun e => e.graph.point q.node
  let f := point.frame
  match point.kind with
  | .entrance b => upcomingIn o q.node (← stateOf q.node) ⟨f, b, 0, q.visits⟩
  | .after b i =>
    let state ← stateOf q.node
    let element := (← blockOf f b).elements[i]?
    let state := if element.any (·.isRoot) then state.clearExprs f else state
    upcomingIn o q.node state ⟨f, b, i + 1, q.visits⟩
  | _ => return none

/-- The call that is evaluated next without following it, if no checker evaluates it. -/
def unfollowed (o : Options) (spot : Spot) (pred : NodeId) (x : ExprId) :
    Exploring (Option (NodeId × CallEvent)) := do
  let state ← stateOf pred
  match ← query fun e => state.callEvent? e.catalog.program spot.frame x (spot.site x) with
  | none => return none
  | some call =>
    match ← ask o spot pred (.callBegins call) with
    | none => return none
    | some n =>
      match ← evalByChecker o spot n call o.checkers with
      | some _ => return none
      | none =>
        if ← query (mayInline o spot.frame call.callee) then return none
        else return some (n, call)

/-- The call that is evaluated next without following it, where a pending node is continued. -/
def unfollowedCall (o : Options) (q : Pending) :
    Exploring (Option (Spot × NodeId × CallEvent)) := do
  match ← upcoming o q with
  | some ⟨spot, pred, .expr x _⟩ =>
    match ← unfollowed o spot pred x with
    | some (n, call) => return some (spot, n, call)
    | none => return none
  | _ => return none

/-! ### Loops -/

/-- The block that is entered, and its frame, where a pending node is continued. -/
def entered (q : Pending) : Exploring (Option (BlockId × FrameId)) := do
  let point ← query fun e => e.graph.point q.node
  let f := point.frame
  match point.kind with
  | .entry => return some ((← bodyOf f).graph.entry, f)
  | .edge _ target => return some (target, f)
  | .callEnter site function =>
    let callee ← onFrames fun fs => Frames.call fs f function site
    return some ((← bodyOf callee).graph.entry, callee)
  | _ => return none

/-- The entrance at which a loop is forgotten next, where a block is entered. -/
def forgottenAt (o : Options) (pred : NodeId) (b : BlockId) (f : FrameId) (visits : Visits) :
    Exploring (Option Entrance) := do
  let block ← blockOf f b
  let count := visits.count f b + 1
  let state ← stateOf pred
  if o.maxBlockVisits < count then return none
  else
    let chain ← query fun e => Frames.ancestors e.frames f
    let marks ← liveMarks state chain (some b)
    match ← consult o pred ⟨.entrance b, f, none⟩ count (.dead marks) with
    | none => return none
    | some n =>
      if count = o.maxBlockVisits ∧ block.loopHead ∧ o.loopExhaustion = .widen then
        return some ⟨b, block, f, count, marks, n⟩
      else return none

/-- The entrance at which a loop is forgotten next, where a pending node is continued. -/
def forgottenLoop (o : Options) (q : Pending) : Exploring (Option Entrance) := do
  match ← entered q with
  | some (b, f) => forgottenAt o q.node b f q.visits
  | none => return none

/-- The path is in the block once the loop is forgotten. -/
def enterForgotten (w : Entrance) (visits : Visits) (s : State) : Exploring Unit := do
  let s ← query fun e => s.removeDead e.catalog w.marks
  advance w.pred ⟨.entrance w.id, w.frame, none⟩ s (visits.enter w.frame w.id)

/-! ### What happens then -/

variable {α β : Type} {o : Options} {q : Pending} {e d : Exploration} {spot : Spot}
  {pred n : NodeId} {s : State} {x : ExprId} {call : CallEvent} {u : Upcoming} {w : Entrance} {b : BlockId}
  {f : FrameId} {V : Visits}

theorem bind_of_some {x : Exploring α} {y : Exploring (Option α)} {g : Option α → Exploring β}
    (hy : y e = (do return some (← x)) d) : (y >>= g) e = (x >>= fun a => g (some a)) d := by
  have hx : (do return some (← x) : Exploring (Option α)) d =
      Except.bind (x d) fun p => .ok (some p.1, p.2) := rfl
  show Except.bind (y e) _ = Except.bind (x d) _
  rw [hy, hx]
  cases x d <;> rfl

/-- Nothing was to be done next. -/
theorem not_pure_none {a : α} : (pure none : Exploring (Option α)) e ≠ .ok (some a, d) :=
  fun h => nomatch h

theorem evalCall_of_unfollowed (h : unfollowed o spot pred x e = .ok (some (n, call), d)) :
    evalCall o spot pred x e = (do return some (← conservativeCall o spot n call)) d := by
  rw [unfollowed, stateOf, query_bind, query_bind] at h
  rw [evalCall, stateOf, query_bind, query_bind]
  cases hcall : (e.graph.state pred).callEvent? e.catalog.program spot.frame x (spot.site x) with
  | none =>
    rw [hcall] at h
    exact absurd h not_pure_none
  | some call' =>
    rw [hcall] at h
    obtain ⟨n?, d1, hask, h⟩ := bind_eq_ok.1 h
    dsimp only
    rw [bind_of_ok hask]
    cases n? with
    | none => exact absurd h not_pure_none
    | some m =>
      obtain ⟨answer, d2, hanswer, h⟩ := bind_eq_ok.1 h
      dsimp only
      rw [bind_of_ok hanswer]
      cases answer with
      | some _ => exact absurd h not_pure_none
      | none =>
        dsimp only at h ⊢
        rw [query_bind, ite_apply] at h
        rw [query_bind, ite_apply]
        split at h
        · exact absurd h not_pure_none
        · next hmay =>
          cases h
          rw [if_neg hmay]

theorem evalExpr_of_unfollowed (h : unfollowed o spot pred x e = .ok (some (n, call), d)) :
    evalExpr o spot pred x e = evalCall o spot pred x e := by
  rw [unfollowed, stateOf, query_bind, query_bind] at h
  obtain ⟨callee, args, hop⟩ : ∃ callee args, (e.catalog.program.expr x).op = .call callee args := by
    cases hcall : (e.graph.state pred).callEvent? e.catalog.program spot.frame x (spot.site x) with
    | none =>
      rw [hcall] at h
      exact absurd h not_pure_none
    | some call' => exact (callEvent?_eq_some hcall).2.2
  rw [evalExpr, query_bind, hop]

theorem continueBlock_of_upcomingIn (h : upcomingIn o pred s spot e = .ok (some u, d)) :
    u.spot = spot ∧ continueBlock o pred s spot e = (do
      match ← evalElement o spot u.pred u.element with
      | some outcome => finishElement o spot outcome
      | none => return ()) d := by
  unfold upcomingIn at h
  obtain ⟨block, d1, hblock, h⟩ := bind_eq_ok.1 h
  rw [continueBlock, bind_of_ok hblock]
  cases hel : block.elements[spot.index]? with
  | some element =>
    rw [hel] at h
    obtain ⟨m, d2, hsettle, h⟩ := bind_eq_ok.1 h
    obtain ⟨n?, d3, hask, h⟩ := bind_eq_ok.1 h
    dsimp only
    rw [processElement, bind_of_ok hsettle, bind_of_ok hask]
    cases n? with
    | none => exact absurd h not_pure_none
    | some m =>
      cases h
      exact ⟨rfl, rfl⟩
  | none =>
    rw [hel] at h
    exact absurd h not_pure_none

theorem dispatch_of_upcoming (h : upcoming o q e = .ok (some u, d)) : dispatch o q e = (do
      match ← evalElement o u.spot u.pred u.element with
      | some outcome => finishElement o u.spot outcome
      | none => return ()) d := by
  rw [upcoming, query_bind] at h
  rw [dispatch, query_bind]
  cases hkind : (e.graph.point q.node).kind with
  | entrance b =>
    rw [hkind] at h
    dsimp only at h ⊢
    rw [stateOf, query_bind] at h
    obtain ⟨hspot, heq⟩ := continueBlock_of_upcomingIn h
    rw [stateOf, query_bind, heq, hspot]
  | after b i =>
    rw [hkind] at h
    dsimp only at h ⊢
    rw [stateOf, query_bind] at h
    obtain ⟨block, d1, hblock, h⟩ := bind_eq_ok.1 h
    obtain ⟨hspot, heq⟩ := continueBlock_of_upcomingIn h
    rw [afterElement, stateOf, query_bind, bind_of_ok hblock, heq, hspot]
  | _ =>
    rw [hkind] at h
    exact absurd h not_pure_none

/-- **The call is evaluated** without following it. -/
theorem dispatch_of_unfollowedCall (h : unfollowedCall o q e = .ok (some (spot, n, call), d)) :
    dispatch o q e = (conservativeCall o spot n call >>= finishElement o spot) d := by
  obtain ⟨u?, d1, hup, h⟩ := bind_eq_ok.1 h
  match u? with
  | some ⟨spot', pred, .expr x root⟩ =>
    obtain ⟨found?, d2, hfound, h⟩ := bind_eq_ok.1 h
    match found? with
    | none => exact absurd h not_pure_none
    | some (n', call') =>
      cases h
      rw [dispatch_of_upcoming hup]
      exact bind_of_some ((evalExpr_of_unfollowed hfound).trans (evalCall_of_unfollowed hfound))
  | none | some ⟨_, _, .decl ..⟩ | some ⟨_, _, .merge ..⟩ | some ⟨_, _, .return ..⟩ =>
    exact absurd h not_pure_none

theorem enterBlock_of_forgottenAt (h : forgottenAt o pred b f V e = .ok (some w, d)) :
    enterBlock o pred b f V e =
      (widenLoop o (d.graph.state w.pred) w.block w.frame w.count >>= enterForgotten w V) d := by
  unfold forgottenAt at h
  obtain ⟨block, d1, hblock, h⟩ := bind_eq_ok.1 h
  rw [enterBlock, bind_of_ok hblock]
  rw [stateOf, query_bind, ite_apply] at h ⊢
  split at h
  · exact absurd h not_pure_none
  · next hlimit =>
    rw [if_neg hlimit]
    rw [query_bind] at h ⊢
    obtain ⟨marks, d2, hmarks, h⟩ := bind_eq_ok.1 h
    obtain ⟨n?, d3, hconsult, h⟩ := bind_eq_ok.1 h
    rw [bind_of_ok hmarks, bind_of_ok hconsult]
    cases n? with
    | none => exact absurd h not_pure_none
    | some m =>
      dsimp only at h
      rw [ite_apply] at h
      split at h
      · next hwiden =>
        cases h
        dsimp only
        rw [stateOf, query_bind, ite_apply, if_pos hwiden]
        rfl
      · exact absurd h not_pure_none

/-- **The loop is forgotten.** -/
theorem dispatch_of_forgottenLoop (h : forgottenLoop o q e = .ok (some w, d)) :
    dispatch o q e = (widenLoop o (d.graph.state w.pred) w.block w.frame w.count >>=
      enterForgotten w q.visits) d := by
  obtain ⟨place?, d1, hplace, h⟩ := bind_eq_ok.1 h
  cases place? with
  | none => exact absurd h not_pure_none
  | some place =>
    rw [← enterBlock_of_forgottenAt h]
    rw [entered, query_bind] at hplace
    rw [dispatch, query_bind]
    cases hkind : (e.graph.point q.node).kind with
    | entry =>
      rw [hkind] at hplace
      obtain ⟨body, d2, hbody, hplace⟩ := bind_eq_ok.1 hplace
      cases hplace
      exact bind_of_ok hbody
    | edge source target =>
      rw [hkind] at hplace
      cases hplace
      rfl
    | callEnter site function =>
      rw [hkind] at hplace
      obtain ⟨g, d2, hcall, hplace⟩ := bind_eq_ok.1 hplace
      obtain ⟨body, d3, hbody, hplace⟩ := bind_eq_ok.1 hplace
      cases hplace
      dsimp only
      rw [bind_of_ok hcall]
      exact bind_of_ok hbody
    | _ =>
      rw [hkind] at hplace
      exact absurd hplace not_pure_none

/-! ### From where it happens -/

variable {p : Program} {P : Set Conjuring} {point : Point}

theorem Adds.afterLookup {x : Exploring α} {next : α → Exploring β} {found : α → Prop}
    {post : β → Exploration → Prop} (hx : x.Gives e fun a d => found a ∧ d = e)
    (hnext : ∀ a, found a → (next a).Adds e post) : (x >>= next).Adds e post :=
  Gives.bind hx fun a d h => by
    obtain ⟨h, rfl⟩ := h
    exact hnext a h

/-- A step that is evaluated next is one of its block, and nothing was conjured yet. -/
def StepFrom (p : Program) (point : Point) (V : Visits) (P : Set Conjuring) (e : Exploration)
    (u : Upcoming) : Prop :=
  e.NodeFrom P u.pred ∧ ∃ block, At p e.frames point V u.spot block ∧
    block.elements[u.spot.index]? = some u.element

theorem adds_upcomingIn (hp : e.catalog.program = p) (hn : e.NodeFrom P pred)
    (hs : s.From e.catalog P) (hbefore : point.Before spot.frame spot.block spot.index)
    (hV : spot.visits = V) :
    (upcomingIn o pred s spot).Adds e fun u? d => ∀ u, u? = some u → StepFrom p point V P d u := by
  refine .afterLookup (gives_blockOf hp) fun block hblock => ?_
  cases hel : block.elements[spot.index]? with
  | none => exact adds_pure fun _ h => nomatch h
  | some element =>
    refine Adds.bind (adds_settle hn hs) fun m d hd hm => ?_
    refine Adds.bind (adds_ask hm trivial) fun n? d1 hd1 hn' => ?_
    cases n? with
    | none => exact adds_pure fun _ h => nomatch h
    | some n =>
      refine adds_pure fun u hu => ?_
      cases hu
      exact ⟨hn' n rfl, block, ((At.stays ⟨hbefore, hblock, hV⟩ hd).stays hd1), hel⟩

theorem adds_upcoming {x : PathNode} (hp : e.catalog.program = p)
    (hx : e.graph.node? q.node = some x) (hs : x.state.From e.catalog P) :
    (upcoming o q).Adds e fun u? d => ∀ u, u? = some u → StepFrom p x.point q.visits P d u := by
  obtain ⟨⟨kind, f, tag⟩, s, sink⟩ := x
  have hn : e.NodeFrom P q.node := ⟨_, hx, hs⟩
  refine gives_query_bind ?_
  rw [PathGraph.point_eq hx]
  cases kind with
  | entrance b => exact gives_query_bind (adds_upcomingIn hp hn hn.state .entrance rfl)
  | after b i =>
    refine gives_query_bind (Adds.afterLookup (gives_blockOf hp) fun block _ => ?_)
    refine adds_upcomingIn hp hn ?_ .after rfl
    split
    · exact hn.state.clearExprs _
    · exact hn.state
  | _ => exact adds_pure fun _ h => nomatch h

/-- A call that is evaluated next is a step of its block, and nothing was conjured yet. -/
structure CallFrom (p : Program) (point : Point) (V : Visits) (P : Set Conjuring) (e : Exploration)
    (spot : Spot) (n : NodeId) (call : CallEvent) : Prop where
  node : e.NodeFrom P n
  args : ∀ v ∈ call.args, v.From e.catalog P
  frame : call.frame = spot.frame
  step : ∃ block root, At p e.frames point V spot block ∧
    block.elements[spot.index]? = some (.expr call.expr root)

theorem adds_unfollowedCall {x : PathNode} (hp : e.catalog.program = p)
    (hx : e.graph.node? q.node = some x) (hs : x.state.From e.catalog P) :
    (unfollowedCall o q).Adds e fun r? d => ∀ spot n call, r? = some (spot, n, call) →
      CallFrom p x.point q.visits P d spot n call := by
  refine Adds.bind (adds_upcoming hp hx hs) fun u? d hd hu => ?_
  match u? with
  | some ⟨spot, pred, .expr y root⟩ =>
    obtain ⟨hn, block, hat, hel⟩ := hu _ rfl
    have hcall : (unfollowed o spot pred y).Adds d fun r? d' => ∀ n call, r? = some (n, call) →
        CallFrom p x.point q.visits P d' spot n call := by
      refine gives_query_bind (gives_query_bind ?_)
      cases hcall : (d.graph.state pred).callEvent? d.catalog.program spot.frame y (spot.site y) with
      | none => exact adds_pure fun _ _ h => nomatch h
      | some call =>
        obtain ⟨rfl, hframe, hvalues⟩ := callEvent?_spec hcall
        refine Adds.bind (adds_ask hn trivial) fun n? d1 hd1 hn' => ?_
        cases n? with
        | none => exact adds_pure fun _ _ h => nomatch h
        | some m =>
          refine Adds.bind (quiet_evalByChecker call o.checkers).adds fun answer d2 hd2 _ => ?_
          cases answer with
          | some _ => exact adds_pure fun _ _ h => nomatch h
          | none =>
            refine gives_query_bind (gives_ite (fun _ => adds_pure fun _ _ h => nomatch h) ?_)
            intro _
            refine adds_pure fun n call' h => ?_
            cases h
            refine ⟨(hn' m rfl).mono hd2, fun v hv => ?_, hframe, block, root,
              (hat.stays hd1).stays hd2, hel⟩
            obtain ⟨a, rfl⟩ := hvalues v hv
            exact ((hn.state.value _ a).mono hd1.le).mono hd2.le
    refine Adds.bind hcall fun r? d' _ hr => ?_
    match r? with
    | none => exact adds_pure fun _ _ _ h => nomatch h
    | some (n, call) =>
      refine adds_pure fun spot' n' call' h => ?_
      cases h
      exact hr n call rfl
  | none | some ⟨_, _, .decl ..⟩ | some ⟨_, _, .merge ..⟩ | some ⟨_, _, .return ..⟩ =>
    exact adds_pure fun _ _ _ h => nomatch h

/-- A block is entered for the last time, its loop is to be forgotten, and nothing was conjured
yet. -/
structure EntranceFrom (p : Program) (o : Options) (V : Visits) (P : Set Conjuring)
    (e d : Exploration) (w : Entrance) : Prop where
  frames : e.frames.Extends d.frames
  program : d.catalog.program = p
  node : d.NodeFrom P w.pred
  block : Frames.HasBlock p d.frames w.frame w.id w.block
  count : w.count = V.count w.frame w.id + 1
  widens : Widens o w.block w.count

theorem gives_forgottenAt (hp : e.catalog.program = p) (hn : e.NodeFrom P pred) :
    (forgottenAt o pred b f V).Gives e fun w? d =>
      ∀ w, w? = some w → EntranceFrom p o V P e d w := by
  refine Gives.bind (gives_blockOf hp) ?_
  rintro block d ⟨hblock, rfl⟩
  refine gives_query_bind (gives_ite (fun _ => gives_pure fun _ h => nomatch h) fun _ => ?_)
  refine gives_query_bind (Gives.bind adds_liveMarks fun marks d1 hd1 => ?_)
  refine Gives.bind (adds_consult (hn.mono hd1.1) trivial) fun n? d2 hd2 => ?_
  cases n? with
  | none => exact gives_pure fun _ h => nomatch h
  | some n =>
    refine gives_ite (fun hwiden => ?_) fun _ => gives_pure fun _ h => nomatch h
    refine gives_pure fun w hw => ?_
    cases hw
    have hstays := hd1.1.trans hd2.1
    exact { frames := hstays.frames ▸ .refl _
            program := hstays.program.trans hp
            node := hd2.2 n rfl
            block := hstays.frames ▸ hblock
            count := rfl
            widens := hwiden }

/-- A frame for a call leaves everything else as it is. -/
theorem gives_call (caller : FrameId) (callee : FunctionId) (site : CallSite) :
    (onFrames fun fs => Frames.call fs caller callee site).Gives e fun _ d =>
      d.catalog = e.catalog ∧ d.graph = e.graph ∧ e.frames.Extends d.frames := fun g d h => by
  cases h
  exact ⟨rfl, rfl, Frames.extends_add _ _⟩

theorem gives_forgottenLoop {x : PathNode} (hp : e.catalog.program = p)
    (hx : e.graph.node? q.node = some x) (hs : x.state.From e.catalog P) :
    (forgottenLoop o q).Gives e fun w? d => ∀ w, w? = some w → EntranceFrom p o q.visits P e d w := by
  have hn : e.NodeFrom P q.node := ⟨_, hx, hs⟩
  have hplace : (entered q).Gives e fun _ d => d.catalog = e.catalog ∧ d.graph = e.graph ∧
      e.frames.Extends d.frames := by
    refine gives_query_bind ?_
    cases (e.graph.point q.node).kind with
    | entry =>
      refine Gives.bind (gives_bodyOf hp) ?_
      rintro body d ⟨-, rfl⟩
      exact gives_pure ⟨rfl, rfl, .refl _⟩
    | callEnter site callee =>
      refine Gives.bind (gives_call _ _ _) fun g d hd => ?_
      refine Gives.bind (gives_bodyOf (p := p) (hd.1 ▸ hp)) ?_
      rintro body d' ⟨-, rfl⟩
      exact gives_pure hd
    | _ => exact gives_pure ⟨rfl, rfl, .refl _⟩
  refine Gives.bind hplace fun place? d hd => ?_
  obtain ⟨hcatalog, hgraph, hframes⟩ := hd
  match place? with
  | none => exact gives_pure fun _ h => nomatch h
  | some (b, f) =>
    refine (gives_forgottenAt (hcatalog ▸ hp) (hn.of_eq hcatalog hgraph)).imp fun w? d' h w hw => ?_
    exact { h w hw with frames := hframes.trans (h w hw).frames }

end Exploring

end PathScout

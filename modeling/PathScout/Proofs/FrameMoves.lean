import PathScout.Proofs.PathEdges
import PathScout.Proofs.Termination

/-!
# Moves between frames

An edge of a graph of paths stays in a frame, goes from a call into the frame that the call enters, or
goes from the end of a called function back to the frame that waits for it. It changes values of the frame
that it leads to, and drops those of a frame that is over.

* `Moves`: the three ways. `Edge.moves`: every edge is one of them.
* `Edge.env_eq`: the values that belong to other frames stay.
* `returnedBy`, `Edge.result_eq`: the result of a function is set by its return statements only.
* `PathNode.Scoped`: what the values of a node belong to. `Edge.scoped`: edges keep it so.
-/

namespace PathScout

open OrderedMap Exploring

/-! ### Ways -/

/-- A path stays in its frame, goes into the frame of a call, or goes back from it. -/
inductive Moves (fs : Frames) : Point → Point → Prop where
  | stays {x y : Point} : y.frame = x.frame → (∀ site callee, x.kind ≠ .callEnter site callee) →
    (∀ site, x.kind ≠ .callExit site) → Moves fs x y
  | descends {x y : Point} {site : CallSite} {callee : FunctionId} {depth : Nat} {b : BlockId} :
    x.kind = .callEnter site callee → y.kind = .entrance b →
    fs.frame? y.frame = some ⟨some x.frame, callee, some site, depth⟩ → Moves fs x y
  | climbs {x y : Point} {site : CallSite} {callee : FunctionId} {depth : Nat} :
    x.kind = .callExit site → y.kind = .after site.block site.index →
    fs.frame? x.frame = some ⟨some y.frame, callee, some site, depth⟩ → Moves fs x y

section

variable {p : Program} {o : Options} {fs : Frames} {q q' : Point} {f g : FrameId} {b : BlockId} {i : Nat}
  {site : CallSite} {kind : PointKind} {x y : PathNode}

theorem Point.Before.moves (h : q.Before f b i) : Moves fs q ⟨kind, f, none⟩ := by
  cases h <;> exact .stays rfl (fun _ _ => nofun) fun _ => nofun

theorem Leads.moves (h : Leads p fs q f b) : Moves fs q ⟨.entrance b, f, none⟩ := by
  cases h with
  | call hf => exact .descends rfl rfl hf
  | _ => exact .stays rfl (fun _ _ => nofun) fun _ => nofun

theorem Heads.moves (h : Heads p o fs q q') : Moves fs q q' := by
  cases h with
  | entrance h | before h | exit h | finish h => exact h.moves
  | back hg => exact .climbs rfl rfl hg
  | _ => exact .stays rfl (fun _ _ => nofun) fun _ => nofun

theorem PointKind.Asked.ne_call (h : kind.Asked) :
    (∀ site callee, kind ≠ .callEnter site callee) ∧ ∀ site, kind ≠ .callExit site :=
  ⟨fun _ _ heq => by rw [heq] at h; exact h, fun _ heq => by rw [heq] at h; exact h⟩

theorem Looks.moves (h : Looks p o fs q q') : Moves fs q q' := by
  cases h with
  | heads _ h => exact h.moves
  | told h => exact .stays rfl h.ne_call.1 h.ne_call.2
  | _ => exact .stays rfl (fun _ _ => nofun) fun _ => nofun

/-- Where checkers look before a step or at the end of a block, a path stays in its frame. -/
theorem Moves.of_kind {y : Point} (h : Moves fs q q') (hframe : y.frame = q'.frame)
    (hentrance : ∀ b, q'.kind ≠ .entrance b) (hafter : ∀ b i, q'.kind ≠ .after b i) :
    Moves fs q y := by
  cases h with
  | stays hsame henter hexit => exact .stays (hframe.trans hsame) henter hexit
  | descends _ hkind => exact absurd hkind (hentrance _)
  | climbs _ hkind => exact absurd hkind (hafter _ _)

/-- **Every edge** is one of the three ways. -/
theorem Edge.moves (h : Edge p o fs x y) : Moves fs x.point y.point := by
  cases h with
  | tell hlooks =>
    cases hlooks.moves with
    | stays hsame henter hexit => exact .stays hsame henter hexit
    | descends hkind hkind' hframe => exact .descends hkind hkind' hframe
    | climbs hkind hkind' hframe => exact .climbs hkind hkind' hframe
  | evaluate hlooks => exact hlooks.moves.of_kind rfl (fun _ => nofun) fun _ _ => nofun
  | pause _ hheads => exact hheads.moves
  | step hlooks | call hlooks | leave hlooks =>
    exact hlooks.moves.of_kind rfl (fun _ => nofun) fun _ _ => nofun
  | finish hlooks | enter hlooks => exact hlooks.moves
  | giveUp _ hleads => exact hleads.moves
  | giveBack _ hpoint =>
    rw [hpoint]
    exact .stays rfl (fun _ _ => nofun) fun _ => nofun
  | resume hg hpoint =>
    rcases hpoint with hpoint | ⟨checker, hpoint⟩
    · exact .climbs (by rw [hpoint]) rfl (by rw [hpoint]; exact hg)
    · exact .stays (by rw [hpoint]) (fun _ _ => by rw [hpoint]; nofun) fun _ => by rw [hpoint]; nofun

/-- The frame of a call exists where the call is entered. -/
theorem Edge.callEnter {callee : FunctionId} (h : Edge p o fs x y)
    (hkind : y.point.kind = .callEnter site callee) :
    y.point.tag = none ∧ ∃ g depth, fs.frame? g = some ⟨some y.point.frame, callee, some site, depth⟩ := by
  have hasked : ∀ {kind : PointKind}, kind.Asked → kind ≠ .callEnter site callee :=
    fun hasked => hasked.ne_call.1 site callee
  cases h with
  | tell hlooks => exact absurd hkind (hasked hlooks.asked.1)
  | pause _ hheads => exact absurd hkind (hasked hheads.asked.1)
  | call _ hg =>
    cases hkind
    exact ⟨rfl, _, _, hg⟩
  | _ => cases hkind

end

/-! ### Values -/

section

variable {p : Program} {o : Options} {fs : Frames} {x y : PathNode} {s t : State} {f g : FrameId}
  {e : ExprId} {k : EnvKey} {el : Element} {checker : Checker} {scene : Scene} {c : Catalog}
  {sink : Bool} {site : CallSite} {callee : FunctionId} {depth : Nat} {q : Point}

/-- No call of the first frame entered the second one. -/
def Frames.NotCalled (fs : Frames) (f g : FrameId) : Prop :=
  ∀ callee site depth, fs.frame? g ≠ some ⟨some f, callee, site, depth⟩

theorem Exploring.get?_popFrame (s : State) (f g : FrameId) (e : ExprId) (k : EnvKey) :
    (popFrame s f g e).env.get? k = if k.frame = g then none
      else if k = .expr f e then some ((s.result? g).getD .unknown) else s.env.get? k := by
  have hdrop : (popFrame s f g e).env.get? k = _ := get?_filter (fun k : EnvKey => k.frame != g)
  rw [hdrop]
  by_cases hk : k.frame = g
  · rw [if_pos hk, if_neg (by simpa using hk)]
  · rw [if_neg hk, if_pos (by simpa using hk)]
    exact get?_insert

theorem State.Rests.get?_eq (h : s.Rests f t) (hk : k.isExprOf f = false) :
    t.env.get? k = s.env.get? k := by
  rcases h.env with henv | henv
  · rw [henv]
  · rw [henv]
    have hclear : (s.clearExprs f).env.get? k = _ := get?_filter fun k : EnvKey => !k.isExprOf f
    rw [hclear, if_pos (by rw [hk]; rfl)]

theorem EnvKey.isExprOf_of_ne (h : k.frame ≠ f) : k.isExprOf f = false := by
  cases k with
  | expr g e => exact beq_eq_false_iff_ne.2 h
  | result g => rfl

/-- A step of a block changes values of its frame only. -/
theorem Element.Sets.get?_eq (h : el.Sets f s t) (hk : k.frame ≠ f) : t.env.get? k = s.env.get? k := by
  cases h with
  | expr henv => exact henv k fun heq => hk (congrArg EnvKey.frame heq)
  | decl hkeeps => rw [hkeeps.env]
  | merge v | result => exact get?_insert_of_ne fun heq => hk (congrArg EnvKey.frame heq)
  | noResult => rfl

/-- What a checker says changes no value. -/
theorem Checker.env_of_reaches {event : Event} (h : (checker.check event scene c).1.Reaches t sink) :
    t.env = scene.state.env :=
  (checker.within_check event scene c).of_reaches h

theorem Checker.get?_of_evaluates {call : CallEvent} {verdict : Verdict}
    (hverdict : (checker.evalCall? call scene c).1 = some verdict) (h : verdict.Reaches t sink)
    (hk : k ≠ .expr call.frame call.expr) : t.env.get? k = scene.state.env.get? k :=
  (checker.within_evalCall? call scene c verdict hverdict).of_reaches h k hk

/-- **Values of other frames** stay, but for those of a frame that is over. -/
theorem Edge.env_eq (h : Edge p o fs x y) (hk : k.frame ≠ y.point.frame)
    (hcalled : fs.NotCalled y.point.frame k.frame) : y.state.env.get? k = x.state.env.get? k := by
  cases h with
  | tell _ _ ht => rw [Checker.env_of_reaches ht]
  | evaluate _ _ _ _ _ hframe _ _ hverdict ht =>
    exact Checker.get?_of_evaluates hverdict ht fun heq => hk ((congrArg EnvKey.frame heq).trans hframe)
  | pause _ _ _ ht | leave _ _ _ ht => exact ht.get?_eq (EnvKey.isExprOf_of_ne hk)
  | step _ _ _ hsets => exact hsets.get?_eq hk
  | call _ _ ht | enter _ ht => rw [ht.env]
  | finish | giveUp | giveBack => rfl
  | resume hg _ ht =>
    rw [ht.env, get?_popFrame, if_neg fun heq => hcalled _ _ _ (heq ▸ hg),
      if_neg fun heq => hk (congrArg EnvKey.frame heq)]

/-- The result that a step of a block in the first frame gives to the function in the second one. -/
def Element.returns? (s : State) (f g : FrameId) : Element → Option Value
  | .return (some e) _ => if f = g then some (s.value f e) else none
  | _ => none

/-- The result that the function in a frame is given by the step that leads from one node to another. -/
def returnedBy (p : Program) (fs : Frames) (g : FrameId) (x y : PathNode) : Option Value :=
  match y.point with
  | ⟨.after b i, f, none⟩ => (p.elementIn? fs f b i).bind (·.returns? x.state f g)
  | _ => none

theorem Element.Sets.result_eq (h : el.Sets f s t) :
    t.result? g = (el.returns? s f g).or (s.result? g) := by
  cases h with
  | expr henv => exact henv _ nofun
  | decl hkeeps => exact congrArg (get? · _) hkeeps.env
  | merge v => exact get?_insert_of_ne nofun
  | @result e =>
    have hset : (s.bindResult f (s.value f e)).result? g =
        if (.result g : EnvKey) = .result f then some (s.value f e) else s.result? g :=
      get?_insert
    rw [hset, returns?]
    by_cases hfg : f = g
    · rw [if_pos hfg, if_pos (congrArg EnvKey.result hfg.symm)]
      rfl
    · rw [if_neg hfg, if_neg fun heq => hfg (EnvKey.result.inj heq).symm]
      rfl
  | noResult => rfl

theorem elementIn?_eq {b : BlockId} {i : Nat} {block : Block} (hblock : Frames.HasBlock p fs f b block)
    (hel : block.elements[i]? = some el) : p.elementIn? fs f b i = some el := by
  unfold Program.elementIn?
  rw [blockIn?_eq hblock]
  exact hel

theorem returnedBy_of_tag (h : y.point.tag = some checker) : returnedBy p fs g x y = none := by
  unfold returnedBy
  split
  · next heq =>
    rw [heq] at h
    cases h
  · rfl

theorem returnedBy_of_kind (h : ∀ b i, y.point.kind ≠ .after b i) : returnedBy p fs g x y = none := by
  unfold returnedBy
  split
  · next heq => exact absurd (congrArg Point.kind heq) (h _ _)
  · rfl

/-- A call leaves the result of its function to the steps of the function. -/
theorem returnedBy_of_call {h : FrameId} (hs : fs.Stacked p o)
    (hh : fs.frame? h = some ⟨some f, callee, some site, depth⟩)
    (hy : y.point = ⟨.after site.block site.index, f, none⟩) : returnedBy p fs g x y = none := by
  cases hs h _ hh with
  | called _ _ hblock hel =>
    unfold returnedBy
    rw [hy]
    simp only [elementIn?_eq hblock hel, Option.bind_some, Element.returns?]

/-- **The result of a function** is what its return statements say. -/
theorem Edge.result_eq (h : Edge p o fs x y) (hs : fs.Stacked p o)
    (hcalled : fs.NotCalled y.point.frame g) :
    y.state.result? g = (returnedBy p fs g x y).or (x.state.result? g) := by
  have hkeep : returnedBy p fs g x y = none → y.state.result? g = x.state.result? g →
      y.state.result? g = (returnedBy p fs g x y).or (x.state.result? g) := fun hnone heq => by
    rw [hnone, heq]
    rfl
  cases h with
  | tell _ _ ht =>
    exact hkeep (returnedBy_of_tag rfl) (congrArg (get? · _) (Checker.env_of_reaches ht))
  | evaluate _ _ _ _ _ _ _ _ hverdict ht =>
    exact hkeep (returnedBy_of_tag rfl) (Checker.get?_of_evaluates hverdict ht nofun)
  | pause _ _ hkind ht =>
    refine hkeep (returnedBy_of_kind ?_) (ht.get?_eq rfl)
    rcases hkind with ⟨b, i, hkind⟩ | ⟨b, hkind⟩ <;> exact fun _ _ => hkind ▸ nofun
  | leave _ _ _ ht => exact hkeep (returnedBy_of_kind fun _ _ => nofun) (ht.get?_eq rfl)
  | call _ _ ht | enter _ ht =>
    exact hkeep (returnedBy_of_kind fun _ _ => nofun) (congrArg (get? · _) ht.env)
  | finish | giveUp | giveBack => exact hkeep (returnedBy_of_kind fun _ _ => nofun) rfl
  | @step f b i block el t _ hblock hel hsets =>
    have hreturned : returnedBy p fs g x ⟨⟨.after b i, f, none⟩, t, false⟩ =
        el.returns? x.state f g := by
      simp only [returnedBy, elementIn?_eq hblock hel, Option.bind_some]
    rw [hreturned]
    exact hsets.result_eq
  | @resume _ called _ _ _ _ hg hpoint ht =>
    refine hkeep (returnedBy_of_call hs hg rfl) ?_
    have hkept : EnvKey.frame (.result g) ≠ called := fun heq => hcalled _ _ _ ((show g = called from heq) ▸ hg)
    rw [State.result?, ht.env, get?_popFrame, if_neg hkept, if_neg nofun]
    rfl

/-! ### What values belong to -/

/-- The values of the state belong to the frame and to those that wait for it. -/
def State.Within (fs : Frames) (f : FrameId) (s : State) : Prop :=
  ∀ k v, s.env.get? k = some v → k.frame ∈ Frames.ancestors fs f

/-- All values of the node belong to its frame and to those that wait for it. Where a checker looks at a
call that is over, those of the called function are still there. -/
def PathNode.Scoped (fs : Frames) (x : PathNode) : Prop :=
  ∀ k v, x.state.env.get? k = some v → k.frame ∈ Frames.ancestors fs x.point.frame ∨
    ∃ checker callee site depth, x.point = ⟨.after site.block site.index, x.point.frame, some checker⟩ ∧
      fs.frame? k.frame = some ⟨some x.point.frame, callee, some site, depth⟩

theorem State.Within.of_get? (h : s.Within fs f)
    (ht : ∀ k, t.env.get? k = none ∨ t.env.get? k = s.env.get? k ∨ k.frame = f) : t.Within fs f := by
  intro k v hv
  rcases ht k with hk | hk | hk
  · cases hk.symm.trans hv
  · exact h k v (hk.symm.trans hv)
  · exact hk ▸ Frames.mem_ancestors_self fs f

theorem PathNode.Scoped.of_within (h : x.state.Within fs x.point.frame) : x.Scoped fs :=
  fun k v hv => .inl (h k v hv)

/-- A frame was entered at a step that is not skipped. -/
theorem Frames.Stacked.not_skips (hs : fs.Stacked p o)
    (hg : fs.frame? g = some ⟨some f, callee, some site, depth⟩) :
    ¬Skips p o fs f site.block site.index := by
  rintro ⟨block, e, root, callee', args, hblock, hel, hop, hnot⟩
  cases hs g _ hg with
  | called _ _ hblock' hel' hop' hmay =>
    cases hblock.unique hblock'
    cases hel.symm.trans hel'
    cases hop.symm.trans hop'
    exact hnot hmay

theorem PathNode.Scoped.of_pends (h : x.Scoped fs) (hs : fs.Stacked p o)
    (hpends : x.point.Pends p o fs) : x.state.Within fs x.point.frame := by
  intro k v hv
  rcases h k v hv with hmem | ⟨checker, callee, site, depth, hpoint, hframe⟩
  · exact hmem
  · rcases hpends.tag with htag | ⟨b, i, hkind, hskips⟩
    · rw [hpoint] at htag
      cases htag
    · rw [hpoint] at hkind
      cases hkind
      exact absurd hskips (hs.not_skips hframe)

/-- The frame that a path comes to waits for no more than the one that it was in, but for itself. -/
theorem Moves.within {q' : Point} (h : Moves fs q q') (hs : fs.Stacked p o)
    (hback : ∀ b i, q'.kind ≠ .after b i) (hwithin : s.Within fs q.frame) : s.Within fs q'.frame := by
  cases h with
  | stays hsame => exact hsame ▸ hwithin
  | descends _ _ hframe =>
    intro k v hv
    rw [hs.ancestors_called hframe rfl]
    exact List.mem_cons_of_mem _ (hwithin k v hv)
  | climbs _ hkind => exact absurd hkind (hback _ _)

theorem PathNode.Scoped.of_looks (h : x.Scoped fs) (hs : fs.Stacked p o)
    (hlooks : Looks p o fs x.point q) (hback : ∀ b i, q.kind ≠ .after b i) :
    x.state.Within fs q.frame := by
  refine Moves.within (q := x.point) hlooks.moves hs hback fun k v hv => ?_
  rcases h k v hv with hmem | ⟨checker, callee, site, depth, hpoint, hframe⟩
  · exact hmem
  · obtain ⟨z, s, sink⟩ := x
    cases hlooks with
    | heads hpends => exact h.of_pends hs hpends k v hv
    | told => exact absurd (congrArg Point.kind hpoint) (hback _ _)
    | before | exit => cases hpoint

theorem State.Within.rests (h : s.Within fs f) (ht : s.Rests f t) : t.Within fs f :=
  h.of_get? fun k => by
    cases hk : k.isExprOf f with
    | false => exact .inr (.inl (ht.get?_eq hk))
    | true =>
      cases k with
      | expr g e => exact .inr (.inr (beq_iff_eq.1 hk))
      | result g => cases hk

theorem State.Within.keeps (h : s.Within fs f) (ht : s.Keeps t) : t.Within fs f :=
  fun k v hv => h k v (ht.env ▸ hv)

/-- Where a checker looks, values belong to what they did before. -/
theorem PathNode.Scoped.tagged (h : x.Scoped fs) (hs : fs.Stacked p o) (hlooks : Looks p o fs x.point q)
    (ht : t.env = x.state.env) : PathNode.Scoped fs ⟨q.tagged checker, t, sink⟩ := by
  have hwithin : x.state.Within fs q.frame → PathNode.Scoped fs ⟨q.tagged checker, t, sink⟩ :=
    fun h k v hv => .inl (h k v (ht ▸ hv))
  by_cases hback : ∀ b i, q.kind ≠ .after b i
  · exact hwithin (h.of_looks hs hlooks hback)
  · push Not at hback
    obtain ⟨b, i, hkind⟩ := hback
    obtain ⟨z, s, sink'⟩ := x
    cases hlooks with
    | heads hpends hheads =>
      cases hheads with
      | back hg =>
        -- the called function is over, and its values are still there
        intro k v hv
        have hmem := h.of_pends hs hpends k v (ht ▸ hv)
        rw [hs.ancestors_called hg rfl] at hmem
        rcases List.mem_cons.1 hmem with heq | hmem
        · exact .inr ⟨checker, _, _, _, rfl, heq ▸ hg⟩
        · exact .inl hmem
      | skipped => exact hwithin (h.of_pends hs hpends)
      | _ => cases hkind
    | told =>
      intro k v hv
      rcases h k v (ht ▸ hv) with hmem | ⟨_, callee, site, depth, hpoint, hframe⟩
      · exact .inl hmem
      · injection hpoint with hkind
        exact .inr ⟨checker, callee, site, depth, hkind ▸ rfl, hframe⟩
    | _ => cases hkind

/-- **Edges** keep it so that values belong to the frame of their node and to those that wait for it. -/
theorem Edge.scoped (h : Edge p o fs x y) (hs : fs.Stacked p o) (hx : x.Scoped fs) : y.Scoped fs := by
  cases h with
  | tell hlooks _ ht => exact hx.tagged hs hlooks (Checker.env_of_reaches ht)
  | @evaluate f _ _ _ _ _ _ _ _ call _ _ _ _ _ _ hlooks _ _ _ _ hframe _ _ hverdict ht =>
    have hwithin := hx.of_looks hs hlooks fun _ _ => nofun
    refine .of_within (State.Within.of_get? hwithin fun k => ?_)
    by_cases hk : k = .expr call.frame call.expr
    · exact .inr (.inr ((congrArg EnvKey.frame hk).trans hframe))
    · exact .inr (.inl (Checker.get?_of_evaluates hverdict ht hk))
  | pause hpends hheads hkind ht =>
    refine .of_within ((hx.of_looks hs (.heads hpends hheads) ?_).rests ht)
    rcases hkind with ⟨b, i, hkind⟩ | ⟨b, hkind⟩ <;> exact fun _ _ => hkind ▸ nofun
  | @step f _ _ _ _ _ hlooks _ _ hsets =>
    have hwithin := hx.of_looks hs hlooks fun _ _ => nofun
    refine .of_within (State.Within.of_get? hwithin fun k => ?_)
    by_cases hk : k.frame = f
    · exact .inr (.inr hk)
    · exact .inr (.inl (hsets.get?_eq hk))
  | call hlooks _ ht | enter hlooks ht =>
    have hwithin := hx.of_looks hs hlooks fun _ _ => nofun
    exact .of_within (State.Within.keeps hwithin ht)
  | leave hlooks _ _ ht =>
    have hwithin := hx.of_looks hs hlooks fun _ _ => nofun
    exact .of_within (State.Within.rests hwithin ht)
  | finish hlooks => exact .of_within (hx.of_looks hs hlooks fun _ _ => nofun)
  | giveUp hpends hleads =>
    exact .of_within (hx.of_looks hs (.heads hpends (.entrance hleads)) fun _ _ => nofun)
  | giveBack hf hpoint =>
    refine .of_within fun k v hv => ?_
    rcases hx k v hv with hmem | ⟨_, _, _, _, htagged, -⟩
    · rw [hpoint] at hmem
      exact hmem
    · rw [hpoint] at htagged
      cases htagged
  | @resume f called _ _ _ _ hg hpoint ht =>
    refine .of_within fun k v hv => ?_
    rw [ht.env, get?_popFrame] at hv
    split at hv
    · cases hv
    · next hk =>
      split at hv
      · next heq => exact congrArg EnvKey.frame heq ▸ Frames.mem_ancestors_self fs f
      · rcases hpoint with hpoint | ⟨checker, hpoint⟩
        · rcases hx k v hv with hmem | ⟨_, _, _, _, htagged, -⟩
          · rw [hpoint, hs.ancestors_called hg rfl] at hmem
            exact (List.mem_cons.1 hmem).resolve_left hk
          · rw [hpoint] at htagged
            cases htagged
        · rcases hx k v hv with hmem | ⟨_, _, _, _, htagged, hframe⟩
          · rw [hpoint] at hmem
            exact hmem
          · -- the call entered one frame only
            rw [hpoint] at htagged hframe
            injection htagged with hkind
            injection hkind with hblock hindex
            exact absurd (hs.frame_eq hframe hg rfl rfl rfl rfl hblock.symm hindex.symm).1 hk

end

end PathScout

import PathScout.Proofs.FrameMoves
import PathScout.Proofs.FreshSymbols
import PathScout.Proofs.RecordedSteps

/-!
# What calls leave behind

While a called function runs, nothing that waits for it changes, and when it returns, its frame is dropped
and the call has the value that was returned. So the values of a node always belong to its frame and to
those that wait for it.

* `PathGraph.Step`: a step between two nodes. `returned`: the result that a path gives to a function.
* `Inside`: where a path stands between a call and its return. `Inside.step`, `Inside.finish`: one step,
  and all up to the return.
* `Exploration.stack_discipline`: frames, values and calls of every graph that an exploration leaves.
-/

namespace PathScout

open List Exploring

/-- One node follows the other one. -/
def PathGraph.Step (g : PathGraph) (x y : PathNode) : Prop :=
  ∃ a b, g.node? a = some x ∧ g.node? b = some y ∧ b ∈ g.succs a

/-- The node with the given number. -/
def PathGraph.nodeAt (g : PathGraph) (n : NodeId) : PathNode :=
  (g.node? n).getD ⟨g.point n, g.state n, false⟩

theorem PathGraph.node?_eq_nodeAt {g : PathGraph} {n : NodeId} (h : n.index < g.size) :
    g.node? n = some (g.nodeAt n) := by
  obtain ⟨x, hx⟩ := exists_node? h
  rw [nodeAt, hx]
  rfl

/-- The last result that the steps of a path give to the function in a frame. -/
def returned (p : Program) (fs : Frames) (g : FrameId) : List PathNode → Option Value
  | x :: y :: rest => (returned p fs g (y :: rest)).or (returnedBy p fs g x y)
  | _ => none

namespace Frames.Stacked

variable {p : Program} {o : Options} {fs : Frames} {c g h k : FrameId} {callee : FunctionId}
  {site : Option CallSite} {depth : Nat}

theorem depth_called (hs : fs.Stacked p o) (hg : fs.frame? g = some ⟨some c, callee, site, depth⟩) :
    fs.depth g = fs.depth c + 1 := by
  rw [depth_eq hg]
  cases hs g _ hg with
  | called _ hc => rw [depth_eq hc]

/-- A frame that is entered below another one is deeper, and so are all that it enters. -/
theorem lt_depth (hs : fs.Stacked p o) (hg : fs.frame? g = some ⟨some c, callee, site, depth⟩)
    (hh : g ∈ ancestors fs h) : fs.depth c < fs.depth h := by
  have hlt := hs.depth_called hg
  cases hx : fs.frame? h with
  | some x =>
    have := (hs.mem_ancestors hx hh).2.1
    omega
  | none =>
    -- nothing waits for what is no frame
    have hsingle : ancestors fs h = [h] := ancestors_eq_singleton (by rw [caller?, hx]; rfl)
    rw [hsingle, mem_singleton] at hh
    subst hh
    cases hx.symm.trans hg

theorem depth_le_of_mem {x : Frame} (hs : fs.Stacked p o) (hc : fs.frame? c = some x)
    (hk : k ∈ ancestors fs c) : fs.depth k ≤ fs.depth c :=
  (hs.mem_ancestors hc hk).2.1

section

variable (hs : fs.Stacked p o) (hg : fs.frame? g = some ⟨some c, callee, site, depth⟩)
include hs hg

theorem exists_caller : ∃ x, fs.frame? c = some x := by
  cases hs g _ hg with
  | called _ hc => exact ⟨_, hc⟩

/-- What waits for a call is not entered from below it. -/
theorem apart (hh : g ∈ ancestors fs h) (hk : k ∈ ancestors fs c) : k ≠ h ∧ fs.NotCalled h k := by
  obtain ⟨x, hc⟩ := hs.exists_caller hg
  have hle := hs.depth_le_of_mem hc hk
  have hlt := hs.lt_depth hg hh
  refine ⟨fun heq => ?_, fun callee' site' depth' hk' => ?_⟩
  · rw [heq] at hle
    omega
  · have := hs.depth_called hk'
    omega

theorem notCalled_of_mem (hh : g ∈ ancestors fs h) :
    fs.NotCalled h g := fun callee' site' depth' hg' => by
  have hlt := hs.lt_depth hg hh
  have hdepth := hs.depth_called hg
  have hdepth' := hs.depth_called hg'
  omega

end

end Frames.Stacked

/-! ### Edges at the end of a call -/

section

variable {p : Program} {o : Options} {fs : Frames} {x y : PathNode} {c g : FrameId} {callee : FunctionId}
  {site : CallSite} {depth i : Nat} {checker : Checker} {b : BlockId} {mid : List PathNode}

/-- Where a checker looks after a step, values are what they were before. -/
theorem Edge.env_of_tag (h : Edge p o fs x y) (htag : y.point.tag = some checker)
    (hkind : y.point.kind = .after b i) : y.state.env = x.state.env := by
  cases h with
  | tell _ _ ht => exact Checker.env_of_reaches ht
  | evaluate => cases hkind
  | pause _ hheads => cases hheads.asked.2.symm.trans htag
  | _ => cases htag

/-- A checker that looks at the end of a call hands on to another one or to the caller. -/
theorem Looks.eq_of_returning {q : Point} (h : Looks p o fs x.point q) (hs : fs.Stacked p o)
    (hg : fs.frame? g = some ⟨some c, callee, some site, depth⟩)
    (hx : x.point = ⟨.after site.block site.index, c, some checker⟩) :
    q = ⟨.after site.block site.index, c, none⟩ := by
  rw [hx] at h
  cases h with
  | heads hpends =>
    rcases hpends.tag with htag | ⟨b, i, hkind, hskips⟩
    · cases htag
    · cases hkind
      exact absurd hskips (hs.not_skips hg)
  | told => rfl

/-- Behind the end of a call the frame of the called function is dropped, and the call has the value that
was returned. -/
theorem Edge.returns (h : Edge p o fs x y) (hs : fs.Stacked p o)
    (hg : fs.frame? g = some ⟨some c, callee, some site, depth⟩)
    (hx : (x.point.kind = .callExit site ∧ x.point.frame = g) ∨
      ∃ checker, x.point = ⟨.after site.block site.index, c, some checker⟩)
    (hy : y.point = ⟨.after site.block site.index, c, none⟩) :
    (popFrame x.state c g site.expr).Keeps y.state := by
  cases h with
  | tell => exact nomatch congrArg Point.tag hy
  | pause _ hheads hkind =>
    rcases hkind with ⟨b, i, hkind⟩ | ⟨b, hkind⟩ <;> cases hkind.symm.trans (congrArg Point.kind hy)
  | step hlooks =>
    rcases hx with ⟨hexit, -⟩ | ⟨checker, hx⟩
    · cases hlooks.moves with
      | stays _ _ hnot => exact absurd hexit (hnot site)
      | descends _ hentrance => cases hentrance
      | climbs _ hafter => cases hafter
    · cases hlooks.eq_of_returning hs hg hx
  | @resume f g' callee' site' depth' t hg' _ ht =>
    injection hy with hkind hframe
    injection hkind with hblock hindex
    subst hframe
    obtain ⟨rfl, rfl⟩ := hs.frame_eq hg' hg rfl rfl rfl rfl hblock hindex
    exact ht
  | _ => cases hy

/-! ### Between a call and its return -/

/-- The path is in the called function or in one that it calls, or a checker looks at the end of the
call. -/
inductive Inside (fs : Frames) (c g : FrameId) (site : CallSite) : Point → Prop where
  | below {q : Point} : g ∈ Frames.ancestors fs q.frame → Inside fs c g site q
  | returning {checker : Checker} :
    Inside fs c g site ⟨.after site.block site.index, c, some checker⟩

/-- What happens inside a call changes nothing for what waits, and changes the result of the called
function by its return statements. -/
structure Undisturbed (p : Program) (fs : Frames) (c g : FrameId) (x y : PathNode) : Prop where
  waiting {k : EnvKey} : k.frame ∈ Frames.ancestors fs c → y.state.env.get? k = x.state.env.get? k
  result : y.state.result? g = (returnedBy p fs g x y).or (x.state.result? g)

theorem Edge.undisturbed (h : Edge p o fs x y) (hs : fs.Stacked p o)
    (hg : fs.frame? g = some ⟨some c, callee, some site, depth⟩)
    (hy : g ∈ Frames.ancestors fs y.point.frame) : Undisturbed p fs c g x y where
  waiting hk := h.env_eq (hs.apart hg hy hk).1 (hs.apart hg hy hk).2
  result := h.result_eq hs (hs.notCalled_of_mem hg hy)

theorem Edge.undisturbed_of_tag (h : Edge p o fs x y) (htag : y.point.tag = some checker)
    (hkind : y.point.kind = .after b i) :
    Undisturbed p fs c g x y where
  waiting _ := by rw [h.env_of_tag htag hkind]
  result := by
    rw [returnedBy_of_tag htag]
    exact congrArg (OrderedMap.get? · _) (h.env_of_tag htag hkind)

/-- **One step inside a call**: it goes on, or the caller does. -/
theorem Inside.step (hx : Inside fs c g site x.point) (h : Edge p o fs x y) (hs : fs.Stacked p o)
    (hg : fs.frame? g = some ⟨some c, callee, some site, depth⟩) :
    Inside fs c g site y.point ∧ Undisturbed p fs c g x y ∨
      y.point = ⟨.after site.block site.index, c, none⟩ ∧
        (popFrame x.state c g site.expr).Keeps y.state := by
  have hend : (x.point.kind = .callExit site ∧ x.point.frame = g) ∨
        (∃ checker, x.point = ⟨.after site.block site.index, c, some checker⟩) →
      y.point.frame = c → y.point.kind = .after site.block site.index →
      Inside fs c g site y.point ∧ Undisturbed p fs c g x y ∨
        y.point = ⟨.after site.block site.index, c, none⟩ ∧
          (popFrame x.state c g site.expr).Keeps y.state := by
    intro hexit hframe hkind
    cases htag : y.point.tag with
    | some checker =>
      have hpoint : y.point = ⟨.after site.block site.index, c, some checker⟩ := by
        rw [← hframe, ← hkind, ← htag]
      exact .inl ⟨hpoint ▸ .returning, h.undisturbed_of_tag htag hkind⟩
    | none =>
      have hpoint : y.point = ⟨.after site.block site.index, c, none⟩ := by
        rw [← hframe, ← hkind, ← htag]
      exact .inr ⟨hpoint, h.returns hs hg hexit hpoint⟩
  generalize hq : x.point = q at hx
  cases hx with
  | below hmem =>
    subst hq
    have hbelow : g ∈ Frames.ancestors fs y.point.frame →
        Inside fs c g site y.point ∧ Undisturbed p fs c g x y := fun hy =>
      ⟨.below hy, h.undisturbed hs hg hy⟩
    cases h.moves with
    | stays hsame => exact .inl (hbelow (hsame ▸ hmem))
    | descends _ _ hframe =>
      refine .inl (hbelow ?_)
      rw [hs.ancestors_called hframe rfl]
      exact mem_cons_of_mem _ hmem
    | climbs hkind hkind' hframe =>
      rw [hs.ancestors_called hframe rfl] at hmem
      rcases mem_cons.1 hmem with rfl | hmem
      · -- the called function itself is over
        cases hg.symm.trans hframe
        exact hend (.inl ⟨hkind, rfl⟩) rfl hkind'
      · exact .inl (hbelow hmem)
  | @returning checker =>
    have hpoint : y.point.kind = .after site.block site.index ∧ y.point.frame = c := by
      have hlooks : ∀ {q}, Looks p o fs x.point q → q = ⟨.after site.block site.index, c, none⟩ :=
        fun hlooks => hlooks.eq_of_returning hs hg hq
      cases h with
      | tell h => cases hlooks h; exact ⟨rfl, rfl⟩
      | pause hpends hheads => cases hlooks (.heads hpends hheads); exact ⟨rfl, rfl⟩
      | giveUp hpends hleads => cases hlooks (.heads hpends (.entrance hleads))
      | giveBack _ hfinish => cases hq.symm.trans hfinish
      | resume hg' hpoint =>
        rcases hpoint with hpoint | ⟨_, hpoint⟩
        · cases hq.symm.trans hpoint
        · injection hq.symm.trans hpoint with hkind hframe
          exact ⟨hkind.symm, hframe.symm⟩
      | evaluate h | step h | call h | leave h | finish h | enter h => cases hlooks h
    exact hend (.inr ⟨checker, hq⟩) hpoint.2 hpoint.1

/-- The caller is not inside the call. -/
theorem not_inside (hs : fs.Stacked p o)
    (hg : fs.frame? g = some ⟨some c, callee, some site, depth⟩) {kind : PointKind} :
    ¬Inside fs c g site ⟨kind, c, none⟩ := by
  intro h
  cases h with
  | below hmem => exact absurd (hs.lt_depth hg hmem) (lt_irrefl _)

/-- **Up to the return** nothing changes for what waits, and then the call has the value that the called
function returned. -/
theorem Inside.finish (hx : Inside fs c g site x.point)
    (hchain : (x :: (mid ++ [y])).IsChain (Edge p o fs)) (hs : fs.Stacked p o)
    (hg : fs.frame? g = some ⟨some c, callee, some site, depth⟩) (hmid : ∀ z ∈ mid, z.point ≠ y.point)
    (hy : y.point = ⟨.after site.block site.index, c, none⟩) :
    (∀ k, k.frame ∈ Frames.ancestors fs c → k ≠ .expr c site.expr →
        y.state.env.get? k = x.state.env.get? k) ∧
      y.state.env.get? (.expr c site.expr) =
        some (((returned p fs g (x :: mid)).or (x.state.result? g)).getD .unknown) := by
  induction mid generalizing x with
  | nil =>
    obtain ⟨hedge, -⟩ := isChain_cons_cons.1 hchain
    rcases hx.step hedge hs hg with ⟨hinside, -⟩ | ⟨-, hpop⟩
    · exact absurd (hy ▸ hinside) (not_inside hs hg)
    · have hne {k : EnvKey} (hk : k.frame ∈ Frames.ancestors fs c) : k.frame ≠ g :=
        (hs.apart hg (Frames.mem_ancestors_self fs g) hk).1
      refine ⟨fun k hk hne' => ?_, ?_⟩
      · rw [hpop.env, get?_popFrame, if_neg (hne hk), if_neg hne']
      · have hself := hne (k := .expr c site.expr) (Frames.mem_ancestors_self fs c)
        rw [hpop.env, get?_popFrame, if_neg hself, if_pos rfl]
        rfl
  | cons z mid ih =>
    obtain ⟨hedge, hchain⟩ := isChain_cons_cons.1 hchain
    rcases hx.step hedge hs hg with ⟨hinside, hkept⟩ | ⟨hz, -⟩
    · obtain ⟨henv, hvalue⟩ := ih hinside hchain fun w hw => hmid w (mem_cons_of_mem z hw)
      refine ⟨fun k hk hne => (henv k hk hne).trans (hkept.waiting hk), ?_⟩
      rw [hvalue, hkept.result, returned, Option.or_assoc]
    · exact absurd (hz.trans hy.symm) (hmid z mem_cons_self)

/-- **A call** is entered in a frame of its own, and up to its return nothing changes for what waits. -/
theorem returns_of_path (hchain : (x :: (mid ++ [y])).IsChain (Edge p o fs)) (hs : fs.Stacked p o)
    (hx : x.Scoped fs) (henter : x.point = ⟨.callEnter site callee, c, none⟩)
    (hmid : ∀ z ∈ mid, z.point ≠ y.point) (hy : y.point = ⟨.after site.block site.index, c, none⟩) :
    ∃ g depth, fs.frame? g = some ⟨some c, callee, some site, depth⟩ ∧
      (∀ k, k.frame ∈ Frames.ancestors fs c → k ≠ .expr c site.expr →
        y.state.env.get? k = x.state.env.get? k) ∧
      y.state.env.get? (.expr c site.expr) = some ((returned p fs g (x :: mid)).getD .unknown) := by
  have hfirst : ∀ {z}, Edge p o fs x z → ∃ depth,
      fs.frame? z.point.frame = some ⟨some c, callee, some site, depth⟩ ∧
        ∀ b i, z.point.kind ≠ .after b i := by
    intro z hedge
    cases hedge.moves with
    | stays _ hnot => exact absurd (congrArg Point.kind henter) (hnot site callee)
    | @descends site' callee' depth b hkind hkind' hframe =>
      rw [henter] at hkind hframe
      cases hkind
      exact ⟨depth, hframe, fun _ _ => hkind' ▸ nofun⟩
    | climbs hkind => cases hkind.symm.trans (congrArg Point.kind henter)
  cases mid with
  | nil =>
    obtain ⟨_, _, hkind⟩ := hfirst (isChain_cons_cons.1 hchain).1
    exact absurd (congrArg Point.kind hy) (hkind _ _)
  | cons z mid =>
    obtain ⟨hedge, hchain⟩ := isChain_cons_cons.1 hchain
    obtain ⟨depth, hg, -⟩ := hfirst hedge
    have hself := Frames.mem_ancestors_self fs z.point.frame
    have hkept := hedge.undisturbed hs hg hself
    obtain ⟨henv, hvalue⟩ := (Inside.below hself).finish hchain hs hg
      (fun w hw => hmid w (mem_cons_of_mem z hw)) hy
    refine ⟨z.point.frame, depth, hg, fun k hk hne => (henv k hk hne).trans (hkept.waiting hk), ?_⟩
    -- the function has no result before it is entered
    have hnone : x.state.result? z.point.frame = none := by
      cases hresult : x.state.result? z.point.frame with
      | none => rfl
      | some v =>
        rcases hx _ _ hresult with hmem | ⟨_, _, _, _, htagged, -⟩
        · rw [henter] at hmem
          exact absurd rfl (hs.apart hg hself hmem).1
        · cases henter.symm.trans htagged
    rw [hvalue, hkept.result, returned, hnone, Option.or_none]

end

/-! ### Explorations -/

namespace Frames.Stacked

variable {p : Program} {o : Options} {fs : Frames} {f : FrameId} {x : Frame}

/-- Every frame that waits runs a function. -/
theorem length_functionsOf (hs : fs.Stacked p o) (hx : fs.frame? f = some x) :
    (fs.functionsOf f).length = (ancestors fs f).length := by
  refine filterMap_length_eq_length.2 fun g hg => ?_
  obtain ⟨⟨y, hy⟩, -⟩ := hs.mem_ancestors hx hg
  rw [hy]
  rfl

end Frames.Stacked

namespace Exploration

variable {p : Program} {o : Options} {f : FunctionId} {e : Exploration} {n : NodeId} {x : PathNode}

/-- No expression has a value at the first node. -/
theorem env_root (o : Options) (p : Program) (f : FunctionId) : (root o p f).state.env = {} := by
  show (opening o p f).1.env = {}
  unfold opening
  split
  · exact (State.keeps_ofGlobals o.store topFrame (.ofProgram p)).env
  · rfl

theorem Records.scoped (h : e.Records p o (root o p f)) (hx : e.graph.node? n = some x) :
    x.Scoped e.frames := by
  have hreach := h.tracks.reach (PathGraph.lt_size hx)
  induction hreach generalizing x with
  | refl =>
    cases h.tracks.root.symm.trans hx
    intro k v hv
    rw [env_root] at hv
    cases hv
  | tail hreach hstep ih =>
    obtain ⟨y, hy⟩ := PathGraph.exists_node? (h.tracks.linked.exists_nodes hstep).1
    exact (h.tracks.step hstep hy hx).edge.scoped h.stacked (ih hy)

theorem Records.edge_of_step (h : e.Records p o (root o p f)) {y : PathNode} (hxy : e.graph.Step x y) :
    Edge p o e.frames x y := by
  obtain ⟨a, b, hx, hy, hab⟩ := hxy
  exact (h.tracks.step (h.tracks.linked.mem_succs.1 hab) hx hy).edge

/-- Only the exploration itself enters calls. -/
theorem Records.tag_of_callEnter (h : e.Records p o (root o p f)) {site : CallSite} {callee : FunctionId}
    (hx : e.graph.node? n = some x) (hkind : x.point.kind = .callEnter site callee) :
    x.point.tag = none := by
  have hne : n ≠ ⟨0⟩ := fun heq => by
    cases h.tracks.root.symm.trans (heq ▸ hx)
    cases hkind
  obtain ⟨m, hm⟩ := h.tracks.exists_pred (PathGraph.lt_size hx) hne
  obtain ⟨y, hy⟩ := PathGraph.exists_node? (h.tracks.linked.exists_nodes hm).1
  exact ((h.tracks.step hm hy hx).edge.callEnter hkind).1

/-- **Values, frames and calls** of every graph that an exploration leaves, at its end or before. The
values of a node that no checker made belong to its frame and to those that wait for it. No function runs
twice among these, and they are not deeper than allowed. Between the entry of a call and its return no
value of an expression changes in the frames that wait, and then the call has the value that the called
function returned. -/
theorem stack_discipline (h : Reached o p f e) :
    (∀ n x, e.graph.node? n = some x → x.point.tag = none → ∀ k v, x.state.env.get? k = some v →
      k.frame ∈ Frames.ancestors e.frames x.point.frame) ∧
    (∀ g y, e.frames.frame? g = some y → (e.frames.functionsOf g).Nodup ∧
      (e.frames.functionsOf g).length = y.depth + 1 ∧
      (Frames.ancestors e.frames g).length = y.depth + 1 ∧ y.depth ≤ o.maxInlineDepth) ∧
    ∀ x mid y c site callee, (x :: (mid ++ [y])).IsChain e.graph.Step →
      x.point.kind = .callEnter site callee → x.point.frame = c →
      y.point = ⟨.after site.block site.index, c, none⟩ → (∀ z ∈ mid, z.point ≠ y.point) →
      ∃ g depth, e.frames.frame? g = some ⟨some c, callee, some site, depth⟩ ∧
        (∀ k, k.frame ∈ Frames.ancestors e.frames c → k ≠ .expr c site.expr →
          y.state.env.get? k = x.state.env.get? k) ∧
        y.state.env.get? (.expr c site.expr) =
          some ((returned p e.frames g (x :: mid)).getD .unknown) := by
  have hrecords := h.records
  refine ⟨fun n x hx htag k v hv => ?_, fun g y hy => ?_, ?_⟩
  · rcases hrecords.scoped hx k v hv with hmem | ⟨_, _, _, _, hpoint, -⟩
    · exact hmem
    · rw [hpoint] at htag
      cases htag
  · have hlength := hrecords.stacked.length_ancestors hy
    rw [Frames.depth_eq hy] at hlength
    exact ⟨hrecords.stacked.functions_nodup hy,
      (hrecords.stacked.length_functionsOf hy).trans hlength, hlength, hrecords.stacked.depth_le hy⟩
  · intro x mid y c site callee hchain hkind hframe hy hmid
    obtain ⟨a, ha⟩ : ∃ a, e.graph.node? a = some x := by
      cases mid with
      | nil | cons =>
        obtain ⟨a, b, ha, -⟩ := (isChain_cons_cons.1 hchain).1
        exact ⟨a, ha⟩
    have henter : x.point = ⟨.callEnter site callee, c, none⟩ := by
      rw [← hkind, ← hframe, ← hrecords.tag_of_callEnter ha hkind]
    exact returns_of_path (hchain.imp fun _ _ => hrecords.edge_of_step) hrecords.stacked
      (hrecords.scoped ha) henter hmid hy

/-- The nodes of a path follow each other. -/
theorem Records.isChain_step {path : List NodeId} (h : e.Records p o (root o p f))
    (hpath : path.IsChain fun a b => b ∈ e.graph.succs a) :
    (path.map e.graph.nodeAt).IsChain e.graph.Step := by
  rw [isChain_map]
  refine hpath.imp fun a b hab => ?_
  obtain ⟨ha, hb⟩ := h.tracks.linked.exists_nodes (h.tracks.linked.mem_succs.1 hab)
  exact ⟨a, b, PathGraph.node?_eq_nodeAt ha, PathGraph.node?_eq_nodeAt hb, hab⟩

/-- The unit `int f(void) { int x = 1; return x / g(0); } int g(int a) { return a; }`. -/
def dividingUnit : SourceUnit :=
  let l : Location := ⟨1, 1⟩
  let name (x : String) : Expr := .ident (.point l) x
  let zero : Expr := .call (.point l) "g" [.int (.point l) 0]
  { items := [
      .plain "f" .int [] [.decl l [⟨"x", .int, some (.expr (.int (.point l) 1)), false, l⟩],
        .return l (some (.binary (.point l) .div (name "x") zero))],
      .plain "g" .int [("a", .int)] [.return l (some (name "a"))]]
    expansions := [] }

/-- Where the first function calls the second one. -/
def dividingCall : CallSite := ⟨⟨0⟩, 5, ⟨4⟩⟩

/-- The nodes between the entry of the call and its return. -/
def dividingInside : List NodeId := (List.range' 9 8).map NodeId.mk

/-- A call in a division. The value of the left operand waits, and the call has the value that the called
function returns. -/
theorem stack_discipline_calling : ∃ p o e x mid y, Program.ofUnit dividingUnit "a.c" = .ok p ∧
    o.checkers = Checker.all ∧ explore o p ⟨0⟩ = .ok e ∧
    (∀ n x, e.graph.node? n = some x → x.point.tag = none → ∀ k v, x.state.env.get? k = some v →
      k.frame ∈ Frames.ancestors e.frames x.point.frame) ∧
    (∀ g y, e.frames.frame? g = some y → (e.frames.functionsOf g).Nodup ∧ y.depth ≤ o.maxInlineDepth) ∧
    (x :: (mid ++ [y])).IsChain e.graph.Step ∧
    x.point = ⟨.callEnter dividingCall ⟨1⟩, topFrame, none⟩ ∧
    y.point = ⟨.after dividingCall.block dividingCall.index, topFrame, none⟩ ∧
    x.state.env.get? (.expr topFrame ⟨2⟩) = some (.int 1) ∧
    y.state.env.get? (.expr topFrame ⟨2⟩) = some (.int 1) ∧
    y.state.env.get? (.expr topFrame dividingCall.expr) = some (.int 0) ∧
    ∃ g depth, e.frames.frame? g = some ⟨some topFrame, ⟨1⟩, some dividingCall, depth⟩ ∧
      (returned p e.frames g (x :: mid)).getD .unknown = .int 0 := by
  have hcheck : (Program.ofUnit dividingUnit "a.c").toOption.any (fun p =>
      (explore { checkers := Checker.all } p ⟨0⟩).toOption.any fun e => decide
        ((⟨8⟩ :: (dividingInside ++ [⟨17⟩])).IsChain (fun a b => b ∈ e.graph.succs a) ∧
          (e.graph.nodeAt ⟨8⟩).point = ⟨.callEnter dividingCall ⟨1⟩, topFrame, none⟩ ∧
          (e.graph.nodeAt ⟨17⟩).point = ⟨.after dividingCall.block dividingCall.index, topFrame, none⟩ ∧
          (∀ n ∈ dividingInside, (e.graph.nodeAt n).point ≠ (e.graph.nodeAt ⟨17⟩).point) ∧
          (e.graph.nodeAt ⟨8⟩).state.env.get? (.expr topFrame ⟨2⟩) = some (.int 1) ∧
          (e.graph.nodeAt ⟨17⟩).state.env.get? (.expr topFrame dividingCall.expr) = some (.int 0))) =
      true := by
    decide +kernel
  obtain ⟨p, hu, hcheck⟩ := exists_ok_of_any hcheck
  obtain ⟨e, hrun, hcheck⟩ := exists_ok_of_any hcheck
  obtain ⟨hpath, henter, hafter, hinside, hleft, hcall⟩ := of_decide_eq_true hcheck
  have hreached : Reached { checkers := Checker.all } p ⟨0⟩ e := .ended hrun
  have hchain := hreached.records.isChain_step hpath
  rw [map_cons, map_append] at hchain
  obtain ⟨hvalues, hframes, hreturns⟩ := stack_discipline hreached
  obtain ⟨g, depth, hg, hkept, hvalue⟩ := hreturns _ _ _ topFrame dividingCall ⟨1⟩ hchain
    (congrArg Point.kind henter) (congrArg Point.frame henter) hafter fun z hz => by
      obtain ⟨n, hn, rfl⟩ := mem_map.1 hz
      exact hinside n hn
  refine ⟨p, _, e, _, _, _, hu, rfl, hrun, hvalues, fun g y hy => ⟨(hframes g y hy).1,
    (hframes g y hy).2.2.2⟩, hchain, henter, hafter, hleft, ?_, hcall, g, depth, hg, ?_⟩
  · exact (hkept (.expr topFrame ⟨2⟩) (Frames.mem_ancestors_self _ _) (by decide)).trans hleft
  · exact Option.some.inj (hvalue.symm.trans hcall)

end Exploration

end PathScout

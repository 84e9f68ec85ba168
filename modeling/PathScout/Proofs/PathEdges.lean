import PathScout.Proofs.FrameStacks
import PathScout.Proofs.GatheredReports
import PathScout.Proofs.GraphLaws
import PathScout.Proofs.KeptValues
import PathScout.Proofs.SourceSteps

/-!
# Steps between nodes

Every edge of a graph of paths has a reason: a checker spoke, a step of a block was evaluated, a block
was entered or left, a function was entered or left, or a path was given up. The reason says in which
frame both nodes are and which values of expressions differ between them.

* `Heads`, `Looks`: where a path comes to next, and where checkers look at it.
* `Element.Sets`: the values that differ after a step of a block.
* `Edge`: the reasons. `Passage`: an edge does not start at a sink.
* `Point.Pends`: where a path may be continued.
* `Exploration.Records`: the graph records such edges only. `Exploring.Keeps`: what keeps it so.
-/

namespace PathScout

open List

/-! ### Where paths stand -/

section

variable (p : Program) (o : Options) (fs : Frames)

/-- The step of the block is a call whose function is not entered. -/
def Skips (f : FrameId) (b : BlockId) (i : Nat) : Prop :=
  ∃ block e root callee args, Frames.HasBlock p fs f b block ∧
    block.elements[i]? = some (.expr e root) ∧ (p.expr e).op = .call callee args ∧
    ¬ Frames.MayEnter p o fs f callee

/-- A path may be continued at the point: the exploration itself came to it, or a checker did at the
end of a call that was not followed. The frame of a call exists. -/
structure Point.Pends (x : Point) : Prop where
  tag : x.tag = none ∨ ∃ b i, x.kind = .after b i ∧ Skips p o fs x.frame b i
  enters {site : CallSite} {callee : FunctionId} : x.kind = .callEnter site callee →
    ∃ g depth, fs.frame? g = some ⟨some x.frame, callee, some site, depth⟩
  returns {site : CallSite} : x.kind = .callExit site →
    ∃ caller callee depth, fs.frame? x.frame = some ⟨some caller, callee, some site, depth⟩

/-- A path at the first point comes to the second one next. -/
inductive Heads : Point → Point → Prop where
  | entrance {x : Point} {f : FrameId} {b : BlockId} : Leads p fs x f b →
    Heads x ⟨.entrance b, f, none⟩
  | before {x : Point} {f : FrameId} {b : BlockId} {i : Nat} {block : Block} {el : Element} :
    x.Before f b i → Frames.HasBlock p fs f b block → block.elements[i]? = some el →
    Heads x ⟨.before b i, f, none⟩
  | exit {x : Point} {f : FrameId} {b : BlockId} {i : Nat} {block : Block} :
    x.Before f b i → Frames.HasBlock p fs f b block → block.elements[i]? = none →
    Heads x ⟨.exit b, f, none⟩
  | finish {x : Point} {f : FrameId} {b : BlockId} {i : Nat} {block : Block} :
    x.Before f b i → Frames.HasBlock p fs f b block → block.elements[i]? = none →
    block.terminator = .exit → Heads x ⟨.finish, f, none⟩
  | leave {f : FrameId} {b : BlockId} {block : Block} : Frames.HasBlock p fs f b block →
    block.terminator = .exit → Heads ⟨.exit b, f, none⟩ ⟨.finish, f, none⟩
  | ended {f : FrameId} {x : Frame} : fs.frame? f = some x → x.parent = none →
    Heads ⟨.finish, f, none⟩ ⟨.finish, f, none⟩
  | back {f g : FrameId} {callee : FunctionId} {site : CallSite} {depth : Nat} :
    fs.frame? g = some ⟨some f, callee, some site, depth⟩ →
    Heads ⟨.callExit site, g, none⟩ ⟨.after site.block site.index, f, none⟩
  | skipped {f : FrameId} {b : BlockId} {i : Nat} : Skips p o fs f b i →
    Heads ⟨.after b i, f, none⟩ ⟨.after b i, f, none⟩

/-- Checkers are asked at points of this kind. -/
def PointKind.Asked : PointKind → Prop
  | .entrance _ | .before .. | .after .. | .exit _ | .finish => True
  | .entry | .edge .. | .callEnter .. | .callExit _ => False

/-- Checkers look at a path at the first point when it comes to the second one. -/
inductive Looks : Point → Point → Prop where
  | heads {x q : Point} : x.Pends p o fs → Heads p o fs x q → Looks x q
  | told {kind : PointKind} {f : FrameId} {checker : Checker} : kind.Asked →
    Looks ⟨kind, f, some checker⟩ ⟨kind, f, none⟩
  | before {f : FrameId} {b : BlockId} {i : Nat} : Looks ⟨.before b i, f, none⟩ ⟨.before b i, f, none⟩
  | exit {f : FrameId} {b : BlockId} : Looks ⟨.exit b, f, none⟩ ⟨.exit b, f, none⟩

end

/-! ### What steps change -/

/-- The values of the frame's expressions are forgotten, or none are. -/
structure State.Rests (f : FrameId) (s t : State) : Prop where
  env : t.env = s.env ∨ t.env = (s.clearExprs f).env
  heap : t.heap = s.heap

theorem State.Keeps.rests {s t : State} (h : s.Keeps t) (f : FrameId) : s.Rests f t :=
  ⟨.inl h.env, h.heap⟩

/-- Which values differ after a step of a block: its own, or the result of the function. -/
inductive Element.Sets (f : FrameId) : Element → State → State → Prop where
  | expr {e : ExprId} {root : Bool} {s t : State} : s.SameEnvBut f e t → t.heap = s.heap →
    Sets f (.expr e root) s t
  | decl {v : VarId} {init : Option DeclInit} {l : Location} {s t : State} : s.Keeps t →
    Sets f (.decl v init l) s t
  | merge {target : ExprId} {value : MergeValue} {s : State} (v : Value) :
    Sets f (.merge target value) s (s.bindExpr f target v)
  | result {e : ExprId} {l : Location} {s : State} :
    Sets f (.return (some e) l) s (s.bindResult f (s.value f e))
  | noResult {l : Location} {s : State} : Sets f (.return none l) s s

/-- Why a graph has an edge. -/
inductive Edge (p : Program) (o : Options) (fs : Frames) : PathNode → PathNode → Prop where
  /-- A checker speaks about an event. -/
  | tell {x : PathNode} {q : Point} {checker : Checker} {event : Event} {visits : Nat}
    {seen : Frames} {c : Catalog} {t : State} {sink : Bool} :
    Looks p o fs x.point q → checker ∈ o.checkers →
    (checker.check event ⟨x.state, q.tagged checker, visits, seen, o.store⟩ c).1.Reaches t sink →
    Edge p o fs x ⟨q.tagged checker, t, sink⟩
  /-- A checker evaluates a call. -/
  | evaluate {x : PathNode} {f : FrameId} {b : BlockId} {i : Nat} {block : Block} {e : ExprId}
    {root : Bool} {callee : FunctionId} {args : List ExprId} {checker : Checker} {call : CallEvent}
    {visits : Nat} {seen : Frames} {c : Catalog} {verdict : Verdict} {t : State} {sink : Bool} :
    Looks p o fs x.point ⟨.before b i, f, none⟩ → Frames.HasBlock p fs f b block →
    block.elements[i]? = some (.expr e root) → (p.expr e).op = .call callee args →
    call.expr = e → call.frame = f → call.name = (p.function callee).name → checker ∈ o.checkers →
    (checker.evalCall? call ⟨x.state, ⟨.before b i, f, some checker⟩, visits, seen, o.store⟩ c).1 =
      some verdict → verdict.Reaches t sink →
    Edge p o fs x ⟨⟨.before b i, f, some checker⟩, t, sink⟩
  /-- The path comes to a step or to the end of a block in another state. -/
  | pause {x : PathNode} {q : Point} {t : State} : x.point.Pends p o fs → Heads p o fs x.point q →
    (∃ b i, q.kind = .before b i) ∨ (∃ b, q.kind = .exit b) → x.state.Rests q.frame t →
    Edge p o fs x ⟨q, t, false⟩
  /-- A step of a block is evaluated. -/
  | step {x : PathNode} {f : FrameId} {b : BlockId} {i : Nat} {block : Block} {el : Element}
    {t : State} : Looks p o fs x.point ⟨.before b i, f, none⟩ → Frames.HasBlock p fs f b block →
    block.elements[i]? = some el → el.Sets f x.state t →
    Edge p o fs x ⟨⟨.after b i, f, none⟩, t, false⟩
  /-- A called function is entered. -/
  | call {x : PathNode} {f g : FrameId} {site : CallSite} {callee : FunctionId} {depth : Nat}
    {t : State} : Looks p o fs x.point ⟨.before site.block site.index, f, none⟩ →
    fs.frame? g = some ⟨some f, callee, some site, depth⟩ → x.state.Keeps t →
    Edge p o fs x ⟨⟨.callEnter site callee, f, none⟩, t, false⟩
  /-- A block is left for another one. -/
  | leave {x : PathNode} {f : FrameId} {b target : BlockId} {block : Block} {t : State} :
    Looks p o fs x.point ⟨.exit b, f, none⟩ → Frames.HasBlock p fs f b block →
    target ∈ block.terminator.successors → x.state.Rests f t →
    Edge p o fs x ⟨⟨.edge b target, f, none⟩, t, false⟩
  /-- The body of a function ends. -/
  | finish {x : PathNode} {f : FrameId} : Looks p o fs x.point ⟨.finish, f, none⟩ →
    Edge p o fs x ⟨⟨.finish, f, none⟩, x.state, false⟩
  /-- The path is given up where it would enter a block too often. -/
  | giveUp {x : PathNode} {f : FrameId} {b : BlockId} : x.point.Pends p o fs →
    Leads p fs x.point f b → Edge p o fs x ⟨⟨.entrance b, f, none⟩, x.state, true⟩
  /-- A block is entered. -/
  | enter {x : PathNode} {f : FrameId} {b : BlockId} {t : State} :
    Looks p o fs x.point ⟨.entrance b, f, none⟩ → x.state.Keeps t →
    Edge p o fs x ⟨⟨.entrance b, f, none⟩, t, false⟩
  /-- A function that was entered is over. -/
  | giveBack {x : PathNode} {f caller : FrameId} {callee : FunctionId} {site : CallSite}
    {depth : Nat} : fs.frame? f = some ⟨some caller, callee, some site, depth⟩ →
    x.point = ⟨.finish, f, none⟩ → Edge p o fs x ⟨⟨.callExit site, f, none⟩, x.state, false⟩
  /-- The caller goes on. -/
  | resume {x : PathNode} {f g : FrameId} {callee : FunctionId} {site : CallSite} {depth : Nat}
    {t : State} : fs.frame? g = some ⟨some f, callee, some site, depth⟩ →
    x.point = ⟨.callExit site, g, none⟩ ∨
      (∃ checker, x.point = ⟨.after site.block site.index, f, some checker⟩) →
    (Exploring.popFrame x.state f g site.expr).Keeps t →
    Edge p o fs x ⟨⟨.after site.block site.index, f, none⟩, t, false⟩

/-- Why a path goes from one node to another. -/
structure Passage (p : Program) (o : Options) (fs : Frames) (x y : PathNode) : Prop where
  continues : x.sink = false
  edge : Edge p o fs x y

/-! ### More frames -/

section

variable {p : Program} {o : Options} {fs fs' : Frames} {x y : PathNode} {q q' : Point} {f : FrameId}
  {b : BlockId} {i : Nat}

section

variable (hs : fs.Stacked p o) (hfs : fs.Extends fs')
include hs hfs

theorem Skips.mono (h : Skips p o fs f b i) : Skips p o fs' f b i := by
  obtain ⟨block, e, root, callee, args, hblock, hel, hop, hnot⟩ := h
  obtain ⟨body, ⟨z, hz, hbody⟩, hb⟩ := id hblock
  exact ⟨block, e, root, callee, args, hblock.mono hfs, hel, hop,
    fun hmay => hnot ((hs.mayEnter_iff hfs hz).1 hmay)⟩

theorem Point.Pends.mono (h : q.Pends p o fs) : q.Pends p o fs' where
  tag := h.tag.imp_right fun ⟨b, i, hkind, hskips⟩ => ⟨b, i, hkind, hskips.mono hs hfs⟩
  enters hkind := by
    obtain ⟨g, depth, hg⟩ := h.enters hkind
    exact ⟨g, depth, hfs _ _ hg⟩
  returns hkind := by
    obtain ⟨caller, callee, depth, hx⟩ := h.returns hkind
    exact ⟨caller, callee, depth, hfs _ _ hx⟩

theorem Heads.mono (h : Heads p o fs q q') : Heads p o fs' q q' := by
  cases h with
  | entrance hleads => exact .entrance (hleads.mono hfs)
  | before hbefore hblock hel => exact .before hbefore (hblock.mono hfs) hel
  | exit hbefore hblock hel => exact .exit hbefore (hblock.mono hfs) hel
  | finish hbefore hblock hel hexit => exact .finish hbefore (hblock.mono hfs) hel hexit
  | leave hblock hexit => exact .leave (hblock.mono hfs) hexit
  | ended hx hparent => exact .ended (hfs _ _ hx) hparent
  | back hx => exact .back (hfs _ _ hx)
  | skipped hskips => exact .skipped (hskips.mono hs hfs)

theorem Looks.mono (h : Looks p o fs q q') : Looks p o fs' q q' := by
  cases h with
  | heads hpends hheads => exact .heads (hpends.mono hs hfs) (hheads.mono hs hfs)
  | told hasked => exact .told hasked
  | before => exact .before
  | exit => exact .exit

theorem Edge.mono (h : Edge p o fs x y) : Edge p o fs' x y := by
  cases h with
  | tell hlooks hmem ht => exact .tell (hlooks.mono hs hfs) hmem ht
  | evaluate hlooks hblock hel hop hexpr hframe hname hmem hverdict ht =>
    exact .evaluate (hlooks.mono hs hfs) (hblock.mono hfs) hel hop hexpr hframe hname hmem hverdict ht
  | pause hpends hheads hkind ht => exact .pause (hpends.mono hs hfs) (hheads.mono hs hfs) hkind ht
  | step hlooks hblock hel hsets => exact .step (hlooks.mono hs hfs) (hblock.mono hfs) hel hsets
  | call hlooks hg ht => exact .call (hlooks.mono hs hfs) (hfs _ _ hg) ht
  | leave hlooks hblock htarget ht => exact .leave (hlooks.mono hs hfs) (hblock.mono hfs) htarget ht
  | finish hlooks => exact .finish (hlooks.mono hs hfs)
  | giveUp hpends hleads => exact .giveUp (hpends.mono hs hfs) (hleads.mono hfs)
  | enter hlooks ht => exact .enter (hlooks.mono hs hfs) ht
  | giveBack hx hpoint => exact .giveBack (hfs _ _ hx) hpoint
  | resume hg hpoint ht => exact .resume (hfs _ _ hg) hpoint ht

theorem Passage.mono (h : Passage p o fs x y) : Passage p o fs' x y := ⟨h.continues, h.edge.mono hs hfs⟩

end

/-- Checkers are asked where a path comes to. -/
theorem Heads.asked (h : Heads p o fs q q') : q'.kind.Asked ∧ q'.tag = none := by
  cases h <;> exact ⟨trivial, rfl⟩

theorem Looks.asked (h : Looks p o fs q q') : q'.kind.Asked ∧ q'.tag = none := by
  cases h with
  | heads _ hheads => exact hheads.asked
  | told hasked => exact ⟨hasked, rfl⟩
  | _ => exact ⟨trivial, rfl⟩

/-- No edge leads to the entry of a function. -/
theorem Edge.kind_ne_entry (h : Edge p o fs x y) : y.point.kind ≠ .entry := by
  have hasked : ∀ {kind : PointKind}, kind.Asked → kind ≠ .entry := fun h heq => by
    rw [heq] at h
    exact h
  cases h with
  | tell hlooks _ _ => exact hasked hlooks.asked.1
  | pause _ hheads _ _ => exact hasked hheads.asked.1
  | _ => exact fun h => nomatch h

end

/-! ### What an exploration records -/

/-- The node exists, and a path may be continued there. -/
def Exploration.Open (p : Program) (o : Options) (e : Exploration) (n : NodeId) : Prop :=
  ∃ x, e.graph.node? n = some x ∧ x.sink = false ∧ x.point.Pends p o e.frames

/-- The node exists, and checkers look at a path there when it comes to the point. -/
def Exploration.Stood (p : Program) (o : Options) (e : Exploration) (q : Point) (n : NodeId) : Prop :=
  ∃ x, e.graph.node? n = some x ∧ x.sink = false ∧ Looks p o e.frames x.point q

/-- What an exploration that starts with the node keeps: all frames come from somewhere, every edge of
the graph has a reason, paths may be continued at pending nodes, and reports are about nodes. -/
structure Exploration.Records (p : Program) (o : Options) (root : PathNode) (e : Exploration) :
    Prop where
  program : e.catalog.program = p
  stacked : e.frames.Stacked p o
  tracks : e.graph.Tracks (Passage p o e.frames) root
  pending {q : Pending} : q ∈ e.worklist.pending → e.Open p o q.node
  reported {k : ReportClass} {r : BugReport} : k ∈ e.reports → r ∈ k.reports →
    ∃ x, e.graph.node? r.node = some x

/-- What an action adds: nodes and frames stay, and everything that has to be kept is kept. -/
structure Exploration.Gains (p : Program) (o : Options) (root : PathNode) (e e' : Exploration) :
    Prop where
  records : e'.Records p o root
  frames : e.frames.Extends e'.frames
  node {n : NodeId} {x : PathNode} : e.graph.node? n = some x → e'.graph.node? n = some x

section

variable {p : Program} {o : Options} {root x : PathNode} {e e' e'' : Exploration} {n : NodeId}
  {q : Point}

theorem Exploration.Records.gains (h : e.Records p o root) : e.Gains p o root e := ⟨h, .refl _, id⟩

theorem Exploration.Gains.trans (h : e.Gains p o root e') (h' : e'.Gains p o root e'') :
    e.Gains p o root e'' :=
  ⟨h'.records, h.frames.trans h'.frames, fun hn => h'.node (h.node hn)⟩

theorem Exploration.Stood.mono (h : e.Stood p o q n) (he : e.Records p o root)
    (hgains : e.Gains p o root e') : e'.Stood p o q n := by
  obtain ⟨x, hx, hsink, hlooks⟩ := h
  exact ⟨x, hgains.node hx, hsink, hlooks.mono he.stacked hgains.frames⟩

theorem Exploration.Stood.of_eq (h : e.Stood p o q n) (hgraph : e'.graph = e.graph)
    (hframes : e'.frames = e.frames) : e'.Stood p o q n := by
  obtain ⟨x, hx, hsink, hlooks⟩ := h
  exact ⟨x, hgraph ▸ hx, hsink, hframes ▸ hlooks⟩

theorem Exploration.Open.mono (h : e.Open p o n) (he : e.Records p o root)
    (hgains : e.Gains p o root e') : e'.Open p o n := by
  obtain ⟨x, hx, hsink, hpends⟩ := h
  exact ⟨x, hgains.node hx, hsink, hpends.mono he.stacked hgains.frames⟩

end

namespace Exploring

variable {α β : Type} {p : Program} {o : Options} {root x y : PathNode} {e e' : Exploration}
  {n pred : NodeId} {s : State} {V : Visits} {k : ReportClass} {findings : List Finding}

/-- If the action succeeds, everything that has to be kept is kept, and the condition is satisfied. -/
def Keeps (p : Program) (o : Options) (root : PathNode) (x : Exploring α) (e : Exploration)
    (post : α → Exploration → Prop) : Prop :=
  x.Gives e fun a e' => e.Gains p o root e' ∧ post a e'

section

variable {x : Exploring α} {f : α → Exploring β} {post post' : α → Exploration → Prop}
  {post₂ : β → Exploration → Prop}

theorem Keeps.bind (hx : Keeps p o root x e post)
    (hf : ∀ a d, e.Gains p o root d → post a d → Keeps p o root (f a) d post₂) :
    Keeps p o root (x >>= f) e post₂ :=
  Gives.bind hx fun a d h => (hf a d h.1 h.2).imp fun _ _ h' => ⟨h.1.trans h'.1, h'.2⟩

theorem Keeps.imp (h : Keeps p o root x e post) (himp : ∀ a d, post a d → post' a d) :
    Keeps p o root x e post' := Gives.imp h fun a d h => ⟨h.1, himp a d h.2⟩

theorem keeps_pure {a : α} (he : e.Records p o root) (h : post a e) :
    Keeps p o root (pure a) e post := gives_pure ⟨he.gains, h⟩

theorem keeps_query_bind {read : Exploration → α} (h : Keeps p o root (f (read e)) e post₂) :
    Keeps p o root (query read >>= f) e post₂ := h

theorem keeps_ite {c : Prop} [Decidable c] {y : Exploring α} (hx : c → Keeps p o root x e post)
    (hy : ¬ c → Keeps p o root y e post) :
    Keeps p o root (if c then x else y : Exploring α) e post := gives_ite hx hy

theorem keeps_throw {err : ExplorationError} : Keeps p o root (throw err : Exploring α) e post :=
  gives_throw

/-- What is looked up changes nothing. -/
theorem Keeps.afterLookup {look : α → Prop} (hx : x.Gives e fun a d => look a ∧ d = e)
    (hf : ∀ a, look a → Keeps p o root (f a) e post₂) : Keeps p o root (x >>= f) e post₂ :=
  Gives.bind hx fun a d h => by
    obtain ⟨h, rfl⟩ := h
    exact hf a h

end

theorem keeps_forM {next : α → Exploring PUnit} {xs : List α} (he : e.Records p o root)
    (h : ∀ x ∈ xs, ∀ d, e.Gains p o root d → Keeps p o root (next x) d fun _ _ => True) :
    Keeps p o root (xs.forM next) e fun _ _ => True := by
  induction xs generalizing e with
  | nil => exact keeps_pure he trivial
  | cons x xs ih =>
    refine .bind (h x mem_cons_self e he.gains) fun _ d hd _ => ?_
    exact ih hd.records fun y hy d' hd' => h y (mem_cons_of_mem x hy) d' (hd.trans hd')

theorem keeps_optionForM {next : α → Exploring PUnit} {x? : Option α} (he : e.Records p o root)
    (h : ∀ x, x? = some x → Keeps p o root (next x) e fun _ _ => True) :
    Keeps p o root (x?.forM next) e fun _ _ => True := by
  cases x? with
  | none => exact keeps_pure he trivial
  | some x => exact h x rfl

/-! ### Elementary actions -/

/-- An action that leaves the graph and the reports as they are. -/
theorem keeps_of_stays {x : Exploring α} {post : α → Exploration → Prop} (he : e.Records p o root)
    (hstays : x.Gives e fun _ e' => e.Stays e')
    (hsame : x.Gives e fun a e' => (e'.graph = e.graph ∧ e'.reports = e.reports) ∧ post a e') :
    Keeps p o root x e post := fun a e' h => by
  have hs := hstays a e' h
  obtain ⟨⟨hgraph, hreports⟩, hpost⟩ := hsame a e' h
  refine ⟨⟨⟨hs.program.trans he.program, ?_, ?_, fun hq => ?_, fun hk hr => ?_⟩, ?_, hs.node⟩, hpost⟩
  · rw [hs.frames]
    exact he.stacked
  · rw [hs.frames, hgraph]
    exact he.tracks
  · obtain ⟨y, hy, hrest⟩ := he.pending (hs.worklist ▸ hq)
    rw [← hs.frames] at hrest
    exact ⟨y, hs.node hy, hrest⟩
  · obtain ⟨y, hy⟩ := he.reported (hreports ▸ hk) hr
    exact ⟨y, hs.node hy⟩
  · rw [hs.frames]
    exact .refl _

theorem gives_naming {x : Naming α} {P : α → Prop} (hP : P (x e.catalog).1) :
    (naming x).Gives e fun a e' => (e'.graph = e.graph ∧ e'.reports = e.reports) ∧
      P a ∧ e'.graph = e.graph ∧ e'.frames = e.frames := fun a e' h => by
  cases h
  exact ⟨⟨rfl, rfl⟩, hP, rfl, rfl⟩

/-- Giving numbers to regions and symbols changes nothing else. -/
theorem keeps_naming {x : Naming α} {P : α → Prop} (he : e.Records p o root) (hx : x.Grows)
    (hP : P (x e.catalog).1) : Keeps p o root (naming x) e fun a e' => P a ∧ e'.graph = e.graph ∧
      e'.frames = e.frames :=
  keeps_of_stays he ((quiet_naming hx).adds.imp fun _ _ h => h.1) (gives_naming hP)

/-- An edge with a reason. -/
theorem keeps_arrive (he : e.Records p o root) (hx : e.graph.node? pred = some x)
    (hxy : Passage p o e.frames x y) :
    Keeps p o root (arrive pred y) e fun a e' => e'.graph.node? a.1 = some y ∧
      e'.frames = e.frames := fun a e' h => by
  obtain ⟨rfl, rfl⟩ := arrive_eq_ok.1 h
  refine ⟨⟨⟨he.program, he.stacked, he.tracks.arrive hx hxy, fun hq => ?_, fun hk hr => ?_⟩, .refl _,
    node?_arrived_of_node?⟩, node?_arrived e pred y, rfl⟩
  · obtain ⟨z, hz, hrest⟩ := he.pending hq
    exact ⟨z, node?_arrived_of_node? hz, hrest⟩
  · obtain ⟨z, hz⟩ := he.reported hk hr
    exact ⟨z, node?_arrived_of_node? hz⟩

theorem keeps_queue (he : e.Records p o root) (hn : e.Open p o n) :
    Keeps p o root (queue n V) e fun _ _ => True := fun a e' h => by
  cases h
  refine ⟨⟨⟨he.program, he.stacked, he.tracks, fun hq => ?_, he.reported⟩, .refl _, id⟩, trivial⟩
  rcases Worklist.mem_push.1 hq with rfl | hq
  · exact hn
  · exact he.pending hq

/-- A report is one that was made before, or the one that is added. -/
theorem mem_reports_add {r s : BugReport} {rs : Reports} (hk : k ∈ rs.add r) (hs : s ∈ k.reports) :
    s = r ∨ ∃ k' ∈ rs, s ∈ k'.reports := by
  induction rs with
  | nil =>
    cases mem_singleton.1 hk
    exact .inl (mem_singleton.1 hs)
  | cons c rest ih =>
    unfold Reports.add at hk
    split at hk
    · rcases mem_cons.1 hk with rfl | hk
      · rcases mem_append.1 hs with hs | hs
        · exact .inr ⟨c, mem_cons_self, hs⟩
        · exact .inl (mem_singleton.1 hs)
      · exact .inr ⟨k, mem_cons_of_mem c hk, hs⟩
    · rcases mem_cons.1 hk with rfl | hk
      · exact .inr ⟨k, mem_cons_self, hs⟩
      · rcases ih hk with heq | ⟨k', hk', hs⟩
        · exact .inl heq
        · exact .inr ⟨k', mem_cons_of_mem c hk', hs⟩

theorem mem_reports_foldl {s : BugReport} {t : Reporter}
    (hk : k ∈ (findings.foldl (fun t f => t.emit ⟨f, n⟩) t).toList) (hs : s ∈ k.reports) :
    (∃ f ∈ findings, s = ⟨f, n⟩) ∨ ∃ k' ∈ t.toList, s ∈ k'.reports := by
  induction findings generalizing t with
  | nil => exact .inr ⟨k, hk, hs⟩
  | cons f findings ih =>
    rcases ih hk with ⟨f', hf', hs⟩ | ⟨k', hk', hs⟩
    · exact .inl ⟨f', mem_cons_of_mem f hf', hs⟩
    · rw [Reporter.toList_emit] at hk'
      exact (mem_reports_add hk' hs).imp_left fun heq => ⟨f, mem_cons_self, heq⟩

theorem keeps_report (he : e.Records p o root) (hn : e.graph.node? n = some x) :
    Keeps p o root (report n findings) e fun _ e' => e'.graph = e.graph ∧ e'.frames = e.frames :=
  fun a e' h => by
    cases h
    refine ⟨⟨⟨he.program, he.stacked, he.tracks, he.pending, fun hk hr => ?_⟩, .refl _, id⟩, rfl, rfl⟩
    rcases mem_reports_foldl hk hr with ⟨f, -, rfl⟩ | ⟨k', hk', hr⟩
    · exact ⟨x, hn⟩
    · exact he.reported hk' hr

/-- A node that the exploration itself makes is pending until it is continued. -/
theorem keeps_advance {kind : PointKind} {f : FrameId} (he : e.Records p o root)
    (hx : e.graph.node? pred = some x) (hxy : Passage p o e.frames x ⟨⟨kind, f, none⟩, s, false⟩)
    (hpends : Point.Pends p o e.frames ⟨kind, f, none⟩) :
    Keeps p o root (advance pred ⟨kind, f, none⟩ s V) e fun _ _ => True := by
  refine .bind (keeps_arrive he hx hxy) fun a d hd ha => keeps_ite (fun _ => ?_) fun _ => ?_
  · exact keeps_queue hd.records ⟨_, ha.1, rfl, ha.2 ▸ hpends⟩
  · exact keeps_pure hd.records trivial

end Exploring

end PathScout

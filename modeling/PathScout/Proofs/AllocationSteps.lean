import PathScout.Proofs.AllocationLaws
import PathScout.Proofs.RecordedSteps
import PathScout.Proofs.SpentSymbols

/-!
# Allocated memory on paths

Nodes of the checker that follows memory are made for a reason: it heard of an event, it was told which
symbols are dead, or it evaluated a call. Memory is allocated for a symbol that no memory was followed
of, because a symbol is conjured once on a path.

* `Reaper`: the marks by which is judged what is dead.
* `Says`: why the checker makes a node. `Passed`: where a path goes on after a step.
* `Exploring.audits_consult`, `Exploring.audits_evalByChecker`: one lemma for each action.
* `Exploration.Reached.audited`: all edges of a graph are such.
-/

namespace PathScout

open Allocation Naming State List Option Exploring

/-! ### Steps and arguments -/

/-- The block of the frame has the step. -/
def Frames.HasStep (p : Program) (fs : Frames) (f : FrameId) (b : BlockId) (i : Nat) (el : Element) :
    Prop := ∃ block, HasBlock p fs f b block ∧ block.elements[i]? = some el

/-- The step calls a function of that name. -/
def Element.Calls (p : Program) (el : Element) (name : String) (call : ExprId) (args : List ExprId) :
    Prop :=
  ∃ root callee, el = .expr call root ∧ (p.expr call).op = .call callee args ∧
    (p.function callee).name = name

/-- The step releases no memory. -/
def Element.Retains (p : Program) (el : Element) : Prop := ∀ call args, ¬ el.Calls p "free" call args

/-- The symbol whose memory the first argument of a call points into. -/
def State.target? (s : State) (c : Catalog) (f : FrameId) (args : List ExprId) : Option SymbolId :=
  args.head?.bind fun a => Allocation.trackedSymbol? c (s.value f a)

/-- The first argument of a call is known to be null. -/
def State.GivesNull (s : State) (c : Catalog) (f : FrameId) (args : List ExprId) : Prop :=
  ∃ a, args.head? = some a ∧ s.zero? c (s.value f a) = some true

/-- Values are the same in both states, and what memory holds if symbols are dead. -/
def Event.Spares (event : Event) (s t : State) : Prop :=
  t.env = s.env ∧ ∀ m, event = .dead m → t.store = s.store

section

variable {p : Program} {fs fs' : Frames} {c d : Catalog} {P : Set Conjuring} {f : FrameId}
  {b : BlockId} {i : Nat} {el el' : Element} {name name' : String} {call call' : ExprId}
  {args args' : List ExprId} {s t u : State} {event : Event}

theorem Frames.HasStep.mono (h : Frames.HasStep p fs f b i el) (hfs : fs.Extends fs') :
    Frames.HasStep p fs' f b i el := by
  obtain ⟨block, hblock, hel⟩ := h
  exact ⟨block, hblock.mono hfs, hel⟩

theorem Frames.HasStep.unique (h : Frames.HasStep p fs f b i el)
    (h' : Frames.HasStep p fs f b i el') : el = el' := by
  obtain ⟨block, hblock, hel⟩ := h
  obtain ⟨block', hblock', hel'⟩ := h'
  obtain rfl := hblock.unique hblock'
  exact some.inj (hel.symm.trans hel')

theorem Element.Calls.unique (h : el.Calls p name call args) (h' : el.Calls p name' call' args') :
    name = name' ∧ call = call' ∧ args = args' := by
  obtain ⟨root, callee, rfl, hop, hname⟩ := h
  obtain ⟨root', callee', heq, hop', hname'⟩ := h'
  cases heq
  cases hop.symm.trans hop'
  exact ⟨hname.symm.trans hname', rfl, rfl⟩

theorem Element.Calls.retains (h : el.Calls p name call args) (hname : name ≠ "free") :
    el.Retains p := fun _ _ h' => hname (h.unique h').1

theorem State.target?_mono (h : s.From c P) (hcd : c ≤ d) : s.target? d f args = s.target? c f args := by
  unfold State.target?
  cases args.head? with
  | none => rfl
  | some a => exact trackedSymbol?_mono (h.value f a) hcd

theorem State.GivesNull.mono (hnull : s.GivesNull c f args) (h : s.From c P) (hcd : c ≤ d) :
    s.GivesNull d f args := by
  obtain ⟨a, ha, hzero⟩ := hnull
  exact ⟨a, ha, (zero?_mono (h.value f a) hcd).trans hzero⟩

theorem Event.Spares.trans (h : event.Spares s t) (h' : event.Spares t u) : event.Spares s u :=
  ⟨h'.1.trans h.1, fun m hm => (h'.2 m hm).trans (h.2 m hm)⟩

/-- What checkers say spares values, and what memory holds if symbols are dead. -/
theorem Checker.spares_check (checker : Checker) (event : Event) (scene : Scene) (c : Catalog) :
    (checker.check event scene c).1.Within (event.Spares scene.state) := by
  by_cases hdead : ∃ m, event = .dead m
  · obtain ⟨m, rfl⟩ := hdead
    by_cases h : checker = .malloc
    · subst h
      refine (checkDead_reaps scene m c).imp fun t ht => ⟨ht.2.1, fun _ _ => ht.2.2⟩
    · rw [Checker.check_dead h]
      trivial
  · refine (checker.within_check event scene c).imp fun t ht => ⟨ht, fun m hm => ?_⟩
    exact absurd ⟨m, hm⟩ hdead

/-- What is marked depends on values and on what memory holds only. -/
theorem Exploring.liveMarks_congr (henv : t.env = s.env) (hstore : t.store = s.store)
    (chain : List FrameId) (entering : Option BlockId) :
    liveMarks t chain entering = liveMarks s chain entering := by
  unfold liveMarks
  rw [henv, hstore]

theorem Exploring.env_popFrame (henv : t.env = s.env) (f g : FrameId) (e : ExprId) :
    (popFrame t f g e).env = (popFrame s f g e).env := by
  simp only [popFrame, State.dropFrame, State.bindExpr, State.result?, henv]

end

/-! ### Why nodes are made -/

/-- The marks by which is judged what is dead, where that is judged: what is reachable from the frames
that go on, where a block is entered; what is reachable in the caller, where a call is over; and
nothing but what lives as long as the program, where the first function is over. -/
inductive Reaper (fs : Frames) (c : Catalog) (s : State) : Point → Marks → Prop
  | entrance {d d' : Exploration} {f : FrameId} {b : BlockId} {tag : Option Checker} {m : Marks} :
    d.frames.Extends fs → d'.catalog ≤ c →
    liveMarks s (Frames.ancestors d.frames f) (some b) d = .ok (m, d') →
    Reaper fs c s ⟨.entrance b, f, tag⟩ m
  | back {d d' : Exploration} {f g : FrameId} {callee : FunctionId} {site : CallSite} {depth : Nat}
    {tag : Option Checker} {m : Marks} :
    fs.frame? g = some ⟨some f, callee, some site, depth⟩ → d.frames.Extends fs → d'.catalog ≤ c →
    liveMarks (popFrame s f g site.expr) (Frames.ancestors d.frames f) none d =
      .ok (m, d') →
    Reaper fs c s ⟨.after site.block site.index, f, tag⟩ m
  | finish {d d' : Exploration} {f : FrameId} {x : Frame} {tag : Option Checker} {m : Marks} :
    fs.frame? f = some x → x.parent = none → d'.catalog ≤ c →
    liveMarks s [] none d = .ok (m, d') → Reaper fs c s ⟨.finish, f, tag⟩ m

/-- Why the checker that follows memory makes a node. -/
inductive Says (p : Program) (fs : Frames) (c : Catalog) : PathNode → PathNode → Prop
  /-- It heard of an event, but not at a step that releases memory. -/
  | hears {x : PathNode} {q : Point} {t : State} {sink : Bool} :
    (∀ b i, q.kind = .before b i → ∃ el, Frames.HasStep p fs q.frame b i el ∧ el.Retains p) →
    x.state.Escapes t → Says p fs c x ⟨q.tagged .malloc, t, sink⟩
  /-- It was told which symbols are dead. -/
  | reaps {x : PathNode} {q : Point} {t : State} {sink : Bool} {m : Marks} {d : Catalog} :
    Reaper fs c x.state q m → d ≤ c → State.Reaps d m x.state t →
    Says p fs c x ⟨q.tagged .malloc, t, sink⟩
  /-- It evaluated a call that allocates memory. -/
  | allocates {x : PathNode} {f : FrameId} {b : BlockId} {i : Nat} {el : Element} {name : String}
    {call : ExprId} {args : List ExprId} {y : SymbolId} {t : State} :
    Frames.HasStep p fs f b i el → el.Calls p name call args → name = "malloc" ∨ name = "calloc" →
    x.state.heap.get? y = none → t.heap = x.state.heap.insert y ⟨.allocated, call⟩ →
    Says p fs c x ⟨⟨.before b i, f, some .malloc⟩, t, false⟩
  /-- It evaluated a call that releases memory. -/
  | releases {x : PathNode} {f : FrameId} {b : BlockId} {i : Nat} {el : Element} {call origin : ExprId}
    {args : List ExprId} {y : SymbolId} {P : Set Conjuring} :
    Frames.HasStep p fs f b i el → el.Calls p "free" call args → x.state.From c P →
    x.state.target? c f args = some y →
    (x.state.heap.get? y = none ∧ origin = call ∨
      ∃ kind, kind ≠ .released ∧ x.state.heap.get? y = some ⟨kind, origin⟩) →
    Says p fs c x ⟨⟨.before b i, f, some .malloc⟩, x.state.setAllocation y ⟨.released, origin⟩, false⟩
  /-- It ended the path at a call that must not release what it is given. -/
  | stops {x : PathNode} {f : FrameId} {b : BlockId} {i : Nat} {el : Element} {call : ExprId}
    {args : List ExprId} : Frames.HasStep p fs f b i el → el.Calls p "free" call args →
    Says p fs c x ⟨⟨.before b i, f, some .malloc⟩, x.state, true⟩

/-- The path goes on after the step from the node. If the step releases memory, the checker made the
node when it did so, or there was null, or no memory that is followed. -/
def Passed (p : Program) (fs : Frames) (c : Catalog) (x : PathNode) (f : FrameId) (b : BlockId)
    (i : Nat) : Prop :=
  ∃ el, Frames.HasStep p fs f b i el ∧ ∀ call args, el.Calls p "free" call args →
    x.point = ⟨.before b i, f, some .malloc⟩ ∨
      (∃ P, x.state.From c P) ∧ ∀ y, x.state.target? c f args = some y → x.state.GivesNull c f args

/-- What an edge says about allocated memory. -/
structure Lawful (p : Program) (fs : Frames) (c : Catalog) (x y : PathNode) : Prop where
  told : y.point.tag = some .malloc → Says p fs c x y
  entered {site : CallSite} {callee : FunctionId} {f : FrameId} :
    y.point = ⟨.callEnter site callee, f, none⟩ →
    ∃ el, Frames.HasStep p fs f site.block site.index el ∧ el.Retains p
  passed {f : FrameId} {b : BlockId} {i : Nat} : y.point = ⟨.after b i, f, none⟩ →
    x.point.kind = .after b i ∨ (∃ site, x.point.kind = .callExit site) ∨ Passed p fs c x f b i

section

variable {p : Program} {fs fs' : Frames} {c d : Catalog} {x y : PathNode} {f : FrameId} {b : BlockId}
  {i : Nat} {q : Point} {s t : State} {m : Marks} {sink : Bool} {kind : PointKind}

theorem Reaper.mono (h : Reaper fs c s q m) (hfs : fs.Extends fs') (hcd : c ≤ d) :
    Reaper fs' d s q m := by
  cases h with
  | entrance hd hc hmarks => exact .entrance (hd.trans hfs) (hc.trans hcd) hmarks
  | back hg hd hc hmarks => exact .back (hfs _ _ hg) (hd.trans hfs) (hc.trans hcd) hmarks
  | finish hf hparent hc hmarks => exact .finish (hfs _ _ hf) hparent (hc.trans hcd) hmarks

/-- The marks depend on values and on what memory holds only. -/
theorem Reaper.congr (h : Reaper fs c s q m) (henv : t.env = s.env) (hstore : t.store = s.store) :
    Reaper fs c t q m := by
  cases h with
  | entrance hd hc hmarks => exact .entrance hd hc (by rwa [liveMarks_congr henv hstore])
  | back hg hd hc hmarks =>
    refine .back hg hd hc ?_
    rwa [liveMarks_congr (env_popFrame henv _ _ _) hstore]
  | finish hf hparent hc hmarks =>
    exact .finish hf hparent hc (by rwa [liveMarks_congr henv hstore])

theorem Says.mono (h : Says p fs c x y) (hfs : fs.Extends fs') (hcd : c ≤ d) : Says p fs' d x y := by
  cases h with
  | hears hquiet ht =>
    refine .hears (fun b i hkind => ?_) ht
    obtain ⟨el, hel, hretains⟩ := hquiet b i hkind
    exact ⟨el, hel.mono hfs, hretains⟩
  | reaps hm hd ht => exact .reaps (hm.mono hfs hcd) (hd.trans hcd) ht
  | allocates hel hcall hname hnone ht => exact .allocates (hel.mono hfs) hcall hname hnone ht
  | releases hel hcall hfrom htarget hheap =>
    refine .releases (hel.mono hfs) hcall (hfrom.mono hcd) ?_ hheap
    rwa [target?_mono hfrom hcd]
  | stops hel hcall => exact .stops (hel.mono hfs) hcall

theorem Passed.mono (h : Passed p fs c x f b i) (hfs : fs.Extends fs') (hcd : c ≤ d) :
    Passed p fs' d x f b i := by
  obtain ⟨el, hel, hfree⟩ := h
  refine ⟨el, hel.mono hfs, fun call args hcall => ?_⟩
  refine (hfree call args hcall).imp_right fun ⟨⟨P, hfrom⟩, hnull⟩ => ⟨⟨P, hfrom.mono hcd⟩, ?_⟩
  intro y hy
  rw [target?_mono hfrom hcd] at hy
  exact (hnull y hy).mono hfrom hcd

theorem passed_of_retains {el : Element} (hel : Frames.HasStep p fs f b i el) (h : el.Retains p) :
    Passed p fs c x f b i := ⟨el, hel, fun call args hcall => absurd hcall (h call args)⟩

theorem Lawful.mono (h : Lawful p fs c x y) (hfs : fs.Extends fs') (hcd : c ≤ d) :
    Lawful p fs' d x y where
  told htag := (h.told htag).mono hfs hcd
  entered hpoint := by
    obtain ⟨el, hel, hretains⟩ := h.entered hpoint
    exact ⟨el, hel.mono hfs, hretains⟩
  passed hpoint := (h.passed hpoint).imp_right (.imp_right fun h => h.mono hfs hcd)

/-- Other checkers do not follow memory. -/
theorem lawful_tagged {checker : Checker} (h : checker = .malloc → Says p fs c x ⟨q.tagged .malloc, t, sink⟩) :
    Lawful p fs c x ⟨q.tagged checker, t, sink⟩ where
  told htag := by
    obtain rfl : checker = .malloc := some.inj htag
    exact h rfl
  entered hpoint := by cases congrArg Point.tag hpoint
  passed hpoint := by cases congrArg Point.tag hpoint

/-- Most edges that the exploration itself makes say nothing about memory. -/
theorem lawful_plain (henter : ∀ site callee, kind ≠ .callEnter site callee)
    (hafter : ∀ b i, kind ≠ .after b i) : Lawful p fs c x ⟨⟨kind, f, none⟩, t, sink⟩ where
  told htag := by cases htag
  entered hpoint := absurd (congrArg Point.kind hpoint) (henter _ _)
  passed hpoint := absurd (congrArg Point.kind hpoint) (hafter _ _)

theorem lawful_after (h : x.point.kind = .after b i ∨ (∃ site, x.point.kind = .callExit site) ∨
    Passed p fs c x f b i) : Lawful p fs c x ⟨⟨.after b i, f, none⟩, t, sink⟩ where
  told htag := by cases htag
  entered hpoint := by cases congrArg Point.kind hpoint
  passed hpoint := by
    cases hpoint
    exact h

end

/-! ### What an exploration records -/

/-- All edges of the graph are lawful. -/
structure Exploration.Audited (p : Program) (root : PathNode) (e : Exploration) : Prop where
  program : e.catalog.program = p
  tracks : e.graph.Tracks (Lawful p e.frames e.catalog) root

/-- Only additions, and only lawful ones. -/
structure Exploration.Audit (p : Program) (root : PathNode) (e e' : Exploration) : Prop where
  audited : e'.Audited p root
  le : e.catalog ≤ e'.catalog
  frames : e.frames.Extends e'.frames
  node {n : NodeId} {x : PathNode} : e.graph.node? n = some x → e'.graph.node? n = some x

section

variable {p : Program} {root : PathNode} {e e' e'' : Exploration}

theorem Exploration.Audited.refl (h : e.Audited p root) : e.Audit p root e := ⟨h, le_rfl, .refl _, id⟩

theorem Exploration.Audit.trans (h : e.Audit p root e') (h' : e'.Audit p root e'') :
    e.Audit p root e'' :=
  ⟨h'.audited, h.le.trans h'.le, h.frames.trans h'.frames, fun hn => h'.node (h.node hn)⟩

/-- More regions, symbols and frames do not change what edges say. -/
theorem Exploration.Audited.extend (h : e.Audited p root) (hgraph : e'.graph = e.graph)
    (hle : e.catalog ≤ e'.catalog) (hfs : e.frames.Extends e'.frames) : e.Audit p root e' where
  audited := ⟨hle.program.trans h.program, hgraph ▸ h.tracks.mono fun _ _ hxy => hxy.mono hfs hle⟩
  le := hle
  frames := hfs
  node hn := hgraph ▸ hn

end

namespace Exploring

variable {α β : Type} {p : Program} {o : Options} {root x y : PathNode} {e e' : Exploration}
  {n pred : NodeId} {q : Point} {s t : State} {spot : Spot} {el : Element} {P : Set Conjuring}
  {f : FrameId} {b : BlockId} {V : Visits} {event : Event} {visits i : Nat} {verdict : Verdict}
  {location : Value} {a place : ExprId} {site : CallSite} {call : CallEvent} {c : Catalog} {fs : Frames}
  {scene : Scene}

/-- If the action succeeds, it adds only what is lawful, and the condition is satisfied. -/
def Audits (p : Program) (root : PathNode) (x : Exploring α) (e : Exploration)
    (post : α → Exploration → Prop) : Prop := x.Gives e fun a e' => e.Audit p root e' ∧ post a e'

section

variable {x : Exploring α} {next : α → Exploring β} {post post' : α → Exploration → Prop}
  {post₂ : β → Exploration → Prop}

theorem Audits.bind (hx : Audits p root x e post)
    (hnext : ∀ a d, e.Audit p root d → post a d → Audits p root (next a) d post₂) :
    Audits p root (x >>= next) e post₂ :=
  Gives.bind hx fun a d h => (hnext a d h.1 h.2).imp fun _ _ h' => ⟨h.1.trans h'.1, h'.2⟩

theorem Audits.imp (h : Audits p root x e post) (himp : ∀ a d, post a d → post' a d) :
    Audits p root x e post' := Gives.imp h fun a d h => ⟨h.1, himp a d h.2⟩

/-- What an action gives otherwise. -/
theorem Audits.and (h : Audits p root x e post) (h' : x.Gives e post') :
    Audits p root x e fun a d => post a d ∧ post' a d :=
  fun a d ha => ⟨(h a d ha).1, (h a d ha).2, h' a d ha⟩

theorem audits_pure {a : α} (he : e.Audited p root) (h : post a e) :
    Audits p root (pure a) e post := gives_pure ⟨he.refl, h⟩

theorem audits_query_bind {read : Exploration → α} (h : Audits p root (next (read e)) e post₂) :
    Audits p root (query read >>= next) e post₂ := h

theorem audits_ite {c : Prop} [Decidable c] {x' : Exploring α} (hx : c → Audits p root x e post)
    (hx' : ¬ c → Audits p root x' e post) :
    Audits p root (if c then x else x' : Exploring α) e post := gives_ite hx hx'

theorem audits_throw {err : ExplorationError} : Audits p root (throw err : Exploring α) e post :=
  gives_throw

/-- What is looked up changes nothing. -/
theorem Audits.afterLookup {look : α → Prop} (hx : x.Gives e fun a d => look a ∧ d = e)
    (hnext : ∀ a, look a → Audits p root (next a) e post₂) : Audits p root (x >>= next) e post₂ :=
  Gives.bind hx fun a d h => by
    obtain ⟨h, rfl⟩ := h
    exact hnext a h

/-- An action that leaves the graph as it is. -/
theorem Adds.audits (h : x.Adds e post) (he : e.Audited p root)
    (hgraph : x.Gives e fun _ e' => e'.graph = e.graph) : Audits p root x e fun a e' =>
      post a e' ∧ e'.graph = e.graph := fun a e' ha => by
  obtain ⟨hstays, hpost⟩ := h a e' ha
  have hsame := hgraph a e' ha
  exact ⟨he.extend hsame hstays.le (hstays.frames ▸ .refl _), hpost, hsame⟩

theorem graph_naming (x : Naming α) : (naming x).Gives e fun _ e' => e'.graph = e.graph :=
  fun _ _ h => by
    cases h
    rfl

theorem audits_naming {x : Naming α} (he : e.Audited p root) (hx : x.Grows) :
    Audits p root (naming x) e fun a e' => (naming x) e = .ok (a, e') ∧ e'.graph = e.graph :=
  ((quiet_naming hx).adds.audits he (graph_naming x)).and (fun _ _ h => h) |>.imp
    fun _ _ h => ⟨h.2, h.1.2⟩

end

section

variable (he : e.Audited p root)
include he

theorem audits_forM {next : α → Exploring PUnit} {xs : List α}
    (h : ∀ x ∈ xs, ∀ d, e.Audit p root d → Audits p root (next x) d fun _ _ => True) :
    Audits p root (xs.forM next) e fun _ _ => True := by
  induction xs generalizing e with
  | nil => exact audits_pure he trivial
  | cons x xs ih =>
    refine .bind (h x mem_cons_self e he.refl) fun _ d hd _ => ?_
    exact ih hd.audited fun y hy d' hd' => h y (mem_cons_of_mem x hy) d' (hd.trans hd')

theorem audits_optionForM {next : α → Exploring PUnit} {x? : Option α}
    (h : ∀ x, x? = some x → Audits p root (next x) e fun _ _ => True) :
    Audits p root (x?.forM next) e fun _ _ => True := by
  cases x? with
  | none => exact audits_pure he trivial
  | some x => exact h x rfl

/-! ### Elementary actions -/

/-- A lawful edge. -/
theorem audits_arrive (hx : e.graph.node? pred = some x) (hxy : Lawful p e.frames e.catalog x y) :
    Audits p root (arrive pred y) e fun a e' => e'.graph.node? a.1 = some y := fun a e' h => by
  obtain ⟨rfl, rfl⟩ := arrive_eq_ok.1 h
  exact ⟨⟨⟨he.program, he.tracks.arrive hx hxy⟩, le_rfl, .refl _, node?_arrived_of_node?⟩,
    node?_arrived e pred y⟩

theorem audits_queue : Audits p root (queue n V) e fun _ _ => True :=
  fun a e' h => by
    cases h
    exact ⟨he.extend rfl le_rfl (.refl _), trivial⟩

theorem audits_report {findings : List Finding} :
    Audits p root (report n findings) e fun _ e' => e'.graph = e.graph := fun a e' h => by
  cases h
  exact ⟨he.extend rfl le_rfl (.refl _), rfl⟩

theorem audits_advance (hx : e.graph.node? pred = some x)
    (hxy : Lawful p e.frames e.catalog x ⟨q, s, false⟩) :
    Audits p root (advance pred q s V) e fun _ _ => True := by
  refine .bind (audits_arrive he hx hxy) fun a d hd _ => audits_ite (fun _ => ?_) fun _ => ?_
  · exact audits_queue hd.audited
  · exact audits_pure hd.audited trivial

/-- A path comes to a point in a state, or it is in the state already. -/
theorem audits_settle (hx : e.graph.node? pred = some x)
    (hxy : Lawful p e.frames e.catalog x ⟨q, s, false⟩) :
    Audits p root (settle pred q s) e fun n e' =>
      (n = pred ∧ x.state = s) ∨ e'.graph.node? n = some ⟨q, s, false⟩ := by
  refine audits_query_bind (audits_ite (fun hsame => ?_) fun _ => ?_)
  · rw [PathGraph.state_eq hx] at hsame
    exact audits_pure he (.inl ⟨rfl, hsame⟩)
  · exact .bind (audits_arrive he hx hxy) fun a d hd ha => audits_pure hd.audited (.inr ha)

/-! ### Asking checkers -/

/-- What a checker says is done. -/
theorem audits_obey (hx : e.graph.node? pred = some x)
    (hverdict : ∀ t sink, verdict.Reaches t sink → Lawful p e.frames e.catalog x ⟨q, t, sink⟩) :
    Audits p root (obey pred q verdict) e fun n? e' => ∀ n, n? = some n →
      (n = pred ∧ (verdict = .pass ∨ verdict = .proceed x.state)) ∨
        ∃ t, verdict.Reaches t false ∧ e'.graph.node? n = some ⟨q, t, false⟩ := by
  cases verdict with
  | pass =>
    refine audits_pure he ?_
    rintro n ⟨⟩
    exact .inl ⟨rfl, .inl rfl⟩
  | proceed s =>
    refine .bind (audits_settle he hx (hverdict _ _ .proceed)) fun m d hd hm =>
      audits_pure hd.audited ?_
    rintro n ⟨⟩
    rcases hm with ⟨rfl, rfl⟩ | hm
    · exact .inl ⟨rfl, .inr rfl⟩
    · exact .inr ⟨s, .proceed, hm⟩
  | report s findings =>
    refine .bind (audits_arrive he hx (hverdict _ _ .report)) fun a d hd ha => ?_
    refine .bind (audits_report hd.audited) fun _ d' hd' hsame => audits_pure hd'.audited ?_
    rintro n ⟨⟩
    exact .inr ⟨s, .report, hsame ▸ ha⟩
  | stop s findings =>
    refine .bind (audits_arrive he hx (hverdict _ _ .stop)) fun a d hd ha => ?_
    refine .bind (audits_report hd.audited) fun _ d' hd' _ => audits_pure hd'.audited ?_
    intro n hn
    cases hn

/-- **Asking checkers.** The path goes on from the same node, or from one that a checker made. -/
theorem audits_consult (hx : e.graph.node? n = some x)
    (hlaw : ∀ (d : Exploration) (y : PathNode), e.Audit p root d → event.Spares x.state y.state →
      ∀ t sink, (Allocation.check event ⟨y.state, q.tagged .malloc, visits, d.frames, o.store⟩
        d.catalog).1.Reaches t sink → Says p d.frames d.catalog y ⟨q.tagged .malloc, t, sink⟩) :
    Audits p root (consult o n q visits event) e fun n? e' => ∀ m, n? = some m →
      ∃ y, e'.graph.node? m = some y ∧ event.Spares x.state y.state ∧
        (y = x ∨ ∃ checker, y.point = q.tagged checker) := by
  unfold consult
  suffices h : ∀ (checkers : List Checker) (m : NodeId) (y : PathNode) (d : Exploration),
      e.Audit p root d → d.graph.node? m = some y → event.Spares x.state y.state →
      (y = x ∨ ∃ checker, y.point = q.tagged checker) →
      Audits p root (consultAll o q visits event checkers m) d fun n? e' => ∀ m, n? = some m →
        ∃ y, e'.graph.node? m = some y ∧ event.Spares x.state y.state ∧
          (y = x ∨ ∃ checker, y.point = q.tagged checker) from
    h _ n x e he.refl hx ⟨rfl, fun _ _ => rfl⟩ (.inl rfl)
  intro checkers
  induction checkers with
  | nil =>
    intro m y d hd hy hspares hpoint
    refine audits_pure hd.audited ?_
    rintro _ ⟨⟩
    exact ⟨y, hy, hspares, hpoint⟩
  | cons checker rest ih =>
    intro m y d hd hy hspares hpoint
    refine audits_query_bind ?_
    rw [PathGraph.state_eq hy]
    refine .bind (audits_naming hd.audited (checker.grows_check event _)) fun verdict d1 hd1 hrun => ?_
    obtain ⟨hverdict, hgraph⟩ := hrun
    -- the verdict is spoken in the catalog before, about the same node
    have hspoken : (checker.check event ⟨y.state, q.tagged checker, visits, d.frames, o.store⟩
        d.catalog).1 = verdict ∧ d1.frames = d.frames := by
      cases hverdict
      exact ⟨rfl, rfl⟩
    obtain ⟨hspoken, hframes⟩ := hspoken
    have hy1 : d1.graph.node? m = some y := hgraph ▸ hy
    have hsaid := checker.spares_check event
      ⟨y.state, q.tagged checker, visits, d.frames, o.store⟩ d.catalog
    rw [hspoken] at hsaid
    have hlawful : ∀ t sink, verdict.Reaches t sink →
        Lawful p d1.frames d1.catalog y ⟨q.tagged checker, t, sink⟩ := by
      intro t sink ht
      refine lawful_tagged fun hmalloc => ?_
      subst hmalloc
      exact (hlaw d y hd hspares t sink (hspoken ▸ ht)).mono hd1.frames hd1.le
    refine .bind (audits_obey hd1.audited hy1 hlawful) fun n? d2 hd2 hn => ?_
    cases n? with
    | none => exact audits_pure hd2.audited fun _ h => by cases h
    | some k =>
      have hgains := (hd.trans hd1).trans hd2
      rcases hn k rfl with ⟨rfl, -⟩ | ⟨t, ht, hk⟩
      · exact ih k y d2 hgains (hd2.node hy1) hspares hpoint
      · exact ih k _ d2 hgains hk (hspares.trans (hsaid.of_reaches ht)) (.inr ⟨checker, rfl⟩)

/-- **Hearing of an event** that is not about dead symbols. -/
theorem audits_listen (hx : e.graph.node? n = some x)
    (hquiet : (∀ scene c, (Allocation.check event scene c).1 = .pass) ∨
      ∀ b i, q.kind = .before b i → ∃ el, Frames.HasStep p e.frames q.frame b i el ∧ el.Retains p)
    (hlively : Allocation.Lively event) :
    Audits p root (consult o n q visits event) e fun n? e' => ∀ m, n? = some m →
      ∃ y, e'.graph.node? m = some y ∧ event.Spares x.state y.state ∧
        (y = x ∨ ∃ checker, y.point = q.tagged checker) := by
  refine audits_consult he hx fun d y hd _ t sink ht => ?_
  rcases hquiet with hpass | hquiet
  · rw [hpass] at ht
    cases ht
  · refine .hears (fun b i hkind => ?_) ((within_check_escapes hlively).of_reaches ht)
    obtain ⟨el, hel, hretains⟩ := hquiet b i hkind
    exact ⟨el, hel.mono hd.frames, hretains⟩

end

/-! ### Evaluating steps -/

/-- After the step, the path goes on from a node that may be left so. -/
def Leaves (p : Program) (spot : Spot) (outcome? : Option Outcome) (e : Exploration) : Prop :=
  ∀ outcome, outcome? = some outcome → ∃ y, e.graph.node? outcome.pred = some y ∧
    Passed p e.frames e.catalog y spot.frame spot.block spot.index

theorem leaves_none : Leaves p spot none e := fun _ h => by cases h

theorem leaves_of_retains {call? : Option CallEvent} (hy : e.graph.node? n = some y)
    (hel : Frames.HasStep p e.frames spot.frame spot.block spot.index el) (h : el.Retains p) :
    Leaves p spot (some ⟨n, s, call?⟩) e := by
  rintro _ ⟨⟩
  exact ⟨y, hy, passed_of_retains hel h⟩

/-- Checkers are asked before a step that releases no memory. -/
theorem audits_ask (he : e.Audited p root) (hx : e.graph.node? n = some x)
    (hlively : Allocation.Lively event)
    (hel : Frames.HasStep p e.frames spot.frame spot.block spot.index el) (hretains : el.Retains p) :
    Audits p root (ask o spot n event) e fun n? e' => ∀ m, n? = some m →
      ∃ y, e'.graph.node? m = some y := by
  refine (audits_listen he hx (.inr fun b i hkind => ?_) hlively).imp fun n? d h m hm => ?_
  · cases hkind
    exact ⟨el, hel, hretains⟩
  · obtain ⟨y, hy, -⟩ := h m hm
    exact ⟨y, hy⟩

theorem audits_read {type : CType} (he : e.Audited p root) :
    Audits p root (read o s location type) e fun _ e' => e'.graph = e.graph := by
  unfold read
  split
  · exact (audits_naming he (StorePolicy.grows_retrieve _ _ _ _)).imp fun _ _ h => h.2
  · exact audits_pure he rfl

section

variable (he : e.Audited p root) (hx : e.graph.node? pred = some x)
  (hel : Frames.HasStep p e.frames spot.frame spot.block spot.index el) (hretains : el.Retains p)
include he hx hel hretains

theorem audits_evalLoad : Audits p root (evalLoad o spot pred a place) e (Leaves p spot) := by
  refine audits_query_bind ?_
  refine .bind (audits_ask he hx trivial hel hretains) fun n? d hd hn => ?_
  cases n? with
  | none => exact audits_pure hd.audited leaves_none
  | some m =>
    obtain ⟨y, hy⟩ := hn m rfl
    refine audits_query_bind (audits_query_bind ?_)
    refine .bind (audits_read hd.audited) fun v d' hd' _ => audits_pure hd'.audited ?_
    exact leaves_of_retains (hd'.node hy) (hel.mono (hd.trans hd').frames) hretains

theorem audits_store {value : Value} {span : Span} :
    Audits p root (store o spot pred location value span) e fun stored? e' =>
      ∀ m t, stored? = some (m, t) → ∃ y, e'.graph.node? m = some y := by
  refine .bind (audits_ask he hx trivial hel hretains) fun n? d hd hn => ?_
  cases n? with
  | none => exact audits_pure hd.audited fun _ _ h => by cases h
  | some m =>
    obtain ⟨y, hy⟩ := hn m rfl
    refine audits_query_bind ?_
    split
    · refine .bind (audits_naming hd.audited (grows_write _ _ _ _)) fun t d' hd' _ =>
        audits_pure hd'.audited ?_
      rintro _ _ ⟨⟩
      exact ⟨y, hd'.node hy⟩
    · refine audits_pure hd.audited ?_
      rintro _ _ ⟨⟩
      exact ⟨y, hy⟩

theorem audits_evalStore : Audits p root (evalStore o spot pred a place) e (Leaves p spot) := by
  refine audits_query_bind (audits_query_bind ?_)
  refine .bind (audits_ask he hx trivial hel hretains) fun n? d hd hn => ?_
  cases n? with
  | none => exact audits_pure hd.audited leaves_none
  | some m =>
    obtain ⟨y, hy⟩ := hn m rfl
    refine audits_query_bind ?_
    refine .bind (audits_read hd.audited) fun old d1 hd1 _ => ?_
    refine .bind (audits_naming hd1.audited (grows_updated _ _ _ _)) fun values d2 hd2 _ => ?_
    have hmore := (hd.trans hd1).trans hd2
    refine .bind (audits_store hd2.audited (hd2.node (hd1.node hy)) (hel.mono hmore.frames) hretains)
      fun stored? d3 hd3 hstored => ?_
    cases stored? with
    | none => exact audits_pure hd3.audited leaves_none
    | some stored =>
      obtain ⟨z, hz⟩ := hstored stored.1 stored.2 rfl
      exact audits_pure hd3.audited (leaves_of_retains hz (hel.mono (hmore.trans hd3).frames) hretains)

theorem audits_evalDecl {v : VarId} {init : Option DeclInit} {location : Location} :
    Audits p root (evalDecl o spot pred v init location) e (Leaves p spot) := by
  refine audits_query_bind ?_
  refine .bind (audits_naming he (grows_var v _)) fun r d hd _ => ?_
  have hdecl : ∀ {d' : Exploration} {t : State}, e.Audit p root d' →
      Leaves p spot (some ⟨pred, t, none⟩) d' := fun hd' =>
    leaves_of_retains (hd'.node hx) (hel.mono hd'.frames) hretains
  refine audits_query_bind ?_
  dsimp only
  split
  · exact audits_query_bind (audits_pure hd.audited (hdecl hd))
  · exact .bind (audits_naming hd.audited (grows_writeList _ _ _ _ _ _)) fun t d' hd' _ =>
      audits_pure hd'.audited (hdecl (hd.trans hd'))
  · split
    · exact .bind (audits_naming hd.audited (grows_writeText _ _ _ _)) fun t d' hd' _ =>
        audits_pure hd'.audited (hdecl (hd.trans hd'))
    · refine .bind (audits_store hd.audited (hd.node hx) (hel.mono hd.frames) hretains)
        fun stored? d' hd' hstored => ?_
      cases stored? with
      | none => exact audits_pure hd'.audited leaves_none
      | some stored =>
        obtain ⟨y, hy⟩ := hstored stored.1 stored.2 rfl
        exact audits_pure hd'.audited (leaves_of_retains hy (hel.mono (hd.trans hd').frames) hretains)

end

/-! ### Calls -/

/-- The arguments of a call are the values of its expressions. -/
theorem args_of_callEvent? (h : s.callEvent? p f a site = some call) :
    call.args = call.argExprs.map (s.value f) := by
  unfold State.callEvent? at h
  split at h
  · cases h
    rfl
  · cases h

/-- A call as it is seen at a node: what it is a call of, and the values of its arguments. -/
structure Shows (p : Program) (f : FrameId) (x : PathNode) (el : Element) (call : CallEvent) : Prop where
  frame : call.frame = f
  calls : el.Calls p call.name call.expr call.argExprs
  args : call.args = call.argExprs.map (x.state.value f)

theorem Shows.releasedBy? (h : Shows p f x el call) :
    Allocation.releasedBy? c call = x.state.target? c f call.argExprs := by
  unfold Allocation.releasedBy? State.target?
  rw [h.args, head?_map]
  cases call.argExprs.head? <;> rfl

/-- **What the checker that follows memory makes of a call.** -/
theorem Shows.heard {sink : Bool} (h : Shows p f x el call) (hel : Frames.HasStep p fs f b i el)
    (hscene : scene.state = x.state) (hfrom : x.state.From c P)
    (hfresh : ∀ t, (⟨call.expr, f, t, scene.visits, none⟩ : Conjuring) ∉ P)
    (hverdict : (Allocation.evalCall? scene call c).1 = some verdict) (ht : verdict.Reaches t sink) :
    Says p fs c x ⟨⟨.before b i, f, some .malloc⟩, t, sink⟩ := by
  rcases evalCall?_cases hverdict with
    ⟨hname, rfl⟩ | ⟨hname, zeroed, rfl⟩ | ⟨hname, hwithin⟩
  · have hfree := hname ▸ h.calls
    rcases release_spec scene c call with
      ⟨hpass, -⟩ | ⟨findings, hstop⟩ | ⟨y, origin, hy, hproceed, hheap⟩
    · rw [hpass] at ht
      cases ht
    · rw [hstop] at ht
      cases ht
      rw [hscene]
      exact .stops hel hfree
    · rw [hproceed] at ht
      cases ht
      rw [hscene] at hheap ⊢
      exact .releases hel hfree hfrom (h.releasedBy? ▸ hy) hheap
  · obtain ⟨y, u, hproceed, hy, hu⟩ := allocate_spec scene call zeroed c
    rw [hproceed] at ht
    cases ht
    rw [hscene] at hu
    refine .allocates hel h.calls hname ?_ hu
    rw [hy, h.frame]
    exact hfrom.get?_heap_eq_none (hfresh _)
  · have hretains : el.Retains p := h.calls.retains (by rw [hname]; decide)
    have hheap := hwithin.of_reaches ht
    rw [hscene] at hheap
    refine .hears (q := ⟨.before b i, f, none⟩) (fun b' i' hkind => ?_) (escapes_of_heap hheap)
    cases hkind
    exact ⟨el, hel, hretains⟩

/-- A path passes a call that releases memory where there is null or no memory. -/
theorem Shows.passed_of_pass (h : Shows p f x el call)
    (hverdict : (Allocation.evalCall? scene call c).1 = some .pass ∨
      (Allocation.evalCall? scene call c).1 = some (.proceed x.state))
    (hel : Frames.HasStep p fs f b i el) (hscene : scene.state = x.state) (hfrom : x.state.From c P) :
    Passed p fs c x f b i := by
  refine ⟨el, hel, fun e' args hfree => .inr ⟨⟨P, hfrom⟩, fun y hy => ?_⟩⟩
  obtain ⟨hname, rfl, rfl⟩ := hfree.unique h.calls
  rw [evalCall?_free scene hname.symm] at hverdict
  rcases release_spec scene c call with
    ⟨-, hnull⟩ | ⟨findings, hstop⟩ | ⟨z, origin, hz, hproceed, hheap⟩
  · obtain ⟨v, hv, hzero⟩ := hnull y (h.releasedBy?.trans hy)
    rw [h.args, head?_map] at hv
    obtain ⟨a, ha, rfl⟩ := map_eq_some_iff.1 hv
    exact ⟨a, ha, hscene ▸ hzero⟩
  · rw [hstop] at hverdict
    rcases hverdict with hverdict | hverdict <;> cases hverdict
  · -- the memory is not in the state that it would be in after its release
    rw [hproceed] at hverdict
    rcases hverdict with hverdict | hverdict
    · cases hverdict
    · have hstate := Verdict.proceed.inj (some.inj hverdict)
      have hheap' := get?_setAllocation scene.state z z ⟨.released, origin⟩
      rw [hstate, ← hscene, if_pos rfl] at hheap'
      rcases hheap with ⟨hnone, -⟩ | ⟨kind, hkind, hsome⟩
      · cases hnone.symm.trans hheap'
      · exact absurd (congrArg Allocation.kind (some.inj (hsome.symm.trans hheap'))) hkind

theorem audits_evalByChecker {checkers : List Checker} (he : e.Audited p root)
    (hx : e.graph.node? n = some x) (hfrom : x.state.From e.catalog P)
    (hel : Frames.HasStep p e.frames spot.frame spot.block spot.index el)
    (hshows : Shows p spot.frame x el call)
    (hfresh : ∀ t, (⟨call.expr, spot.frame, t, spot.count, none⟩ : Conjuring) ∉ P) :
    Audits p root (evalByChecker o spot n call checkers) e fun answer e' =>
      (∀ m, answer = some (some m) → ∃ y, e'.graph.node? m = some y ∧
        Passed p e'.frames e'.catalog y spot.frame spot.block spot.index) ∧
      (.malloc ∈ checkers → call.name = "free" → answer ≠ none) := by
  induction checkers generalizing e with
  | nil => exact audits_pure he ⟨fun _ h => (by cases h), fun h => absurd h not_mem_nil⟩
  | cons checker rest ih =>
    refine audits_query_bind ?_
    rw [PathGraph.state_eq hx]
    refine .bind (audits_naming he (checker.grows_evalCall? call _)) fun verdict? d hd hrun => ?_
    obtain ⟨hverdict, hgraph⟩ := hrun
    have hspoken : (checker.evalCall? call ⟨x.state, spot.before.tagged checker, spot.count,
        e.frames, o.store⟩ e.catalog).1 = verdict? := by
      cases hverdict
      rfl
    have hx' := hd.node hx
    cases verdict? with
    | none =>
      refine (ih hd.audited hx' (hfrom.mono hd.le) (hel.mono hd.frames)).imp fun answer d' h => ?_
      refine ⟨h.1, fun hmem hname => ?_⟩
      rcases mem_cons.1 hmem with rfl | hmem
      · cases (evalCall?_free _ hname _).symm.trans hspoken
      · exact h.2 hmem hname
    | some verdict =>
      have hlaw : ∀ t sink, verdict.Reaches t sink →
          Lawful p d.frames d.catalog x ⟨spot.before.tagged checker, t, sink⟩ := by
        intro t sink ht
        refine lawful_tagged fun hmalloc => ?_
        subst hmalloc
        exact (hshows.heard hel rfl hfrom hfresh hspoken ht).mono hd.frames hd.le
      refine .bind (audits_obey hd.audited hx' hlaw) fun n? d' hd' hn => audits_pure hd'.audited ?_
      refine ⟨fun m hm => ?_, fun _ _ h => by cases h⟩
      have hel' := hel.mono (hd.trans hd').frames
      rcases hn m (some.inj hm) with ⟨rfl, hpass⟩ | ⟨t, -, hm⟩
      · refine ⟨x, hd'.node hx', ?_⟩
        by_cases hmalloc : checker = .malloc
        · subst hmalloc
          have hpassed : Passed p e.frames e.catalog x spot.frame spot.block spot.index := by
            rcases hpass with rfl | rfl
            · exact hshows.passed_of_pass (.inl hspoken) hel rfl hfrom
            · exact hshows.passed_of_pass (.inr hspoken) hel rfl hfrom
          exact hpassed.mono (hd.trans hd').frames (hd.trans hd').le
        · have hname := (Checker.within_evalCall?_of_ne hmalloc call _ e.catalog _ hspoken).1
          refine passed_of_retains hel' (hshows.calls.retains fun hfree => ?_)
          rw [hfree] at hname
          exact absurd hname (by decide)
      · refine ⟨_, hm, el, hel', fun e0 args hfree => ?_⟩
        by_cases hmalloc : checker = .malloc
        · subst hmalloc
          exact .inl rfl
        · obtain ⟨hfree, -, -⟩ := hfree.unique hshows.calls
          have hname := (Checker.within_evalCall?_of_ne hmalloc call _ e.catalog _ hspoken).1
          rw [← hfree] at hname
          exact absurd hname (by decide)

/-- A call that is not followed leaves the graph as it is, and goes on from the same node. -/
theorem gives_conservativeCall : (conservativeCall o spot n call).Gives e fun outcome e' =>
      outcome.pred = n ∧ e'.graph = e.graph := by
  refine gives_query_bind ?_
  suffices h : Naming.Always _ fun outcome : Outcome => outcome.pred = n from
    (gives_naming (h e.catalog)).imp fun _ _ h => ⟨h.2.1, h.2.2.1⟩
  refine always_bind fun _ => always_bind fun _ => always_bind fun _ => ?_
  exact always_ite (always_pure rfl) (always_bind fun _ => always_pure rfl)

/-- The frame of a call. -/
theorem audits_call {caller : FrameId} {callee : FunctionId} (he : e.Audited p root) :
    Audits p root (onFrames fun fs => Frames.call fs caller callee site) e fun _ _ => True :=
  fun g d h => by
    cases h
    exact ⟨he.extend rfl le_rfl (Frames.extends_add _ _), trivial⟩

theorem audits_inlineCall (he : e.Audited p root) (hx : e.graph.node? n = some x)
    (hel : Frames.HasStep p e.frames call.frame call.site.block call.site.index el)
    (hretains : el.Retains p) : Audits p root (inlineCall o spot n call) e fun _ _ => True := by
  refine audits_query_bind (.bind (audits_call he) fun g d hd _ => audits_query_bind ?_)
  refine .bind (audits_naming hd.audited (grows_bindParams _ _ _ _ _)) fun t d' hd' _ => ?_
  have hmore := hd.trans hd'
  refine audits_advance hd'.audited (hmore.node hx) ⟨fun h => (by cases h), fun hpoint => ?_, fun h => ?_⟩
  · cases hpoint
    exact ⟨el, hel.mono hmore.frames, hretains⟩
  · cases congrArg Point.kind h

theorem audits_evalCall {isRoot : Bool} (he : e.Audited p root) (hn : e.NodeFrom P pred)
    (hel : Frames.HasStep p e.frames spot.frame spot.block spot.index (.expr a isRoot))
    (hmalloc : .malloc ∈ o.checkers)
    (hfresh : ∀ t, (⟨a, spot.frame, t, spot.count, none⟩ : Conjuring) ∉ P) :
    Audits p root (evalCall o spot pred a) e (Leaves p spot) := by
  refine audits_query_bind (audits_query_bind ?_)
  rw [he.program]
  cases hcall : (e.graph.state pred).callEvent? p spot.frame a (spot.site a) with
  | none => exact audits_pure he leaves_none
  | some call =>
    obtain ⟨rfl, hframe, hsite, hop, hname, hconservative⟩ := callEvent?_call hcall
    obtain ⟨x, hx, hfrom⟩ := id hn
    have hargs := args_of_callEvent? hcall
    rw [PathGraph.state_eq hx] at hargs
    have hcalls : (Element.expr call.expr isRoot).Calls p call.name call.expr call.argExprs :=
      ⟨isRoot, call.callee, rfl, hop, hname.symm⟩
    have hquiet : (∀ scene c, (Allocation.check (.callBegins call) scene c).1 = .pass) ∨
        ∀ b i, spot.before.kind = .before b i →
          ∃ el, Frames.HasStep p e.frames spot.before.frame b i el ∧ el.Retains p := by
      by_cases hfree : call.name = "free"
      · exact .inl fun scene c => by rw [check_callBegins_free scene hfree]
      · refine .inr fun b i hkind => ?_
        cases hkind
        exact ⟨_, hel, hcalls.retains hfree⟩
    refine .bind ((audits_listen he hx hquiet trivial).and (adds_ask hn trivial)) fun n? d hd hn' => ?_
    cases n? with
    | none => exact audits_pure hd.audited leaves_none
    | some m =>
      obtain ⟨y, hy, hspares, -⟩ := hn'.1 m rfl
      obtain ⟨y', hy', hfrom'⟩ := hn'.2.2 m rfl
      cases hy.symm.trans hy'
      have hel' := hel.mono hd.frames
      have hshows : Shows p spot.frame y (.expr call.expr isRoot) call := by
        refine ⟨hframe, hcalls, hargs.trans (map_congr_left fun b _ => ?_)⟩
        unfold State.value
        rw [hspares.1]
      refine .bind (audits_evalByChecker hd.audited hy hfrom' hel' hshows hfresh)
        fun answer d1 hd1 hanswer => ?_
      have hel1 := hel'.mono hd1.frames
      match answer with
      | some none => exact audits_pure hd1.audited leaves_none
      | some (some k) =>
        refine audits_query_bind (audits_pure hd1.audited ?_)
        rintro _ ⟨⟩
        exact hanswer.1 k rfl
      | none =>
        have hretains := hcalls.retains fun hfree => hanswer.2 hmalloc hfree rfl
        refine audits_query_bind (audits_ite (fun _ => ?_) fun _ => ?_)
        · refine .bind (audits_inlineCall hd1.audited (hd1.node hy) ?_ hretains) fun _ d2 hd2 _ =>
            audits_pure hd2.audited leaves_none
          rw [hframe, hsite]
          exact hel1
        · have hquiet : (conservativeCall o spot m call).Quiet := quiet_conservativeCall call
          have hpred := hquiet.adds.audits hd1.audited (gives_conservativeCall.imp fun _ _ h => h.2)
          refine .bind (hpred.and gives_conservativeCall) fun outcome d2 hd2 hout =>
            audits_pure hd2.audited ?_
          rintro _ ⟨⟩
          rw [hout.2.1]
          exact ⟨y, hd2.node (hd1.node hy), passed_of_retains (hel1.mono hd2.frames) hretains⟩

/-- The symbols that the step may conjure for its own value are not of the set. -/
def Fresh (spot : Spot) (el : Element) (P : Set Conjuring) : Prop :=
  ∀ a isRoot, el = .expr a isRoot → ∀ t, (⟨a, spot.frame, t, spot.count, none⟩ : Conjuring) ∉ P

/-- **Evaluating a step.** -/
theorem audits_evalElement (he : e.Audited p root) (hn : e.NodeFrom P pred)
    (hel : Frames.HasStep p e.frames spot.frame spot.block spot.index el)
    (hmalloc : .malloc ∈ o.checkers) (hfresh : Fresh spot el P) :
    Audits p root (evalElement o spot pred el) e (Leaves p spot) := by
  obtain ⟨x, hx, -⟩ := id hn
  -- a step that is no expression calls nothing
  have hretains : (∀ a isRoot, el ≠ .expr a isRoot) → el.Retains p := by
    rintro hne call args ⟨isRoot, callee, rfl, -⟩
    exact hne _ _ rfl
  cases el with
  | expr a isRoot =>
    have hretains : (∀ callee args, (p.expr a).op ≠ .call callee args) →
        (Element.expr a isRoot).Retains p := by
      rintro hne call args ⟨_, callee, heq, hop, -⟩
      cases heq
      exact hne _ _ hop
    unfold evalElement evalExpr
    refine audits_query_bind ?_
    rw [he.program]
    split
    · next hop => exact audits_evalLoad he hx hel (hretains fun _ _ h => by cases hop.symm.trans h)
    iterate 3
      · next hop => exact audits_evalStore he hx hel (hretains fun _ _ h => by cases hop.symm.trans h)
    · exact audits_evalCall he hn hel hmalloc (hfresh a isRoot rfl)
    · next hcall =>
      have hother := hretains fun callee args h => hcall callee args h
      refine audits_query_bind ?_
      refine .bind (audits_naming he (grows_evaluate? _ _ _)) fun v? d hd _ => ?_
      have hleaves : ∀ t, Leaves p spot (some ⟨pred, t, none⟩) d := fun t =>
        leaves_of_retains (hd.node hx) (hel.mono hd.frames) hother
      cases v? with
      | none | some v => exact audits_pure hd.audited (hleaves _)
  | decl v init l => exact audits_evalDecl he hx hel (hretains fun _ _ h => by cases h)
  | merge target value =>
    refine audits_query_bind (audits_query_bind (audits_pure he ?_))
    exact leaves_of_retains hx hel (hretains fun _ _ h => by cases h)
  | «return» value l =>
    have hleaves : ∀ t, Leaves p spot (some ⟨pred, t, none⟩) e := fun t =>
      leaves_of_retains hx hel (hretains fun _ _ h => by cases h)
    refine audits_query_bind ?_
    cases value with
    | none | some a => exact audits_pure he (hleaves _)

end Exploring

end PathScout

import PathScout.Proofs.AllocationSteps
import PathScout.Proofs.FrameMoves

/-!
# What becomes of allocated memory

Along every edge of a graph, what is followed of the memory of a symbol changes only in a few ways, and
each of them has its place: a call allocates memory or releases it, memory escapes, or it is forgotten
because its symbol is dead. Memory that was released stays so. Where it would be released again, paths
end, unless the pointer is null.

* `Exploring.audits_dispatch`: a pending node is continued.
* `MemoryChange`: what may become of the memory of a symbol.
* `Exploration.memory_follows`: nothing else becomes of it, on every edge of every exploration.
* `Exploration.exists_released_again`: null is released again, and the path goes on.
-/

namespace PathScout

open Exploring List Option

namespace Exploring

variable {p : Program} {o : Options} {main : FunctionId} {root x y : PathNode} {e e' : Exploration}
  {n pred : NodeId} {q : Point} {s t : State} {spot : Spot} {el : Element} {P : Set Conjuring}
  {f g : FrameId} {b : BlockId} {block : Block} {V : Visits}

/-! ### Going on in a block -/

section

variable (he : e.Audited p root)
include he

/-- A step was evaluated. -/
theorem audits_finishElement {outcome : Outcome} (hx : e.graph.node? outcome.pred = some x)
    (hlaw : x.point.kind = .after spot.block spot.index ∨ (∃ site, x.point.kind = .callExit site) ∨
      Passed p e.frames e.catalog x spot.frame spot.block spot.index) :
    Audits p root (finishElement o spot outcome) e fun _ _ => True := by
  refine .bind (audits_arrive he hx (lawful_after hlaw)) fun a d hd ha => audits_ite (fun _ => ?_)
    fun _ => audits_pure hd.audited trivial
  split
  · exact audits_queue hd.audited
  · next call _ =>
    have hquiet : (∀ scene c, (Allocation.check (.callEnds call) scene c).1 = .pass) ∨
        ∀ b i, spot.after.kind = .before b i →
          ∃ el, Frames.HasStep p d.frames spot.after.frame b i el ∧ el.Retains p :=
      .inr fun b i h => by cases h
    refine .bind (audits_listen hd.audited ha hquiet trivial) fun n? d' hd' _ => ?_
    cases n? with
    | none => exact audits_pure hd'.audited trivial
    | some n => exact audits_queue hd'.audited

theorem audits_processElement (hn : e.NodeFrom P pred) (hs : s.From e.catalog P)
    (hel : Frames.HasStep p e.frames spot.frame spot.block spot.index el)
    (hmalloc : .malloc ∈ o.checkers) (hfresh : Fresh spot el P) :
    Audits p root (processElement o spot pred s el) e fun _ _ => True := by
  obtain ⟨x, hx, -⟩ := id hn
  have hplain : Lawful p e.frames e.catalog x ⟨spot.before, s, false⟩ :=
    lawful_plain (fun _ _ h => by cases h) fun _ _ h => by cases h
  refine .bind ((audits_settle he hx hplain).and (adds_settle hn hs)) fun m d hd hm => ?_
  obtain ⟨-, -, hm⟩ := hm
  obtain ⟨y, hy, -⟩ := id hm
  have hpass : ∀ scene c, (Allocation.check (.element el) scene c).1 = .pass := fun _ _ => rfl
  refine .bind ((audits_listen hd.audited hy (.inl hpass) trivial).and (adds_ask hm trivial))
    fun n? d1 hd1 hn' => ?_
  cases n? with
  | none => exact audits_pure hd1.audited trivial
  | some k =>
    have hk := hn'.2.2 k rfl
    refine .bind (audits_evalElement hd1.audited hk (hel.mono (hd.trans hd1).frames) hmalloc hfresh)
      fun out? d2 hd2 hleaves => ?_
    cases out? with
    | none => exact audits_pure hd2.audited trivial
    | some outcome =>
      obtain ⟨z, hz, hpassed⟩ := hleaves outcome rfl
      exact audits_finishElement hd2.audited hz (.inr (.inr hpassed))

/-! ### Leaving blocks -/

theorem audits_followEdge {source target : BlockId} (hx : e.graph.node? pred = some x) :
    Audits p root (followEdge f V pred source target s) e fun _ _ => True :=
  audits_advance he hx (lawful_plain (fun _ _ h => by cases h) fun _ _ h => by cases h)

/-- **Leaving a block.** -/
theorem audits_branchOut (hx : e.graph.node? pred = some x) :
    Audits p root (branchOut o pred s b f V) e fun _ _ => True := by
  -- the path comes to the end of the block, and checkers look at it there
  have hsettle : ∀ (event : Event) {point : Point} {visits : Nat} {next : Option NodeId → Exploring Unit},
      (∀ scene c, (Allocation.check event scene c).1 = .pass) → Allocation.Lively event →
      (∀ d, e.Audit p root d → Audits p root (next none) d fun _ _ => True) →
      (∀ m y d, e.Audit p root d → d.graph.node? m = some y →
        Audits p root (next (some m)) d fun _ _ => True) →
      Audits p root (do
        let n ← settle pred ⟨.exit b, f, none⟩ s
        next (← consult o n point visits event)) e fun _ _ => True := by
    intro event point visits next hpass hlively hnone hsome
    have hplain : Lawful p e.frames e.catalog x ⟨⟨.exit b, f, none⟩, s, false⟩ :=
      lawful_plain (fun _ _ h => by cases h) fun _ _ h => by cases h
    refine .bind (audits_settle he hx hplain) fun m d hd hm => ?_
    obtain ⟨y, hy⟩ : ∃ y, d.graph.node? m = some y := by
      rcases hm with ⟨rfl, -⟩ | hm
      · exact ⟨x, hd.node hx⟩
      · exact ⟨_, hm⟩
    refine .bind (audits_listen hd.audited hy (.inl hpass) hlively) fun n? d1 hd1 hn => ?_
    cases n? with
    | none => exact hnone d1 (hd.trans hd1)
    | some k =>
      obtain ⟨z, hz, -⟩ := hn k rfl
      exact hsome k z d1 (hd.trans hd1) hz
  unfold branchOut
  refine .afterLookup (gives_blockOf he.program) fun block _ => ?_
  dsimp only
  split
  · exact audits_followEdge he hx
  · refine hsettle (.condition _) (fun _ _ => rfl) trivial
      (fun d hd => audits_pure hd.audited trivial) fun m y d hd hy => ?_
    refine audits_query_bind (audits_query_bind ?_)
    refine .bind (audits_optionForM hd.audited fun t _ => audits_followEdge hd.audited hy)
      fun _ d1 hd1 _ => ?_
    exact audits_optionForM hd1.audited fun t _ => audits_followEdge hd1.audited (hd1.node hy)
  · refine hsettle (.condition _) (fun _ _ => rfl) trivial
      (fun d hd => audits_pure hd.audited trivial) fun m y d hd hy => ?_
    refine audits_query_bind (audits_query_bind ?_)
    refine .bind (audits_naming hd.audited (grows_switchStates _ _ _ _ _)) fun out d1 hd1 _ => ?_
    have hy1 := hd1.node hy
    refine .bind (audits_forM hd1.audited fun way _ d2 hd2 =>
      audits_followEdge hd2.audited (hd2.node hy1)) fun _ d2 hd2 _ => ?_
    exact audits_optionForM hd2.audited fun t _ => audits_followEdge hd2.audited (hd2.node hy1)
  · refine hsettle .functionEnds (fun _ _ => rfl) trivial
      (fun d hd => audits_pure hd.audited trivial) fun m y d hd hy => audits_query_bind ?_
    exact audits_advance hd.audited hy (lawful_plain (fun _ _ h => by cases h) fun _ _ h => by cases h)

/-- **Going on in a block.** -/
theorem audits_continueBlock (hn : e.NodeFrom P pred) (hs : s.From e.catalog P)
    (hmalloc : .malloc ∈ o.checkers)
    (hfresh : ∀ el, Frames.HasStep p e.frames spot.frame spot.block spot.index el → Fresh spot el P) :
    Audits p root (continueBlock o pred s spot) e fun _ _ => True := by
  unfold continueBlock
  refine .afterLookup (gives_blockOf he.program) fun block hblock => ?_
  cases hel : block.elements[spot.index]? with
  | none =>
    obtain ⟨x, hx, -⟩ := hn
    exact audits_branchOut he hx
  | some el =>
    have hstep : Frames.HasStep p e.frames spot.frame spot.block spot.index el := ⟨block, hblock, hel⟩
    exact audits_processElement he hn hs hstep hmalloc (hfresh el hstep)

theorem audits_afterElement (hn : e.NodeFrom P n) (hmalloc : .malloc ∈ o.checkers)
    (hfresh : ∀ el, Frames.HasStep p e.frames spot.frame spot.block (spot.index + 1) el →
      Fresh spot el P) : Audits p root (afterElement o n spot) e fun _ _ => True := by
  unfold afterElement
  refine audits_query_bind (.afterLookup (gives_blockOf he.program) fun block _ => ?_)
  refine audits_continueBlock he hn ?_ hmalloc hfresh
  split
  · exact hn.state.clearExprs _
  · exact hn.state

/-! ### Entering blocks -/

/-- The marks are what they are, and nothing else is done. -/
theorem audits_liveMarks {chain : List FrameId} {entering : Option BlockId} :
    Audits p root (liveMarks s chain entering) e fun m d =>
      liveMarks s chain entering e = .ok (m, d) ∧ d.graph = e.graph := by
  have hgraph : (liveMarks s chain entering).Gives e fun _ d => d.graph = e.graph :=
    gives_query_bind (graph_naming _)
  exact ((adds_liveMarks.audits he hgraph).and fun _ _ h => h).imp fun _ _ h => ⟨h.2, h.1.2⟩

/-- **Asking what becomes of dead symbols.** -/
theorem audits_reap {visits : Nat} {m : Marks} (hx : e.graph.node? n = some x)
    (hm : Reaper e.frames e.catalog x.state q m) :
    Audits p root (consult o n q visits (.dead m)) e fun n? e' => ∀ k, n? = some k →
      ∃ y, e'.graph.node? k = some y ∧ (y = x ∨ ∃ checker, y.point = q.tagged checker) := by
  refine (audits_consult he hx fun d y hd hspares t sink ht => ?_).imp fun _ _ h k hk => ?_
  · have hreaps := ((Allocation.checkDead_reaps _ m d.catalog).of_reaches ht).1
    exact .reaps ((hm.mono hd.frames hd.le).congr hspares.1 (hspares.2 m rfl)) le_rfl hreaps
  · obtain ⟨y, hy, -, hpoint⟩ := h k hk
    exact ⟨y, hy, hpoint⟩

theorem audits_noteCoverage {kind : CoverageKind} {l : Location} :
    Audits p root (noteCoverage f kind l) e fun _ _ => True := fun u e' h => by
  cases h
  refine ⟨?_, trivial⟩
  dsimp only
  split
  · exact he.refl
  · split
    · exact he.refl
    · exact he.extend rfl le_rfl (.refl _)

theorem audits_widenLoop {count : Nat} :
    Audits p root (widenLoop o s block f count) e fun _ e' => e'.graph = e.graph := by
  unfold widenLoop
  split
  · exact audits_pure he rfl
  · refine .afterLookup gives_functionOf fun function _ => ?_
    refine (audits_naming he ?_).imp fun _ _ h => h.2
    exact (Naming.Grows.mapM (fun v => Naming.grows_var v f) _).bind fun _ =>
      (grows_stateInvalidate _ _ _).bind fun _ => Naming.grows_pure _

/-- **Entering a block.** -/
theorem audits_enterBlock (hx : e.graph.node? pred = some x) :
    Audits p root (enterBlock o pred b f V) e fun _ _ => True := by
  have hplain : ∀ {fs : Frames} {c : Catalog} {z : PathNode} {t : State} {sink : Bool},
      Lawful p fs c z ⟨⟨.entrance b, f, none⟩, t, sink⟩ := fun {_ _ _ _ _} =>
    lawful_plain (fun _ _ h => by cases h) fun _ _ h => by cases h
  unfold enterBlock
  refine .afterLookup (gives_blockOf he.program) fun block _ => audits_query_bind ?_
  rw [PathGraph.state_eq hx]
  refine audits_ite (fun _ => ?_) fun _ => ?_
  · refine .bind (audits_arrive he hx hplain) fun _ d hd _ => ?_
    exact .afterLookup gives_functionOf fun function _ =>
      audits_query_bind (audits_noteCoverage hd.audited)
  · refine audits_query_bind (.bind (audits_liveMarks he) fun marks d hd hmarks => ?_)
    have hreaper : Reaper d.frames d.catalog x.state ⟨.entrance b, f, none⟩ marks :=
      .entrance hd.frames le_rfl hmarks.1
    refine .bind (audits_reap hd.audited (hd.node hx) hreaper) fun n? d1 hd1 hn => ?_
    cases n? with
    | none => exact audits_pure hd1.audited trivial
    | some n =>
      obtain ⟨y, hy, -⟩ := hn n rfl
      have hadvance : ∀ t d2, d1.Audit p root d2 → Audits p root (do
            let state ← query fun e => State.removeDead t e.catalog marks
            advance n ⟨.entrance b, f, none⟩ state (V.enter f b)) d2 fun _ _ => True :=
        fun t d2 hd2 => audits_query_bind (audits_advance hd2.audited (hd2.node hy) hplain)
      refine audits_query_bind (audits_ite (fun _ => ?_) fun _ => hadvance _ d1 hd1.audited.refl)
      exact .bind (audits_widenLoop hd1.audited) fun t d2 hd2 _ => hadvance t d2 hd2

/-! ### Leaving functions -/

theorem audits_leaveFrame (hx : e.graph.node? n = some x) (hsound : e.frames.Sound p o main) :
    Audits p root (leaveFrame o n f V) e fun _ _ => True := by
  unfold leaveFrame
  refine audits_query_bind (audits_query_bind ?_)
  rw [PathGraph.state_eq hx]
  cases hframe : e.frames.frame? f with
  | none => exact audits_throw
  | some z =>
    cases hsound f z hframe with
    | top =>
      refine .bind (audits_liveMarks he) fun marks d hd hmarks => ?_
      have hreaper : Reaper d.frames d.catalog x.state ⟨.finish, f, none⟩ marks :=
        .finish (hd.frames _ _ hframe) rfl le_rfl hmarks.1
      exact .bind (audits_reap hd.audited (hd.node hx) hreaper) fun _ d' hd' _ =>
        audits_pure hd'.audited trivial
    | called =>
      exact audits_advance he hx (lawful_plain (fun _ _ h => by cases h) fun _ _ h => by cases h)

theorem audits_returnToCaller {site : CallSite} {tag : Option Checker} {sink : Bool}
    {callee : FunctionId} {caller : FrameId} {depth : Nat}
    (hx : e.graph.node? n = some ⟨⟨.callExit site, g, tag⟩, s, sink⟩)
    (hg : e.frames.frame? g = some ⟨some caller, callee, some site, depth⟩) :
    Audits p root (returnToCaller o n site g V) e fun _ _ => True := by
  unfold returnToCaller
  refine audits_query_bind ?_
  rw [show Frames.caller? e.frames g = some caller by rw [Frames.caller?, hg]; rfl]
  refine audits_query_bind (.afterLookup (gives_blockOf he.program) fun block _ => ?_)
  refine audits_ite (fun _ => .afterLookup gives_functionOf fun _ _ => ?_) fun _ => audits_query_bind ?_
  · have hthrow : ∀ {err}, Audits p root (throw err : Exploring PUnit) e fun _ _ => False := audits_throw
    exact hthrow.bind fun _ _ _ h => h.elim
  rw [PathGraph.state_eq hx]
  refine audits_query_bind (.bind (audits_liveMarks he) fun marks d hd hmarks => ?_)
  have hreaper : Reaper d.frames d.catalog s ⟨.after site.block site.index, caller, none⟩ marks :=
    .back (hd.frames _ _ hg) hd.frames le_rfl hmarks.1
  refine .bind (audits_reap hd.audited (hd.node hx) hreaper) fun n? d1 hd1 hn => ?_
  cases n? with
  | none => exact audits_pure hd1.audited trivial
  | some done =>
    obtain ⟨y, hy, hpoint⟩ := hn done rfl
    refine audits_query_bind (audits_query_bind (audits_finishElement hd1.audited hy ?_))
    rcases hpoint with rfl | ⟨checker, hpoint⟩
    · exact .inr (.inl ⟨site, rfl⟩)
    · exact .inl (congrArg Point.kind hpoint)

/-! ### Pending nodes -/

/-- **Continuing a pending node.** -/
theorem audits_dispatch {r : Pending} (hx : e.graph.node? r.node = some x)
    (hfrom : x.state.From e.catalog P) (hpends : x.point.Pends p o e.frames)
    (hsound : e.frames.Sound p o main) (hmalloc : .malloc ∈ o.checkers)
    (hfresh : ∀ (spot : Spot) (el : Element), x.point.Before spot.frame spot.block spot.index →
      spot.visits = r.visits → Frames.HasStep p e.frames spot.frame spot.block spot.index el →
      Fresh spot el P) : Audits p root (dispatch o r) e fun _ _ => True := by
  obtain ⟨⟨kind, f, tag⟩, s, sink⟩ := x
  have hn : e.NodeFrom P r.node := ⟨_, hx, hfrom⟩
  unfold dispatch
  refine audits_query_bind ?_
  rw [PathGraph.point_eq hx]
  cases kind with
  | entry => exact .afterLookup (gives_bodyOf he.program) fun body _ => audits_enterBlock he hx
  | edge source target => exact audits_enterBlock he hx
  | entrance b =>
    refine audits_query_bind (audits_continueBlock he hn hn.state hmalloc fun el hel => ?_)
    exact hfresh _ el .entrance rfl hel
  | after b i =>
    refine audits_afterElement he hn hmalloc fun el hel => ?_
    exact hfresh ⟨f, b, i + 1, r.visits⟩ el .after rfl hel
  | callEnter site callee =>
    refine .bind (audits_call he) fun g d hd _ => ?_
    exact .afterLookup (gives_bodyOf hd.audited.program) fun body _ =>
      audits_enterBlock hd.audited (hd.node hx)
  | finish => exact audits_leaveFrame he hx hsound
  | callExit site =>
    obtain ⟨caller, callee, depth, hg⟩ := hpends.returns rfl
    exact audits_returnToCaller he hx hg
  | before | exit => exact audits_pure he trivial

end

end Exploring

/-! ### The search -/

namespace Exploration

variable {p : Program} {o : Options} {main : FunctionId} {root : PathNode} {e d : Exploration}
  {r : Pending} {w : Worklist} {n : Nat} {globals : Names} {body : FunctionBody}

/-- What holds during the search. -/
structure Follows (p : Program) (o : Options) (main : FunctionId) (root : PathNode) (e : Exploration) :
    Prop where
  explores : e.Explores p o main
  tracks : e.Tracks p o
  records : e.Records p o root
  audited : e.Audited p root

/-- One step of the search. -/
theorem Follows.dispatch (hp : p.Built globals) (hmalloc : .malloc ∈ o.checkers)
    (h : e.Follows p o main root) (hpop : e.worklist.pop? = some (r, w))
    (hrun : dispatch o r { e with worklist := w } = .ok ((), d)) :
    d.Follows p o main root := by
  have hpending := Worklist.pending_of_pop? hpop
  have hmem : r ∈ e.worklist.pending := hpending ▸ mem_cons_self
  obtain ⟨d', hrun', hcuts⟩ := h.explores.cut hp.closed hpop
  cases hrun.symm.trans hrun'
  have hrest : Records p o root { e with worklist := w } :=
    ⟨h.records.program, h.records.stacked, h.records.tracks,
      fun hq => h.records.pending (hpending ▸ mem_cons_of_mem r hq), h.records.reported⟩
  have hopen : Open p o { e with worklist := w } r.node := h.records.pending hmem
  refine ⟨hcuts.explores, h.explores.tracks hp h.tracks hpop hrun,
    (keeps_dispatch hrest hopen _ _ hrun).1.records, ?_⟩
  obtain ⟨x, hx, -, hpends⟩ := hopen
  obtain ⟨x', hx', hfrom⟩ := h.tracks r hmem
  cases hx.symm.trans hx'
  have haudited : Audited p root { e with worklist := w } := ⟨h.audited.program, h.audited.tracks⟩
  refine (audits_dispatch haudited hx hfrom hpends h.explores.regular.frames hmalloc
    (fun spot el hbefore hvisits hel a isRoot hexpr t hspent => ?_) _ _ hrun).1.audited
  -- the step is still to be evaluated, so that nothing was conjured for it yet
  subst hexpr
  obtain ⟨block, hblock, hel⟩ := hel
  have hcount : spot.count = r.visits.count spot.frame spot.block := by rw [Spot.count, hvisits]
  have hforgets := Spent.forgets hspent hp.evaluatesOnce hblock hel (.before hbefore) hcount
  exact absurd hforgets.2 (by simp)

theorem follows_start (hbody : (p.function main).body = some body) :
    (start o p main).Follows p o main (Exploration.root o p main) where
  explores := explores_start hbody
  tracks := tracks_start
  records := records_start o p main
  audited := ⟨(records_start o p main).program, PathGraph.Tracks.single _ _⟩

theorem Follows.steps (hp : p.Built globals) (hmalloc : .malloc ∈ o.checkers)
    (h : e.Follows p o main root) (hsteps : Exploring.Steps o n e d) : d.Audited p root := by
  induction hsteps with
  | refl => exact h.audited
  | step hpop hrun _ ih => exact ih (h.dispatch hp hmalloc hpop hrun)

/-- The search, however it ends. -/
theorem Follows.search {f : FrameId} {l : Location} {steps : Nat} (hp : p.Built globals)
    (hmalloc : .malloc ∈ o.checkers) (h : e.Follows p o main root)
    (hrun : search o f l steps e = .ok ((), d)) : d.Audited p root := by
  induction steps generalizing e with
  | zero =>
    cases hrun
    exact h.audited
  | succ steps ih =>
    obtain ⟨r?, e1, hnext, hrun⟩ := bind_eq_ok.1 hrun
    unfold nextPending at hnext
    cases hpop : e.worklist.pop? with
    | none =>
      rw [hpop] at hnext
      cases hnext
      cases hrun
      exact h.audited
    | some out =>
      obtain ⟨r, w⟩ := out
      rw [hpop] at hnext
      cases hnext
      dsimp only at hrun
      rw [query_bind, ite_apply] at hrun
      split at hrun
      · obtain ⟨_, e2, hnote, hclear⟩ := bind_eq_ok.1 hrun
        have hpopped : Audited p root { e with worklist := w } := ⟨h.audited.program, h.audited.tracks⟩
        have hnoted := (audits_noteCoverage hpopped _ _ hnote).1.audited
        cases hclear
        exact ⟨hnoted.program, hnoted.tracks⟩
      · obtain ⟨_, e2, hdispatch, hrun⟩ := bind_eq_ok.1 hrun
        exact ih (h.dispatch hp hmalloc hpop hdispatch) hrun

/-- **Every graph that an exploration leaves** says only what is lawful about memory. -/
theorem Reached.audited (hp : p.Built globals) (hbody : (p.function main).body = some body)
    (hmalloc : .malloc ∈ o.checkers) (h : Reached o p main e) :
    e.Audited p (Exploration.root o p main) := by
  cases h with
  | steps h => exact (follows_start hbody).steps hp hmalloc h
  | ended h => exact (follows_start hbody).search hp hmalloc ((explore_eq_ok hbody).1 h)

end Exploration

/-! ### What becomes of memory -/

/-- What may become of the memory of a symbol on the way from one node to another. -/
inductive MemoryChange (p : Program) (fs : Frames) (c : Catalog) (x y : PathNode) (z : SymbolId) : Prop
  | same : y.state.heap.get? z = x.state.heap.get? z → MemoryChange p fs c x y z
  /-- A call allocates it. Nothing was known of it before. -/
  | allocate {f : FrameId} {b : BlockId} {i : Nat} {el : Element} {name : String} {call : ExprId}
    {args : List ExprId} : y.point = ⟨.before b i, f, some .malloc⟩ → Frames.HasStep p fs f b i el →
    el.Calls p name call args → name = "malloc" ∨ name = "calloc" → x.state.heap.get? z = none →
    y.state.heap.get? z = some ⟨.allocated, call⟩ → MemoryChange p fs c x y z
  /-- A call releases memory of which nothing was known. -/
  | adopt {f : FrameId} {b : BlockId} {i : Nat} {el : Element} {call : ExprId} {args : List ExprId} :
    y.point = ⟨.before b i, f, some .malloc⟩ → Frames.HasStep p fs f b i el →
    el.Calls p "free" call args → x.state.target? c f args = some z → x.state.heap.get? z = none →
    y.state.heap.get? z = some ⟨.released, call⟩ → MemoryChange p fs c x y z
  /-- A call releases memory that was allocated, or that escaped. -/
  | release {f : FrameId} {b : BlockId} {i : Nat} {el : Element} {call origin : ExprId}
    {args : List ExprId} {kind : AllocationKind} : y.point = ⟨.before b i, f, some .malloc⟩ →
    Frames.HasStep p fs f b i el → el.Calls p "free" call args → x.state.target? c f args = some z →
    kind = .allocated ∨ kind = .escaped → x.state.heap.get? z = some ⟨kind, origin⟩ →
    y.state.heap.get? z = some ⟨.released, origin⟩ → MemoryChange p fs c x y z
  /-- Memory that was allocated escapes. -/
  | escape {origin : ExprId} : x.state.heap.get? z = some ⟨.allocated, origin⟩ →
    y.state.heap.get? z = some ⟨.escaped, origin⟩ → MemoryChange p fs c x y z
  /-- Memory is forgotten where its symbol is dead. -/
  | forget {m : Marks} {d : Catalog} : Reaper fs c x.state y.point m → d ≤ c →
    m.isLiveSymbol d z = false → y.state.heap.get? z = none → MemoryChange p fs c x y z

/-- The path is to evaluate the step next, and the checker that follows memory has not done so yet. -/
structure Awaits (p : Program) (o : Options) (fs : Frames) (x : Point) (f : FrameId) (b : BlockId)
    (i : Nat) : Prop where
  looks : Looks p o fs x ⟨.before b i, f, none⟩
  waiting : x ≠ ⟨.before b i, f, some .malloc⟩

section

variable {p : Program} {o : Options} {fs : Frames} {c : Catalog} {x y : PathNode} {z : SymbolId}
  {q q' : Point} {f : FrameId} {b : BlockId} {i : Nat} {el : Element} {call origin : ExprId}
  {args : List ExprId} {m : Marks} {s : State}

theorem Reaper.tagged (h : Reaper fs c s q m) (checker : Checker) :
    Reaper fs c s (q.tagged checker) m := by
  cases h with
  | entrance hd hc hmarks => exact .entrance hd hc hmarks
  | back hg hd hc hmarks => exact .back hg hd hc hmarks
  | finish hf hparent hc hmarks => exact .finish hf hparent hc hmarks

/-- Only the checker that follows memory changes what is known of it. -/
theorem Edge.heap_eq (h : Edge p o fs x y) (htag : y.point.tag ≠ some .malloc) :
    y.state.heap = x.state.heap := by
  cases h with
  | tell _ _ ht =>
    have hne : ∀ {checker : Checker}, some checker ≠ some .malloc → checker ≠ .malloc :=
      fun hne heq => hne (congrArg some heq)
    exact ((Checker.keeps_check (hne htag) _ _ _).of_reaches ht).heap
  | evaluate _ _ _ _ _ _ _ _ hverdict ht =>
    have hsame := Checker.within_evalCall?_of_ne (fun heq => htag (congrArg some heq)) _ _ _ _ hverdict
    exact congrArg State.heap (hsame.2.of_reaches ht).symm
  | pause _ _ _ ht => exact ht.heap
  | step _ _ _ hsets =>
    cases hsets with
    | expr _ hheap => exact hheap
    | decl hkeeps => exact hkeeps.heap
    | merge | result | noResult => rfl
  | call _ _ ht | leave _ _ _ ht | enter _ ht | resume _ _ ht => exact ht.heap
  | finish | giveUp | giveBack => rfl

/-- What the checker that follows memory says changes memory in one of the ways. -/
theorem Says.change (h : Says p fs c x y) (z : SymbolId) : MemoryChange p fs c x y z := by
  cases h with
  | hears _ ht =>
    rcases ht z with hsame | ⟨origin, hbefore, hafter⟩
    · exact .same hsame
    · exact .escape hbefore hafter
  | reaps hm hd ht =>
    rcases ht z with hsame | ⟨hnone, hdead⟩
    · exact .same hsame
    · exact .forget (hm.tagged .malloc) hd hdead hnone
  | @allocates _ _ _ _ _ _ _ y t hel hcalls hname hnone ht =>
    by_cases hz : z = y
    · subst hz
      refine .allocate rfl hel hcalls hname hnone ?_
      rw [ht, OrderedMap.get?_insert_self]
    · refine .same ?_
      rw [ht, OrderedMap.get?_insert_of_ne hz]
  | @releases f b i el call origin args y P hel hcalls _ htarget hheap =>
    by_cases hz : z = y
    · subst hz
      have hafter : (x.state.setAllocation z ⟨.released, origin⟩).heap.get? z =
          some ⟨.released, origin⟩ := by rw [State.get?_setAllocation, if_pos rfl]
      rcases hheap with ⟨hnone, rfl⟩ | ⟨kind, hkind, hbefore⟩
      · exact .adopt rfl hel hcalls htarget hnone hafter
      · refine .release rfl hel hcalls htarget ?_ hbefore hafter
        cases kind with
        | allocated => exact .inl rfl
        | escaped => exact .inr rfl
        | released => exact absurd rfl hkind
    · refine .same ?_
      rw [State.get?_setAllocation, if_neg hz]
  | stops => exact .same rfl

/-! ### Where memory would be released again -/

/-- A path is before one step at most. -/
theorem Point.Before.unique {f' : FrameId} {b' : BlockId} {i' : Nat} (h : q.Before f b i)
    (h' : q.Before f' b' i') : f = f' ∧ b = b' ∧ i = i' := by
  cases h with
  | entrance | after =>
    cases h'
    exact ⟨rfl, rfl, rfl⟩

/-- A path that is to evaluate a step stands before it, or a checker was asked there. -/
theorem Looks.before_cases (h : Looks p o fs q ⟨.before b i, f, none⟩) :
    (q.Pends p o fs ∧ q.Before f b i) ∨ ∃ tag, q = ⟨.before b i, f, tag⟩ := by
  cases h with
  | heads hpends hheads =>
    cases hheads with
    | before hbefore _ _ => exact .inl ⟨hpends, hbefore⟩
  | told | before => exact .inr ⟨_, rfl⟩

theorem Looks.kind_cases (h : Looks p o fs q ⟨.before b i, f, none⟩) :
    q.kind = .entrance b ∨ (∃ j, i = j + 1 ∧ q.kind = .after b j) ∨ q.kind = .before b i := by
  rcases h.before_cases with ⟨-, hbefore⟩ | ⟨tag, rfl⟩
  · cases hbefore with
    | entrance => exact .inl rfl
    | after => exact .inr (.inl ⟨_, rfl, rfl⟩)
  · exact .inr (.inr rfl)

/-- **Where checkers look at a path** that is to evaluate a step: there, or at the end of the step before,
if that was a call that was not followed. -/
theorem Looks.next (h : Looks p o fs q ⟨.before b i, f, none⟩)
    (hel : Frames.HasStep p fs f b i el) (h' : Looks p o fs q q') :
    q' = ⟨.before b i, f, none⟩ ∨ ∃ j, i = j + 1 ∧ q' = ⟨.after b j, f, none⟩ ∧ Skips p o fs f b j := by
  obtain ⟨block, hblock, hel⟩ := hel
  -- the block does not end before the step
  have hends : ∀ {f' b' i' block'}, q.Before f b i → q.Before f' b' i' →
      Frames.HasBlock p fs f' b' block' → block'.elements[i']? ≠ none := by
    rintro f' b' i' block' hbefore hbefore' hblock' hnone
    obtain ⟨rfl, rfl, rfl⟩ := hbefore.unique hbefore'
    obtain rfl := hblock.unique hblock'
    cases hel.symm.trans hnone
  rcases h.before_cases with ⟨hpends, hbefore⟩ | ⟨tag, rfl⟩
  · cases h' with
    | heads _ hheads =>
      cases hheads with
      | entrance hleads => cases hleads <;> cases hbefore
      | before hbefore' _ _ =>
        obtain ⟨rfl, rfl, rfl⟩ := hbefore.unique hbefore'
        exact .inl rfl
      | exit hbefore' hblock' hnone | finish hbefore' hblock' hnone _ =>
        exact absurd hnone (hends hbefore hbefore' hblock')
      | leave | ended | back => cases hbefore
      | skipped hskips =>
        cases hbefore
        exact .inr ⟨_, rfl, rfl, hskips⟩
    | @told kind _ checker _ =>
      -- a checker was asked at the end of the step before
      rcases hpends.tag with htag | ⟨b', j, hkind, hskips⟩
      · cases htag
      · cases hkind
        cases hbefore
        exact .inr ⟨_, rfl, rfl, hskips⟩
    | before | exit => cases hbefore
  · cases h' with
    | heads _ hheads =>
      cases hheads with
      | entrance hleads => cases hleads
      | before hbefore' _ _ | exit hbefore' _ _ | finish hbefore' _ _ _ => cases hbefore'
    | told | before => exact .inl rfl

/-- A path still awaits the step where a checker was asked about something else. -/
theorem Awaits.tagged {checker : Checker} (hel : Frames.HasStep p fs f b i el)
    (hq : q = ⟨.before b i, f, none⟩ ∧ checker ≠ .malloc ∨
      ∃ j, i = j + 1 ∧ q = ⟨.after b j, f, none⟩ ∧ Skips p o fs f b j) :
    Awaits p o fs (q.tagged checker) f b i := by
  rcases hq with ⟨rfl, hne⟩ | ⟨j, rfl, rfl, hskips⟩
  · refine ⟨.told trivial, fun h => hne ?_⟩
    exact some.inj (congrArg Point.tag h)
  · obtain ⟨block, hblock, hel⟩ := hel
    refine ⟨.heads ⟨.inr ⟨b, j, rfl, hskips⟩, fun h => ?_, fun h => ?_⟩ (.before .after hblock hel),
      fun h => ?_⟩
    · cases h
    · cases h
    · cases congrArg Point.kind h

/-- What is released twice ends the path. -/
theorem Says.sink_of_released (h : Says p fs c x y) (hpoint : y.point = ⟨.before b i, f, some .malloc⟩)
    (hel : Frames.HasStep p fs f b i el) (hcalls : el.Calls p "free" call args)
    (htarget : x.state.target? c f args = some z) (hz : x.state.heap.get? z = some ⟨.released, origin⟩) :
    y.sink = true := by
  cases h with
  | @hears q _ _ hquiet _ =>
    obtain ⟨el', hel', hretains⟩ := hquiet b i (congrArg Point.kind hpoint)
    rw [show q.frame = f from congrArg Point.frame hpoint] at hel'
    obtain rfl := hel.unique hel'
    exact absurd hcalls (hretains call args)
  | reaps hm _ _ => cases hm <;> cases congrArg Point.kind hpoint
  | allocates hel' hcalls' hname _ _ =>
    cases hpoint
    obtain rfl := hel.unique hel'
    obtain ⟨rfl, -, -⟩ := hcalls.unique hcalls'
    exact absurd hname (by decide)
  | releases hel' hcalls' _ htarget' hheap =>
    cases hpoint
    obtain rfl := hel.unique hel'
    obtain ⟨-, rfl, rfl⟩ := hcalls.unique hcalls'
    cases htarget.symm.trans htarget'
    rcases hheap with ⟨hnone, -⟩ | ⟨kind, hkind, hbefore⟩
    · cases hz.symm.trans hnone
    · cases hz.symm.trans hbefore
      exact absurd rfl hkind
  | stops => rfl

/-- **Releasing twice ends paths.** From where released memory would be released next, every edge leads
to a sink or to where it still would be, unless the pointer is null. -/
theorem Edge.sink_of_released (hs : fs.Stacked p o) (hedge : Edge p o fs x y) (hlaw : Lawful p fs c x y)
    (hx : Awaits p o fs x.point f b i) (hel : Frames.HasStep p fs f b i el)
    (hcalls : el.Calls p "free" call args) (htarget : x.state.target? c f args = some z)
    (hz : x.state.heap.get? z = some ⟨.released, origin⟩) (hnull : ¬ x.state.GivesNull c f args) :
    y.sink = true ∨ Awaits p o fs y.point f b i := by
  have htold : ∀ {q checker t sink}, y = ⟨q.tagged checker, t, sink⟩ → Looks p o fs x.point q →
      y.sink = true ∨ Awaits p o fs y.point f b i := by
    rintro q checker t sink rfl hlooks
    rcases hx.looks.next hel hlooks with rfl | hafter
    · by_cases hmalloc : checker = .malloc
      · subst hmalloc
        exact .inl ((hlaw.told rfl).sink_of_released rfl hel hcalls htarget hz)
      · exact .inr (.tagged hel (.inl ⟨rfl, hmalloc⟩))
    · exact .inr (.tagged hel (.inr hafter))
  -- a path does not come to another place before the step
  have hnever : ∀ {q}, Looks p o fs x.point q → (∀ b i, q.kind ≠ .before b i) →
      (∀ b i, q.kind ≠ .after b i) → False := by
    intro q hlooks hbefore hafter
    rcases hx.looks.next hel hlooks with rfl | ⟨j, -, rfl, -⟩
    · exact hbefore b i rfl
    · exact hafter b j rfl
  cases hedge with
  | tell hlooks _ _ => exact htold rfl hlooks
  | evaluate hlooks _ _ _ _ _ _ _ _ _ => exact htold (q := ⟨_, _, none⟩) rfl hlooks
  | pause hpends hheads hkind _ =>
    rcases hx.looks.next hel (.heads hpends hheads) with rfl | ⟨j, -, rfl, -⟩
    · refine .inr ⟨.before, fun h => ?_⟩
      cases congrArg Point.tag h
    · rcases hkind with ⟨_, _, h⟩ | ⟨_, h⟩ <;> cases h
  | step hlooks _ _ _ =>
    rcases hx.looks.next hel hlooks with heq | ⟨j, -, heq, -⟩
    · cases heq
      rcases hlaw.passed rfl with hkind | ⟨site, hkind⟩ | ⟨el', hel', hfree⟩
      · rcases hx.looks.kind_cases with h | ⟨j, rfl, h⟩ | h <;> cases hkind.symm.trans h
      · rcases hx.looks.kind_cases with h | ⟨j, -, h⟩ | h <;> cases hkind.symm.trans h
      · obtain rfl := hel.unique hel'
        rcases hfree call args hcalls with hpoint | ⟨-, hpasses⟩
        · exact absurd hpoint hx.waiting
        · exact absurd (hpasses z htarget) hnull
    · cases congrArg Point.kind heq
  | call hlooks _ _ =>
    rcases hx.looks.next hel hlooks with heq | ⟨j, -, heq, -⟩
    · cases heq
      obtain ⟨el', hel', hretains⟩ := hlaw.entered rfl
      obtain rfl := hel.unique hel'
      exact absurd hcalls (hretains call args)
    · cases congrArg Point.kind heq
  | leave hlooks _ _ _ | finish hlooks | enter hlooks _ =>
    exact (hnever hlooks (fun _ _ h => by cases h) fun _ _ h => by cases h).elim
  | giveUp hpends hleads =>
    exact (hnever (.heads hpends (.entrance hleads)) (fun _ _ h => by cases h)
      fun _ _ h => by cases h).elim
  | giveBack _ hpoint =>
    rcases hx.looks.kind_cases with h | ⟨j, -, h⟩ | h <;> rw [hpoint] at h <;> cases h
  | resume hg hpoint _ =>
    rcases hpoint with hpoint | ⟨checker, hpoint⟩
    · rcases hx.looks.kind_cases with h | ⟨j, -, h⟩ | h <;> rw [hpoint] at h <;> cases h
    · -- nobody returns from a call that was not followed
      rcases hx.looks.before_cases with ⟨hpends, -⟩ | ⟨tag, hpoint'⟩
      · rw [hpoint] at hpends
        rcases hpends.tag with htag | ⟨b', j, hkind, hskips⟩
        · cases htag
        · cases hkind
          exact absurd hskips (hs.not_skips hg)
      · cases congrArg Point.kind (hpoint.symm.trans hpoint')

end

/-- **What becomes of allocated memory.** On every edge of the graph of an exploration, and for every
symbol, what is known of its memory stays the same, or it changes in one of the ways. Where released
memory would be released next, and the pointer is not known to be null, every edge leads to a sink or to
where it still would be. -/
theorem Exploration.memory_follows {u : SourceUnit} {file : String} {p : Program} {o : Options}
    {main : FunctionId} {body : FunctionBody} {e : Exploration} {m n : NodeId} {x y : PathNode}
    (hu : Program.ofUnit u file = .ok p) (hf : (p.function main).body = some body)
    (hmalloc : .malloc ∈ o.checkers) (h : Reached o p main e) (hmn : m ∈ e.graph.preds n)
    (hx : e.graph.node? m = some x) (hy : e.graph.node? n = some y) :
    (∀ z, MemoryChange p e.frames e.catalog x y z) ∧
      ∀ f b i el call args z origin, Awaits p o e.frames x.point f b i →
        Frames.HasStep p e.frames f b i el → el.Calls p "free" call args →
        x.state.target? e.catalog f args = some z →
        x.state.heap.get? z = some ⟨.released, origin⟩ → ¬ x.state.GivesNull e.catalog f args →
        y.sink = true ∨ Awaits p o e.frames y.point f b i := by
  obtain ⟨globals, hp⟩ := Program.ofUnit_built hu
  have hlaw := (h.audited hp hf hmalloc).tracks.step hmn hx hy
  have hedge := (h.records.tracks.step hmn hx hy).edge
  refine ⟨fun z => ?_, fun f b i el call args z origin hawaits hel hcalls htarget hz hnull => ?_⟩
  · by_cases htag : y.point.tag = some .malloc
    · exact (hlaw.told htag).change z
    · exact .same (by rw [hedge.heap_eq htag])
  · exact hedge.sink_of_released h.records.stacked hlaw hawaits hel hcalls htarget hz hnull

/-- The unit `void *p; void f(void) { free(p); if (p) return; free(p); }`. -/
def releasingUnit : SourceUnit :=
  let span : Span := .point ⟨1, 1⟩
  let release : Stmt := .expr ⟨1, 1⟩ (.call span "free" [.ident span "p"])
  { items := [
      .global ⟨"p", .pointer .void, none, false, ⟨1, 1⟩⟩,
      .plain "f" .void [] [release, .ifThen ⟨1, 1⟩ (.ident span "p") (.return ⟨1, 1⟩ none) none, release]]
    expansions := [] }

/-- Allocated memory is followed, and nothing else is looked at. -/
def releaseOptions : Options := { checkers := [.malloc] }

/-- The exploration comes to where released memory is released again, as the pointer is null, and goes
on with the state that it has. -/
theorem Exploration.exists_null_release : ∃ p body e m n s z, Program.ofUnit releasingUnit "a.c" = .ok p ∧
    (p.function ⟨0⟩).body = some body ∧ Reached releaseOptions p ⟨0⟩ e ∧
      Frames.HasStep p e.frames topFrame ⟨3⟩ 2 (.expr ⟨7⟩ true) ∧
      Element.Calls p (.expr ⟨7⟩ true) "free" ⟨7⟩ [⟨6⟩] ∧ m ∈ e.graph.preds n ∧
      e.graph.node? m = some ⟨⟨.after ⟨3⟩ 1, topFrame, none⟩, s, false⟩ ∧
      e.graph.node? n = some ⟨⟨.after ⟨3⟩ 2, topFrame, none⟩, s, false⟩ ∧
      s.target? e.catalog topFrame [⟨6⟩] = some z ∧ s.heap.get? z = some ⟨.released, ⟨2⟩⟩ := by
  have hcheck : (Program.ofUnit releasingUnit "a.c").toOption.any (fun p =>
      (p.function ⟨0⟩).body.any fun body =>
        (explore releaseOptions p ⟨0⟩).toOption.any fun e => decide
          ((body.graph.block? ⟨3⟩).any (·.elements[2]? = some (.expr ⟨7⟩ true)) ∧
            (p.expr ⟨7⟩).op = .call ⟨1⟩ [⟨6⟩] ∧ (p.function ⟨1⟩).name = "free" ∧
            e.frames.frame? topFrame = some ⟨none, ⟨0⟩, none, 0⟩ ∧ (⟨13⟩ : NodeId) ∈ e.graph.preds ⟨14⟩ ∧
            e.graph.node? ⟨13⟩ = some ⟨⟨.after ⟨3⟩ 1, topFrame, none⟩, e.graph.state ⟨13⟩, false⟩ ∧
            e.graph.node? ⟨14⟩ = some ⟨⟨.after ⟨3⟩ 2, topFrame, none⟩, e.graph.state ⟨13⟩, false⟩ ∧
            ((e.graph.state ⟨13⟩).target? e.catalog topFrame [⟨6⟩]).any fun z =>
              (e.graph.state ⟨13⟩).heap.get? z = some ⟨.released, ⟨2⟩⟩)) = true := by
    decide +kernel
  obtain ⟨p, hu, hcheck⟩ := exists_ok_of_any hcheck
  obtain ⟨body, hbody, hcheck⟩ := (any_eq_true _ _).1 hcheck
  obtain ⟨e, hrun, hcheck⟩ := exists_ok_of_any hcheck
  obtain ⟨hstep, hop, hname, hframe, hmn, hm, hn, hreleased⟩ := of_decide_eq_true hcheck
  obtain ⟨block, hb, hel⟩ := (any_eq_true _ _).1 hstep
  obtain ⟨z, hz, hheap⟩ := (any_eq_true _ _).1 hreleased
  exact ⟨p, body, e, ⟨13⟩, ⟨14⟩, _, z, hu, hbody, .ended hrun,
    ⟨block, ⟨body, ⟨_, hframe, hbody⟩, hb⟩, of_decide_eq_true hel⟩, ⟨true, ⟨1⟩, rfl, hop, hname⟩, hmn, hm,
    hn, hz, of_decide_eq_true hheap⟩

/-- Where the pointer is null, the path goes on: there is an edge from a node where memory that was
released would be released again, to a node after that. -/
theorem Exploration.exists_released_again : ∃ p body e m n x y f b i el call args z origin,
    Program.ofUnit releasingUnit "a.c" = .ok p ∧ (p.function ⟨0⟩).body = some body ∧
      Checker.malloc ∈ releaseOptions.checkers ∧ Reached releaseOptions p ⟨0⟩ e ∧ m ∈ e.graph.preds n ∧
      e.graph.node? m = some x ∧ e.graph.node? n = some y ∧ Awaits p releaseOptions e.frames x.point f b i ∧
      Frames.HasStep p e.frames f b i el ∧ el.Calls p "free" call args ∧
      x.state.target? e.catalog f args = some z ∧
      x.state.heap.get? z = some ⟨.released, origin⟩ ∧ y.sink = false ∧ y.point.kind = .after b i ∧
      ¬ Awaits p releaseOptions e.frames y.point f b i := by
  obtain ⟨p, body, e, m, n, s, z, hu, hf, hreached, ⟨last, hblock, hel⟩, hcalls, hmn, hm, hn, htarget,
    hheap⟩ := exists_null_release
  refine ⟨p, body, e, m, n, _, _, topFrame, ⟨3⟩, 2, .expr ⟨7⟩ true, ⟨7⟩, [⟨6⟩], z, ⟨2⟩, hu, hf,
    mem_singleton_self _, hreached, hmn, hm, hn, ⟨.heads ?_ (.before .after hblock hel), ?_⟩,
    ⟨last, hblock, hel⟩, hcalls, htarget, hheap, rfl, rfl, fun h => ?_⟩
  · exact pends_plain (fun _ _ h => by cases h) fun _ h => by cases h
  · exact fun h => by cases h
  · rcases h.looks.kind_cases with h | ⟨j, hj, h⟩ | h <;> cases h
    cases hj

/-- What becomes of memory on that edge. -/
theorem Exploration.memory_follows_released : ∃ p body e m n x y,
    Program.ofUnit releasingUnit "a.c" = .ok p ∧ (p.function ⟨0⟩).body = some body ∧
      Checker.malloc ∈ releaseOptions.checkers ∧ Reached releaseOptions p ⟨0⟩ e ∧ m ∈ e.graph.preds n ∧
      e.graph.node? m = some x ∧ e.graph.node? n = some y ∧
      (∃ z, x.state.heap.get? z = some ⟨.released, ⟨2⟩⟩) ∧
      (∀ z, MemoryChange p e.frames e.catalog x y z) ∧
      ∀ f b i el call args z origin, Awaits p releaseOptions e.frames x.point f b i →
        Frames.HasStep p e.frames f b i el → el.Calls p "free" call args →
        x.state.target? e.catalog f args = some z →
        x.state.heap.get? z = some ⟨.released, origin⟩ → ¬ x.state.GivesNull e.catalog f args →
        y.sink = true ∨ Awaits p releaseOptions e.frames y.point f b i := by
  obtain ⟨p, body, e, m, n, s, z, hu, hf, hreached, -, -, hmn, hm, hn, -, hheap⟩ := exists_null_release
  have hmalloc : Checker.malloc ∈ releaseOptions.checkers := mem_singleton_self _
  exact ⟨p, body, e, m, n, _, _, hu, hf, hmalloc, hreached, hmn, hm, hn, ⟨z, hheap⟩,
    Exploration.memory_follows hu hf hmalloc hreached hmn hm hn⟩

end PathScout

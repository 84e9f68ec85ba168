import PathScout.Proofs.ExplorationLaws
import PathScout.Proofs.NamingLaws

/-!
# Actions that cannot fail

Most actions of an exploration always succeed and only add to what is known: regions, symbols, nodes
and reports. They make no node pending and enter no function.

* `Exploration.Stays`: what such an action does to an exploration.
* `Exploring.Ends`: an action succeeds, in a way that satisfies a condition.
* `Exploring.Quiet`: the actions that cannot fail and only add.
* `Exploring.quiet_consult`, `Exploring.quiet_conservativeCall`: asking checkers, and calls that are
  not followed, are such actions.
-/

namespace PathScout

open Naming

/-- Something was added to what is known; frames, pending nodes and notes are the same. -/
structure Exploration.Stays (e e' : Exploration) : Prop where
  le : e.catalog ≤ e'.catalog
  node {n : NodeId} {x : PathNode} : e.graph.node? n = some x → e'.graph.node? n = some x
  frames : e'.frames = e.frames
  worklist : e'.worklist = e.worklist
  coverage : e'.coverage = e.coverage

namespace Exploration.Stays

variable {e e' e'' : Exploration}

theorem refl (e : Exploration) : e.Stays e := ⟨le_rfl, id, rfl, rfl, rfl⟩

theorem trans (h : e.Stays e') (h' : e'.Stays e'') : e.Stays e'' where
  le := h.le.trans h'.le
  node hn := h'.node (h.node hn)
  frames := h'.frames.trans h.frames
  worklist := h'.worklist.trans h.worklist
  coverage := h'.coverage.trans h.coverage

theorem program (h : e.Stays e') : e'.catalog.program = e.catalog.program := h.le.program

end Exploration.Stays

namespace Exploring

variable {α β : Type} {e e' : Exploration} {a : α}

/-! ### Actions that succeed -/

/-- The action succeeds, in a way that satisfies the condition. -/
def Ends (x : Exploring α) (e : Exploration) (post : α → Exploration → Prop) : Prop :=
  ∃ a e', x e = .ok (a, e') ∧ post a e'

section

variable {x : Exploring α} {f : α → Exploring β} {post post' : α → Exploration → Prop}
  {post₂ : β → Exploration → Prop}

theorem Ends.imp (h : x.Ends e post) (himp : ∀ a d, post a d → post' a d) : x.Ends e post' := by
  obtain ⟨a, d, hx, hpost⟩ := h
  exact ⟨a, d, hx, himp a d hpost⟩

theorem Ends.and (h : x.Ends e post) (h' : x.Ends e post') :
    x.Ends e fun a d => post a d ∧ post' a d := by
  obtain ⟨a, d, hx, hpost⟩ := h
  obtain ⟨b, d', hx', hpost'⟩ := h'
  cases hx.symm.trans hx'
  exact ⟨a, d, hx, hpost, hpost'⟩

/-- A sequence succeeds if its first part does and its second part does after it. -/
theorem Ends.bind (h : x.Ends e post) (hf : ∀ a d, post a d → (f a).Ends d post₂) :
    (x >>= f).Ends e post₂ := by
  obtain ⟨a, d, hx, hpost⟩ := h
  obtain ⟨b, e', hb, hpost'⟩ := hf a d hpost
  exact ⟨b, e', bind_eq_ok.2 ⟨a, d, hx, hb⟩, hpost'⟩

theorem ends_pure (h : post a e) : (pure a : Exploring α).Ends e post := ⟨a, e, rfl, h⟩

theorem ends_query_bind {read : Exploration → α} (h : (f (read e)).Ends e post₂) :
    (query read >>= f).Ends e post₂ := h

theorem ends_ite {p : Prop} [Decidable p] {y : Exploring α} (hx : p → x.Ends e post)
    (hy : ¬ p → y.Ends e post) : (if p then x else y : Exploring α).Ends e post := by
  split
  · next hp => exact hx hp
  · next hp => exact hy hp

end

/-! ### Actions that only add -/

/-- The action cannot fail and only adds to what is known. -/
def Quiet (x : Exploring α) : Prop := ∀ e, x.Ends e fun _ e' => e.Stays e'

theorem Quiet.bind {x : Exploring α} {f : α → Exploring β} (hx : x.Quiet)
    (hf : ∀ a, (f a).Quiet) : (x >>= f).Quiet := fun e =>
  (hx e).bind fun a d hd => (hf a d).imp fun _ _ h => hd.trans h

theorem Quiet.ite {p : Prop} [Decidable p] {x y : Exploring α} (hx : x.Quiet) (hy : y.Quiet) :
    (if p then x else y : Exploring α).Quiet := by
  split
  · exact hx
  · exact hy

theorem quiet_pure (a : α) : (pure a : Exploring α).Quiet := fun e => ends_pure (.refl e)

theorem quiet_query (read : Exploration → α) : (query read).Quiet := fun e => ⟨read e, e, rfl, .refl e⟩

theorem quiet_stateOf (n : NodeId) : (stateOf n).Quiet := quiet_query _

theorem ends_naming {x : Naming α} (hx : x.Grows) :
    (naming x).Ends e fun a e' => a = (x e.catalog).1 ∧ e.Stays e' :=
  ⟨_, _, rfl, rfl, hx e.catalog, id, rfl, rfl, rfl⟩

theorem quiet_naming {x : Naming α} (hx : x.Grows) : (naming x).Quiet := fun e =>
  ⟨_, _, rfl, hx e.catalog, id, rfl, rfl, rfl⟩

theorem stays_arrived (e : Exploration) (pred : NodeId) (x : PathNode) :
    e.Stays (arrived e pred x) := ⟨le_rfl, node?_arrived_of_node?, rfl, rfl, rfl⟩

theorem quiet_arrive (pred : NodeId) (x : PathNode) : (arrive pred x).Quiet := fun e =>
  ⟨_, _, rfl, stays_arrived e pred x⟩

theorem quiet_settle (pred : NodeId) (point : Point) (s : State) : (settle pred point s).Quiet :=
  (quiet_stateOf pred).bind fun _ => .ite (quiet_pure _) ((quiet_arrive _ _).bind fun _ => quiet_pure _)

theorem quiet_report (n : NodeId) (findings : List Finding) : (report n findings).Quiet := fun _ =>
  ⟨_, _, rfl, le_rfl, id, rfl, rfl, rfl⟩

/-! ### Asking checkers -/

/-- The node stands at a point of this kind in this frame, whoever made it. -/
def Stands (e : Exploration) (n : NodeId) (point : Point) : Prop :=
  ∃ x, e.graph.node? n = some x ∧ x.point.kind = point.kind ∧ x.point.frame = point.frame

theorem Stands.mono {n : NodeId} {point : Point} (h : Stands e n point) (he : e.Stays e') :
    Stands e' n point := by
  obtain ⟨x, hx, hkind, hframe⟩ := h
  exact ⟨x, he.node hx, hkind, hframe⟩

/-- Something was added, and the path stands where it stood. -/
structure Waits (e : Exploration) (pred : NodeId) (point : Point) (n : NodeId) (e' : Exploration) :
    Prop where
  stays : e.Stays e'
  stands : Stands e pred point → Stands e' n point

theorem waits_arrived {pred : NodeId} {x : PathNode} {point : Point}
    (hkind : x.point.kind = point.kind) (hframe : x.point.frame = point.frame) :
    Waits e pred point (e.graph.add x).1.1 (arrived e pred x) :=
  ⟨stays_arrived e pred x, fun _ => ⟨x, node?_arrived e pred x, hkind, hframe⟩⟩

variable {pred : NodeId} {point : Point}

theorem ends_settle (checker : Checker) (s : State) :
    (settle pred (point.tagged checker) s).Ends e (Waits e pred point) := by
  refine ends_query_bind (ends_ite (fun _ => ends_pure ⟨.refl e, id⟩) fun _ => ?_)
  exact ⟨_, _, rfl, waits_arrived rfl rfl⟩

/-- A step to a point is a step in the graph at most, and the path stands in the state that it was
to have. -/
structure Settled (e : Exploration) (s : State) (n : NodeId) (e' : Exploration) : Prop where
  stays : e.Stays e'
  catalog_eq : e'.catalog = e.catalog
  reports_eq : e'.reports = e.reports
  state_eq : e'.graph.state n = s

theorem ends_settle_state (s : State) : (settle pred point s).Ends e (Settled e s) := by
  refine ends_query_bind (ends_ite (fun h => ends_pure ⟨.refl e, rfl, rfl, h⟩) fun _ => ?_)
  exact ⟨_, _, rfl, stays_arrived e _ _, rfl, rfl, PathGraph.state_eq (node?_arrived e _ _)⟩

/-- What a checker says can be done. If the path goes on, it stands where it stood. -/
theorem ends_obey (checker : Checker) (verdict : Verdict) :
    (obey pred (point.tagged checker) verdict).Ends e fun n? e' => e.Stays e' ∧
      ∀ n, n? = some n → Waits e pred point n e' := by
  cases verdict with
  | pass =>
    refine ends_pure ⟨.refl e, ?_⟩
    rintro n ⟨⟩
    exact ⟨.refl e, id⟩
  | proceed s =>
    refine (ends_settle checker s).bind fun n d hn => ends_pure ⟨hn.stays, ?_⟩
    rintro m ⟨⟩
    exact hn
  | report s findings =>
    have harrive : (arrive pred ⟨point.tagged checker, s, false⟩).Ends e
      fun a d => Waits e pred point a.1 d := ⟨_, _, rfl, waits_arrived rfl rfl⟩
    refine harrive.bind fun a d ha => (quiet_report a.1 findings d).bind fun _ d' hd' => ?_
    refine ends_pure ⟨ha.stays.trans hd', ?_⟩
    rintro m ⟨⟩
    exact ⟨ha.stays.trans hd', fun h => (ha.stands h).mono hd'⟩
  | stop s findings =>
    exact (quiet_arrive _ _ e).bind fun n d hn => (quiet_report _ _ d).bind fun _ d' hd' =>
      ends_pure ⟨hn.trans hd', fun m hm => nomatch hm⟩

theorem ends_consultAll (o : Options) (visits : Nat) (event : Event) (checkers : List Checker) :
    (consultAll o point visits event checkers pred).Ends e fun n? e' => e.Stays e' ∧
      ∀ n, n? = some n → Waits e pred point n e' := by
  induction checkers generalizing pred e with
  | nil =>
    refine ends_pure ⟨.refl e, ?_⟩
    rintro n ⟨⟩
    exact ⟨.refl e, id⟩
  | cons checker rest ih =>
    refine ends_query_bind ?_
    refine (quiet_naming (checker.grows_check event _) e).bind fun verdict d hd => ?_
    refine (ends_obey checker verdict).bind fun next? d' hnext => ?_
    cases next? with
    | none => exact ends_pure ⟨hd.trans hnext.1, fun n hn => nomatch hn⟩
    | some m =>
      have hm := hnext.2 m rfl
      refine ih.imp fun n? e' hn => ⟨(hd.trans hnext.1).trans hn.1, fun n hsome => ?_⟩
      have hlast := hn.2 n hsome
      exact ⟨(hd.trans hnext.1).trans hn.1, fun h => hlast.stands (hm.stands (h.mono hd))⟩

/-- **Asking checkers.** It only adds, and a path that goes on stands where it stood. -/
theorem ends_consult (o : Options) (visits : Nat) (event : Event) :
    (consult o pred point visits event).Ends e fun n? e' => e.Stays e' ∧
      ∀ n, n? = some n → Waits e pred point n e' := ends_consultAll o visits event o.checkers

theorem quiet_consult (o : Options) (n : NodeId) (point : Point) (visits : Nat) (event : Event) :
    (consult o n point visits event).Quiet := fun _ =>
  (ends_consult o visits event).imp fun _ _ h => h.1

/-! ### Evaluating -/

variable {o : Options} {spot : Spot}

theorem quiet_ask (n : NodeId) (event : Event) : (ask o spot n event).Quiet := quiet_consult _ _ _ _ _

theorem quiet_read (s : State) (location : Value) (t : CType) : (read o s location t).Quiet := by
  unfold read
  split
  · exact quiet_naming (StorePolicy.grows_retrieve _ _ _ _)
  · exact quiet_pure _

theorem quiet_evalLoad (e place : ExprId) : (evalLoad o spot pred e place).Quiet := by
  refine (quiet_stateOf _).bind fun _ => (quiet_ask _ _).bind fun n? => ?_
  cases n? with
  | none => exact quiet_pure _
  | some n =>
    exact (quiet_stateOf _).bind fun _ => (quiet_query _).bind fun _ =>
      (quiet_read _ _ _).bind fun _ => quiet_pure _

theorem quiet_store (location value : Value) (span : Span) :
    (store o spot pred location value span).Quiet := by
  refine (quiet_ask _ _).bind fun n? => ?_
  cases n? with
  | none => exact quiet_pure _
  | some n =>
    refine (quiet_stateOf _).bind fun s => ?_
    split
    · exact (quiet_naming (s.grows_write _ _ _)).bind fun _ => quiet_pure _
    · exact quiet_pure _

theorem quiet_evalStore (e place : ExprId) : (evalStore o spot pred e place).Quiet := by
  refine (quiet_stateOf _).bind fun before => (quiet_query _).bind fun program => ?_
  refine (quiet_ask _ _).bind fun n? => ?_
  cases n? with
  | none => exact quiet_pure _
  | some n =>
    refine (quiet_stateOf _).bind fun _ => (quiet_read _ _ _).bind fun old => ?_
    refine (quiet_naming (before.grows_updated _ _ _)).bind fun p => ?_
    refine (quiet_store _ _ _).bind fun stored? => ?_
    cases stored? with
    | none | some q => exact quiet_pure _

theorem quiet_evalByChecker (call : CallEvent) (checkers : List Checker) :
    (evalByChecker o spot pred call checkers).Quiet := by
  induction checkers with
  | nil => exact quiet_pure _
  | cons checker rest ih =>
    refine (quiet_query _).bind fun scene => ?_
    refine (quiet_naming (checker.grows_evalCall? call scene)).bind fun verdict? => ?_
    cases verdict? with
    | none => exact ih
    | some verdict => exact fun e => (ends_obey checker verdict).bind fun _ _ h => ends_pure h.1

theorem grows_stateInvalidate (s : State) (p : StorePolicy) (request : Invalidation) :
    (s.invalidate p request).Grows :=
  (StorePolicy.grows_invalidate p s.store request).bind fun _ => grows_pure _

/-- A call that is not followed only adds. -/
theorem quiet_conservativeCall (call : CallEvent) : (conservativeCall o spot pred call).Quiet := by
  refine (quiet_stateOf _).bind fun s => quiet_naming ((grows_query _).bind fun regions => ?_)
  refine (grows_stateInvalidate s _ _).bind fun out => (grows_query _).bind fun t => ?_
  dsimp only
  split
  · exact grows_pure _
  · exact (grows_scalarValue _).bind fun _ => grows_pure _

theorem quiet_evalDecl (v : VarId) (init : Option DeclInit) (location : Location) :
    (evalDecl o spot pred v init location).Quiet := by
  refine (quiet_stateOf _).bind fun s => (quiet_naming (grows_var v _)).bind fun r => ?_
  refine (quiet_query _).bind fun program => ?_
  dsimp only
  split
  · exact (quiet_query _).bind fun _ => quiet_pure _
  · exact (quiet_naming (s.grows_writeList _ _ _ _ _)).bind fun _ => quiet_pure _
  · split
    · exact (quiet_naming (s.grows_writeText _ _ _)).bind fun _ => quiet_pure _
    · refine (quiet_store _ _ _).bind fun stored? => ?_
      cases stored? with
      | none | some q => exact quiet_pure _

end Exploring

end PathScout

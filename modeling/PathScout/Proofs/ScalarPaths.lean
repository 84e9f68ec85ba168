import PathScout.Proofs.ScalarChecks

/-!
# Paths of scalar functions

What every action of an exploration does to what is known so far: nothing is lost, every node that
a path has to be continued from is made pending once, and the states of pending nodes are those that
scalar functions have.

* `Study.Stale`: which symbols a path with given visits may have met.
* `Study.Waiting`: a pending node as the exploration of a scalar function makes it.
* `Study.Evolves`: what an action does to an exploration. It is transitive.
* `Study.Asks`, `Study.asks_consult`: asking all checkers loses no run.
-/

namespace PathScout

open Exploring

/-- Is a path continued from points of this kind? -/
def PointKind.isResumed : PointKind → Bool
  | before .. | exit _ => false
  | _ => true

/-- Is a path continued from the node? Not from nodes that end it or that checkers made. -/
def PathNode.isResumed (x : PathNode) : Bool :=
  !x.sink && x.point.tag.isNone && x.point.kind.isResumed

namespace Study

variable {k : Study} {e e' e'' : Exploration} {P : Symbol → Prop} {p : Pending} {x y : PathNode}
  {n pred : NodeId} {V : Visits} {s t : State} {event : Event} {a : Symbol} {c : Catalog}
  {kind : PointKind} {point : Point} {r : Option NodeId} {visits : Nat}

/-- The symbols that a path may have met: those of a loop only after the loop was entered as often
as allowed, and no parts of others. -/
def Stale (k : Study) (V : Visits) : Symbol → Prop
  | .conjured e .. => ∃ b block, k.body.graph.block? b = some block ∧ block.loopHead = true ∧
    loopExpr? block = some e ∧ k.options.maxBlockVisits ≤ V.count topFrame b
  | .derived .. => False
  | _ => True

theorem Stale.enter (h : k.Stale V a) (b : BlockId) : k.Stale (V.enter topFrame b) a := by
  cases a with
  | conjured e f t n tag =>
    obtain ⟨b', block, hb, hloop, he, hle⟩ := h
    exact ⟨b', block, hb, hloop, he, hle.trans (Visits.count_le_enter V topFrame topFrame b b')⟩
  | derived => exact h
  | _ => trivial

/-- An atom that a path may have met is not made of others. -/
theorem Stale.operands_eq_nil (h : k.Stale V a) (ha : a.isAtomic = true) : a.operands = [] := by
  cases a with
  | regionValue | conjured => rfl
  | derived => cases h
  | _ => cases ha

/-- The exploration is one of the function, and has no other frames. -/
structure Ready (k : Study) (e : Exploration) : Prop where
  regular : k.Regular e.catalog
  frame : Frames.frame? e.frames topFrame = some ⟨none, k.function, none, 0⟩

/-- The kinds of points that paths of scalar functions are continued from. -/
def resumes : PointKind → Bool
  | .entry | .edge .. | .entrance _ | .after .. | .finish => true
  | _ => false

/-- The node is pending as the exploration makes it: its state is tame, with the symbols that the
visits of its path allow. -/
structure Waiting (k : Study) (e : Exploration) (p : Pending) (x : PathNode) : Prop where
  node : e.graph.node? p.node = some x
  resumed : x.isResumed = true
  kind : resumes x.point.kind = true
  frame : x.point.frame = topFrame
  tame : k.Tame e.catalog (k.Stale p.visits) x.state

/-- What an action does: it only adds, it makes every new node pending from which a path has to be
continued, and no other. -/
structure Evolves (k : Study) (e e' : Exploration) : Prop where
  le : e.catalog ≤ e'.catalog
  ready : k.Ready e'
  node {n : NodeId} {x : PathNode} : e.graph.node? n = some x → e'.graph.node? n = some x
  coverage : e'.coverage = [] → e.coverage = []
  pending {p : Pending} : p ∈ e.worklist.pending → p ∈ e'.worklist.pending
  resumed {n : NodeId} {x : PathNode} : e'.graph.node? n = some x → x.isResumed = true →
    e.graph.node? n = some x ∨ ∃ p ∈ e'.worklist.pending, p.node = n
  waiting {p : Pending} : p ∈ e'.worklist.pending → p ∈ e.worklist.pending ∨ ∃ x, k.Waiting e' p x
  slack : e'.worklist.pending.length + e.graph.size ≤ e.worklist.pending.length + e'.graph.size

theorem Waiting.mono (h : k.Waiting e p x) (he : k.Ready e) (hle : e.catalog ≤ e'.catalog)
    (hnode : ∀ {n x}, e.graph.node? n = some x → e'.graph.node? n = some x) : k.Waiting e' p x :=
  ⟨hnode h.node, h.resumed, h.kind, h.frame, h.tame.mono he.regular hle⟩

theorem Evolves.refl (h : k.Ready e) : k.Evolves e e :=
  ⟨le_rfl, h, id, id, id, fun hn _ => .inl hn, .inl, le_rfl⟩

theorem Evolves.trans (h : k.Evolves e e') (h' : k.Evolves e' e'') : k.Evolves e e'' where
  le := h.le.trans h'.le
  ready := h'.ready
  node hn := h'.node (h.node hn)
  coverage hc := h.coverage (h'.coverage hc)
  pending hp := h'.pending (h.pending hp)
  resumed hn hx := by
    rcases h'.resumed hn hx with hn | hp
    · rcases h.resumed hn hx with hn | ⟨p, hp, hpn⟩
      · exact .inl hn
      · exact .inr ⟨p, h'.pending hp, hpn⟩
    · exact .inr hp
  waiting hp := by
    rcases h'.waiting hp with hp | hw
    · rcases h.waiting hp with hp | ⟨x, hw⟩
      · exact .inl hp
      · exact .inr ⟨x, hw.mono h.ready h'.le h'.node⟩
    · exact .inr hw
  slack := by
    have := h.slack
    have := h'.slack
    omega

/-- Actions that do not touch the graph or the pending nodes. -/
theorem evolves_of_eq (hle : e.catalog ≤ e'.catalog) (hready : k.Ready e')
    (hgraph : e'.graph = e.graph) (hworklist : e'.worklist = e.worklist)
    (hcoverage : e'.coverage = [] → e.coverage = []) : k.Evolves e e' where
  le := hle
  ready := hready
  node hn := hgraph ▸ hn
  coverage := hcoverage
  pending hp := hworklist ▸ hp
  resumed hn _ := .inl (hgraph ▸ hn)
  waiting hp := .inl (hworklist ▸ hp)
  slack := by rw [hgraph, hworklist]

theorem evolves_naming (h : k.Ready e) (hle : e.catalog ≤ c) (hc : k.Regular c) :
    k.Evolves e { e with catalog := c } :=
  evolves_of_eq hle ⟨hc, h.frame⟩ rfl rfl id

/-- A step to a node that no path is continued from. -/
theorem evolves_arrived (h : k.Ready e) (pred : NodeId) (hx : x.isResumed = false) :
    k.Evolves e (arrived e pred x) where
  le := le_rfl
  ready := ⟨h.regular, h.frame⟩
  node hn := node?_arrived_of_node? hn
  coverage := id
  pending := id
  resumed hn hy := by
    rcases node?_of_arrived hn with hn | ⟨-, rfl, -⟩
    · exact .inl hn
    · rw [hx] at hy
      cases hy
  waiting := .inl
  slack := by
    have := size_arrived e pred x
    show e.worklist.pending.length + _ ≤ e.worklist.pending.length + _
    omega

/-- A step to a new node that is made pending. -/
theorem evolves_queued (h : k.Ready e) (pred : NodeId) (hnew : (e.graph.add x).1.2 = true)
    (hw : k.Waiting (arrived e pred x) ⟨(e.graph.add x).1.1, V⟩ x) :
    k.Evolves e (queued (arrived e pred x) (e.graph.add x).1.1 V) := by
  have hmem : ∀ q, q ∈ (queued (arrived e pred x)
      (e.graph.add x).1.1 V).worklist.pending ↔ q = ⟨(e.graph.add x).1.1, V⟩ ∨
      q ∈ e.worklist.pending := fun q => Worklist.mem_push
  exact
    { le := le_rfl
      ready := ⟨h.regular, h.frame⟩
      node := fun {m y} hm => by
        show (arrived e pred x).graph.node? m = some y
        exact node?_arrived_of_node? hm
      coverage := id
      pending := fun hp => (hmem _).2 (.inr hp)
      resumed := fun {m y} hm _ => by
        replace hm : (arrived e pred x).graph.node? m = some y := hm
        rcases node?_of_arrived hm with hm | ⟨hm, -, -⟩
        · exact .inl hm
        · exact .inr ⟨_, (hmem _).2 (.inl rfl), hm.symm⟩
      waiting := fun {q} hq => by
        rcases (hmem q).1 hq with rfl | hq
        · exact .inr ⟨x, hw.node, hw.resumed, hw.kind, hw.frame, hw.tame⟩
        · exact .inl hq
      slack := by
        have hsize := size_arrived e pred x
        rw [if_pos hnew] at hsize
        show (e.worklist.push ⟨(e.graph.add x).1.1, V⟩).pending.length + e.graph.size ≤
          e.worklist.pending.length + (arrived e pred x).graph.size
        rw [Worklist.length_push, hsize]
        omega }

/-- A step to a node that is there already. -/
theorem evolves_again (h : k.Ready e) (pred : NodeId) (hold : (e.graph.add x).1.2 ≠ true) :
    k.Evolves e (arrived e pred x) where
  le := le_rfl
  ready := ⟨h.regular, h.frame⟩
  node hn := node?_arrived_of_node? hn
  coverage := id
  pending := id
  resumed hn _ := (node?_of_arrived hn).imp_right fun hnew => absurd hnew.2.2 hold
  waiting := .inl
  slack := by
    have := size_arrived e pred x
    show e.worklist.pending.length + _ ≤ e.worklist.pending.length + _
    omega

/-- A step to a node that a path is continued from. -/
theorem evolves_advance (h : k.Ready e) (hkind : resumes kind = true)
    (hs : k.Tame e.catalog (k.Stale V) s)
    (hrun : Exploring.advance pred ⟨kind, topFrame, none⟩ s V e = .ok ((), e')) :
    k.Evolves e e' ∧ ∃ n, e'.graph.node? n = some ⟨⟨kind, topFrame, none⟩, s, false⟩ := by
  rw [advance_eq] at hrun
  have hnode := node?_arrived e pred ⟨⟨kind, topFrame, none⟩, s, false⟩
  have hresumed : PathNode.isResumed ⟨⟨kind, topFrame, none⟩, s, false⟩ = true := by
    cases kind with
    | before | exit => cases hkind
    | _ => rfl
  split at hrun
  · next hnew =>
    cases hrun
    exact ⟨evolves_queued h pred hnew ⟨hnode, hresumed, hkind, rfl, hs⟩, _, hnode⟩
  · next hold =>
    cases hrun
    exact ⟨evolves_again h pred hold, _, hnode⟩

/-- The exploration has a node with the number and the state. -/
def HasState (e : Exploration) (n : NodeId) (s : State) : Prop :=
  ∃ y, e.graph.node? n = some y ∧ y.state = s

theorem HasState.state_eq (h : HasState e n s) : e.graph.state n = s := by
  obtain ⟨y, hy, hs⟩ := h
  rw [PathGraph.state_eq hy, hs]

theorem HasState.unique (h : HasState e n s) (h' : HasState e n t) : s = t :=
  h.state_eq.symm.trans h'.state_eq

theorem HasState.mono (h : HasState e n s) (he : k.Evolves e e') : HasState e' n s := by
  obtain ⟨y, hy, hs⟩ := h
  exact ⟨y, he.node hy, hs⟩

/-- A step to a point where no path is continued, if the state changes. -/
theorem evolves_settle (h : k.Ready e) (hpred : HasState e pred t)
    (hpoint : PathNode.isResumed ⟨point, s, false⟩ = false)
    (hrun : settle pred point s e = .ok (n, e')) : k.Evolves e e' ∧ HasState e' n s := by
  unfold settle stateOf at hrun
  rw [query_bind, hpred.state_eq, ite_apply] at hrun
  split at hrun
  · next heq =>
    cases hrun
    exact ⟨.refl h, heq ▸ hpred⟩
  · obtain ⟨a, d, ha, hrest⟩ := bind_eq_ok.1 hrun
    obtain ⟨rfl, rfl⟩ := arrive_eq_ok.1 ha
    obtain ⟨rfl, rfl⟩ := pure_eq_ok.1 hrest
    exact ⟨evolves_arrived h pred hpoint, _, node?_arrived e pred _, rfl⟩

theorem isResumed_tagged (point : Point) (checker : Checker) (s : State) (sink : Bool) :
    PathNode.isResumed ⟨point.tagged checker, s, sink⟩ = false := by
  cases sink with
  | true => rfl
  | false => rfl

theorem evolves_report (h : k.Ready e) (n : NodeId) (findings : List Finding)
    (hrun : report n findings e = .ok ((), e')) : k.Evolves e e' ∧ e'.graph = e.graph := by
  cases hrun
  exact ⟨evolves_of_eq le_rfl ⟨h.regular, h.frame⟩ rfl rfl id, rfl⟩

/-- What a checker says is done: the path goes on in the state that it says, if it does. -/
theorem obey_spec {checker : Checker} {verdict : Verdict} (h : k.Ready e) (hpred : HasState e pred s)
    (hrun : obey pred (point.tagged checker) verdict e = .ok (r, e')) :
    k.Evolves e e' ∧ (∀ t, verdict.next? s = some t → ∃ n, r = some n ∧ HasState e' n t) ∧
      (verdict.next? s = none → r = none) := by
  cases verdict with
  | pass =>
    cases hrun
    refine ⟨.refl h, ?_, fun hnone => nomatch hnone⟩
    rintro t ⟨⟩
    exact ⟨pred, rfl, hpred⟩
  | proceed t =>
    obtain ⟨n, d, hn, hrun⟩ := bind_eq_ok.1 hrun
    cases hrun
    obtain ⟨hev, hstate⟩ := evolves_settle h hpred (isResumed_tagged point checker t false) hn
    refine ⟨hev, ?_, fun hnone => nomatch hnone⟩
    rintro t' ⟨⟩
    exact ⟨n, rfl, hstate⟩
  | report t findings =>
    obtain ⟨a, d, ha, hrest⟩ := bind_eq_ok.1 hrun
    obtain ⟨rfl, rfl⟩ := arrive_eq_ok.1 ha
    obtain ⟨u, d', hreport, hlast⟩ := bind_eq_ok.1 hrest
    obtain ⟨rfl, rfl⟩ := pure_eq_ok.1 hlast
    have harrived := evolves_arrived h pred (isResumed_tagged point checker t false)
    obtain ⟨hev, hgraph⟩ := evolves_report harrived.ready _ findings hreport
    refine ⟨harrived.trans hev, ?_, fun hnone => nomatch hnone⟩
    rintro t' ⟨⟩
    exact ⟨_, rfl, _, hgraph ▸ node?_arrived e pred _, rfl⟩
  | stop t findings =>
    obtain ⟨a, d, ha, hrest⟩ := bind_eq_ok.1 hrun
    obtain ⟨rfl, rfl⟩ := arrive_eq_ok.1 ha
    obtain ⟨u, d', hreport, hlast⟩ := bind_eq_ok.1 hrest
    obtain ⟨rfl, rfl⟩ := pure_eq_ok.1 hlast
    have harrived := evolves_arrived h pred (isResumed_tagged point checker t true)
    obtain ⟨hev, -⟩ := evolves_report harrived.ready _ findings hreport
    exact ⟨harrived.trans hev, fun t ht => (nomatch ht), fun _ => rfl⟩

/-! ### Asking checkers -/

/-- What asking checkers about an event does: it changes ranges only, and does not lose a run that
gets past the event. -/
structure Asks (k : Study) (P : Symbol → Prop) (e : Exploration) (s : State) (event : Event)
    (r : Option NodeId) (e' : Exploration) : Prop where
  evolves : k.Evolves e e'
  next {n : NodeId} : r = some n →
    ∃ m, HasState e' n { s with constraints := m } ∧ TameConstraints e'.catalog P m
  keeps {z : Catalog} {live : VarId → Prop} {κ : Config} {α : Assignment} : e'.catalog ≤ z →
    k.Agrees z live s κ α → k.Passes z κ α event →
    ∃ n t, r = some n ∧ HasState e' n t ∧ k.Agrees z live t κ α

theorem Meets.mono {d : Catalog} (h : k.Meets c P event) (hcd : c ≤ d) : k.Meets d P event := by
  cases event with
  | access location place =>
    refine Or.imp_right ?_ h
    rintro ⟨x, r, hr, hv⟩
    exact ⟨x, r, hr.mono hcd, hv⟩
  | write location value span => exact Value.Plain.mono h hcd
  | _ => exact h

/-- One checker is asked, and then the others in the state that it lets on, if there is one. -/
theorem consultAll_cons {checker : Checker} {rest : List Checker} (h : k.Ready e) (hn : HasState e n s)
    (hs : k.Tame e.catalog P s) (hP : ∀ r, P (.regionValue r .int)) (hframe : point.frame = topFrame)
    (hmeets : k.Meets e.catalog P event)
    (hrun : consultAll k.options point visits event (checker :: rest) n e = .ok (r, e')) :
    ∃ scene out r' d, checker.check event scene e.catalog = out ∧ k.Views s scene ∧
      k.Lets e.catalog P s event out ∧
      obey n (point.tagged checker) out.1 { e with catalog := out.2 } = .ok (r', d) ∧
      k.Evolves e d ∧ out.2 ≤ d.catalog ∧
      (out.1.next? s = none ∧ r = none ∧ e' = d ∨
        ∃ n' m, out.1.next? s = some { s with constraints := m } ∧ TameConstraints out.2 P m ∧
          HasState d n' { s with constraints := m } ∧ k.Tame d.catalog P { s with constraints := m } ∧
          consultAll k.options point visits event rest n' d = .ok (r, e')) := by
  unfold consultAll sceneAt at hrun
  rw [query_bind, naming_bind] at hrun
  obtain ⟨r', d, hobey, hrun⟩ := bind_eq_ok.1 hrun
  have hviews : k.Views s ⟨e.graph.state n, point.tagged checker, visits, e.frames, k.options.store⟩ :=
    ⟨hn.state_eq, hframe, rfl⟩
  have hlets := lets_check checker h.regular hs hP hviews hmeets
  have hnaming := evolves_naming h hlets.le hlets.regular
  obtain ⟨hev, hsome, hnone⟩ := obey_spec hnaming.ready (hn.mono hnaming) hobey
  have hd := hnaming.trans hev
  refine ⟨_, _, r', d, rfl, hviews, hlets, hobey, hd, hev.le, ?_⟩
  cases r' with
  | none =>
    cases hrun
    refine .inl ⟨Option.eq_none_iff_forall_ne_some.2 fun t ht => ?_, rfl, rfl⟩
    obtain ⟨m, hm, -⟩ := hsome t ht
    cases hm
  | some n' =>
    obtain ⟨t, ht⟩ := Option.ne_none_iff_exists'.1 fun hnext => nomatch hnone hnext
    obtain ⟨m, rfl, hm⟩ := hlets.next ht
    obtain ⟨_, ⟨⟩, hstate⟩ := hsome _ ht
    exact .inr ⟨n', m, ht, hm, hstate,
      { hs.mono h.regular hd.le with constraints := hm.mono hev.le }, hrun⟩

theorem asks_consultAll {checkers : List Checker} (h : k.Ready e) (hn : HasState e n s)
    (hs : k.Tame e.catalog P s) (hP : ∀ r, P (.regionValue r .int)) (hframe : point.frame = topFrame)
    (hmeets : k.Meets e.catalog P event)
    (hrun : consultAll k.options point visits event checkers n e = .ok (r, e')) :
    k.Asks P e s event r e' := by
  induction checkers generalizing n e s with
  | nil =>
    cases hrun
    refine ⟨.refl h, ?_, fun _ ha _ => ⟨n, s, rfl, hn, ha⟩⟩
    rintro m ⟨⟩
    exact ⟨s.constraints, hn, hs.constraints⟩
  | cons checker rest ih =>
    obtain ⟨_, out, _, d, -, -, hlets, -, hd, hle, hturn⟩ :=
      consultAll_cons h hn hs hP hframe hmeets hrun
    obtain ⟨hnext, rfl, rfl⟩ | ⟨n', m, hnext, -, hstate, hs', hrun⟩ := hturn
    · refine ⟨hd, fun hm => (nomatch hm), fun hz ha hp => ?_⟩
      obtain ⟨t, ht, -⟩ := hlets.keeps (hle.trans hz) ha hp
      cases hnext.symm.trans ht
    · have hrest := ih hd.ready hstate hs' (hmeets.mono hd.le) hrun
      refine ⟨hd.trans hrest.evolves, hrest.next, fun hz ha hp => ?_⟩
      obtain ⟨t, ht, hrange⟩ := hlets.keeps ((hle.trans hrest.evolves.le).trans hz) ha hp
      cases hnext.symm.trans ht
      exact hrest.keeps hz (ha.withConstraints hrange) hp

/-- **Asking all checkers loses no run.** -/
theorem asks_consult (h : k.Ready e) (hn : HasState e n s) (hs : k.Tame e.catalog P s)
    (hP : ∀ r, P (.regionValue r .int)) (hmeets : k.Meets e.catalog P event)
    (hrun : consult k.options n ⟨kind, topFrame, none⟩ visits event e = .ok (r, e')) :
    k.Asks P e s event r e' := asks_consultAll h hn hs hP rfl hmeets hrun

/-- A path that goes on does so in a state with other ranges, which stands for the same runs. -/
theorem Asks.some_spec (h : k.Asks P e s event (some n) e') (he : k.Ready e)
    (hs : k.Tame e.catalog P s) :
    ∃ m, HasState e' n { s with constraints := m } ∧ k.Tame e'.catalog P { s with constraints := m } ∧
      ∀ {z live κ α}, e'.catalog ≤ z → k.Agrees z live s κ α → k.Passes z κ α event →
        k.Agrees z live { s with constraints := m } κ α := by
  obtain ⟨m, hstate, hm⟩ := h.next rfl
  refine ⟨m, hstate, { hs.mono he.regular h.evolves.le with constraints := hm }, ?_⟩
  intro z live κ α hz ha hp
  obtain ⟨_, t, ⟨⟩, ht, hagrees⟩ := h.keeps hz ha hp
  exact hstate.unique ht ▸ hagrees

/-- A path that ends stands for no run that gets on. -/
theorem Asks.none_spec {z : Catalog} {live : VarId → Prop} {κ : Config} {α : Assignment}
    (h : k.Asks P e s event none e') (hz : e'.catalog ≤ z) (ha : k.Agrees z live s κ α) :
    ¬ k.Passes z κ α event := by
  intro hp
  obtain ⟨m, t, hm, -⟩ := h.keeps hz ha hp
  cases hm

end Study

end PathScout

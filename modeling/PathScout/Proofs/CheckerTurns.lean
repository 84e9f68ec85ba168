import PathScout.Proofs.AllocationPaths

/-!
# The turns of checkers

At one point of a path several checkers may have something to say, and each of them may let the path go
on from a node of its own there. An event has one checker at most that does so, and the events at a point
come in an order, so the nodes at one point can be told apart by whose turn it is, and every edge between
two of them leads to a later turn.

* `Event.speaker?`: the checker that may let a path go on in another state when asked about an event.
* `Point.turn`: whose turn it is at a point. `PathNode.Rises`: an edge leads to a later turn.
* `Exploring.raises_consult`: checkers are asked in turn.
* `Exploration.rises_of_reached`: edges lead to later turns in every graph that an exploration leaves.
-/

namespace PathScout

open Naming List Option Exploring

variable {q z : Point} {n : Nat}

/-! ### Who speaks -/

/-- The checker that may let a path go on in another state when checkers are asked about the event; all
others pass or end the path. -/
def Event.speaker? : Event → Option Checker
  | .element _ => some .divideZero
  | .access .. => some .nullDereference
  | .write .. | .callEnds _ | .dead _ => some .malloc
  | .functionEnds => some .stackAddressEscape
  | .callBegins _ | .condition _ => none

/-- The verdict lets no path go on in another state. -/
def Verdict.Idle : Verdict → Prop
  | .pass | .stop .. => True
  | .proceed _ | .report .. => False

section

variable {scene : Scene} {event : Event} {checker : Checker}

theorem idle_pass : (pure .pass : Naming Verdict).Always Verdict.Idle := always_pure trivial

theorem NullPointer.idle_check (h : event.speaker? ≠ some .nullDereference) :
    (check event scene).Always Verdict.Idle := by
  cases event with
  | access => exact absurd rfl h
  | _ => exact idle_pass

theorem Division.idle_check (h : event.speaker? ≠ some .divideZero) :
    (check event scene).Always Verdict.Idle := by
  cases event with
  | element => exact absurd rfl h
  | _ => exact idle_pass

theorem StackEscape.idle_check (h : event.speaker? ≠ some .stackAddressEscape) :
    (check event scene).Always Verdict.Idle := by
  cases event with
  | functionEnds => exact absurd rfl h
  | element el =>
    cases el with
    | «return» value l =>
      cases value with
      | none => exact idle_pass
      | some value =>
        refine always_query fun c => ?_
        unfold checkReturn
        split <;> exact trivial
    | _ => exact idle_pass
  | _ => exact idle_pass

theorem Allocation.idle_getD {verdict? : Option Verdict}
    (h : ∀ v, verdict? = some v → v.Idle) : (verdict?.getD .pass).Idle := by
  cases verdict? with
  | none => trivial
  | some v => exact h v rfl

theorem Allocation.idle_checkUse {c : Catalog} {v : Value} {span : Span} {verdict : Verdict}
    (h : checkUse scene c v span = some verdict) : verdict.Idle := by
  obtain ⟨x, -, rfl⟩ := map_eq_some_iff.1 h
  trivial

theorem Allocation.idle_check (h : event.speaker? ≠ some .malloc) :
    (check event scene).Always Verdict.Idle := by
  cases event with
  | write | callEnds | dead => exact absurd rfl h
  | callBegins call =>
    refine always_query fun c => ?_
    unfold checkArgs
    split
    · trivial
    · refine idle_getD fun verdict hv => ?_
      obtain ⟨⟨v, i⟩, -, hv⟩ := exists_of_findSome?_eq_some hv
      exact idle_checkUse hv
  | access location place => exact always_query fun c => idle_getD fun verdict hv => idle_checkUse hv
  | _ => exact idle_pass

theorem Garbage.idle_stop (type : BugType) (description : String) (l : Location)
    (culprit : Option ExprId) :
    (stop scene type description l culprit).Always Verdict.Idle := by
  refine always_bind fun program => ?_
  dsimp only
  split <;> exact always_bind fun _ => always_pure trivial

theorem Garbage.idle_check : (check event scene).Always Verdict.Idle := by
  have hholds (place : ExprId) (description : String) (l : Location) : (do
      if ← holdsGarbage scene place then stop scene operationType description l none
      else return .pass : Naming Verdict).Always Verdict.Idle :=
    always_bind fun _ => always_ite (idle_stop _ _ _ _) idle_pass
  cases event with
  | element el =>
    cases el with
    | expr e root =>
      refine always_bind fun x => ?_
      split
      · split
        · exact idle_stop _ _ _ _
        · exact idle_pass
      · exact hholds _ _ _
      · exact hholds _ _ _
      · exact idle_pass
    | «return» value l =>
      cases value with
      | none => exact idle_pass
      | some value => exact always_ite (idle_stop _ _ _ _) idle_pass
    | _ => exact idle_pass
  | callBegins call =>
    unfold check
    dsimp only
    split
    · exact always_bind fun _ => idle_stop _ _ _ _
    · exact idle_pass
  | write location value span => exact always_ite (always_pure trivial) idle_pass
  | condition cond => exact always_ite (always_bind fun _ => idle_stop _ _ _ _) idle_pass
  | _ => exact idle_pass

/-- A checker whose turn it is not lets no path go on in another state. -/
theorem Checker.idle_check (scene : Scene) (h : event.speaker? ≠ some checker) :
    (checker.check event scene).Always Verdict.Idle := by
  cases checker with
  | nullDereference => exact NullPointer.idle_check h
  | undefinedValue => exact Garbage.idle_check
  | divideZero => exact Division.idle_check h
  | stackAddressEscape => exact StackEscape.idle_check h
  | malloc => exact Allocation.idle_check h
  | noReturn => exact idle_pass

/-- Only one checker lets a path go on behind a call that it evaluates. -/
theorem Checker.idle_evalCall? (call : CallEvent) (scene : Scene) (h : checker ≠ .malloc) :
    (checker.evalCall? call scene).Always fun verdict? => ∀ v, verdict? = some v → v.Idle := by
  cases checker with
  | malloc => exact absurd rfl h
  | noReturn =>
    refine always_pure fun v hv => ?_
    unfold NoReturn.evalCall? at hv
    split at hv
    · cases hv
      trivial
    · cases hv
  | _ => exact always_pure fun _ hv => nomatch hv

end

/-! ### Turns -/

/-- The order in which checkers may let a path go on at one point. -/
def Checker.turn : Checker → Nat
  | .divideZero | .stackAddressEscape => 1
  | .nullDereference => 2
  | .malloc => 3
  | .undefinedValue | .noReturn => 0

/-- Whose turn it is at a point. The path itself comes first, but it enters a block after dead
memory was looked at, and comes to the end of a function between two turns. -/
def Point.turn (q : Point) : Nat :=
  match q.tag, q.kind with
  | some checker, _ => checker.turn
  | none, .entrance _ => 4
  | none, .finish => 2
  | none, _ => 0

/-- An edge to a node that a checker made, or to the end of a function, leads to a later turn if it stays
at its point. -/
def PathNode.Rises (x y : PathNode) : Prop :=
  y.sink = false → y.point.tag ≠ none ∨ y.point.kind = .finish →
    x.point.kind = y.point.kind → x.point.frame = y.point.frame → x.point.turn < y.point.turn

/-- If the path is at the second point, it is not yet that turn. -/
def Point.Under (q : Point) (turn : Nat) (z : Point) : Prop :=
  z.kind = q.kind → z.frame = q.frame → z.turn < turn

theorem Point.Under.mono {m : Nat} (h : q.Under m z) (hmn : m ≤ n) : q.Under n z :=
  fun hkind hframe => (h hkind hframe).trans_le hmn

theorem Point.under_of_ne (n : Nat) (h : z.kind ≠ q.kind) : q.Under n z := fun hkind => absurd hkind h

theorem Point.Before.kind_ne {f : FrameId} {b b' : BlockId} {i j : Nat} (h : q.Before f b i) :
    q.kind ≠ .before b' j ∧ q.kind ≠ .exit b' ∧ q.kind ≠ .finish := by
  cases h <;> exact ⟨fun h => (nomatch h), fun h => (nomatch h), fun h => nomatch h⟩

theorem Point.under_tagged {checker : Checker} (h : checker.turn < n) :
    q.Under n (q.tagged checker) := fun _ _ => h

/-- What an action adds: nodes stay, and edges lead to later turns. -/
structure Exploration.Climbs (root : PathNode) (e e' : Exploration) : Prop where
  tracks : e'.graph.Tracks PathNode.Rises root
  node {n : NodeId} {x : PathNode} : e.graph.node? n = some x → e'.graph.node? n = some x

/-- There is a node at which it is not yet that turn. -/
def Exploration.Early (e : Exploration) (q : Point) (turn : Nat) (n : NodeId) : Prop :=
  ∃ x, e.graph.node? n = some x ∧ q.Under turn x.point

section

variable {root : PathNode} {e e' e'' : Exploration} {q : Point} {k m : Nat} {n : NodeId}

theorem Exploration.Climbs.refl (h : e.graph.Tracks PathNode.Rises root) : e.Climbs root e := ⟨h, id⟩

theorem Exploration.Climbs.trans (h : e.Climbs root e') (h' : e'.Climbs root e'') :
    e.Climbs root e'' := ⟨h'.tracks, fun hn => h'.node (h.node hn)⟩

theorem Exploration.Early.climbs (h : e.Early q k n) (he : e.Climbs root e') : e'.Early q k n :=
  have ⟨x, hx, hunder⟩ := h
  ⟨x, he.node hx, hunder⟩

theorem Exploration.Early.mono (h : e.Early q k n) (hkm : k ≤ m) : e.Early q m n :=
  have ⟨x, hx, hunder⟩ := h
  ⟨x, hx, hunder.mono hkm⟩

end

namespace Exploring

variable {α β : Type} {o : Options} {root x y : PathNode} {e e' : Exploration} {n pred : NodeId}
  {q : Point} {s : State} {k m : Nat} {spot : Spot} {V : Visits} {kind : PointKind} {f : FrameId}
  {event : Event} {a place : ExprId} {call : CallEvent} {el : Element} {b : BlockId} {l : Location}
  {p : Program}

/-- If the action succeeds, edges lead to later turns, and the condition is satisfied. -/
def Raises (root : PathNode) (x : Exploring α) (e : Exploration) (post : α → Exploration → Prop) :
    Prop :=
  x.Gives e fun a e' => e.Climbs root e' ∧ post a e'

section

variable {x : Exploring α} {f : α → Exploring β} {post : α → Exploration → Prop}
  {post₂ : β → Exploration → Prop}

theorem Raises.bind (hx : Raises root x e post)
    (hf : ∀ a d, e.Climbs root d → post a d → Raises root (f a) d post₂) :
    Raises root (x >>= f) e post₂ :=
  Gives.bind hx fun a d h => (hf a d h.1 h.2).imp fun _ _ h' => ⟨h.1.trans h'.1, h'.2⟩

theorem raises_pure {a : α} (he : e.graph.Tracks PathNode.Rises root) (h : post a e) :
    Raises root (pure a) e post :=
  gives_pure ⟨.refl he, h⟩

theorem raises_query_bind {read : Exploration → α} (h : Raises root (f (read e)) e post₂) :
    Raises root (query read >>= f) e post₂ := h

theorem raises_ite {c : Prop} [Decidable c] {y : Exploring α} (hx : c → Raises root x e post)
    (hy : ¬ c → Raises root y e post) :
    Raises root (if c then x else y : Exploring α) e post := gives_ite hx hy

theorem raises_throw {err : ExplorationError} : Raises root (throw err : Exploring α) e post :=
  gives_throw

/-- What is looked up changes nothing. -/
theorem Raises.afterLookup {look : α → Prop} (hx : x.Gives e fun a d => look a ∧ d = e)
    (hf : ∀ a, Raises root (f a) e post₂) : Raises root (x >>= f) e post₂ :=
  Gives.bind hx fun a d h => by
    obtain ⟨-, rfl⟩ := h
    exact hf a

theorem Raises.naming {x : Naming α}
    (hf : ∀ c, Raises root (f (x e.catalog).1) { e with catalog := c } post₂) :
    Raises root (naming x >>= f) e post₂ := fun b e' h => by
  obtain ⟨a, d, hx, hrest⟩ := bind_eq_ok.1 h
  cases hx
  obtain ⟨hclimbs, hpost⟩ := hf (x e.catalog).2 b e' hrest
  exact ⟨⟨hclimbs.tracks, hclimbs.node⟩, hpost⟩

end

section

variable (he : e.graph.Tracks PathNode.Rises root)
include he

theorem raises_forM {next : α → Exploring PUnit} {xs : List α}
    (h : ∀ x ∈ xs, ∀ d, e.Climbs root d → Raises root (next x) d fun _ _ => True) :
    Raises root (xs.forM next) e fun _ _ => True := by
  induction xs generalizing e with
  | nil => exact raises_pure he trivial
  | cons x xs ih =>
    refine .bind (h x mem_cons_self e (.refl he)) fun _ d hd _ => ?_
    exact ih hd.tracks fun y hy d' hd' => h y (mem_cons_of_mem x hy) d' (hd.trans hd')

theorem raises_optionForM {next : α → Exploring PUnit} {x? : Option α}
    (h : ∀ x, Raises root (next x) e fun _ _ => True) :
    Raises root (x?.forM next) e fun _ _ => True := by
  cases x? with
  | none => exact raises_pure he trivial
  | some x => exact h x

/-! ### Elementary actions -/

theorem raises_arrive (hx : e.graph.node? pred = some x) (hxy : x.Rises y) :
    Raises root (arrive pred y) e fun a e' => e'.graph.node? a.1 = some y := fun a e' h => by
  obtain ⟨rfl, rfl⟩ := arrive_eq_ok.1 h
  exact ⟨⟨he.arrive hx hxy, node?_arrived_of_node?⟩, node?_arrived e pred y⟩

/-- An action that leaves the graph as it is. -/
theorem raises_of_graph {act : Exploring α} {post : α → Exploration → Prop}
    (h : act.Gives e fun a e' => e'.graph = e.graph ∧ post a e') : Raises root act e post :=
  h.imp fun _ _ ⟨hgraph, hpost⟩ => ⟨⟨hgraph ▸ he, fun hn => hgraph ▸ hn⟩, hpost⟩

theorem raises_silent {act : Exploring α} (h : act.Gives e fun _ e' => e'.graph = e.graph) :
    Raises root act e fun _ _ => True :=
  raises_of_graph he (h.imp fun _ _ hgraph => ⟨hgraph, trivial⟩)

theorem raises_queue : Raises root (queue n V) e fun _ _ => True :=
  raises_silent he fun _ _ h => by
    cases h
    rfl

theorem raises_report {findings : List Finding} :
    Raises root (report n findings) e fun _ e' => e'.graph = e.graph :=
  raises_of_graph he fun _ _ h => by
    cases h
    exact ⟨rfl, rfl⟩

theorem raises_advance (hx : e.graph.node? pred = some x) (hxy : x.Rises ⟨q, s, false⟩) :
    Raises root (advance pred q s V) e fun _ _ => True :=
  .bind (raises_arrive he hx hxy) fun _ _ hd _ =>
    raises_ite (fun _ => raises_queue hd.tracks) fun _ => raises_pure hd.tracks trivial

end

/-- An edge to a node that the exploration itself makes, other than at the end of a function. -/
theorem rises_plain {sink : Bool} (h : kind ≠ .finish) :
    x.Rises ⟨⟨kind, f, none⟩, s, sink⟩ := fun _ hor => (hor.elim (absurd rfl) h.elim)

/-! ### Asking checkers -/

/-- What a checker says lets the path go on at its turn only. -/
theorem raises_obey {checker : Checker} {verdict : Verdict}
    (he : e.graph.Tracks PathNode.Rises root) (hn : e.Early q k pred)
    (h : verdict.Idle ∨ k ≤ checker.turn ∧ checker.turn < m) (hkm : k ≤ m) :
    Raises root (obey pred (q.tagged checker) verdict) e fun n? e' =>
      ∀ n, n? = some n → e'.Early q m n := by
  obtain ⟨x, hx, hunder⟩ := id hn
  have hrises (s : State) (h : k ≤ checker.turn) : x.Rises ⟨q.tagged checker, s, false⟩ :=
    fun _ _ hkind hframe => (hunder hkind hframe).trans_le h
  cases verdict with
  | pass =>
    refine raises_pure he ?_
    rintro n ⟨⟩
    exact hn.mono hkm
  | proceed s =>
    obtain ⟨hk, hm⟩ := h.resolve_left id
    have hsettle : Raises root (settle pred (q.tagged checker) s) e fun n e' => e'.Early q m n := by
      refine raises_query_bind (raises_ite (fun _ => raises_pure he (hn.mono hkm)) fun _ => ?_)
      refine .bind (raises_arrive he hx (hrises s hk)) fun a d hd ha => raises_pure hd.tracks ?_
      exact ⟨_, ha, Point.under_tagged hm⟩
    refine hsettle.bind fun n d hd hn => raises_pure hd.tracks ?_
    rintro m ⟨⟩
    exact hn
  | report s findings =>
    obtain ⟨hk, hm⟩ := h.resolve_left id
    refine .bind (raises_arrive he hx (hrises s hk)) fun a d hd ha => ?_
    refine .bind (raises_report hd.tracks) fun _ d' hd' hgraph => raises_pure hd'.tracks ?_
    rintro n ⟨⟩
    exact ⟨_, hgraph ▸ ha, Point.under_tagged hm⟩
  | stop s findings =>
    refine .bind (raises_arrive he hx fun hsink => nomatch hsink) fun a d hd _ => ?_
    exact .bind (raises_report hd.tracks) fun _ d' hd' _ =>
      raises_pure hd'.tracks fun n hn => nomatch hn

/-- **Checkers are asked in turn**: behind an event it is past the turn of its speaker. -/
theorem raises_consult {visits : Nat} (ho : o.checkers.Nodup) (he : e.graph.Tracks PathNode.Rises root)
    (hn : e.Early q k n) (hkm : k ≤ m)
    (h : ∀ checker, event.speaker? = some checker → k ≤ checker.turn ∧ checker.turn < m) :
    Raises root (consult o n q visits event) e fun n? e' => ∀ n, n? = some n → e'.Early q m n := by
  -- before the speaker was asked it is not yet its turn, and afterwards nobody speaks any more
  suffices hall : ∀ checkers : List Checker, checkers.Nodup → ∀ e n,
      e.graph.Tracks PathNode.Rises root →
      (e.Early q k n ∨ e.Early q m n ∧ ∀ c ∈ checkers, event.speaker? ≠ some c) →
      Raises root (consultAll o q visits event checkers n) e fun n? e' =>
        ∀ n, n? = some n → e'.Early q m n from hall _ ho e n he (.inl hn)
  intro checkers hnodup
  induction checkers with
  | nil =>
    refine fun e n he hn => raises_pure he ?_
    rintro _ ⟨⟩
    exact hn.elim (·.mono hkm) (·.1)
  | cons checker rest ih =>
    intro e n he hn
    obtain ⟨hfresh, hnodup⟩ := nodup_cons.1 hnodup
    have hgo : ∀ {k' m' : Nat} {d : Exploration} {verdict : Verdict}
        {next : Option NodeId → Exploring (Option NodeId)}, next none = pure none →
        (∀ n, next (some n) = consultAll o q visits event rest n) → e.Climbs root d →
        e.Early q k' n → k' ≤ m' → (verdict.Idle ∨ k' ≤ checker.turn ∧ checker.turn < m') →
        (∀ (d : Exploration) n, d.Early q m' n → d.Early q k n ∨ d.Early q m n ∧
          ∀ c ∈ rest, event.speaker? ≠ some c) →
        Raises root (obey n (q.tagged checker) verdict >>= next) d fun n? e' =>
          ∀ n, n? = some n → e'.Early q m n := by
      intro k' m' d verdict next hnone hsome hd hn hkm hverdict hrest
      refine .bind (raises_obey hd.tracks (hn.climbs hd) hverdict hkm) fun n? d' hd' hn' => ?_
      cases n? with
      | none => exact hnone ▸ raises_pure hd'.tracks fun _ h => nomatch h
      | some n' => exact hsome n' ▸ ih hnodup d' n' hd'.tracks (hrest d' n' (hn' n' rfl))
    refine raises_query_bind (.naming fun c => ?_)
    have hidle (hne : event.speaker? ≠ some checker) := Checker.idle_check
      ⟨e.graph.state n, q.tagged checker, visits, e.frames, o.store⟩ hne e.catalog
    have hd : e.Climbs root { e with catalog := c } := ⟨he, id⟩
    rcases hn with hn | ⟨hn, hsilent⟩
    · by_cases hspeaks : event.speaker? = some checker
      · refine hgo rfl (fun _ => rfl) hd hn hkm (.inr (h checker hspeaks)) fun d n hn =>
          .inr ⟨hn, fun c hc heq => ?_⟩
        obtain rfl : checker = c := some.inj (hspeaks.symm.trans heq)
        exact hfresh hc
      · exact hgo rfl (fun _ => rfl) hd hn le_rfl (.inl (hidle hspeaks)) fun d n hn => .inl hn
    · refine hgo rfl (fun _ => rfl) hd hn le_rfl (.inl (hidle (hsilent checker mem_cons_self))) fun d n hn =>
        .inr ⟨hn, fun c hc => hsilent c (mem_cons_of_mem _ hc)⟩

/-! ### Evaluating steps -/

section

variable (he : e.graph.Tracks PathNode.Rises root)
include he

theorem raises_naming {x : Naming α} :
    Raises root (naming x) e fun _ e' => e'.graph = e.graph :=
  raises_of_graph he fun _ _ h => by
    cases h
    exact ⟨rfl, rfl⟩

theorem raises_naming_always {x : Naming α} {P : α → Prop} (hx : x.Always P) :
    Raises root (naming x) e fun a _ => P a :=
  raises_of_graph he fun _ _ h => by
    cases h
    exact ⟨rfl, hx _⟩

theorem raises_read {v : Value} {t : CType} :
    Raises root (read o s v t) e fun _ e' => e'.graph = e.graph := by
  unfold read
  split
  · exact raises_naming he
  · exact raises_pure he rfl

end

theorem raises_ask (ho : o.checkers.Nodup) (he : e.graph.Tracks PathNode.Rises root)
    (hn : e.Early spot.before k n) (hkm : k ≤ m)
    (h : ∀ checker, event.speaker? = some checker → k ≤ checker.turn ∧ checker.turn < m) :
    Raises root (ask o spot n event) e fun n? e' =>
      ∀ n, n? = some n → e'.Early spot.before m n := raises_consult ho he hn hkm h

/-- The node that a step was evaluated from exists, and its turn is not over. -/
def AtTurn (spot : Spot) (outcome? : Option Outcome) (e : Exploration) : Prop :=
  ∀ outcome, outcome? = some outcome → e.Early spot.before 4 outcome.pred

theorem atTurn_none : AtTurn spot none e := fun _ h => nomatch h

theorem atTurn_some {t : State} {call : Option CallEvent} (hn : e.Early spot.before k n)
    (hk : k ≤ 4) : AtTurn spot (some ⟨n, t, call⟩) e := by
  rintro _ ⟨⟩
  exact hn.mono hk

section

variable (ho : o.checkers.Nodup) (he : e.graph.Tracks PathNode.Rises root)
include ho he

theorem raises_evalLoad (hn : e.Early spot.before 2 pred) :
    Raises root (evalLoad o spot pred a place) e (AtTurn spot) := by
  refine raises_query_bind ?_
  refine .bind (raises_ask (m := 3) ho he hn (by decide) ?_) fun n? d hd hn' => ?_
  · rintro _ ⟨⟩
    decide
  cases n? with
  | none => exact raises_pure hd.tracks atTurn_none
  | some m =>
    refine raises_query_bind (raises_query_bind ?_)
    refine .bind (raises_read hd.tracks) fun v d' hd' _ => raises_pure hd'.tracks ?_
    exact atTurn_some ((hn' m rfl).climbs hd') (by decide)

theorem raises_store {location value : Value} {span : Span} (hn : e.Early spot.before 3 pred) :
    Raises root (store o spot pred location value span) e fun stored? e' =>
      ∀ n t, stored? = some (n, t) → e'.Early spot.before 4 n := by
  refine .bind (raises_ask (m := 4) ho he hn (by decide) ?_) fun n? d hd hn' => ?_
  · rintro _ ⟨⟩
    decide
  cases n? with
  | none => exact raises_pure hd.tracks fun _ _ h => nomatch h
  | some m =>
    refine raises_query_bind ?_
    split
    · refine .bind (raises_naming hd.tracks) fun t d' hd' _ => raises_pure hd'.tracks ?_
      rintro _ _ ⟨⟩
      exact (hn' m rfl).climbs hd'
    · refine raises_pure hd.tracks ?_
      rintro _ _ ⟨⟩
      exact hn' m rfl

theorem raises_evalStore (hn : e.Early spot.before 2 pred) :
    Raises root (evalStore o spot pred a place) e (AtTurn spot) := by
  refine raises_query_bind (raises_query_bind ?_)
  refine .bind (raises_ask (m := 3) ho he hn (by decide) ?_) fun n? d hd hn' => ?_
  · rintro _ ⟨⟩
    decide
  cases n? with
  | none => exact raises_pure hd.tracks atTurn_none
  | some m =>
    refine raises_query_bind ?_
    refine .bind (raises_read hd.tracks) fun old d1 hd1 _ => ?_
    refine .bind (raises_naming hd1.tracks) fun values d2 hd2 _ => ?_
    refine .bind (raises_store ho hd2.tracks (((hn' m rfl).climbs hd1).climbs hd2))
      fun stored? d3 hd3 hstored => ?_
    cases stored? with
    | none => exact raises_pure hd3.tracks atTurn_none
    | some stored => exact raises_pure hd3.tracks (atTurn_some (hstored _ _ rfl) le_rfl)

theorem raises_evalDecl {v : VarId} {init : Option DeclInit} {location : Location}
    (hn : e.Early spot.before 2 pred) :
    Raises root (evalDecl o spot pred v init location) e (AtTurn spot) := by
  refine raises_query_bind (.bind (raises_naming he) fun r d hd _ => raises_query_bind ?_)
  have hnd := hn.climbs hd
  dsimp only
  split
  · exact raises_query_bind (raises_pure hd.tracks (atTurn_some hnd (by decide)))
  · exact .bind (raises_naming hd.tracks) fun t d' hd' _ =>
      raises_pure hd'.tracks (atTurn_some (hnd.climbs hd') (by decide))
  · split
    · exact .bind (raises_naming hd.tracks) fun t d' hd' _ =>
        raises_pure hd'.tracks (atTurn_some (hnd.climbs hd') (by decide))
    · refine .bind (raises_store ho hd.tracks (hnd.mono (by decide))) fun stored? d' hd' hstored => ?_
      cases stored? with
      | none => exact raises_pure hd'.tracks atTurn_none
      | some stored => exact raises_pure hd'.tracks (atTurn_some (hstored _ _ rfl) le_rfl)

end

/-! ### Calls -/

theorem raises_evalByChecker {checkers : List Checker} (he : e.graph.Tracks PathNode.Rises root)
    (hn : e.Early spot.before 3 n) :
    Raises root (evalByChecker o spot n call checkers) e fun answer e' =>
      ∀ n, answer = some (some n) → e'.Early spot.before 4 n := by
  induction checkers generalizing e with
  | nil => exact raises_pure he fun _ h => nomatch h
  | cons checker rest ih =>
    have hidle (hne : checker ≠ .malloc) := Checker.idle_evalCall? call
      ⟨e.graph.state n, spot.before.tagged checker, spot.count, e.frames, o.store⟩ hne e.catalog
    refine raises_query_bind (.naming fun c => ?_)
    have hd : e.Climbs root { e with catalog := c } := ⟨he, id⟩
    split
    · next verdict hverdict =>
      have hturn : verdict.Idle ∨ 3 ≤ checker.turn ∧ checker.turn < 4 := by
        by_cases hc : checker = .malloc
        · subst hc
          exact .inr (by decide)
        · exact .inl (hidle hc verdict hverdict)
      refine .bind (raises_obey (m := 4) hd.tracks (hn.climbs hd) hturn (by decide))
        fun n? d' hd' hn' => raises_pure hd'.tracks fun n hn => hn' n (some.inj hn)
    · exact ih hd.tracks (hn.climbs hd)

theorem raises_inlineCall (he : e.graph.Tracks PathNode.Rises root) (hn : e.Early q k n) :
    Raises root (inlineCall o spot n call) e fun _ _ => True := by
  refine raises_query_bind (.bind (raises_silent he fun _ _ h => ?_)
    fun g d hd _ => raises_query_bind (.bind (raises_naming hd.tracks) fun t d' hd' _ => ?_))
  · cases h
    rfl
  obtain ⟨x, hx, -⟩ := hn
  exact raises_advance hd'.tracks (hd'.node (hd.node hx)) (rises_plain fun h => nomatch h)

theorem raises_conservativeCall (he : e.graph.Tracks PathNode.Rises root) (hn : e.Early q k n) :
    Raises root (conservativeCall o spot n call) e fun outcome e' => e'.Early q k outcome.pred := by
  refine raises_query_bind ?_
  suffices h : Naming.Always _ fun (outcome : Outcome) => outcome.pred = n from
    fun outcome e' hrun => by
      obtain ⟨hclimbs, hpred⟩ := raises_naming_always he h outcome e' hrun
      subst hpred
      exact ⟨hclimbs, hn.climbs hclimbs⟩
  refine always_bind fun _ => always_bind fun _ => always_bind fun _ => ?_
  exact always_ite (always_pure rfl) (always_bind fun _ => always_pure rfl)

section

variable (ho : o.checkers.Nodup) (he : e.graph.Tracks PathNode.Rises root)
include ho he

theorem raises_evalCall (hn : e.Early spot.before 2 pred) :
    Raises root (evalCall o spot pred a) e (AtTurn spot) := by
  refine raises_query_bind (raises_query_bind ?_)
  split
  · exact raises_pure he atTurn_none
  · next call _ =>
    refine .bind (raises_ask (m := 3) ho he hn (by decide) nofun) fun n? d hd hn' => ?_
    cases n? with
    | none => exact raises_pure hd.tracks atTurn_none
    | some m =>
      refine .bind (raises_evalByChecker hd.tracks (hn' m rfl)) fun answer d1 hd1 hanswer => ?_
      have hm := (hn' m rfl).climbs hd1
      match answer with
      | some none => exact raises_pure hd1.tracks atTurn_none
      | some (some k) =>
        exact raises_query_bind (raises_pure hd1.tracks (atTurn_some (hanswer k rfl) le_rfl))
      | none =>
        refine raises_query_bind (raises_ite (fun _ => ?_) fun _ => ?_)
        · exact .bind (raises_inlineCall hd1.tracks hm) fun _ _ hd2 _ =>
            raises_pure hd2.tracks atTurn_none
        · exact .bind (raises_conservativeCall hd1.tracks hm) fun outcome d2 hd2 hout =>
            raises_pure hd2.tracks (atTurn_some hout (by decide))

/-- **Evaluating a step.** -/
theorem raises_evalElement (hn : e.Early spot.before 2 pred) :
    Raises root (evalElement o spot pred el) e (AtTurn spot) := by
  cases el with
  | expr a isRoot =>
    unfold evalElement evalExpr
    refine raises_query_bind ?_
    split
    · exact raises_evalLoad ho he hn
    iterate 3
      · exact raises_evalStore ho he hn
    · exact raises_evalCall ho he hn
    · refine raises_query_bind (.bind (raises_naming he) fun v? d hd _ => ?_)
      have hnd := hn.climbs hd
      cases v? with
      | none | some v => exact raises_pure hd.tracks (atTurn_some hnd (by decide))
  | decl v init l => exact raises_evalDecl ho he hn
  | merge target value =>
    exact raises_query_bind (raises_query_bind (raises_pure he (atTurn_some hn (by decide))))
  | «return» value l =>
    refine raises_query_bind ?_
    cases value with
    | none | some a => exact raises_pure he (atTurn_some hn (by decide))

/-! ### Going on in a block -/

theorem raises_finishElement {outcome : Outcome} (hx : e.graph.node? outcome.pred = some x) :
    Raises root (finishElement o spot outcome) e fun _ _ => True := by
  refine .bind (raises_arrive he hx (rises_plain fun h => nomatch h)) fun a d hd ha =>
    raises_ite (fun _ => ?_) fun _ => raises_pure hd.tracks trivial
  split
  · exact raises_queue hd.tracks
  · have hstart : d.Early spot.after 1 a.1 := ⟨_, ha, fun _ _ => Nat.one_pos⟩
    refine .bind (raises_consult (m := 4) ho hd.tracks hstart (by decide) ?_) fun n? d' hd' _ => ?_
    · rintro _ ⟨⟩
      decide
    cases n? with
    | none => exact raises_pure hd'.tracks trivial
    | some n => exact raises_queue hd'.tracks

end

section

variable (he : e.graph.Tracks PathNode.Rises root)
include he

/-- The path comes to a point, or stays where it is. -/
theorem raises_settle (hx : e.graph.node? pred = some x) (hfinish : kind ≠ .finish)
    (hunder : q.Under k x.point) (hunder' : q.Under k ⟨kind, f, none⟩) :
    Raises root (settle pred ⟨kind, f, none⟩ s) e fun n e' => e'.Early q k n := by
  refine raises_query_bind (raises_ite (fun _ => raises_pure he ⟨x, hx, hunder⟩) fun _ => ?_)
  refine .bind (raises_arrive he hx (rises_plain hfinish)) fun a d hd ha => ?_
  exact raises_pure hd.tracks ⟨_, ha, hunder'⟩

theorem raises_processElement (ho : o.checkers.Nodup) (hx : e.graph.node? pred = some x)
    (hbefore : x.point.Before spot.frame spot.block spot.index) :
    Raises root (processElement o spot pred s el) e fun _ _ => True := by
  refine .bind (raises_settle (q := spot.before) (k := 1) he hx (fun h => nomatch h)
    (Point.under_of_ne 1 hbefore.kind_ne.1) fun _ _ => Nat.one_pos) fun n d hd hn => ?_
  refine .bind (raises_ask (m := 2) ho hd.tracks hn (by decide) ?_) fun n? d1 hd1 hn' => ?_
  · rintro _ ⟨⟩
    decide
  cases n? with
  | none => exact raises_pure hd1.tracks trivial
  | some m =>
    refine .bind (raises_evalElement ho hd1.tracks (hn' m rfl)) fun out? d2 hd2 hout => ?_
    cases out? with
    | none => exact raises_pure hd2.tracks trivial
    | some outcome =>
      obtain ⟨y, hy, -⟩ := hout outcome rfl
      exact raises_finishElement ho hd2.tracks hy

/-! ### Leaving blocks -/

theorem raises_followEdge {target : BlockId} (hn : e.Early q k n) :
    Raises root (followEdge f V n b target s) e fun _ _ => True := by
  obtain ⟨x, hx, -⟩ := hn
  exact raises_advance he hx (rises_plain fun h => nomatch h)

theorem raises_branchOut (ho : o.checkers.Nodup) (hx : e.graph.node? pred = some x)
    (hkind : x.point.kind ≠ .exit b ∧ x.point.kind ≠ .finish) :
    Raises root (branchOut o pred s b f V) e fun _ _ => True := by
  have hexit : Raises root (settle pred ⟨.exit b, f, none⟩ s) e fun n e' =>
      e'.Early ⟨.exit b, f, none⟩ 1 n :=
    raises_settle he hx (fun h => nomatch h) (Point.under_of_ne 1 hkind.1) fun _ _ => Nat.one_pos
  unfold branchOut
  refine .afterLookup (gives_blockOf rfl) fun block => ?_
  dsimp only
  split
  · exact raises_advance he hx (rises_plain fun h => nomatch h)
  · refine .bind hexit fun n d hd hn => ?_
    refine .bind (raises_consult ho hd.tracks hn le_rfl nofun) fun n? d1 hd1 hn' => ?_
    cases n? with
    | none => exact raises_pure hd1.tracks trivial
    | some n =>
      refine raises_query_bind (raises_query_bind ?_)
      refine .bind (raises_optionForM hd1.tracks fun t => raises_followEdge hd1.tracks (hn' n rfl))
        fun _ d2 hd2 _ => ?_
      exact raises_optionForM hd2.tracks fun t => raises_followEdge hd2.tracks ((hn' n rfl).climbs hd2)
  · refine .bind hexit fun n d hd hn => ?_
    refine .bind (raises_consult ho hd.tracks hn le_rfl nofun) fun n? d1 hd1 hn' => ?_
    cases n? with
    | none => exact raises_pure hd1.tracks trivial
    | some n =>
      refine raises_query_bind (raises_query_bind ?_)
      refine .bind (raises_naming hd1.tracks) fun out d2 hd2 _ => ?_
      have hn2 := (hn' n rfl).climbs hd2
      refine .bind (raises_forM hd2.tracks fun way _ d3 hd3 =>
        raises_followEdge hd3.tracks (hn2.climbs hd3)) fun _ d3 hd3 _ => ?_
      exact raises_optionForM hd3.tracks fun t => raises_followEdge hd3.tracks (hn2.climbs hd3)
  · refine .bind (raises_settle (q := ⟨.finish, f, none⟩) (k := 1) he hx (fun h => nomatch h)
      (Point.under_of_ne 1 hkind.2) (Point.under_of_ne 1 fun h => nomatch h)) fun n d hd hn => ?_
    refine .bind (raises_consult (m := 2) ho hd.tracks hn (by decide) ?_) fun n? d1 hd1 hn' => ?_
    · rintro _ ⟨⟩
      decide
    cases n? with
    | none => exact raises_pure hd1.tracks trivial
    | some n =>
      obtain ⟨y, hy, hunder⟩ := hn' n rfl
      exact raises_query_bind (raises_advance hd1.tracks hy fun _ _ => hunder)

theorem raises_continueBlock (ho : o.checkers.Nodup) (hx : e.graph.node? pred = some x)
    (hbefore : x.point.Before spot.frame spot.block spot.index) :
    Raises root (continueBlock o pred s spot) e fun _ _ => True := by
  unfold continueBlock
  refine .afterLookup (gives_blockOf rfl) fun block => ?_
  split
  · exact raises_processElement he ho hx hbefore
  · exact raises_branchOut he ho hx (Point.Before.kind_ne (j := spot.index) hbefore).2

/-! ### Entering blocks and leaving functions -/

theorem raises_liveMarks {chain : List FrameId} {entering : Option BlockId} :
    Raises root (liveMarks s chain entering) e fun _ e' => e'.graph = e.graph :=
  raises_query_bind (raises_naming he)

theorem raises_noteCoverage {kind : CoverageKind} :
    Raises root (noteCoverage f kind l) e fun _ _ => True :=
  raises_silent he fun _ _ h => by
    cases h
    dsimp only
    split
    · rfl
    · split <;> rfl

theorem raises_widenLoop {block : Block} {count : Nat} :
    Raises root (widenLoop o s block f count) e fun _ e' => e'.graph = e.graph := by
  unfold widenLoop
  split
  · exact raises_pure he rfl
  · exact .afterLookup gives_functionOf fun function => raises_naming he

end

section

variable (ho : o.checkers.Nodup) (he : e.graph.Tracks PathNode.Rises root)
include ho he

theorem raises_enterBlock (hx : e.graph.node? pred = some x) (hkind : x.point.kind ≠ .entrance b) :
    Raises root (enterBlock o pred b f V) e fun _ _ => True := by
  unfold enterBlock
  refine .afterLookup (gives_blockOf rfl) fun block => raises_query_bind ?_
  refine raises_ite (fun _ => ?_) fun _ => ?_
  · refine .bind (raises_arrive he hx fun h => nomatch h) fun _ d hd _ => ?_
    exact .afterLookup gives_functionOf fun _ => raises_query_bind (raises_noteCoverage hd.tracks)
  · refine raises_query_bind (.bind (raises_liveMarks he) fun marks d hd _ => ?_)
    have hstart : d.Early ⟨.entrance b, f, none⟩ 3 pred := ⟨x, hd.node hx, Point.under_of_ne 3 hkind⟩
    refine .bind (raises_consult (m := 4) ho hd.tracks hstart (by decide) ?_) fun n? d1 hd1 hn => ?_
    · rintro _ ⟨⟩
      decide
    cases n? with
    | none => exact raises_pure hd1.tracks trivial
    | some n =>
      obtain ⟨y, hy, -⟩ := hn n rfl
      have hadvance : ∀ t d2, d1.Climbs root d2 → Raises root (do
          let state ← query fun e => State.removeDead t e.catalog marks
          advance n ⟨.entrance b, f, none⟩ state (V.enter f b)) d2 fun _ _ => True :=
        fun t d2 hd2 => raises_query_bind
          (raises_advance hd2.tracks (hd2.node hy) (rises_plain fun h => nomatch h))
      refine raises_query_bind (raises_ite (fun _ => ?_) fun _ => hadvance _ d1 (.refl hd1.tracks))
      exact .bind (raises_widenLoop hd1.tracks) fun t d2 hd2 _ => hadvance t d2 hd2

theorem raises_leaveFrame (hx : e.graph.node? n = some ⟨⟨.finish, f, none⟩, s, false⟩) :
    Raises root (leaveFrame o n f V) e fun _ _ => True := by
  unfold leaveFrame
  refine raises_query_bind (raises_query_bind ?_)
  split
  · exact raises_throw
  · exact raises_advance he hx (rises_plain fun h => nomatch h)
  · refine .bind (raises_liveMarks he) fun marks d hd _ => ?_
    have hstart : d.Early ⟨.finish, f, none⟩ 3 n := ⟨_, hd.node hx, fun _ _ => Nat.lt_succ_self 2⟩
    refine .bind (raises_consult (m := 4) ho hd.tracks hstart (by decide) ?_) fun _ d' hd' _ =>
      raises_pure hd'.tracks trivial
    rintro _ ⟨⟩
    decide

theorem raises_returnToCaller {site : CallSite} {g : FrameId} (hx : e.graph.node? n = some x)
    (hkind : x.point.kind = .callExit site) :
    Raises root (returnToCaller o n site g V) e fun _ _ => True := by
  unfold returnToCaller
  refine raises_query_bind ?_
  split
  · exact raises_throw
  · next caller _ =>
    refine raises_query_bind (.afterLookup (gives_blockOf rfl) fun block => ?_)
    refine raises_ite (fun _ => .afterLookup gives_functionOf fun _ => ?_) fun _ => raises_query_bind ?_
    · have hthrow : ∀ {err}, Raises root (throw err : Exploring PUnit) e fun _ _ => False := raises_throw
      exact hthrow.bind fun _ _ _ h => h.elim
    refine raises_query_bind (.bind (raises_liveMarks he) fun marks d1 hd1 _ => ?_)
    have hstart : d1.Early ⟨.after site.block site.index, caller, none⟩ 3 n :=
      ⟨x, hd1.node hx, Point.under_of_ne 3 fun h => nomatch hkind.symm.trans h⟩
    refine .bind (raises_consult (m := 4) ho hd1.tracks hstart (by decide) ?_) fun n? d2 hd2 hn => ?_
    · rintro _ ⟨⟩
      decide
    cases n? with
    | none => exact raises_pure hd2.tracks trivial
    | some done =>
      obtain ⟨y, hy, -⟩ := hn done rfl
      exact raises_query_bind (raises_query_bind (raises_finishElement ho hd2.tracks hy))

/-! ### Pending nodes -/

/-- **Continuing a pending node.** -/
theorem raises_dispatch {r : Pending} (hr : e.Open p o r.node) :
    Raises root (dispatch o r) e fun _ _ => True := by
  obtain ⟨⟨⟨kind, f, tag⟩, s, sink⟩, hx, rfl, hpends⟩ := hr
  unfold dispatch
  refine raises_query_bind ?_
  rw [PathGraph.point_eq hx]
  cases kind with
  | entry =>
    exact .afterLookup (gives_bodyOf rfl) fun body => raises_enterBlock ho he hx fun h => nomatch h
  | edge source target => exact raises_enterBlock ho he hx fun h => nomatch h
  | entrance b => exact raises_query_bind (raises_continueBlock he ho hx .entrance)
  | after b i =>
    refine raises_query_bind (.afterLookup (gives_blockOf rfl) fun block => ?_)
    exact raises_continueBlock he ho hx .after
  | callEnter site callee =>
    refine .bind (raises_silent he fun _ _ h => ?_) fun g d hd _ => ?_
    · cases h
      rfl
    exact .afterLookup (gives_bodyOf rfl) fun body =>
      raises_enterBlock ho hd.tracks (hd.node hx) fun h => nomatch h
  | finish =>
    obtain rfl : tag = none := hpends.tag.resolve_right fun ⟨_, _, h, _⟩ => nomatch h
    exact raises_leaveFrame ho he hx
  | callExit site => exact raises_returnToCaller ho he hx rfl
  | before | exit => exact raises_pure he trivial

end

/-! ### The search -/

/-- An action of which both is known: it raises turns, and what it records. -/
theorem Raises.bindKeeps {act : Exploring α} {next : α → Exploring β}
    {post post' : α → Exploration → Prop} {post₂ : β → Exploration → Prop}
    (hact : Raises root act e post) (hkeeps : Keeps p o x act e post')
    (hnext : ∀ a d, e.Climbs root d → d.Records p o x → post' a d → Raises root (next a) d post₂) :
    Raises root (act >>= next) e post₂ :=
  Gives.bind (fun a d h => And.intro (hact a d h) (hkeeps a d h)) fun a d h =>
    Gives.imp (hnext a d h.1.1 h.2.1.records h.2.2) fun _ _ h' => ⟨h.1.1.trans h'.1, h'.2⟩

theorem raises_nextPending (he : e.graph.Tracks PathNode.Rises root) :
    Raises root nextPending e fun _ _ => True :=
  raises_silent he fun _ _ h => by
    unfold nextPending at h
    split at h <;> cases h <;> rfl

/-- **The search**, however it ends. -/
theorem raises_search {steps : Nat} (ho : o.checkers.Nodup) (he : e.graph.Tracks PathNode.Rises root)
    (hr : e.Records p o x) : Raises root (search o f l steps) e fun _ _ => True := by
  induction steps generalizing e with
  | zero => exact raises_pure he trivial
  | succ steps ih =>
    refine .bindKeeps (raises_nextPending he) (keeps_nextPending hr) fun r? d hd hrd hopen => ?_
    cases r? with
    | none => exact raises_pure hd.tracks trivial
    | some r =>
      refine raises_query_bind (raises_ite (fun _ => ?_) fun _ => ?_)
      · exact .bind (raises_noteCoverage hd.tracks) fun _ _ hd' _ => raises_silent hd'.tracks
          fun _ _ h => by
            cases h
            rfl
      · exact .bindKeeps (raises_dispatch ho hd.tracks (hopen r rfl)) (keeps_dispatch hrd (hopen r rfl))
          fun _ _ hd' hrd' _ => ih hd'.tracks hrd'

end Exploring

namespace Exploration

variable {p : Program} {o : Options} {f : FunctionId} {e d : Exploration} {x : PathNode} {n : Nat}

theorem rises_start (o : Options) (p : Program) (f : FunctionId) :
    (start o p f).graph.Tracks PathNode.Rises (root o p f) := PathGraph.Tracks.single _ _

/-- However many pending nodes are continued, edges lead to later turns. -/
theorem rises_steps (ho : o.checkers.Nodup) (he : e.graph.Tracks PathNode.Rises x)
    (hr : e.Records p o x) (h : Exploring.Steps o n e d) : d.graph.Tracks PathNode.Rises x := by
  induction h with
  | refl => exact he
  | @step e d e' q w n hpop hrun _ ih =>
    have hpending := Worklist.pending_of_pop? hpop
    have hrest : Records p o x { e with worklist := w } :=
      ⟨hr.program, hr.stacked, hr.tracks,
        fun hq => hr.pending (hpending ▸ mem_cons_of_mem q hq), hr.reported⟩
    have hopen : Open p o { e with worklist := w } q.node := hr.pending (hpending ▸ mem_cons_self)
    have htracks : ({ e with worklist := w } : Exploration).graph.Tracks PathNode.Rises x := he
    exact ih (raises_dispatch ho htracks hopen _ _ hrun).1.tracks
      (keeps_dispatch hrest hopen _ _ hrun).1.records

/-- **Edges lead to later turns** in every graph that an exploration leaves, if no checker is asked
twice. -/
theorem Reached.rises (h : Reached o p f e) (ho : o.checkers.Nodup) :
    e.graph.Tracks PathNode.Rises (root o p f) := by
  cases h with
  | steps h => exact rises_steps ho (rises_start o p f) (records_start o p f) h
  | ended h =>
    obtain ⟨body, hbody⟩ := exists_body_of_explore h
    exact (raises_search ho (rises_start o p f) (records_start o p f) _ _
      ((explore_eq_ok hbody).1 h)).1.tracks

end Exploration

end PathScout

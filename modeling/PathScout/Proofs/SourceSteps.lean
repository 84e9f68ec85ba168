import PathScout.Proofs.Dispatch
import PathScout.Proofs.SourceChecks

/-!
# What is conjured on a path

From a pending node to the next ones, symbols are conjured for one expression at most: the one of
the step that is evaluated, or the one that stands for a loop that is forgotten at the entrance of a
block.

* `Exploration.NodeFrom`: all conjured symbols in the state of a node are of a set.
* `Exploring.Gives`: what an action does if it succeeds.
* `Conjures`: what may be conjured on the way to a pending node.
* `Exploring.carries_dispatch`: nothing else is conjured when a pending node is continued.
-/

namespace PathScout

open Naming List Option

/-- The node exists, and all conjured symbols in its state are of the set. -/
def Exploration.NodeFrom (e : Exploration) (P : Set Conjuring) (n : NodeId) : Prop :=
  ∃ x, e.graph.node? n = some x ∧ x.state.From e.catalog P

namespace Exploration.NodeFrom

variable {e e' : Exploration} {P Q : Set Conjuring} {n : NodeId}

theorem mono (h : e.NodeFrom P n) (he : e.Stays e') : e'.NodeFrom P n := by
  obtain ⟨x, hx, hs⟩ := h
  exact ⟨x, he.node hx, hs.mono he.le⟩

theorem subset (h : e.NodeFrom P n) (hPQ : P ⊆ Q) : e.NodeFrom Q n := by
  obtain ⟨x, hx, hs⟩ := h
  exact ⟨x, hx, hs.subset hPQ⟩

theorem of_eq (h : e.NodeFrom P n) (hcatalog : e'.catalog = e.catalog)
    (hgraph : e'.graph = e.graph) : e'.NodeFrom P n := by
  obtain ⟨x, hx, hs⟩ := h
  exact ⟨x, hgraph ▸ hx, hcatalog ▸ hs⟩

theorem state (h : e.NodeFrom P n) : (e.graph.state n).From e.catalog P := by
  obtain ⟨x, hx, hs⟩ := h
  rwa [PathGraph.state_eq hx]

end Exploration.NodeFrom

namespace Exploring

variable {α β : Type} {e e' : Exploration} {P : Set Conjuring} {n pred : NodeId} {point : Point}
  {s : State} {v location : Value} {o : Options} {spot : Spot} {event : Event} {x place : ExprId}
  {call : CallEvent}

/-! ### Actions that succeed -/

/-- If the action succeeds, it does so in a way that satisfies the condition. -/
def Gives (x : Exploring α) (e : Exploration) (post : α → Exploration → Prop) : Prop :=
  ∀ a e', x e = .ok (a, e') → post a e'

section

variable {x : Exploring α} {f : α → Exploring β} {post post' : α → Exploration → Prop}
  {post₂ : β → Exploration → Prop}

theorem Gives.bind (hx : x.Gives e post) (hf : ∀ a d, post a d → (f a).Gives d post₂) :
    (x >>= f).Gives e post₂ := fun b e' h => by
  obtain ⟨a, d, hxa, hfb⟩ := bind_eq_ok.1 h
  exact hf a d (hx a d hxa) b e' hfb

theorem Gives.imp (h : x.Gives e post) (himp : ∀ a d, post a d → post' a d) : x.Gives e post' :=
  fun a d ha => himp a d (h a d ha)

theorem Ends.gives (h : x.Ends e post) : x.Gives e post := fun a d ha => by
  obtain ⟨b, e', hb, hpost⟩ := h
  cases ha.symm.trans hb
  exact hpost

theorem gives_pure {a : α} (h : post a e) : (pure a : Exploring α).Gives e post := (ends_pure h).gives

theorem gives_query_bind {read : Exploration → α} (h : (f (read e)).Gives e post₂) :
    (query read >>= f).Gives e post₂ := h

theorem gives_ite {p : Prop} [Decidable p] {y : Exploring α} (hx : p → x.Gives e post)
    (hy : ¬ p → y.Gives e post) : (if p then x else y : Exploring α).Gives e post := by
  split
  · next hp => exact hx hp
  · next hp => exact hy hp

theorem gives_throw {err : ExplorationError} : (throw err : Exploring α).Gives e post :=
  fun _ _ h => nomatch h

end

/-! ### Actions that only add -/

/-- The action only adds to what is known, and what it gives satisfies a condition. -/
def Adds (x : Exploring α) (e : Exploration) (post : α → Exploration → Prop) : Prop :=
  x.Gives e fun a e' => e.Stays e' ∧ post a e'

theorem Adds.bind {x : Exploring α} {f : α → Exploring β} {post : α → Exploration → Prop}
    {post₂ : β → Exploration → Prop} (hx : x.Adds e post)
    (hf : ∀ a d, e.Stays d → post a d → (f a).Adds d post₂) : (x >>= f).Adds e post₂ :=
  Gives.bind hx fun a d h => (hf a d h.1 h.2).imp fun _ _ h' => ⟨h.1.trans h'.1, h'.2⟩

theorem adds_pure {a : α} {post : α → Exploration → Prop} (h : post a e) :
    (pure a : Exploring α).Adds e post := gives_pure ⟨.refl e, h⟩

theorem Quiet.adds {x : Exploring α} (hx : x.Quiet) : x.Adds e fun _ _ => True :=
  ((hx e).imp fun _ _ h => ⟨h, trivial⟩).gives

theorem adds_naming {x : Naming α} {post : α → Catalog → Prop} (hx : x.Makes e.catalog post) :
    (naming x).Adds e fun a e' => post a e'.catalog := fun a e' h => by
  cases h
  exact ⟨⟨hx.1, id, rfl, rfl, rfl⟩, hx.2⟩

theorem adds_arrive {x : PathNode} (hx : x.state.From e.catalog P) :
    (arrive pred x).Adds e fun a e' => e'.NodeFrom P a.1 := fun a e' h => by
  obtain ⟨rfl, rfl⟩ := arrive_eq_ok.1 h
  exact ⟨stays_arrived e pred x, x, node?_arrived e pred x, hx⟩

theorem adds_settle (hn : e.NodeFrom P pred) (hs : s.From e.catalog P) :
    (settle pred point s).Adds e fun n e' => e'.NodeFrom P n :=
  gives_query_bind (gives_ite (fun _ => adds_pure hn) fun _ =>
    Adds.bind (adds_arrive hs) fun _ _ _ ha => adds_pure ha)

/-! ### Asking checkers -/

theorem adds_obey {verdict : Verdict} (hn : e.NodeFrom P pred) (hv : verdict.From e.catalog P) :
    (obey pred point verdict).Adds e fun n? e' => ∀ n, n? = some n → e'.NodeFrom P n := by
  cases verdict with
  | pass => exact adds_pure fun n hn' => some.inj hn' ▸ hn
  | proceed s =>
    exact Adds.bind (adds_settle hn hv) fun m d _ hm => adds_pure fun n hn' => some.inj hn' ▸ hm
  | report s findings =>
    refine Adds.bind (adds_arrive hv) fun a d _ ha => ?_
    refine Adds.bind (quiet_report a.1 findings).adds fun _ d' hd' _ => ?_
    exact adds_pure fun n hn' => some.inj hn' ▸ ha.mono hd'
  | stop s findings =>
    refine Adds.bind (quiet_arrive _ _).adds fun a d _ _ => ?_
    exact Adds.bind (quiet_report a.1 findings).adds fun _ _ _ _ => adds_pure fun n hn' => nomatch hn'

theorem adds_consult {visits : Nat} (hn : e.NodeFrom P n) (hevent : event.From e.catalog P) :
    (consult o n point visits event).Adds e fun n? e' => ∀ n, n? = some n → e'.NodeFrom P n := by
  unfold consult
  generalize o.checkers = checkers
  induction checkers generalizing n e with
  | nil => exact adds_pure fun m hm => some.inj hm ▸ hn
  | cons checker rest ih =>
    refine gives_query_bind ?_
    refine Adds.bind (adds_naming (checker.makes_check hn.state hevent)) fun verdict d hd hv => ?_
    refine Adds.bind (adds_obey (hn.mono hd) hv) fun n? d' hd' hn' => ?_
    cases n? with
    | none => exact adds_pure fun m hm => nomatch hm
    | some m =>
      refine ih (hn' m rfl) ?_
      cases event with
      | access location place => exact (Value.From.mono hevent hd.le).mono hd'.le
      | _ => trivial

theorem adds_ask (hn : e.NodeFrom P n) (hevent : event.From e.catalog P) :
    (ask o spot n event).Adds e fun n? e' => ∀ n, n? = some n → e'.NodeFrom P n :=
  adds_consult hn hevent

/-! ### Evaluating -/

theorem adds_read {t : CType} (hs : s.From e.catalog P) (hl : location.From e.catalog P) :
    (read o s location t).Adds e fun v e' => v.From e'.catalog P := by
  unfold read
  split
  · next l hloc =>
    refine adds_naming (o.store.makes_retrieve hs.memory ?_ t)
    cases location with
    | loc l' =>
      cases hloc
      exact hl
    | _ => cases hloc
  · exact adds_pure (Value.from_of_nil rfl)

/-- All conjured symbols in the state after a step are of the set. -/
def OutcomeFrom (P : Set Conjuring) (outcome? : Option Outcome) (e : Exploration) : Prop :=
  ∀ outcome, outcome? = some outcome → outcome.state.From e.catalog P

theorem outcomeFrom_some {outcome : Outcome} (h : outcome.state.From e.catalog P) :
    OutcomeFrom P (some outcome) e := fun _ h' => some.inj h' ▸ h

theorem outcomeFrom_none : OutcomeFrom P none e := fun _ h => nomatch h

section

variable (hn : e.NodeFrom P pred)
include hn

theorem adds_evalLoad : (evalLoad o spot pred x place).Adds e (OutcomeFrom P) := by
  refine gives_query_bind ?_
  have hl := hn.state.value spot.frame place
  refine Adds.bind (adds_ask hn hl) fun n? d hd hn' => ?_
  cases n? with
  | none => exact adds_pure outcomeFrom_none
  | some m =>
    refine gives_query_bind (gives_query_bind ?_)
    refine Adds.bind (adds_read (hn' m rfl).state (hl.mono hd.le)) fun v d' hd' hv => ?_
    exact adds_pure (outcomeFrom_some (((hn' m rfl).state.mono hd'.le).bindExpr hv))

theorem adds_store {span : Span} (hl : location.From e.catalog P) (hv : v.From e.catalog P) :
    (store o spot pred location v span).Adds e fun stored? e' =>
      ∀ stored, stored? = some stored → stored.2.From e'.catalog P := by
  refine Adds.bind (adds_ask hn trivial) fun n? d hd hn' => ?_
  cases n? with
  | none => exact adds_pure fun _ h => nomatch h
  | some m =>
    refine gives_query_bind ?_
    dsimp only
    split
    · next r hr =>
      have hr' := (hl.mono hd.le).region hr
      refine Adds.bind (adds_naming (State.makes_write (hn' m rfl).state hr' (hv.mono hd.le)))
        fun s' _ _ hs' => ?_
      exact adds_pure fun _ h => some.inj h ▸ hs'
    · exact adds_pure fun _ h => some.inj h ▸ (hn' m rfl).state

theorem adds_evalStore : (evalStore o spot pred x place).Adds e (OutcomeFrom P) := by
  refine gives_query_bind (gives_query_bind ?_)
  dsimp only
  have hl := hn.state.value spot.frame place
  refine Adds.bind (adds_ask hn hl) fun n? d hd hn' => ?_
  cases n? with
  | none => exact adds_pure outcomeFrom_none
  | some m =>
    have hbefore := hn.state.mono hd.le
    refine gives_query_bind ?_
    refine Adds.bind (adds_read (hn' m rfl).state (hl.mono hd.le)) fun old d1 hd1 hold => ?_
    refine Adds.bind (adds_naming (State.makes_updated (hbefore.mono hd1.le) hold _ _))
      fun values d2 hd2 hvalues => ?_
    refine Adds.bind (adds_store (((hn' m rfl).mono hd1).mono hd2)
      (((hl.mono hd.le).mono hd1.le).mono hd2.le) hvalues.1) fun stored? d3 hd3 hstored => ?_
    cases stored? with
    | none => exact adds_pure outcomeFrom_none
    | some stored =>
      exact adds_pure (outcomeFrom_some ((hstored stored rfl).bindExpr (hvalues.2.mono hd3.le)))

theorem adds_evalByChecker {checkers : List Checker} (hargs : ∀ v ∈ call.args, v.From e.catalog P)
    (hP : conjuredFor call.expr call.frame spot.count ⊆ P) :
    (evalByChecker o spot pred call checkers).Adds e fun answer e' =>
      ∀ n, answer = some (some n) → e'.NodeFrom P n := by
  induction checkers generalizing e with
  | nil => exact adds_pure fun _ h => nomatch h
  | cons checker rest ih =>
    refine gives_query_bind ?_
    refine Adds.bind (adds_naming (checker.makes_evalCall? hn.state hargs hP))
      fun verdict? d hd hv => ?_
    cases verdict? with
    | none => exact ih (hn.mono hd) fun v hv => (hargs v hv).mono hd.le
    | some verdict =>
      refine Adds.bind (adds_obey (hn.mono hd) (hv verdict rfl)) fun n? _ _ hn' => ?_
      exact adds_pure fun m hm => hn' m (some.inj hm)

/-- A call that is not followed conjures for the call only. -/
theorem adds_conservativeCall (hargs : ∀ v ∈ call.args, v.From e.catalog P)
    (hP : conjuredFor call.expr call.frame spot.count ⊆ P) :
    (conservativeCall o spot pred call).Adds e fun outcome e' => outcome.state.From e'.catalog P := by
  have hexposed : ∀ r ∈ exposed e.catalog call.args, e.catalog.From P (.region r) := fun r hr => by
    have hmem := (mem_filter.1 (mem_eraseDups.1 hr)).1
    obtain ⟨q, hq, rfl⟩ := mem_map.1 hmem
    obtain ⟨v, hv, hvq⟩ := mem_filterMap.1 hq
    exact ((hargs v hv).region hvq).base
  refine gives_query_bind ?_
  suffices h : Naming.Makes _ e.catalog fun (outcome : Outcome) d => outcome.state.From d P from
    adds_naming h
  refine makes_query_bind ?_
  have hrequest : Invalidation.conjures ⟨exposed e.catalog call.args, call.expr, call.frame,
    spot.count, o.invalidateGlobals⟩ ⊆ P := fun _ hk => hP hk.1
  refine (State.makes_invalidate hn.state hexposed hrequest).bind fun out d hd hout => ?_
  refine makes_query_bind (makes_ite (fun _ => makes_pure hout) fun _ => ?_)
  have hconjure : (conjure call.expr call.frame (d.program.expr call.expr).type
      spot.count).Makes d fun v d => v.From d P :=
    makes_scalarValue (fun k hk => by
      cases hk
      exact hP ⟨rfl, rfl, rfl⟩) fun x hx => absurd hx not_mem_nil
  exact hconjure.bind fun v d' hd' hv => makes_pure ((hout.mono hd').bindExpr hv)

theorem adds_evalDecl {x : VarId} {init : Option DeclInit} {location : Location} :
    (evalDecl o spot pred x init location).Adds e (OutcomeFrom P) := by
  refine gives_query_bind ?_
  refine Adds.bind (adds_naming (makes_var (P := P) x _)) fun r d hd hr => ?_
  have hs := hn.state.mono hd.le
  refine gives_query_bind ?_
  dsimp only
  split
  · exact gives_query_bind (adds_pure (outcomeFrom_some (hs.kill _ r)))
  · exact Adds.bind (adds_naming (State.makes_writeList hs hr _)) fun _ _ _ hs' =>
      adds_pure (outcomeFrom_some hs')
  · split
    · exact Adds.bind (adds_naming (State.makes_writeText hs hr _)) fun _ _ _ hs' =>
        adds_pure (outcomeFrom_some hs')
    · refine Adds.bind (adds_store (hn.mono hd) (Value.from_pointer hr) (hs.value _ _))
        fun stored? _ _ hstored => ?_
      cases stored? with
      | none => exact adds_pure outcomeFrom_none
      | some stored => exact adds_pure (outcomeFrom_some (hstored stored rfl))

end

end Exploring

/-! ### Paths -/

/-- A loop is forgotten at the entrance of the block, which is entered for the last time. -/
def Widens (o : Options) (block : Block) (count : Nat) : Prop :=
  count = o.maxBlockVisits ∧ block.loopHead ∧ o.loopExhaustion = .widen

/-- What may be conjured on the way to a point: symbols for a loop that is forgotten at the entrance
of a block, or for the step that was evaluated. -/
inductive Conjures (p : Program) (o : Options) (fs : Frames) (point : Point) (V : Visits) :
    Point → Visits → Conjuring → Prop where
  | loop {f : FrameId} {b : BlockId} {block : Block} {x : ExprId} {k : Conjuring} :
    Frames.HasBlock p fs f b block → Widens o block (V.count f b + 1) →
    Exploring.loopExpr? block = some x → k ∈ conjuredInPlace x f (V.count f b + 1) →
    Conjures p o fs point V ⟨.entrance b, f, none⟩ (V.enter f b) k
  | step {f : FrameId} {b : BlockId} {i : Nat} {block : Block} {x : ExprId} {root : Bool}
    {tag : Option Checker} {k : Conjuring} :
    point.Before f b i → Frames.HasBlock p fs f b block →
    block.elements[i]? = some (.expr x root) → k ∈ conjuredFor x f (V.count f b) →
    Conjures p o fs point V ⟨.after b i, f, tag⟩ V k

/-- What is done on the way from a pending node: only additions, and nothing is conjured on the way
to the nodes that become pending but what may be. -/
structure Exploration.Carries (p : Program) (o : Options) (point : Point) (V : Visits)
    (P : Set Conjuring) (e e' : Exploration) : Prop where
  le : e.catalog ≤ e'.catalog
  node {n : NodeId} {x : PathNode} : e.graph.node? n = some x → e'.graph.node? n = some x
  frames : e.frames.Extends e'.frames
  pending : ∃ news : List Pending, e'.worklist.pending.Perm (news ++ e.worklist.pending) ∧
    ∀ q ∈ news, ∃ y, e'.graph.node? q.node = some y ∧
      y.state.From e'.catalog (P ∪ {k | Conjures p o e'.frames point V y.point q.visits k})

section

variable {p : Program} {o : Options} {point point' : Point} {V V' : Visits} {P : Set Conjuring}
  {e e' e'' : Exploration} {fs fs' : Frames}

theorem Conjures.mono {k : Conjuring} (h : Conjures p o fs point V point' V' k)
    (hfs : fs.Extends fs') : Conjures p o fs' point V point' V' k := by
  cases h with
  | loop hb hw hx hk => exact .loop (hb.mono hfs) hw hx hk
  | step hbefore hb hel hk => exact .step hbefore (hb.mono hfs) hel hk

theorem Exploration.Stays.carries (h : e.Stays e') : e.Carries p o point V P e' where
  le := h.le
  node := h.node
  frames := h.frames ▸ .refl _
  pending := ⟨[], by rw [h.worklist]; rfl, fun _ hq => absurd hq not_mem_nil⟩

theorem Exploration.Carries.trans (h : e.Carries p o point V P e')
    (h' : e'.Carries p o point V P e'') : e.Carries p o point V P e'' where
  le := h.le.trans h'.le
  node hn := h'.node (h.node hn)
  frames := h.frames.trans h'.frames
  pending := by
    obtain ⟨news, hperm, hnews⟩ := h.pending
    obtain ⟨news', hperm', hnews'⟩ := h'.pending
    refine ⟨news' ++ news, ?_, fun q hq => ?_⟩
    · rw [append_assoc]
      exact hperm'.trans (hperm.append_left news')
    · rcases mem_append.1 hq with hq | hq
      · exact hnews' q hq
      · obtain ⟨y, hy, hs⟩ := hnews q hq
        refine ⟨y, h'.node hy, (hs.mono h'.le).subset (Set.union_subset_union_right P ?_)⟩
        exact fun k hk => Conjures.mono hk h'.frames

end

namespace Exploring

variable {α β : Type} {p : Program} {o : Options} {point : Point} {V V' : Visits} {P Q : Set Conjuring}
  {e e' : Exploration} {f : FrameId} {b : BlockId} {block : Block} {n pred : NodeId} {s : State}
  {spot : Spot} {el : Element} {kind : PointKind} {x : ExprId} {site : CallSite} {call : CallEvent}
  {c : Catalog} {outcome : Outcome} {value : Value}

/-- If the action succeeds, nothing is conjured but what may be. -/
def Brings (p : Program) (o : Options) (point : Point) (V : Visits) (P : Set Conjuring)
    (x : Exploring α) (e : Exploration) : Prop :=
  x.Gives e fun _ e' => e.Carries p o point V P e'

theorem Brings.after {x : Exploring α} {next : α → Exploring β} {post : α → Exploration → Prop}
    (hx : x.Adds e post)
    (hnext : ∀ a d, e.Stays d → post a d → Brings p o point V P (next a) d) :
    Brings p o point V P (x >>= next) e :=
  Gives.bind hx fun a d h => (hnext a d h.1 h.2).imp fun _ _ h' => h.1.carries.trans h'

theorem Brings.then {x : Exploring α} {next : α → Exploring β} (hx : Brings p o point V P x e)
    (hnext : ∀ a d, e.Carries p o point V P d → Brings p o point V P (next a) d) :
    Brings p o point V P (x >>= next) e :=
  Gives.bind hx fun a d h => (hnext a d h).imp fun _ _ h' => h.trans h'

theorem Brings.afterLookup {x : Exploring α} {next : α → Exploring β} {post : α → Prop}
    (hx : x.Gives e fun a d => post a ∧ d = e)
    (hnext : ∀ a, post a → Brings p o point V P (next a) e) :
    Brings p o point V P (x >>= next) e :=
  Gives.bind hx fun a d h => by
    obtain ⟨h, rfl⟩ := h
    exact hnext a h

theorem Adds.brings {x : Exploring α} {post : α → Exploration → Prop} (h : x.Adds e post) :
    Brings p o point V P x e := Gives.imp h fun _ _ h => h.1.carries

theorem brings_pure (a : α) : Brings p o point V P (pure a) e := (quiet_pure a).adds.brings

theorem brings_query_bind {read : Exploration → α} {next : α → Exploring β}
    (h : Brings p o point V P (next (read e)) e) :
    Brings p o point V P (query read >>= next) e := h

theorem brings_ite {c : Prop} [Decidable c] {x y : Exploring α}
    (hx : c → Brings p o point V P x e) (hy : ¬ c → Brings p o point V P y e) :
    Brings p o point V P (if c then x else y : Exploring α) e := gives_ite hx hy

theorem brings_forM {next : α → Exploring PUnit} {xs : List α}
    (h : ∀ x ∈ xs, ∀ d, e.Carries p o point V P d → Brings p o point V P (next x) d) :
    Brings p o point V P (xs.forM next) e := by
  induction xs generalizing e with
  | nil => exact brings_pure _
  | cons x xs ih =>
    refine .then (h x mem_cons_self e (Exploration.Stays.refl e).carries) fun _ d hd => ?_
    exact ih fun y hy d' hd' => h y (mem_cons_of_mem x hy) d' (hd.trans hd')

theorem brings_optionForM {next : α → Exploring PUnit} {x? : Option α}
    (h : ∀ x, x? = some x → Brings p o point V P (next x) e) :
    Brings p o point V P (x?.forM next) e := by
  cases x? with
  | none => exact brings_pure _
  | some x => exact h x rfl

/-! ### Pending nodes -/

theorem brings_queue {y : PathNode} (hn : e.graph.node? n = some y)
    (hs : y.state.From e.catalog (P ∪ {k | Conjures p o e.frames point V y.point V' k})) :
    Brings p o point V P (queue n V') e := by
  refine Ends.gives ⟨_, _, rfl, le_rfl, id, .refl _, [⟨n, V'⟩], ?_, fun q hq => ?_⟩
  · show (e.worklist.push ⟨n, V'⟩).pending.Perm ([_] ++ e.worklist.pending)
    unfold Worklist.push
    split
    · exact .refl _
    · exact perm_append_comm
  · cases mem_singleton.1 hq
    exact ⟨y, hn, hs⟩

theorem brings_advance
    (hs : s.From e.catalog (P ∪ {k | Conjures p o e.frames point V ⟨kind, f, none⟩ V' k})) :
    Brings p o point V P (advance pred ⟨kind, f, none⟩ s V') e := by
  have harrive : (arrive pred ⟨⟨kind, f, none⟩, s, false⟩).Adds e fun a d =>
      d.graph.node? a.1 = some ⟨⟨kind, f, none⟩, s, false⟩ :=
    Ends.gives ⟨_, _, rfl, stays_arrived e pred _, node?_arrived e pred _⟩
  refine .after harrive fun a d hd hnode => brings_ite (fun _ => ?_) fun _ => brings_pure _
  refine brings_queue hnode ?_
  rw [hd.frames]
  exact hs.mono hd.le

/-- A step to a point where nothing is conjured. -/
theorem brings_advance_plain (hs : s.From e.catalog P) :
    Brings p o point V P (advance pred ⟨kind, f, none⟩ s V') e :=
  brings_advance (hs.subset Set.subset_union_left)

/-! ### Looking up -/

theorem gives_functionOf : (functionOf f).Gives e fun a e' => (∃ x, e.frames.frame? f = some x ∧
      a = e.catalog.program.function x.function) ∧ e' = e := by
  unfold functionOf
  refine gives_query_bind ?_
  rw [Program.functionIn?]
  cases hx : e.frames.frame? f with
  | none => exact gives_throw
  | some x => exact gives_pure ⟨⟨x, rfl, rfl⟩, rfl⟩

theorem gives_bodyOf (hp : e.catalog.program = p) :
    (bodyOf f).Gives e fun a e' => Frames.Runs p e.frames f a ∧ e' = e := by
  refine Gives.bind gives_functionOf ?_
  rintro a d ⟨⟨x, hx, rfl⟩, rfl⟩
  cases hbody : (d.catalog.program.function x.function).body with
  | none => exact gives_throw
  | some body => exact gives_pure ⟨⟨x, hx, hp ▸ hbody⟩, rfl⟩

theorem gives_blockOf (hp : e.catalog.program = p) :
    (blockOf f b).Gives e fun a e' => Frames.HasBlock p e.frames f b a ∧ e' = e := by
  refine Gives.bind (gives_bodyOf hp) ?_
  rintro body d ⟨hruns, rfl⟩
  cases hb : body.graph.block? b with
  | none => exact Gives.bind gives_functionOf fun _ _ _ => gives_throw
  | some block => exact gives_pure ⟨⟨body, hruns, hb⟩, rfl⟩

/-! ### Steps of a block -/

/-- What evaluating a step may conjure. -/
def conjuredBy (spot : Spot) : Element → Set Conjuring
  | .expr x _ => conjuredFor x spot.frame spot.count
  | _ => ∅

/-- A step may conjure what it does conjure. -/
theorem At.conjuredBy_subset {fs : Frames} (hat : At p fs point V spot block)
    (hel : block.elements[spot.index]? = some el) (tag : Option Checker) :
    conjuredBy spot el ⊆ {k | Conjures p o fs point V
      ⟨.after spot.block spot.index, spot.frame, tag⟩ spot.visits k} := by
  intro k hk
  cases el with
  | expr x root =>
    show Conjures p o fs point V _ spot.visits k
    rw [hat.visits]
    refine .step hat.before hat.block hel ?_
    rw [← hat.visits]
    exact hk
  | _ => exact absurd hk (Set.notMem_empty k)

theorem callEvent?_spec (h : s.callEvent? p f x site = some call) :
    call.expr = x ∧ call.frame = f ∧ ∀ v ∈ call.args, ∃ a, v = s.value f a := by
  unfold State.callEvent? at h
  split at h
  · cases h
    refine ⟨rfl, rfl, fun v hv => ?_⟩
    obtain ⟨a, -, rfl⟩ := mem_map.1 hv
    exact ⟨a, rfl⟩
  · cases h

theorem makes_bindParams {vars : List VarId} {args : List Value} (hs : s.From c P)
    (hargs : ∀ v ∈ args, v.From c P) (policy : StorePolicy) (f : FrameId) :
    (bindParams policy f vars args s).Makes c fun s d => s.From d P := by
  induction vars generalizing c args s with
  | nil => exact makes_pure hs
  | cons x vars ih =>
    have hhead : (args.headD .unknown).From c P := by
      cases args with
      | nil => exact Value.from_of_nil rfl
      | cons v args => exact hargs v mem_cons_self
    refine (makes_var (P := P) x f).bind fun r d hd hr => ?_
    refine (State.makes_write (hs.mono hd) hr (hhead.mono hd)).bind fun s' d' hd' hs' => ?_
    exact ih hs' fun v hv => ((hargs v (mem_of_mem_tail hv)).mono hd).mono hd'

/-- A frame for a call leaves everything else as it is. -/
theorem Brings.afterCall {caller : FrameId} {callee : FunctionId} {next : FrameId → Exploring β}
    (hnext : ∀ g d, d.catalog = e.catalog → d.graph = e.graph → Brings p o point V P (next g) d) :
    Brings p o point V P ((onFrames fun fs => Frames.call fs caller callee site) >>= next) e := by
  intro b e' h
  rw [onFrames_bind] at h
  have hrest := hnext _ { e with frames := (Frames.call e.frames caller callee site).2 } rfl rfl b e' h
  refine Exploration.Carries.trans ?_ hrest
  exact ⟨le_rfl, id, Frames.extends_add _ _, [], .refl _, fun _ hq => absurd hq not_mem_nil⟩

theorem brings_inlineCall (hn : e.NodeFrom P pred) (hargs : ∀ v ∈ call.args, v.From e.catalog P) :
    Brings p o point V P (inlineCall o spot pred call) e := by
  refine brings_query_bind (.afterCall fun callee d hcatalog hgraph => brings_query_bind ?_)
  refine .after (adds_naming (makes_bindParams (hn.of_eq hcatalog hgraph).state (fun v hv => ?_)
    _ _)) fun s' d' _ hs' => brings_advance_plain hs'
  rw [hcatalog]
  exact hargs v hv

/-- What evaluating a step gives: a state in which only the step may have conjured. -/
def Evaluates (p : Program) (o : Options) (point : Point) (V : Visits) (P Q : Set Conjuring)
    (x : Exploring (Option Outcome)) (e : Exploration) : Prop :=
  x.Gives e fun outcome? e' => e.Carries p o point V P e' ∧ OutcomeFrom (P ∪ Q) outcome? e'

theorem Adds.evaluates {x : Exploring (Option Outcome)} (h : x.Adds e (OutcomeFrom P)) :
    Evaluates p o point V P Q x e := h.imp fun _ _ h =>
  ⟨h.1.carries, fun outcome hout => (h.2 outcome hout).subset Set.subset_union_left⟩

theorem Evaluates.after {x : Exploring α} {next : α → Exploring (Option Outcome)}
    {post : α → Exploration → Prop} (hx : x.Adds e post)
    (hnext : ∀ a d, e.Stays d → post a d → Evaluates p o point V P Q (next a) d) :
    Evaluates p o point V P Q (x >>= next) e :=
  Gives.bind hx fun a d h => (hnext a d h.1 h.2).imp fun _ _ h' => ⟨h.1.carries.trans h'.1, h'.2⟩

theorem evaluates_pure (h : outcome.state.From e.catalog (P ∪ Q)) :
    Evaluates p o point V P Q (pure (some outcome)) e :=
  gives_pure ⟨(Exploration.Stays.refl e).carries, outcomeFrom_some h⟩

theorem evaluates_none : Evaluates p o point V P Q (pure none) e :=
  gives_pure ⟨(Exploration.Stays.refl e).carries, outcomeFrom_none⟩

theorem evaluates_evalCall (hn : e.NodeFrom P pred) :
    Evaluates p o point V P (conjuredFor x spot.frame spot.count) (evalCall o spot pred x) e := by
  refine gives_query_bind (gives_query_bind ?_)
  have hs := hn.state
  cases hcall : (e.graph.state pred).callEvent? e.catalog.program spot.frame x (spot.site x) with
  | none => exact evaluates_none
  | some call =>
    obtain ⟨hexpr, hframe, hvalues⟩ := callEvent?_spec hcall
    have hargs : ∀ v ∈ call.args, v.From e.catalog P := fun v hv => by
      obtain ⟨a, rfl⟩ := hvalues v hv
      exact hs.value _ _
    have hQ : conjuredFor call.expr call.frame spot.count ⊆
        P ∪ conjuredFor x spot.frame spot.count := by
      rw [hexpr, hframe]
      exact Set.subset_union_right
    refine Evaluates.after (adds_ask hn trivial) fun n? d hd hn' => ?_
    cases n? with
    | none => exact evaluates_none
    | some m =>
      have hargs' : ∀ v ∈ call.args, v.From d.catalog P := fun v hv => (hargs v hv).mono hd.le
      have hm := hn' m rfl
      have hwide : d.NodeFrom (P ∪ conjuredFor x spot.frame spot.count) m :=
        hm.subset Set.subset_union_left
      have hargsWide : ∀ v ∈ call.args,
          v.From d.catalog (P ∪ conjuredFor x spot.frame spot.count) := fun v hv =>
        (hargs' v hv).subset Set.subset_union_left
      refine Evaluates.after (adds_evalByChecker hwide hargsWide hQ) fun answer d1 hd1 hanswer => ?_
      match answer with
      | some none => exact evaluates_none
      | some (some m') => exact gives_query_bind (evaluates_pure (hanswer m' rfl).state)
      | none =>
        refine gives_query_bind (gives_ite (fun _ => ?_) fun _ => ?_)
        · have hinline : Brings p o point V P (inlineCall o spot m call) d1 :=
            brings_inlineCall (hm.mono hd1) fun v hv => (hargs' v hv).mono hd1.le
          exact Gives.bind hinline fun _ _ h => gives_pure ⟨h, outcomeFrom_none⟩
        · refine Evaluates.after (adds_conservativeCall (hwide.mono hd1)
            (fun v hv => (hargsWide v hv).mono hd1.le) hQ) fun outcome _ _ hout => ?_
          exact evaluates_pure hout

theorem from_mergedValue (hs : s.From c P) (f : FrameId) (t : CType) (value : MergeValue) :
    (mergedValue s f t value).From c P := by
  cases value with
  | int n => exact Value.from_of_nil (Value.entities_ofInt _ _)
  | expr x => exact hs.value f x

/-- **Evaluating a step conjures for the step only.** -/
theorem evaluates_evalElement (hn : e.NodeFrom P pred) :
    Evaluates p o point V P (conjuredBy spot el) (evalElement o spot pred el) e := by
  have hs := hn.state
  have hwide := hs.subset (Set.subset_union_left (s := P) (t := conjuredBy spot el))
  cases el with
  | expr x root =>
    unfold evalElement evalExpr
    refine gives_query_bind ?_
    split
    · exact (adds_evalLoad hn).evaluates
    iterate 3
      · exact (adds_evalStore hn).evaluates
    · exact evaluates_evalCall hn
    · refine gives_query_bind ?_
      refine Evaluates.after (adds_naming (State.makes_evaluate? hs spot.frame x)) fun v? d hd hv => ?_
      cases v? with
      | none => exact evaluates_pure (hwide.mono hd.le)
      | some v =>
        exact evaluates_pure (((hs.mono hd.le).bindExpr (hv v rfl)).subset Set.subset_union_left)
  | decl x init l => exact (adds_evalDecl hn).evaluates
  | merge target value =>
    refine gives_query_bind (gives_query_bind (evaluates_pure ?_))
    exact hwide.bindExpr (from_mergedValue hwide _ _ _)
  | «return» value l =>
    refine gives_query_bind ?_
    cases value with
    | none => exact evaluates_pure hwide
    | some a => exact evaluates_pure (hwide.bindResult (hwide.value _ _))

/-- A step was evaluated: the path stands after it, also where a checker made the last node. -/
theorem brings_finishElement (hs : outcome.state.From e.catalog Q)
    (hQ : ∀ tag, Q ⊆ P ∪ {k | Conjures p o e.frames point V
      ⟨.after spot.block spot.index, spot.frame, tag⟩ spot.visits k}) :
    Brings p o point V P (finishElement o spot outcome) e := by
  have harrive : (arrive outcome.pred ⟨spot.after, outcome.state, false⟩).Adds e fun a d =>
      d.graph.node? a.1 = some ⟨spot.after, outcome.state, false⟩ :=
    Ends.gives ⟨_, _, rfl, stays_arrived e _ _, node?_arrived e _ _⟩
  refine .after harrive fun a d hd hnode => brings_ite (fun _ => ?_) fun _ => brings_pure _
  have hs' := hs.mono hd.le
  have hQ' := hd.frames ▸ hQ
  cases outcome.call with
  | none => exact brings_queue hnode (hs'.subset (hQ' none))
  | some call =>
    have hconsult : (consult o a.1 spot.after spot.count (.callEnds call)).Adds d fun n? d' =>
        ∀ n, n? = some n → d'.NodeFrom Q n ∧ Stands d' n spot.after := by
      intro n? d' h
      have hevent : (Event.callEnds call).From d.catalog Q := trivial
      obtain ⟨hstays, hfrom⟩ := adds_consult ⟨_, hnode, hs'⟩ hevent n? d' h
      obtain ⟨-, hwaits⟩ := (ends_consult o _ _).gives n? d' h
      exact ⟨hstays, fun n hn => ⟨hfrom n hn, (hwaits n hn).stands ⟨_, hnode, rfl, rfl⟩⟩⟩
    refine .after hconsult fun n? d' hd' hn' => ?_
    cases n? with
    | none => exact brings_pure _
    | some n =>
      obtain ⟨⟨x, hx, hxs⟩, ⟨y, hy, hkind, hframe⟩⟩ := hn' n rfl
      cases hx.symm.trans hy
      obtain ⟨⟨kind, g, tag⟩, t, sink⟩ := x
      cases hkind
      cases hframe
      refine brings_queue hx (hxs.subset ?_)
      rw [hd'.frames]
      exact hQ' tag

theorem brings_processElement (hn : e.NodeFrom P pred) (hs : s.From e.catalog P)
    (hat : At p e.frames point V spot block) (hel : block.elements[spot.index]? = some el) :
    Brings p o point V P (processElement o spot pred s el) e := by
  refine .after (adds_settle hn hs) fun m d hd hm => ?_
  refine .after (adds_ask hm trivial) fun n? d1 hd1 hn' => ?_
  cases n? with
  | none => exact brings_pure _
  | some n =>
    have heval : Evaluates p o point V P (conjuredBy spot el) (evalElement o spot n el) d1 :=
      evaluates_evalElement (hn' n rfl)
    refine Gives.bind heval ?_
    rintro outcome? d2 ⟨hd2, hout⟩
    cases outcome? with
    | none => exact gives_pure hd2
    | some outcome =>
      have hat2 := (((hat.stays hd).stays hd1)).mono hd2.frames
      refine (brings_finishElement (hout outcome rfl) fun tag => ?_).imp fun _ _ h => hd2.trans h
      exact Set.union_subset_union_right P (hat2.conjuredBy_subset hel tag)

/-! ### Leaving blocks -/

theorem makes_switchStates {t : CType} {targets : List CaseTarget} {rest : Option State}
    (hs : s.From c P) (hv : value.From c P) (hrest : ∀ s, rest = some s → s.From c P) :
    (switchStates s value t targets rest).Makes c fun ways d =>
      (∀ way ∈ ways.1, way.2.From d P) ∧ ∀ s, ways.2 = some s → s.From d P := by
  induction targets generalizing c rest with
  | nil => exact makes_pure ⟨fun _ h => absurd h not_mem_nil, hrest⟩
  | cons target more ih =>
    rw [switchStates]
    refine makes_ite (fun _ => ?_) fun _ => ?_
    · refine (ih hs hv hrest).bind fun ways d hd hways => makes_pure ⟨fun way hway => ?_, ?_⟩
      · rcases mem_cons.1 hway with rfl | hway
        · exact hs.mono hd
        · exact hways.1 way hway
      · exact hways.2
    · refine (makes_binary hv (Value.from_of_nil (Value.entities_ofInt _ _)) _ _).bind
        fun matched d hd hmatched => makes_query_bind ?_
      have hno : ∀ s', (rest.bind fun r => r.assume d matched false) = some s' → s'.From d P :=
        fun s' h => by
          obtain ⟨r, hr, h⟩ := bind_eq_some_iff.1 h
          exact ((hrest r hr).mono hd).assume hmatched h
      refine (ih (hs.mono hd) (hv.mono hd) hno).bind fun ways d' hd' hways =>
        makes_pure ⟨fun way hway => ?_, hways.2⟩
      rcases mem_append.1 hway with hway | hway
      · obtain ⟨s', hs', rfl⟩ := map_eq_some_iff.1 (mem_toList.1 hway)
        exact ((hs.mono hd).assume hmatched hs').mono hd'
      · exact hways.1 way hway

theorem from_branchStates {s' : State} (hs : s.From c P) (hv : value.From c P)
    (h : (branchStates c s value).1 = some s' ∨
      (branchStates c s value).2 = some s') : s'.From c P := by
  unfold branchStates at h
  split at h
  · rcases h with h | h <;> exact some.inj h ▸ hs
  · rcases h with h | h <;> exact hs.assume hv h

theorem brings_followEdge {source target : BlockId} (hs : s.From e.catalog P) :
    Brings p o point V P (followEdge f V' pred source target s) e := brings_advance_plain hs

theorem brings_branchOut (hp : e.catalog.program = p) (hn : e.NodeFrom P pred) (hs : s.From e.catalog P) :
    Brings p o point V P (branchOut o pred s b f V') e := by
  unfold branchOut
  refine .afterLookup (gives_blockOf hp) fun block _ => ?_
  dsimp only
  split
  · exact brings_followEdge hs
  · refine .after (adds_settle hn hs) fun m d hd hm => ?_
    refine .after (adds_consult hm trivial) fun n? d1 hd1 hn' => ?_
    cases n? with
    | none => exact brings_pure _
    | some n =>
      have hstate := (hn' n rfl).state
      refine brings_query_bind (brings_query_bind ?_)
      refine .then (brings_optionForM fun t ht => brings_followEdge ?_) fun _ d2 hd2 =>
        brings_optionForM fun t ht => brings_followEdge ?_
      · exact from_branchStates hstate (hstate.value f _) (.inl ht)
      · exact (from_branchStates hstate (hstate.value f _) (.inr ht)).mono hd2.le
  · refine .after (adds_settle hn hs) fun m d hd hm => ?_
    refine .after (adds_consult hm trivial) fun n? d1 hd1 hn' => ?_
    cases n? with
    | none => exact brings_pure _
    | some n =>
      have hstate := (hn' n rfl).state
      refine brings_query_bind (brings_query_bind ?_)
      refine .after (adds_naming (makes_switchStates hstate (hstate.value f _)
        fun t ht => some.inj ht ▸ hstate)) fun ways d2 hd2 hways => ?_
      refine .then (brings_forM fun way hway d3 hd3 => ?_) fun _ d3 hd3 =>
        brings_optionForM fun t ht => ?_
      · exact brings_followEdge ((hways.1 way hway).mono hd3.le)
      · exact brings_followEdge ((hways.2 t ht).mono hd3.le)
  · refine .after (adds_settle hn hs) fun m d hd hm => ?_
    refine .after (adds_consult hm trivial) fun n? d1 hd1 hn' => ?_
    cases n? with
    | none => exact brings_pure _
    | some n => exact brings_query_bind (brings_advance_plain (hn' n rfl).state)

theorem brings_continueBlock (hp : e.catalog.program = p) (hn : e.NodeFrom P pred)
    (hs : s.From e.catalog P) (hbefore : point.Before spot.frame spot.block spot.index)
    (hV : spot.visits = V) : Brings p o point V P (continueBlock o pred s spot) e := by
  unfold continueBlock
  refine .afterLookup (gives_blockOf hp) fun block hblock => ?_
  cases hel : block.elements[spot.index]? with
  | none => exact brings_branchOut hp hn hs
  | some el => exact brings_processElement hn hs ⟨hbefore, hblock, hV⟩ hel

theorem brings_afterElement (hp : e.catalog.program = p) (hn : e.NodeFrom P n)
    (hbefore : point.Before spot.frame spot.block (spot.index + 1)) (hV : spot.visits = V) :
    Brings p o point V P (afterElement o n spot) e := by
  unfold afterElement
  refine brings_query_bind (.afterLookup (gives_blockOf hp) fun block _ => ?_)
  refine brings_continueBlock hp hn ?_ hbefore hV
  split
  · exact hn.state.clearExprs _
  · exact hn.state

/-! ### Entering blocks -/

theorem adds_liveMarks {chain : List FrameId} {entering : Option BlockId} :
    (liveMarks s chain entering).Adds e fun _ _ => True := (quiet_liveMarks _ _ _).adds

/-- Forgetting a loop conjures for the expression that stands for it. -/
theorem adds_widenLoop {count : Nat} (hs : s.From e.catalog P)
    (hP : ∀ x, loopExpr? block = some x → conjuredInPlace x f count ⊆ P) :
    (widenLoop o s block f count).Adds e fun s' e' => s'.From e'.catalog P := by
  unfold widenLoop
  cases hx : loopExpr? block with
  | none => exact adds_pure hs
  | some x =>
    refine Gives.bind gives_functionOf ?_
    rintro function d ⟨-, rfl⟩
    suffices h : Naming.Makes _ d.catalog fun (s : State) d => s.From d P from adds_naming h
    refine (Store.makes_mapM_var (P := P) f _).bind fun regions d' hd' hregions => ?_
    have hrequest : Invalidation.conjures ⟨regions, x, f, count, true⟩ ⊆ P := hP x hx
    exact (State.makes_invalidate (hs.mono hd') hregions hrequest).bind fun _ _ _ hout =>
      makes_pure hout

theorem brings_noteCoverage {kind : CoverageKind} {l : Location} :
    Brings p o point V P (noteCoverage f kind l) e := by
  refine Ends.gives ⟨_, _, rfl, ?_⟩
  have hsame : e.Carries p o point V P e := (Exploration.Stays.refl e).carries
  dsimp only
  split
  · exact hsame
  · split
    · exact hsame
    · exact ⟨hsame.le, hsame.node, hsame.frames, hsame.pending⟩

theorem brings_enterBlock (hp : e.catalog.program = p) (hn : e.NodeFrom P pred) :
    Brings p o point V P (enterBlock o pred b f V) e := by
  unfold enterBlock
  refine .afterLookup (gives_blockOf hp) fun block hblock => brings_query_bind (brings_ite ?_ ?_)
  · intro _
    refine .after (quiet_arrive _ _).adds fun _ d hd _ => ?_
    refine .afterLookup gives_functionOf fun _ _ => brings_query_bind brings_noteCoverage
  · intro _
    refine brings_query_bind (.after adds_liveMarks fun marks d hd _ => ?_)
    refine .after (adds_consult (hn.mono hd) trivial) fun n? d1 hd1 hn' => ?_
    cases n? with
    | none => exact brings_pure _
    | some n =>
      have hframes : d1.frames = e.frames := hd1.frames.trans hd.frames
      have hstate := (hn' n rfl).state
      refine brings_query_bind ?_
      -- what is conjured if the loop is forgotten
      have hadvance : ∀ s' d2, d2.frames = e.frames →
          s'.From d2.catalog (P ∪ {k | Conjures p o e.frames point V ⟨.entrance b, f, none⟩
            (V.enter f b) k}) →
          Brings p o point V P (do
            let state ← query fun e => State.removeDead s' e.catalog marks
            advance n ⟨.entrance b, f, none⟩ state (V.enter f b)) d2 := fun s' d2 hd2 hs' => by
        refine brings_query_bind (brings_advance (State.From.removeDead ?_ _ _))
        rwa [hd2]
      refine brings_ite (fun hwiden => ?_) fun _ => ?_
      · refine .after (adds_widenLoop (hstate.subset Set.subset_union_left) fun x hx k hk => ?_)
          fun s' d2 hd2 hs' => hadvance s' d2 (hd2.frames.trans hframes) hs'
        exact .inr (.loop hblock hwiden hx hk)
      · exact hadvance _ d1 hframes (hstate.subset Set.subset_union_left)

/-! ### Leaving functions -/

theorem brings_leaveFrame (hn : e.NodeFrom P n) : Brings p o point V P (leaveFrame o n f V') e := by
  have hend : ∀ s : State, Brings p o point V P (do
      let marks ← liveMarks s [] none
      let _ ← consult o n ⟨.finish, f, none⟩ 0 (.dead marks)) e := fun s =>
    .after adds_liveMarks fun _ d hd _ =>
      .after (adds_consult (hn.mono hd) trivial) fun _ _ _ _ => brings_pure _
  unfold leaveFrame
  refine brings_query_bind (brings_query_bind ?_)
  cases e.frames.frame? f with
  | none => exact gives_throw
  | some x =>
    obtain ⟨parent, function, site, depth⟩ := x
    cases parent with
    | none => exact hend _
    | some caller =>
      cases site with
      | none => exact hend _
      | some site => exact brings_advance_plain hn.state

theorem brings_returnToCaller (hp : e.catalog.program = p) (hn : e.NodeFrom P n) :
    Brings p o point V P (returnToCaller o n site f V') e := by
  unfold returnToCaller
  refine brings_query_bind ?_
  cases Frames.caller? e.frames f with
  | none => exact gives_throw
  | some caller =>
    refine brings_query_bind (.afterLookup (gives_blockOf hp) fun block _ => ?_)
    refine brings_ite (fun _ => Gives.bind gives_functionOf fun _ _ _ => gives_throw) fun _ => ?_
    refine brings_query_bind (brings_query_bind (.after adds_liveMarks fun marks d hd _ => ?_))
    refine .after (adds_consult (hn.mono hd) trivial) fun n? d1 hd1 hn' => ?_
    cases n? with
    | none => exact brings_pure _
    | some m =>
      refine brings_query_bind (brings_query_bind ?_)
      exact brings_finishElement (((hn' m rfl).state.popFrame _ _ _).removeDead _ _) fun _ =>
        Set.subset_union_left

/-! ### Pending nodes -/

/-- **Nothing else is conjured when a pending node is continued.** -/
theorem brings_dispatch {q : Pending} {x : PathNode} (hp : e.catalog.program = p)
    (hx : e.graph.node? q.node = some x) (hs : x.state.From e.catalog P) :
    Brings p o x.point q.visits P (dispatch o q) e := by
  obtain ⟨⟨kind, f, tag⟩, s, sink⟩ := x
  have hn : e.NodeFrom P q.node := ⟨_, hx, hs⟩
  unfold dispatch
  refine brings_query_bind ?_
  rw [PathGraph.point_eq hx]
  cases kind with
  | entry => exact .afterLookup (gives_bodyOf hp) fun _ _ => brings_enterBlock hp hn
  | edge source target => exact brings_enterBlock hp hn
  | entrance b => exact brings_query_bind (brings_continueBlock hp hn hn.state .entrance rfl)
  | after b i => exact brings_afterElement hp hn .after rfl
  | callEnter site callee =>
    refine .afterCall fun g d hcatalog hgraph => ?_
    have hpd : d.catalog.program = p := hcatalog ▸ hp
    exact .afterLookup (gives_bodyOf hpd) fun _ _ => brings_enterBlock hpd (hn.of_eq hcatalog hgraph)
  | finish => exact brings_leaveFrame hn
  | callExit site => exact brings_returnToCaller hp hn
  | before | exit => exact brings_pure _

end Exploring

end PathScout

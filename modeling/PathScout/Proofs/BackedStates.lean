import PathScout.Proofs.PathEdges
import PathScout.Proofs.ScalarBlocks
import PathScout.Proofs.ShownFindings

/-!
# States that are backed by runs

The converse of losing no run: every choice of numbers that the ranges of a state allow is the one of
some run that comes to its node. This is so of all nodes from which paths are continued, and hence
whatever is found on the way is found in a run. Only in the end it is known which regions and symbols
there are, so all of this is said about an exploration that is part of another one.

* `Study.Run`: a run of the function comes to a step of a block.
* `Study.Backed`: a state whose numbers are those of runs.
* `Study.Sure`: an exploration of which all nodes are backed and all findings occur.
* `Study.Sure.advance`, `Study.Sure.consult`: steps of a path, and asking checkers.
-/

namespace PathScout.Study

open Exploring

variable {k : Study} {e e' : Exploration} {c z : Catalog} {P : Symbol → Prop} {s t : State}
  {n pred : NodeId} {b : BlockId} {block : Block} {i : Nat} {el : Element} {κ : Machine}
  {α : Assignment} {live live' : VarId → Prop} {R R' : Machine → Prop} {x : PathNode} {f : Finding}
  {event : Event} {V : Visits}

/-! ### Runs of the function -/

/-- With some arguments, a run comes to a step of a block. -/
def Run (k : Study) (b : BlockId) (i : Nat) (κ : Machine) : Prop :=
  ∃ args : List Int, args.length = (k.program.function k.function).params.length ∧
    (∀ m ∈ args, m ∈ CType.int.domain) ∧
    Arrives k.program k.body.graph k.blank (.start (k.program.function k.function).params args) b i κ

section

variable (h : k.Run b i κ) (hb : k.body.graph.block? b = some block)
include h hb

theorem Run.step (hel : block.elements[i]? = some el) :
    k.Run b (i + 1) ((κ.perform k.program k.blank el).settle el) := by
  obtain ⟨args, hlength, hargs, harrives⟩ := h
  exact ⟨args, hlength, hargs, harrives.step hb hel⟩

theorem Run.jump {b' : BlockId} (hel : block.elements[i]? = none) (hgoes : κ.Goes block.terminator b') :
    k.Run b' 0 κ := by
  obtain ⟨args, hlength, hargs, harrives⟩ := h
  exact ⟨args, hlength, hargs, harrives.jump hb hel hgoes⟩

/-- The number of a step is at most the number of steps. -/
theorem Run.le_size : i ≤ block.elements.size := by
  obtain ⟨args, -, -, harrives⟩ := h
  cases harrives with
  | entry => exact Nat.zero_le _
  | step _ hb' hel =>
    cases hb.symm.trans hb'
    exact (Array.getElem?_eq_some_iff.1 hel).1
  | jump => exact Nat.zero_le _

end

/-- The finding occurs in a run of the function. -/
def Found (k : Study) (f : Finding) (kind : PointKind) : Prop :=
  Occurs k.program k.function k.body.graph k.blank f kind

theorem Run.found (h : k.Run b i κ) (hb : k.body.graph.block? b = some block)
    (hel : block.elements[i]? = some el) (hshows : κ.Shows k.program f el) :
    k.Found f (.before b i) := by
  obtain ⟨args, hlength, hargs, harrives⟩ := h
  exact ⟨args, hlength, hargs, block, el, κ, hb, hel, harrives, hshows⟩

theorem Run.found_exit (h : k.Run b i κ) (hb : k.body.graph.block? b = some block)
    (hel : block.elements[i]? = none) (hgarbage : κ.BranchesOnGarbage k.program f block.terminator) :
    k.Found f (.exit b) := by
  obtain rfl : i = block.elements.size := le_antisymm (h.le_size hb) (Array.getElem?_eq_none_iff.1 hel)
  obtain ⟨args, hlength, hargs, harrives⟩ := h
  exact ⟨args, hlength, hargs, block, κ, hb, harrives, hgarbage⟩

/-! ### Parts of explorations -/

/-- The exploration is part of one that ends with the catalog, and constrains atoms only. -/
structure Within (z : Catalog) (e : Exploration) : Prop where
  le : e.catalog ≤ z
  atomic {n : NodeId} {x : PathNode} : e.graph.node? n = some x → Atomic z x.state.constraints

theorem Within.of_evolves (h : Within z e') (hev : k.Evolves e e') : Within z e :=
  ⟨hev.le.trans h.le, fun hn => h.atomic (hev.node hn)⟩

theorem Within.of_state (h : Within z e) (hn : HasState e n s) : Atomic z s.constraints := by
  obtain ⟨x, hx, rfl⟩ := hn
  exact h.atomic hx

theorem Filled.of_le {m : Constraints} (h : Filled z m) (hm : TameConstraints c P m) (hcz : c ≤ z) :
    Filled c m := fun x rs hx => by
  rw [← Catalog.symbol_mono hcz (hm x rs hx).1.hasSymbol]
  exact h x rs hx

/-! ### Backed states -/

/-- Every choice of numbers that the ranges of the state allow is the one of a run of some kind. -/
structure Backed (k : Study) (z : Catalog) (live : VarId → Prop) (s : State)
    (R : Machine → Prop) : Prop where
  filled : Filled z s.constraints
  run {α : Assignment} : Satisfies z α s.constraints →
    ∃ κ, R κ ∧ k.Mirrors z live s.env s.store κ α

namespace Backed

section

variable (h : k.Backed z live s R)
include h

theorem imp (hR : ∀ κ, R κ → R' κ) : k.Backed z live s R' where
  filled := h.filled
  run hα := by
    obtain ⟨κ, hκ, hmirrors⟩ := h.run hα
    exact ⟨κ, hR κ hκ, hmirrors⟩

/-- Fewer variables may be wanted. -/
theorem mono (hlive : ∀ y, live' y → live y) : k.Backed z live' s R where
  filled := h.filled
  run hα := by
    obtain ⟨κ, hκ, hmirrors⟩ := h.run hα
    exact ⟨κ, hκ, hmirrors.mono hlive⟩

/-- A step that runs do as well, and that leaves the ranges as they are. -/
theorem map {g : Machine → Machine} (ht : t.constraints = s.constraints)
    (hstep : ∀ κ α, R κ → k.Mirrors z live s.env s.store κ α →
      k.Mirrors z live' t.env t.store (g κ) α) :
    k.Backed z live' t fun κ' => ∃ κ, R κ ∧ g κ = κ' where
  filled := ht ▸ h.filled
  run hα := by
    obtain ⟨κ, hκ, hmirrors⟩ := h.run (ht ▸ hα)
    exact ⟨g κ, ⟨κ, hκ, rfl⟩, hstep κ _ hκ hmirrors⟩

/-- Narrower ranges allow fewer runs. -/
theorem narrow {m : Constraints} (hm : Filled z m)
    (hR : ∀ κ α, Satisfies z α m → R κ → k.Mirrors z live s.env s.store κ α → R' κ)
    (hsub : ∀ α, Satisfies z α m → Satisfies z α s.constraints) :
    k.Backed z live { s with constraints := m } R' where
  filled := hm
  run hα := by
    obtain ⟨κ, hκ, hmirrors⟩ := h.run (hsub _ hα)
    exact ⟨κ, hR κ _ hα hκ hmirrors, hmirrors⟩

/-- There is a run, as there are numbers in all ranges. -/
theorem exists_run (hs : TameConstraints c P s.constraints) (hcz : c ≤ z)
    (hatomic : Atomic z s.constraints) :
    ∃ κ α, R κ ∧ Satisfies z α s.constraints ∧ k.Mirrors z live s.env s.store κ α := by
  obtain ⟨α, hα, -⟩ := exists_satisfies (hs.mono hcz) h.filled hatomic (fun _ => True) default
    fun _ _ _ hlive => absurd trivial hlive
  obtain ⟨κ, hκ, hmirrors⟩ := h.run hα
  exact ⟨κ, α, hκ, hα, hmirrors⟩

end

end Backed

/-! ### Backed nodes -/

/-- The node is backed by runs that come to it, if a path is continued from there. -/
def Real (k : Study) (z : Catalog) (x : PathNode) : Prop :=
  match x.point.kind with
  | .entry => k.Backed z (Live (k.liveIn k.body.graph.entry)) x.state (k.Run k.body.graph.entry 0)
  | .edge _ b | .entrance b => k.Backed z (Live (k.liveIn b)) x.state (k.Run b 0)
  | .after b i => ∃ block el, k.body.graph.block? b = some block ∧ block.elements[i]? = some el ∧
    k.Backed z (Live (k.liveFrom block (i + 1))) x.state fun κ' =>
      ∃ κ, k.Run b i κ ∧ κ.perform k.program k.blank el = κ'
  | .finish => k.Backed z (fun _ => False) x.state fun _ => True
  | _ => True

/-- All nodes from which paths are continued are backed, and all findings occur in runs. -/
structure Sure (k : Study) (z : Catalog) (e : Exploration) : Prop where
  real {n : NodeId} {x : PathNode} : e.graph.node? n = some x → x.isResumed = true → k.Real z x
  found {rc : ReportClass} {r : BugReport} : rc ∈ e.reports → r ∈ rc.reports →
    ∃ x, e.graph.node? r.node = some x ∧ x.point.frame = topFrame ∧ k.Found r.finding x.point.kind

namespace Sure

variable {point : Point} {checker : Checker} {r : Option NodeId} {visits : Nat}

theorem naming (h : k.Sure z e) (c : Catalog) : k.Sure z { e with catalog := c } := ⟨h.real, h.found⟩

theorem arrived (h : k.Sure z e) (pred : NodeId) (hx : x.isResumed = true → k.Real z x) :
    k.Sure z (arrived e pred x) where
  real hn hy := by
    rcases node?_of_arrived hn with hn | ⟨-, rfl, -⟩
    · exact h.real hn hy
    · exact hx hy
  found hrc hr := by
    obtain ⟨y, hy, hfound⟩ := h.found hrc hr
    exact ⟨y, node?_arrived_of_node? hy, hfound⟩

/-- A step to a node from which the path is continued. -/
theorem advance (h : k.Sure z e) (hx : k.Real z ⟨point, s, false⟩)
    (hrun : Exploring.advance pred point s V e = .ok ((), e')) : k.Sure z e' := by
  rw [advance_eq] at hrun
  have harrived := h.arrived pred fun _ => hx
  split at hrun
  · cases hrun
    exact ⟨harrived.real, harrived.found⟩
  · cases hrun
    exact harrived

/-- A step to a node from which no path is continued. -/
theorem settle (h : k.Sure z e) (hpoint : PathNode.isResumed ⟨point, s, false⟩ = false)
    (hrun : settle pred point s e = .ok (n, e')) : k.Sure z e' := by
  unfold Exploring.settle Exploring.stateOf at hrun
  rw [query_bind, ite_apply] at hrun
  split at hrun
  · cases hrun
    exact h
  · obtain ⟨a, d, ha, hrest⟩ := bind_eq_ok.1 hrun
    obtain ⟨-, rfl⟩ := arrive_eq_ok.1 ha
    obtain ⟨-, rfl⟩ := pure_eq_ok.1 hrest
    exact h.arrived pred fun hx => absurd hx (by rw [hpoint]; decide)

/-- Findings at a new node. -/
theorem report {sink : Bool} {findings : List Finding} {a : NodeId × Bool} {d : Exploration}
    (h : k.Sure z e) (hframe : point.frame = topFrame) (hfound : ∀ f ∈ findings, k.Found f point.kind)
    (ha : arrive pred ⟨point.tagged checker, s, sink⟩ e = .ok (a, d))
    (hrun : report a.1 findings d = .ok ((), e')) : k.Sure z e' := by
  obtain ⟨rfl, rfl⟩ := arrive_eq_ok.1 ha
  have harrived := h.arrived pred (x := ⟨point.tagged checker, s, sink⟩) fun hx =>
    absurd hx (by rw [isResumed_tagged]; decide)
  have hnode := node?_arrived e pred ⟨point.tagged checker, s, sink⟩
  cases hrun
  refine ⟨harrived.real, fun hrc hr => ?_⟩
  rcases mem_reports_foldl hrc hr with ⟨f, hf, rfl⟩ | ⟨rc', hrc', hr⟩
  · exact ⟨_, hnode, hframe, hfound f hf⟩
  · exact harrived.found hrc' hr

/-- Doing what a checker says, if what it found occurs. -/
theorem obey {verdict : Verdict} (h : k.Sure z e) (hframe : point.frame = topFrame)
    (hfound : ∀ f ∈ verdict.findings, k.Found f point.kind)
    (hrun : obey pred (point.tagged checker) verdict e = .ok (r, e')) : k.Sure z e' := by
  cases verdict with
  | pass =>
    cases hrun
    exact h
  | proceed t =>
    obtain ⟨m, d, hm, hlast⟩ := bind_eq_ok.1 hrun
    obtain ⟨-, rfl⟩ := pure_eq_ok.1 hlast
    exact h.settle (isResumed_tagged point checker t false) hm
  | report t findings | stop t findings =>
    obtain ⟨a, d, ha, hrest⟩ := bind_eq_ok.1 hrun
    obtain ⟨u, d', hreport, hlast⟩ := bind_eq_ok.1 hrest
    obtain ⟨-, rfl⟩ := pure_eq_ok.1 hlast
    exact h.report hframe hfound ha hreport

/-! ### Asking checkers -/

/-- Asking checkers, if what they find about the event occurs in runs. -/
theorem consultAll {checkers : List Checker} (hsure : k.Sure z e) (h : k.Ready e) (hn : HasState e n s)
    (hs : k.Tame e.catalog P s) (hP : ∀ r, P (.regionValue r .int)) (hframe : point.frame = topFrame)
    (hmeets : k.Meets e.catalog P event) (hback : k.Backed z live s R)
    (hflaw : ∀ {κ α f}, R κ → k.Mirrors z live s.env s.store κ α → k.Flaw κ f event →
      k.Found f point.kind)
    (hrun : consultAll k.options point visits event checkers n e = .ok (r, e'))
    (hz : Within z e') :
    k.Sure z e' ∧ ∀ m, r = some m → ∃ ranges, HasState e' m { s with constraints := ranges } ∧
      k.Backed z live { s with constraints := ranges } R := by
  induction checkers generalizing n e s with
  | nil =>
    cases hrun
    exact ⟨hsure, fun m hm => ⟨s.constraints, Option.some.inj hm ▸ hn, hback⟩⟩
  | cons checker rest ih =>
    have hwithin := hz.of_evolves (asks_consultAll h hn hs hP hframe hmeets hrun).evolves
    obtain ⟨_, out, _, d, rfl, hviews, hlets, hobey, hd, hle, hturn⟩ :=
      consultAll_cons h hn hs hP hframe hmeets hrun
    have htells := tells_check checker h.regular hs hP hviews hmeets
    -- what the checker finds is in the run that some numbers give
    have hfound : Within z d → k.Sure z d := fun hzd => by
      obtain ⟨κ, α, hκ, hα, hmirrors⟩ :=
        hback.exists_run hs.constraints hwithin.le (hwithin.of_state hn)
      refine (hsure.naming _).obey hframe (fun f hf => ?_) hobey
      exact hflaw hκ hmirrors (htells.flaw hf (hle.trans hzd.le) hmirrors hα)
    obtain ⟨-, rfl, rfl⟩ | ⟨n', m, hnext, hm, hstate, hs', hrun⟩ := hturn
    · exact ⟨hfound hz, fun m hm => by cases hm⟩
    · have hmeets' := hmeets.mono hd.le
      have hzd := hz.of_evolves (asks_consultAll hd.ready hstate hs' hP hframe hmeets' hrun).evolves
      have hcz := hle.trans hzd.le
      -- fewer numbers are left, and each of them still gives a run
      obtain ⟨m', hshown, hfilled, hsub⟩ := htells.shown
      obtain rfl : m = m' :=
        congrArg State.constraints ((Verdict.shown_of_next? hnext).symm.trans hshown)
      have hback' : k.Backed z live { s with constraints := m } R := by
        refine hback.narrow ?_ (fun _ _ _ hκ _ => hκ) fun α => hsub z α hcz
        exact (hfilled (hback.filled.of_le (hs.constraints.mono hlets.le) hcz)).mono hm hcz
      exact ih (s := { s with constraints := m }) (hfound hzd) hd.ready hstate hs' hmeets' hback'
        hflaw hrun

/-- **What checkers find occurs, and the path ends or goes on in a state that is backed.** -/
theorem consult {β : Type} {b : β} {f : Option NodeId → Exploring β} {kind : PointKind}
    (hsure : k.Sure z e) (h : k.Ready e) (hn : HasState e n s) (hs : k.Tame e.catalog P s)
    (hP : ∀ r, P (.regionValue r .int)) (hmeets : k.Meets e.catalog P event) (hback : k.Backed z live s R)
    (hflaw : ∀ {κ α f}, R κ → k.Mirrors z live s.env s.store κ α → k.Flaw κ f event → k.Found f kind)
    (hrun : (consult k.options n ⟨kind, topFrame, none⟩ visits event >>= f) e = .ok (b, e')) :
    ∃ d, k.Evolves e d ∧ (f none d = .ok (b, e') ∧ (Within z d → k.Sure z d) ∨
      ∃ n m, f (some n) d = .ok (b, e') ∧ HasState d n { s with constraints := m } ∧
        k.Tame d.catalog P { s with constraints := m } ∧
        (Within z d → k.Sure z d ∧ k.Backed z live { s with constraints := m } R)) := by
  obtain ⟨r, d, hask, hrest⟩ := bind_eq_ok.1 hrun
  have hasks := asks_consult h hn hs hP hmeets hask
  have hsure' : Within z d → _ := hsure.consultAll h hn hs hP rfl hmeets hback hflaw hask
  refine ⟨d, hasks.evolves, ?_⟩
  cases r with
  | none => exact .inl ⟨hrest, fun hz => (hsure' hz).1⟩
  | some n' =>
    obtain ⟨m, hstate, hs', -⟩ := hasks.some_spec h hs
    refine .inr ⟨n', m, hrest, hstate, hs', fun hz => ?_⟩
    obtain ⟨hsure'', hnext⟩ := hsure' hz
    obtain ⟨m', hstate', hback'⟩ := hnext n' rfl
    obtain rfl : m = m' := congrArg State.constraints (hstate.unique hstate')
    exact ⟨hsure'', hback'⟩

end Sure

end PathScout.Study

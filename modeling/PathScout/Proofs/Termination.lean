import Mathlib.Logic.Hydra
import PathScout.Proofs.ByteLayout
import PathScout.Proofs.Dispatch
import PathScout.Proofs.WellFormedPrograms

/-!
# Explorations end

The search for paths ends without a bound on the number of nodes. Each node that becomes pending is
further on its path than the node that was continued: either the path entered one more block, and no
block of a frame is entered more often than allowed, or it went on in a block or returned from a
function. The pending nodes are like the heads of a hydra, then: each one that is cut off is replaced
by finitely many smaller ones.

* `Exploring.Steps`: some nodes are continued, one after the other, however many there are.
  `Exploring.after?`: the same as a function of the number of nodes.
* `weight`: what is left of a path. `Follows.weight_lt`: it gets less with each step.
* `Exploration.Explores`: the invariant of the search. `Exploration.Explores.cut`: one step of it.
* `Program.explore_ends`: every exploration of a built program ends.
-/

namespace PathScout

open Exploring List Option

/-! ### What is left of a path -/

section

variable {p : Program} {o : Options} {main : FunctionId} {fs fs' : Frames} {point point' : Point}
  {V V' : Visits} {f : FrameId} {b : BlockId} {block : Block} {i : Nat}

/-- How often blocks may still be entered. -/
def budget (p : Program) (o : Options) (V : Visits) : Nat :=
  ∑ k ∈ Finset.range (p.frameBound o) ×ˢ Finset.range p.blockBound,
    (o.maxBlockVisits - V.count ⟨k.1⟩ ⟨k.2⟩)

/-- The number of steps of a block. -/
def blockLength (p : Program) (fs : Frames) (f : FrameId) (b : BlockId) : Nat :=
  ((p.blockIn? fs f b).map (·.elements.size)).getD 0

/-- How far it is to the end of a block or a function. -/
def distance (p : Program) (fs : Frames) (point : Point) : Nat :=
  match point.kind with
  | .entrance b => blockLength p fs point.frame b + 3
  | .after b i => blockLength p fs point.frame b - i + 2
  | .callExit _ => 0
  | _ => 1

/-- What is left of a path, first of all how many blocks may still be entered, then the frames to
return from, then the steps of the block. -/
def weight (p : Program) (o : Options) (fs : Frames) (point : Point) (V : Visits) :
    ℕ ×ₗ ℕ ×ₗ ℕ :=
  toLex (budget p o V, toLex (Frames.depth fs point.frame, distance p fs point))

theorem blockIn?_eq (h : Frames.HasBlock p fs f b block) : p.blockIn? fs f b = some block := by
  obtain ⟨body, ⟨x, hx, hbody⟩, hb⟩ := h
  unfold Program.blockIn? Program.functionIn?
  rw [hx]
  simp only [map_some, bind_eq_bind, bind_some, hbody, hb]

theorem blockLength_eq (h : Frames.HasBlock p fs f b block) :
    blockLength p fs f b = block.elements.size := by
  rw [blockLength, blockIn?_eq h]
  rfl

/-- Entering a block that may be entered leaves less. -/
theorem budget_enter_lt (hf : f.index < p.frameBound o) (hb : b.index < p.blockBound)
    (hlt : V.count f b < o.maxBlockVisits) : budget p o (V.enter f b) < budget p o V := by
  refine Finset.sum_lt_sum (fun k _ => ?_) ⟨(f.index, b.index), ?_, ?_⟩
  · exact Nat.sub_le_sub_left (Visits.count_le_enter V f ⟨k.1⟩ b ⟨k.2⟩) _
  · exact Finset.mem_product.2 ⟨Finset.mem_range.2 hf, Finset.mem_range.2 hb⟩
  · show o.maxBlockVisits - (V.enter f b).count f b < o.maxBlockVisits - V.count f b
    rw [Visits.count_enter_self]
    omega

theorem weight_lt_of_distance (hframe : point'.frame = point.frame)
    (h : distance p fs point' < distance p fs point) :
    weight p o fs point' V < weight p o fs point V := by
  refine Prod.Lex.toLex_lt_toLex.2 (.inr ⟨rfl, Prod.Lex.toLex_lt_toLex.2 (.inr ⟨?_, h⟩)⟩)
  show Frames.depth fs point'.frame = Frames.depth fs point.frame
  rw [hframe]

theorem Point.Before.frame_eq (h : point.Before f b i) : point.frame = f := by
  cases h <;> rfl

theorem one_lt_distance (h : point.Before f b i) : 1 < distance p fs point := by
  cases h with
  | entrance | after => exact Nat.lt_add_left _ (by decide)

/-- Before a step there is more to go than after it. -/
theorem distance_after_lt {tag : Option Checker} (h : point.Before f b i) (hi : i < blockLength p fs f b) :
    distance p fs ⟨.after b i, f, tag⟩ < distance p fs point := by
  cases h with
  | entrance =>
    show blockLength p fs f b - 0 + 2 < blockLength p fs f b + 3
    omega
  | @after f b j tag =>
    show blockLength p fs f b - (j + 1) + 2 < blockLength p fs f b - j + 2
    omega

/-- **There is less left after each step of a path.** -/
theorem Follows.weight_lt (h : Follows p o fs point V point' V') (hfs : fs.Sound p o main) :
    weight p o fs point' V' < weight p o fs point V := by
  cases h with
  | @enter _ _ f b block hleads hb hlt =>
    obtain ⟨body, ⟨x, hx, hbody⟩, hblock⟩ := hb
    refine Prod.Lex.toLex_lt_toLex.2 (.inl (budget_enter_lt ?_ ?_ hlt))
    · exact (Interned.lt_size_of_get? hx).trans_le hfs.size_le
    · exact Program.index_lt_blockBound hbody hblock
  | step hbefore hb hel =>
    refine weight_lt_of_distance hbefore.frame_eq.symm (distance_after_lt hbefore ?_)
    rw [blockLength_eq hb]
    exact (Array.getElem?_eq_some_iff.1 hel).1
  | call hbefore _ _ _ _ | leave hbefore _ _ _ | finish hbefore _ _ _ =>
    exact weight_lt_of_distance hbefore.frame_eq.symm (one_lt_distance hbefore)
  | giveBack hx => exact weight_lt_of_distance rfl Nat.zero_lt_one
  | @resume f caller V callee site depth tag tag' hx hsite =>
    refine Prod.Lex.toLex_lt_toLex.2 (.inr ⟨rfl, Prod.Lex.toLex_lt_toLex.2 (.inl ?_)⟩)
    show Frames.depth fs caller < Frames.depth fs f
    cases hfs f _ hx with
    | called hy _ _ _ =>
      rw [Frames.depth_eq hx, Frames.depth_eq hy]
      exact Nat.lt_succ_self _

/-- What is left of a valid path does not depend on frames that are added. -/
theorem weight_mono (hv : Valid p o fs point V) (hfs : fs.Extends fs') :
    weight p o fs' point V = weight p o fs point V := by
  obtain ⟨x, hx⟩ := hv.exists_frame
  have hx' := hfs _ _ hx
  have hdepth : Frames.depth fs' point.frame = Frames.depth fs point.frame :=
    (Frames.depth_eq hx').trans (Frames.depth_eq hx).symm
  have hlength : ∀ b, blockLength p fs' point.frame b = blockLength p fs point.frame b := fun b => by
    rw [blockLength, blockLength, Program.blockIn?, Program.blockIn?, Program.functionIn?,
      Program.functionIn?, hx, hx']
  have hdistance : distance p fs' point = distance p fs point := by
    unfold distance
    simp only [hlength]
  rw [weight, weight, hdepth, hdistance]

end

/-! ### The bound on the number of nodes -/

/-- The same options with another bound on the number of nodes. -/
def Settings.withNodes {κ : Type} (o : Settings κ) (nodes : Nat) : Settings κ :=
  { o with maxNodes := nodes }

namespace Exploring
variable (o : Options) (nodes : Nat)

theorem consult_withNodes : consult (o.withNodes nodes) = consult o := by
  have hall : ∀ point visits event checkers n,
      consultAll (o.withNodes nodes) point visits event checkers n =
        consultAll o point visits event checkers n := by
    intro point visits event checkers n
    induction checkers generalizing n with
    | nil => rfl
    | cons checker rest ih =>
      unfold consultAll
      simp only [ih]
      rfl
  funext n point visits event
  exact hall _ _ _ _ _

theorem ask_withNodes : ask (o.withNodes nodes) = ask o := by
  unfold ask
  rw [consult_withNodes]

theorem read_withNodes : read (o.withNodes nodes) = read o := rfl

theorem evalLoad_withNodes : evalLoad (o.withNodes nodes) = evalLoad o := by
  unfold evalLoad
  rw [ask_withNodes, read_withNodes]

theorem store_withNodes : store (o.withNodes nodes) = store o := by
  unfold store
  rw [ask_withNodes]
  rfl

theorem evalStore_withNodes : evalStore (o.withNodes nodes) = evalStore o := by
  unfold evalStore
  rw [ask_withNodes, read_withNodes, store_withNodes]

theorem evalCall_withNodes : evalCall (o.withNodes nodes) = evalCall o := by
  have hchecker : ∀ spot pred call checkers, evalByChecker (o.withNodes nodes) spot pred call checkers =
        evalByChecker o spot pred call checkers := by
    intro spot pred call checkers
    induction checkers with
    | nil => rfl
    | cons checker rest ih =>
      unfold evalByChecker
      rw [ih]
      rfl
  unfold evalCall
  simp only [ask_withNodes, hchecker]
  rfl

theorem evalElement_withNodes : evalElement (o.withNodes nodes) = evalElement o := by
  unfold evalElement evalExpr evalDecl
  rw [evalLoad_withNodes, evalStore_withNodes, evalCall_withNodes, store_withNodes]
  rfl

theorem finishElement_withNodes : finishElement (o.withNodes nodes) = finishElement o := by
  unfold finishElement
  rw [consult_withNodes]

theorem continueBlock_withNodes : continueBlock (o.withNodes nodes) = continueBlock o := by
  unfold continueBlock processElement branchOut
  rw [consult_withNodes, ask_withNodes, evalElement_withNodes, finishElement_withNodes]

theorem enterBlock_withNodes : enterBlock (o.withNodes nodes) = enterBlock o := by
  unfold enterBlock
  rw [consult_withNodes]
  rfl

/-- Continuing a pending node does not look at the bound on the number of nodes. -/
theorem dispatch_withNodes : dispatch (o.withNodes nodes) = dispatch o := by
  unfold dispatch afterElement leaveFrame returnToCaller
  rw [consult_withNodes, continueBlock_withNodes, enterBlock_withNodes, finishElement_withNodes]

end Exploring

/-! ### The search -/

/-- The exploration after some pending nodes were continued, one after the other. -/
inductive Exploring.Steps (o : Options) : Nat → Exploration → Exploration → Prop where
  | refl {e : Exploration} : Steps o 0 e e
  | step {e d e' : Exploration} {q : Pending} {w : Worklist} {n : Nat} :
    e.worklist.pop? = some (q, w) →
    dispatch o q { e with worklist := w } = .ok ((), d) → Steps o n d e' →
    Steps o (n + 1) e e'

/-- The exploration after so many steps, if there are so many. -/
def Exploring.after? (o : Options) : Nat → Exploration → Option Exploration
  | 0, e => some e
  | n + 1, e => do
    let (q, w) ← e.worklist.pop?
    let (_, d) ← (dispatch o q { e with worklist := w }).toOption
    after? o n d

theorem Exploring.steps_of_after? {o : Options} {n : Nat} {e d : Exploration}
    (h : after? o n e = some d) : Steps o n e d := by
  induction n generalizing e with
  | zero => cases h; exact .refl
  | succ n ih =>
    obtain ⟨⟨q, w⟩, hpop, h⟩ := bind_eq_some_iff.1 h
    obtain ⟨⟨⟨⟩, e'⟩, hrun, h⟩ := bind_eq_some_iff.1 h
    cases hrun' : dispatch o q { e with worklist := w } with
    | error _ => cases hrun' ▸ hrun
    | ok next =>
      cases hrun' ▸ hrun
      exact .step hpop hrun' (ih h)

namespace Exploration

variable {p : Program} {o : Options} {main : FunctionId} {e d e' : Exploration} {q : Pending}
  {w : Worklist} {n m : Nat} {body : FunctionBody}

/-- All frames and all pending nodes are valid. -/
structure Explores (p : Program) (o : Options) (main : FunctionId) (e : Exploration) : Prop where
  regular : e.Regular p o main
  valid {q : Pending} : q ∈ e.worklist.pending →
    ∃ x, e.graph.node? q.node = some x ∧ Valid p o e.frames x.point q.visits

/-- What is left of the path to a pending node. -/
def weightOf (p : Program) (o : Options) (e : Exploration) (q : Pending) : ℕ ×ₗ ℕ ×ₗ ℕ :=
  weight p o e.frames (e.graph.point q.node) q.visits

/-- What is left of all paths. -/
def weights (p : Program) (o : Options) (e : Exploration) : Multiset (ℕ ×ₗ ℕ ×ₗ ℕ) :=
  e.worklist.pending.map (weightOf p o e)

/-- What one step of the search does: the node that is continued is replaced by nodes with less left
of their paths. -/
structure Cuts (p : Program) (o : Options) (main : FunctionId) (q : Pending) (e e' : Exploration) :
    Prop where
  explores : e'.Explores p o main
  cut : Relation.CutExpand (· < ·) (e'.weights p o) (e.weights p o)
  node {n : NodeId} {x : PathNode} : e.graph.node? n = some x → e'.graph.node? n = some x
  pending {r : Pending} : r ∈ e'.worklist.pending → r ∈ e.worklist.pending ∨
    ∃ x y, e.graph.node? q.node = some x ∧ e'.graph.node? r.node = some y ∧
      Follows p o e'.frames x.point q.visits y.point r.visits
  coverage : e'.coverage = e.coverage ∨ ∃ x f b, e.graph.node? q.node = some x ∧
    Leads p e'.frames x.point f b ∧ o.maxBlockVisits ≤ q.visits.count f b

/-- **One step of the search.** -/
theorem Explores.cut (hp : p.Closed) (h : e.Explores p o main) (hpop : e.worklist.pop? = some (q, w)) :
    ∃ d, dispatch o q { e with worklist := w } = .ok ((), d) ∧ e.Cuts p o main q d := by
  have hpending := Worklist.pending_of_pop? hpop
  obtain ⟨x, hx, hv⟩ := h.valid (hpending ▸ mem_cons_self)
  have hregular : Regular p o main { e with worklist := w } := ⟨h.regular.program, h.regular.frames⟩
  obtain ⟨_, d, hrun, hmoves⟩ := advances_dispatch hp hregular hx hv
  obtain ⟨news, hperm, hfollows⟩ := hmoves.pending
  have hframes : e.frames.Extends d.frames := hmoves.frames
  -- nodes that were pending before
  have hold : ∀ r ∈ e.worklist.pending, ∃ y, d.graph.node? r.node = some y ∧
      Valid p o d.frames y.point r.visits ∧ weightOf p o d r = weightOf p o e r := fun r hr => by
    obtain ⟨y, hy, hyv⟩ := h.valid hr
    refine ⟨y, hmoves.node hy, hyv.mono hframes, ?_⟩
    rw [weightOf, weightOf, PathGraph.point_eq hy, PathGraph.point_eq (hmoves.node hy)]
    exact weight_mono hyv hframes
  have hrest : ∀ r ∈ w.pending, r ∈ e.worklist.pending := fun r hr =>
    hpending ▸ mem_cons_of_mem q hr
  refine ⟨d, hrun, ⟨hmoves.regular hregular, fun {r} hr => ?_⟩, ?_, hmoves.node, fun {r} hr => ?_, ?_⟩
  · rcases mem_append.1 (hperm.mem_iff.1 hr) with hr | hr
    · obtain ⟨y, hy, hyf⟩ := hfollows r hr
      exact ⟨y, hy, hyf.valid hp (hv.mono hframes)⟩
    · obtain ⟨y, hy, hyv, -⟩ := hold r (hrest r hr)
      exact ⟨y, hy, hyv⟩
  · refine ⟨(news.map (weightOf p o d) : List _), weightOf p o e q, fun a ha => ?_, ?_⟩
    · obtain ⟨r, hr, rfl⟩ := mem_map.1 (Multiset.mem_coe.1 ha)
      obtain ⟨y, hy, hyf⟩ := hfollows r hr
      rw [weightOf, weightOf, PathGraph.point_eq hy, PathGraph.point_eq hx, ← weight_mono hv hframes]
      exact hyf.weight_lt hmoves.sound
    · have hsame : w.pending.map (weightOf p o d) = w.pending.map (weightOf p o e) :=
        map_congr_left fun r hr => by
          obtain ⟨-, -, -, hr⟩ := hold r (hrest r hr)
          exact hr
      have hd : d.weights p o = ((news ++ w.pending).map (weightOf p o d) : List _) :=
        Multiset.coe_eq_coe.2 (hperm.map _)
      rw [hd, map_append, hsame, weights, hpending, map_cons, ← Multiset.coe_add,
        ← Multiset.cons_coe, ← Multiset.singleton_add]
      abel
  · rcases mem_append.1 (hperm.mem_iff.1 hr) with hr | hr
    · obtain ⟨y, hy, hyf⟩ := hfollows r hr
      exact .inr ⟨x, y, hx, hy, hyf⟩
    · exact .inl (hrest r hr)
  · rcases hmoves.coverage with hsame | ⟨f, b, hleads, hle⟩
    · exact .inl hsame
    · exact .inr ⟨x, f, b, hx, hleads, hle⟩

/-- **The search ends.** -/
theorem Explores.exists_end (hp : p.Closed) (h : e.Explores p o main) :
    ∃ n d, Exploring.Steps o n e d ∧ d.worklist.pending = [] := by
  have hwf : WellFounded (Relation.CutExpand (· < · : ℕ ×ₗ ℕ ×ₗ ℕ → ℕ ×ₗ ℕ ×ₗ ℕ → Prop)) :=
    wellFounded_lt.cutExpand
  obtain ⟨s, hs⟩ : ∃ s, s = e.weights p o := ⟨_, rfl⟩
  induction s using hwf.induction generalizing e with
  | _ s ih =>
    subst hs
    cases hpop : e.worklist.pop? with
    | none => exact ⟨0, e, .refl, Worklist.pop?_eq_none.1 hpop⟩
    | some next =>
      obtain ⟨q, w⟩ := next
      obtain ⟨d, hrun, hcuts⟩ := h.cut hp hpop
      obtain ⟨n, e', hsteps, hend⟩ := ih _ hcuts.cut hcuts.explores rfl
      exact ⟨n + 1, e', .step hpop hrun hsteps, hend⟩

theorem size_le_of_node {g g' : PathGraph}
    (h : ∀ {n x}, g.node? n = some x → g'.node? n = some x) : g.size ≤ g'.size := by
  by_contra hlt
  obtain ⟨x, hn⟩ : ∃ x, g.node? ⟨g'.size⟩ = some x :=
    ⟨_, Array.getElem?_eq_getElem (Nat.lt_of_not_le hlt)⟩
  exact absurd (Interned.lt_size_of_get? (h hn)) (lt_irrefl _)

/-- The invariant holds during the whole search. -/
theorem Explores.steps (hp : p.Closed) (h : e.Explores p o main) (hsteps : Exploring.Steps o n e d) :
    d.Explores p o main ∧ e.graph.size ≤ d.graph.size := by
  induction hsteps with
  | refl => exact ⟨h, le_rfl⟩
  | step hpop hrun _ ih =>
    obtain ⟨d, hrun', hcuts⟩ := h.cut hp hpop
    cases hrun.symm.trans hrun'
    obtain ⟨hexplores, hsize⟩ := ih hcuts.explores
    exact ⟨hexplores, (size_le_of_node hcuts.node).trans hsize⟩

/-- As long as something is pending, the search goes on. -/
theorem Explores.exists_next (hp : p.Closed) (h : e.Explores p o main)
    (hsteps : Exploring.Steps o n e d) (hd : d.worklist.pending ≠ []) :
    ∃ d', Exploring.Steps o (n + 1) e d' := by
  induction hsteps with
  | @refl e =>
    cases hpop : e.worklist.pop? with
    | none => exact absurd (Worklist.pop?_eq_none.1 hpop) hd
    | some next =>
      obtain ⟨d, hrun, -⟩ := h.cut hp hpop
      exact ⟨d, .step hpop hrun .refl⟩
  | step hpop hrun _ ih =>
    obtain ⟨d, hrun', hcuts⟩ := h.cut hp hpop
    cases hrun.symm.trans hrun'
    obtain ⟨d', hd'⟩ := ih hcuts.explores hd
    exact ⟨d', .step hpop hrun hd'⟩

/-- No search is longer than one that ends. -/
theorem steps_le_of_end (hend : Exploring.Steps o n e d) (hd : d.worklist.pending = [])
    (hsteps : Exploring.Steps o m e e') : m ≤ n := by
  induction hsteps generalizing n with
  | refl => exact Nat.zero_le n
  | step hpop hrun _ ih =>
    cases hend with
    | refl => cases hpop.symm.trans (Worklist.pop?_eq_none.2 hd)
    | step hpop' hrun' hrest =>
      cases hpop.symm.trans hpop'
      cases hrun.symm.trans hrun'
      exact Nat.succ_le_succ (ih hrest)

/-- A search with enough steps and nodes goes through all pending nodes. -/
theorem Explores.search_eq {l : Location} {steps nodes : Nat} (hp : p.Closed)
    (h : e.Explores p o main) (hend : Exploring.Steps o n e d) (hd : d.worklist.pending = [])
    (hsteps : n ≤ steps) (hnodes : d.graph.size < nodes) :
    search (o.withNodes nodes) topFrame l steps e = .ok ((), d) := by
  induction hend generalizing steps with
  | @refl e =>
    cases steps with
    | zero => rfl
    | succ steps =>
      have hpop : nextPending e = .ok (none, e) := by
        unfold nextPending
        rw [Worklist.pop?_eq_none.2 hd]
      unfold search
      exact bind_eq_ok.2 ⟨none, e, hpop, rfl⟩
  | @step e d e' q w n hpop hrun hrest ih =>
    cases steps with
    | zero => cases hsteps
    | succ steps =>
      obtain ⟨d', hrun', hcuts⟩ := h.cut hp hpop
      cases hrun.symm.trans hrun'
      -- there are fewer nodes now than in the end
      have hsize : ¬ (o.withNodes nodes).maxNodes ≤ e.graph.size := by
        show ¬ nodes ≤ e.graph.size
        have hle := (size_le_of_node hcuts.node).trans (hcuts.explores.steps hp hrest).2
        omega
      have hnext : nextPending e = .ok (some q, { e with worklist := w }) := by
        unfold nextPending
        rw [hpop]
      unfold search
      refine bind_eq_ok.2 ⟨some q, _, hnext, ?_⟩
      dsimp only
      rw [query_bind, ite_apply]
      refine (if_neg hsize).trans ?_
      rw [dispatch_withNodes]
      exact bind_eq_ok.2 ⟨(), d, hrun, ih hcuts.explores hd (Nat.le_of_succ_le_succ hsteps) hnodes⟩

theorem explores_start (hbody : (p.function main).body = some body) :
    (start o p main).Explores p o main := by
  obtain ⟨n, hpending, hnode⟩ := start_spec o p main
  have hframe : (start o p main).frames.frame? topFrame = some ⟨none, main, none, 0⟩ :=
    (Frames.top_empty main).2
  refine ⟨⟨?_, fun f x hx => ?_⟩, fun {q} hq => ?_⟩
  · show (opening o p main).2.program = p
    unfold opening
    split
    · exact (State.grows_ofGlobals o.store topFrame (.ofProgram p)).program
    · rfl
  · obtain rfl := Frames.eq_of_frame?_top_empty hx
    exact .top hbody
  · rw [hpending, mem_singleton] at hq
    subst hq
    refine ⟨_, (hnode n _).2 ⟨rfl, rfl⟩, ⟨body, _, hframe, hbody⟩, fun f b => ?_⟩
    exact Nat.zero_le _

/-- From some number of allowed nodes on, all explorations are one whose search ends. -/
theorem exists_explore (hp : p.Closed) (hbody : (p.function main).body = some body) :
    ∃ n e, Exploring.Steps o n (start o p main) e ∧ e.worklist.pending = [] ∧
      ∃ bound, ∀ nodes ≥ bound, explore { o with maxNodes := nodes } p main = .ok e := by
  have hstart := explores_start (o := o) hbody
  obtain ⟨n, e, hsteps, hend⟩ := hstart.exists_end hp
  refine ⟨n, e, hsteps, hend, max n (e.graph.size + 1), fun nodes hnodes => ?_⟩
  have hsame : start (o.withNodes nodes) p main = start o p main := rfl
  refine (explore_eq_ok (o := o.withNodes nodes) hbody).2 ?_
  rw [hsame]
  exact hstart.search_eq hp hsteps hend ((le_max_left _ _).trans hnodes)
    (Nat.lt_of_succ_le ((le_max_right _ _).trans hnodes))

end Exploration

theorem Program.Built.closed {p : Program} {globals : Names} (hp : p.Built globals) : p.Closed :=
  fun _ _ hf => ⟨(hp.wellFormed hf).entry.2, (hp.wellFormed hf).successor⟩

variable {u : SourceUnit} {file : String} {p : Program} {f : FunctionId} {body : FunctionBody}

/-- **Every exploration ends**, whatever the options are, where no structure contains itself: a size that
is asked for then has an end. No path enters a block of a frame more often than allowed, there are finitely
many frames, nothing fails, and from some number of allowed nodes on, all explorations are the same one,
with nothing pending. -/
theorem Program.explore_ends (o : Options) (hu : Program.ofUnit u file = .ok p) (hacyclic : p.Acyclic)
    (hf : (p.function f).body = some body) :
    (∀ t, (p.size? t).isSome) ∧ (∀ n d, Exploring.Steps o n (.start o p f) d →
      (∀ q ∈ d.worklist.pending, ∀ g b, q.visits.count g b ≤ o.maxBlockVisits) ∧
        d.frames.size ≤ p.frameBound o ∧
        (d.worklist.pending ≠ [] → ∃ d', Exploring.Steps o (n + 1) (.start o p f) d')) ∧
      ∃ n e, Exploring.Steps o n (.start o p f) e ∧ e.worklist.pending = [] ∧
        (∀ m d, Exploring.Steps o m (.start o p f) d → m ≤ n) ∧
        ∃ bound, ∀ nodes ≥ bound, explore { o with maxNodes := nodes } p f = .ok e := by
  obtain ⟨globals, hbuilt⟩ := Program.ofUnit_built hu
  have hp := hbuilt.closed
  have hstart := Exploration.explores_start (o := o) hf
  refine ⟨hacyclic.isSome_size?, fun n d hsteps => ?_, ?_⟩
  · obtain ⟨hd, -⟩ := hstart.steps hp hsteps
    refine ⟨fun q hq g b => ?_, hd.regular.frames.size_le, hstart.exists_next hp hsteps⟩
    obtain ⟨x, -, hv⟩ := hd.valid hq
    exact hv.visits g b
  · obtain ⟨n, e, hsteps, hend, hbound⟩ := Exploration.exists_explore (o := o) hp hf
    exact ⟨n, e, hsteps, hend, fun m d hd => Exploration.steps_le_of_end hsteps hend hd, hbound⟩

/-- The unit `struct S { struct S s; }; void f(void) { (struct S *)16 + 1; }`. -/
def nestedUnit : SourceUnit :=
  let l : Location := ⟨1, 1⟩
  { items := [.struct ⟨"S", [⟨"s", .struct "S", l⟩], l⟩, .plain "f" .void [] [.expr l (.binary (.point l)
      .add (.cast (.point l) (.pointer (.struct "S")) (.int (.point l) 16)) (.int (.point l) 1))]]
    expansions := [] }

/-- A structure that contains itself is accepted. An address is moved by its size, which has no end. -/
theorem Program.explore_ends_nested : ∃ p x y z, Program.ofUnit nestedUnit "a.c" = .ok p ∧
    (p.function ⟨0⟩).body.isSome ∧ (p.expr x).op = .binary .add y z ∧
      (p.expr y).type = .pointer (.struct "S") ∧ p.size? (.struct "S") = none := by
  have hcheck : (Program.ofUnit nestedUnit "a.c").toOption.any (fun p => decide
      ((p.function ⟨0⟩).body.isSome ∧ (p.expr ⟨3⟩).op = .binary .add ⟨1⟩ ⟨2⟩ ∧
        (p.expr ⟨1⟩).type = .pointer (.struct "S") ∧ p.structNamed? "S" = some ⟨0⟩ ∧
        (p.struct ⟨0⟩).fields.map (·.type) = [.struct "S"])) = true := by
    decide +kernel
  obtain ⟨p, hu, hcheck⟩ := exists_ok_of_any hcheck
  obtain ⟨hbody, hsum, htype, hname, hfields⟩ := of_decide_eq_true hcheck
  obtain ⟨f, hf, hfield⟩ := mem_map.1 (hfields ▸ mem_singleton_self (CType.struct "S"))
  refine ⟨p, _, _, _, hu, hbody, hsum, htype, size?_eq_none (.single ⟨f, hf, "S", ?_, hname⟩) hname⟩
  rw [hfield]
  rfl

/-- A loop that is entered at most three times. -/
theorem Program.explore_ends_branching : ∃ p body o, Program.ofUnit branchingUnit "a.c" = .ok p ∧
    p.Acyclic ∧ (p.function ⟨0⟩).body = some body ∧ o.maxBlockVisits = 3 ∧
      ∃ n e, Exploring.Steps o n (.start o p ⟨0⟩) e ∧ e.worklist.pending = [] ∧
        ∃ bound, ∀ nodes ≥ bound, explore { o with maxNodes := nodes } p ⟨0⟩ = .ok e := by
  obtain ⟨p, body, hu, hf⟩ := exists_branching
  let o : Options := { maxBlockVisits := 3, checkers := Checker.all }
  have hstructs : p.structs.size = 0 := by
    have h : (Program.ofUnit branchingUnit "a.c").toOption.map (·.structs.size) = some 0 := by
      decide +kernel
    rw [hu] at h
    exact some.inj h
  have hacyclic := acyclic_of_no_structs hstructs
  obtain ⟨-, -, n, e, hsteps, hend, -, hbound⟩ := Program.explore_ends o hu hacyclic hf
  exact ⟨p, body, o, hu, hacyclic, hf, rfl, n, e, hsteps, hend, hbound⟩

end PathScout

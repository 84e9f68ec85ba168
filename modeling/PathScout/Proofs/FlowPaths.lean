import Mathlib.Tactic
import PathScout.Program

/-!
# Walks through a flow graph

A walk follows the blocks of a function from its entry, step by step, along any of the ways that the
ends of the blocks offer. The value of an expression is at hand on a walk if a step gave it and no
statement ended since, because the values of expressions are forgotten after a statement.

* `FlowGraph.Walk`: the steps of a walk, and where it stands.
* `Element.operands`, `Terminator.operands`: the expressions whose values are needed.
* `AtHand`: the value of an expression is at hand after some steps.
* `FlowGraph.Certified`: sets of expressions, one for each block, that show which values are at hand
  at its start. `FlowGraph.Certified.atHand`: they are, on every walk.
-/

namespace PathScout

open List

variable {p : Program} {held : Set ExprId} {el : Element} {steps : List Element} {x : ExprId}

/-! ### What is needed and what is given -/

/-- The expressions whose values a step needs. A joined expression needs the value that it got on
the way to it. -/
def Element.operands (p : Program) : Element → List ExprId
  | .expr e _ => if (p.expr e).op = .join then [e] else (p.expr e).op.operands
  | .decl _ none _ => []
  | .decl _ (some (.expr e)) _ => [e]
  | .decl _ (some (.list entries)) _ => entries.map (·.value)
  | .merge _ (.int _) => []
  | .merge _ (.expr e) => [e]
  | .return value _ => value.toList

/-- The expressions whose values the end of a block needs. -/
def Terminator.operands : Terminator → List ExprId
  | .branch cond .. | .switch cond .. => [cond]
  | .goto .. | .exit => []

/-- The expression that a step gives a value. -/
def Element.subject? : Element → Option ExprId
  | .expr e _ | .merge e _ => some e
  | .decl .. | .return .. => none

/-- The step evaluates the expression, or sets it on one of the ways that it joins. -/
def Element.Gives (p : Program) (el : Element) (x : ExprId) : Prop :=
  if (p.expr x).op = .join then ∃ v, el = .merge x v else ∃ root, el = .expr x root

/-- The value of the expression is at hand after some steps: one of them gave it, and no statement
ended since. -/
def AtHand (p : Program) (steps : List Element) (x : ExprId) : Prop :=
  ∃ before el after, steps = before ++ el :: after ∧ el.Gives p x ∧
    ∀ a ∈ el :: after, a.isRoot = false

/-- What is held after a step, given what was held before it. -/
def Element.keep (held : Set ExprId) (el : Element) : Set ExprId :=
  if el.isRoot then ∅ else {x | el.subject? = some x} ∪ held

/-- What is held after some steps. -/
def heldAfter (held : Set ExprId) (els : List Element) : Set ExprId := els.foldl Element.keep held

@[simp] theorem heldAfter_nil (held : Set ExprId) : heldAfter held [] = held := rfl

theorem heldAfter_concat (held : Set ExprId) (els : List Element) (el : Element) :
    heldAfter held (els ++ [el]) = el.keep (heldAfter held els) := by
  simp only [heldAfter, foldl_append, foldl_cons, foldl_nil]

theorem keep_expr (held : Set ExprId) (e : ExprId) :
    Element.keep held (.expr e false) = insert e held := by
  ext x
  simp [Element.keep, Element.isRoot, Element.subject?, eq_comm]

theorem keep_merge (held : Set ExprId) (e : ExprId) (v : MergeValue) :
    Element.keep held (.merge e v) = insert e held := by
  ext x
  simp [Element.keep, Element.isRoot, Element.subject?, eq_comm]

/-- Every step has the values that it needs, if those in `held` are at hand at first. -/
def Supplied (p : Program) (held : Set ExprId) (els : List Element) : Prop :=
  ∀ i el, els[i]? = some el → ∀ x ∈ el.operands p, x ∈ heldAfter held (els.take i)

theorem supplied_nil (p : Program) (held : Set ExprId) : Supplied p held [] := by
  intro i el h
  simp at h

theorem supplied_concat {els : List Element} : Supplied p held (els ++ [el]) ↔
      Supplied p held els ∧ ∀ x ∈ el.operands p, x ∈ heldAfter held els := by
  constructor
  · intro h
    refine ⟨fun i el' hi => ?_, ?_⟩
    · have hlt : i < els.length := (List.getElem?_eq_some_iff.1 hi).1
      have := h i el' (by rw [getElem?_append_left hlt, hi])
      rwa [take_append_of_le_length hlt.le] at this
    · have := h els.length el (by simp)
      rwa [take_left] at this
  · rintro ⟨h, hlast⟩ i el' hi
    rcases lt_or_ge i els.length with hlt | hge
    · rw [getElem?_append_left hlt] at hi
      rw [take_append_of_le_length hlt.le]
      exact h i el' hi
    · rw [getElem?_append_right hge, getElem?_singleton] at hi
      split at hi
      · next hzero =>
        cases hi
        have : i = els.length := by omega
        rw [this, take_left]
        exact hlast
      · cases hi

/-! ### Walks -/

/-- A walk from the entry of a graph: its steps, the block that it stands in and the number of the
next step there. -/
inductive FlowGraph.Walk (g : FlowGraph) : List Element → BlockId → Nat → Prop where
  | start : Walk g [] g.entry 0
  | step {steps : List Element} {b : BlockId} {i : Nat} {block : Block} {el : Element} :
    Walk g steps b i → g.block? b = some block → block.elements[i]? = some el →
    Walk g (steps ++ [el]) b (i + 1)
  | edge {steps : List Element} {b target : BlockId} {i : Nat} {block : Block} :
    Walk g steps b i → g.block? b = some block → block.elements[i]? = none →
    target ∈ block.terminator.successors → Walk g steps target 0

/-- Sets of expressions, one for each block, that are held at its start on every way to it, and that
are enough for the block. -/
structure FlowGraph.Certified (p : Program) (g : FlowGraph) (entry : BlockId → Set ExprId) :
    Prop where
  start : entry g.entry = ∅
  supplied : ∀ b block, g.block? b = some block → Supplied p (entry b) block.elements.toList
  merge : ∀ b block, g.block? b = some block → ∀ e v, .merge e v ∈ block.elements →
    (p.expr e).op = .join
  operand : ∀ b block, g.block? b = some block → ∀ x ∈ block.terminator.operands,
    x ∈ heldAfter (entry b) block.elements.toList
  successor : ∀ b block, g.block? b = some block → ∀ t ∈ block.terminator.successors,
    entry t ⊆ heldAfter (entry b) block.elements.toList

theorem AtHand.concat (h : AtHand p steps x) (hel : el.isRoot = false) : AtHand p (steps ++ [el]) x := by
  obtain ⟨before, giver, after, rfl, hgives, hroot⟩ := h
  refine ⟨before, giver, after ++ [el], by simp, hgives, fun a ha => ?_⟩
  rw [← cons_append, mem_append, mem_singleton] at ha
  rcases ha with ha | rfl
  · exact hroot a ha
  · exact hel

/-- What is held after a step is at hand if what was held before it was. -/
theorem atHand_of_keep (hheld : ∀ x ∈ held, AtHand p steps x) (hops : ∀ x ∈ el.operands p, x ∈ held)
    (hmerge : ∀ e v, el = .merge e v → (p.expr e).op = .join) (hx : x ∈ el.keep held) :
    AtHand p (steps ++ [el]) x := by
  unfold Element.keep at hx
  split at hx
  · exact absurd hx (Set.notMem_empty x)
  · next hroot =>
    rw [Bool.not_eq_true] at hroot
    have hgives : el.Gives p x → AtHand p (steps ++ [el]) x := fun h =>
      ⟨steps, el, [], rfl, h, by simpa using hroot⟩
    rcases hx with hx | hx
    · cases el with
      | expr e root =>
        cases hx
        by_cases hop : (p.expr x).op = .join
        · -- a joined expression was set before
          have hmem : x ∈ Element.operands p (.expr x root) := by
            rw [Element.operands, if_pos hop]
            exact mem_cons_self
          exact (hheld x (hops x hmem)).concat hroot
        · exact hgives (by rw [Element.Gives, if_neg hop]; exact ⟨root, rfl⟩)
      | merge e v =>
        cases hx
        exact hgives (by rw [Element.Gives, if_pos (hmerge x v rfl)]; exact ⟨v, rfl⟩)
      | decl v init l => cases hx
      | «return» v l => cases hx
    · exact (hheld x hx).concat hroot

namespace FlowGraph.Certified

variable {p : Program} {g : FlowGraph} {entry : BlockId → Set ExprId} {steps : List Element}
  {b : BlockId} {i : Nat}

/-- What a block holds before one of its steps is at hand on every walk to the step. -/
theorem atHand_of_mem (h : g.Certified p entry) (hwalk : g.Walk steps b i) :
    ∀ block, g.block? b = some block → ∀ x ∈ heldAfter (entry b) (block.elements.toList.take i),
      AtHand p steps x := by
  induction hwalk with
  | start =>
    intro block _ x hx
    rw [h.start] at hx
    exact absurd hx (Set.notMem_empty x)
  | @step steps b i block el _ hb hel ih =>
    intro block' hb' x hx
    cases hb.symm.trans hb'
    have hel' : block.elements.toList[i]? = some el := by rw [Array.getElem?_toList, hel]
    rw [take_add_one, hel', Option.toList_some, heldAfter_concat] at hx
    refine atHand_of_keep (ih block hb) (h.supplied b block hb i el hel') (fun e v heq => ?_) hx
    exact h.merge b block hb e v (heq ▸ Array.mem_of_getElem? hel)
  | @edge steps b target i block _ hb hnone hsucc ih =>
    intro block' _ x hx
    rw [take_zero, heldAfter_nil] at hx
    have hlen : block.elements.toList.length ≤ i := by
      rw [Array.length_toList]
      exact Array.getElem?_eq_none_iff.1 hnone
    refine ih block hb x ?_
    rw [take_of_length_le hlen]
    exact h.successor b block hb target hsucc hx

/-- **What a step or the end of a block needs is at hand on every walk to it.** -/
theorem atHand (h : g.Certified p entry) (hwalk : g.Walk steps b i) {block : Block}
    (hb : g.block? b = some block) :
    (∀ el, block.elements[i]? = some el → ∀ x ∈ el.operands p, AtHand p steps x) ∧
      (block.elements[i]? = none → ∀ x ∈ block.terminator.operands, AtHand p steps x) := by
  refine ⟨fun el hel x hx => h.atHand_of_mem hwalk block hb x ?_,
    fun hnone x hx => h.atHand_of_mem hwalk block hb x ?_⟩
  · exact h.supplied b block hb i el (by rw [Array.getElem?_toList, hel]) x hx
  · have hlen : block.elements.toList.length ≤ i := by
      rw [Array.length_toList]
      exact Array.getElem?_eq_none_iff.1 hnone
    rw [take_of_length_le hlen]
    exact h.operand b block hb x hx

end FlowGraph.Certified

end PathScout

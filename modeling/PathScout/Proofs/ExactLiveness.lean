import PathScout.Proofs.ScalarLowering

/-!
# Live variables are those that may be read

The rounds over a flow graph end, and what they end with is exact: a variable whose address is not
taken is live at the entrance of a block exactly if a walk from there comes to a reading of it before
it comes to a writing.

* `FlowGraph.from`: a graph that is entered at another block, so that its walks start there.
* `Element.Reads`, `Element.Writes`: the steps that read or write a variable.
* `FlowGraph.MayRead`: a walk from the block reads the variable before it writes it.
* `Liveness.Read.rounds`, `Liveness.Solves.mem_of_mayRead`: rounds add only variables that may be read,
  and a solution of the equations has all of these.
* `Program.liveness_exact`: both together, for every body of a built program.
-/

namespace PathScout

open Program Array List

theorem VarId.index_inj {v w : VarId} : v.index = w.index ↔ w = v :=
  ⟨fun h => congrArg mk h.symm, fun h => h ▸ rfl⟩

/-! ### Walks from any block -/

/-- The graph, entered at another block. -/
def FlowGraph.from (g : FlowGraph) (b : BlockId) : FlowGraph := { g with entry := b }

/-- A walk goes on with a walk from the entrance that it stands at. -/
theorem FlowGraph.Walk.append {g : FlowGraph} {b t b' : BlockId} {i : Nat} {first rest : List Element}
    (h : (g.from b).Walk first t 0) (hrest : (g.from t).Walk rest b' i) :
    (g.from b).Walk (first ++ rest) b' i := by
  induction hrest with
  | start => rwa [append_nil]
  | step _ hb hel ih =>
    rw [← List.append_assoc]
    exact ih.step hb hel
  | edge _ hb hend ht ih => exact ih.edge hb hend ht

/-- From the entrance of a block a walk comes to each of its steps. -/
theorem FlowGraph.walk_take {g : FlowGraph} {b : BlockId} {block : Block} {i : Nat}
    (hb : g.block? b = some block) (hi : i ≤ block.elements.size) :
    (g.from b).Walk (block.elements.toList.take i) b i := by
  induction i with
  | zero => exact .start
  | succ i ih =>
    have hel : block.elements[i]? = some block.elements[i] := getElem?_eq_getElem hi
    rw [take_add_one, getElem?_toList, hel]
    exact (ih (Nat.le_of_succ_le hi)).step hb hel

/-! ### Readings and writings -/

/-- The expression is what an assignment of the graph writes to. -/
def FlowGraph.AssignsTo (p : Program) (g : FlowGraph) (x : ExprId) : Prop :=
  ∃ e value, g.Evaluates e ∧ (p.expr e).op = .assign x value

/-- The graph takes the address of the variable, by `&` or as an array that becomes a pointer. -/
def FlowGraph.TakesAddress (p : Program) (g : FlowGraph) (v : VarId) : Prop :=
  ∃ e place, g.Evaluates e ∧ ((p.expr e).op = .addrOf place ∨ (p.expr e).op = .decay place) ∧
    (p.expr place).op = .var v

/-- The step evaluates the name of the variable, and not in order to assign to it. -/
def Element.Reads (p : Program) (g : FlowGraph) (v : VarId) : Element → Prop
  | .expr e _ => (p.expr e).op = .var v ∧ ¬ g.AssignsTo p e
  | .decl .. | .merge .. | .return .. => False

/-- The step assigns to the variable or declares it. -/
def Element.Writes (p : Program) (v : VarId) : Element → Prop
  | .expr e _ => ∃ target value, (p.expr e).op = .assign target value ∧ (p.expr target).op = .var v
  | .decl w _ _ => w = v
  | .merge .. | .return .. => False

/-- Some walk from the entrance of the block comes to a reading of the variable, and to no writing
before it. -/
def FlowGraph.MayRead (p : Program) (g : FlowGraph) (v : VarId) (b : BlockId) : Prop :=
  ∃ steps b' i block el, (g.from b).Walk steps b' i ∧ g.block? b' = some block ∧
    block.elements[i]? = some el ∧ el.Reads p g v ∧ ∀ a ∈ steps, ¬ a.Writes p v

/-! ### What a program knows of its expressions -/

namespace Program

variable {p p' : Program} {e x : ExprId} {op : Operation} {v : VarId}

theorem Keeps.op_eq (h : p.Keeps p') (hop : p.scope.op? e = some op) : (p'.expr e).op = op := by
  obtain ⟨a, ha, rfl⟩ := Option.map_eq_some_iff.1 hop
  have hlt : e.index < p.exprs.size := (Array.getElem?_eq_some_iff.1 ha).1
  rw [h.expr_eq e hlt, expr, show p.exprs[e.index]? = some a from ha, Option.getD_some]

theorem op?_scope (hop : op ≠ .int 0) : p.scope.op? e = some op ↔ (p.expr e).op = op := by
  refine ⟨(Keeps.refl p).op_eq, fun h => ?_⟩
  rw [expr] at h
  cases ha : p.exprs[e.index]? with
  | none =>
    rw [ha] at h
    exact absurd h.symm hop
  | some a =>
    rw [ha, Option.getD_some] at h
    rw [Liveness.Scope.op?, scope, ha, Option.map_some, h]

theorem Keeps.op_of_named? (h : p.Keeps p') (hx : p.scope.named? x = some v) :
    (p'.expr x).op = .var v := by
  refine h.op_eq ?_
  unfold Liveness.Scope.named? at hx
  split at hx
  · next w type span ha =>
    cases hx
    rw [Liveness.Scope.op?, ha, Option.map_some]
  · cases hx

theorem named?_scope : p.scope.named? x = some v ↔ (p.expr x).op = .var v :=
  ⟨(Keeps.refl p).op_of_named?, fun h => Liveness.named?_of_op? ((op?_scope (by simp)).2 h)⟩

end Program

namespace Liveness

variable {p : Program} {g : FlowGraph} {v : VarId} {el : Element} {els : List Element}
  {live : VarSet} {X : Array VarSet} {block : Block} {b : BlockId}

theorem mem_blocks_iff : block ∈ g.blocks ↔ ∃ b, g.block? b = some block := by
  rw [Array.mem_iff_getElem?]
  exact ⟨fun ⟨i, h⟩ => ⟨⟨i⟩, h⟩, fun ⟨b, h⟩ => ⟨b.index, h⟩⟩

theorem mem_assignedNames_iff {x : ExprId} (hx : (p.expr x).op = .var v) :
    x ∈ assignedNames p.scope g ↔ g.AssignsTo p x := by
  rw [mem_assignedNames]
  constructor
  · rintro ⟨block, hblock, e, root, hel, value, hop, -⟩
    obtain ⟨b, hb⟩ := mem_blocks_iff.1 hblock
    exact ⟨e, value, ⟨b, block, root, hb, hel⟩, (Program.Keeps.refl p).op_eq hop⟩
  · rintro ⟨e, value, ⟨b, block, root, hb, hel⟩, hop⟩
    refine ⟨block, mem_blocks_iff.2 ⟨b, hb⟩, e, root, hel, value, ?_, ?_⟩
    · exact (op?_scope (by simp)).2 hop
    · rw [named?_scope.2 hx, Option.isSome_some]

/-! ### What is live before steps -/

/-- What a step does to a variable that is followed. -/
theorem mem_beforeElement (hv : p.scope.isTracked v = true) :
    v.index ∈ beforeElement p.scope (assignedNames p.scope g) el live ↔
      el.Reads p g v ∨ v.index ∈ live ∧ ¬ el.Writes p v := by
  cases el with
  | expr e root =>
    unfold beforeElement
    dsimp only
    split
    · next target value hop =>
      replace hop : (p.expr e).op = .assign target value := (Program.Keeps.refl p).op_eq hop
      have hreads : ¬ Element.Reads p g v (.expr e root) := fun h => by cases hop.symm.trans h.1
      have hwrites : Element.Writes p v (.expr e root) ↔ (p.expr target).op = .var v := by
        constructor
        · rintro ⟨target', value', hop', htarget⟩
          cases hop.symm.trans hop'
          exact htarget
        · exact fun h => ⟨target, value, hop, h⟩
      rw [hwrites, ← named?_scope]
      split
      · next w hw =>
        rw [VarSet.mem_erase, hw, Option.some.injEq, ne_eq, VarId.index_inj]
        exact ⟨.inr, fun h => h.resolve_left hreads⟩
      · next hnone =>
        rw [hnone]
        exact ⟨fun h => .inr ⟨h, by simp⟩, fun h => (h.resolve_left hreads).1⟩
    · next w hop =>
      replace hop : (p.expr e).op = .var w := (Program.Keeps.refl p).op_eq hop
      have hwrites : ¬ Element.Writes p v (.expr e root) := by
        rintro ⟨target, value, hop', -⟩
        cases hop.symm.trans hop'
      have hreads : Element.Reads p g v (.expr e root) ↔ w = v ∧ e ∉ assignedNames p.scope g := by
        rw [mem_assignedNames_iff hop, Element.Reads, hop, Operation.var.injEq]
      rw [hreads]
      split
      · next hread =>
        rw [Bool.and_eq_true, Bool.not_eq_true', List.contains_eq_mem, decide_eq_false_iff_not] at hread
        rw [VarSet.mem_insert, VarId.index_inj]
        exact or_congr ⟨fun h => ⟨h, hread.2⟩, And.left⟩ ⟨fun h => ⟨h, hwrites⟩, And.left⟩
      · next hread =>
        refine ⟨fun h => .inr ⟨h, hwrites⟩, fun h => ?_⟩
        rcases h with ⟨rfl, hnot⟩ | h
        · rw [hv, Bool.true_and, Bool.not_eq_true', List.contains_eq_mem,
            decide_eq_false_iff_not] at hread
          exact absurd hnot hread
        · exact h.1
    · next hassign hvar =>
      have hreads : ¬ Element.Reads p g v (.expr e root) := fun h =>
        hvar v ((op?_scope (by simp)).2 h.1)
      have hwrites : ¬ Element.Writes p v (.expr e root) := by
        rintro ⟨target, value, hop, -⟩
        exact hassign target value ((op?_scope (by simp)).2 hop)
      exact ⟨fun h => .inr ⟨h, hwrites⟩, fun h => (h.resolve_left hreads).1⟩
  | decl w init l =>
    rw [beforeElement, VarSet.mem_erase, ne_eq, VarId.index_inj, Element.Reads, Element.Writes,
      false_or]
  | merge e value | «return» value l =>
    rw [beforeElement, Element.Reads, Element.Writes, false_or, not_false_iff, and_true]

/-- A variable is live before some steps if one of them reads it before they write it, or if it is
live behind them and they do not write it. -/
theorem mem_foldr_beforeElement (hv : p.scope.isTracked v = true) :
    v.index ∈ els.foldr (beforeElement p.scope (assignedNames p.scope g)) live ↔
      (∃ i el, els[i]? = some el ∧ el.Reads p g v ∧ ∀ a ∈ els.take i, ¬ a.Writes p v) ∨
        v.index ∈ live ∧ ∀ a ∈ els, ¬ a.Writes p v := by
  induction els with
  | nil => simp
  | cons a els ih =>
    rw [foldr_cons, mem_beforeElement hv, ih, forall_mem_cons]
    constructor
    · rintro (hread | ⟨⟨i, el, hel, hread, hwrite⟩ | ⟨hlive, hwrite⟩, ha⟩)
      · exact .inl ⟨0, a, rfl, hread, fun _ h => nomatch h⟩
      · refine .inl ⟨i + 1, el, hel, hread, ?_⟩
        rw [take_succ_cons, forall_mem_cons]
        exact ⟨ha, hwrite⟩
      · exact .inr ⟨hlive, ha, hwrite⟩
    · rintro (⟨i, el, hel, hread, hwrite⟩ | ⟨hlive, ha, hwrite⟩)
      · cases i with
        | zero =>
          cases hel
          exact .inl hread
        | succ i =>
          rw [take_succ_cons, forall_mem_cons] at hwrite
          exact .inr ⟨.inl ⟨i, el, hel, hread, hwrite.2⟩, hwrite.1⟩
      · exact .inr ⟨.inr ⟨hlive, hwrite⟩, ha⟩

/-! ### Only variables that may be read are live -/

/-- All variables in the sets may be read, of those that are followed. -/
def Read (p : Program) (g : FlowGraph) (X : Array VarSet) : Prop :=
  ∀ (v : VarId), p.scope.isTracked v = true → ∀ i, v.index ∈ at? X i → g.MayRead p v ⟨i⟩

/-- A variable that may be read behind a block, and that the block does not write, may be read before
the block. -/
theorem mayRead_of_successor {t : BlockId} (hb : g.block? b = some block)
    (ht : t ∈ block.terminator.successors) (hwrite : ∀ a ∈ block.elements.toList, ¬ a.Writes p v)
    (h : g.MayRead p v t) : g.MayRead p v b := by
  obtain ⟨steps, b', i, block', el, hwalk, hb', hel, hread, hsteps⟩ := h
  have hthrough : (g.from b).Walk block.elements.toList b block.elements.size := by
    have := FlowGraph.walk_take hb (le_refl block.elements.size)
    rwa [take_of_length_le (by simp)] at this
  have hedge : (g.from b).Walk block.elements.toList t 0 :=
    hthrough.edge hb (getElem?_eq_none (le_refl _)) ht
  refine ⟨_, b', i, block', el, hedge.append hwalk, hb', hel, hread, fun a ha => ?_⟩
  exact (mem_append.1 ha).elim (hwrite a) (hsteps a)

theorem Read.mayRead_of_mem_beforeBlock (h : Read p g X) (hb : g.block? b = some block)
    (hv : p.scope.isTracked v = true)
    (hmem : v.index ∈ beforeBlock p.scope (assignedNames p.scope g) X block) : g.MayRead p v b := by
  rw [beforeBlock_eq, mem_foldr_beforeElement hv] at hmem
  rcases hmem with ⟨i, el, hel, hread, hwrite⟩ | ⟨hlive, hwrite⟩
  · rw [getElem?_toList] at hel
    have hi : i ≤ block.elements.size := (Array.getElem?_eq_some_iff.1 hel).1.le
    exact ⟨_, b, i, block, el, FlowGraph.walk_take hb hi, hb, hel, hread, hwrite⟩
  · obtain ⟨t, ht, hmem⟩ := mem_behind.1 hlive
    exact mayRead_of_successor hb ht hwrite (h v hv t.index hmem)

theorem Read.renew (h : Read p g X) (hsize : X.size = g.blocks.size) (i : Nat) :
    Read p g (renew p.scope (assignedNames p.scope g) g i X) := by
  intro v hv j hmem
  by_cases hj : j = i
  · subst hj
    cases hb : g.blocks[j]? with
    | none =>
      rw [Liveness.renew, hb] at hmem
      exact h v hv j hmem
    | some block =>
      rw [at?_renew_self hb hsize] at hmem
      exact h.mayRead_of_mem_beforeBlock hb hv hmem
  · rw [at?_renew_of_ne hj] at hmem
    exact h v hv j hmem

theorem Read.renewAll (h : Read p g X) (hsize : X.size = g.blocks.size) (is : List Nat) :
    Read p g (renewAll p.scope (assignedNames p.scope g) g is X) := by
  induction is with
  | nil => exact h
  | cons i is ih => exact ih.renew ((size_renewAll is).trans hsize) i

/-- **Rounds add only variables that may be read.** -/
theorem Read.rounds (h : Read p g X) (hsize : X.size = g.blocks.size) (n : Nat) :
    Read p g ((round p.scope (assignedNames p.scope g) g)^[n] X) ∧
      ((round p.scope (assignedNames p.scope g) g)^[n] X).size = g.blocks.size := by
  induction n with
  | zero => exact ⟨h, hsize⟩
  | succ n ih =>
    rw [Function.iterate_succ_apply']
    exact ⟨ih.1.renewAll ih.2 _, (size_renewAll _).trans ih.2⟩

/-! ### All variables that may be read are live -/

/-- The sets solve the equations of the graph. -/
def Solves (p : Program) (g : FlowGraph) (X : Array VarSet) : Prop :=
  ∀ b block, g.block? b = some block →
    at? X b.index = beforeBlock p.scope (assignedNames p.scope g) X block

/-- **What is live where a walk stands was live where it set out**, if the walk wrote nothing to it. -/
theorem Solves.mem_of_walk {steps : List Element} {b' : BlockId} {i : Nat} (hX : Solves p g X)
    (hv : p.scope.isTracked v = true) (hwalk : (g.from b).Walk steps b' i)
    (hwrite : ∀ a ∈ steps, ¬ a.Writes p v) (hb : g.block? b' = some block)
    (hmem : v.index ∈ (block.elements.toList.drop i).foldr
      (beforeElement p.scope (assignedNames p.scope g)) (behind X block)) :
    v.index ∈ at? X b.index := by
  induction hwalk generalizing block with
  | start =>
    rw [hX b block hb, beforeBlock_eq]
    exact hmem
  | @step steps b' i block' el hwalk hb' hel ih =>
    obtain rfl : block' = block := Option.some.inj (hb'.symm.trans hb)
    rw [List.forall_mem_append, List.forall_mem_singleton] at hwrite
    refine ih hwrite.1 hb ?_
    have hdrop : block'.elements.toList.drop i = el :: block'.elements.toList.drop (i + 1) := by
      obtain ⟨hi, rfl⟩ := Array.getElem?_eq_some_iff.1 hel
      rw [drop_eq_getElem_cons (by simpa using hi), getElem_toList]
    rw [hdrop, foldr_cons, mem_beforeElement hv]
    exact .inr ⟨hmem, hwrite.2⟩
  | @edge steps b' t i block' hwalk hb' hend ht ih =>
    refine ih hwrite hb' ?_
    rw [drop_of_length_le (by simpa using getElem?_eq_none_iff.1 hend), foldr_nil,
      mem_behind]
    refine ⟨t, ht, ?_⟩
    rw [hX t block hb, beforeBlock_eq]
    exact hmem

/-- A solution has all variables that may be read. -/
theorem Solves.mem_of_mayRead (hX : Solves p g X) (hv : p.scope.isTracked v = true)
    (h : g.MayRead p v b) : v.index ∈ at? X b.index := by
  obtain ⟨steps, b', i, block, el, hwalk, hb, hel, hread, hwrite⟩ := h
  refine hX.mem_of_walk hv hwalk hwrite hb
    ((mem_foldr_beforeElement hv).2 (.inl ⟨0, el, ?_, hread, ?_⟩))
  · rw [getElem?_drop, Nat.add_zero, getElem?_toList, hel]
  · simp

/-! ### The rounds end -/

section

variable {s s' : Scope} {assigned : List ExprId}

/-- Repeating rounds until nothing changes makes a number of rounds. -/
theorem exists_iterate_eq (n : Nat) (X : Array VarSet) :
    ∃ k, iterate s assigned g n X = (round s assigned g)^[k] X := by
  induction n generalizing X with
  | zero => exact ⟨0, rfl⟩
  | succ n ih =>
    rw [iterate]
    split
    · exact ⟨0, rfl⟩
    · obtain ⟨k, hk⟩ := ih (round s assigned g X)
      exact ⟨k + 1, hk⟩

/-- **The rounds come to one that changes nothing**, and what they have then is the result. -/
theorem exists_rounds (s : Scope) (g : FlowGraph) : ∃ n, (compute s g).liveIn =
        (round s (assignedNames s g) g)^[n] (Array.replicate g.blocks.size []) ∧
      round s (assignedNames s g) g (compute s g).liveIn = (compute s g).liveIn := by
  obtain ⟨n, hn⟩ := exists_iterate_eq (g.blocks.size * s.exprs.size + 1)
    (Array.replicate g.blocks.size [])
  exact ⟨n, hn, (round_compute s g).2⟩

theorem Agree.round_eq (h : Agree s s' g) (X : Array VarSet) :
    round s (assignedNames s g) g X = round s' (assignedNames s' g) g X := by
  have hrenew : ∀ i X, renew s (assignedNames s g) g i X = renew s' (assignedNames s' g) g i X := by
    intro i X
    unfold renew
    split
    · next block hb =>
      rw [← h.assignedNames_eq, h.beforeBlock_eq (mem_of_getElem? hb)]
    · rfl
  rw [Liveness.round_eq, Liveness.round_eq, renewAll, renewAll]
  exact congrArg (List.foldr · X _) (funext fun i => funext (hrenew i))

/-! ### Addresses -/

end

/-- The variables whose address is taken are those of which a step takes it. -/
theorem mem_takenAddresses {s : Scope} : v.index ∈ takenAddresses s g ↔
    ∃ block ∈ g.blocks, ∃ el ∈ block.elements, ∃ e root place, el = .expr e root ∧
      (s.op? e = some (.addrOf place) ∨ s.op? e = some (.decay place)) ∧
      s.named? place = some v := by
  rw [takenAddresses, ← foldl_toList]
  refine (VarSet.mem_foldl (P := fun block => ∃ el ∈ block.elements, ∃ e root place,
    el = .expr e root ∧ (s.op? e = some (.addrOf place) ∨ s.op? e = some (.decay place)) ∧
      s.named? place = some v) fun acc block => ?_).trans (by simp)
  rw [← foldl_toList]
  refine (VarSet.mem_foldl (P := fun el => ∃ e root place, el = .expr e root ∧
    (s.op? e = some (.addrOf place) ∨ s.op? e = some (.decay place)) ∧ s.named? place = some v)
    fun acc el => ?_).trans (by simp)
  -- a step adds the variable whose address it takes, if it takes one
  cases el with
  | expr e root =>
    dsimp only
    split
    iterate 2
      · next place hop =>
        cases hv : s.named? place <;> simp [hop, hv, VarId.index_inj, or_comm]
    · next haddr hdecay =>
      refine ⟨.inl, fun h => h.resolve_right ?_⟩
      rintro ⟨_, _, place, ⟨⟩, hop | hop, -⟩
      · exact haddr place hop
      · exact hdecay place hop
  | decl v init l => simp
  | merge e v => simp
  | «return» v l => simp

theorem takesAddress_of_mem {p' : Program} (hp : p'.Keeps p)
    (h : v.index ∈ takenAddresses p'.scope g) : g.TakesAddress p v := by
  obtain ⟨block, hblock, _, hel, e, root, place, rfl, hop, hv⟩ := mem_takenAddresses.1 h
  obtain ⟨b, hb⟩ := mem_blocks_iff.1 hblock
  exact ⟨e, place, ⟨b, block, root, hb, hel⟩, hop.imp hp.op_eq hp.op_eq, hp.op_of_named? hv⟩

theorem mem_of_takesAddress (h : g.TakesAddress p v) : v.index ∈ takenAddresses p.scope g := by
  obtain ⟨e, place, ⟨b, block, root, hb, hel⟩, hop, hv⟩ := h
  refine mem_takenAddresses.2 ⟨block, mem_blocks_iff.2 ⟨b, hb⟩, _, hel, e, root, place, rfl, ?_,
    named?_scope.2 hv⟩
  exact hop.imp (op?_scope (by simp)).2 (op?_scope (by simp)).2

end Liveness

/-! ### Built programs -/

namespace Draft.Made

variable {d : Draft} {p : Program} {body : FunctionBody}

/-- The liveness of a body comes from rounds over the finished program, too. -/
theorem exists_rounds (hm : d.Made p body) : ∃ n, body.liveness.liveIn =
        (Liveness.round p.scope (Liveness.assignedNames p.scope body.graph) body.graph)^[n]
          (Array.replicate body.graph.blocks.size []) ∧
      Liveness.round p.scope (Liveness.assignedNames p.scope body.graph) body.graph
        body.liveness.liveIn = body.liveness.liveIn := by
  have hround : Liveness.round d.program.scope
      (Liveness.assignedNames d.program.scope body.graph) body.graph =
      Liveness.round p.scope (Liveness.assignedNames p.scope body.graph) body.graph :=
    funext hm.agree.round_eq
  have hlive : body.liveness = .compute d.program.scope body.graph := by
    rw [hm.graph_eq]
    exact hm.liveness_eq
  rw [← hround, hlive]
  exact Liveness.exists_rounds d.program.scope body.graph

theorem solves (hm : d.Made p body) : Liveness.Solves p body.graph body.liveness.liveIn := by
  intro b block hb
  rw [← hm.agree.assignedNames_eq, ← hm.agree.beforeBlock_eq (mem_of_getElem? hb),
    hm.liveness_eq, hm.graph_eq]
  exact Liveness.compute_solves d.program.scope d.graph (hm.graph_eq ▸ hb)

theorem read (hm : d.Made p body) : Liveness.Read p body.graph body.liveness.liveIn := by
  obtain ⟨n, hn, -⟩ := hm.exists_rounds
  rw [hn]
  refine (Liveness.Read.rounds (fun v _ i hmem => ?_) size_replicate n).1
  rw [Liveness.at?_replicate] at hmem
  cases hmem

/-- A variable is live at the entrance of a block exactly if it may be read from there. -/
theorem isLiveAtEntry_iff (hm : d.Made p body) {b : BlockId} {v : VarId}
    (hv : (p.var v).hasGlobalStorage = false) (haddress : ¬ body.graph.TakesAddress p v) :
    body.liveness.isLiveAtEntry b v = true ↔ body.graph.MayRead p v b := by
  have htracked : p.scope.isTracked v = true := by simp [Program.scope, hv]
  have htaken : body.liveness.isAddressTaken v = false := by
    rw [Liveness.isAddressTaken, List.contains_eq_mem, decide_eq_false_iff_not, hm.liveness_eq,
      ← hm.graph_eq]
    exact fun h => haddress (Liveness.takesAddress_of_mem hm.keeps h)
  rw [Liveness.isLiveAtEntry, htaken, Bool.false_or, List.contains_eq_mem, decide_eq_true_iff]
  exact ⟨hm.read v htracked b.index, hm.solves.mem_of_mayRead htracked⟩

end Draft.Made

variable {u : SourceUnit} {file : String} {p : Program}

/-- **Liveness is exact.** The rounds over the graph of a body come to one that changes nothing, and
a variable of a single call whose address is not taken is live at the entrance of a block exactly if
some walk from there reads it before it writes it. -/
theorem Program.liveness_exact (h : Program.ofUnit u file = .ok p) {f : FunctionId}
    {body : FunctionBody} (hf : (p.function f).body = some body) :
    (∃ n, body.liveness.liveIn =
        (Liveness.round p.scope (Liveness.assignedNames p.scope body.graph) body.graph)^[n]
          (Array.replicate body.graph.blocks.size []) ∧
      Liveness.round p.scope (Liveness.assignedNames p.scope body.graph) body.graph
        body.liveness.liveIn = body.liveness.liveIn) ∧
      ∀ b v, (p.var v).hasGlobalStorage = false → ¬ body.graph.TakesAddress p v →
        (body.liveness.isLiveAtEntry b v = true ↔ body.graph.MayRead p v b) := by
  obtain ⟨globals, hp⟩ := ofUnit_built h
  obtain ⟨d, hm⟩ := hp.body f body hf
  exact ⟨hm.exists_rounds, fun b v hv haddress => hm.isLiveAtEntry_iff hv haddress⟩

/-- The unit `int f(int n) { int x = 0; while (n) x = n; return x; }`. -/
def copyingUnit : SourceUnit :=
  let span : Span := .point ⟨1, 1⟩
  let n : Expr := .ident span "n"
  let x : Expr := .ident span "x"
  .single .int [("n", .int)]
    [.decl ⟨1, 1⟩ [⟨"x", .int, some (.expr (.int span 0)), false, ⟨1, 1⟩⟩],
      .whileDo ⟨1, 1⟩ n (.expr ⟨1, 1⟩ (.assign span none x n)), .return ⟨1, 1⟩ (some x)]

/-- The variable `x` may be read when the loop is entered, but not when the function is. -/
theorem Program.liveness_exact_copying : ∃ p body, Program.ofUnit copyingUnit "a.c" = .ok p ∧
    (p.function ⟨0⟩).body = some body ∧ (p.var ⟨1⟩).hasGlobalStorage = false ∧
      ¬ body.graph.TakesAddress p ⟨1⟩ ∧ body.graph.MayRead p ⟨1⟩ ⟨2⟩ ∧
      ¬ body.graph.MayRead p ⟨1⟩ ⟨0⟩ := by
  have hcheck : (Program.ofUnit copyingUnit "a.c").toOption.any (fun p =>
      (p.function ⟨0⟩).body.any fun body => !(p.var ⟨1⟩).hasGlobalStorage &&
        decide (1 ∉ Liveness.takenAddresses p.scope body.graph) &&
        body.liveness.isLiveAtEntry ⟨2⟩ ⟨1⟩ && !body.liveness.isLiveAtEntry ⟨0⟩ ⟨1⟩) = true := by
    decide +kernel
  obtain ⟨p, hu, hcheck⟩ := exists_ok_of_any hcheck
  obtain ⟨body, hf, hcheck⟩ := (Option.any_eq_true _ _).1 hcheck
  simp only [Bool.and_eq_true, Bool.not_eq_true', decide_eq_true_eq] at hcheck
  obtain ⟨⟨⟨hv, htaken⟩, hloop⟩, hstart⟩ := hcheck
  have haddress : ¬ body.graph.TakesAddress p ⟨1⟩ := fun h =>
    htaken (Liveness.mem_of_takesAddress h)
  obtain ⟨-, hexact⟩ := liveness_exact hu hf
  refine ⟨p, body, hu, hf, hv, haddress, (hexact _ _ hv haddress).1 hloop, fun h => ?_⟩
  rw [(hexact _ _ hv haddress).2 h] at hstart
  cases hstart

end PathScout

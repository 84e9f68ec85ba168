import PathScout.Proofs.ConcreteRun
import PathScout.Proofs.LivenessLaws
import PathScout.Proofs.LoweredUnits

/-!
# Built scalar functions

A function is scalar if its parameters and local variables are integers and its expressions only
compute with them. Building takes care of the rest: every expression is an `int` then, names stand
where variables are needed and numbers elsewhere, and the live variables solve their equations.

* `Program.ScalarFunction`: scalar functions, as one reads it off a function.
* `Draft.Made.type_eq_int`: their expressions have type `int`.
* `Program.ScalarFunction.isScalar`: they have all that runs on numbers need.
-/

namespace PathScout

open List Array

variable {op : Operation} {p : Program} {f : FunctionId} {body : FunctionBody}

/-- The operations of scalar functions. -/
def Operation.isScalar : Operation → Bool
  | .int _ | .var _ | .load _ | .unary .. | .binary .. | .assign .. | .compound .. | .incDec ..
  | .join => true
  | _ => false

/-- The places of scalar functions are variables. -/
theorem Operation.exists_var (hop : op.isScalar = true) (hplace : op.isPlace = true) :
    ∃ v, op = .var v := by
  cases op <;> simp_all [isScalar, isPlace]

/-- The function returns an integer or nothing, its parameters and local variables are integers that
live as long as a call, and its expressions compute with these variables only. -/
structure Program.ScalarFunction (p : Program) (f : FunctionId) (body : FunctionBody) : Prop where
  body_eq : (p.function f).body = some body
  returns : (p.function f).returns = .int ∨ (p.function f).returns = .void
  isInt : ∀ v ∈ (p.function f).params ++ body.locals, (p.var v).type = .int
  notStatic : ∀ v ∈ body.locals, (p.var v).kind ≠ .staticLocal
  operation : ∀ e, body.graph.Evaluates e → (p.expr e).op.isScalar = true
  name : ∀ e v, body.graph.Evaluates e → (p.expr e).op = .var v →
    v ∈ (p.function f).params ++ body.locals

/-- Does the step compute with some variables only? -/
def Program.isScalarStep (p : Program) (vars : List VarId) : Element → Bool
  | .expr e _ => (p.expr e).op.isScalar && match (p.expr e).op with
    | .var v => vars.contains v
    | _ => true
  | _ => true

/-- Is the function scalar, with the given body? -/
def Program.isScalarBody (p : Program) (f : FunctionId) (body : FunctionBody) : Bool :=
  ((p.function f).returns = .int || (p.function f).returns = .void) &&
    ((p.function f).params ++ body.locals).all (fun v => (p.var v).type = .int) &&
    body.locals.all (fun v => (p.var v).kind ≠ .staticLocal) &&
    body.graph.blocks.all fun block =>
      block.elements.all (p.isScalarStep ((p.function f).params ++ body.locals))

theorem Program.scalarFunction_of_isScalarBody (hbody : (p.function f).body = some body)
    (h : p.isScalarBody f body = true) : p.ScalarFunction f body := by
  unfold isScalarBody at h
  simp only [Bool.and_eq_true, Bool.or_eq_true, decide_eq_true_eq, List.all_eq_true,
    all_eq_true_iff_forall_mem] at h
  obtain ⟨⟨⟨hreturns, hint⟩, hstatic⟩, hsteps⟩ := h
  have hstep : ∀ e, body.graph.Evaluates e → (p.expr e).op.isScalar = true ∧
      ∀ v, (p.expr e).op = .var v → v ∈ (p.function f).params ++ body.locals := by
    rintro e ⟨b, block, root, hb, hel⟩
    have hcheck := hsteps block (mem_of_getElem? hb) _ hel
    rw [isScalarStep, Bool.and_eq_true] at hcheck
    refine ⟨hcheck.1, fun v hv => ?_⟩
    rw [hv] at hcheck
    exact contains_iff_mem.1 hcheck.2
  exact
    { body_eq := hbody
      returns := hreturns
      isInt := hint
      notStatic := hstatic
      operation := fun e he => (hstep e he).1
      name := fun e v he hv => (hstep e he).2 v hv }

theorem Draft.Sound.op_of_op? {d : Draft} {e : ExprId} (hd : d.Sound) (he : d.Evaluated e)
    (h : d.program.scope.op? e = some op) : (d.expr e).op = op := by
  have hlt : e.index < d.program.exprs.size := hd.lt_of_evaluated he
  rw [Liveness.Scope.op?, Program.scope, Array.getElem?_eq_getElem hlt] at h
  rw [Draft.expr, Program.expr, Array.getElem?_eq_getElem hlt]
  exact Option.some.inj h

namespace Draft.Made

variable {d : Draft} {p : Program} {f : FunctionId} {body : FunctionBody} {b : BlockId}
  {block : Block} {e x : ExprId} {el : Element}

section

variable (hm : d.Made p body)
include hm

theorem evaluates_iff : body.graph.Evaluates e ↔ d.Evaluated e := by rw [hm.graph_eq, evaluates_graph]

theorem expr_eq (he : d.Evaluated e) : p.expr e = d.expr e :=
  hm.keeps.expr_eq e (hm.sound.lt_of_evaluated he)

/-- A block of the body comes from a sound block of the draft. -/
theorem source (hb : body.graph.block? b = some block) :
    ∃ open_, d.block? b = some open_ ∧ block = open_.close ∧ d.BlockSound b open_ := by
  rw [hm.graph_eq] at hb
  obtain ⟨open_, hopen, rfl⟩ := exists_of_block?_graph hb
  exact ⟨open_, hopen, rfl, hm.sound.block b open_ hopen⟩

theorem evaluated_of_mem {root : Bool} (hb : body.graph.block? b = some block)
    (hel : .expr e root ∈ block.elements) : d.Evaluated e := by
  obtain ⟨source, hsource, rfl, -⟩ := hm.source hb
  exact ⟨b, source, root, hsource, hel⟩

/-- What the operation of an evaluated expression is about. -/
theorem admits (he : d.Evaluated e) :
    d.Admits (d.expr e).op (d.expr e).type ∧ ((d.expr e).op = .join → d.JoinTyped e) ∧
      ((d.expr e).op ≠ .join → ∀ x ∈ (d.expr e).op.operands, d.Evaluated x) := by
  obtain ⟨b, block, root, hb, hel⟩ := he
  have hsound := hm.sound.block b block hb
  obtain ⟨-, hadmits, hjoin⟩ := hsound.typed _ hel
  refine ⟨hadmits, hjoin, fun hop x hx => hsound.evaluated _ hel x ?_⟩
  have heq : Element.operands d.program (.expr e root) = (d.expr e).op.operands := if_neg hop
  rw [heq]
  exact hx

/-- Every expression of a scalar function is an `int`. -/
theorem type_eq_int (hf : p.ScalarFunction f body) (he : d.Evaluated e) : (d.expr e).type = .int := by
  induction hn : e.index using Nat.strong_induction_on generalizing e with
  | _ n ih =>
  subst hn
  have hlt := hm.sound.lt_of_evaluated he
  have hop := hf.operation e (hm.evaluates_iff.2 he)
  have hvar : ∀ v ∈ d.state.locals, (d.program.var v).type = .int := fun v hv => by
    rw [← hm.keeps.var_eq v (hm.sound.locals v hv).1]
    refine hf.isInt v (mem_append_right _ ?_)
    rw [hm.locals_eq]
    exact mem_toList_iff.2 hv
  rw [hm.expr_eq he] at hop
  obtain ⟨hadmits, hjoin, hev⟩ := hm.admits he
  have holder : (d.expr e).op ≠ .join → ∀ x ∈ (d.expr e).op.operands, (d.expr x).type = .int :=
    fun hop x hx => ih x.index (hm.sound.older e hlt x hx) (hev hop x hx) rfl
  cases hexpr : (d.expr e).op with
  | int n =>
    rw [hexpr] at hadmits
    rcases hadmits with h | ⟨v, hv, hne⟩
    · exact h
    · exact absurd (hvar v hv) hne
  | var v =>
    rw [hexpr] at hadmits
    have hmem := hf.name e v (hm.evaluates_iff.2 he) (by rw [hm.expr_eq he, hexpr])
    rw [hadmits.2, ← hm.keeps.var_eq v hadmits.1]
    exact hf.isInt v hmem
  | load a =>
    rw [hexpr] at hadmits holder
    exact hadmits.2.trans (holder (by simp) a mem_cons_self)
  | unary op a =>
    rw [hexpr] at hadmits
    exact hadmits.2
  | binary op l r =>
    rw [hexpr] at hadmits holder
    exact hadmits.2.2 (holder (by simp) l mem_cons_self)
      (holder (by simp) r (mem_cons_of_mem _ mem_cons_self))
  | assign t v | compound op t v =>
    rw [hexpr] at hadmits holder
    exact hadmits.2.2.trans (holder (by simp) t mem_cons_self)
  | incDec t increment before =>
    rw [hexpr] at hadmits holder
    exact hadmits.2.trans (holder (by simp) t mem_cons_self)
  | join =>
    rcases hjoin hexpr with h | ⟨a, ha, htype, hlt' | ⟨x, hx⟩⟩
    · exact h
    · exact htype.symm.trans (ih a.index hlt' ha rfl)
    · -- scalar functions convert nothing
      have hcast := hf.operation a (hm.evaluates_iff.2 ha)
      rw [hm.expr_eq ha, hx] at hcast
      cases hcast
  | _ =>
    rw [hexpr] at hop
    cases hop

/-- A value of a scalar function is a number. -/
theorem isNumber (hf : p.ScalarFunction f body) (he : d.Evaluated e)
    (hplace : (d.expr e).op.isPlace = false) : p.IsNumber e := by
  refine ⟨by rw [hm.expr_eq he]; exact hm.type_eq_int hf he, fun v hv => ?_⟩
  rw [hm.expr_eq he] at hv
  rw [hv] at hplace
  cases hplace

/-- A place of a scalar function is a variable. -/
theorem isName (hf : p.ScalarFunction f body) (he : d.Evaluated e)
    (hplace : (d.expr e).op.isPlace = true) : p.IsName ((p.function f).params ++ body.locals) e := by
  refine ⟨by rw [hm.expr_eq he]; exact hm.type_eq_int hf he, ?_⟩
  obtain ⟨v, hv⟩ := Operation.exists_var (hf.operation e (hm.evaluates_iff.2 he))
    (by rwa [hm.expr_eq he])
  exact ⟨v, hf.name e v (hm.evaluates_iff.2 he) hv, hv⟩

end

theorem mem_blocks (hblock : block ∈ body.graph.blocks) : ∃ b, body.graph.block? b = some block := by
  obtain ⟨i, hi⟩ := getElem?_of_mem hblock
  exact ⟨⟨i⟩, hi⟩

/-- The liveness of the body was computed from a scope that agrees with the program. -/
theorem agree (hm : d.Made p body) : Liveness.Agree d.program.scope p.scope body.graph := by
  have hget : ∀ {e : ExprId}, e.index < d.size →
      ∃ x, d.program.exprs[e.index]? = some x ∧ p.exprs[e.index]? = some x := by
    intro e he
    have heq := hm.keeps.expr_eq e he
    have he' := he.trans_le hm.keeps.size_le
    rw [Program.expr, Program.expr, Array.getElem?_eq_getElem he, Array.getElem?_eq_getElem he'] at heq
    exact ⟨_, Array.getElem?_eq_getElem he, (Array.getElem?_eq_getElem he').trans (congrArg some heq)⟩
  have hev : ∀ {block : Block} {e : ExprId} {root : Bool}, block ∈ body.graph.blocks →
      .expr e root ∈ block.elements → d.Evaluated e := fun hblock hel => by
    obtain ⟨b, hb⟩ := mem_blocks hblock
    exact hm.evaluated_of_mem hb hel
  refine ⟨fun hblock hel => ?_, fun {block e t v root} hblock hel hop => ?_,
    fun {block e root v} hblock hel hop => ?_⟩
  · obtain ⟨x, hx, hx'⟩ := hget (hm.sound.lt_of_evaluated (hev hblock hel))
    rw [Liveness.Scope.op?, Liveness.Scope.op?, Program.scope, Program.scope, hx, hx']
  · have he := hev hblock hel
    have hlt := hm.sound.lt_of_evaluated he
    have ht := hm.sound.older e hlt t (by rw [hm.sound.op_of_op? he hop]; exact mem_cons_self)
    obtain ⟨x, hx, hx'⟩ := hget (ht.trans hlt)
    rw [Liveness.Scope.named?, Liveness.Scope.named?, Program.scope, Program.scope, hx, hx']
  · have he := hev hblock hel
    obtain ⟨hadmits, -⟩ := hm.admits he
    rw [hm.sound.op_of_op? he hop] at hadmits
    simp only [Program.scope, hm.keeps.var_eq v hadmits.1]

/-- The live variables of the body solve their equations. -/
theorem live (hm : d.Made p body) (hb : body.graph.block? b = some block) {v : Nat}
    (hv : v ∈ Liveness.beforeBlock p.scope (Liveness.assignedNames p.scope body.graph)
      body.liveness.liveIn block) : v ∈ body.liveness.liveIn[b.index]?.getD [] := by
  have hblock : block ∈ body.graph.blocks := mem_of_getElem? hb
  rw [← hm.agree.assignedNames_eq, ← hm.agree.beforeBlock_eq hblock] at hv
  have hsolves : Liveness.at? body.liveness.liveIn b.index = Liveness.beforeBlock d.program.scope
      (Liveness.assignedNames d.program.scope body.graph) body.liveness.liveIn block := by
    rw [hm.liveness_eq, hm.graph_eq]
    exact Liveness.compute_solves d.program.scope d.graph (hm.graph_eq ▸ hb)
  rw [← hsolves] at hv
  exact hv

/-- The name of a variable that is assigned to is not used otherwise. -/
theorem eq_assign_of_mem (hm : d.Made p body)
    (hx : x ∈ Liveness.assignedNames p.scope body.graph) (he : d.Evaluated e)
    (hop : x ∈ (d.expr e).op.operands) : ∃ v, (d.expr e).op = .assign x v := by
  rw [← hm.agree.assignedNames_eq] at hx
  obtain ⟨block, hblock, e', root, hel, v, hop', -⟩ := Liveness.mem_assignedNames.1 hx
  obtain ⟨b, hb⟩ := mem_blocks hblock
  have he' := hm.evaluated_of_mem hb hel
  have hassign := hm.sound.op_of_op? he' hop'
  have hsame : e = e' := hm.sound.linear e e' x (hm.sound.lt_of_evaluated he)
    (hm.sound.lt_of_evaluated he') hop (by rw [hassign]; exact mem_cons_self)
  exact ⟨v, hsame ▸ hassign⟩

/-- An evaluated expression computes with numbers and variables. -/
theorem scalarExpr (hm : d.Made p body) (hf : p.ScalarFunction f body) (he : d.Evaluated e) :
    p.ScalarExpr ((p.function f).params ++ body.locals)
      (Liveness.assignedNames p.scope body.graph) e := by
  have hop := hf.operation e (hm.evaluates_iff.2 he)
  have hexpr := hm.expr_eq he
  obtain ⟨hadmits, -, hev⟩ := hm.admits he
  have hname := hf.name e
  rw [hexpr] at hop hname
  -- a name that is read is not one that is assigned to
  have hread : ∀ x ∈ (d.expr e).op.operands, (∀ v, (d.expr e).op ≠ .assign x v) →
      x ∉ Liveness.assignedNames p.scope body.graph := fun x hx hne hmem => by
    obtain ⟨v, hv⟩ := hm.eq_assign_of_mem hmem he hx
    exact hne v hv
  refine ⟨by rw [hexpr]; exact hm.type_eq_int hf he, ?_⟩
  rw [hexpr]
  cases hcase : (d.expr e).op with
  | int n => trivial
  | join => trivial
  | var v => exact hname v (hm.evaluates_iff.2 he) hcase
  | load a =>
    rw [hcase] at hadmits hev hread
    exact ⟨hm.isName hf (hev (by simp) a mem_cons_self) hadmits.1,
      hread a mem_cons_self (by simp)⟩
  | unary op a =>
    rw [hcase] at hadmits hev
    exact hm.isNumber hf (hev (by simp) a mem_cons_self) hadmits.1
  | binary op l r =>
    rw [hcase] at hadmits hev
    exact ⟨hm.isNumber hf (hev (by simp) l mem_cons_self) hadmits.1,
      hm.isNumber hf (hev (by simp) r (mem_cons_of_mem _ mem_cons_self)) hadmits.2.1⟩
  | assign t v =>
    rw [hcase] at hadmits hev
    exact ⟨hm.isName hf (hev (by simp) t mem_cons_self) hadmits.1,
      hm.isNumber hf (hev (by simp) v (mem_cons_of_mem _ mem_cons_self)) hadmits.2.1⟩
  | compound op t v =>
    rw [hcase] at hadmits hev hread
    exact ⟨hm.isName hf (hev (by simp) t mem_cons_self) hadmits.1,
      hread t mem_cons_self (by simp),
      hm.isNumber hf (hev (by simp) v (mem_cons_of_mem _ mem_cons_self)) hadmits.2.1⟩
  | incDec t increment before =>
    rw [hcase] at hadmits hev hread
    exact ⟨hm.isName hf (hev (by simp) t mem_cons_self) hadmits.1,
      hread t mem_cons_self (by simp)⟩
  | _ =>
    rw [hcase] at hop
    cases hop

section

variable (hm : d.Made p body) (hf : p.ScalarFunction f body) (hb : body.graph.block? b = some block)
include hm hf hb

/-- A step computes with numbers and variables. -/
theorem scalarElement (hel : el ∈ block.elements) :
    p.ScalarElement ((p.function f).params ++ body.locals)
      (Liveness.assignedNames p.scope body.graph) el := by
  obtain ⟨source, hsource, rfl, hsound⟩ := hm.source hb
  have htyped := hsound.typed el hel
  have hev := hsound.evaluated el hel
  -- the joined expression that a way sets
  have htarget : ∀ t : ExprId, t.index < d.size → (d.expr t).op = .join → (d.expr t).type = .int →
      p.IsNumber t := fun t hlt hop htype => by
    have heq : p.expr t = d.expr t := hm.keeps.expr_eq t hlt
    exact ⟨by rw [heq, htype], fun v hv => by cases hop.symm.trans (heq ▸ hv)⟩
  cases el with
  | expr e root => exact hm.scalarExpr hf (hm.evaluated_of_mem hb hel)
  | decl v init l =>
    obtain ⟨hv, hplace, hpath⟩ := htyped
    have hmem : v ∈ (p.function f).params ++ body.locals := by
      rw [hm.locals_eq]
      exact mem_append_right _ (mem_toList_iff.2 hv)
    refine ⟨hmem, ?_⟩
    cases init with
    | none => trivial
    | some init =>
      cases init with
      | expr e => exact hm.isNumber hf (hev e mem_cons_self) (hplace e mem_cons_self)
      | list entries =>
        have htype := hf.isInt v hmem
        rw [hm.keeps.var_eq v (hm.sound.locals v hv).1] at htype
        intro entry hentry
        have hvalue : entry.value ∈ entries.map (·.value) := mem_map_of_mem hentry
        exact ⟨hpath entries rfl htype entry hentry, hm.isNumber hf (hev _ hvalue) (hplace _ hvalue)⟩
  | merge t v =>
    cases v with
    | int n =>
      obtain ⟨hlt, hop, htype⟩ := htyped
      exact ⟨htarget t hlt hop htype, trivial⟩
    | expr a =>
      obtain ⟨hlt, hop, hplace, htype⟩ := htyped
      have ha := hev a mem_cons_self
      exact ⟨htarget t hlt hop (htype.symm.trans (hm.type_eq_int hf ha)), hm.isNumber hf ha hplace⟩
  | «return» value l =>
    intro e he
    have hmem : e ∈ Element.operands d.program (.return value l) := by simpa [Element.operands] using he
    exact hm.isNumber hf (hev e hmem) (htyped e he)

/-- The end of a block is decided by a number that the block evaluates. -/
theorem scalarTerminator : p.ScalarTerminator block.terminator ∧ ∀ x ∈ block.terminator.operands,
      ∃ root, .expr x root ∈ block.elements := by
  obtain ⟨source, hsource, rfl, hsound⟩ := hm.source hb
  have hops : ∀ x ∈ source.close.terminator.operands, p.IsNumber x ∧
      ∃ root, .expr x root ∈ source.elements := by
    intro x hx
    rcases close_terminator source with h | ⟨-, h⟩
    · obtain ⟨-, hplace, root, hel⟩ := hsound.operand _ h x hx
      exact ⟨hm.isNumber hf ⟨b, source, root, hsource, hel⟩ hplace, root, hel⟩
    · rw [h] at hx
      cases hx
  refine ⟨?_, fun x hx => (hops x hx).2⟩
  unfold Program.ScalarTerminator
  split
  iterate 2
    · next h => exact (hops _ (by rw [h]; exact mem_cons_self)).1
  · trivial
  · trivial

/-- The expression that stands for a loop is evaluated in its block. -/
theorem mem_of_loopExpr? (h : Exploring.loopExpr? block = some e) :
    ∃ root, .expr e root ∈ block.elements := by
  have hops := (hm.scalarTerminator hf hb).2
  unfold Exploring.loopExpr? at h
  split at h
  iterate 2
    · next hterm =>
      cases h
      exact hops e (by rw [hterm]; exact mem_cons_self)
  · obtain ⟨el, hel, hsome⟩ := exists_of_findSome?_eq_some h
    split at hsome
    · next a root =>
      cases hsome
      exact ⟨root, mem_toList_iff.1 hel⟩
    · cases hsome

end

end Draft.Made

/-- **Built scalar functions have all that runs on numbers need.** -/
theorem Program.ScalarFunction.isScalar {u : SourceUnit} {file : String} (hf : p.ScalarFunction f body)
    (h : Program.ofUnit u file = .ok p) : p.IsScalar f body := by
  obtain ⟨globals, hp⟩ := Program.ofUnit_built h
  obtain ⟨d, hm⟩ := hp.body f body hf.body_eq
  refine
    { body_eq := hf.body_eq
      isParam := fun v hv => (hp.params f body hf.body_eq v hv).2
      isLocal := fun v hv => ?_
      isInt := hf.isInt
      isGlobal := fun g hg => (hp.initial g hg).2
      element := fun block hblock el hel => ?_
      terminator := fun block hblock => ?_
      live := fun b block hb v hv => hm.live hb hv
      loopExpr := fun b b' block block' hb hb' _ _ e he he' => ?_ }
  · have hmem : v ∈ d.state.locals := by
      rw [hm.locals_eq] at hv
      exact mem_toList_iff.1 hv
    obtain ⟨hlt, hkind⟩ := hm.sound.locals v hmem
    have heq := hm.keeps.var_eq v hlt
    rw [heq]
    exact hkind.resolve_right fun hstatic => hf.notStatic v hv (by rw [heq, hstatic])
  · obtain ⟨b, hb⟩ := Draft.Made.mem_blocks hblock
    exact hm.scalarElement hf hb hel
  · obtain ⟨b, hb⟩ := Draft.Made.mem_blocks hblock
    exact (hm.scalarTerminator hf hb).1
  · obtain ⟨root, hel⟩ := hm.mem_of_loopExpr? hf hb he
    obtain ⟨root', hel'⟩ := hm.mem_of_loopExpr? hf hb' he'
    obtain ⟨source, hsource, rfl, -⟩ := hm.source hb
    obtain ⟨source', hsource', rfl, -⟩ := hm.source hb'
    obtain ⟨i, hi⟩ := getElem?_of_mem hel
    obtain ⟨i', hi'⟩ := getElem?_of_mem hel'
    exact (hm.sound.unique b b' source source' i i' e root root' hsource hsource' hi hi').1

end PathScout

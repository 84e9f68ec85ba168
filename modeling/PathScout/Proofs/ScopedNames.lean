import PathScout.Proofs.WalkedBodies
import PathScout.Proofs.LexicalScopes

/-!
# Names of built expressions

Building a part of a text does to the names and variables what resolving its identifiers does. The
elementary actions of building and expressions.

* `Lowering.scoping`: what a state of building knows of names.
* `Lower.Mirrors`: what an action does to it, inside the scopes that are open.
* `Lower.mirrors_declareVar`, `Lower.mirrors_inScope`: declarations and scopes.
* `lower_mirrors`: expressions.
-/

namespace PathScout

/-- The variable that an operation names. -/
def Operation.use? : Operation → Option VarId
  | .var v => some v
  | _ => none

/-- The variables of a program, by name and place. -/
def Program.declared (p : Program) : List (String × Location) :=
  p.vars.toList.map fun x => (x.name, x.location)

/-- What the expressions of a program name, in order. -/
def Program.uses (p : Program) : List VarId := p.exprs.toList.filterMap fun x => x.op.use?

/-- What a state of building knows of names. -/
def Lowering.scoping (s : Lowering) : Scoping where
  names := s.scopes.flatten ++ s.globals
  declared := s.program.declared
  uses := s.program.uses

open Lower List Option

namespace Lowering

variable {s s' s'' : Lowering}

theorem lookup_flatten (scopes : List Names) (name : String) :
    scopes.flatten.lookup name = scopes.findSome? (List.lookup name) := by
  induction scopes with
  | nil => rfl
  | cons scope scopes ih =>
    rw [flatten_cons, lookup_append, findSome?_cons, ih]
    cases List.lookup name scope <;> rfl

theorem lookup_scoping (s : Lowering) (name : String) :
    s.scoping.names.lookup name = lookup? s name := by
  rw [scoping, lookup_append, lookup_flatten]
  rfl

/-- The scopes around the innermost one are the same, and so is what stands at the top. -/
structure Nests (s s' : Lowering) : Prop where
  inside : s'.scopes ≠ []
  outside : s'.scopes.tail = s.scopes.tail
  globals : s'.globals = s.globals
  structs : s'.program.structs = s.program.structs

theorem Nests.trans (h : s.Nests s') (h' : s'.Nests s'') : s.Nests s'' :=
  ⟨h'.inside, h'.outside.trans h.outside, h'.globals.trans h.globals, h'.structs.trans h.structs⟩

/-- Nothing happened to names and variables. -/
structure SameNames (s s' : Lowering) : Prop where
  scopes : s'.scopes = s.scopes
  globals : s'.globals = s.globals
  vars : s'.program.vars = s.program.vars
  uses : s'.program.uses = s.program.uses
  structs : s'.program.structs = s.program.structs

theorem SameNames.nests (h : s.SameNames s') (hs : s.scopes ≠ []) : s.Nests s' :=
  ⟨h.scopes ▸ hs, congrArg List.tail h.scopes, h.globals, h.structs⟩

theorem SameNames.scoping (h : s.SameNames s') : s'.scoping = s.scoping := by
  simp only [Lowering.scoping, Program.declared, h.scopes, h.globals, h.vars, h.uses]

end Lowering

namespace Lower

/-- What an action does to names: it changes what is known of them in the given way, inside the
scopes that are open. -/
def Mirrors {α : Type} (p : Program) (act : Lower α) (f : Scoping → Option Scoping) : Prop :=
  ∀ s a s', s.program.structs = p.structs → s.scopes ≠ [] → act s = .ok (a, s') →
    f s.scoping = some s'.scoping ∧ s.Nests s'

variable {α β : Type} {p : Program} {act : Lower α} {k : α → Lower β}
  {f g : Scoping → Option Scoping}

/-! ### Sequences of actions -/

theorem Mirrors.bind (h : Mirrors p act f) (hk : ∀ a, Mirrors p (k a) g) :
    Mirrors p (act >>= k) (f >=> g) := by
  intro s b s' hp hs hrun
  obtain ⟨a, s1, hact, hrest⟩ := bind_eq_ok.1 hrun
  obtain ⟨hf, hnests⟩ := h s a s1 hp hs hact
  obtain ⟨hg, hnests'⟩ := hk a s1 b s' (hnests.structs.trans hp) hnests.inside hrest
  exact ⟨bind_eq_some_iff.2 ⟨_, hf, hg⟩, hnests.trans hnests'⟩

theorem Mirrors.then (h : Mirrors p act some) (hk : ∀ a, Mirrors p (k a) g) :
    Mirrors p (act >>= k) g := h.bind hk

theorem Mirrors.finish (h : Mirrors p act f) (hk : ∀ a, Mirrors p (k a) some) :
    Mirrors p (act >>= k) f := by
  intro s b s' hp hs hrun
  obtain ⟨hf, hnests⟩ := h.bind hk s b s' hp hs hrun
  obtain ⟨r, hr, hrest⟩ := bind_eq_some_iff.1 hf
  exact ⟨hr.trans hrest, hnests⟩

theorem mirrors_of_sameNames (h : ∀ s a s', act s = .ok (a, s') → s.SameNames s') :
    Mirrors p act some := fun s a s' _ hs hrun =>
  have hsame := h s a s' hrun
  ⟨congrArg some hsame.scoping.symm, hsame.nests hs⟩

theorem mirrors_pure (a : α) : Mirrors p (pure a) some := mirrors_of_sameNames fun s _ _ hrun => by
  cases hrun
  exact ⟨rfl, rfl, rfl, rfl, rfl⟩

theorem mirrors_fail {cause : SemanticCause} {l : Location} :
    Mirrors p (fail cause l : Lower α) f := fun _ _ _ _ _ hrun => nomatch hrun

theorem mirrors_get : Mirrors p get some := mirrors_of_sameNames fun s _ _ hrun => by
  cases hrun
  exact ⟨rfl, rfl, rfl, rfl, rfl⟩

/-! ### Blocks -/

theorem mirrors_newBlock : Mirrors p newBlock some := mirrors_of_sameNames fun s _ _ hrun => by
  cases hrun
  exact ⟨rfl, rfl, rfl, rfl, rfl⟩

theorem mirrors_setCurrent (b : Option BlockId) : Mirrors p (setCurrent b) some :=
  mirrors_of_sameNames fun s _ _ hrun => by
    cases hrun
    exact ⟨rfl, rfl, rfl, rfl, rfl⟩

theorem mirrors_changeBlock (b : BlockId) (f : OpenBlock → OpenBlock) :
    Mirrors p (changeBlock b f) some := mirrors_of_sameNames fun s _ _ hrun => by
  cases hrun
  exact ⟨rfl, rfl, rfl, rfl, rfl⟩

theorem mirrors_ensureCurrent : Mirrors p ensureCurrent some := by
  refine mirrors_get.then fun s => ?_
  split
  · exact mirrors_pure _
  · exact mirrors_newBlock.then fun b => (mirrors_setCurrent _).then fun _ => mirrors_pure _

theorem mirrors_pushElement (el : Element) : Mirrors p (pushElement el) some :=
  mirrors_ensureCurrent.then fun _ => mirrors_changeBlock _ _

theorem mirrors_terminate (t : Terminator) : Mirrors p (terminate t) some :=
  mirrors_ensureCurrent.then fun _ => (mirrors_changeBlock _ _).then fun _ => mirrors_setCurrent _

theorem mirrors_jump (b : BlockId) (kind : JumpKind) : Mirrors p (jump b kind) some :=
  mirrors_terminate _

theorem mirrors_jumpIfOpen (b : BlockId) : Mirrors p (jumpIfOpen b) some := by
  refine mirrors_get.then fun s => ?_
  split
  · exact mirrors_jump _ _
  · exact mirrors_pure _

theorem mirrors_markRoot : Mirrors p markRoot some := by
  refine mirrors_get.then fun s => ?_
  split
  · exact mirrors_changeBlock _ _
  · exact mirrors_pure _

/-! ### Expressions -/

theorem mirrors_exprOf (e : ExprId) : Mirrors p (exprOf e) some :=
  mirrors_get.then fun _ => mirrors_pure _

theorem mirrors_typeOf (e : ExprId) : Mirrors p (typeOf e) some :=
  (mirrors_exprOf e).then fun _ => mirrors_pure _

/-- A new expression names at most one variable. -/
theorem uses_push (q : Program) (x : TypedExpr) :
    Program.uses { q with exprs := q.exprs.push x } = q.uses ++ x.op.use?.toList := by
  simp only [Program.uses, Array.toList_push, filterMap_append, filterMap_cons,
    filterMap_nil]
  cases x.op.use? <;> rfl

theorem mirrors_addDetached (op : Operation) (type : CType) (span : Span) :
    Mirrors p (addDetached op type span) fun r => some { r with uses := r.uses ++ op.use?.toList } := by
  intro s e s' _ hs hrun
  cases hrun
  have huses := uses_push s.program ⟨op, type, span⟩
  exact ⟨congrArg (fun uses => some (Scoping.mk _ _ uses)) huses.symm, hs, rfl, rfl, rfl⟩

theorem mirrors_addExpr (op : Operation) (type : CType) (span : Span) :
    Mirrors p (addExpr op type span) fun r => some { r with uses := r.uses ++ op.use?.toList } :=
  (mirrors_addDetached op type span).finish fun _ =>
    (mirrors_pushElement _).then fun _ => mirrors_pure _

theorem append_use_none (op : Operation) (hop : op.use? = none) :
    (fun r : Scoping => some { r with uses := r.uses ++ op.use?.toList }) = some := by
  funext r
  rw [hop, toList_none, append_nil]

theorem mirrors_addJoin (type : CType) (span : Span) : Mirrors p (addDetached .join type span) some :=
  append_use_none .join rfl ▸ mirrors_addDetached .join type span

/-- An expression that is no variable. -/
theorem mirrors_addStep {op : Operation} (hop : op.use? = none) (type : CType) (span : Span) :
    Mirrors p (addExpr op type span) some := append_use_none op hop ▸ mirrors_addExpr op type span

theorem mirrors_requireScalar (e : ExprId) : Mirrors p (requireScalar e) some := by
  refine (mirrors_exprOf e).then fun x => ?_
  split
  · exact mirrors_pure _
  · exact mirrors_fail

theorem mirrors_requireComplete (type : CType) (l : Location) :
    Mirrors p (requireComplete type l) some :=
  mirrors_get.then fun before => mirrors_of_sameNames fun s a s' hrun => by
    change Except.bind (checkComplete before.program type l) (fun a => .ok (a, s)) = _ at hrun
    cases hcheck : checkComplete before.program type l with
    | error e =>
      rw [hcheck] at hrun
      cases hrun
    | ok u =>
      rw [hcheck] at hrun
      cases hrun
      exact ⟨rfl, rfl, rfl, rfl, rfl⟩

theorem mirrors_resolveFunction (name : String) (l : Location) :
    Mirrors p (resolveFunction name l) some := by
  refine mirrors_get.then fun before => ?_
  split
  · exact mirrors_pure _
  · refine mirrors_of_sameNames fun s _ _ hrun => ?_
    cases hrun
    exact ⟨rfl, rfl, rfl, rfl, rfl⟩

theorem mirrors_toValue (e : ExprId) : Mirrors p (toValue e) some := by
  refine (mirrors_exprOf e).then fun x => ?_
  split
  · exact mirrors_pure _
  · split <;> exact mirrors_addStep rfl _ _

theorem mirrors_convert (e : ExprId) (target : CType) : Mirrors p (convert e target) some := by
  refine (mirrors_exprOf e).then fun x => ?_
  split
  · exact mirrors_pure _
  · split
    · exact mirrors_addStep rfl _ _
    · exact mirrors_fail

theorem mirrors_requireInteger (e : ExprId) : Mirrors p (requireInteger e) some := by
  refine (mirrors_exprOf e).then fun x => ?_
  split
  · exact mirrors_convert _ _
  · exact mirrors_fail

theorem mirrors_passArgument (e : ExprId) (param : Option CType) :
    Mirrors p (passArgument e param) some := by
  unfold passArgument
  split
  · exact mirrors_convert _ _
  · refine (mirrors_typeOf e).then fun type => ?_
    split
    · exact mirrors_convert _ _
    · exact mirrors_pure _

/-! ### Names -/

theorem mirrors_declareVar (name : String) (type : CType) (kind : VarKind) (l : Location) :
    Mirrors p (declareVar name type kind l) fun r => some (r.declare name l) := by
  intro s v s' _ hs hrun
  obtain ⟨before, s1, hget, hrun⟩ := bind_eq_ok.1 hrun
  cases hget
  dsimp only at hrun
  split at hrun
  · cases hrun
  · cases hrun
    cases hscopes : s.scopes with
    | nil => exact absurd hscopes hs
    | cons scope outer =>
      refine ⟨?_, by simp [hscopes], by simp [hscopes], rfl, rfl⟩
      simp [Lowering.scoping, Scoping.declare, Program.declared, hscopes, Program.uses]

theorem mirrors_inScope (h : Mirrors p act f) : Mirrors p (inScope act) (Scoping.enclosed f) := by
  intro s a s' hp hs hrun
  obtain ⟨_, s1, hopen, hrun⟩ := bind_eq_ok.1 hrun
  obtain ⟨b, s2, hact, hrun⟩ := bind_eq_ok.1 hrun
  obtain ⟨_, s3, hclose, hrun⟩ := bind_eq_ok.1 hrun
  cases hopen
  cases hclose
  cases hrun
  obtain ⟨hf, hnests⟩ := h { s with scopes := [] :: s.scopes } a s2 hp (cons_ne_nil _ _) hact
  have hscopes : s2.scopes.tail = s.scopes := hnests.outside
  refine ⟨?_, fun hnil => hs (hscopes.symm.trans hnil), congrArg List.tail hscopes, hnests.globals,
    hnests.structs⟩
  refine map_eq_some_iff.2 ⟨s2.scoping, hf, ?_⟩
  simp only [Lowering.scoping, hscopes, hnests.globals]

theorem mirrors_inTargets (targets : JumpTargets) (h : Mirrors p act f) :
    Mirrors p (inTargets targets act) f := by
  intro s a s' hp hs hrun
  obtain ⟨_, s1, hopen, hrun⟩ := bind_eq_ok.1 hrun
  obtain ⟨b, s2, hact, hrun⟩ := bind_eq_ok.1 hrun
  obtain ⟨_, s3, hclose, hrun⟩ := bind_eq_ok.1 hrun
  cases hopen
  cases hclose
  cases hrun
  obtain ⟨hf, hnests⟩ := h { s with targets := targets :: s.targets } a s2 hp hs hact
  exact ⟨hf, hnests.inside, hnests.outside, hnests.globals, hnests.structs⟩

theorem mirrors_labelBlock (name : String) (l : Location) : Mirrors p (labelBlock name l) some := by
  refine mirrors_get.then fun before => ?_
  split
  · exact mirrors_pure _
  · refine mirrors_newBlock.then fun b => mirrors_of_sameNames fun s _ _ hrun => ?_
    cases hrun
    exact ⟨rfl, rfl, rfl, rfl, rfl⟩

end Lower

/-! ### Expressions -/

/-- Both ways of building an expression do the same to names. -/
structure Lowered.Mirrors (p : Program) (x : Lowered) (f : Scoping → Option Scoping) : Prop where
  place : Lower.Mirrors p x.place f
  branch : ∀ yes no kind, Lower.Mirrors p (x.branch yes no kind) f

namespace Lowered.Mirrors

variable {p : Program} {x : Lowered} {f : Scoping → Option Scoping}

theorem value (h : x.Mirrors p f) : Lower.Mirrors p x.value f := h.place.finish mirrors_toValue

theorem target (h : x.Mirrors p f) (l : Location) : Lower.Mirrors p (x.target l) f := by
  refine h.place.finish fun e => (mirrors_exprOf e).then fun a => ?_
  split
  · exact mirrors_pure _
  · exact mirrors_fail

theorem ofPlace {place : Lower ExprId} (l : Location) (h : Lower.Mirrors p place f) :
    (Lowered.ofPlace l place).Mirrors p f where
  place := h
  branch _ _ _ := h.finish fun e => (mirrors_toValue e).then fun cond =>
    (mirrors_requireScalar cond).then fun _ => mirrors_terminate _

end Lowered.Mirrors

namespace Lower

variable {p : Program} {left right c y n : Lowered} {f g h : Scoping → Option Scoping}

theorem mirrors_lowerBinary (span : Span) (op : BinaryOp) (hl : left.Mirrors p f)
    (hr : right.Mirrors p g) : Mirrors p (lowerBinary span op left right) (f >=> g) := by
  refine hl.value.bind fun a => hr.value.finish fun b => ?_
  refine (mirrors_typeOf a).then fun lt => (mirrors_typeOf b).then fun rt => ?_
  have hadd (a b : ExprId) (type : CType) : Mirrors p (addExpr (.binary op a b) type span) some :=
    mirrors_addStep rfl type span
  dsimp only
  split
  · exact (mirrors_convert a .int).then fun a => (mirrors_convert b .int).then fun b => hadd a b _
  · split
    · split
      · exact hadd a b _
      · split
        · exact (mirrors_convert b lt).then fun b => hadd a b _
        · split
          · exact (mirrors_convert a rt).then fun a => hadd a b _
          · exact mirrors_fail
    · split
      · exact (mirrors_convert b .int).then fun b => hadd a b _
      · split
        · exact (mirrors_convert a .int).then fun a => hadd a b _
        · split
          · exact hadd a b _
          · exact mirrors_fail

theorem mirrors_branchLogical (op : LogicalOp) (yes no : BlockId) (kind : BranchKind)
    (hl : left.Mirrors p f) (hr : right.Mirrors p g) :
    Mirrors p (branchLogical op left right yes no kind) (f >=> g) := by
  refine mirrors_newBlock.then fun second => ?_
  cases op with
  | and | or =>
    exact (hl.branch _ _ _).bind fun _ => (mirrors_setCurrent _).then fun _ => hr.branch yes no kind

theorem mirrors_mergeInto (join : ExprId) (value : MergeValue) (next : BlockId) :
    Mirrors p (mergeInto join value next) some :=
  (mirrors_pushElement _).then fun _ => mirrors_jump _ _

theorem mirrors_lowerLogical (span : Span) (op : LogicalOp) (hl : left.Mirrors p f)
    (hr : right.Mirrors p g) : Mirrors p (lowerLogical span op left right) (f >=> g) := by
  refine (mirrors_addJoin .int span).then fun join => ?_
  refine mirrors_newBlock.then fun second => mirrors_newBlock.then fun yes => ?_
  refine mirrors_newBlock.then fun no => mirrors_newBlock.then fun next => ?_
  cases op with
  | and | or =>
    refine (hl.branch _ _ _).bind fun _ => (mirrors_setCurrent _).then fun _ => ?_
    refine (hr.branch _ _ _).finish fun _ => (mirrors_setCurrent _).then fun _ => ?_
    refine (mirrors_mergeInto _ _ _).then fun _ => (mirrors_setCurrent _).then fun _ => ?_
    refine (mirrors_mergeInto _ _ _).then fun _ => (mirrors_setCurrent _).then fun _ => ?_
    exact (mirrors_pushElement _).then fun _ => mirrors_pure _

theorem mirrors_lowerConditional (span : Span) (hc : c.Mirrors p f) (hy : y.Mirrors p g)
    (hn : n.Mirrors p h) : Mirrors p (lowerConditional span c y n) (f >=> g >=> h) := by
  refine mirrors_newBlock.then fun yesBlock => mirrors_newBlock.then fun noBlock => ?_
  refine mirrors_newBlock.then fun next => (hc.branch _ _ _).bind fun _ => ?_
  refine (mirrors_setCurrent _).then fun _ => hy.value.bind fun y => ?_
  refine mirrors_get.then fun s => (mirrors_setCurrent _).then fun _ => hn.value.finish fun n => ?_
  refine mirrors_get.then fun s' => (mirrors_typeOf y).then fun yt => ?_
  refine (mirrors_typeOf n).then fun nt => ?_
  split
  · exact mirrors_fail
  · next type _ =>
    refine (mirrors_addJoin type span).then fun join => ?_
    refine (mirrors_setCurrent _).then fun _ => (mirrors_convert y type).then fun y => ?_
    refine (mirrors_mergeInto _ _ _).then fun _ => (mirrors_setCurrent _).then fun _ => ?_
    refine (mirrors_convert n type).then fun n => (mirrors_mergeInto _ _ _).then fun _ => ?_
    exact (mirrors_setCurrent _).then fun _ => (mirrors_pushElement _).then fun _ => mirrors_pure _

theorem mirrors_lowerUnary (span : Span) (op : UnaryOp) (l : Location) (hc : c.Mirrors p f) :
    Mirrors p (lowerUnary span op c l) f := by
  have hinteger (op : ValueOp) : Mirrors p (do
      let v ← requireInteger (← c.value)
      addExpr (.unary op v) .int span) f :=
    hc.value.finish fun v => (mirrors_requireInteger v).then fun v => mirrors_addStep rfl _ _
  have hstep (increment before : Bool) : Mirrors p (lowerUnary.step span c l increment before) f :=
    (hc.target l).finish fun t => (mirrors_requireScalar t).then fun _ =>
      (mirrors_typeOf t).then fun _ => mirrors_addStep rfl _ _
  cases op with
  | neg => exact hinteger .neg
  | bitNot => exact hinteger .bitNot
  | not =>
    exact hc.value.finish fun v => (mirrors_requireScalar v).then fun _ => mirrors_addStep rfl _ _
  | deref =>
    refine hc.value.finish fun v => (mirrors_typeOf v).then fun type => ?_
    split
    · split
      · exact mirrors_fail
      · exact mirrors_addStep rfl _ _
    · exact mirrors_fail
  | addrOf =>
    exact (hc.target l).finish fun t => (mirrors_typeOf t).then fun _ => mirrors_addStep rfl _ _
  | preInc | preDec | postInc | postDec => exact hstep _ _

theorem mirrors_lowerAssign (span : Span) (op : Option BinaryOp) (l : Location)
    (hl : left.Mirrors p f) (hr : right.Mirrors p g) :
    Mirrors p (lowerAssign span op left right l) (f >=> g) := by
  refine (hl.target l).bind fun t => (mirrors_typeOf t).then fun type => ?_
  split
  · exact mirrors_fail
  · refine hr.value.finish fun v => ?_
    split
    · exact (mirrors_convert v type).then fun v => mirrors_addStep rfl _ _
    · refine (mirrors_requireScalar t).then fun _ => ?_
      split
      · exact (mirrors_typeOf v).then fun _ => mirrors_fail
      · exact (mirrors_requireInteger v).then fun v => mirrors_addStep rfl _ _

theorem mirrors_lowerIndex (span : Span) (hl : left.Mirrors p f) (hr : right.Mirrors p g) :
    Mirrors p (lowerIndex span left right) (f >=> g) := by
  refine hl.value.bind fun b => hr.value.finish fun i => ?_
  refine (mirrors_typeOf b).then fun bt => (mirrors_typeOf i).then fun it => ?_
  dsimp only
  split
  · split
    · exact mirrors_fail
    · exact (mirrors_requireInteger _).then fun _ => mirrors_addStep rfl _ _
  · exact mirrors_fail

theorem mirrors_lowerMember (span baseSpan : Span) (field : String) (arrow : Bool)
    (hc : c.Mirrors p f) : Mirrors p (lowerMember span c baseSpan field arrow) f := by
  unfold lowerMember
  refine Mirrors.finish ?_ fun object => (mirrors_typeOf object).then fun type => ?_
  · split
    · refine hc.value.finish fun v => (mirrors_typeOf v).then fun type => ?_
      split
      · exact mirrors_addStep rfl _ _
      · exact mirrors_fail
    · exact hc.target _
  split
  · refine mirrors_get.then fun s => ?_
    dsimp only
    split
    · exact mirrors_fail
    · split
      · exact mirrors_fail
      · exact mirrors_addStep rfl _ _
  · exact mirrors_fail

theorem mirrors_lowerCall (span : Span) (callee : String) (count : Nat)
    {args : List CType → Lower (List ExprId)} (hargs : ∀ params, Mirrors p (args params) f) :
    Mirrors p (lowerCall span callee count args) f := by
  refine (mirrors_resolveFunction _ _).then fun fn => mirrors_get.then fun s => ?_
  dsimp only
  split
  · exact (hargs _).finish fun vs => mirrors_addStep rfl _ _
  · exact mirrors_fail

theorem mirrors_typeOfUnevaluated {names : List String} (hc : c.Mirrors p f) (hspares : c.Spares names) :
    Mirrors p (typeOfUnevaluated c) (Scoping.unevaluated f) := by
  intro s type s' hp hs hrun
  obtain ⟨e, s2, hplace, -, -, rfl⟩ := of_typeOfUnevaluated hspares hrun
  obtain ⟨hf, -⟩ := hc.place s e s2 hp hs hplace
  rw [Lowering.reopened_eq]
  exact ⟨map_eq_some_iff.2 ⟨_, hf, rfl⟩, hs, rfl, rfl, rfl⟩

theorem mirrors_lowerIdent (span : Span) (name : String) : Mirrors p (do
    let s ← get
    match lookup? s name with
    | some v => addExpr (.var v) (s.program.var v).type span
    | none => fail (.unknownIdentifier name) span.first) (Scoping.use? name) := by
  intro s e s' hp hs hrun
  obtain ⟨_, _, hget, hrun⟩ := bind_eq_ok.1 hrun
  cases hget
  cases hlookup : lookup? s name with
  | none =>
    rw [hlookup] at hrun
    cases hrun
  | some v =>
    rw [hlookup] at hrun
    obtain ⟨huse, hnests⟩ := mirrors_addExpr (.var v) _ span s e s' hp hs hrun
    exact ⟨by rw [Scoping.use?, Lowering.lookup_scoping, hlookup]; exact huse, hnests⟩

end Lower

section

variable {p : Program}

mutual

/-- **Building an expression** resolves its identifiers. -/
theorem lower_mirrors (e : Expr) : (lower e).Mirrors p e.resolve := by
  unfold lower Expr.resolve
  match e with
  | .int .. | .char .. | .string .. | .null _ => exact .ofPlace _ (mirrors_addStep rfl _ _)
  | .ident span name => exact .ofPlace _ (mirrors_lowerIdent span name)
  | .binary span op l r => exact .ofPlace _ (mirrors_lowerBinary span op (lower_mirrors l) (lower_mirrors r))
  | .logical span op l r =>
    exact ⟨mirrors_lowerLogical span op (lower_mirrors l) (lower_mirrors r), fun yes no kind =>
      mirrors_branchLogical op yes no kind (lower_mirrors l) (lower_mirrors r)⟩
  | .unary span op a => exact .ofPlace _ (mirrors_lowerUnary span op _ (lower_mirrors a))
  | .assign span op t v =>
    exact .ofPlace _ (mirrors_lowerAssign span op _ (lower_mirrors t) (lower_mirrors v))
  | .conditional span c y n =>
    exact .ofPlace _
      (mirrors_lowerConditional span (lower_mirrors c) (lower_mirrors y) (lower_mirrors n))
  | .call span callee args =>
    exact .ofPlace _ (mirrors_lowerCall span callee _ fun params => mirrors_lowerArgs args params)
  | .index span b i => exact .ofPlace _ (mirrors_lowerIndex span (lower_mirrors b) (lower_mirrors i))
  | .member span b field arrow =>
    exact .ofPlace _ (mirrors_lowerMember span _ field arrow (lower_mirrors b))
  | .cast span type a =>
    refine .ofPlace _ ((mirrors_requireComplete _ _).then fun _ => ?_)
    refine (lower_mirrors a).value.finish fun v => (mirrors_typeOf v).then fun source => ?_
    split
    · exact mirrors_addStep rfl _ _
    · exact mirrors_fail
  | .sizeofType span type =>
    exact .ofPlace _ ((mirrors_requireComplete _ _).then fun _ => mirrors_get.then fun _ =>
      mirrors_addStep rfl _ _)
  | .sizeofExpr span a =>
    exact .ofPlace _ ((mirrors_typeOfUnevaluated (lower_mirrors a) (lower_spares a)).finish fun _ =>
      mirrors_get.then fun _ => mirrors_addStep rfl _ _)

theorem mirrors_lowerArgs (args : List Expr) (params : List CType) :
    Mirrors p (lowerArgs args params) (resolveArgs args) := by
  unfold lowerArgs resolveArgs
  match args with
  | [] => exact mirrors_pure _
  | a :: rest =>
    refine ((lower_mirrors a).value.bind fun v => (mirrors_passArgument v _).then fun v => ?_)
    exact (mirrors_lowerArgs rest _).finish fun _ => mirrors_pure _

end

end

end PathScout

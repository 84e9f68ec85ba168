import PathScout.Proofs.ScopedBodies

/-!
# Types of what is built

Every expression of the table has the type that its operation gives it, operands have the types that
the operation takes, and a value flows only to where its own type is expected. Building keeps this step
by step: an action gives its result a type, and what had a type before keeps it.

* `Operation.Typed`: which operations have which types. `Element.Typed`, `Terminator.Typed`: the types of
  values where they are used.
* `Program.Widens`: what a program declares stays as it is while more is added.
* `Lowering.Typed`: everything that was built so far has its type.
* `Lower.Types`: an action adds typed things only, and its result is as wanted.
-/

namespace PathScout

open Array Option

/-! ### Typing -/

section

variable (p : Program)

namespace Program

/-- The expression has the type. -/
def HasType (e : ExprId) (t : CType) : Prop := ∃ x, p.exprs[e.index]? = some x ∧ x.type = t

/-- The expression is a place of the type. -/
def HasPlace (e : ExprId) (t : CType) : Prop :=
  ∃ x, p.exprs[e.index]? = some x ∧ x.op.isPlace = true ∧ x.type = t

/-- The expression joins values of the type. -/
def HasJoin (e : ExprId) (t : CType) : Prop :=
  ∃ x, p.exprs[e.index]? = some x ∧ x.op = .join ∧ x.type = t

/-- The variable has the type. -/
def HasVar (v : VarId) (t : CType) : Prop := ∃ x, p.vars[v.index]? = some x ∧ x.type = t

/-- The structure has the field, with the type. -/
def HasField (name : String) (field : FieldId) (t : CType) : Prop :=
  p.structNamed? name = some field.owner ∧
    ∃ x, (p.struct field.owner).fields[field.index]? = some x ∧ x.type = t

end Program

/-- The operation gives the type: its operands have types that it takes. -/
inductive Operation.Typed : Operation → CType → Prop where
  | int {n : Int} {t : CType} : t.isInteger = true → Typed (.int n) t
  | string {s : String} : Typed (.string s) (.array .char (some (s.utf8ByteSize + 1)))
  | null : Typed .null (.pointer .void)
  | var {v : VarId} {t : CType} : p.HasVar v t → Typed (.var v) t
  | load {e : ExprId} {t : CType} : p.HasPlace e t → t.isArray = false → Typed (.load e) t
  | decay {e : ExprId} {t : CType} {size : Option Nat} : p.HasPlace e (.array t size) →
    Typed (.decay e) (.pointer t)
  | addrOf {e : ExprId} {t : CType} : p.HasPlace e t → Typed (.addrOf e) (.pointer t)
  | deref {e : ExprId} {t : CType} : p.HasType e (.pointer t) → Typed (.deref e) t
  | not {e : ExprId} {t : CType} : p.HasType e t → t.isScalar = true → Typed (.unary .not e) .int
  | sign {op : ValueOp} {e : ExprId} : op ≠ .not → p.HasType e .int → Typed (.unary op e) .int
  | arithmetic {op : BinaryOp} {l r : ExprId} : p.HasType l .int → p.HasType r .int →
    Typed (.binary op l r) .int
  | comparison {op : BinaryOp} {l r : ExprId} {t u : CType} : op.isComparison = true →
    p.HasType l (.pointer t) → p.HasType r (.pointer u) → Typed (.binary op l r) .int
  | offset {op : BinaryOp} {l r : ExprId} {t : CType} : op = .add ∨ op = .sub →
    p.HasType l (.pointer t) → p.HasType r .int → Typed (.binary op l r) (.pointer t)
  | offsetLeft {l r : ExprId} {t : CType} : p.HasType l .int → p.HasType r (.pointer t) →
    Typed (.binary .add l r) (.pointer t)
  | distance {l r : ExprId} {t u : CType} : p.HasType l (.pointer t) → p.HasType r (.pointer u) →
    Typed (.binary .sub l r) .int
  | assign {target value : ExprId} {t : CType} : p.HasPlace target t → t.isArray = false →
    p.HasType value t → Typed (.assign target value) t
  | compound {op : BinaryOp} {target value : ExprId} {t : CType} : p.HasPlace target t →
    t.isScalar = true → (t.isPointer = true → op = .add ∨ op = .sub) → p.HasType value .int →
    Typed (.compound op target value) t
  | incDec {target : ExprId} {increment before : Bool} {t : CType} : p.HasPlace target t →
    t.isScalar = true → Typed (.incDec target increment before) t
  | call {callee : FunctionId} {args : List ExprId} {g : Function} :
    p.functions[callee.index]? = some g →
    (∀ (i : Nat) t, g.paramTypes[i]? = some t → ∃ arg, args[i]? = some arg ∧ p.HasType arg t) →
    Typed (.call callee args) g.returns
  | member {base : ExprId} {field : FieldId} {name : String} {t : CType} :
    p.HasPlace base (.struct name) → p.HasField name field t → Typed (.member base field) t
  | index {base i : ExprId} {t : CType} : p.HasType base (.pointer t) → p.HasType i .int →
    Typed (.index base i) t
  | cast {e : ExprId} {source t : CType} : p.HasType e source →
    t = .void ∨ source.isScalar = true ∧ t.isScalar = true → Typed (.cast e) t
  | join {t : CType} : Typed .join t

/-- Every expression of the table has its type. -/
def Program.Typed : Prop := ∀ x ∈ p.exprs, x.op.Typed p x.type

/-- The steps lead from an aggregate to a part of it. -/
inductive InitStep.Leads : CType → List InitStep → CType → Prop where
  | done {t : CType} : Leads t [] t
  | element {t leaf : CType} {size : Option Nat} {i : Nat} {path : List InitStep} :
    Leads t path leaf → Leads (.array t size) (.element i :: path) leaf
  | field {name : String} {field : FieldId} {t leaf : CType} {path : List InitStep} :
    p.HasField name field t → Leads t path leaf → Leads (.struct name) (.field field :: path) leaf

/-- Parts of an aggregate start with values of their own types. -/
def InitEntry.Typed (t : CType) (entry : InitEntry) : Prop :=
  ∃ leaf, InitStep.Leads p t entry.path leaf ∧ p.HasType entry.value leaf

/-- A variable of the type starts with a value of the type. -/
def DeclInit.Typed (t : CType) : DeclInit → Prop
  | .expr e => p.HasType e t
  | .list entries => ∀ entry ∈ entries, entry.Typed p t

/-- What a step of a block uses has the type of where it goes. -/
def Element.Typed (returns : CType) : Element → Prop
  | .expr e _ => ∃ t, p.HasType e t
  | .decl v init _ => ∃ t, p.HasVar v t ∧ ∀ i, init = some i → i.Typed p t
  | .merge target (.int _) => p.HasJoin target .int
  | .merge target (.expr e) => ∃ t, p.HasJoin target t ∧ p.HasType e t
  | .return (some e) _ => p.HasType e returns
  | .return none _ => True

/-- A branch is decided by a scalar, and a switch by an `int`. -/
def Terminator.Typed : Terminator → Prop
  | .branch cond .. => ∃ t, p.HasType cond t ∧ t.isScalar = true
  | .switch cond .. => p.HasType cond .int
  | .goto .. | .exit => True

/-- Everything that a body uses has the type of where it goes. -/
def FunctionBody.Typed (returns : CType) (body : FunctionBody) : Prop :=
  ∀ block ∈ body.graph.blocks, (∀ el ∈ block.elements, el.Typed p returns) ∧ block.terminator.Typed p

end

/-! ### Programs that grow -/

/-- What a program declares stays as it is while more is added. -/
structure Program.Widens (p p' : Program) : Prop where
  exprs {i : Nat} {x : TypedExpr} : p.exprs[i]? = some x → p'.exprs[i]? = some x
  vars {i : Nat} {x : Variable} : p.vars[i]? = some x → p'.vars[i]? = some x
  functions {i : Nat} {g : Function} : p.functions[i]? = some g → ∃ g', p'.functions[i]? = some g' ∧
    g'.name = g.name ∧ g'.returns = g.returns ∧ g'.paramTypes = g.paramTypes
  structs : p'.structs = p.structs

section

variable {p p' p'' : Program} {e : ExprId} {v : VarId} {name : String} {field : FieldId}
  {t u returns : CType} {path : List InitStep}

theorem Program.Widens.refl (p : Program) : p.Widens p := ⟨id, id, fun h => ⟨_, h, rfl, rfl, rfl⟩, rfl⟩

theorem Program.Widens.trans (h : p.Widens p') (h' : p'.Widens p'') : p.Widens p'' where
  exprs hx := h'.exprs (h.exprs hx)
  vars hx := h'.vars (h.vars hx)
  functions hg := by
    obtain ⟨g', hg', hname, hreturns, hparams⟩ := h.functions hg
    obtain ⟨g'', hg'', hname', hreturns', hparams'⟩ := h'.functions hg'
    exact ⟨g'', hg'', hname'.trans hname, hreturns'.trans hreturns, hparams'.trans hparams⟩
  structs := h'.structs.trans h.structs

namespace Program

theorem HasType.type_eq (h : p.HasType e t) : (p.expr e).type = t := by
  obtain ⟨x, hx, rfl⟩ := h
  rw [expr, hx, getD_some]

theorem HasPlace.hasType (h : p.HasPlace e t) : p.HasType e t :=
  have ⟨x, hx, _, ht⟩ := h
  ⟨x, hx, ht⟩

theorem HasJoin.hasType (h : p.HasJoin e t) : p.HasType e t :=
  have ⟨x, hx, _, ht⟩ := h
  ⟨x, hx, ht⟩

theorem HasType.mono (h : p.HasType e t) (hp : p.Widens p') : p'.HasType e t :=
  have ⟨x, hx, ht⟩ := h
  ⟨x, hp.exprs hx, ht⟩

theorem HasPlace.mono (h : p.HasPlace e t) (hp : p.Widens p') : p'.HasPlace e t :=
  have ⟨x, hx, ht⟩ := h
  ⟨x, hp.exprs hx, ht⟩

theorem HasJoin.mono (h : p.HasJoin e t) (hp : p.Widens p') : p'.HasJoin e t :=
  have ⟨x, hx, ht⟩ := h
  ⟨x, hp.exprs hx, ht⟩

theorem HasVar.mono (h : p.HasVar v t) (hp : p.Widens p') : p'.HasVar v t :=
  have ⟨x, hx, ht⟩ := h
  ⟨x, hp.vars hx, ht⟩

theorem HasField.mono (h : p.HasField name field t) (hp : p.Widens p') : p'.HasField name field t := by
  unfold HasField structNamed? Program.struct
  rw [hp.structs]
  exact h

end Program

/-- An operation keeps its type while a program grows. -/
theorem Operation.Typed.mono {op : Operation} (h : op.Typed p t) (hp : p.Widens p') : op.Typed p' t := by
  cases h with
  | int ht => exact .int ht
  | string => exact .string
  | null => exact .null
  | var hv => exact .var (hv.mono hp)
  | load he ht => exact .load (he.mono hp) ht
  | decay he => exact .decay (he.mono hp)
  | addrOf he => exact .addrOf (he.mono hp)
  | deref he => exact .deref (he.mono hp)
  | not he ht => exact .not (he.mono hp) ht
  | sign hop he => exact .sign hop (he.mono hp)
  | arithmetic hl hr => exact .arithmetic (hl.mono hp) (hr.mono hp)
  | comparison hop hl hr => exact .comparison hop (hl.mono hp) (hr.mono hp)
  | offset hop hl hr => exact .offset hop (hl.mono hp) (hr.mono hp)
  | offsetLeft hl hr => exact .offsetLeft (hl.mono hp) (hr.mono hp)
  | distance hl hr => exact .distance (hl.mono hp) (hr.mono hp)
  | assign htarget ht hvalue => exact .assign (htarget.mono hp) ht (hvalue.mono hp)
  | compound htarget ht hop hvalue => exact .compound (htarget.mono hp) ht hop (hvalue.mono hp)
  | incDec htarget ht => exact .incDec (htarget.mono hp) ht
  | call hg hargs =>
    obtain ⟨g', hg', -, hreturns, hparams⟩ := hp.functions hg
    rw [← hreturns]
    refine .call hg' fun i t ht => ?_
    obtain ⟨arg, harg, htype⟩ := hargs i t (hparams ▸ ht)
    exact ⟨arg, harg, htype.mono hp⟩
  | member hbase hfield => exact .member (hbase.mono hp) (hfield.mono hp)
  | index hbase hi => exact .index (hbase.mono hp) (hi.mono hp)
  | cast he ht => exact .cast (he.mono hp) ht
  | join => exact .join

theorem InitStep.Leads.mono (h : Leads p t path u) (hp : p.Widens p') : Leads p' t path u := by
  induction h with
  | done => exact .done
  | element _ ih => exact .element ih
  | field hfield _ ih => exact .field (hfield.mono hp) ih

theorem InitStep.Leads.append {rest : List InitStep} {leaf : CType} (h : Leads p t path u)
    (h' : Leads p u rest leaf) : Leads p t (path ++ rest) leaf := by
  induction h with
  | done => exact h'
  | element _ ih => exact .element (ih h')
  | field hfield _ ih => exact .field hfield (ih h')

theorem InitEntry.Typed.mono {entry : InitEntry} (h : entry.Typed p t) (hp : p.Widens p') :
    entry.Typed p' t :=
  have ⟨leaf, hleads, hvalue⟩ := h
  ⟨leaf, hleads.mono hp, hvalue.mono hp⟩

theorem DeclInit.Typed.mono {init : DeclInit} (h : init.Typed p t) (hp : p.Widens p') :
    init.Typed p' t := by
  cases init with
  | expr e => exact Program.HasType.mono h hp
  | list entries => exact fun entry hentry => (h entry hentry).mono hp

theorem Element.Typed.mono {el : Element} (h : el.Typed p returns) (hp : p.Widens p') :
    el.Typed p' returns := by
  match el with
  | .expr e root => exact h.imp fun _ ht => ht.mono hp
  | .decl v init l =>
    obtain ⟨t, hv, hinit⟩ := h
    exact ⟨t, hv.mono hp, fun i hi => (hinit i hi).mono hp⟩
  | .merge target (.int n) => exact Program.HasJoin.mono h hp
  | .merge target (.expr e) => exact h.imp fun _ ht => ⟨ht.1.mono hp, ht.2.mono hp⟩
  | .return (some e) l => exact Program.HasType.mono h hp
  | .return none l => trivial

theorem Terminator.Typed.mono {terminator : Terminator} (h : terminator.Typed p) (hp : p.Widens p') :
    terminator.Typed p' := by
  cases terminator with
  | branch => exact h.imp fun _ ht => ⟨ht.1.mono hp, ht.2⟩
  | switch => exact Program.HasType.mono h hp
  | goto | exit => trivial

theorem FunctionBody.Typed.mono {body : FunctionBody} (h : body.Typed p returns) (hp : p.Widens p') :
    body.Typed p' returns := fun block hblock =>
  have ⟨helements, hterminator⟩ := h block hblock
  ⟨fun el hel => (helements el hel).mono hp, hterminator.mono hp⟩

end

/-! ### Functions that are being built -/

/-- Everything in a block has its type. -/
structure OpenBlock.Typed (p : Program) (returns : CType) (b : OpenBlock) : Prop where
  elements {el : Element} : el ∈ b.elements → el.Typed p returns
  terminator {t : Terminator} : b.terminator = some t → t.Typed p

/-- Everything that was built so far has its type, and names stand for variables. -/
structure Lowering.Typed (s : Lowering) : Prop where
  exprs : s.program.Typed
  blocks {b : OpenBlock} : b ∈ s.blocks → b.Typed s.program s.returns
  names {scope : Names} {x : String × VarId} : scope ∈ s.globals :: s.scopes → x ∈ scope →
    x.2.index < s.program.vars.size

/-- What an action adds: types stay. -/
structure Lowering.Widens (s s' : Lowering) : Prop where
  program : s.program.Widens s'.program
  returns : s'.returns = s.returns

section

variable {p p' : Program} {s s' s'' : Lowering} {returns : CType} {b : OpenBlock}

theorem OpenBlock.Typed.mono (h : b.Typed p returns) (hp : p.Widens p') : b.Typed p' returns :=
  ⟨fun hel => (h.elements hel).mono hp, fun ht => (h.terminator ht).mono hp⟩

theorem Lowering.Widens.refl (s : Lowering) : s.Widens s := ⟨.refl _, rfl⟩

theorem Lowering.Widens.trans (h : s.Widens s') (h' : s'.Widens s'') : s.Widens s'' :=
  ⟨h.program.trans h'.program, h'.returns.trans h.returns⟩

theorem Lowering.Typed.of_lookup (h : s.Typed) {name : String} {v : VarId}
    (hv : Lower.lookup? s name = some v) : s.program.HasVar v (s.program.var v).type := by
  have hlt : v.index < s.program.vars.size := by
    unfold Lower.lookup? at hv
    rcases or_eq_some_iff.1 hv with hv | ⟨-, hv⟩
    · obtain ⟨scope, hscope, hv⟩ := List.exists_of_findSome?_eq_some hv
      exact h.names (List.mem_cons_of_mem _ hscope) (Draft.mem_of_lookup hv)
    · exact h.names List.mem_cons_self (Draft.mem_of_lookup hv)
  refine ⟨s.program.vars[v.index], getElem?_eq_getElem hlt, ?_⟩
  rw [Program.var, getElem?_eq_getElem hlt, getD_some]

end

/-! ### Actions -/

namespace Lower

/-- The action adds typed things only, and the condition is satisfied. -/
def Types {α : Type} (act : Lower α) (s : Lowering) (post : α → Program → Prop) : Prop :=
  ∀ a s', act s = .ok (a, s') → s.Widens s' ∧ s'.Typed ∧ post a s'.program

section

variable {α β : Type} {act : Lower α} {f : α → Lower β} {s : Lowering}
  {post post' : α → Program → Prop} {post₂ : β → Program → Prop} {e : ExprId} {t : CType}

theorem Types.bind (h : Types act s post)
    (hf : ∀ a s', s.Widens s' → s'.Typed → post a s'.program → Types (f a) s' post₂) :
    Types (act >>= f) s post₂ := fun b s' hrun => by
  obtain ⟨a, s1, hact, hrest⟩ := bind_eq_ok.1 hrun
  obtain ⟨hwidens, htyped, hpost⟩ := h a s1 hact
  obtain ⟨hwidens', htyped', hpost'⟩ := hf a s1 hwidens htyped hpost b s' hrest
  exact ⟨hwidens.trans hwidens', htyped', hpost'⟩

theorem Types.imp (h : Types act s post) (himp : ∀ a p, post a p → post' a p) : Types act s post' :=
  fun a s' hrun => have ⟨hwidens, htyped, hpost⟩ := h a s' hrun
  ⟨hwidens, htyped, himp a _ hpost⟩

theorem types_pure {a : α} (hs : s.Typed) (h : post a s.program) : Types (pure a) s post :=
  fun _ _ hrun => by
    cases hrun
    exact ⟨.refl s, hs, h⟩

theorem types_fail {cause : SemanticCause} {l : Location} : Types (fail cause l : Lower α) s post :=
  fun _ _ hrun => nomatch hrun

/-- What is read off the state changes nothing. -/
theorem types_get_bind {f : Lowering → Lower β} (h : Types (f s) s post₂) :
    Types (get >>= f) s post₂ := h

theorem types_ite {c : Prop} [Decidable c] {act' : Lower α} (h : c → Types act s post)
    (h' : ¬ c → Types act' s post) : Types (if c then act else act' : Lower α) s post := by
  split
  · exact h ‹_›
  · exact h' ‹_›

theorem types_exprOf_bind {f : TypedExpr → Lower β} {x : TypedExpr}
    (hx : s.program.exprs[e.index]? = some x) (h : Types (f x) s post₂) :
    Types (exprOf e >>= f) s post₂ := by
  have hexpr : s.program.expr e = x := by rw [Program.expr, hx, getD_some]
  subst hexpr
  exact h

theorem types_typeOf_bind {f : CType → Lower β} (he : s.program.HasType e t)
    (h : Types (f t) s post₂) : Types (typeOf e >>= f) s post₂ := by
  obtain rfl := he.type_eq
  exact h

/-- An action that leaves all but the blocks as it is. -/
theorem types_of_blocks (hs : s.Typed)
    (h : ∀ a s', act s = .ok (a, s') → s'.program = s.program ∧ s'.returns = s.returns ∧
      s'.globals = s.globals ∧ s'.scopes = s.scopes ∧ ∀ b ∈ s'.blocks, b.Typed s.program s.returns) :
    Types act s fun _ p => p = s.program := fun a s' hrun => by
  obtain ⟨hprogram, hreturns, hglobals, hscopes, hblocks⟩ := h a s' hrun
  refine ⟨⟨?_, hreturns⟩, ⟨?_, fun hb => ?_, fun hscope hx => ?_⟩, hprogram⟩
  · rw [hprogram]
    exact .refl _
  · rw [hprogram]
    exact hs.exprs
  · rw [hprogram, hreturns]
    exact hblocks _ hb
  · rw [hglobals, hscopes] at hscope
    rw [hprogram]
    exact hs.names hscope hx

end

section

variable {s : Lowering} {b : BlockId} {name : String} {l : Location} {e : ExprId}
  {t target returns : CType} {p : Program} {op : Operation} {span : Span} {α : Type}

theorem typed_empty : OpenBlock.Typed p returns {} :=
  ⟨fun h => absurd h (not_mem_empty _), fun h => nomatch h⟩

section

variable (hs : s.Typed)
include hs

theorem types_newBlock : Types newBlock s fun _ p => p = s.program :=
  types_of_blocks hs fun _ _ hrun => by
    cases hrun
    refine ⟨rfl, rfl, rfl, rfl, fun b hb => ?_⟩
    rcases mem_push.1 hb with hb | rfl
    · exact hs.blocks hb
    · exact typed_empty

theorem types_setCurrent {cur : Option BlockId} : Types (setCurrent cur) s fun _ p => p = s.program :=
  types_of_blocks hs fun _ _ hrun => by
    cases hrun
    exact ⟨rfl, rfl, rfl, rfl, fun b hb => hs.blocks hb⟩

theorem types_changeBlock {f : OpenBlock → OpenBlock}
    (hf : ∀ b : OpenBlock, b.Typed s.program s.returns → (f b).Typed s.program s.returns) :
    Types (changeBlock b f) s fun _ p => p = s.program :=
  types_of_blocks hs fun _ _ hrun => by
    cases hrun
    refine ⟨rfl, rfl, rfl, rfl, fun c hc => ?_⟩
    obtain ⟨i, hi, rfl⟩ := mem_iff_getElem.1 hc
    rw [getElem_modify]
    split
    · exact hf _ (hs.blocks (getElem_mem _))
    · exact hs.blocks (getElem_mem _)

theorem types_ensureCurrent : Types ensureCurrent s fun _ p => p = s.program := by
  refine types_get_bind ?_
  cases s.current with
  | some b => exact types_pure hs rfl
  | none =>
    refine (types_newBlock hs).bind fun b s1 _ hs1 hp => ?_
    exact (types_setCurrent hs1).bind fun _ s2 _ hs2 hp' => types_pure hs2 (hp'.trans hp)

theorem types_pushElement {el : Element} (hel : el.Typed s.program s.returns) :
    Types (pushElement el) s fun _ _ => True := by
  refine (types_ensureCurrent hs).bind fun b s1 hw1 hs1 _ => ?_
  have hel' : el.Typed s1.program s1.returns := hw1.returns ▸ hel.mono hw1.program
  have hchange := types_changeBlock (b := b)
    (f := fun block => { block with elements := block.elements.push el }) hs1 fun c hc =>
      ⟨fun h => (mem_push.1 h).elim hc.elements fun heq => heq ▸ hel', hc.terminator⟩
  exact hchange.imp fun _ _ _ => trivial

theorem types_terminate {terminator : Terminator} (ht : terminator.Typed s.program) :
    Types (terminate terminator) s fun _ _ => True := by
  refine (types_ensureCurrent hs).bind fun b s1 hw1 hs1 _ => ?_
  have hchange := types_changeBlock (b := b)
    (f := fun block => { block with terminator := some terminator }) hs1 fun c hc =>
      ⟨hc.elements, fun h => by
        cases h
        exact ht.mono hw1.program⟩
  exact hchange.bind fun _ s2 _ hs2 _ => (types_setCurrent hs2).imp fun _ _ _ => trivial

theorem types_jump {kind : JumpKind} : Types (jump b kind) s fun _ _ => True :=
  types_terminate hs trivial

theorem types_jumpIfOpen : Types (jumpIfOpen b) s fun _ _ => True :=
  types_get_bind (types_ite (fun _ => types_jump hs) fun _ => types_pure hs trivial)

theorem types_markLoopHead : Types (markLoopHead b) s fun _ _ => True :=
  (types_changeBlock (b := b) (f := fun block => { block with loopHead := true }) hs fun _ hc =>
    ⟨hc.elements, hc.terminator⟩).imp fun _ _ _ => trivial

end

theorem typed_markRoot {c : OpenBlock} (hc : c.Typed p returns) :
    (OpenBlock.markRoot c).Typed p returns := by
  unfold OpenBlock.markRoot
  split
  · next e root hback =>
    have hel : Element.Typed p returns (.expr e root) := hc.elements (mem_of_back? hback)
    refine ⟨fun h => ?_, hc.terminator⟩
    rcases mem_push.1 h with h | rfl
    · obtain ⟨i, hi, rfl⟩ := mem_iff_getElem.1 h
      rw [getElem_pop]
      exact hc.elements (getElem_mem _)
    · exact hel
  · exact hc

theorem types_markRoot (hs : s.Typed) : Types markRoot s fun _ _ => True := by
  refine types_get_bind ?_
  cases s.current with
  | none => exact types_pure hs trivial
  | some b => exact (types_changeBlock hs fun _ hc => typed_markRoot hc).imp fun _ _ _ => trivial

/-! ### Expressions and names -/

theorem widens_push (p : Program) (x : TypedExpr) : p.Widens { p with exprs := p.exprs.push x } where
  exprs h := by
    obtain ⟨hlt, hx⟩ := Array.getElem?_eq_some_iff.1 h
    rw [getElem?_push_lt hlt, hx]
  vars := id
  functions h := ⟨_, h, rfl, rfl, rfl⟩
  structs := rfl

theorem typed_push (hp : p.Typed) {x : TypedExpr} (hx : x.op.Typed p x.type) :
    Program.Typed { p with exprs := p.exprs.push x } := fun y hy => by
  rcases mem_push.1 hy with hy | rfl
  · exact (hp y hy).mono (widens_push p x)
  · exact hx.mono (widens_push p y)

section

variable (hs : s.Typed)
include hs

theorem types_addDetached (hop : op.Typed s.program t) : Types (addDetached op t span) s fun e p =>
      p.exprs[e.index]? = some ⟨op, t, span⟩ := fun e s' hrun => by
  cases hrun
  have hwidens := widens_push s.program ⟨op, t, span⟩
  exact ⟨⟨hwidens, rfl⟩, ⟨typed_push hs.exprs hop, fun hb => (hs.blocks hb).mono hwidens, hs.names⟩,
    getElem?_push_size⟩

theorem types_addExpr (hop : op.Typed s.program t) :
    Types (addExpr op t span) s fun e p => p.exprs[e.index]? = some ⟨op, t, span⟩ := by
  refine (types_addDetached hs hop).bind fun e s1 _ hs1 he => ?_
  have hel : Element.Typed s1.program s1.returns (.expr e false) := ⟨t, _, he, rfl⟩
  refine (types_pushElement hs1 hel).bind fun _ s2 hw2 hs2 _ => ?_
  exact types_pure hs2 (hw2.program.exprs he)

/-- An expression that is evaluated has its type. -/
theorem types_addValue (hop : op.Typed s.program t) :
    Types (addExpr op t span) s fun e p => p.HasType e t :=
  (types_addExpr hs hop).imp fun _ _ he => ⟨_, he, rfl⟩

theorem types_declareVar {kind : VarKind} :
    Types (declareVar name t kind l) s fun v p => p.HasVar v t := by
  refine types_get_bind (types_ite (fun _ => types_fail) fun _ => ?_)
  obtain ⟨p, globals, function, returns, blocks, current, scopes, locals, targets, labels⟩ := s
  intro v s' hrun
  cases hrun
  have hwidens : p.Widens { p with vars := p.vars.push ⟨name, t, kind, some function, l⟩ } := by
    refine ⟨id, fun h => ?_, fun h => ⟨_, h, rfl, rfl, rfl⟩, rfl⟩
    obtain ⟨hlt, hx⟩ := Array.getElem?_eq_some_iff.1 h
    rw [getElem?_push_lt hlt, hx]
  refine ⟨⟨hwidens, rfl⟩, ⟨fun x hx => (hs.exprs x hx).mono hwidens,
    fun hb => (hs.blocks hb).mono hwidens, fun {scope x} hscope hx => ?_⟩,
    ⟨_, getElem?_push_size, rfl⟩⟩
  have hold : ∀ {scope}, scope ∈ globals :: scopes → x ∈ scope →
      x.2.index < (p.vars.push ⟨name, t, kind, some function, l⟩).size := fun hscope hx => by
    rw [size_push]
    exact Nat.lt_succ_of_lt (hs.names hscope hx)
  cases scopes with
  | nil => exact hold hscope hx
  | cons first outer =>
    simp only [List.mem_cons] at hscope
    rcases hscope with rfl | rfl | hscope
    · exact hold List.mem_cons_self hx
    · rcases List.mem_cons.1 hx with rfl | hx
      · exact size_push _ ▸ Nat.lt_succ_self _
      · exact hold (List.mem_cons_of_mem _ List.mem_cons_self) hx
    · exact hold (List.mem_cons_of_mem _ (List.mem_cons_of_mem _ hscope)) hx

theorem types_scopes {scopes : List Names} (h : ∀ scope ∈ scopes, scope = [] ∨ scope ∈ s.scopes) :
    Lowering.Typed { s with scopes := scopes } :=
  ⟨hs.exprs, hs.blocks, fun {scope x} hscope hx => by
    rcases List.mem_cons.1 hscope with rfl | hscope
    · exact hs.names List.mem_cons_self hx
    · rcases h _ hscope with rfl | hold
      · exact absurd hx List.not_mem_nil
      · exact hs.names (List.mem_cons_of_mem _ hold) hx⟩

theorem types_inScope {act : Lower α} {post : α → Program → Prop}
    (h : ∀ s' : Lowering, s.Widens s' → s'.Typed → Types act s' post) : Types (inScope act) s post := by
  have hopen : Types (modify fun s => { s with scopes := [] :: s.scopes } : Lower PUnit) s
      fun _ _ => True := fun _ s' hrun => by
    cases hrun
    exact ⟨⟨.refl _, rfl⟩, types_scopes hs fun scope hscope => List.mem_cons.1 hscope, trivial⟩
  refine hopen.bind fun _ s1 hw1 hs1 _ => (h s1 hw1 hs1).bind fun a s2 _ hs2 hpost => ?_
  have hclose : Types (modify fun s => { s with scopes := s.scopes.tail } : Lower PUnit) s2
      fun _ p => p = s2.program := fun _ s' hrun => by
    cases hrun
    exact ⟨⟨.refl _, rfl⟩, types_scopes hs2 fun scope hscope => .inr (List.mem_of_mem_tail hscope), rfl⟩
  exact hclose.bind fun _ s3 _ hs3 hp => types_pure hs3 (hp ▸ hpost)

theorem types_inTargets {act : Lower α} {post : α → Program → Prop} {targets : JumpTargets}
    (h : ∀ s' : Lowering, s.Widens s' → s'.Typed → Types act s' post) :
    Types (inTargets targets act) s post := by
  have hopen : Types (modify fun s => { s with targets := targets :: s.targets } : Lower PUnit) s
      fun _ _ => True := fun _ s' hrun => by
    cases hrun
    exact ⟨⟨.refl _, rfl⟩, ⟨hs.exprs, hs.blocks, hs.names⟩, trivial⟩
  refine hopen.bind fun _ s1 hw1 hs1 _ => (h s1 hw1 hs1).bind fun a s2 _ hs2 hpost => ?_
  have hclose : Types (modify fun s => { s with targets := s.targets.tail } : Lower PUnit) s2
      fun _ p => p = s2.program := fun _ s' hrun => by
    cases hrun
    exact ⟨⟨.refl _, rfl⟩, ⟨hs2.exprs, hs2.blocks, hs2.names⟩, rfl⟩
  exact hclose.bind fun _ s3 _ hs3 hp => types_pure hs3 (hp ▸ hpost)

theorem types_resolveFunction :
    Types (resolveFunction name l) s fun f p => ∃ g, p.functions[f.index]? = some g := by
  refine types_get_bind ?_
  cases hnamed : s.program.functionNamed? name with
  | some f =>
    refine types_pure hs ?_
    obtain ⟨i, hi, rfl⟩ := map_eq_some_iff.1 hnamed
    exact ⟨_, getElem?_eq_getElem (findIdx?_eq_some_iff_getElem.1 hi).1⟩
  | none =>
    intro f s' hrun
    cases hrun
    refine ⟨⟨?hwidens, rfl⟩, ⟨fun x hx => (hs.exprs x hx).mono ?hwidens,
      fun hb => (hs.blocks hb).mono ?hwidens, hs.names⟩, ⟨_, getElem?_push_size⟩⟩
    refine ⟨id, id, fun h => ?_, rfl⟩
    obtain ⟨hlt, hx⟩ := Array.getElem?_eq_some_iff.1 h
    exact ⟨_, (getElem?_push_lt hlt).trans (congrArg some hx), rfl, rfl, rfl⟩

theorem types_labelBlock : Types (labelBlock name l) s fun _ _ => True := by
  refine types_get_bind ?_
  cases s.labels.lookup name with
  | some info => exact types_pure hs trivial
  | none =>
    refine (types_newBlock hs).bind fun b s1 _ hs1 _ => ?_
    have hlabel : Types (modify fun s => { s with labels := s.labels ++ [(name, ⟨b, false, l⟩)] } :
        Lower PUnit) s1 fun _ _ => True := fun _ s' hrun => by
      cases hrun
      exact ⟨⟨.refl _, rfl⟩, ⟨hs1.exprs, hs1.blocks, hs1.names⟩, trivial⟩
    exact hlabel.bind fun _ s2 _ hs2 _ => types_pure hs2 trivial

theorem types_requireComplete : Types (requireComplete t l) s fun _ _ => True := fun a s' hrun => by
  change Except.bind (checkComplete s.program t l) (fun a => .ok (a, s)) = _ at hrun
  cases hcheck : checkComplete s.program t l with
  | error e =>
    rw [hcheck] at hrun
    cases hrun
  | ok u =>
    rw [hcheck] at hrun
    cases hrun
    exact ⟨.refl s, hs, trivial⟩

/-! ### Conversions -/

theorem types_toValue (he : s.program.HasType e t) :
    Types (toValue e) s fun v p => ∃ u, p.HasType v u := by
  obtain ⟨x, hx, rfl⟩ := he
  refine types_exprOf_bind hx (types_ite (fun _ => ?_) fun hplace => ?_)
  · exact types_pure hs ⟨_, x, hx, rfl⟩
  have hplace : s.program.HasPlace e x.type := ⟨x, hx, by simpa using hplace, rfl⟩
  refine types_ite (fun harray => ?_) fun harray => ?_
  · cases htype : x.type with
    | array element size =>
      rw [htype] at hplace
      exact (types_addValue hs (.decay hplace)).imp fun _ _ h => ⟨_, h⟩
    | void | char | int | pointer | struct =>
      rw [htype] at harray
      cases harray
  · exact (types_addValue hs (.load hplace (by simpa using harray))).imp fun _ _ h => ⟨_, h⟩

end

theorem CType.eq_void (h : t.isVoid = true) : t = .void := by
  cases t <;> first | rfl | cases h

theorem types_convert (hs : s.Typed) (he : s.program.HasType e t) :
    Types (convert e target) s fun v p => p.HasType v target := by
  obtain ⟨x, hx, rfl⟩ := he
  refine types_exprOf_bind hx (types_ite (fun heq => ?_) fun _ => types_ite (fun hcast => ?_) fun _ =>
    types_fail)
  · exact types_pure hs ⟨x, hx, heq⟩
  · refine types_addValue hs (.cast ⟨x, hx, rfl⟩ ?_)
    simp only [Bool.or_eq_true, Bool.and_eq_true] at hcast
    exact hcast.imp_left CType.eq_void

theorem types_requireScalar (hs : s.Typed) (he : s.program.HasType e t) :
    Types (requireScalar e) s fun _ p => p = s.program ∧ t.isScalar = true := by
  obtain ⟨x, hx, rfl⟩ := he
  exact types_exprOf_bind hx (types_ite (fun h => types_pure hs ⟨rfl, h⟩) fun _ => types_fail)

theorem types_requireInteger (hs : s.Typed) (he : s.program.HasType e t) :
    Types (requireInteger e) s fun v p => p.HasType v .int := by
  obtain ⟨x, hx, rfl⟩ := he
  exact types_exprOf_bind hx (types_ite (fun _ => types_convert hs ⟨x, hx, rfl⟩) fun _ => types_fail)

end

end Lower

end PathScout

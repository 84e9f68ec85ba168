import PathScout.Proofs.TypedExprs

/-!
# Types of built programs

Declarations, statements and bodies are built of typed expressions, and so is every program that is
built from a text.

* `Lower.types_lowerInit`: a list of initial values sets parts of a variable to values of their types.
* `Lower.types_lowerDecl`, `Lower.types_lowerStmt`: declarations and statements.
* `lowerFunction_typed`: the body of a function.
* `Program.ofUnit_typed`: all expressions of a program and all its bodies.
-/

namespace PathScout

open Lower List Option Checked Array

namespace Lower

section

variable {s : Lowering} {root type : CType} {path : List InitStep}

/-! ### Initial values -/

theorem types_addChars (span : Span) (parts : List (Nat × Nat)) {size : Option Nat} (hs : s.Typed)
    (hpath : InitStep.Leads s.program root path (.array .char size)) :
    Types (parts.mapM fun part => do
      let v ← addExpr (.int part.1) .char span
      return (⟨path ++ [.element part.2], v⟩ : InitEntry)) s fun entries p =>
        (DeclInit.list entries).Typed p root := by
  induction parts generalizing s with
  | nil => exact types_pure hs fun _ h => nomatch h
  | cons part parts ih =>
    rw [mapM_cons]
    have hpart : Types (do
        let v ← addExpr (.int part.1) .char span
        return (⟨path ++ [.element part.2], v⟩ : InitEntry)) s fun entry p => entry.Typed p root := by
      refine (types_addValue (t := .char) hs (.int rfl)).bind fun v s1 hw1 hs1 hv => ?_
      exact types_pure hs1 ⟨.char, (hpath.mono hw1.program).append (.element .done), hv⟩
    refine hpart.bind fun entry s1 hw1 hs1 hentry => ?_
    refine (ih hs1 (hpath.mono hw1.program)).bind fun entries s2 hw2 hs2 hentries => ?_
    exact types_pure hs2 (forall_mem_cons.2 ⟨hentry.mono hw2.program, hentries⟩)

theorem types_lowerInitExpr (e : Expr) (hs : s.Typed)
    (hpath : InitStep.Leads s.program root path type) :
    Types (lowerInitExpr type e path) s fun entries p => (DeclInit.list entries).Typed p root := by
  have hvalue : Types (do
      if type.isArray then fail (.invalidOperands .arrayFromExpr) e.location
      else
        let v ← convert (← (lower e).value) type
        return [(⟨path, v⟩ : InitEntry)]) s fun entries p => (DeclInit.list entries).Typed p root := by
    refine types_ite (fun _ => types_fail) fun _ => ?_
    refine ((lower_typed e).value hs).bind fun v s1 hw1 hs1 hv => ?_
    obtain ⟨t, hv⟩ := hv
    refine (types_convert hs1 hv).bind fun v s2 hw2 hs2 hv => ?_
    refine types_pure hs2 (forall_mem_singleton.2 ⟨type, ?_, hv⟩)
    exact hpath.mono (hw1.trans hw2).program
  unfold lowerInitExpr
  cases e with
  | string span text =>
    cases helement : type.element? with
    | none => exact hvalue
    | some element =>
      cases element with
      | char =>
        cases type with
        | array element size =>
          cases helement
          exact types_addChars span _ hs hpath
        | void | char | int | pointer | struct => cases helement
      | _ => exact hvalue
  | _ => exact hvalue

/-- The slots of an aggregate are its parts. -/
theorem leads_of_initSlots {p : Program} {count : Nat} {slots : List (CType × InitStep)}
    (h : initSlots p type count = some slots) :
    ∀ slot ∈ slots, InitStep.Leads p type [slot.2] slot.1 := by
  intro slot hslot
  cases type with
  | array element size =>
    cases h
    obtain ⟨i, -, rfl⟩ := mem_map.1 hslot
    exact .element .done
  | struct name =>
    obtain ⟨owner, howner, h⟩ := bind_eq_some_iff.1 h
    cases h
    obtain ⟨⟨field, i⟩, hfield, rfl⟩ := mem_map.1 hslot
    have hfield : (p.struct owner).fields[i]? = some field := mk_mem_zipIdx_iff_getElem?.1 hfield
    have hhas : p.HasField name ⟨owner, i⟩ field.type := ⟨howner, field, hfield, rfl⟩
    exact .field hhas .done
  | void | char | int | pointer => cases h

mutual

theorem types_lowerInit (item : Initializer) (type : CType) (path : List InitStep) {s : Lowering}
    (hs : s.Typed) (hpath : InitStep.Leads s.program root path type) :
    Types (lowerInit item type path) s fun entries p => (DeclInit.list entries).Typed p root := by
  unfold lowerInit
  match item with
  | .expr e => exact types_lowerInitExpr e hs hpath
  | .list _ items =>
    cases type with
    | array element size =>
      refine types_get_bind ?_
      dsimp only
      split
      · next slots hslots =>
        exact types_lowerInitSlots items slots path hs fun slot hslot =>
          hpath.append (leads_of_initSlots hslots slot hslot)
      · exact types_pure hs fun _ h => nomatch h
    | struct name =>
      refine types_get_bind ?_
      dsimp only
      split
      · next slots hslots =>
        exact types_lowerInitSlots items slots path hs fun slot hslot =>
          hpath.append (leads_of_initSlots hslots slot hslot)
      · exact types_fail
    | void | char | int | pointer => exact types_lowerInitFirst items _ path hs hpath

theorem types_lowerInitSlots (items : List Initializer) (slots : List (CType × InitStep))
    (path : List InitStep) {s : Lowering} (hs : s.Typed)
    (hslots : ∀ slot ∈ slots, InitStep.Leads s.program root (path ++ [slot.2]) slot.1) :
    Types (lowerInitSlots items slots path) s fun entries p =>
      (DeclInit.list entries).Typed p root := by
  unfold lowerInitSlots
  match items, slots with
  | item :: items, (type, step) :: slots =>
    obtain ⟨hslot, hslots⟩ := forall_mem_cons.1 hslots
    refine (types_lowerInit item type _ hs hslot).bind fun first s1 hw1 hs1 hfirst => ?_
    refine (types_lowerInitSlots items slots path hs1 fun slot h =>
      (hslots slot h).mono hw1.program).bind fun more s2 hw2 hs2 hmore => ?_
    refine types_pure hs2 (forall_mem_append.2 ⟨?_, hmore⟩)
    exact fun entry hentry => (hfirst entry hentry).mono hw2.program
  | [], _ | _ :: _, [] => exact types_pure hs fun _ h => nomatch h

theorem types_lowerInitFirst (items : List Initializer) (type : CType) (path : List InitStep)
    {s : Lowering} (hs : s.Typed) (hpath : InitStep.Leads s.program root path type) :
    Types (lowerInitFirst items type path) s fun entries p => (DeclInit.list entries).Typed p root := by
  unfold lowerInitFirst
  match items with
  | item :: _ => exact types_lowerInit item type path hs hpath
  | [] => exact types_pure hs fun _ h => nomatch h

end

/-! ### Declarations -/

theorem types_lowerDecl (d : VarDecl) (hs : s.Typed) : Types (lowerDecl d) s fun _ _ => True := by
  unfold lowerDecl
  dsimp only
  generalize completeArray d.type d.init = type
  refine (types_requireComplete hs).bind fun _ s1 _ hs1 _ => ?_
  refine (types_declareVar hs1).bind fun v s2 _ hs2 hv => ?_
  refine types_ite (fun _ => types_pure hs2 trivial) fun _ => ?_
  have hpush : ∀ {s : Lowering} {init : Option DeclInit}, s2.Widens s → s.Typed →
      (∀ i, init = some i → i.Typed s.program type) →
      Types (pushElement (.decl v init d.location)) s fun _ _ => True := fun hw hs hinit =>
    types_pushElement hs ⟨type, hv.mono hw.program, hinit⟩
  match d.init with
  | none => exact hpush (.refl s2) hs2 fun _ h => nomatch h
  | some (.expr e) =>
    dsimp only
    split
    · refine (types_lowerInitExpr e hs2 .done).bind fun entries s3 hw3 hs3 hentries => ?_
      refine hpush hw3 hs3 fun i hi => ?_
      cases hi
      exact hentries
    · refine ((lower_typed e).value hs2).bind fun e s3 hw3 hs3 he => ?_
      obtain ⟨t, he⟩ := he
      refine (types_convert hs3 he).bind fun e s4 hw4 hs4 he => ?_
      refine hpush (hw3.trans hw4) hs4 fun i hi => ?_
      cases hi
      exact he
  | some (.list l items) =>
    refine (types_lowerInit (.list l items) type [] hs2 .done).bind fun entries s3 hw3 hs3 h => ?_
    refine hpush hw3 hs3 fun i hi => ?_
    cases hi
    exact h

theorem types_lowerDecls (ds : List VarDecl) (hs : s.Typed) :
    Types (ds.forM lowerDecl) s fun _ _ => True := by
  induction ds generalizing s with
  | nil => exact types_pure hs trivial
  | cons d ds ih => exact (types_lowerDecl d hs).bind fun _ s1 _ hs1 _ => ih hs1

/-! ### Statements -/

theorem types_lowerEffect (e : Expr) (hs : s.Typed) : Types (lowerEffect e) s fun _ _ => True :=
  ((lower_typed e).value hs).bind fun _ _ _ hs1 _ => types_markRoot hs1

theorem types_optionalEffect (e : Option Expr) (hs : s.Typed) :
    Types (e.forM lowerEffect) s fun _ _ => True := by
  cases e with
  | none => exact types_pure hs trivial
  | some e => exact types_lowerEffect e hs

theorem types_lowerForCondition (l : Location) (c : Option Expr) (body exit : BlockId)
    (hs : s.Typed) : Types (lowerForCondition l c body exit) s fun _ _ => True := by
  cases c with
  | some c => exact (lower_typed c).branch _ _ _ hs
  | none =>
    refine (types_addValue (t := .int) hs (.int rfl)).bind fun always s1 _ hs1 h => ?_
    exact types_terminate hs1 ⟨.int, h, rfl⟩

theorem types_lowerReturn (l : Location) (value : Option Expr) (hs : s.Typed) :
    Types (lowerReturn l value) s fun _ _ => True := by
  have hpush : ∀ {s : Lowering} {v : Option ExprId}, s.Typed →
      Element.Typed s.program s.returns (.return v l) →
      Types (do pushElement (.return v l); jump ⟨1⟩ .return) s fun _ _ => True := fun hs hv =>
    (types_pushElement hs hv).bind fun _ _ _ hs1 _ => types_jump hs1
  refine types_get_bind ?_
  cases value with
  | none => exact hpush hs trivial
  | some e =>
    refine ((lower_typed e).value hs).bind fun v s1 hw1 hs1 hv => ?_
    obtain ⟨t, hv⟩ := hv
    split
    · exact hpush hs1 trivial
    · refine (types_convert hs1 hv).bind fun v s2 hw2 hs2 hv => hpush hs2 ?_
      change s2.program.HasType v s2.returns
      rw [hw2.returns, hw1.returns]
      exact hv

theorem types_lowerGoto (l : Location) (label : String) (hs : s.Typed) :
    Types (lowerGoto l label) s fun _ _ => True := by
  refine (types_labelBlock hs).bind fun target s1 _ hs1 _ => types_get_bind ?_
  cases s1.labels.lookup label with
  | none => exact types_jump hs1
  | some info =>
    dsimp only
    split
    · exact (types_markLoopHead hs1).bind fun _ _ _ hs2 _ => types_jump hs2
    · exact types_jump hs1

theorem types_lowerLabel (l : Location) (name : String) (hs : s.Typed) :
    Types (lowerLabel l name) s fun _ _ => True := by
  refine (types_labelBlock hs).bind fun target s1 _ hs1 _ => types_get_bind ?_
  have hrest : ∀ {s : Lowering}, s.Typed → Types (do
      jumpIfOpen target
      setCurrent (some target)) s fun _ _ => True := fun hs =>
    (types_jumpIfOpen hs).bind fun _ _ _ hs' _ => (types_setCurrent hs').imp fun _ _ _ => trivial
  cases s1.labels.lookup name with
  | none => exact hrest hs1
  | some info =>
    dsimp only
    split
    · exact types_fail
    · have hmark : ∀ labels : Lowering → List (String × LabelInfo), Types
          (modify fun s => { s with labels := labels s } : Lower PUnit) s1 fun _ _ => True := by
        intro labels _ s2 hrun
        cases hrun
        exact ⟨⟨.refl _, rfl⟩, ⟨hs1.exprs, hs1.blocks, hs1.names⟩, trivial⟩
      exact (hmark _).bind fun _ _ _ hs2 _ => hrest hs2

theorem types_openCases (cases : List SwitchCase) (hs : s.Typed) :
    Types (openCases cases) s fun _ _ => True := by
  induction cases generalizing s with
  | nil => exact types_pure hs trivial
  | cons case rest ih =>
    obtain ⟨l, value, body⟩ := case
    refine (types_newBlock hs).bind fun b s1 _ hs1 _ => ?_
    cases value with
    | none => exact (ih hs1).bind fun _ _ _ hs2 _ => types_pure hs2 trivial
    | some label =>
      dsimp only
      split
      · exact types_fail
      · exact (ih hs1).bind fun _ _ _ hs2 _ => types_pure hs2 trivial

theorem types_lowerSwitchHead (l : Location) (c : Expr) (cases : List SwitchCase) (hs : s.Typed) :
    Types (lowerSwitchHead l c cases) s fun _ _ => True := by
  refine ((lower_typed c).value hs).bind fun v s1 _ hs1 hv => ?_
  obtain ⟨t, hv⟩ := hv
  refine types_typeOf_bind hv ?_
  refine types_ite (fun _ => types_fail) fun _ => ?_
  refine (types_convert hs1 hv).bind fun v s2 _ hs2 hv => ?_
  refine (types_newBlock hs2).bind fun exit s3 hw3 hs3 _ => ?_
  refine (types_openCases cases hs3).bind fun r s4 hw4 hs4 _ => ?_
  have hterminator : Types (terminate (.switch v r.2.1 ((r.2.2.map (·.1)).getD exit)
      (r.2.2.map (·.2)) l)) s4 fun _ _ => True :=
    types_terminate hs4 (hv.mono (hw3.trans hw4).program)
  exact hterminator.bind fun _ _ _ hs5 _ => types_pure hs5 trivial

end

mutual

/-- **Building a statement** adds typed things only. -/
theorem types_lowerStmt (st : Stmt) {s : Lowering} (hs : s.Typed) :
    Types (lowerStmt st) s fun _ _ => True := by
  have hdone : ∀ {s : Lowering} {b : BlockId}, s.Typed →
      Types (setCurrent (some b)) s fun _ _ => True := fun hs =>
    (types_setCurrent hs).imp fun _ _ _ => trivial
  unfold lowerStmt
  match st with
  | .empty _ => exact types_pure hs trivial
  | .expr _ e => exact types_lowerEffect e hs
  | .decl _ decls => exact types_lowerDecls decls hs
  | .block _ body => exact types_inScope hs fun _ _ hs' => types_lowerStmts body hs'
  | .ifThen _ c yes no =>
    have hrest (yesBlock next noBlock : BlockId) {s : Lowering} (hs : s.Typed) : Types (do
        (lower c).branch yesBlock noBlock .if
        setCurrent (some yesBlock)
        lowerStmt yes
        jumpIfOpen next
        lowerElse no noBlock next
        setCurrent (some next)) s fun _ _ => True := by
      refine ((lower_typed c).branch _ _ _ hs).bind fun _ _ _ hs _ => ?_
      refine (types_setCurrent hs).bind fun _ _ _ hs _ => ?_
      refine (types_lowerStmt yes hs).bind fun _ _ _ hs _ => ?_
      refine (types_jumpIfOpen hs).bind fun _ _ _ hs _ => ?_
      exact (types_lowerElse no noBlock next hs).bind fun _ _ _ hs _ => hdone hs
    refine (types_newBlock hs).bind fun yesBlock _ _ hs _ => ?_
    refine (types_newBlock hs).bind fun next _ _ hs _ => ?_
    cases no with
    | none => exact hrest yesBlock next next hs
    | some no => exact (types_newBlock hs).bind fun noBlock _ _ hs _ => hrest yesBlock next noBlock hs
  | .whileDo _ c body =>
    refine (types_newBlock hs).bind fun head _ _ hs _ => ?_
    refine (types_newBlock hs).bind fun bodyBlock _ _ hs _ => ?_
    refine (types_newBlock hs).bind fun exit _ _ hs _ => ?_
    refine (types_markLoopHead hs).bind fun _ _ _ hs _ => ?_
    refine (types_jump hs).bind fun _ _ _ hs _ => ?_
    refine (types_setCurrent hs).bind fun _ _ _ hs _ => ?_
    refine ((lower_typed c).branch _ _ _ hs).bind fun _ _ _ hs _ => ?_
    refine (types_setCurrent hs).bind fun _ _ _ hs _ => ?_
    refine (types_inTargets hs fun _ _ hs => types_lowerStmt body hs).bind fun _ _ _ hs _ => ?_
    exact (types_jumpIfOpen hs).bind fun _ _ _ hs _ => hdone hs
  | .doWhile _ body c =>
    refine (types_newBlock hs).bind fun bodyBlock _ _ hs _ => ?_
    refine (types_newBlock hs).bind fun condBlock _ _ hs _ => ?_
    refine (types_newBlock hs).bind fun exit _ _ hs _ => ?_
    refine (types_markLoopHead hs).bind fun _ _ _ hs _ => ?_
    refine (types_jump hs).bind fun _ _ _ hs _ => ?_
    refine (types_setCurrent hs).bind fun _ _ _ hs _ => ?_
    refine (types_inTargets hs fun _ _ hs => types_lowerStmt body hs).bind fun _ _ _ hs _ => ?_
    refine (types_jumpIfOpen hs).bind fun _ _ _ hs _ => ?_
    refine (types_setCurrent hs).bind fun _ _ _ hs _ => ?_
    exact ((lower_typed c).branch _ _ _ hs).bind fun _ _ _ hs _ => hdone hs
  | .forDo l init c step body =>
    refine types_inScope hs fun _ _ hs => ?_
    refine (types_lowerOptional init hs).bind fun _ _ _ hs _ => ?_
    refine (types_newBlock hs).bind fun head _ _ hs _ => ?_
    refine (types_newBlock hs).bind fun bodyBlock _ _ hs _ => ?_
    refine (types_newBlock hs).bind fun stepBlock _ _ hs _ => ?_
    refine (types_newBlock hs).bind fun exit _ _ hs _ => ?_
    refine (types_markLoopHead hs).bind fun _ _ _ hs _ => ?_
    refine (types_jump hs).bind fun _ _ _ hs _ => ?_
    refine (types_setCurrent hs).bind fun _ _ _ hs _ => ?_
    refine (types_lowerForCondition l c _ _ hs).bind fun _ _ _ hs _ => ?_
    refine (types_setCurrent hs).bind fun _ _ _ hs _ => ?_
    refine (types_inTargets hs fun _ _ hs => types_lowerStmt body hs).bind fun _ _ _ hs _ => ?_
    refine (types_jumpIfOpen hs).bind fun _ _ _ hs _ => ?_
    refine (types_setCurrent hs).bind fun _ _ _ hs _ => ?_
    refine (types_optionalEffect step hs).bind fun _ _ _ hs _ => ?_
    exact (types_jump hs).bind fun _ _ _ hs _ => hdone hs
  | .switch l c cases =>
    refine (types_lowerSwitchHead l c cases hs).bind fun r _ _ hs _ => ?_
    have hcases : Types (inTargets ⟨r.1, none⟩ (lowerCases cases r.2)) _ fun _ _ => True :=
      types_inTargets hs fun _ _ hs => types_lowerCases cases r.2 hs
    refine hcases.bind fun _ _ _ hs _ => ?_
    exact (types_jumpIfOpen hs).bind fun _ _ _ hs _ => hdone hs
  | .break l | .continue l =>
    refine types_get_bind ?_
    split
    · exact types_jump hs
    · exact types_fail
  | .return l value => exact types_lowerReturn l value hs
  | .goto l label => exact types_lowerGoto l label hs
  | .label l name => exact types_lowerLabel l name hs

theorem types_lowerStmts (body : List Stmt) {s : Lowering} (hs : s.Typed) :
    Types (lowerStmts body) s fun _ _ => True := by
  unfold lowerStmts
  match body with
  | [] => exact types_pure hs trivial
  | st :: rest => exact (types_lowerStmt st hs).bind fun _ _ _ hs _ => types_lowerStmts rest hs

theorem types_lowerOptional (st : Option Stmt) {s : Lowering} (hs : s.Typed) :
    Types (lowerOptional st) s fun _ _ => True := by
  unfold lowerOptional
  match st with
  | some st => exact types_lowerStmt st hs
  | none => exact types_pure hs trivial

theorem types_lowerElse (no : Option Stmt) (noBlock next : BlockId) {s : Lowering} (hs : s.Typed) :
    Types (lowerElse no noBlock next) s fun _ _ => True := by
  unfold lowerElse
  match no with
  | some st =>
    refine (types_setCurrent hs).bind fun _ _ _ hs _ => ?_
    exact (types_lowerStmt st hs).bind fun _ _ _ hs _ => types_jumpIfOpen hs
  | none => exact types_pure hs trivial

theorem types_lowerCases (cases : List (Location × Option Expr × List Stmt)) (blocks : List BlockId)
    {s : Lowering} (hs : s.Typed) : Types (lowerCases cases blocks) s fun _ _ => True := by
  unfold lowerCases
  match cases, blocks with
  | (_, _, body) :: cases, b :: blocks =>
    refine (types_jumpIfOpen hs).bind fun _ _ _ hs _ => ?_
    refine (types_setCurrent hs).bind fun _ _ _ hs _ => ?_
    exact (types_lowerStmts body hs).bind fun _ _ _ hs _ => types_lowerCases cases blocks hs
  | [], _ | _ :: _, [] => exact types_pure hs trivial

end

/-! ### Bodies of functions -/

theorem types_declareParams (params : List (Param × Nat)) {s : Lowering} (hs : s.Typed) :
    Types (params.mapM fun (param, i) => do
      requireComplete param.type param.location
      declareVar (param.name.getD "") param.type (.param i) param.location) s fun _ _ => True := by
  induction params generalizing s with
  | nil => exact types_pure hs trivial
  | cons param params ih =>
    rw [mapM_cons]
    have hparam : Types (do
        requireComplete param.1.type param.1.location
        declareVar (param.1.name.getD "") param.1.type (.param param.2) param.1.location) s
        fun _ _ => True :=
      (types_requireComplete hs).bind fun _ _ _ hs _ => (types_declareVar hs).imp fun _ _ _ => trivial
    refine hparam.bind fun _ _ _ hs _ => ?_
    exact (ih hs).bind fun _ _ _ hs _ => types_pure hs trivial

theorem types_lowerBody (d : FunctionDecl) (body : List Stmt) {s : Lowering} (hs : s.Typed) :
    Types (lowerBody d body) s fun _ _ => True := by
  refine (types_newBlock hs).bind fun entry _ _ hs _ => ?_
  refine (types_newBlock hs).bind fun exit s2 _ hs _ => ?_
  have hexit : Types (changeBlock exit fun block => { block with terminator := some .exit }) s2
      fun _ p => p = s2.program :=
    types_changeBlock hs fun c hc => ⟨hc.elements, fun h => by
      cases h
      trivial⟩
  refine hexit.bind fun _ _ _ hs _ => ?_
  refine (types_setCurrent hs).bind fun _ _ _ hs _ => ?_
  have hparams := types_declareParams d.params.zipIdx hs
  refine Types.bind hparams fun _ _ _ hs _ => ?_
  refine (types_lowerStmts body hs).bind fun _ _ _ hs _ => ?_
  exact (types_jumpIfOpen hs).bind fun _ _ _ hs _ => types_pure hs trivial

end Lower

/-- Closing a block adds nothing that could have a wrong type. -/
theorem OpenBlock.Typed.close {p : Program} {returns : CType} {b : OpenBlock} (h : b.Typed p returns) :
    (∀ el ∈ b.close.elements, el.Typed p returns) ∧ b.close.terminator.Typed p := by
  refine ⟨fun el hel => h.elements hel, ?_⟩
  cases hterminator : b.terminator with
  | none => rw [OpenBlock.close, hterminator]; trivial
  | some t =>
    rw [OpenBlock.close, hterminator]
    exact h.terminator hterminator

/-- The table of expressions is typed, and so are the bodies, whose functions the text defines. -/
structure Program.BodiesTyped (p : Program) (ds : List FunctionDecl) : Prop where
  exprs : p.Typed
  body : ∀ f body, (p.function f).body = some body → ∃ d ∈ ds, d.name = (p.function f).name ∧
    d.body.isSome = true ∧ body.Typed p d.returns

section

variable {p p' : Program} {globals : Names} {d : FunctionDecl} {ds : List FunctionDecl}

/-- A function that gets a body keeps its types. -/
theorem widens_modify (p : Program) (f : FunctionId) (vs : List VarId) (out : FunctionBody) :
    p.Widens { p with functions := p.functions.modify f.index fun g =>
      { g with params := vs, body := some out } } := by
  refine ⟨id, id, fun {i g} hg => ?_, rfl⟩
  refine ⟨if f.index = i then { g with params := vs, body := some out } else g, ?_, ?_⟩
  · rw [Array.getElem?_modify, hg]
    split <;> rfl
  · split <;> exact ⟨rfl, rfl, rfl⟩

/-- **Building the body of a function** adds typed expressions and a typed body. -/
theorem lowerFunction_typed {f : FunctionId} {body : List Stmt} (hp : p.Built globals)
    (htyped : p.Typed) (h : lowerFunction globals p f d body = .ok p') :
    p.Widens p' ∧ p'.Typed ∧ ∀ g out, (p'.function g).body = some out →
      g = f ∧ out.Typed p' d.returns ∨ (p.function g).body = some out ∧ g.index < p.functions.size := by
  obtain ⟨⟨vs, s⟩, hrun, h⟩ := bind_eq_ok.1 h
  have hstart : Lowering.Typed
      { program := p, globals := globals, function := f, returns := d.returns } :=
    ⟨htyped, fun hb => absurd hb (not_mem_empty _), fun {scope x} hscope hx => by
      rcases mem_cons.1 hscope with rfl | hscope
      · exact hp.names x hx
      · rw [mem_singleton.1 hscope] at hx
        cases hx⟩
  obtain ⟨hwidens, hs, -⟩ := types_lowerBody d body hstart vs s hrun
  obtain ⟨draft, hdraft, hd, -⟩ := sends_lowerBody d body hp.linear hp.names hrun
  have hannounces : p.Announces s.program := hdraft ▸ hd.announces
  dsimp only at h
  split at h
  · cases h
  · cases h
    have hsame := widens_modify s.program f vs ⟨⟨s.blocks.map OpenBlock.close, ⟨0⟩, ⟨1⟩⟩,
      s.locals.toList, .compute ⟨s.program.exprs, fun v => !(s.program.var v).hasGlobalStorage⟩
        ⟨s.blocks.map OpenBlock.close, ⟨0⟩, ⟨1⟩⟩⟩
    refine ⟨hwidens.program.trans hsame, fun x hx => (hs.exprs x hx).mono hsame, fun g out' hg => ?_⟩
    rw [function_modify] at hg
    split at hg
    · next hf =>
      cases hg
      refine .inl ⟨by cases f; cases g; exact congrArg _ hf.1.symm, fun block hblock => ?_⟩
      obtain ⟨b, hb, rfl⟩ := mem_map.1 hblock
      have hreturns : s.returns = d.returns := hwidens.returns
      exact hreturns ▸ ((hs.blocks hb).mono hsame).close
    · have hlt : g.index < p.functions.size := by
        by_contra hge
        rw [hannounces.body_eq_none g (not_lt.1 hge)] at hg
        cases hg
      exact .inr ⟨hannounces.function_eq g hlt ▸ hg, hlt⟩

theorem lowerDefinition_typed (hd : d ∈ ds) (hp : p.Built globals) (hbodies : p.BodiesTyped ds)
    (h : lowerDefinition globals p d = .ok p') : p'.BodiesTyped ds := by
  have hbuilds := (lowerDefinition_builds hp h).1
  unfold lowerDefinition at h
  split at h
  · next body f hbody hf =>
    obtain ⟨hwidens, htyped, hout⟩ := lowerFunction_typed hp hbodies.exprs h
    refine ⟨htyped, fun g out hg => ?_⟩
    rcases hout g out hg with ⟨rfl, hnew⟩ | ⟨hold, hlt⟩
    · obtain ⟨hlt, hname⟩ := Program.of_functionNamed? hf
      exact ⟨d, hd, by rw [hbuilds.name_eq g hlt, hname], by rw [hbody]; rfl, hnew⟩
    · obtain ⟨d', hd', hname, hsome, hsame⟩ := hbodies.body g out hold
      exact ⟨d', hd', by rw [hbuilds.name_eq g hlt, hname], hsome, hsame.mono hwidens⟩
  · cases h
    exact hbodies

theorem lowerDefinitions_typed (more : List FunctionDecl) (hmore : more ⊆ ds) (hp : p.Built globals)
    (hbodies : p.BodiesTyped ds) (h : more.foldlM (lowerDefinition globals) p = .ok p') :
    p'.BodiesTyped ds := by
  induction more generalizing p with
  | nil =>
    cases h
    exact hbodies
  | cons d more ih =>
    rw [foldlM_cons] at h
    obtain ⟨p1, h1, h⟩ := bind_eq_ok.1 h
    obtain ⟨hd, hmore⟩ := cons_subset.1 hmore
    exact ih hmore (lowerDefinition_built d hp h1) (lowerDefinition_typed hd hp hbodies h1) h

end

/-! ### Texts -/

/-- The table has texts only. -/
def Program.TextsOnly (p : Program) : Prop :=
  ∀ x ∈ p.exprs, ∃ text, x.op = .string text ∧ x.type = .array .char (some (text.utf8ByteSize + 1))

section

variable {p p' : Program} {t t' : TopLevel} {u : SourceUnit} {file : String}

theorem Program.TextsOnly.typed (h : p.TextsOnly) : p.Typed := fun x hx => by
  obtain ⟨text, hop, htype⟩ := h x hx
  rw [hop, htype]
  exact .string

theorem constInit_textsOnly {type : CType} {init : Initializer} {r : Program × ConstInit}
    (hp : p.TextsOnly) (h : constInit p type init = .ok r) : r.1.TextsOnly := by
  refine constInit_keeps (P := Program.TextsOnly) (fun p span text hp x hx => ?_) init hp h
  rcases mem_push.1 hx with hx | rfl
  · exact hp x hx
  · exact ⟨text, rfl, rfl⟩

theorem declareItem_textsOnly (item : Item) (ht : t.program.TextsOnly)
    (h : declareItem t item = .ok t') : t'.program.TextsOnly := by
  cases item with
  | struct d =>
    cases h
    exact ht
  | global d =>
    unfold declareItem declareGlobal at h
    obtain ⟨-, -, h⟩ := bind_eq_ok.1 h
    split at h
    · cases h
      exact ht
    · split at h
      · cases h
      · obtain ⟨⟨q, value⟩, hq, h⟩ := bind_eq_ok.1 h
        cases h
        exact constInit_textsOnly ht hq
    · dsimp only at h
      split at h
      · obtain ⟨⟨q, value⟩, hq, h⟩ := bind_eq_ok.1 h
        cases h
        exact constInit_textsOnly (p := { t.program with vars := t.program.vars.push _ }) ht hq
      · cases h
        exact ht
  | function d =>
    unfold declareItem declareFunction at h
    dsimp only at h
    split at h
    · split at h
      · cases h
      · cases h
        exact ht
    · cases h
      exact ht

theorem declareStruct_exprs {d : StructDecl} (h : declareStruct p d = .ok p') : p'.exprs = p.exprs := by
  unfold declareStruct at h
  split at h
  · cases h
  · cases h
    rfl

/-- **A built program is typed**: all its expressions, and all uses of values in its bodies. -/
theorem Program.ofUnit_typed (h : Program.ofUnit u file = .ok p) :
    p.Typed ∧ ∀ f body, (p.function f).body = some body → ∃ d ∈ u.functions,
      d.name = (p.function f).name ∧ d.body.isSome = true ∧ body.Typed p d.returns := by
  obtain ⟨q, hq, h⟩ := bind_eq_ok.1 h
  obtain ⟨t, ht, h⟩ := bind_eq_ok.1 h
  have hplain := declareItems_plain hq ht
  have hempty : q.exprs = #[] := foldlM_keeps (P := fun q : Program => q.exprs = #[])
    (fun d q q' hq h => (declareStruct_exprs h).trans hq) _ rfl hq
  have hstart : q.TextsOnly := fun x hx => by
    rw [hempty] at hx
    exact absurd hx (not_mem_empty _)
  have htexts : t.program.TextsOnly :=
    foldlM_keeps (P := fun t : TopLevel => t.program.TextsOnly)
      (fun item t t' ht => declareItem_textsOnly item ht) _ hstart ht
  have hbodies : t.program.BodiesTyped u.functions := ⟨htexts.typed, fun f body hbody => by
    rw [hplain.body f] at hbody
    cases hbody⟩
  have hp := lowerDefinitions_typed _ (List.Subset.refl _) hplain.built hbodies h
  exact ⟨hp.exprs, hp.body⟩

end

/-- The unit `int f(int *p, char c) { int a[2] = {c, 1}; *p = a[0] + c; return p == a; }`. -/
def arrayUnit : SourceUnit :=
  let l : Location := ⟨1, 1⟩
  let number (n : Int) : Expr := .int (.point l) n
  let named (name : String) : Expr := .ident (.point l) name
  .single .int [("p", .pointer .int), ("c", .char)]
    [.decl l [⟨"a", .array .int (some 2), some (.list l [.expr (named "c"), .expr (number 1)]), false, l⟩],
      .expr l (.assign (.point l) none (.unary (.point l) .deref (named "p"))
        (.binary (.point l) .add (.index (.point l) (named "a") (number 0)) (named "c"))),
      .return l (some (.binary (.point l) .eq (named "p") (named "a")))]

/-- A function with a character that is widened, an array that becomes a pointer and a comparison of
pointers: casts stand where types differ. -/
theorem Program.ofUnit_typed_array : ∃ p body, Program.ofUnit arrayUnit "a.c" = .ok p ∧
    (p.function ⟨0⟩).body = some body ∧
    p.exprs.toList.filterMap (fun x => match x.op with
      | .cast _ => some x.type
      | .decay _ => some x.type
      | _ => none) = [.int, .pointer .int, .int, .pointer .int] ∧
    p.Typed ∧ body.Typed p .int := by
  have hrun : (Program.ofUnit arrayUnit "a.c").toOption.any (fun p => decide
      (p.exprs.toList.filterMap (fun x => match x.op with
        | .cast _ => some x.type
        | .decay _ => some x.type
        | _ => none) = [.int, .pointer .int, .int, .pointer .int] ∧
          (p.function ⟨0⟩).body.isSome)) = true := by decide +kernel
  obtain ⟨p, hu, hrun⟩ := exists_ok_of_any hrun
  obtain ⟨hcasts, hbody⟩ := of_decide_eq_true hrun
  obtain ⟨body, hbody⟩ := isSome_iff_exists.1 hbody
  obtain ⟨htyped, hbodies⟩ := ofUnit_typed hu
  obtain ⟨d, hd, -, -, hout⟩ := hbodies ⟨0⟩ body hbody
  rw [mem_singleton.1 hd] at hout
  exact ⟨p, body, hu, hbody, hcasts, htyped, hout⟩

end PathScout

import PathScout.Proofs.ScopedNames

/-!
# Names of built programs

Statements, bodies of functions and whole texts: what building them does to names and variables.

* `Lower.mirrors_lowerDecl`, `Lower.mirrors_lowerStmt`: declarations and statements.
* `constInit_keeps`: what an initial value of a global variable adds to a program.
* `Program.ofUnit_scoping`: a statement changes the names by those that it exposes, and the identifiers
  of a program stand for what they stand for in its text.
-/

namespace PathScout

open Lower List Option Checked

namespace Lower

variable {p : Program} {g : Scoping → Option Scoping}

/-! ### Declarations -/

theorem mirrors_addChars (span : Span) (path : List InitStep) (parts : List (Nat × Nat)) :
    Mirrors p (parts.mapM fun part => do
      let v ← addExpr (.int part.1) .char span
      return (⟨path ++ [.element part.2], v⟩ : InitEntry)) some := by
  induction parts with
  | nil => exact mirrors_pure _
  | cons part parts ih =>
    rw [mapM_cons]
    exact ((mirrors_addStep rfl _ _).then fun v => mirrors_pure _).then fun entry =>
      ih.then fun entries => mirrors_pure _

theorem mirrors_lowerInitExpr (type : CType) (e : Expr) (path : List InitStep) :
    Mirrors p (lowerInitExpr type e path) e.resolve := by
  have hvalue : Mirrors p (do
      if type.isArray then fail (.invalidOperands .arrayFromExpr) e.location
      else
        let v ← convert (← (lower e).value) type
        return [(⟨path, v⟩ : InitEntry)]) e.resolve := by
    split
    · exact mirrors_fail
    · exact (lower_mirrors e).value.finish fun v => (mirrors_convert v type).then fun v =>
        mirrors_pure _
  unfold lowerInitExpr
  cases e with
  | string span s =>
    cases helement : type.element? with
    | none => exact hvalue
    | some element =>
      cases element with
      | char => exact mirrors_addChars span path _
      | _ => exact hvalue
  | _ => exact hvalue

mutual

theorem mirrors_lowerInit (item : Initializer) (type : CType) (path : List InitStep) :
    Mirrors p (lowerInit item type path) (item.resolve p type) := by
  unfold lowerInit Initializer.resolve
  match item with
  | .expr e => exact mirrors_lowerInitExpr type e path
  | .list _ items =>
    intro s entries s' hp hs hrun
    cases type with
    | array element size =>
      obtain ⟨_, _, hget, hrun⟩ := bind_eq_ok.1 hrun
      cases hget
      rw [initSlots_congr hp] at hrun
      dsimp only
      cases hslots : initSlots p (.array element size) items.length with
      | none =>
        rw [hslots] at hrun
        exact mirrors_pure [] s entries s' hp hs hrun
      | some slots =>
        rw [hslots] at hrun
        exact mirrors_lowerInitSlots items slots path s entries s' hp hs hrun
    | struct name =>
      obtain ⟨_, _, hget, hrun⟩ := bind_eq_ok.1 hrun
      cases hget
      rw [initSlots_congr hp] at hrun
      dsimp only
      cases hslots : initSlots p (.struct name) items.length with
      | none =>
        rw [hslots] at hrun
        cases hrun
      | some slots =>
        rw [hslots] at hrun
        exact mirrors_lowerInitSlots items slots path s entries s' hp hs hrun
    | _ => exact mirrors_lowerInitFirst items _ path s entries s' hp hs hrun

theorem mirrors_lowerInitSlots (items : List Initializer) (slots : List (CType × InitStep))
    (path : List InitStep) :
    Mirrors p (lowerInitSlots items slots path) (resolveSlots p items slots) := by
  unfold lowerInitSlots resolveSlots
  match items, slots with
  | item :: items, (type, step) :: slots =>
    exact (mirrors_lowerInit item type _).bind fun _ =>
      (mirrors_lowerInitSlots items slots path).finish fun _ => mirrors_pure _
  | [], _ | _ :: _, [] => exact mirrors_pure _

theorem mirrors_lowerInitFirst (items : List Initializer) (type : CType) (path : List InitStep) :
    Mirrors p (lowerInitFirst items type path) (resolveFirst p items type) := by
  unfold lowerInitFirst resolveFirst
  match items with
  | item :: _ => exact mirrors_lowerInit item type path
  | [] => exact mirrors_pure _

end

theorem mirrors_lowerDecl (d : VarDecl) : Mirrors p (lowerDecl d) (d.resolve p) := by
  unfold lowerDecl VarDecl.resolve
  dsimp only
  generalize completeArray d.type d.init = type
  refine (mirrors_requireComplete type d.location).then fun _ =>
    (mirrors_declareVar d.name type _ d.location).bind fun v => ?_
  have hpush (init : Option DeclInit) : Mirrors p (pushElement (.decl v init d.location)) some :=
    mirrors_pushElement _
  cases d.isStatic with
  | true => exact mirrors_pure _
  | false =>
    match d.init with
    | none => exact hpush none
    | some (.expr e) =>
      dsimp only
      cases type.isArray with
      | true => exact (mirrors_lowerInitExpr type e []).finish fun entries => hpush _
      | false =>
        exact (lower_mirrors e).value.finish fun v => (mirrors_convert v type).then fun v => hpush _
    | some (.list l items) =>
      exact (mirrors_lowerInit (.list l items) type []).finish fun entries => hpush _

theorem mirrors_lowerDecls (ds : List VarDecl) :
    Mirrors p (ds.forM lowerDecl) fun r => ds.foldlM (fun r d => d.resolve p r) r := by
  induction ds with
  | nil => exact mirrors_pure _
  | cons d ds ih => exact (mirrors_lowerDecl d).bind fun _ => ih

/-! ### Statements -/

theorem mirrors_lowerEffect (e : Expr) : Mirrors p (lowerEffect e) e.resolve :=
  (lower_mirrors e).value.finish fun _ => mirrors_markRoot

theorem mirrors_optionalEffect (e : Option Expr) :
    Mirrors p (e.forM lowerEffect) (resolveOptionalExpr e) := by
  cases e with
  | none => exact mirrors_pure _
  | some e => exact mirrors_lowerEffect e

theorem mirrors_lowerForCondition (l : Location) (c : Option Expr) (body exit : BlockId) :
    Mirrors p (lowerForCondition l c body exit) (resolveOptionalExpr c) := by
  cases c with
  | none => exact (mirrors_addStep rfl _ _).then fun _ => mirrors_terminate _
  | some c => exact (lower_mirrors c).branch _ _ _

theorem mirrors_lowerReturn (l : Location) (value : Option Expr) :
    Mirrors p (lowerReturn l value) (resolveOptionalExpr value) := by
  have hpush (v : Option ExprId) : Mirrors p (do pushElement (.return v l); jump ⟨1⟩ .return) some :=
    (mirrors_pushElement _).then fun _ => mirrors_jump _ _
  refine mirrors_get.then fun before => ?_
  cases value with
  | none => exact hpush none
  | some e =>
    refine (lower_mirrors e).value.finish fun v => ?_
    split
    · exact hpush none
    · exact (mirrors_convert v _).then fun v => hpush (some v)

theorem mirrors_lowerGoto (l : Location) (label : String) : Mirrors p (lowerGoto l label) some := by
  refine (mirrors_labelBlock label l).then fun target => mirrors_get.then fun s => ?_
  have hjump (act : Lower Unit) (hact : Mirrors p act some) :
      Mirrors p (do act; jump target .goto) some := hact.then fun _ => mirrors_jump _ _
  cases s.labels.lookup label with
  | none => exact hjump (pure ()) (mirrors_pure _)
  | some info =>
    dsimp only
    split
    · exact hjump _ (mirrors_changeBlock _ _)
    · exact hjump (pure ()) (mirrors_pure _)

theorem mirrors_lowerLabel (l : Location) (name : String) : Mirrors p (lowerLabel l name) some := by
  refine (mirrors_labelBlock name l).then fun target => mirrors_get.then fun s => ?_
  have hrest : Mirrors p (do jumpIfOpen target; setCurrent (some target)) some :=
    (mirrors_jumpIfOpen _).then fun _ => mirrors_setCurrent _
  cases s.labels.lookup name with
  | none => exact hrest
  | some info =>
    dsimp only
    split
    · exact mirrors_fail
    · refine Mirrors.then (mirrors_of_sameNames fun s _ _ hrun => ?_) fun _ => hrest
      cases hrun
      exact ⟨rfl, rfl, rfl, rfl, rfl⟩

/-- There is a block for every case of a switch. -/
theorem mirrors_openCases (cases : List SwitchCase) : Mirrors p (openCases cases) some ∧
    ∀ s r s', openCases cases s = .ok (r, s') → r.1.length = cases.length := by
  induction cases with
  | nil => exact ⟨mirrors_pure _, fun s r s' hrun => by cases hrun; rfl⟩
  | cons case rest ih =>
    obtain ⟨l, value, body⟩ := case
    refine ⟨mirrors_newBlock.then fun b => ?_, fun s r s' hrun => ?_⟩
    · cases value with
      | none => exact ih.1.then fun _ => mirrors_pure _
      | some label =>
        dsimp only
        cases label.constant? with
        | none => exact mirrors_fail
        | some n => exact ih.1.then fun _ => mirrors_pure _
    · obtain ⟨b, s1, -, hrun⟩ := bind_eq_ok.1 hrun
      cases value with
      | none =>
        obtain ⟨r', s2, hopen, hrun⟩ := bind_eq_ok.1 hrun
        cases hrun
        exact congrArg (· + 1) (ih.2 _ _ _ hopen)
      | some label =>
        dsimp only at hrun
        cases hn : label.constant? with
        | none =>
          rw [hn] at hrun
          cases hrun
        | some n =>
          rw [hn] at hrun
          obtain ⟨r', s2, hopen, hrun⟩ := bind_eq_ok.1 hrun
          cases hrun
          exact congrArg (· + 1) (ih.2 _ _ _ hopen)

theorem mirrors_lowerSwitchHead (l : Location) (c : Expr) (cases : List SwitchCase)
    {k : BlockId × List BlockId → Lower Unit}
    (hk : ∀ exit blocks, blocks.length = cases.length → Mirrors p (k (exit, blocks)) g) :
    Mirrors p (lowerSwitchHead l c cases >>= k) (c.resolve >=> g) := by
  have hhead : Mirrors p (lowerSwitchHead l c cases) c.resolve := by
    refine (lower_mirrors c).value.finish fun v => (mirrors_typeOf v).then fun type => ?_
    split
    · exact mirrors_fail
    · exact (mirrors_convert _ _).then fun v => mirrors_newBlock.then fun exit =>
        (mirrors_openCases cases).1.then fun r => (mirrors_terminate _).then fun _ => mirrors_pure _
  intro s u s' hp hs hrun
  obtain ⟨⟨exit, blocks⟩, s1, hrunHead, hrest⟩ := bind_eq_ok.1 hrun
  obtain ⟨hf, hnests⟩ := hhead s _ s1 hp hs hrunHead
  have hlength : blocks.length = cases.length := by
    obtain ⟨v, _, -, hrun⟩ := bind_eq_ok.1 hrunHead
    obtain ⟨type, _, -, hrun⟩ := bind_eq_ok.1 hrun
    split at hrun
    · cases hrun
    · obtain ⟨_, _, -, hrun⟩ := bind_eq_ok.1 hrun
      obtain ⟨_, _, -, hrun⟩ := bind_eq_ok.1 hrun
      obtain ⟨r, _, hopen, hrun⟩ := bind_eq_ok.1 hrun
      obtain ⟨_, _, -, hrun⟩ := bind_eq_ok.1 hrun
      cases hrun
      exact (mirrors_openCases (p := p) cases).2 _ _ _ hopen
  obtain ⟨hg, hnests'⟩ := hk exit blocks hlength s1 u s' (hnests.structs.trans hp) hnests.inside hrest
  exact ⟨bind_eq_some_iff.2 ⟨_, hf, hg⟩, hnests.trans hnests'⟩

mutual

/-- **Building a statement** declares its variables and resolves its identifiers. -/
theorem mirrors_lowerStmt (s : Stmt) : Mirrors p (lowerStmt s) (s.resolve p) := by
  unfold lowerStmt Stmt.resolve
  match s with
  | .empty _ => exact mirrors_pure _
  | .expr _ e => exact mirrors_lowerEffect e
  | .decl _ decls => exact mirrors_lowerDecls decls
  | .block _ body => exact mirrors_inScope (mirrors_lowerStmts body)
  | .ifThen _ c yes no =>
    have hrest (yesBlock next noBlock : BlockId) : Mirrors p (do
        (lower c).branch yesBlock noBlock .if
        setCurrent (some yesBlock)
        lowerStmt yes
        jumpIfOpen next
        lowerElse no noBlock next
        setCurrent (some next)) (c.resolve >=> yes.resolve p >=> resolveOptional p no) :=
      ((lower_mirrors c).branch _ _ _).bind fun _ => (mirrors_setCurrent _).then fun _ =>
        (mirrors_lowerStmt yes).bind fun _ => (mirrors_jumpIfOpen _).then fun _ =>
          (mirrors_lowerElse no noBlock next).finish fun _ => mirrors_setCurrent _
    refine mirrors_newBlock.then fun yesBlock => mirrors_newBlock.then fun next => ?_
    cases no with
    | none => exact (mirrors_pure _).then fun noBlock => hrest yesBlock next noBlock
    | some no => exact mirrors_newBlock.then fun noBlock => hrest yesBlock next noBlock
  | .whileDo _ c body =>
    refine mirrors_newBlock.then fun head => mirrors_newBlock.then fun bodyBlock => ?_
    refine mirrors_newBlock.then fun exit => (mirrors_changeBlock _ _).then fun _ => ?_
    refine (mirrors_jump _ _).then fun _ => (mirrors_setCurrent _).then fun _ => ?_
    refine ((lower_mirrors c).branch _ _ _).bind fun _ => (mirrors_setCurrent _).then fun _ => ?_
    refine (mirrors_inTargets _ (mirrors_lowerStmt body)).finish fun _ => ?_
    exact (mirrors_jumpIfOpen _).then fun _ => mirrors_setCurrent _
  | .doWhile _ body c =>
    refine mirrors_newBlock.then fun bodyBlock => mirrors_newBlock.then fun condBlock => ?_
    refine mirrors_newBlock.then fun exit => (mirrors_changeBlock _ _).then fun _ => ?_
    refine (mirrors_jump _ _).then fun _ => (mirrors_setCurrent _).then fun _ => ?_
    refine (mirrors_inTargets _ (mirrors_lowerStmt body)).bind fun _ => ?_
    refine (mirrors_jumpIfOpen _).then fun _ => (mirrors_setCurrent _).then fun _ => ?_
    exact ((lower_mirrors c).branch _ _ _).finish fun _ => mirrors_setCurrent _
  | .forDo l init c step body =>
    refine mirrors_inScope ((mirrors_lowerOptional init).bind fun _ => ?_)
    refine mirrors_newBlock.then fun head => mirrors_newBlock.then fun bodyBlock => ?_
    refine mirrors_newBlock.then fun stepBlock => mirrors_newBlock.then fun exit => ?_
    refine (mirrors_changeBlock _ _).then fun _ => (mirrors_jump _ _).then fun _ => ?_
    refine (mirrors_setCurrent _).then fun _ => (mirrors_lowerForCondition l c _ _).bind fun _ => ?_
    refine (mirrors_setCurrent _).then fun _ =>
      (mirrors_inTargets _ (mirrors_lowerStmt body)).bind fun _ => ?_
    refine (mirrors_jumpIfOpen _).then fun _ => (mirrors_setCurrent _).then fun _ => ?_
    exact (mirrors_optionalEffect step).finish fun _ => (mirrors_jump _ _).then fun _ =>
      mirrors_setCurrent _
  | .switch l c cases =>
    refine mirrors_lowerSwitchHead l c cases fun exit blocks hblocks => ?_
    exact (mirrors_inTargets _ (mirrors_lowerCases cases blocks hblocks)).finish fun _ =>
      (mirrors_jumpIfOpen _).then fun _ => mirrors_setCurrent _
  | .break l =>
    refine mirrors_get.then fun s => ?_
    cases s.targets.head? with
    | none => exact mirrors_fail
    | some t => exact mirrors_jump _ _
  | .continue l =>
    refine mirrors_get.then fun s => ?_
    cases s.targets.findSome? (·.continueTo) with
    | none => exact mirrors_fail
    | some target => exact mirrors_jump _ _
  | .return l value => exact mirrors_lowerReturn l value
  | .goto l label => exact mirrors_lowerGoto l label
  | .label l name => exact mirrors_lowerLabel l name

theorem mirrors_lowerStmts (body : List Stmt) : Mirrors p (lowerStmts body) (resolveStmts p body) := by
  unfold lowerStmts resolveStmts
  match body with
  | [] => exact mirrors_pure _
  | s :: rest => exact (mirrors_lowerStmt s).bind fun _ => mirrors_lowerStmts rest

theorem mirrors_lowerOptional (s : Option Stmt) :
    Mirrors p (lowerOptional s) (resolveOptional p s) := by
  unfold lowerOptional resolveOptional
  match s with
  | some s => exact mirrors_lowerStmt s
  | none => exact mirrors_pure _

theorem mirrors_lowerElse (no : Option Stmt) (noBlock next : BlockId) :
    Mirrors p (lowerElse no noBlock next) (resolveOptional p no) := by
  unfold lowerElse resolveOptional
  match no with
  | some s =>
    exact (mirrors_setCurrent _).then fun _ => (mirrors_lowerStmt s).finish fun _ =>
      mirrors_jumpIfOpen _
  | none => exact mirrors_pure _

theorem mirrors_lowerCases (cases : List (Location × Option Expr × List Stmt)) (blocks : List BlockId)
    (h : blocks.length = cases.length) :
    Mirrors p (lowerCases cases blocks) (resolveCases p cases) := by
  unfold lowerCases resolveCases
  match cases, blocks with
  | (_, _, body) :: cases, b :: blocks =>
    exact (mirrors_jumpIfOpen _).then fun _ => (mirrors_setCurrent _).then fun _ =>
      (mirrors_lowerStmts body).bind fun _ => mirrors_lowerCases cases blocks (Nat.succ.inj h)
  | [], [] => exact mirrors_pure _

end

end Lower

/-! ### Bodies of functions -/

namespace Lower

variable {p : Program}

theorem mirrors_declareParams (params : List Param) (k : Nat) :
    Mirrors p ((params.zipIdx k).mapM fun (param, i) => do
      requireComplete param.type param.location
      declareVar (param.name.getD "") param.type (.param i) param.location) fun r =>
        some (params.foldl (fun r x => r.declare (x.name.getD "") x.location) r) := by
  induction params generalizing k with
  | nil => exact mirrors_pure _
  | cons x params ih =>
    rw [zipIdx_cons, mapM_cons]
    exact ((mirrors_requireComplete _ _).then fun _ => mirrors_declareVar _ _ _ _).bind fun v =>
      (ih (k + 1)).finish fun vs => mirrors_pure _

theorem mirrors_lowerBody (d : FunctionDecl) (body : List Stmt) : Mirrors p (lowerBody d body)
    fun r => resolveStmts p body
      (d.params.foldl (fun r x => r.declare (x.name.getD "") x.location) r) := by
  refine mirrors_newBlock.then fun entry => mirrors_newBlock.then fun exit => ?_
  refine (mirrors_changeBlock _ _).then fun _ => (mirrors_setCurrent _).then fun _ => ?_
  refine (mirrors_declareParams d.params 0).bind fun params => ?_
  exact (mirrors_lowerStmts body).finish fun _ => (mirrors_jumpIfOpen _).then fun _ => mirrors_pure _

end Lower

/-- What a program knows of names where the given global ones are in scope. -/
def Program.scoping (p : Program) (globals : Names) : Scoping := ⟨globals, p.declared, p.uses⟩

section

variable {p p' q : Program} {globals : Names} {d : FunctionDecl}

theorem lowerFunction_scoping {f : FunctionId} {body : List Stmt} (hq : p.structs = q.structs)
    (h : lowerFunction globals p f d body = .ok p') :
    d.resolve q body (p.scoping globals) = some (p'.scoping globals) ∧ p'.structs = q.structs := by
  obtain ⟨⟨vs, s⟩, hrun, h⟩ := bind_eq_ok.1 h
  obtain ⟨hbody, hnests⟩ := mirrors_lowerBody (p := q) d body
    { program := p, globals := globals, function := f, returns := d.returns } vs s hq
    (cons_ne_nil _ _) hrun
  dsimp only at h
  split at h
  · cases h
  · cases h
    exact ⟨map_eq_some_iff.2 ⟨s.scoping, hbody, rfl⟩, hnests.structs.trans hq⟩

/-- Building the bodies of functions that the program has resolves them one after the other. -/
theorem lowerDefinitions_scoping (ds : List FunctionDecl) (hp : p.Built globals)
    (hq : p.structs = q.structs) (hhas : ∀ d ∈ ds, p.Has d.name)
    (h : ds.foldlM (lowerDefinition globals) p = .ok p') :
    ds.foldlM (fun r d => match d.body with
      | some body => d.resolve q body r
      | none => some r) (p.scoping globals) = some (p'.scoping globals) ∧
      p'.structs = q.structs := by
  induction ds generalizing p with
  | nil =>
    cases h
    exact ⟨rfl, hq⟩
  | cons d ds ih =>
    rw [foldlM_cons] at h ⊢
    obtain ⟨p1, h1, h⟩ := bind_eq_ok.1 h
    obtain ⟨hbuilds, -⟩ := lowerDefinition_builds hp h1
    have hbuilt := lowerDefinition_built d hp h1
    have hrest := fun hq => ih hbuilt hq (fun d hd => (hhas d (mem_cons_of_mem _ hd)).builds hbuilds) h
    unfold lowerDefinition at h1
    cases hbody : d.body with
    | none =>
      rw [hbody] at h1
      cases h1
      exact hrest hq
    | some body =>
      obtain ⟨f, hf⟩ := (hhas d mem_cons_self).functionNamed?
      rw [hbody, hf] at h1
      obtain ⟨hresolve, hq1⟩ := lowerFunction_scoping hq h1
      dsimp only
      rw [hresolve]
      exact hrest hq1

end

/-! ### Names at the top of a text -/

section

variable {P : Program → Prop}

/-- What texts among the expressions do not change, setting a global variable does not change. -/
theorem constInitExpr_keeps (hP : ∀ p span s, P p →
      P { p with exprs := p.exprs.push ⟨.string s, .array .char (some (s.utf8ByteSize + 1)), span⟩ })
    {p : Program} {type : CType} {e : Expr} {r : Program × ConstInit} (hp : P p)
    (h : constInitExpr p type e = .ok r) : P r.1 := by
  have hnumber (e : Expr) (h : constInitExpr.number p type e = .ok r) : P r.1 := by
    unfold constInitExpr.number at h
    split at h
    · cases h
      exact hp
    · cases h
  fun_induction constInitExpr p type e with
  | case1 span s harray | case3 =>
    cases h
    exact hp
  | case2 span s harray literal =>
    cases h
    exact hP p span s hp
  | case4 span t operand hpointer ih => exact ih h
  | case5 span t operand hpointer => exact hnumber _ h
  | case6 e => exact hnumber e h

mutual

theorem constInit_keeps (hP : ∀ p span s, P p →
      P { p with exprs := p.exprs.push ⟨.string s, .array .char (some (s.utf8ByteSize + 1)), span⟩ })
    (init : Initializer) {p : Program} {type : CType} {r : Program × ConstInit} (hp : P p)
    (h : constInit p type init = .ok r) : P r.1 := by
  unfold constInit at h
  match init with
  | .expr e => exact constInitExpr_keeps hP hp h
  | .list location items =>
    obtain ⟨types, -, h⟩ := bind_eq_ok.1 h
    cases types with
    | none => exact constInitFirst_keeps hP items hp h
    | some types =>
      obtain ⟨⟨p', values⟩, hinits, h⟩ := bind_eq_ok.1 h
      cases h
      exact constInits_keeps hP items hp hinits

theorem constInits_keeps (hP : ∀ p span s, P p →
      P { p with exprs := p.exprs.push ⟨.string s, .array .char (some (s.utf8ByteSize + 1)), span⟩ })
    (items : List Initializer) {p : Program} {types : List CType} {r : Program × List ConstInit}
    (hp : P p) (h : constInits p types items = .ok r) : P r.1 := by
  unfold constInits at h
  match items, types with
  | item :: items, type :: types =>
    obtain ⟨⟨p1, value⟩, hinit, h⟩ := bind_eq_ok.1 h
    obtain ⟨⟨p2, more⟩, hinits, h⟩ := bind_eq_ok.1 h
    cases h
    have hp1 : P p1 := constInit_keeps hP item hp hinit
    have hp2 : P p2 := constInits_keeps hP items hp1 hinits
    exact hp2
  | [], _ | _ :: _, [] =>
    cases h
    exact hp

theorem constInitFirst_keeps (hP : ∀ p span s, P p →
      P { p with exprs := p.exprs.push ⟨.string s, .array .char (some (s.utf8ByteSize + 1)), span⟩ })
    (items : List Initializer) {p : Program} {type : CType} {r : Program × ConstInit} (hp : P p)
    (h : constInitFirst p type items = .ok r) : P r.1 := by
  unfold constInitFirst at h
  match items with
  | item :: _ => exact constInit_keeps hP item hp h
  | [] =>
    cases h
    exact hp

end

end

section

variable {t t' : TopLevel} {d : VarDecl}

/-- What a global variable starts with names no variable. -/
theorem constInit_scoping {p : Program} {type : CType} {init : Initializer}
    {r : Program × ConstInit} (h : constInit p type init = .ok r) :
    r.1.declared = p.declared ∧ r.1.uses = p.uses ∧ r.1.structs = p.structs :=
  constInit_keeps (P := fun q => q.declared = p.declared ∧ q.uses = p.uses ∧ q.structs = p.structs)
    (fun q span s hq => ⟨hq.1, by rw [uses_push, hq.2.1]; exact append_nil _, hq.2.2⟩)
    init ⟨rfl, rfl, rfl⟩ h

theorem declareGlobal_scoping (h : declareGlobal t d = .ok t') :
    t'.program.scoping t'.globals = d.announce (t.program.scoping t.globals) ∧
      t'.program.structs = t.program.structs := by
  unfold declareGlobal at h
  obtain ⟨-, -, h⟩ := bind_eq_ok.1 h
  have hknown {v : VarId} (hv : t.globals.lookup d.name = some v) :
      d.announce (t.program.scoping t.globals) = t.program.scoping t.globals := by
    unfold VarDecl.announce Program.scoping
    exact if_pos (by rw [hv]; rfl)
  have hnew {q : Program} {value : List GlobalInit} (hv : t.globals.lookup d.name = none)
      (hdeclared : q.declared = t.program.declared ++ [(d.name, d.location)])
      (huses : q.uses = t.program.uses) :
      Program.scoping { q with globals := value } ((d.name, ⟨t.program.vars.size⟩) :: t.globals) =
        d.announce (t.program.scoping t.globals) := by
    unfold VarDecl.announce
    have hnot : ¬ ((t.program.scoping t.globals).names.lookup d.name).isSome = true := by
      rw [show (t.program.scoping t.globals).names = t.globals from rfl, hv]
      exact Bool.false_ne_true
    rw [if_neg hnot]
    simp only [Program.scoping, Scoping.declare, Program.declared, Program.uses, length_map,
      Array.length_toList] at hdeclared huses ⊢
    rw [hdeclared, huses]
  have hpush (x : Variable) : Program.declared { t.program with vars := t.program.vars.push x } =
      t.program.declared ++ [(x.name, x.location)] := by
    simp only [Program.declared, Array.toList_push, map_append, map_cons, map_nil]
  split at h
  · next v hv hinit =>
    cases h
    exact ⟨(hknown hv).symm, rfl⟩
  · next v init hv hinit =>
    split at h
    · cases h
    · obtain ⟨⟨q, value⟩, hq, h⟩ := bind_eq_ok.1 h
      cases h
      obtain ⟨hdeclared, huses, hstructs⟩ := constInit_scoping hq
      refine ⟨.trans ?_ (hknown hv).symm, hstructs⟩
      exact congrArg₂ (Scoping.mk t.globals) hdeclared huses
  · next init hv =>
    dsimp only at h
    split at h
    · next init hinit =>
      obtain ⟨⟨q, value⟩, hq, h⟩ := bind_eq_ok.1 h
      cases h
      obtain ⟨hdeclared, huses, hstructs⟩ := constInit_scoping hq
      exact ⟨hnew hv (hdeclared.trans (hpush _)) huses, hstructs⟩
    · cases h
      exact ⟨hnew hv (hpush _) rfl, rfl⟩

theorem declareFunction_scoping {d : FunctionDecl} (h : declareFunction t d = .ok t') :
    t'.program.scoping t'.globals = t.program.scoping t.globals ∧
      t'.program.structs = t.program.structs := by
  unfold declareFunction at h
  dsimp only at h
  split at h
  · split at h
    · cases h
    · cases h
      exact ⟨rfl, rfl⟩
  · cases h
    exact ⟨rfl, rfl⟩

theorem declareItems_scoping (items : List Item) (h : items.foldlM declareItem t = .ok t') :
    t'.program.scoping t'.globals = items.foldl (fun r item => match item with
      | .global d => d.announce r
      | _ => r) (t.program.scoping t.globals) ∧ t'.program.structs = t.program.structs := by
  induction items generalizing t with
  | nil =>
    cases h
    exact ⟨rfl, rfl⟩
  | cons item items ih =>
    rw [foldlM_cons] at h
    obtain ⟨t1, h1, h⟩ := bind_eq_ok.1 h
    obtain ⟨hrest, hstructs⟩ := ih h
    rw [foldl_cons]
    cases item with
    | struct d =>
      cases h1
      exact ⟨hrest, hstructs⟩
    | global d =>
      obtain ⟨hfirst, hsame⟩ := declareGlobal_scoping h1
      exact ⟨by rw [hrest, hfirst], hstructs.trans hsame⟩
    | function d =>
      obtain ⟨hfirst, hsame⟩ := declareFunction_scoping h1
      exact ⟨by rw [hrest, hfirst], hstructs.trans hsame⟩

end

/-! ### Names of a text -/

section

variable {s : Stmt} {st st' : Lowering} {name : String} {u : SourceUnit} {file : String} {p : Program}

/-- A statement changes what names stand for by exactly the names that it exposes. -/
theorem exposes_lowerStmt (hst : st.scopes ≠ []) (h : lowerStmt s st = .ok ((), st')) :
    Scoping.Exposes s.exposed st.scoping st'.scoping :=
  s.exposes_resolve (mirrors_lowerStmt s st () st' rfl hst h).1

theorem name_of_declared {v : VarId} (h : (p.declared[v.index]?).map Prod.fst = some name) :
    (p.var v).name = name := by
  obtain ⟨x, hx, rfl⟩ := map_eq_some_iff.1 h
  obtain ⟨y, hy, rfl⟩ := map_eq_some_iff.1 (getElem?_map ▸ hx)
  rw [Program.var, ← Array.getElem?_toList, hy]
  rfl

/-- The identifiers of a program stand for what they stand for in its text. -/
theorem Program.ofUnit_resolve (h : Program.ofUnit u file = .ok p) :
    ∃ globals, u.resolve p = some (p.scoping globals) := by
  obtain ⟨q, hq, h⟩ := bind_eq_ok.1 h
  obtain ⟨t, ht, h⟩ := bind_eq_ok.1 h
  have hbuilt := (declareItems_plain hq ht).built
  have hnamed : TopLevel.Named ⟨q, [], []⟩ := ⟨.nil, fun _ hn => nomatch hn⟩
  have hdeclares := declareItems_declares u.items u.expansions hnamed ht
  -- before the items there are structures only
  have hempty : q.scoping [] = {} :=
    foldlM_keeps (P := fun q : Program => q.scoping [] = {}) (fun d q q' hq h => by
        unfold declareStruct at h
        split at h
        · cases h
        · cases h
          exact hq) _ rfl hq
  obtain ⟨htop, -⟩ := declareItems_scoping u.items ht
  have hstructs : t.program.structs = p.structs := by
    obtain ⟨-, hsame⟩ := lowerDefinitions_scoping (q := t.program) u.functions hbuilt rfl
      hdeclares.has_of_mem h
    exact hsame.symm
  obtain ⟨hresolve, -⟩ := lowerDefinitions_scoping u.functions hbuilt hstructs hdeclares.has_of_mem h
  refine ⟨t.globals, ?_⟩
  rw [htop] at hresolve
  dsimp only at hresolve
  rw [hempty] at hresolve
  exact hresolve

end

/-- **Lexical scoping.** A statement leaves every name alone but those that it exposes, and these stand
for variables that it declares; a block, a `for` and a statement in which every declaration stands in
one of these expose nothing. In a whole program, every identifier that is evaluated stands for the
innermost declaration before it whose scope has not ended, as its text says. -/
theorem Program.ofUnit_scoping (u : SourceUnit) (file : String) (p : Program) (s : Stmt)
    (st st' : Lowering) :
    (st.scopes ≠ [] → lowerStmt s st = .ok ((), st') →
      (∀ name ∉ s.exposed, lookup? st' name = lookup? st name) ∧
      ∀ name ∈ s.exposed, ∃ v, lookup? st' name = some v ∧ st.program.vars.size ≤ v.index ∧
        (st'.program.var v).name = name) ∧
    (Program.ofUnit u file = .ok p → ∃ globals, u.resolve p = some (p.scoping globals)) := by
  refine ⟨fun hst h => ?_, ofUnit_resolve⟩
  have hexposes := exposes_lowerStmt hst h
  simp only [← Lowering.lookup_scoping]
  refine ⟨fun name hname => hexposes.lookup_of_notMem hname, fun name hname => ?_⟩
  obtain ⟨v, hv, hle, hdecl⟩ := hexposes.lookup_of_mem hname
  refine ⟨v, hv, ?_, name_of_declared hdecl⟩
  simpa only [Lowering.scoping, Program.declared, length_map, Array.length_toList] using hle

section

/-- A state of building with no names. -/
def namelessLowering : Lowering where
  program := { file := "a.c" }
  globals := []
  function := ⟨0⟩
  returns := .int

/-- The statement `switch (1) { case 1: int y = 2; }`. -/
def leakingSwitch : Stmt :=
  let l : Location := ⟨1, 1⟩
  let number (value : Int) : Expr := .int (.point l) value
  .switch l (number 1) [(l, some (number 1), [.decl l [⟨"y", .int, some (.expr (number 2)), false, l⟩]])]

/-- The body `{ int x = c; { int c = x; x = c; } for (int x = 1; x; ) c = x; return x; }`. -/
def shadowingBody : List Stmt :=
  let l : Location := ⟨1, 1⟩
  let named (name : String) : Expr := .ident (.point l) name
  let start (name : String) (value : Expr) : Stmt := .decl l [⟨name, .int, some (.expr value), false, l⟩]
  let set (name : String) (value : Expr) : Expr := .assign (.point l) none (named name) value
  [start "x" (named "c"), .block l [start "c" (named "x"), .expr l (set "x" (named "c"))],
    .forDo l (some (start "x" (.int (.point l) 1))) (some (named "x")) none
      (.expr l (set "c" (named "x"))), .return l (some (named "x"))]

/-- The unit with the function `int f(int c)` of this body. -/
def shadowingUnit : SourceUnit := .single .int [("c", .int)] shadowingBody

/-- A parameter and a variable, each hidden for a while: the names mean the outer variables again where
the block and the loop have ended. A variable declared in a block is not known behind it, and one that
stands in the case of a switch is. -/
theorem Program.ofUnit_scoping_shadowed :
    (∃ st', namelessLowering.scopes ≠ [] ∧
      lowerStmt (.block ⟨1, 1⟩ [leakingSwitch]) namelessLowering = .ok ((), st') ∧
      lookup? st' "y" = lookup? namelessLowering "y") ∧
    (∃ st', namelessLowering.scopes ≠ [] ∧ lowerStmt leakingSwitch namelessLowering = .ok ((), st') ∧
      ∃ v, lookup? st' "y" = some v ∧ (st'.program.var v).name = "y") ∧
    ∃ p, Program.ofUnit shadowingUnit "a.c" = .ok p ∧
      p.uses = [⟨0⟩, ⟨1⟩, ⟨1⟩, ⟨2⟩, ⟨3⟩, ⟨0⟩, ⟨3⟩, ⟨1⟩] ∧
      ∃ globals, shadowingUnit.resolve p = some (p.scoping globals) := by
  have hscopes : namelessLowering.scopes ≠ [] := cons_ne_nil _ _
  have hstmt s st' := (ofUnit_scoping shadowingUnit "a.c" namelessLowering.program s namelessLowering
    st').1 hscopes
  refine ⟨?_, ?_, ?_⟩
  · have hrun : (lowerStmt (.block ⟨1, 1⟩ [leakingSwitch]) namelessLowering).toOption.any
        (fun _ => true) = true := by decide +kernel
    obtain ⟨r, h, -⟩ := exists_ok_of_any hrun
    exact ⟨r.2, hscopes, h, (hstmt _ _ h).1 "y" (by decide)⟩
  · have hrun : (lowerStmt leakingSwitch namelessLowering).toOption.any (fun _ => true) = true := by
      decide +kernel
    obtain ⟨r, h, -⟩ := exists_ok_of_any hrun
    obtain ⟨v, hv, -, hname⟩ := (hstmt _ _ h).2 "y" (by decide)
    exact ⟨r.2, hscopes, h, v, hv, hname⟩
  · have huses : (Program.ofUnit shadowingUnit "a.c").toOption.any (fun p =>
        decide (p.uses = [⟨0⟩, ⟨1⟩, ⟨1⟩, ⟨2⟩, ⟨3⟩, ⟨0⟩, ⟨3⟩, ⟨1⟩])) = true := by decide +kernel
    obtain ⟨p, hu, huses⟩ := exists_ok_of_any huses
    exact ⟨p, hu, of_decide_eq_true huses,
      (ofUnit_scoping _ _ p leakingSwitch namelessLowering namelessLowering).2 hu⟩

/-- A switch is no declaration, yet a name that is not known before it may be known behind it. -/
theorem lowerStmt_leaks : ∃ s st st', (∀ l ds, s ≠ Stmt.decl l ds) ∧ st.scopes ≠ [] ∧
    lowerStmt s st = .ok ((), st') ∧ ∃ name, lookup? st' name ≠ lookup? st name := by
  have hleak : (lowerStmt leakingSwitch namelessLowering).toOption.any (fun r =>
      decide (lookup? r.2 "y" ≠ lookup? namelessLowering "y")) = true := by decide +kernel
  obtain ⟨r, h, hy⟩ := exists_ok_of_any hleak
  exact ⟨leakingSwitch, namelessLowering, r.2, fun _ _ => Stmt.noConfusion, cons_ne_nil _ _, h, "y",
    of_decide_eq_true hy⟩

end

end PathScout

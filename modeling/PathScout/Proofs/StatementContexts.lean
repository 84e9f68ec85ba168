import PathScout.Proofs.ExpressionContexts

/-!
# Expressions in a statement

Building a statement comes to an expression in it in a state whose current block goes on, or never does; the
labels of cases take constants only.

* `Initializer.Context`, `Stmt.Context`: an expression in one place of what a variable starts with, and of a
  statement.
* `Initializer.Context.reaches`: what a local variable starts with. `Lower.reaches_lowerDecl`: its
  declaration.
* `Stmt.Context.reaches`: every place of a statement.
-/

namespace PathScout

open Lower List

/-! ### Places of what a variable starts with -/

/-- The function puts an expression in one place of what a variable starts with. -/
inductive Initializer.Context : (Expr → Initializer) → Prop
  | expr {F} (h : Expr.Context F) : Context fun x => .expr (F x)
  | list {N} {location} (before after : List Initializer) (h : Context N) :
    Context fun x => .list location (before ++ N x :: after)

/-- The function puts an expression in one place of a statement. -/
inductive Stmt.Context : (Expr → Stmt) → Prop
  | decl {N} {location} (before after : List VarDecl) (decl : VarDecl) (h : Initializer.Context N) :
    Context fun x => .decl location (before ++ { decl with init := some (N x) } :: after)
  | expr {F} {location} (h : Expr.Context F) : Context fun x => .expr location (F x)
  | block {S} {location} (before after : List Stmt) (h : Context S) :
    Context fun x => .block location (before ++ S x :: after)
  | ifCond {F} {location yes no} (h : Expr.Context F) : Context fun x => .ifThen location (F x) yes no
  | ifYes {S} {location cond no} (h : Context S) : Context fun x => .ifThen location cond (S x) no
  | ifNo {S} {location cond yes} (h : Context S) :
    Context fun x => .ifThen location cond yes (some (S x))
  | whileCond {F} {location body} (h : Expr.Context F) : Context fun x => .whileDo location (F x) body
  | whileBody {S} {location cond} (h : Context S) : Context fun x => .whileDo location cond (S x)
  | doBody {S} {location cond} (h : Context S) : Context fun x => .doWhile location (S x) cond
  | doCond {F} {location body} (h : Expr.Context F) : Context fun x => .doWhile location body (F x)
  | forInit {S} {location cond step body} (h : Context S) :
    Context fun x => .forDo location (some (S x)) cond step body
  | forCond {F} {location init step body} (h : Expr.Context F) :
    Context fun x => .forDo location init (some (F x)) step body
  | forStep {F} {location init cond body} (h : Expr.Context F) :
    Context fun x => .forDo location init cond (some (F x)) body
  | forBody {S} {location init cond step} (h : Context S) :
    Context fun x => .forDo location init cond step (S x)
  | switchCond {F} {location cases} (h : Expr.Context F) : Context fun x => .switch location (F x) cases
  | caseLabel {F} {location cond l body} (before after : List SwitchCase) (h : Expr.Context F) :
    Context fun x => .switch location cond (before ++ (l, some (F x), body) :: after)
  | caseBody {S} {location cond l label} (before after : List SwitchCase) (first last : List Stmt)
    (h : Context S) :
    Context fun x => .switch location cond (before ++ (l, label, first ++ S x :: last) :: after)
  | return {F} {location} (h : Expr.Context F) : Context fun x => .return location (some (F x))

namespace Lower

variable {N : Expr → Initializer}

open Draft

variable {span : Span} {d : Draft} {type : CType} {path : List InitStep}

theorem lowerInitExpr_of_fits {x : Expr} (hx : x.Fits span) (type : CType) (path : List InitStep) :
    lowerInitExpr type x path = if type.isArray then fail (.invalidOperands .arrayFromExpr) span.first
      else do
        let v ← convert (← (lower x).value) type
        return [⟨path, v⟩] := by
  unfold lowerInitExpr
  split
  · exact absurd rfl (hx.not_string _ _)
  · rw [Expr.location, hx.span_eq]

theorem reaches_lowerInitExpr {F : Expr → Expr} (h : Expr.Context F) (type : CType)
    (path : List InitStep) (hd : d.Sound) :
    Reaches span fun x => lowerInitExpr type (F x) path d.state := by
  obtain ⟨span', hfits⟩ := h.fits span
  refine .congr ?_ fun x hx => by rw [lowerInitExpr_of_fits (hfits x hx) type path]
  exact .ite (.passed _ fun _ _ => rfl) (((h.reached span).value hd).left _)

/-- A list starts at the same location whatever stands in the place. -/
theorem exists_initLocation {N : Expr → Initializer} (h : Initializer.Context N) (span : Span)
    (before after : List Initializer) :
    ∃ l, ∀ x, x.Fits span → initLocation (before ++ N x :: after) = l := by
  cases before with
  | cons item before => cases item <;> exact ⟨_, fun _ _ => rfl⟩
  | nil =>
    cases h with
    | list => exact ⟨_, fun _ _ => rfl⟩
    | expr h =>
      obtain ⟨span', hfits⟩ := h.fits span
      exact ⟨span'.first, fun x hx => congrArg Span.first (hfits x hx).span_eq⟩

/-- The parts before the one with the place are built first. -/
theorem reaches_lowerInitSlots
    (hN : ∀ (type : CType) (path : List InitStep) (d : Draft), d.Sound → (type ≠ .int → d.Mixed) →
      Reaches span fun x => lowerInit (N x) type path d.state) (before after : List Initializer)
    (slots : List (CType × InitStep)) (path : List InitStep) (hd : d.Sound) (hmixed : d.Mixed) :
    Reaches span fun x => lowerInitSlots (before ++ N x :: after) slots path d.state := by
  induction before generalizing d slots with
  | nil =>
    cases slots with
    | nil => exact .passed _ fun _ _ => by simp only [nil_append, lowerInitSlots]; rfl
    | cons slot slots =>
      simp only [nil_append, lowerInitSlots]
      exact (hN _ _ d hd fun _ => hmixed).left _
  | cons item before ih =>
    cases slots with
    | nil => exact .passed _ fun _ _ => by simp only [cons_append, lowerInitSlots]; rfl
    | cons slot slots =>
      simp only [cons_append, lowerInitSlots]
      refine .right (sends_lowerInit item _ _ hd fun _ => hmixed) fun first d1 h1 => ?_
      exact (ih slots h1.grows.sound (hmixed.below hd h1.grows.toBelow)).left _

theorem reaches_lowerInitFirst (hN : Reaches span fun x => lowerInit (N x) type path d.state)
    (before after : List Initializer) :
    Reaches span fun x => lowerInitFirst (before ++ N x :: after) type path d.state := by
  cases before with
  | nil =>
    simp only [nil_append, lowerInitFirst]
    exact hN
  | cons item before =>
    simp only [cons_append, lowerInitFirst]
    exact .passed _ fun _ _ => rfl

end Lower

theorem Initializer.Context.reaches {N : Expr → Initializer} (h : Initializer.Context N) (span : Span)
    (type : CType) (path : List InitStep) {d : Draft} (hd : d.Sound) (hmixed : type ≠ .int → d.Mixed) :
    Reaches span fun x => lowerInit (N x) type path d.state := by
  induction h generalizing type path d with
  | expr h =>
    simp only [lowerInit]
    exact reaches_lowerInitExpr h type path hd
  | @list N l before after h ih =>
    have hslots (hne : type ≠ .int) (slots : List (CType × InitStep)) := reaches_lowerInitSlots
      (fun type path d hd hm => ih type path hd hm) before after slots path hd (hmixed hne)
    simp only [lowerInit, length_append, length_cons]
    cases type with
    | array element size =>
      refine .get_bind ?_
      generalize initSlots d.state.program _ _ = slots
      cases slots with
      | some slots => exact hslots (by simp) slots
      | none => exact .passed _ fun _ _ => rfl
    | struct name =>
      obtain ⟨l', hl'⟩ := exists_initLocation h span before after
      refine .get_bind ?_
      generalize initSlots d.state.program _ _ = slots
      cases slots with
      | some slots => exact hslots (by simp) slots
      | none =>
        refine .passed (fail (.unknownStruct name) l' d.state) fun x hx => ?_
        dsimp only
        rw [hl' x hx]
    | _ => exact reaches_lowerInitFirst (ih _ path hd hmixed) before after

theorem completeArray_of_fits {span : Span} {x : Expr} (hx : x.Fits span) (type : CType) :
    completeArray type (some (.expr x)) = type := by
  unfold completeArray
  split
  · next heq => cases heq
  · next heq =>
    cases heq
    exact absurd rfl (hx.not_string _ _)
  · rfl

/-- An array takes the same size whatever stands in the place. -/
theorem Initializer.Context.exists_completeArray {N : Expr → Initializer} (h : Initializer.Context N)
    (span : Span) (type : CType) :
    ∃ type', ∀ x, x.Fits span → completeArray type (some (N x)) = type' := by
  cases h with
  | expr h =>
    obtain ⟨span', hfits⟩ := h.fits span
    exact ⟨type, fun x hx => completeArray_of_fits (hfits x hx) type⟩
  | list before after h =>
    cases type with
    | array element size =>
      cases size with
      | none =>
        refine ⟨.array element (some (before.length + (after.length + 1))), fun x _ => ?_⟩
        rw [completeArray, length_append, length_cons]
      | some size => exact ⟨_, fun _ _ => rfl⟩
    | _ => exact ⟨_, fun _ _ => rfl⟩

namespace Lower

variable {α : Type} {act : Expr → Lower Unit} {d₀ : Draft} {blocks fresh opened rest : List BlockId}
  {f : Expr → BlockId → BlockId → BlockId → Lower Unit} {l l' : Location}
  {cases cases' : List SwitchCase}

open Draft

variable {span : Span} {d : Draft}

/-- What a variable starts with, and the step that declares it. -/
theorem reaches_declInit {N : Expr → Initializer} (h : Initializer.Context N) {v : VarId} {type : CType}
    (l : Location) (hd : d.Sound) (hv : v ∈ d.state.locals) (htype : (d.program.var v).type = type) :
    Reaches span fun x => (do
      let init ← match some (N x) with
        | none => pure none
        | some (.expr e) =>
          if type.isArray then do pure (some (DeclInit.list (← lowerInitExpr type e [])))
          else do pure (some (DeclInit.expr (← convert (← (lower e).value) type)))
        | some (.list l items) => do pure (some (DeclInit.list (← lowerInit (.list l items) type [])))
      pushElement (.decl v init l)) d.state := by
  have hmixed : type ≠ .int → d.Mixed := fun hne => ⟨v, hv, by rwa [htype]⟩
  cases h with
  | expr h =>
    refine .ite ?_ ?_
    · exact (reaches_lowerInitExpr h type [] hd).left _
    · exact ((h.reached span).value hd).left _
  | @list N l' before after h =>
    have hlist : Initializer.Context fun x => .list l' (before ++ N x :: after) := .list before after h
    exact (hlist.reaches span type [] hd hmixed).left _

theorem reaches_lowerDecl {N : Expr → Initializer} (h : Initializer.Context N) (decl : VarDecl)
    (hd : d.Sound) : Reaches span fun x => lowerDecl { decl with init := some (N x) } d.state := by
  obtain ⟨type, htype⟩ := h.exists_completeArray span decl.type
  refine .congr ?_ fun x hx => by rw [lowerDecl, htype x hx]
  dsimp only
  refine .right (sends_requireComplete type decl.location) ?_
  rintro _ d rfl
  refine .right (sends_declareVar decl.name type (if decl.isStatic then .staticLocal else .local)
    decl.location) ?_
  rintro v _ ⟨rfl, rfl⟩
  -- a static variable is set up elsewhere
  by_cases hstatic : decl.isStatic = true
  · exact .passed _ fun x _ => by rw [if_pos hstatic]
  · simp only [if_neg hstatic]
    have hg := hd.grows_declared (x := ⟨decl.name, type, .local, some d.state.function, decl.location⟩)
      (.inl rfl)
    exact reaches_declInit h decl.location hg.sound (mem_locals_declared_self fun i => by simp)
      (congrArg Variable.type var_declared_self)

/-- The things before the one with the place are built first. -/
theorem reaches_forM {f : α → Lower Unit} {a : Expr → α}
    (hf : ∀ (a : α) (d : Draft), d.Sound → Sends d (f a) fun _ d' => Builds d d')
    (ha : ∀ d : Draft, d.Sound → Reaches span fun x => f (a x) d.state) (before after : List α)
    (hd : d.Sound) : Reaches span fun x => (before ++ a x :: after).forM f d.state := by
  induction before generalizing d with
  | nil => exact (ha d hd).left _
  | cons b before ih => exact .right (hf b d hd) fun _ d1 h1 => ih h1.sound

/-! ### Places of a statement -/

theorem reaches_inScope (hd : d.Sound) (h : ∀ d : Draft, d.Sound → Reaches span fun x => act x d.state) :
    Reaches span fun x => inScope (act x) d.state := by
  refine .right (sends_openScope hd) ?_
  rintro _ _ ⟨rfl, hd1⟩
  exact (h _ hd1).left _

theorem reaches_inTargets {t : JumpTargets} (hlayout : Layout d₀ blocks fresh d)
    (hbreak : t.breakTo ∈ blocks) (hcontinue : ∀ b ∈ t.continueTo, b ∈ blocks)
    (h : ∀ d1 d2 : Draft, Layout d1 blocks fresh d2 → Reaches span fun x => act x d2.state) :
    Reaches span fun x => inTargets t (act x) d.state := by
  refine .right (sends_openTargets hlayout hbreak hcontinue) ?_
  rintro _ _ ⟨rfl, h1⟩
  exact (h _ _ h1).left _

/-- Something is built between two blocks. -/
theorem reaches_then {β : Type} {m : Lower α} {f : Expr → α → Lower β} (h : Layout d₀ blocks fresh d)
    (hm : Sends d m fun _ d' => Builds d d')
    (hf : ∀ a d', Layout d₀ blocks fresh d' → Reaches span fun x => f x a d'.state) :
    Reaches span fun x => (m >>= f x) d.state := .right hm fun a d' h' => hf a d' (h.builds h')

variable {F : Expr → Expr} {S : Expr → Stmt}

theorem reaches_lowerStmts (hS : ∀ d : Draft, d.Sound → Reaches span fun x => lowerStmt (S x) d.state)
    (before after : List Stmt) (hd : d.Sound) :
    Reaches span fun x => lowerStmts (before ++ S x :: after) d.state := by
  induction before generalizing d with
  | nil =>
    simp only [nil_append, lowerStmts]
    exact (hS d hd).left _
  | cons s before ih =>
    simp only [cons_append, lowerStmts]
    exact .right (sends_lowerStmt s hd) fun _ d1 h1 => ih h1.sound

theorem reaches_lowerEffect (hF : Lowered.Reached span fun x => lower (F x)) (hd : d.Sound) :
    Reaches span fun x => lowerEffect (F x) d.state := (hF.value hd).left _

/-- The blocks of an `if`. -/
theorem reaches_openIf (no : Option Stmt) (hd : d.Sound)
    (h : ∀ yesBlock next noBlock blocks d', yesBlock ∈ blocks → next ∈ blocks → noBlock ∈ blocks →
      Layout d blocks ((if no.isSome then noBlock :: [next] else [next]) ++ yesBlock :: []) d' →
        Reaches span fun x => f x yesBlock next noBlock d'.state) :
    Reaches span fun x => (do
      let yesBlock ← newBlock
      let next ← newBlock
      let noBlock ← match no with
        | some _ => newBlock
        | none => pure next
      f x yesBlock next noBlock) d.state := by
  refine .right (sends_layOut (.refl hd)) ?_
  rintro yesBlock d1 ⟨h1, -⟩
  refine .right (sends_layOut h1) ?_
  rintro next d2 ⟨h2, -⟩
  cases no with
  | none => exact h yesBlock next next _ d2 (by simp) (by simp) (by simp) h2
  | some s =>
    refine .right (sends_layOut h2) ?_
    rintro noBlock d3 ⟨h3, -⟩
    exact h yesBlock next noBlock _ d3 (by simp) (by simp) (by simp) h3

/-- The blocks of a loop, of which one is marked as its head and the first one is entered. -/
theorem reaches_openLoop (head : BlockId → BlockId → BlockId) (hd : d.Sound)
    (h : ∀ b b' exit d', Layout d [exit, b', b] [exit, b'] d' →
      Reaches span fun x => f x b b' exit d'.state) :
    Reaches span fun x => (do
      let b ← newBlock
      let b' ← newBlock
      let exit ← newBlock
      markLoopHead (head b b')
      jump b .fallthrough
      setCurrent (some b)
      f x b b' exit) d.state := by
  refine .right (sends_layOut (.refl hd)) ?_
  rintro b d1 ⟨h1, -⟩
  refine .right (sends_layOut h1) ?_
  rintro b' d2 ⟨h2, -⟩
  refine .right (sends_layOut h2) ?_
  rintro exit d3 ⟨h3, -⟩
  refine .right (sends_markLoopHead h3.sound (head b b')) fun _ d4 hg => ?_
  have h4 := h3.builds (hg _).builds
  refine reaches_then h4 (sends_jumpTo _ h4.sound (h4.idle b (by simp))) fun _ d5 h5 => ?_
  exact .right (sends_enter [exit, b'] [] h5) fun _ d6 h6 => h b b' exit d6 h6

/-- What a `for` starts with is built, and its head is entered. -/
theorem reaches_openFor {f : Expr → BlockId → BlockId → BlockId → BlockId → Lower Unit}
    (init : Option Stmt) (hd : d.Sound)
    (h : ∀ head body step exit d₀ d', Layout d₀ [exit, step, body, head] [exit, step, body] d' →
      Reaches span fun x => f x head body step exit d'.state) :
    Reaches span fun x => (inScope do
      lowerOptional init
      let head ← newBlock
      let body ← newBlock
      let step ← newBlock
      let exit ← newBlock
      markLoopHead head
      jump head .fallthrough
      setCurrent (some head)
      f x head body step exit) d.state := by
  refine reaches_inScope hd fun d hd => ?_
  refine .right (sends_lowerOptional init hd) fun _ d₀ h0 => ?_
  refine .right (sends_layOut (.refl h0.sound)) ?_
  rintro head d1 ⟨h1, -⟩
  refine .right (sends_layOut h1) ?_
  rintro body d2 ⟨h2, -⟩
  refine .right (sends_layOut h2) ?_
  rintro step d3 ⟨h3, -⟩
  refine .right (sends_layOut h3) ?_
  rintro exit d4 ⟨h4, -⟩
  refine .right (sends_markLoopHead h4.sound head) fun _ d5 hg => ?_
  have h5 := h4.builds (hg _).builds
  refine reaches_then h5 (sends_jumpTo _ h5.sound (h5.idle head (by simp))) fun _ d6 h6 => ?_
  exact .right (sends_enter [exit, step, body] [] h6) fun _ d7 h7 => h head body step exit d₀ d7 h7

attribute [local simp] lowerStmt

section

variable (hF : Lowered.Reached span fun x => lower (F x)) (hd : d.Sound)
include hF hd

theorem reaches_ifCond (yes : Stmt) (no : Option Stmt) :
    Reaches span fun x => lowerStmt (.ifThen l (F x) yes no) d.state := by
  simp only [lowerStmt]
  refine reaches_openIf no hd fun yesBlock next noBlock blocks d1 hyes hnext hno h1 => ?_
  exact (hF.branch d1 _ _ _ h1.sound (h1.idle _ hyes) (h1.idle _ hno)).left _

theorem reaches_whileCond (body : Stmt) :
    Reaches span fun x => lowerStmt (.whileDo l (F x) body) d.state := by
  simp only [lowerStmt]
  exact reaches_openLoop (fun b _ => b) hd fun head bodyBlock exit d1 h1 =>
    (hF.branch d1 _ _ _ h1.sound (h1.idle _ (by simp)) (h1.idle _ (by simp))).left _

theorem reaches_doCond (body : Stmt) :
    Reaches span fun x => lowerStmt (.doWhile l body (F x)) d.state := by
  simp only [lowerStmt]
  refine reaches_openLoop (fun _ b' => b') hd fun bodyBlock condBlock exit d1 h1 => ?_
  refine .right (sends_inTargets h1 (by simp) (by simp) fun _ d h =>
    Sends.imp (sends_lowerStmt body h.sound) fun _ _ h' => h.builds h') fun _ d2 h2 => ?_
  refine reaches_then h2 (sends_jumpIfOpen h2.sound (h2.idle condBlock (by simp))) fun _ d3 h3 => ?_
  refine .right (sends_enter [exit] [] h3) fun _ d4 h4 => ?_
  exact (hF.branch d4 _ _ _ h4.sound (h4.idle _ (by simp)) (h4.idle _ (by simp))).left _

theorem reaches_forCond (init : Option Stmt) (step : Option Expr) (body : Stmt) :
    Reaches span fun x => lowerStmt (.forDo l init (some (F x)) step body) d.state := by
  simp only [lowerStmt, lowerForCondition]
  exact reaches_openFor init hd fun head body step exit d₀ d1 h1 =>
    (hF.branch d1 _ _ _ h1.sound (h1.idle _ (by simp)) (h1.idle _ (by simp))).left _

theorem reaches_forStep (init : Option Stmt) (cond : Option Expr) (body : Stmt) :
    Reaches span fun x => lowerStmt (.forDo l init cond (some (F x)) body) d.state := by
  simp only [lowerStmt]
  refine reaches_openFor init hd fun head bodyBlock stepBlock exit d₀ d1 h1 => ?_
  refine reaches_then h1 (sends_lowerForCondition l cond h1.sound (h1.idle _ (by simp))
    (h1.idle _ (by simp))) fun _ d2 h2 => ?_
  refine .right (sends_enter [exit, stepBlock] [] h2) fun _ d3 h3 => ?_
  refine .right (sends_inTargets h3 (by simp) (by simp) fun _ d h =>
    Sends.imp (sends_lowerStmt body h.sound) fun _ _ h' => h.builds h') fun _ d4 h4 => ?_
  refine reaches_then h4 (sends_jumpIfOpen h4.sound (h4.idle stepBlock (by simp))) fun _ d5 h5 => ?_
  refine .right (sends_enter [exit] [] h5) fun _ d6 h6 => ?_
  exact (reaches_lowerEffect hF h6.sound).left _

end

section

variable (hS : ∀ d : Draft, d.Sound → Reaches span fun x => lowerStmt (S x) d.state) (hd : d.Sound)
include hS hd

theorem reaches_ifYes (cond : Expr) (no : Option Stmt) :
    Reaches span fun x => lowerStmt (.ifThen l cond (S x) no) d.state := by
  simp only [lowerStmt]
  refine reaches_openIf no hd fun yesBlock next noBlock blocks d1 hyes hnext hno h1 => ?_
  refine reaches_then h1 (sends_branch (lower_sound cond) _ h1.sound (h1.idle _ hyes) (h1.idle _ hno))
    fun _ d2 h2 => ?_
  refine .right (sends_enter _ [] h2) fun _ d3 h3 => ?_
  exact (hS d3 h3.sound).left _

theorem reaches_ifNo (cond : Expr) (yes : Stmt) :
    Reaches span fun x => lowerStmt (.ifThen l cond yes (some (S x))) d.state := by
  simp only [lowerStmt, lowerElse]
  refine reaches_openIf (some (.empty l)) hd fun yesBlock next noBlock blocks d1 hyes hnext hno h1 => ?_
  refine reaches_then h1 (sends_branch (lower_sound cond) _ h1.sound (h1.idle _ hyes) (h1.idle _ hno))
    fun _ d2 h2 => ?_
  refine .right (sends_enter [noBlock, next] [] h2) fun _ d3 h3 => ?_
  refine reaches_then h3 (sends_lowerStmt yes h3.sound) fun _ d4 h4 => ?_
  refine reaches_then h4 (sends_jumpIfOpen h4.sound (h4.idle _ hnext)) fun _ d5 h5 => ?_
  refine .left (.right (sends_enter [] [next] h5) fun _ d6 h6 => ?_) _
  exact (hS d6 h6.sound).left _

theorem reaches_whileBody (cond : Expr) :
    Reaches span fun x => lowerStmt (.whileDo l cond (S x)) d.state := by
  simp only [lowerStmt]
  refine reaches_openLoop (fun b _ => b) hd fun head bodyBlock exit d1 h1 => ?_
  refine reaches_then h1 (sends_branch (lower_sound cond) _ h1.sound (h1.idle _ (by simp))
    (h1.idle _ (by simp))) fun _ d2 h2 => ?_
  refine .right (sends_enter [exit] [] h2) fun _ d3 h3 => ?_
  exact (reaches_inTargets h3 (by simp) (by simp) fun _ d h => hS d h.sound).left _

theorem reaches_doBody (cond : Expr) :
    Reaches span fun x => lowerStmt (.doWhile l (S x) cond) d.state := by
  simp only [lowerStmt]
  exact reaches_openLoop (fun _ b' => b') hd fun bodyBlock condBlock exit d1 h1 =>
    (reaches_inTargets h1 (by simp) (by simp) fun _ d h => hS d h.sound).left _

theorem reaches_forInit (cond step : Option Expr) (body : Stmt) :
    Reaches span fun x => lowerStmt (.forDo l (some (S x)) cond step body) d.state := by
  simp only [lowerStmt, lowerOptional]
  exact reaches_inScope hd fun d hd => (hS d hd).left _

theorem reaches_forBody (init : Option Stmt) (cond step : Option Expr) :
    Reaches span fun x => lowerStmt (.forDo l init cond step (S x)) d.state := by
  simp only [lowerStmt]
  refine reaches_openFor init hd fun head bodyBlock stepBlock exit d₀ d1 h1 => ?_
  refine reaches_then h1 (sends_lowerForCondition l cond h1.sound (h1.idle _ (by simp))
    (h1.idle _ (by simp))) fun _ d2 h2 => ?_
  refine .right (sends_enter [exit, stepBlock] [] h2) fun _ d3 h3 => ?_
  exact (reaches_inTargets h3 (by simp) (by simp) fun _ d h => hS d h.sound).left _

end

/-! ### Places of a switch -/

theorem reaches_switchCond (cases : List SwitchCase) (hF : Expr.Context F) (hd : d.Sound) :
    Reaches span fun x => lowerStmt (.switch l (F x) cases) d.state := by
  obtain ⟨span', hfits⟩ := hF.fits span
  have hhead : Reaches span fun x => lowerSwitchHead l (F x) cases d.state := by
    refine .congr ?_ fun x hx => by rw [lowerSwitchHead, Expr.location, (hfits x hx).span_eq]
    exact ((hF.reached span).value hd).left _
  simp only [lowerStmt]
  exact hhead.left _

/-- The blocks of cases do not depend on the bodies of the cases. -/
theorem openCases_congr (h : cases.map (fun c => (c.1, c.2.1)) = cases'.map fun c => (c.1, c.2.1)) :
    openCases cases = openCases cases' := by
  induction cases generalizing cases' with
  | nil =>
    cases cases' with
    | nil => rfl
    | cons => cases h
  | cons c cases ih =>
    cases cases' with
    | nil => cases h
    | cons c' cases' =>
      obtain ⟨l, label, body⟩ := c
      obtain ⟨l', label', body'⟩ := c'
      simp only [map_cons, cons.injEq, Prod.mk.injEq] at h
      obtain ⟨⟨rfl, rfl⟩, hrest⟩ := h
      simp only [openCases, ih hrest]

/-- The bodies of cases are built whatever their labels are. -/
theorem lowerCases_congr (blocks : List BlockId)
    (h : cases.map (fun c => c.2.2) = cases'.map fun c => c.2.2) :
    lowerCases cases blocks = lowerCases cases' blocks := by
  induction cases generalizing cases' blocks with
  | nil =>
    cases cases' with
    | nil => rfl
    | cons => cases h
  | cons c cases ih =>
    cases cases' with
    | nil => cases h
    | cons c' cases' =>
      obtain ⟨l, label, body⟩ := c
      obtain ⟨l', label', body'⟩ := c'
      simp only [map_cons, cons.injEq] at h
      obtain ⟨rfl, hrest⟩ := h
      cases blocks with
      | nil => simp only [lowerCases]
      | cons b blocks => simp only [lowerCases, ih blocks hrest]

/-- The label of a case is a constant, so no size is in it. -/
theorem openCases_refuses (hF : Expr.Context F) (before after : List SwitchCase) (l : Location)
    (body : List Stmt) (span : Span) (e : Expr) (s : Lowering) :
    ∃ cause, openCases (before ++ (l, some (F (.sizeofExpr span e)), body) :: after) s = .error cause := by
  induction before generalizing s with
  | nil =>
    refine ⟨⟨.nonConstant, (F (.sizeofExpr span e)).location⟩, ?_⟩
    simp only [nil_append, openCases, hF.constant?_sizeof]
    rfl
  | cons c before ih =>
    obtain ⟨l', label, body'⟩ := c
    obtain ⟨cause, hcause⟩ := ih s.opened
    have hrest {α : Type}
        (g : BlockId → List BlockId × List CaseTarget × Option (BlockId × Location) → Lower α) :
        (newBlock >>= fun b => openCases (before ++ (l, some (F (.sizeofExpr span e)), body) :: after) >>=
          g b) s = .error cause := by
      show Except.bind (openCases _ s.opened) _ = _
      rw [hcause]
      rfl
    simp only [cons_append, openCases]
    cases label with
    | none => exact ⟨cause, hrest _⟩
    | some label =>
      cases hconst : label.constant? with
      | none => exact ⟨⟨.nonConstant, label.location⟩, by simp only [hconst]; rfl⟩
      | some n => exact ⟨cause, by simp only [hconst]; exact hrest _⟩

theorem reaches_caseLabel (cond : Expr) (before after : List SwitchCase) (body : List Stmt)
    (hF : Expr.Context F) (hd : d.Sound) : Reaches span fun x =>
      lowerStmt (.switch l cond (before ++ (l', some (F x), body) :: after)) d.state := by
  have hcases (x : Expr) (blocks : List BlockId) :
      lowerCases (before ++ (l', some (F x), body) :: after) blocks =
        lowerCases (before ++ (l', none, body) :: after) blocks := lowerCases_congr blocks (by simp)
  have hhead : Reaches span fun x =>
      lowerSwitchHead l cond (before ++ (l', some (F x), body) :: after) d.state := by
    simp only [lowerSwitchHead]
    refine .right ((lower_sound cond).value hd) ?_
    rintro v d1 ⟨h1, -⟩
    refine .typeOf_bind (.ite (.passed _ fun _ _ => rfl) ?_)
    refine .right (sends_convert h1.grows.sound h1.grows.size_le h1.ready .int) ?_
    rintro w d2 ⟨h2, -⟩
    refine .right (sends_layOut (.refl h2.grows.sound)) fun exit d3 _ => ?_
    exact .left (.refused fun e => openCases_refuses hF before after l' body span e d3.state) _
  simp only [lowerStmt, hcases]
  exact hhead.left _

/-- The block of a case is entered. -/
theorem reaches_openCase {f : Expr → Lower α} {b : BlockId} (hb : b ∈ blocks)
    (h : Layout d₀ blocks ((b :: opened).reverse ++ rest) d)
    (hf : ∀ d', Layout d₀ blocks (opened.reverse ++ rest) d' → Reaches span fun x => f x d'.state) :
    Reaches span fun x => (do
      jumpIfOpen b
      setCurrent (some b)
      f x) d.state := by
  refine reaches_then h (sends_jumpIfOpen h.sound (h.idle b hb)) fun _ d1 h1 => ?_
  rw [reverse_cons, append_assoc, singleton_append] at h1
  exact .right (sends_enter opened.reverse rest h1) fun _ d2 h2 => hf d2 h2

/-- The cases before the one with the place are built first. -/
theorem reaches_lowerCases {label : Option Expr}
    (hS : ∀ d : Draft, d.Sound → Reaches span fun x => lowerStmt (S x) d.state)
    (before after : List SwitchCase) (first last : List Stmt) (hopened : ∀ b ∈ opened, b ∈ blocks)
    (h : Layout d₀ blocks (opened.reverse ++ rest) d) :
    Reaches span fun x =>
      lowerCases (before ++ (l, label, first ++ S x :: last) :: after) opened d.state := by
  induction before generalizing opened d with
  | nil =>
    cases opened with
    | nil => exact .passed _ fun x _ => by simp only [nil_append, lowerCases]; rfl
    | cons b opened =>
      simp only [nil_append, lowerCases]
      exact reaches_openCase (hopened b mem_cons_self) h fun d' h' =>
        (reaches_lowerStmts hS first last h'.sound).left _
  | cons c before ih =>
    cases opened with
    | nil => exact .passed _ fun x _ => by simp only [cons_append, lowerCases]; rfl
    | cons b opened =>
      simp only [cons_append, lowerCases]
      refine reaches_openCase (hopened b mem_cons_self) h fun d' h' => ?_
      refine reaches_then h' (sends_lowerStmts c.2.2 h'.sound) fun _ d2 h2 => ?_
      exact ih (fun b hb => hopened b (mem_cons_of_mem _ hb)) h2

theorem reaches_caseBody (cond : Expr) (label : Option Expr) (before after : List SwitchCase)
    (first last : List Stmt) (hS : ∀ d : Draft, d.Sound → Reaches span fun x => lowerStmt (S x) d.state)
    (hd : d.Sound) :
    Reaches span fun x =>
      lowerStmt (.switch l cond (before ++ (l', label, first ++ S x :: last) :: after)) d.state := by
  have hhead (x : Expr) : lowerSwitchHead l cond (before ++ (l', label, first ++ S x :: last) :: after) =
      lowerSwitchHead l cond (before ++ (l', label, []) :: after) := by
    have hcases : openCases (before ++ (l', label, first ++ S x :: last) :: after) =
      openCases (before ++ (l', label, []) :: after) := openCases_congr (by simp)
    simp only [lowerSwitchHead, hcases]
  simp only [lowerStmt, hhead]
  refine .right (sends_lowerSwitchHead l cond _ hd) ?_
  rintro ⟨exit, opened⟩ d1 h1
  refine (reaches_inTargets h1 (by simp) (by simp) fun d2 d3 h3 => ?_).left _
  exact reaches_lowerCases hS before after first last (fun b hb => by simp [hb]) h3

end Lower

/-- **Every place of a statement**: building comes to it in a state whose current block goes on, or never
does, or takes constants only there. -/
theorem Stmt.Context.reaches {S : Expr → Stmt} (h : Stmt.Context S) (span : Span) {d : Draft}
    (hd : d.Sound) : Reaches span fun x => lowerStmt (S x) d.state := by
  induction h generalizing d with
  | decl before after decl h =>
    simp only [lowerStmt]
    exact reaches_forM (fun decl _ => sends_lowerDecl decl) (fun _ => reaches_lowerDecl h decl) before
      after hd
  | expr h =>
    simp only [lowerStmt]
    exact reaches_lowerEffect (h.reached span) hd
  | block before after _ ih =>
    simp only [lowerStmt]
    exact reaches_inScope hd fun d hd => reaches_lowerStmts (fun d hd => ih hd) before after hd
  | ifCond h => exact reaches_ifCond (h.reached span) hd _ _
  | ifYes _ ih => exact reaches_ifYes (fun d hd => ih hd) hd _ _
  | ifNo _ ih => exact reaches_ifNo (fun d hd => ih hd) hd _ _
  | whileCond h => exact reaches_whileCond (h.reached span) hd _
  | whileBody _ ih => exact reaches_whileBody (fun d hd => ih hd) hd _
  | doBody _ ih => exact reaches_doBody (fun d hd => ih hd) hd _
  | doCond h => exact reaches_doCond (h.reached span) hd _
  | forInit _ ih => exact reaches_forInit (fun d hd => ih hd) hd _ _ _
  | forCond h => exact reaches_forCond (h.reached span) hd _ _ _
  | forStep h => exact reaches_forStep (h.reached span) hd _ _ _
  | forBody _ ih => exact reaches_forBody (fun d hd => ih hd) hd _ _ _
  | switchCond h => exact reaches_switchCond _ h hd
  | caseLabel before after h => exact reaches_caseLabel _ before after _ h hd
  | caseBody before after first last _ ih =>
    exact reaches_caseBody _ _ before after first last (fun d hd => ih hd) hd
  | «return» h =>
    simp only [lowerStmt, lowerReturn]
    exact .get_bind (((h.reached span).value hd).left _)

end PathScout

import PathScout.Proofs.LoweredStmts

/-!
# Built programs

The bodies of a program come from sound drafts, whose expressions and variables the program keeps.

* `Draft.Made`: the draft that a body was made from. `Program.Built`: every body was made from one, and
  no two bodies evaluate the same expression.
* `lowerFunction_built`: building one more body.
* `Program.ofUnit_built`: the program of a source unit.
-/

namespace PathScout

variable {p'' q : Program} {α β : Type} {type : CType} {e : Expr} {r : Program × ConstInit}
  {t t' : TopLevel} {v : VarId} {u : SourceUnit} {file : String}

open Lower List

/-! ### Programs that keep what others have -/

/-- The second program has all expressions and variables of the first one. -/
structure Program.Keeps (p p' : Program) : Prop where
  size_le : p.exprs.size ≤ p'.exprs.size
  expr_eq : ∀ e, e.index < p.exprs.size → p'.expr e = p.expr e
  vars_le : p.vars.size ≤ p'.vars.size
  var_eq : ∀ v, v.index < p.vars.size → p'.var v = p.var v

theorem Program.Keeps.refl (p : Program) : p.Keeps p :=
  ⟨le_refl _, fun _ _ => rfl, le_refl _, fun _ _ => rfl⟩

theorem Program.Keeps.trans {p p' : Program} (h : p.Keeps p') (h' : p'.Keeps p'') : p.Keeps p'' where
  size_le := h.size_le.trans h'.size_le
  expr_eq e he := (h'.expr_eq e (he.trans_le h.size_le)).trans (h.expr_eq e he)
  vars_le := h.vars_le.trans h'.vars_le
  var_eq v hv := (h'.var_eq v (hv.trans_le h.vars_le)).trans (h.var_eq v hv)

/-- Expressions use earlier ones, and no expression is used twice. -/
structure Program.Linear (p : Program) : Prop where
  older : ∀ e, e.index < p.exprs.size → ∀ x ∈ (p.expr e).op.operands, x.index < e.index
  unique : ∀ e e' x, e.index < p.exprs.size → e'.index < p.exprs.size →
    x ∈ (p.expr e).op.operands → x ∈ (p.expr e').op.operands → e = e'

/-- A block of the graph evaluates the expression. -/
def FlowGraph.Evaluates (g : FlowGraph) (e : ExprId) : Prop :=
  ∃ b block root, g.block? b = some block ∧ .expr e root ∈ block.elements

namespace Draft

variable {d d' : Draft} {b : BlockId} {e : ExprId} {block : Block} {p : Program} {body : FunctionBody}

theorem Below.keeps (h : Below d d') : d.program.Keeps d'.program :=
  ⟨h.size_le, h.expr_eq, h.vars_le, h.var_eq⟩

/-! ### The graph of a draft -/

/-- The graph of the function, with all open blocks closed. -/
def graph (d : Draft) : FlowGraph := ⟨d.state.blocks.map OpenBlock.close, ⟨0⟩, ⟨1⟩⟩

theorem block?_graph : d.graph.block? b = (d.block? b).map OpenBlock.close := by
  simp only [FlowGraph.block?, graph, block?, Array.getElem?_map]

theorem exists_of_block?_graph (h : d.graph.block? b = some block) :
    ∃ source, d.block? b = some source ∧ block = source.close := by
  rw [block?_graph] at h
  obtain ⟨source, hsource, rfl⟩ := Option.map_eq_some_iff.1 h
  exact ⟨source, hsource, rfl⟩

theorem evaluates_graph : d.graph.Evaluates e ↔ d.Evaluated e := by
  constructor
  · rintro ⟨b, block, root, hb, hel⟩
    obtain ⟨source, hsource, rfl⟩ := exists_of_block?_graph hb
    exact ⟨b, source, root, hsource, hel⟩
  · rintro ⟨b, source, root, hsource, hel⟩
    exact ⟨b, source.close, root, by rw [block?_graph, hsource]; rfl, hel⟩

/-- A closed block ends as the open one, or leads to the exit. -/
theorem close_terminator (block : OpenBlock) : block.terminator = some block.close.terminator ∨
    block.terminator = none ∧ block.close.terminator = .goto ⟨1⟩ .fallthrough := by
  cases h : block.terminator with
  | none => exact .inr ⟨rfl, by rw [OpenBlock.close, h]; rfl⟩
  | some t => exact .inl (by rw [OpenBlock.close, h]; rfl)

theorem Sound.successor_graph (hd : d.Sound) (hb : d.graph.block? b = some block) {t : BlockId}
    (ht : t ∈ block.terminator.successors) :
    t.index < d.room ∧ d.entry t ⊆ heldAfter (d.entry b) block.elements.toList := by
  obtain ⟨source, hsource, rfl⟩ := exists_of_block?_graph hb
  rcases close_terminator source with h | ⟨-, h⟩
  · exact (hd.block b source hsource).successor _ h t ht
  · rw [h, Terminator.successors, mem_singleton] at ht
    have hidle := hd.idle_exit
    exact ht ▸ ⟨hidle.1, hidle.2 ▸ Set.empty_subset _⟩

/-- The sets of a sound draft show what is at hand in its graph. -/
theorem Sound.certified (hd : d.Sound) (hp : d.program.Keeps p) : d.graph.Certified p d.entry := by
  -- the operands of the steps are the same in both programs
  have hops : ∀ b block, d.block? b = some block → ∀ el ∈ block.elements,
      el.operands p = el.operands d.program := by
    intro b block hb el hel
    have htyped := (hd.block b block hb).typed el hel
    cases el with
    | expr e root =>
      have heq : p.expr e = d.program.expr e := hp.expr_eq e htyped.1
      simp only [Element.operands, heq]
    | decl v init l =>
      cases init with
      | none => rfl
      | some init => cases init <;> rfl
    | merge e v => cases v <;> rfl
    | «return» v l => rfl
  refine ⟨hd.start, ?_, ?_, ?_, fun b block hb t ht => (hd.successor_graph hb ht).2⟩
  · intro b block hb
    obtain ⟨source, hsource, rfl⟩ := exists_of_block?_graph hb
    intro i el hel x hx
    rw [hops b source hsource el (Array.mem_toList_iff.1 (mem_of_getElem? hel))] at hx
    exact (hd.block b source hsource).supplied i el hel x hx
  · intro b block hb e v hel
    obtain ⟨source, hsource, rfl⟩ := exists_of_block?_graph hb
    have htyped := (hd.block b source hsource).typed _ hel
    cases v with
    | int n | expr a => rw [hp.expr_eq e htyped.1]; exact htyped.2.1
  · intro b block hb x hx
    obtain ⟨source, hsource, rfl⟩ := exists_of_block?_graph hb
    rcases close_terminator source with h | ⟨-, h⟩
    · exact ((hd.block b source hsource).operand _ h x hx).1
    · rw [h] at hx
      cases hx

/-- A body was made from the draft, and the program keeps what the draft has. -/
structure Made (d : Draft) (p : Program) (body : FunctionBody) : Prop where
  sound : d.Sound
  keeps : d.program.Keeps p
  graph_eq : body.graph = d.graph
  locals_eq : body.locals = d.state.locals.toList
  liveness_eq : body.liveness =
    .compute ⟨d.program.exprs, fun v => !(d.program.var v).hasGlobalStorage⟩ d.graph

theorem Made.mono {p' : Program} (h : d.Made p body) (hp : p.Keeps p') :
    d.Made p' body := { h with keeps := h.keeps.trans hp }

theorem Made.evaluated_lt (h : d.Made p body) (he : body.graph.Evaluates e) :
    e.index < p.exprs.size := by
  rw [h.graph_eq, evaluates_graph] at he
  exact (h.sound.lt_of_evaluated he).trans_le h.keeps.size_le

end Draft

/-! ### Programs with bodies -/

/-- The parameters are variables of the table, each with its position. -/
def Program.HasParams (p : Program) (vs : List VarId) : Prop :=
  ∀ v ∈ vs, v.index < p.vars.size ∧ ∃ i, (p.var v).kind = .param i

/-- Every body of the program was made from a sound draft, and no two bodies evaluate the same
expression. -/
structure Program.Built (p : Program) (globals : Names) : Prop where
  linear : p.Linear
  names : ∀ x ∈ globals, x.2.index < p.vars.size
  initial : ∀ g ∈ p.globals, g.var.index < p.vars.size ∧ (p.var g.var).hasGlobalStorage = true
  body : ∀ f body, (p.function f).body = some body → ∃ d : Draft, d.Made p body
  params : ∀ f body, (p.function f).body = some body → p.HasParams (p.function f).params
  apart : ∀ f f' body body' e, (p.function f).body = some body →
    (p.function f').body = some body' → body.graph.Evaluates e → body'.graph.Evaluates e → f = f'

namespace Lower

open Draft

variable {d : Draft}

/-- The parameters of a function. -/
theorem sends_declareParams (params : List (Param × Nat)) (hd : d.Sound) :
    Sends d (params.mapM fun (param, i) => do
      requireComplete param.type param.location
      declareVar (param.name.getD "") param.type (.param i) param.location) fun vs d' =>
        Builds d d' ∧ d'.program.HasParams vs := by
  induction params generalizing d with
  | nil => exact .pure ⟨.refl hd, by simp [Program.HasParams]⟩
  | cons param params ih =>
    obtain ⟨param, i⟩ := param
    rw [mapM_cons]
    refine .bind (P := fun v d' => Builds d d' ∧ d'.program.HasParams [v]) ?_ ?_
    · refine .bind (sends_requireComplete param.type param.location) ?_
      rintro _ d rfl
      refine .imp (sends_declareVar _ param.type (.param i) param.location) ?_
      rintro v _ ⟨rfl, rfl⟩
      refine ⟨(hd.grows_declared (.inr (.inr ⟨i, rfl⟩))).builds, fun w hw => ?_⟩
      rw [mem_singleton.1 hw, var_declared_self, vars_size_declared]
      exact ⟨Nat.lt_succ_self _, i, rfl⟩
    · rintro v d1 ⟨h1, hv⟩
      refine .bind (ih h1.sound) ?_
      rintro vs d2 ⟨h2, hvs⟩
      refine .pure ⟨h1.trans h2, fun w hw => ?_⟩
      rcases mem_cons.1 hw with rfl | hw
      · obtain ⟨hlt, hkind⟩ := hv w mem_cons_self
        rw [h2.var_eq w hlt]
        exact ⟨hlt.trans_le h2.vars_le, hkind⟩
      · exact hvs w hw

end Lower

namespace Draft

/-- A function whose entry and exit were opened. -/
def begun (globals : Names) (p : Program) (f : FunctionId) (returns : CType) : Draft where
  state :=
    { program := p
      globals := globals
      function := f
      returns := returns
      blocks := #[{}, { terminator := some .exit }]
      current := some ⟨0⟩ }
  entry := fun _ => ∅

variable {globals : Names} {p : Program} {f : FunctionId} {returns : CType} {b : BlockId}
  {block : OpenBlock} {e : ExprId}

theorem of_block?_begun (h : (begun globals p f returns).block? b = some block) :
    block.elements = #[] ∧ (b = ⟨0⟩ ∧ block.terminator = none ∨
      b = ⟨1⟩ ∧ block.terminator = some .exit) := by
  obtain ⟨n⟩ := b
  match n with
  | 0 =>
    cases h
    exact ⟨rfl, .inl ⟨rfl, rfl⟩⟩
  | 1 =>
    cases h
    exact ⟨rfl, .inr ⟨rfl, rfl⟩⟩
  | n + 2 => cases h

theorem not_evaluated_begun : ¬ (begun globals p f returns).Evaluated e := by
  rintro ⟨b, block, root, hb, hel⟩
  rw [(of_block?_begun hb).1] at hel
  cases hel with
  | mk h => cases h

theorem sound_begun (hp : p.Linear) (hglobals : ∀ x ∈ globals, x.2.index < p.vars.size) :
    (begun globals p f returns).Sound where
  exit := ⟨{ terminator := some .exit }, rfl, rfl, rfl⟩
  start := rfl
  finish := rfl
  current b hb := by
    cases hb
    exact ⟨{}, rfl, rfl⟩
  block b block hb := by
    obtain ⟨hempty, hend⟩ := of_block?_begun hb
    have hnot : ∀ el, el ∉ block.elements := fun el hel => by
      rw [hempty] at hel
      cases hel with
      | mk h => cases h
    have hterm : ∀ t, block.terminator = some t → t = .exit ∧ b = ⟨1⟩ := fun t ht => by
      rcases hend with ⟨-, hnone⟩ | ⟨hb, hexit⟩
      · cases hnone.symm.trans ht
      · cases hexit.symm.trans ht
        exact ⟨rfl, hb⟩
    refine ⟨?_, fun el hel => absurd hel (hnot el), fun el hel => absurd hel (hnot el), ?_, ?_,
      fun h => (hterm _ h).2⟩
    · rw [hempty]
      exact supplied_nil _ _
    iterate 2
      · intro t ht x hx
        rw [(hterm t ht).1] at hx
        cases hx
  unique b b' block block' i i' e r r' hb _ hi _ := by
    rw [(of_block?_begun hb).1] at hi
    cases hi
  older := hp.older
  linear := hp.unique
  targets t ht := by cases ht
  label l hl := by cases hl
  labels l hl := by cases hl
  pending b hb := by
    obtain ⟨l, hl, -⟩ := hb
    cases hl
  scopes names hnames x hx := by
    cases mem_singleton.1 hnames
    cases hx
  globals := hglobals
  locals v hv := by
    cases hv with
    | mk h => cases h

end Draft

namespace Lower

open Draft

variable {globals : Names} {p : Program} {f : FunctionId}

/-- The body of a function. -/
theorem sends_lowerBody (decl : FunctionDecl) (body : List Stmt) (hp : p.Linear)
    (hglobals : ∀ x ∈ globals, x.2.index < p.vars.size) {vs : List VarId} {s : Lowering}
    (h : lowerBody decl body
      { program := p, globals := globals, function := f, returns := decl.returns } = .ok (vs, s)) :
    ∃ d : Draft, d.state = s ∧ Builds (begun globals p f decl.returns) d ∧ d.program.HasParams vs := by
  have hd : (begun globals p f decl.returns).Sound := sound_begun hp hglobals
  have hrest : Sends (begun globals p f decl.returns) (do
      let params ← declareParams decl.params
      lowerStmts body
      jumpIfOpen ⟨1⟩
      return params) fun vs d => Builds (begun globals p f decl.returns) d ∧
        d.program.HasParams vs := by
    refine .bind (sends_declareParams decl.params.zipIdx hd) ?_
    rintro vs d1 ⟨h1, hvs⟩
    refine .bind (sends_lowerStmts body h1.sound) fun _ d2 h2 => ?_
    refine .bind (sends_jumpIfOpen h2.sound h2.sound.idle_exit) fun _ d3 h3 => ?_
    refine .pure ⟨(h1.trans h2).trans h3, fun v hv => ?_⟩
    obtain ⟨hlt, hkind⟩ := hvs v hv
    have hkeeps := (h2.trans h3).toBelow
    rw [hkeeps.var_eq v hlt]
    exact ⟨hlt.trans_le hkeeps.vars_le, hkind⟩
  exact hrest vs s h

end Lower

/-! ### Building the bodies -/

theorem Checked.bind_eq_ok {x : Checked α} {f : α → Checked β} {b : β} :
    (x >>= f) = .ok b ↔ ∃ a, x = .ok a ∧ f a = .ok b := by
  cases x with
  | error e =>
    constructor
    · intro h
      cases h
    · rintro ⟨a, h, -⟩
      cases h
  | ok a =>
    constructor
    · intro h
      exact ⟨a, rfl, h⟩
    · rintro ⟨_, ⟨rfl⟩, h⟩
      exact h

open Lower Draft

variable {globals : Names} {p p' : Program} {f : FunctionId}

/-- What a function is after one of them got a body. -/
theorem function_modify (g : Function → Function) (f' : FunctionId) :
    ({ p with functions := p.functions.modify f.index g } : Program).function f' =
      if f.index = f'.index ∧ f'.index < p.functions.size then g (p.function f')
      else p.function f' := by
  simp only [Program.function, Array.getElem?_modify]
  rcases lt_or_ge f'.index p.functions.size with hlt | hge
  · by_cases heq : f.index = f'.index
    · rw [if_pos heq, if_pos ⟨heq, hlt⟩, Array.getElem?_eq_getElem hlt]
      rfl
    · rw [if_neg heq, if_neg fun h => heq h.1]
  · rw [if_neg fun h : _ ∧ _ => hge.not_gt h.2, Array.getElem?_eq_none hge]
    split <;> rfl

/-- A draft adds a body to a program. -/
theorem Program.Built.addBody {d : Draft} {vs : List VarId} {out : FunctionBody} {returns : CType}
    (hp : p.Built globals) (hd : Builds (begun globals p f returns) d)
    (hvs : d.program.HasParams vs) (hmade : d.Made d.program out) (hp' : p' = { d.program with
      functions := d.program.functions.modify f.index fun g =>
        { g with params := vs, body := some out } }) :
    p'.Built globals ∧ p.Keeps p' := by
  have hkeeps : p.Keeps d.program := hd.toBelow.keeps
  have hsame : d.program.Keeps p' := hp' ▸ ⟨le_refl _, fun _ _ => rfl, le_refl _, fun _ _ => rfl⟩
  -- a body is the new one, or was there before
  have hbody : ∀ f' body', (p'.function f').body = some body' →
      f' = f ∧ body' = out ∧ (p'.function f').params = vs ∨
        (p.function f').body = some body' ∧ (p'.function f').params = (p.function f').params := by
    intro f' body' h
    rw [hp', function_modify] at h ⊢
    split at h
    · next hf =>
      cases h
      rw [if_pos hf]
      refine .inl ⟨?_, rfl, rfl⟩
      cases f
      cases f'
      exact congrArg FunctionId.mk hf.1.symm
    · next hf =>
      rw [if_neg hf]
      rcases lt_or_ge f'.index p.functions.size with hlt | hge
      · have heq : d.program.function f' = p.function f' := hd.announces.function_eq f' hlt
        rw [heq] at h ⊢
        exact .inr ⟨h, rfl⟩
      · have hnone : (d.program.function f').body = none := hd.announces.body_eq_none f' hge
        cases hnone.symm.trans h
  have hparams : ∀ {q : Program} {vs : List VarId}, q.Keeps p' → q.HasParams vs →
      p'.HasParams vs := fun hq hvs v hv => by
    obtain ⟨hlt, hkind⟩ := hvs v hv
    rw [hq.var_eq v hlt]
    exact ⟨hlt.trans_le hq.vars_le, hkind⟩
  -- the new body evaluates new expressions only
  have hnew : ∀ e, out.graph.Evaluates e → p.exprs.size ≤ e.index := by
    intro e he
    rw [hmade.graph_eq, evaluates_graph] at he
    exact (hd.evaluated_new e he).resolve_left not_evaluated_begun
  have hold : ∀ f' body' e, (p.function f').body = some body' → body'.graph.Evaluates e →
      e.index < p.exprs.size := fun f' body' e h he => by
    obtain ⟨d', hd'⟩ := hp.body f' body' h
    exact hd'.evaluated_lt he
  have hall := hkeeps.trans hsame
  refine ⟨⟨?_, fun x hx => (hp.names x hx).trans_le hall.vars_le, fun g hg => ?_,
    fun f' body' h => ?_, fun f' body' h => ?_, fun f1 f2 body1 body2 e h1 h2 he1 he2 => ?_⟩, hall⟩
  · rw [hp']
    exact ⟨hd.sound.older, hd.sound.linear⟩
  · have hg' : g ∈ p.globals := by
      rw [hp'] at hg
      exact hd.initial ▸ hg
    obtain ⟨hlt, hglobal⟩ := hp.initial g hg'
    rw [hall.var_eq g.var hlt]
    exact ⟨hlt.trans_le hall.vars_le, hglobal⟩
  · rcases hbody f' body' h with ⟨rfl, rfl, -⟩ | ⟨h, -⟩
    · exact ⟨d, hmade.mono hsame⟩
    · obtain ⟨d', hd'⟩ := hp.body f' body' h
      exact ⟨d', hd'.mono hall⟩
  · rcases hbody f' body' h with ⟨-, -, h⟩ | ⟨hold, h⟩
    · rw [h]
      exact hparams hsame hvs
    · rw [h]
      exact hparams hall (hp.params f' body' hold)
  · rcases hbody f1 body1 h1 with ⟨hf1, rfl, -⟩ | ⟨h1, -⟩ <;>
      rcases hbody f2 body2 h2 with ⟨hf2, rfl, -⟩ | ⟨h2, -⟩
    · exact hf1.trans hf2.symm
    · exact absurd (hold f2 body2 e h2 he2) (hnew e he1).not_gt
    · exact absurd (hold f1 body1 e h1 he1) (hnew e he2).not_gt
    · exact hp.apart f1 f2 body1 body2 e h1 h2 he1 he2

/-- Building one more body. -/
theorem lowerFunction_built (decl : FunctionDecl) (body : List Stmt) (hp : p.Built globals)
    (h : lowerFunction globals p f decl body = .ok p') : p'.Built globals ∧ p.Keeps p' := by
  obtain ⟨⟨vs, s⟩, hrun, h⟩ := Checked.bind_eq_ok.1 h
  obtain ⟨d, rfl, hd, hvs⟩ := sends_lowerBody decl body hp.linear hp.names hrun
  dsimp only at h
  split at h
  · cases h
  · cases h
    exact hp.addBody hd hvs ⟨hd.sound, .refl _, rfl, rfl, rfl⟩ rfl

/-! ### Declarations at the top -/

/-- Two programs differ at most in expressions without operands. -/
structure Program.AddsLeaves (p p' : Program) : Prop where
  eq : p' = { p with exprs := p'.exprs }
  leaf : (∀ e, (p.expr e).op.operands = []) → ∀ e, (p'.expr e).op.operands = []

theorem Program.AddsLeaves.refl (p : Program) : p.AddsLeaves p := ⟨rfl, id⟩

theorem Program.AddsLeaves.trans (h : p.AddsLeaves p') (h' : p'.AddsLeaves p'') : p.AddsLeaves p'' :=
  ⟨by rw [h'.eq, h.eq], fun hp => h'.leaf (h.leaf hp)⟩

theorem addsLeaves_push {a : TypedExpr} (ha : a.op.operands = []) :
    p.AddsLeaves { p with exprs := p.exprs.push a } where
  eq := rfl
  leaf hp e := by
    simp only [Program.expr, Array.getElem?_push]
    split
    · exact ha
    · exact hp e

theorem constInitExpr_number (h : constInitExpr.number p type e = .ok r) : p.AddsLeaves r.1 := by
  unfold constInitExpr.number at h
  split at h
  · cases h
    exact .refl p
  · cases h

theorem constInitExpr_addsLeaves (h : constInitExpr p type e = .ok r) : p.AddsLeaves r.1 := by
  fun_induction constInitExpr p type e with
  | case1 span s harray | case3 =>
    cases h
    exact .refl p
  | case2 span s harray literal =>
    cases h
    exact addsLeaves_push rfl
  | case4 span t operand hpointer ih => exact ih h
  | case5 span t operand hpointer | case6 e => exact constInitExpr_number h

mutual

theorem constInit_addsLeaves (init : Initializer) {p : Program} {type : CType}
    {r : Program × ConstInit} (h : constInit p type init = .ok r) : p.AddsLeaves r.1 := by
  unfold constInit at h
  match init with
  | .expr e => exact constInitExpr_addsLeaves h
  | .list location items =>
    obtain ⟨types, -, h⟩ := Checked.bind_eq_ok.1 h
    cases types with
    | none => exact constInitFirst_addsLeaves items h
    | some types =>
      obtain ⟨⟨p', values⟩, hinits, h⟩ := Checked.bind_eq_ok.1 h
      cases h
      exact constInits_addsLeaves items hinits

theorem constInits_addsLeaves (items : List Initializer) {p : Program} {types : List CType}
    {r : Program × List ConstInit} (h : constInits p types items = .ok r) : p.AddsLeaves r.1 := by
  unfold constInits at h
  match items, types with
  | item :: items, type :: types =>
    obtain ⟨⟨p1, value⟩, hinit, h⟩ := Checked.bind_eq_ok.1 h
    obtain ⟨⟨p2, more⟩, hinits, h⟩ := Checked.bind_eq_ok.1 h
    cases h
    have h1 : p.AddsLeaves p1 := constInit_addsLeaves item hinit
    have h2 : p1.AddsLeaves p2 := constInits_addsLeaves items hinits
    exact h1.trans h2
  | [], _ | _ :: _, [] =>
    cases h
    exact .refl p

theorem constInitFirst_addsLeaves (items : List Initializer) {p : Program} {type : CType}
    {r : Program × ConstInit} (h : constInitFirst p type items = .ok r) : p.AddsLeaves r.1 := by
  unfold constInitFirst at h
  match items with
  | item :: _ => exact constInit_addsLeaves item h
  | [] =>
    cases h
    exact .refl p

end

/-- What is known at the top of a text before any body was built. -/
structure TopLevel.Plain (t : TopLevel) : Prop where
  leaf : ∀ e, (t.program.expr e).op.operands = []
  names : ∀ x ∈ t.globals, x.2.index < t.program.vars.size ∧
    (t.program.var x.2).hasGlobalStorage = true
  initial : ∀ g ∈ t.program.globals, g.var.index < t.program.vars.size ∧
    (t.program.var g.var).hasGlobalStorage = true
  body : ∀ f, (t.program.function f).body = none

theorem TopLevel.Plain.built (h : t.Plain) : t.program.Built t.globals where
  linear := by
    have hnot : ∀ e x, x ∉ (t.program.expr e).op.operands := fun e x hx => by
      rw [h.leaf e] at hx
      cases hx
    exact ⟨fun e _ x hx => absurd hx (hnot e x), fun e _ x _ _ hx => absurd hx (hnot e x)⟩
  names x hx := (h.names x hx).1
  initial := h.initial
  body f body hbody := by cases (h.body f).symm.trans hbody
  params f body hbody := by cases (h.body f).symm.trans hbody
  apart f _ body _ _ hbody := by cases (h.body f).symm.trans hbody

/-- Expressions without operands may be added to a plain program. -/
theorem TopLevel.Plain.addLeaves (h : t.Plain) (hq : t.program.AddsLeaves q) :
    TopLevel.Plain { t with program := q } := by
  obtain ⟨heq, hleaf⟩ := hq
  have hvar : ∀ v, q.var v = t.program.var v := fun v => by rw [heq]; rfl
  have hvars : q.vars.size = t.program.vars.size := by rw [heq]
  refine ⟨hleaf h.leaf, fun x hx => ?_, fun g hg => ?_, fun f => ?_⟩
  · rw [hvar, hvars]
    exact h.names x hx
  · rw [hvar, hvars]
    refine h.initial g ?_
    rw [heq] at hg
    exact hg
  · have hf : q.function f = t.program.function f := by rw [heq]; rfl
    rw [hf]
    exact h.body f

theorem mem_setInit {gs : List GlobalInit} {value : Option ConstInit} {g : GlobalInit}
    (h : g ∈ setInit gs v value) : g.var = v ∨ ∃ g' ∈ gs, g'.var = g.var := by
  unfold setInit at h
  split at h
  · obtain ⟨g', hg', rfl⟩ := mem_map.1 h
    refine .inr ⟨g', hg', ?_⟩
    split <;> rfl
  · rcases mem_append.1 h with h | h
    · exact .inr ⟨g, h, rfl⟩
    · rw [mem_singleton.1 h]
      exact .inl rfl

/-- What a global variable starts with may be recorded. -/
theorem TopLevel.Plain.setInit (h : t.Plain) (value : Option ConstInit)
    (hlt : v.index < t.program.vars.size) (hv : (t.program.var v).hasGlobalStorage = true) :
    TopLevel.Plain { t with program := { t.program with
      globals := PathScout.setInit t.program.globals v value } } := by
  refine { h with initial := fun g hg => ?_ }
  rcases mem_setInit hg with heq | ⟨g', hg', heq⟩
  · rw [heq]
    exact ⟨hlt, hv⟩
  · rw [← heq]
    exact h.initial g' hg'

/-- A global variable may be declared. -/
theorem TopLevel.Plain.addVar (h : t.Plain) {x : Variable} (hx : x.hasGlobalStorage = true) :
    TopLevel.Plain { t with
      program := { t.program with vars := t.program.vars.push x }
      globals := (x.name, ⟨t.program.vars.size⟩) :: t.globals } := by
  have hsize : (t.program.vars.push x).size = t.program.vars.size + 1 := Array.size_push ..
  have hself : ({ t.program with vars := t.program.vars.push x } : Program).var
      ⟨t.program.vars.size⟩ = x := by
    simp only [Program.var, Array.getElem?_push]
    rfl
  have hold : ∀ v : VarId, v.index < t.program.vars.size →
      ({ t.program with vars := t.program.vars.push x } : Program).var v = t.program.var v :=
    fun v hv => by simp only [Program.var, Array.getElem?_push, if_neg hv.ne]
  have hkeep : ∀ v : VarId, v.index < t.program.vars.size ∧
      (t.program.var v).hasGlobalStorage = true → v.index < (t.program.vars.push x).size ∧
      (({ t.program with vars := t.program.vars.push x } : Program).var v).hasGlobalStorage = true :=
    fun v hv => ⟨by rw [hsize]; exact hv.1.trans (Nat.lt_succ_self _), by rw [hold v hv.1]; exact hv.2⟩
  refine { h with names := fun y hy => ?_, initial := fun g hg => hkeep g.var (h.initial g hg) }
  rcases mem_cons.1 hy with rfl | hy
  · exact ⟨by rw [hsize]; exact Nat.lt_succ_self _, by rw [hself]; exact hx⟩
  · exact hkeep y.2 (h.names y hy)

theorem declareGlobal_plain (d : VarDecl) (ht : t.Plain) (h : declareGlobal t d = .ok t') :
    t'.Plain := by
  unfold declareGlobal at h
  obtain ⟨-, -, h⟩ := Checked.bind_eq_ok.1 h
  split at h
  · cases h
    exact ht
  · next v init hv hinit =>
    split at h
    · cases h
    · obtain ⟨⟨q, value⟩, hq, h⟩ := Checked.bind_eq_ok.1 h
      cases h
      obtain ⟨hlt, hglobal⟩ := ht.names _ (mem_of_lookup hv)
      have hadds := constInit_addsLeaves init hq
      have heq := hadds.eq
      refine (ht.addLeaves hadds).setInit (some value) ?_ ?_
      · rw [heq]
        exact hlt
      · rw [heq]
        exact hglobal
  · next init hv =>
    have ht1 := ht.addVar
      (x := ⟨d.name, completeArray d.type d.init, .global d.isStatic, none, d.location⟩) rfl
    obtain ⟨hlt, hglobal⟩ := ht1.names _ mem_cons_self
    dsimp only at h
    split at h
    · next init hinit =>
      obtain ⟨⟨q, value⟩, hq, h⟩ := Checked.bind_eq_ok.1 h
      cases h
      have hadds := constInit_addsLeaves init hq
      have heq := hadds.eq
      refine (ht1.addLeaves hadds).setInit (some value) ?_ ?_
      · rw [heq]
        exact hlt
      · rw [heq]
        exact hglobal
    · cases h
      exact ht1.setInit none hlt hglobal

theorem declareFunction_plain (d : FunctionDecl) (ht : t.Plain) (h : declareFunction t d = .ok t') :
    t'.Plain := by
  unfold declareFunction at h
  dsimp only at h
  split at h
  · next f hf =>
    split at h
    · cases h
    · cases h
      refine { ht with body := fun f' => ?_ }
      rw [function_modify]
      split <;> exact ht.body f'
  · cases h
    refine { ht with body := fun f' => ?_ }
    simp only [Program.function, Array.getElem?_push]
    split
    · rfl
    · exact ht.body f'

theorem declareItem_plain (item : Item) (ht : t.Plain) (h : declareItem t item = .ok t') : t'.Plain := by
  cases item with
  | struct d =>
    cases h
    exact ht
  | global d => exact declareGlobal_plain d ht h
  | function d => exact declareFunction_plain d ht h

/-- What a step of a fold keeps, the fold keeps. -/
theorem Checked.foldlM_keeps {f : β → α → Checked β} {P : β → Prop}
    (hf : ∀ a b b', P b → f b a = .ok b' → P b') (as : List α) {b b' : β} (hb : P b)
    (h : as.foldlM f b = .ok b') : P b' := by
  induction as generalizing b with
  | nil =>
    cases h
    exact hb
  | cons a as ih =>
    rw [foldlM_cons] at h
    obtain ⟨b1, hb1, h⟩ := Checked.bind_eq_ok.1 h
    exact ih (hf a b b1 hb hb1) h

theorem declareStruct_plain {q' : Program} (d : StructDecl) (hq : TopLevel.Plain ⟨q, [], []⟩)
    (h : declareStruct q d = .ok q') : TopLevel.Plain ⟨q', [], []⟩ := by
  unfold declareStruct at h
  split at h
  · cases h
  · cases h
    exact { hq with }

theorem lowerDefinition_built (decl : FunctionDecl) (hp : p.Built globals)
    (h : lowerDefinition globals p decl = .ok p') : p'.Built globals := by
  unfold lowerDefinition at h
  split at h
  · exact (lowerFunction_built decl _ hp h).1
  · cases h
    exact hp

/-- The structures of a text. -/
theorem declareStructs_plain (hp : (u.items.filterMap fun
      | .struct d => some d
      | _ => none).foldlM declareStruct { file := file, expansions := u.expansions } = .ok p) :
    TopLevel.Plain ⟨p, [], []⟩ := by
  have hstart : TopLevel.Plain ⟨{ file := file, expansions := u.expansions }, [], []⟩ := by
    refine ⟨fun e => rfl, fun x hx => ?_, fun g hg => ?_, fun f => rfl⟩
    · cases hx
    · cases hg
  exact Checked.foldlM_keeps (P := fun q => TopLevel.Plain ⟨q, [], []⟩)
    (fun d q q' => declareStruct_plain d) _ hstart hp

/-- The declarations at the top of a text. -/
theorem declareItems_plain (hp : (u.items.filterMap fun
      | .struct d => some d
      | _ => none).foldlM declareStruct { file := file, expansions := u.expansions } = .ok p)
    (ht : u.items.foldlM declareItem ⟨p, [], []⟩ = .ok t) : t.Plain :=
  Checked.foldlM_keeps (fun d _ _ => declareItem_plain d) _ (declareStructs_plain hp) ht

/-- A function with a body, all at one place. -/
def Item.plain (name : String) (returns : CType) (params : List (String × CType)) (body : List Stmt) :
    Item := .function
  { name := name, returns := returns, params := params.map fun x => ⟨some x.1, x.2, ⟨1, 1⟩⟩
    variadic := false, body := some body, location := ⟨1, 1⟩, last := ⟨1, 1⟩ }

/-- The unit with a function `f` and nothing else. -/
def SourceUnit.single (returns : CType) (params : List (String × CType)) (body : List Stmt) : SourceUnit where
  items := [.plain "f" returns params body]
  expansions := []

/-- A result is there if it passes a test. -/
theorem exists_ok_of_any {ε : Type} {result : Except ε α} {test : α → Bool}
    (h : result.toOption.any test = true) : ∃ a, result = .ok a ∧ test a = true := by
  cases result with
  | error => cases h
  | ok a => exact ⟨a, rfl, h⟩

/-- **Every body of a built program was made from a sound draft.** -/
theorem Program.ofUnit_built (h : Program.ofUnit u file = .ok p) : ∃ globals, p.Built globals := by
  obtain ⟨q, hq, h⟩ := Checked.bind_eq_ok.1 h
  obtain ⟨t, ht, h⟩ := Checked.bind_eq_ok.1 h
  exact ⟨t.globals, Checked.foldlM_keeps (P := fun p : Program => p.Built t.globals)
    (fun d p p' hp => lowerDefinition_built d hp) _ (declareItems_plain hq ht).built h⟩

end PathScout

import PathScout.Proofs.DraftNames

/-!
# The steps of building, walked through

What each elementary action of building a function leads a walker through: nothing, if it builds
nothing; an act, if it adds a step to the current block; a way to another block, if it ends it.

* `Lowering.SameCode`: the action built nothing.
* `Lower.evaluates_addExpr`: an expression is evaluated.
* `Lower.evaluates_toValue`, `Lower.evaluates_convert`: conversions.
* `Lower.traces_jump`, `Lower.leads_branch`, `Lower.leads_switch`: the current block is ended.
-/

namespace PathScout

open List Array

/-- The blocks and the expressions are the same, and so are the places to go on and to jump to. -/
structure Lowering.SameCode (s s' : Lowering) : Prop where
  blocks : s'.blocks = s.blocks
  current : s'.current = s.current
  exprs : s'.program.exprs = s.program.exprs
  structs : s'.program.structs = s.program.structs
  returns : s'.returns = s.returns
  targets : s'.targets = s.targets
  labels : s'.labels = s.labels

namespace Lowering.SameCode

variable {s s' : Lowering} {b : BlockId} {T : Terrain}

theorem block? (h : s.SameCode s') : s'.block? b = s.block? b := by
  rw [Lowering.block?, Lowering.block?, h.blocks]

theorem adds (h : s.SameCode s') (hs : s.Tidy) : s.Adds s' where
  exprs_le := (congrArg Array.size h.exprs).ge
  expr_eq e _ := by rw [Program.expr, Program.expr, h.exprs]
  structs := h.structs
  returns := h.returns
  block b block hb := ⟨block, h.block?.trans hb, .refl block⟩
  tidy := ⟨fun b hb => (hs.current b (h.current.symm.trans hb)).of_block?_eq h.block?,
    fun l hl => hs.labels l (h.labels ▸ hl)⟩
  apart _ _ _ := h.block?
  current _ hb := .inl (h.current.symm.trans hb)
  targets := h.targets

theorem leads (h : s.SameCode s') (hs : s.Tidy) :
    T.Leads s s' (pure () : Following Unit) fun _ => s'.Here :=
  ⟨h.adds hs, fun _ => Terrain.carries_pure fun _ hw => hw.resume h.block? h.current⟩

end Lowering.SameCode

namespace Lower

variable {T : Terrain} {s s' : Lowering} {b target : BlockId} {w : Walker} {α : Type} {block : OpenBlock}
  {el : Element} {u : Unit} {a : Act} {op : Operation} {type : CType} {span : Span} {e : ExprId}
  {pre post : List ExprId}

/-! ### Actions that build nothing -/

/-- An action that builds nothing leads through nothing. -/
theorem traces_of_sameCode {act : Lower α} (h : ∀ s a s', act s = .ok (a, s') → s.SameCode s') :
    Traces T act (pure () : Following Unit) fun _ => Lowering.Here :=
  fun s a s' hs hrun => (h s a s' hrun).leads hs

theorem traces_get : Traces T get (pure () : Following Unit) fun _ => Lowering.Here :=
  traces_of_sameCode fun s a s' hrun => by
    cases hrun
    exact ⟨rfl, rfl, rfl, rfl, rfl, rfl, rfl⟩

theorem traces_exprOf (e : ExprId) :
    Traces T (exprOf e) (pure () : Following Unit) fun _ => Lowering.Here :=
  traces_get.then fun _ => traces_pure

theorem traces_typeOf (e : ExprId) :
    Traces T (typeOf e) (pure () : Following Unit) fun _ => Lowering.Here :=
  (traces_exprOf e).then fun _ => traces_pure

theorem traces_requireScalar (e : ExprId) :
    Traces T (requireScalar e) (pure () : Following Unit) fun _ => Lowering.Here := by
  refine (traces_exprOf e).then fun x => ?_
  split
  · exact traces_pure
  · exact traces_fail

theorem traces_requireComplete (type : CType) (l : Location) :
    Traces T (requireComplete type l) (pure () : Following Unit) fun _ => Lowering.Here :=
  traces_get.then fun before => traces_of_sameCode fun s a s' hrun => by
    change Except.bind (checkComplete before.program type l) (fun a => .ok (a, s)) = _ at hrun
    cases hcheck : checkComplete before.program type l with
    | error e =>
      rw [hcheck] at hrun
      cases hrun
    | ok u =>
      rw [hcheck] at hrun
      cases hrun
      exact ⟨rfl, rfl, rfl, rfl, rfl, rfl, rfl⟩

theorem traces_declareVar (name : String) (type : CType) (kind : VarKind) (l : Location) :
    Traces T (declareVar name type kind l) (pure () : Following Unit) fun _ => Lowering.Here := by
  refine traces_get.then fun before => ?_
  dsimp only
  split
  · exact traces_fail
  · refine traces_of_sameCode fun s a s' hrun => ?_
    cases hrun
    exact ⟨rfl, rfl, rfl, rfl, rfl, rfl, rfl⟩

theorem traces_resolveFunction (name : String) (l : Location) :
    Traces T (resolveFunction name l) (pure () : Following Unit) fun _ => Lowering.Here := by
  refine traces_get.then fun before => ?_
  split
  · exact traces_pure
  · refine traces_of_sameCode fun s a s' hrun => ?_
    cases hrun
    exact ⟨rfl, rfl, rfl, rfl, rfl, rfl, rfl⟩

/-- What is not evaluated builds nothing. -/
theorem traces_typeOfUnevaluated {x : Lowered} {names : List String} (hx : x.Spares names) :
    Traces T (typeOfUnevaluated x) (pure () : Following Unit) fun _ => Lowering.Here :=
  fun s t s' hs hrun => by
    obtain ⟨e, s1, -, -, -, rfl⟩ := of_typeOfUnevaluated hx hrun
    have hsame : s.SameCode { s with program := { s.program with functions := s1.program.functions } } :=
      ⟨rfl, rfl, rfl, rfl, rfl, rfl, rfl⟩
    rw [Lowering.reopened_of_open hs.current]
    exact hsame.leads hs

/-! ### Steps of a block -/

/-- A block to go on in is the current one, or a new one that no walker comes to. -/
theorem ensureCurrent_spec (hs : s.Tidy) {s1 : Lowering} (h : ensureCurrent s = .ok (b, s1)) :
    s.Adds s1 ∧ s1.current = some b ∧ s1.program = s.program ∧ ∀ w, s.Here w → s1 = s := by
  obtain ⟨before, s2, hget, h⟩ := bind_eq_ok.1 h
  cases hget
  cases hcur : s.current with
  | some c =>
    rw [hcur] at h
    cases h
    exact ⟨.refl hs, hcur, rfl, fun _ _ => rfl⟩
  | none =>
    rw [hcur] at h
    cases h
    refine ⟨?_, rfl, rfl, fun w hw => nomatch hcur.symm.trans hw.current⟩
    exact (Lowering.Adds.opened hs).goneTo (.inr le_rfl) Lowering.empty_opened.open

theorem begins_of_open {block' : OpenBlock} (h : block.terminator = none)
    (hsteps : StartsWith block'.elements block.elements) : block.Begins block' :=
  ⟨hsteps, fun _ ht => nomatch h.symm.trans ht⟩

theorem startsWith_withStep (el : Element) (block : OpenBlock) :
    StartsWith (Draft.withStep el block).elements block.elements := fun i el' hel => by
  obtain ⟨hi, -⟩ := Array.getElem?_eq_some_iff.1 hel
  exact ⟨el', by rw [Draft.getElem?_withStep, if_neg hi.ne, hel], rfl⟩

/-- The current block may grow. -/
theorem open_of_tidy (hs : s.Tidy) (hb : s.current = some b) (hblock : s.block? b = some block) :
    block.terminator = none := by
  obtain ⟨block', hblock', hnone⟩ := hs.current b hb
  cases hblock.symm.trans hblock'
  exact hnone

theorem adds_pushElement (hs : s.Tidy) (h : pushElement el s = .ok (u, s')) : s.Adds s' := by
  obtain ⟨b, s1, hcur, h⟩ := bind_eq_ok.1 h
  obtain ⟨hadds, hb, -⟩ := ensureCurrent_spec hs hcur
  cases h
  exact hadds.changed (hadds.current b hb) (fun block hblock =>
    begins_of_open (open_of_tidy hadds.tidy hb hblock) (startsWith_withStep el block)) fun _ => id

/-- The current block grows by a step. -/
theorem leads_pushElement (hs : s.Tidy) (h : pushElement el s = .ok (u, s'))
    (hdone : T.Covers s' → ∀ vs, T.Done a [.step el.plain] (vs ++ pre) (vs ++ post)) :
    T.Leads s s' (perform a) (fun _ => s'.Here) pre post := by
  refine ⟨adds_pushElement hs h, fun hcovers => Terrain.carries_of_step fun vs w c hw hdoes => ?_⟩
  obtain ⟨b, s1, hcur, h⟩ := bind_eq_ok.1 h
  obtain ⟨-, hb, -, hhere⟩ := ensureCurrent_spec hs hcur
  obtain rfl := hhere w hw
  cases hb.symm.trans hw.current
  obtain ⟨block, hblock, hi⟩ := hw.index
  have hs' : s' = s1.changed w.block (Draft.withStep el) := by
    cases h
    rfl
  have hblock' : s'.block? w.block = some (Draft.withStep el block) := by
    rw [hs', Lowering.block?_changed_self, hblock]
    rfl
  have hel : (Draft.withStep el block).elements[w.index]? = some el := by
    rw [Draft.getElem?_withStep, if_pos hi]
  rw [hcovers.step_of_element hblock' hel]
  refine ⟨hdoes.next (hdone hcovers vs), ?_, Draft.withStep el block, hblock', ?_⟩
  · rw [hs']
    exact hw.current
  · exact (congrArg (· + 1) hi).trans (size_push ..).symm

/-- A declaration takes the values that its variable starts with. -/
theorem evaluates_pushDecl (v : VarId) (init : Option DeclInit) (l : Location)
    (hpre : ∀ p, (Element.decl v init l).operands p = pre) :
    Evaluates T (pushElement (.decl v init l)) (perform (.decl l)) pre fun _ => [] :=
  fun _ _ _ hs _ hrun => ⟨fun _ he => (nomatch he), leads_pushElement hs hrun fun _ vs =>
    hpre T.program ▸ .step vs rfl⟩

/-! ### Expressions -/

/-- An expression was added to the table. -/
theorem addDetached_spec (hs : s.Tidy) (h : addDetached op type span s = .ok (e, s')) :
    s.Adds s' ∧ s'.blocks = s.blocks ∧ s'.current = s.current ∧ e.index < s'.program.exprs.size ∧
      s'.program.expr e = ⟨op, type, span⟩ := by
  cases h
  have hsize : (s.program.exprs.push ⟨op, type, span⟩).size = s.program.exprs.size + 1 :=
    size_push ..
  refine ⟨⟨⟨hsize ▸ Nat.le_succ _, fun e he => ?_, rfl, rfl, fun b block hb => ⟨block, hb, .refl block⟩⟩,
    ⟨hs.current, hs.labels⟩, fun _ _ _ => rfl, fun _ => .inl, rfl⟩, rfl, rfl,
    hsize ▸ Nat.lt_succ_self _, ?_⟩
  · rw [Program.expr, Program.expr, getElem?_push, if_neg he.ne]
  · rw [Program.expr, getElem?_push, if_pos rfl]
    rfl

theorem traces_addDetached (op : Operation) (type : CType) (span : Span) :
    Traces T (addDetached op type span) (pure () : Following Unit) fun _ => Lowering.Here := by
  intro s e s' hs hrun
  obtain ⟨hadds, hblocks, hcur, -⟩ := addDetached_spec hs hrun
  refine ⟨hadds, fun _ => Terrain.carries_pure fun w hw => hw.resume ?_ hcur⟩
  rw [Lowering.block?, Lowering.block?, hblocks]

/-- An expression is added and evaluated. -/
theorem leads_addExpr (hs : s.Tidy) (h : addExpr op type span s = .ok (e, s'))
    (hdone : (∀ x : ExprId, x.index < s.program.exprs.size → T.program.expr x = s.program.expr x) →
      T.program.expr e = ⟨op, type, span⟩ →
      ∀ vs, T.Done a [.step (.expr e false)] (vs ++ pre) (vs ++ post)) :
    s'.Knows [e] ∧ T.Leads s s' (perform a) (fun _ => s'.Here) pre post := by
  obtain ⟨e', s1, hadd, h⟩ := bind_eq_ok.1 h
  obtain ⟨u, s2, hpush, h⟩ := bind_eq_ok.1 h
  cases h
  have hfirst := traces_addDetached (T := T) op type span s e s1 hs hadd
  obtain ⟨hadds, -, -, he, hexpr⟩ := addDetached_spec hs hadd
  have hgrows := (adds_pushElement hfirst.tidy hpush).toGrows
  have hlast : T.Leads s1 s' (perform a) (fun _ => s'.Here) pre post :=
    leads_pushElement hfirst.tidy hpush fun hcovers =>
      have hcovers1 := hcovers.of_grows hgrows
      hdone (hcovers1.of_grows hadds.toGrows).expr_eq ((hcovers1.expr_eq e he).trans hexpr)
  exact ⟨fun x hx => mem_singleton.1 hx ▸ he.trans_le hgrows.exprs_le,
    ((append_nil pre) ▸ hfirst.frame pre).then hlast⟩

/-- A new expression takes the values that wait. -/
theorem evaluates_of_done
    (hdone : ∀ e, T.program.expr e = ⟨op, type, span⟩ →
      ∀ vs, T.Done a [.step (.expr e false)] (vs ++ pre) (vs ++ [e])) :
    Evaluates T (addExpr op type span) (perform a) pre fun e => [e] :=
  fun _ e _ hs _ hrun => leads_addExpr hs hrun fun _ => hdone e

/-- An expression of the program takes the values of its operands. -/
theorem done_expr (he : T.program.expr e = ⟨op, type, span⟩) (hop : op ≠ .join) (vs : List ExprId) :
    T.Done (.expr (TypedExpr.form ⟨op, type, span⟩) span) [.step (.expr e false)]
      (vs ++ op.operands) (vs ++ [e]) := by
  have h : T.Done _ [.step (.expr e false)] _ _ := .step vs rfl
  rwa [Element.operands, he, if_neg hop] at h

theorem evaluates_addExpr (op : Operation) (type : CType) (span : Span) (hop : op ≠ .join := by simp) :
    Evaluates T (addExpr op type span) (perform (.expr (TypedExpr.form ⟨op, type, span⟩) span))
      op.operands fun e => [e] := evaluates_of_done fun _ he => done_expr he hop

/-- The operands of an index, exchanged. -/
theorem evaluates_addExchanged (b i : ExprId) (type : CType) (span : Span) :
    Evaluates T (addExpr (.index b i) type span) (perform (.expr .index span)) [i, b]
      fun e => [e] := evaluates_of_done fun e he vs => by
  have h := Terrain.Done.exchanged (T := T) (e := e) vs (congrArg TypedExpr.op he)
  rwa [he] at h

theorem evaluates_addSize (n : Int) (type : CType) (span : Span) :
    Evaluates T (addExpr (.int n) type span) (perform (.size span)) [] fun e => [e] :=
  evaluates_of_done fun e he vs => by
    rw [append_nil]
    refine .size vs (n := n) ?_
    rw [Element.act?, he]
    rfl

/-! ### Conversions -/

/-- What came last is read, if it is a place. -/
theorem evaluates_toValue (e : ExprId) :
    Evaluates T (toValue e) (perform .take) [e] fun v => [v] := by
  intro s v s' hs hknown hrun
  have he := hknown e mem_cons_self
  change (if !(s.program.expr e).op.isPlace then pure e else _ : Lower ExprId) s = _ at hrun
  cases hplace : (s.program.expr e).op.isPlace with
  | false =>
    rw [hplace] at hrun
    cases hrun
    refine ⟨hknown, .refl hs, fun hcovers vs w c hw hdoes => ⟨w, .refl w, hdoes.silent ?_, hw⟩⟩
    exact .keep vs ((hcovers.expr_eq e he).symm ▸ hplace)
  | true =>
    rw [hplace] at hrun
    have hread : addExpr (if (s.program.expr e).type.isArray then .decay e else .load e)
        (if (s.program.expr e).type.isArray then (s.program.expr e).type.decayed
          else (s.program.expr e).type) (s.program.expr e).span s = .ok (v, s') := by
      rw [← hrun]
      cases (s.program.expr e).type.isArray <;> rfl
    refine leads_addExpr hs hread fun hold hv vs => ?_
    exact .read vs (hold e he ▸ hplace) (by rw [hv, hold e he]) (by rw [hv, hold e he])

/-- A value, after which others came, has the type that is needed. -/
theorem Evaluates.alike {act : Lower α} {z : Following Unit} {post : α → List ExprId}
    (before : List ExprId) (e : ExprId) (later : List ExprId)
    (h : Evaluates T act z (before ++ e :: later) post) :
    Evaluates T act (do perform (.convert later.length); z) (before ++ e :: later) post :=
  h.silent (fun vs => by
    rw [← List.append_assoc]
    exact .alike (vs ++ before) e later) fun _ => id

theorem evaluates_alike (e : ExprId) (later : List ExprId) :
    Evaluates T (pure e) (perform (.convert later.length)) (e :: later) fun v => v :: later :=
  have h : Evaluates T (pure e) (pure ()) (e :: later) fun v => v :: later := evaluates_pure rfl
  h.alike [] e later

/-- A value, after which others came, gets another type. -/
theorem evaluates_convert (e : ExprId) (target : CType) (later : List ExprId) :
    Evaluates T (convert e target) (perform (.convert later.length)) (e :: later)
      fun v => v :: later := by
  intro s v s' hs hknown hrun
  have he := hknown e mem_cons_self
  change (if (s.program.expr e).type = target then pure e else _ : Lower ExprId) s = _ at hrun
  split at hrun
  · exact evaluates_alike e later s v s' hs hknown hrun
  · next hne =>
    split at hrun
    · obtain ⟨hnew, h⟩ : s'.Knows [v] ∧ T.Leads s s' (perform (.convert later.length))
          (fun _ => s'.Here) (e :: later) (v :: later) := leads_addExpr hs hrun fun hold hv vs =>
        .cast vs later (by rw [hv]) (by rw [hv, hold e he]; exact Ne.symm hne) (by rw [hv, hold e he])
      exact ⟨forall_mem_cons.2 ⟨hnew v mem_cons_self, fun x hx =>
        (hknown x (mem_cons_of_mem e hx)).trans_le h.exprs_le⟩, h⟩
    · cases hrun

theorem evaluates_requireInteger (e : ExprId) (later : List ExprId) :
    Evaluates T (requireInteger e) (perform (.convert later.length)) (e :: later)
      fun v => v :: later := by
  refine (traces_exprOf e).before fun x => ?_
  split
  · exact evaluates_convert e .int later
  · exact evaluates_fail

theorem evaluates_passArgument (e : ExprId) (param : Option CType) :
    Evaluates T (passArgument e param) (perform (.convert 0)) [e] fun v => [v] := by
  cases param with
  | some type => exact evaluates_convert e type []
  | none =>
    refine (traces_typeOf e).before fun type => ?_
    split
    · exact evaluates_convert e .int []
    · exact evaluates_alike e []

/-! ### Ends of blocks -/

/-- The current block is ended. -/
theorem leads_terminate {t : Terminator} {x : Following α} {Q : α → Walker → Prop} (hs : s.Tidy)
    (h : terminate t s = .ok (u, s')) (hx : ∀ vs w c, T.Does w c (vs ++ pre) →
      T.Does (T.leave w t) (x c).2 (vs ++ post) ∧ Q (x c).1 (T.leave w t)) :
    T.Leads s s' x Q pre post := by
  obtain ⟨b, s1, hcur, h⟩ := bind_eq_ok.1 h
  obtain ⟨hadds, hb, -, hhere⟩ := ensureCurrent_spec hs hcur
  have hs' : s' = (s1.changed b (Draft.withEnd t)).goneTo none := by
    cases h
    rfl
  refine ⟨?_, fun hcovers => Terrain.carries_of_step fun vs w c hw hdoes => ?_⟩
  · rw [hs']
    exact hadds.ended (hadds.current b hb) fun block hblock =>
      begins_of_open (open_of_tidy hadds.tidy hb hblock) fun i el hel => ⟨el, hel, rfl⟩
  · obtain rfl := hhere w hw
    cases hb.symm.trans hw.current
    obtain ⟨block, hblock, hi⟩ := hw.index
    have hblock' : s'.block? w.block = some (Draft.withEnd t block) := by
      rw [hs']
      show (s1.changed w.block _).block? _ = _
      rw [Lowering.block?_changed_self, hblock]
      rfl
    rw [hcovers.step_of_terminator hblock' hi rfl]
    exact hx vs w c hdoes

theorem traces_jump (target : BlockId) (kind : JumpKind) :
    Traces T (jump target kind) (pure () : Following Unit) fun _ _ w => w.Starts target :=
  fun _ _ _ hs hrun => leads_terminate hs hrun fun _ _ _ hdoes => ⟨hdoes.goTo target, rfl, rfl⟩

theorem traces_jumpIfOpen (target : BlockId) :
    Traces T (jumpIfOpen target) (pure () : Following Unit) fun _ _ w => w.Starts target := by
  intro s u s' hs hrun
  obtain ⟨before, s1, hget, hrun⟩ := bind_eq_ok.1 hrun
  cases hget
  cases hcur : s.current with
  | some b =>
    rw [hcur] at hrun
    exact traces_jump target .fallthrough s u s' hs hrun
  | none =>
    rw [hcur] at hrun
    cases hrun
    exact ⟨.refl hs, fun _ _ w c hw _ => nomatch hcur.symm.trans hw.current⟩

/-- A branch goes one of two ways, as the oracle answers about what came last. -/
theorem leads_branch {cond : ExprId} {yes no : BlockId} {kind : BranchKind} {l : Location}
    (hs : s.Tidy) (h : terminate (.branch cond yes no kind l) s = .ok (u, s')) :
    T.Leads s s' T.oracle.decide (fun b w => w.Starts (if b then yes else no)) [cond] [] :=
  leads_terminate hs h fun vs _ _ hdoes =>
    have h := hdoes.choose T.oracle fun v => if v != 0 then yes else no
    ⟨(append_nil vs).symm ▸ h.1, h.2⟩

/-- A switch goes to the case that the oracle names. -/
theorem leads_switch {value : ExprId} {cases : List CaseTarget} {default : BlockId}
    {defaultLocation : Option Location} {l : Location} (hs : s.Tidy)
    (h : terminate (.switch value cases default defaultLocation l) s = .ok (u, s')) :
    T.Leads s s' T.oracle.answer (fun v w => w.Starts (caseBlock cases default v)) [value] [] :=
  leads_terminate hs h fun vs _ _ hdoes =>
    have h := hdoes.choose T.oracle (caseBlock cases default)
    ⟨(append_nil vs).symm ▸ h.1, h.2⟩

/-! ### Other marks -/

theorem size_markRoot (block : OpenBlock) :
    (OpenBlock.markRoot block).elements.size = block.elements.size := by
  rcases Draft.markRoot_eq block with heq | ⟨before, e, r, hels, heq⟩
  · rw [heq]
  · rw [heq, hels, size_push, size_push]

theorem begins_markRoot (h : block.terminator = none) : block.Begins (OpenBlock.markRoot block) := by
  refine begins_of_open h fun i el hel => ?_
  rcases Draft.markRoot_eq block with heq | ⟨before, e, r, hels, heq⟩
  · exact ⟨el, by rw [heq, hel], rfl⟩
  · rw [hels, getElem?_push] at hel
    rw [heq, getElem?_push]
    split at hel
    · next hi =>
      cases hel
      exact ⟨.expr e true, if_pos hi, rfl⟩
    · next hi => exact ⟨el, (if_neg hi).trans hel, rfl⟩

theorem terminator_markRoot (block : OpenBlock) :
    (OpenBlock.markRoot block).terminator = block.terminator := by
  rcases Draft.markRoot_eq block with heq | ⟨before, e, r, -, heq⟩ <;> rw [heq]

theorem traces_markRoot : Traces T markRoot (pure () : Following Unit) fun _ => Lowering.Here := by
  intro s u s' hs hrun
  obtain ⟨before, s1, hget, hrun⟩ := bind_eq_ok.1 hrun
  cases hget
  cases hcur : s.current with
  | none =>
    rw [hcur] at hrun
    cases hrun
    exact ⟨.refl hs, fun _ => Terrain.carries_pure fun _ => id⟩
  | some b =>
    rw [hcur] at hrun
    have hs' : s' = s.changed b OpenBlock.markRoot := by
      cases hrun
      rfl
    refine ⟨hs' ▸ (Lowering.Adds.refl hs).changed (.inl hcur)
      (fun block hblock => begins_markRoot (open_of_tidy hs hcur hblock))
      fun block hnone => (terminator_markRoot block).trans hnone,
      fun _ => Terrain.carries_pure fun w hw => ?_⟩
    cases hcur.symm.trans hw.current
    obtain ⟨block, hblock, hi⟩ := hw.index
    rw [hs']
    refine ⟨hw.current, OpenBlock.markRoot block, ?_, hi.trans (size_markRoot block).symm⟩
    rw [Lowering.block?_changed_self, hblock]
    rfl

end Lower

end PathScout

import PathScout.Proofs.CodeWalks
import PathScout.Proofs.QuietActions

/-!
# Steps that are built and steps that are evaluated

What is built without branches is a list of steps in the current block, and a path evaluates them one
after the other.

* `Lowering.Emits`: building added some steps to the current block, and nothing else to the code.
* `Exploring.evalSteps`: evaluating steps from a node on, as a path does: checkers are asked before each
  step, and there is a new node after it.
* `Exploring.Runs`: the path goes on after the steps, in a state that satisfies a condition.
-/

namespace PathScout

open Lower List

/-! ### Building steps -/

namespace Lowering

/-- The steps of the current block. -/
def code (s : Lowering) : List Element :=
  ((s.current.bind s.block?).map fun block => block.elements.toList).getD []

/-- The current block is there. -/
def Placed (s : Lowering) : Prop := ∀ b, s.current = some b → b.index < s.room

/-- Some steps were added to the current block, which is new if there was none; other blocks are as
before, and so are old expressions, old variables and the structures. -/
structure Emits (s : Lowering) (steps : List Element) (s' : Lowering) : Prop where
  code : s'.code = s.code ++ steps
  placed : s'.Placed
  current : s'.current = s.current ∨
    s.current = none ∧ ∃ b, s'.current = some b ∧ s.room ≤ b.index
  room_le : s.room ≤ s'.room
  apart : ∀ c, c.index < s.room → s.current ≠ some c → s'.block? c = s.block? c
  size_le : s.program.exprs.size ≤ s'.program.exprs.size
  expr_eq : ∀ e : ExprId, e.index < s.program.exprs.size → s'.program.expr e = s.program.expr e
  var_eq : ∀ v : VarId, v.index < s.program.vars.size → s'.program.var v = s.program.var v
  vars_le : s.program.vars.size ≤ s'.program.vars.size
  structs : s'.program.structs = s.program.structs

variable {s s' s'' : Lowering} {steps steps' : List Element} {b : BlockId}

theorem code_of_current (hb : s.current = some b) {block : OpenBlock} (h : s.block? b = some block) :
    s.code = block.elements.toList := by
  rw [code, hb, Option.bind_some, h]
  rfl

theorem code_of_none (h : s.current = none) : s.code = [] := by
  rw [code, h]
  rfl

theorem Emits.refl (h : s.Placed) : s.Emits [] s :=
  ⟨(append_nil _).symm, h, .inl rfl, le_rfl, fun _ _ _ => rfl, le_rfl, fun _ _ => rfl,
    fun _ _ => rfl, le_rfl, rfl⟩

theorem Emits.trans (h : s.Emits steps s') (h' : s'.Emits steps' s'') :
    s.Emits (steps ++ steps') s'' where
  code := by rw [h'.code, h.code, append_assoc]
  placed := h'.placed
  current := by
    rcases h.current with hsame | ⟨hnone, b, hnew, hge⟩
    · rw [← hsame]
      exact h'.current.imp_right fun ⟨hnone, b, hb, hge⟩ => ⟨hnone, b, hb, h.room_le.trans hge⟩
    · rcases h'.current with hsame | ⟨hnone', -⟩
      · exact .inr ⟨hnone, b, hsame.trans hnew, hge⟩
      · cases hnew.symm.trans hnone'
  room_le := h.room_le.trans h'.room_le
  apart c hc hne := by
    refine (h'.apart c (hc.trans_le h.room_le) fun heq => ?_).trans (h.apart c hc hne)
    rcases h.current with hsame | ⟨-, b, hnew, hge⟩
    · exact hne (hsame ▸ heq)
    · cases hnew.symm.trans heq
      exact hge.not_gt hc
  size_le := h.size_le.trans h'.size_le
  expr_eq e he := (h'.expr_eq e (he.trans_le h.size_le)).trans (h.expr_eq e he)
  var_eq v hv := (h'.var_eq v (hv.trans_le h.vars_le)).trans (h.var_eq v hv)
  vars_le := h.vars_le.trans h'.vars_le
  structs := h'.structs.trans h.structs

end Lowering

namespace Lower

open Lowering

variable {s : Lowering}

/-- A step is added to the current block, or to a new one. -/
theorem emits_pushElement (h : s.Placed) (el : Element) :
    ∃ s', pushElement el s = .ok ((), s') ∧ s.Emits [el] s' ∧ s'.program = s.program := by
  -- the step is added where there is a current block
  have hpush {s : Lowering} {b : BlockId} (hb : s.current = some b) (hlt : b.index < s.room) :
      s.Emits [el] (s.changed b fun block => { block with elements := block.elements.push el }) := by
    obtain ⟨block, hblock⟩ := exists_block?_of_lt hlt
    refine ⟨?_, fun c hc => ?_, .inl rfl, room_changed.ge, fun c _ hne => ?_, le_rfl, fun _ _ => rfl,
      fun _ _ => rfl, le_rfl, rfl⟩
    · rw [code_of_current hb hblock, code_of_current (s := s.changed b _) hb
        (by rw [block?_changed_self, hblock]; rfl), Array.toList_push]
    · cases hb.symm.trans hc
      exact hlt.trans_eq room_changed.symm
    · exact block?_changed_of_ne fun heq => hne (heq ▸ hb)
  cases hcur : s.current with
  | some b =>
    refine ⟨_, ?_, hpush hcur (h b hcur), rfl⟩
    exact bind_eq_ok.2 ⟨b, s, bind_eq_ok.2 ⟨s, s, rfl, by rw [hcur]; rfl⟩, rfl⟩
  | none =>
    have hopened : s.Emits [] (s.opened.goneTo (some ⟨s.room⟩)) := by
      refine ⟨?_, fun c hc => ?_, .inr ⟨hcur, _, rfl, le_rfl⟩, ?_, fun c hc _ => block?_opened_of_lt hc,
        le_rfl, fun _ _ => rfl, fun _ _ => rfl, le_rfl, rfl⟩
      · obtain ⟨block, hblock, -, hempty⟩ := empty_opened (s := s)
        rw [code_of_none hcur, code_of_current (s := s.opened.goneTo (some ⟨s.room⟩)) rfl hblock, hempty]
        rfl
      · cases hc
        exact (Nat.lt_succ_self s.room).trans_eq room_opened.symm
      · exact (Nat.le_succ s.room).trans_eq room_opened.symm
    refine ⟨_, ?_, hopened.trans (hpush rfl (hopened.placed _ rfl)), rfl⟩
    exact bind_eq_ok.2 ⟨⟨s.room⟩, s.opened.goneTo (some ⟨s.room⟩),
      bind_eq_ok.2 ⟨s, s, rfl, by rw [hcur]; rfl⟩, rfl⟩

/-- An expression is added to the table, and a step that evaluates it. -/
theorem emits_addExpr (h : s.Placed) (op : Operation) (t : CType) (span : Span) :
    ∃ s', addExpr op t span s = .ok (⟨s.program.exprs.size⟩, s') ∧
      s.Emits [.expr ⟨s.program.exprs.size⟩ false] s' ∧
      s'.program.exprs = s.program.exprs.push ⟨op, t, span⟩ := by
  have hadd : s.Emits [] { s with program := { s.program with
      exprs := s.program.exprs.push ⟨op, t, span⟩ } } := by
    refine ⟨(append_nil _).symm, h, .inl rfl, le_rfl, fun _ _ _ => rfl, ?_, fun e he => ?_,
      fun _ _ => rfl, le_rfl, rfl⟩
    · exact (Nat.le_succ _).trans_eq (Array.size_push ..).symm
    · rw [Program.expr, Program.expr, Array.getElem?_push_lt he, Array.getElem?_eq_getElem he]
  obtain ⟨s', hpush, hs', hprogram⟩ := emits_pushElement hadd.placed (.expr ⟨s.program.exprs.size⟩ false)
  refine ⟨s', ?_, hadd.trans hs', by rw [hprogram]⟩
  exact bind_eq_ok.2 ⟨_, _, rfl, bind_eq_ok.2 ⟨(), s', hpush, rfl⟩⟩

end Lower

/-! ### States that differ in values of expressions -/

/-- The second state differs from the first one in values of expressions of one frame only, from a
number on. -/
structure State.SameBelow (k : Nat) (f : FrameId) (s t : State) : Prop where
  store : t.store = s.store
  constraints : t.constraints = s.constraints
  heap : t.heap = s.heap
  value {g : FrameId} {x : ExprId} : (g = f → x.index < k) → t.value g x = s.value g x

namespace State

variable {k k' : Nat} {f : FrameId} {x : ExprId} {s t u : State}

theorem SameBelow.refl (k : Nat) (f : FrameId) (s : State) : s.SameBelow k f s :=
  ⟨rfl, rfl, rfl, fun _ => rfl⟩

theorem SameBelow.trans (h : s.SameBelow k f t) (h' : t.SameBelow k' f u) (hk : k ≤ k') :
    s.SameBelow k f u where
  store := h'.store.trans h.store
  constraints := h'.constraints.trans h.constraints
  heap := h'.heap.trans h.heap
  value hx := (h'.value fun hg => (hx hg).trans_le hk).trans (h.value hx)

theorem sameBelow_bindExpr (s : State) (f : FrameId) (v : Value) (hx : k ≤ x.index) :
    s.SameBelow k f (s.bindExpr f x v) := by
  refine ⟨rfl, rfl, rfl, fun {g y} hy => ?_⟩
  unfold value bindExpr
  dsimp only
  rw [OrderedMap.get?_insert_of_ne]
  rintro ⟨⟩
  exact (hy rfl).not_ge hx

theorem value_bindExpr_self (s : State) (f : FrameId) (x : ExprId) (v : Value) :
    (s.bindExpr f x v).value f x = v := by
  unfold value bindExpr
  dsimp only
  rw [OrderedMap.get?_insert_self]
  rfl

end State

/-! ### Evaluating steps -/

namespace Exploring

/-- Evaluates steps one after the other, from a node on. Checkers are asked before each step, and may end
the path; after each step there is a node. -/
def evalSteps (o : Options) (spot : Spot) (n : NodeId) : List Element → Exploring (Option NodeId)
  | [] => return some n
  | el :: rest => do
    match ← ask o spot n (.element el) with
    | none => return none
    | some m =>
      match ← evalElement o spot m el with
      | none => return none
      | some outcome =>
        let (next, _) ← arrive outcome.pred ⟨spot.after, outcome.state, false⟩
        evalSteps o { spot with index := spot.index + 1 } next rest

/-- From any node in the state `s`, in the frame `f`, the path goes on after the steps, in a state that
satisfies the condition. Nothing is reported. -/
def Runs (o : Options) (f : FrameId) (steps : List Element) (c : Catalog) (s : State)
    (post : State → Catalog → Prop) : Prop :=
  ∀ spot e n, spot.frame = f → e.catalog = c → e.graph.state n = s →
    (evalSteps o spot n steps).Ends e fun m? e' => e.Stays e' ∧ e'.reports = e.reports ∧
      ∃ m, m? = some m ∧ post (e'.graph.state m) e'.catalog

variable {o : Options} {f : FrameId} {spot : Spot} {steps steps' : List Element} {el : Element}
  {e : Exploration} {c d : Catalog} {s t : State} {post post' : State → Catalog → Prop} {n : NodeId}
  {event : Event}

/-- Checkers that have nothing to say change nothing. -/
theorem consultAll_of_pass {point : Point} {visits : Nat} (checkers : List Checker)
    (h : ∀ (checker : Checker) (scene : Scene), scene.state = e.graph.state n →
      scene.point.frame = point.frame → checker.check event scene e.catalog = (.pass, e.catalog)) :
    consultAll o point visits event checkers n e = .ok (some n, e) := by
  induction checkers with
  | nil => rfl
  | cons checker rest ih =>
    generalize hscene : (⟨e.graph.state n, point.tagged checker, visits, e.frames, o.store⟩ : Scene) =
      scene
    have hpass := h checker scene (hscene ▸ rfl) (hscene ▸ rfl)
    have hcheck : naming (checker.check event scene) e = .ok (.pass, e) := by
      show Except.ok ((checker.check event scene e.catalog).1,
        { e with catalog := (checker.check event scene e.catalog).2 }) = _
      rw [hpass]
    exact bind_eq_ok.2 ⟨scene, e, hscene ▸ rfl, bind_eq_ok.2 ⟨.pass, e, hcheck,
      bind_eq_ok.2 ⟨some n, e, rfl, ih⟩⟩⟩

theorem ask_of_pass (h : ∀ (checker : Checker) (scene : Scene), scene.state = e.graph.state n →
    scene.point.frame = spot.frame → checker.check event scene e.catalog = (.pass, e.catalog)) :
    ask o spot n event e = .ok (some n, e) := consultAll_of_pass _ h

theorem Runs.imp (h : Runs o f steps c s post) (himp : ∀ t d, c ≤ d → post t d → post' t d) :
    Runs o f steps c s post' := fun spot e n hf hc hs => by
  refine (h spot e n hf hc hs).imp fun m? e' ⟨hstays, hreports, m, hm, hpost⟩ => ?_
  exact ⟨hstays, hreports, m, hm, himp _ _ (hc ▸ hstays.le) hpost⟩

theorem runs_nil (h : post s c) : Runs o f [] c s post := fun _ e n _ hc hs =>
  ends_pure ⟨.refl e, rfl, n, rfl, hc.symm ▸ hs.symm ▸ h⟩

/-- What follows some steps runs from where they end, if the path goes on. -/
theorem evalSteps_append (o : Options) (spot : Spot) (n : NodeId) (steps steps' : List Element) :
    evalSteps o spot n (steps ++ steps') = (do
      match ← evalSteps o spot n steps with
      | none => return none
      | some m => evalSteps o { spot with index := spot.index + steps.length } m steps') := by
  induction steps generalizing spot n with
  | nil => simp [evalSteps]
  | cons el rest ih =>
    rw [cons_append, evalSteps, evalSteps, bind_assoc]
    refine bind_congr fun m? => ?_
    cases m? with
    | none => simp
    | some m =>
      simp only [bind_assoc]
      refine bind_congr fun outcome? => ?_
      cases outcome? with
      | none => simp
      | some outcome =>
        simp only [bind_assoc, ih, length_cons]
        refine bind_congr fun next => ?_
        rw [Nat.add_right_comm]
        rfl

/-- Steps that run one after the other run together. -/
theorem Runs.append (h : Runs o f steps c s post)
    (h' : ∀ t d, c ≤ d → post t d → Runs o f steps' d t post') :
    Runs o f (steps ++ steps') c s post' := by
  intro spot e n hf hc hs
  rw [evalSteps_append]
  refine (h spot e n hf hc hs).bind ?_
  rintro _ e1 ⟨hstays, hreports, m, rfl, hpost⟩
  refine (h' _ _ (hc ▸ hstays.le) hpost { spot with index := spot.index + steps.length } e1 m hf rfl
    rfl).imp ?_
  rintro m? e2 ⟨hstays', hreports', hpost'⟩
  exact ⟨hstays.trans hstays', hreports'.trans hreports, hpost'⟩

/-- A step that checkers have nothing to say to, and that goes on from where they were asked. -/
theorem runs_of_pass (hpass : ∀ (checker : Checker) (scene : Scene), scene.state = s →
      scene.point.frame = f → checker.check (.element el) scene c = (.pass, c))
    (heval : ∀ spot e n, spot.frame = f → e.catalog = c → e.graph.state n = s →
      (evalElement o spot n el).Ends e fun out? e' => e.Stays e' ∧ e'.reports = e.reports ∧
        ∃ out, out? = some out ∧ post out.state e'.catalog) :
    Runs o f [el] c s post := by
  intro spot e n hf hc hs
  have hask : ask o spot n (.element el) e = .ok (some n, e) :=
    ask_of_pass fun checker scene hstate hframe =>
      hc ▸ hpass checker scene (hstate.trans hs) (hframe.trans hf)
  obtain ⟨_, e', hrun, hstays, hreports, out, rfl, hpost⟩ := heval spot e n hf hc hs
  refine ⟨some (e'.graph.add ⟨spot.after, out.state, false⟩).1.1,
    arrived e' out.pred ⟨spot.after, out.state, false⟩,
    bind_eq_ok.2 ⟨_, e, hask, bind_eq_ok.2 ⟨_, e', hrun, rfl⟩⟩,
    hstays.trans (stays_arrived ..), hreports, _, rfl, ?_⟩
  rwa [PathGraph.state_eq (node?_arrived ..)]

end Exploring

/-! ### Evaluating expressions -/

/-- Does the value of the operation depend on those of its operands only? -/
def Operation.isPure : Operation → Bool
  | .load _ | .assign .. | .compound .. | .incDec .. | .call .. | .join => false
  | _ => true

/-- The operands of a binary operation are not garbage, and a divisor is a number other than zero. -/
def State.Admits (s : State) (f : FrameId) : Operation → Prop
  | .binary op l r => (s.value f l).isUndefined = false ∧ (s.value f r).isUndefined = false ∧
      (Division.divides op = true → ∃ k, k ≠ 0 ∧ s.value f r = .int k)
  | _ => True

section

variable {o : Options} {f : FrameId} {c d : Catalog} {s : State} {x : ExprId} {root : Bool} {v : Value}
  {scene : Scene}

theorem State.zero?_int {k : Int} (hk : k ≠ 0) : s.zero? c (.int k) = some false := by
  simp [zero?, assume, Constraints.assume, hk]

section

variable (hpure : (c.program.expr x).op.isPure = true)
  (h : scene.state.Admits scene.point.frame (c.program.expr x).op)
include hpure h

theorem Garbage.checkExpr_of_admits : Garbage.checkExpr scene x c = (.pass, c) := by
  unfold Garbage.checkExpr
  rw [Naming.bind_apply, Naming.query_apply]
  cases hop : (c.program.expr x).op with
  | binary op l r =>
    rw [hop] at h
    have hoperand : Garbage.garbageOperand? scene l r = none := by
      simp only [Garbage.garbageOperand?, Scene.value, h.1, h.2.1, Bool.false_eq_true, if_false]
    simp only [hoperand]
    rfl
  | compound | incDec =>
    rw [hop] at hpure
    cases hpure
  | _ => rfl

theorem Division.checkExpr_of_admits : Division.checkExpr scene c x = .pass := by
  unfold Division.checkExpr
  cases hdivisor : Division.divisor? c.program x with
  | none => rfl
  | some divisor =>
    obtain ⟨k, hk, hvalue⟩ : ∃ k, k ≠ 0 ∧ scene.value divisor = .int k := by
      unfold Division.divisor? at hdivisor
      cases hop : (c.program.expr x).op with
      | binary op l r =>
        simp only [hop] at hdivisor h
        obtain ⟨hdivides, heq⟩ := Option.ite_none_right_eq_some.1 hdivisor
        cases heq
        exact h.2.2 hdivides
      | compound => simp [hop, Operation.isPure] at hpure
      | _ => simp [hop] at hdivisor
    simp only [hvalue, State.zero?_int hk]
    rfl

/-- Checkers have nothing to say to such an operation. -/
theorem Checker.check_expr_of_admits (checker : Checker) :
    checker.check (.element (.expr x root)) scene c = (.pass, c) := by
  cases checker with
  | undefinedValue => exact Garbage.checkExpr_of_admits hpure h
  | divideZero => exact congrArg (·, c) (Division.checkExpr_of_admits hpure h)
  | _ => rfl

end

/-- An operation that checkers have nothing to say to gives its expression a value. -/
theorem Exploring.runs_expr (hpure : (c.program.expr x).op.isPure = true)
    (h : s.Admits f (c.program.expr x).op) (heval : s.evaluate? f x c = (some v, d)) (hcd : c ≤ d) :
    Runs o f [.expr x root] c s fun t c' => t = s.bindExpr f x v ∧ c' = d := by
  refine runs_of_pass (fun checker scene hs hf => ?_) fun spot e n hf hc hs => ?_
  · refine checker.check_expr_of_admits hpure ?_
    rwa [hs, hf]
  · have hrun : evalElement o spot n (.expr x root) e =
        .ok (some ⟨n, s.bindExpr f x v, none⟩, { e with catalog := d }) := by
      show evalExpr o spot n x e = _
      unfold evalExpr
      rw [query_bind, hc]
      cases hop : (c.program.expr x).op with
      | load | assign | compound | incDec | call | join =>
        rw [hop] at hpure
        cases hpure
      | _ =>
        simp only [stateOf, query_bind, hs, hf, naming_bind, hc, heval]
        rfl
    exact ⟨_, _, hrun, ⟨hc ▸ hcd, id, rfl, rfl, rfl⟩, rfl, _, rfl, rfl, rfl⟩

end

/-! ### Code that is built, and what it does when it runs -/

namespace Lowering

/-- The steps from one point of building to another run from any state, in any program that has the
expressions that were built between the two. Nothing but values of these expressions changes, the catalog
stays well-formed, and the condition is satisfied. -/
def Brings (s s' : Lowering) (post : FrameId → State → Catalog → Prop) : Prop :=
  ∃ steps, s.Emits steps s' ∧ ∀ (o : Options) (f : FrameId) (c : Catalog) (t : State),
    (∀ x : ExprId, s.program.exprs.size ≤ x.index → x.index < s'.program.exprs.size →
      c.program.expr x = s'.program.expr x) →
    Exploring.Runs o f steps c t fun t' c' => t.SameBelow s.program.exprs.size f t' ∧
      (c.WellFormed → c'.WellFormed) ∧ post f t' c'

variable {s s' s'' : Lowering} {x y : ExprId} {post post' : FrameId → State → Catalog → Prop}

theorem Brings.emits (h : s.Brings s' post) : ∃ steps, s.Emits steps s' := h.imp fun _ h => h.1

theorem Brings.imp (h : s.Brings s' post)
    (himp : ∀ f t c, (∀ x : ExprId, s.program.exprs.size ≤ x.index →
      x.index < s'.program.exprs.size → c.program.expr x = s'.program.expr x) →
        post f t c → post' f t c) : s.Brings s' post' := by
  obtain ⟨steps, hemits, hruns⟩ := h
  refine ⟨steps, hemits, fun o f c t hc => (hruns o f c t hc).imp fun t' d hcd hpost => ?_⟩
  refine ⟨hpost.1, hpost.2.1, himp f t' d (fun x hlo hhi => ?_) hpost.2.2⟩
  rw [hcd.program]
  exact hc x hlo hhi

theorem Brings.refl (h : s.Placed) : s.Brings s fun _ _ _ => True :=
  ⟨[], .refl h, fun _ f _ t _ => Exploring.runs_nil ⟨.refl _ f t, id, trivial⟩⟩

/-- What was brought about is still there after later steps, if it depends on expressions so far and may
stand in a larger catalog. -/
theorem Brings.trans (h : s.Brings s' post) (h' : s'.Brings s'' post')
    (hstable : ∀ f t u c d, c ≤ d → t.SameBelow s'.program.exprs.size f u → post f t c → post f u d) :
    s.Brings s'' fun f t c => post f t c ∧ post' f t c := by
  obtain ⟨steps, hemits, hruns⟩ := h
  obtain ⟨steps', hemits', hruns'⟩ := h'
  refine ⟨steps ++ steps', hemits.trans hemits', fun o f c t hc => ?_⟩
  refine (hruns o f c t fun x hlo hhi => ?_).append fun u d hcd ⟨hsame, hwell, hpost⟩ => ?_
  · rw [hc x hlo (hhi.trans_le hemits'.size_le), hemits'.expr_eq x hhi]
  · refine (hruns' o f d u fun x hlo hhi => ?_).imp fun w d' hcd' ⟨hsame', hwell', hpost'⟩ => ?_
    · rw [hcd.program]
      exact hc x (hemits.size_le.trans hlo) hhi
    · exact ⟨hsame.trans hsame' hemits.size_le, hwell' ∘ hwell, hstable f u w d d' hcd' hsame' hpost,
        hpost'⟩

/-- One more expression is built and evaluated. -/
theorem Brings.addExpr {P : FrameId → State → Catalog → Prop} (h : s.Brings s' post) (op : Operation)
    (t : CType) (span : Span) (hpure : op.isPure = true)
    (heval : ∀ f u c, c.program.expr ⟨s'.program.exprs.size⟩ = ⟨op, t, span⟩ →
      (∀ x : ExprId, s.program.exprs.size ≤ x.index → x.index < s'.program.exprs.size →
        c.program.expr x = s'.program.expr x) → post f u c →
      u.Admits f op ∧ ∃ v d, u.evaluate? f ⟨s'.program.exprs.size⟩ c = (some v, d) ∧
        (c.WellFormed → d.WellFormed) ∧ P f (u.bindExpr f ⟨s'.program.exprs.size⟩ v) d) :
    ∃ s'', Lower.addExpr op t span s' = .ok (⟨s'.program.exprs.size⟩, s'') ∧ s.Brings s'' P ∧
      s.program.exprs.size ≤ s'.program.exprs.size ∧ s'.program.exprs.size < s''.program.exprs.size ∧
      s''.program.expr ⟨s'.program.exprs.size⟩ = ⟨op, t, span⟩ := by
  obtain ⟨steps, hemits, hruns⟩ := h
  obtain ⟨s'', hadd, hemits', hexprs⟩ := Lower.emits_addExpr hemits.placed op t span
  have hnew : s''.program.expr ⟨s'.program.exprs.size⟩ = ⟨op, t, span⟩ := by
    rw [Program.expr, hexprs, Array.getElem?_push_size, Option.getD_some]
  have hlt : s'.program.exprs.size < s''.program.exprs.size := by
    rw [hexprs, Array.size_push]
    exact Nat.lt_succ_self _
  refine ⟨s'', hadd, ⟨_, hemits.trans hemits', fun o f c u hc => ?_⟩, hemits.size_le, hlt, hnew⟩
  have hold : ∀ x : ExprId, s.program.exprs.size ≤ x.index → x.index < s'.program.exprs.size →
      c.program.expr x = s'.program.expr x := fun x hlo hhi => by
    rw [hc x hlo (hhi.trans_le hemits'.size_le), hemits'.expr_eq x hhi]
  refine (hruns o f c u hold).append fun w d hcd ⟨hsame, hwell, hpost⟩ => ?_
  have hx : d.program.expr ⟨s'.program.exprs.size⟩ = ⟨op, t, span⟩ := by
    rw [hcd.program]
    exact (hc ⟨s'.program.exprs.size⟩ hemits.size_le hlt).trans hnew
  obtain ⟨hadmits, v, d', hv, hwell', hP⟩ := heval f w d hx (hcd.program ▸ hold) hpost
  have hgrows : d ≤ d' := by
    have := w.grows_evaluate? f ⟨s'.program.exprs.size⟩ d
    rwa [hv] at this
  refine (Exploring.runs_expr (by rw [hx]; exact hpure) (by rw [hx]; exact hadmits) hv hgrows).imp ?_
  rintro _ _ - ⟨rfl, rfl⟩
  exact ⟨hsame.trans (State.sameBelow_bindExpr w f v hemits.size_le) le_rfl, hwell' ∘ hwell, hP⟩

/-- What was built is an expression of type `t`, and not a place, that has a value which satisfies the
condition. -/
structure Gives (s : Lowering) (x : ExprId) (s' : Lowering) (t : CType) (P : Catalog → Value → Prop) :
    Prop where
  le : s.program.exprs.size ≤ x.index
  lt : x.index < s'.program.exprs.size
  type_eq : (s'.program.expr x).type = t
  isPlace_eq : (s'.program.expr x).op.isPlace = false
  brings : s.Brings s' fun f u c => P c (u.value f x)

variable {t : CType} {P Q : Catalog → Value → Prop}

theorem Gives.imp (h : s.Gives x s' t P) (himp : ∀ c v, P c v → Q c v) : s.Gives x s' t Q :=
  ⟨h.le, h.lt, h.type_eq, h.isPlace_eq, h.brings.imp fun _ _ _ _ => himp _ _⟩

/-- The operand of a new expression is in every program that has what was built so far. -/
theorem Gives.expr_eq (h : s.Gives x s' t P) {p : Program}
    (hp : ∀ z : ExprId, s.program.exprs.size ≤ z.index → z.index < s'.program.exprs.size →
      p.expr z = s'.program.expr z) : (p.expr x).type = t := by
  rw [hp x h.le h.lt, h.type_eq]

/-- An expression with a value is built. -/
theorem Brings.gives (h : s.Brings s' post) (op : Operation) (t : CType) (span : Span)
    (hpure : op.isPure = true) (hplace : op.isPlace = false)
    (heval : ∀ f u c, c.program.expr ⟨s'.program.exprs.size⟩ = ⟨op, t, span⟩ →
      (∀ x : ExprId, s.program.exprs.size ≤ x.index → x.index < s'.program.exprs.size →
        c.program.expr x = s'.program.expr x) → post f u c →
      u.Admits f op ∧ ∃ v d, u.evaluate? f ⟨s'.program.exprs.size⟩ c = (some v, d) ∧
        (c.WellFormed → d.WellFormed) ∧ P d v) :
    ∃ s'', Lower.addExpr op t span s' = .ok (⟨s'.program.exprs.size⟩, s'') ∧
      s.Gives ⟨s'.program.exprs.size⟩ s'' t P := by
  obtain ⟨s'', hadd, hbrings, hle, hlt, hnew⟩ :=
    h.addExpr (P := fun f u c => P c (u.value f ⟨s'.program.exprs.size⟩)) op t span hpure
      fun f u c hx hc hpost => by
        obtain ⟨hadmits, v, d, hv, hwell, hP⟩ := heval f u c hx hc hpost
        exact ⟨hadmits, v, d, hv, hwell, by rwa [State.value_bindExpr_self]⟩
  exact ⟨s'', hadd, hle, hlt, by rw [hnew], by rw [hnew]; exact hplace, hbrings⟩

/-- An expression that is built as a value is not read. -/
theorem Gives.value_eq_ok {y : Lowered} (h : s.Gives x s' t P) (hplace : y.place s = .ok (x, s')) :
    y.value s = .ok (x, s') := by
  refine Lower.bind_eq_ok.2 ⟨x, s', hplace, ?_⟩
  refine Lower.bind_eq_ok.2 ⟨s'.program.expr x, s', rfl, ?_⟩
  rw [h.isPlace_eq]
  rfl

/-- A value of the type that is asked for is not converted. -/
theorem convert_of_type (h : (s.program.expr x).type = t) : Lower.convert x t s = .ok (x, s) := by
  refine Lower.bind_eq_ok.2 ⟨s.program.expr x, s, rfl, ?_⟩
  rw [if_pos h]
  rfl

theorem requireInteger_of_type (h : (s.program.expr x).type = .int) :
    Lower.requireInteger x s = .ok (x, s) := by
  refine Lower.bind_eq_ok.2 ⟨s.program.expr x, s, rfl, ?_⟩
  rw [h]
  exact convert_of_type h

end Lowering

end PathScout

import PathScout.Proofs.WalkSteps

/-!
# Walks through built expressions

The code of an expression leads a walker through the course of the expression: for its value to the
end of the code, where the value waits, and as a condition to the block for the way that it comes out.

* `Lowered.Traces`: both ways of building lead a walker through both courses.
* `Lower.evaluates_lowerLogical`, `Lower.evaluates_lowerConditional`: values that are joined behind a
  branch.
* `lower_traces`: both ways of building any expression.
-/

namespace PathScout

/-- Both ways of building an expression lead a walker through its courses. -/
structure Lowered.Traces (T : Terrain) (x : Lowered) (y : Followed) : Prop where
  place : Lower.Evaluates T x.place y.place [] fun e => [e]
  branch : ∀ yes no kind, Lower.Traces T (x.branch yes no kind) y.condition
    fun b _ w => w.Starts (if b then yes else no)

open Lower List

namespace Lowered.Traces

variable {T : Terrain} {x : Lowered} {y : Followed}

theorem value (h : x.Traces T y) : Evaluates T x.value y.value [] fun e => [e] :=
  h.place.bind fun e => evaluates_toValue e

/-- A value that is converted, and what is done with it. -/
theorem passed {β : Type} {f : ExprId → Lower β} {z : Following Unit} {post : β → List ExprId}
    (h : x.Traces T y) (before : List ExprId)
    (hf : ∀ e, Evaluates T (f e) (do perform (.convert 0); z) (before ++ [e]) post) :
    Evaluates T (x.value >>= f) (do y.passed; z) before post := (h.value.after before).bind hf

theorem target (h : x.Traces T y) (l : Location) :
    Evaluates T (x.target l) y.place [] fun e => [e] := by
  refine h.place.finish fun e => (traces_exprOf e).before fun a => ?_
  split
  · exact evaluates_pure rfl
  · exact evaluates_fail

theorem ofPlace {place : Lower ExprId} {course : Following Unit} (l : Location)
    (h : Evaluates T place course [] fun e => [e]) :
    (Lowered.ofPlace l place).Traces T (.leaf T.oracle course) where
  place := h
  branch yes no kind := by
    intro s u s' hs hrun
    obtain ⟨e, s1, hplace, hrun⟩ := bind_eq_ok.1 hrun
    obtain ⟨cond, s2, htake, hrun⟩ := bind_eq_ok.1 hrun
    obtain ⟨_, s3, hscalar, hrun⟩ := bind_eq_ok.1 hrun
    obtain ⟨hknown, hplace⟩ := h s e s1 hs (fun _ he => nomatch he) hplace
    obtain ⟨-, htake⟩ := evaluates_toValue (T := T) e s1 cond s2 hplace.tidy hknown htake
    have hscalar := (traces_requireScalar (T := T) cond s2 _ s3 htake.tidy hscalar).frame [cond]
    exact hplace.bind fun _ => htake.bind fun _ => hscalar.then (leads_branch hscalar.tidy hrun)

end Lowered.Traces

namespace Lower

variable {T : Terrain} {left right operand base : Lowered} {l r y b : Followed} {s s' s₁ o : Lowering}
  {yes no second next : BlockId} {blocks : List BlockId} {P : Walker → Prop} {x : Following Bool}
  {u : Unit} {join : ExprId}

/-! ### Operators -/

theorem evaluates_lowerBinary (span : Span) (op : BinaryOp) (hl : left.Traces T l)
    (hr : right.Traces T r) : Evaluates T (lowerBinary span op left right)
      (followPair l r (.expr (.binary op) span)) [] fun e => [e] := by
  refine hl.value.bind fun a => (hr.value.after [a]).bind fun b => ?_
  refine (traces_typeOf a).before fun lt => (traces_typeOf b).before fun rt => ?_
  have hadd : ∀ a b type, Evaluates T (addExpr (.binary op a b) type span)
      (perform (.expr (.binary op) span)) [a, b] fun e => [e] := fun a b type =>
    evaluates_addExpr (.binary op a b) type span
  have hsecond : ∀ a target type, Evaluates T (do
      let b ← convert b target
      addExpr (.binary op a b) type span)
      (do perform (.convert 0); perform (.expr (.binary op) span)) [a, b] fun e => [e] :=
    fun a target type => ((evaluates_convert b target []).frame [a]).bind fun b => hadd a b type
  have hfirst : ∀ target type, Evaluates T (do
      let a ← convert a target
      addExpr (.binary op a b) type span)
      (do perform (.convert 1); perform (.convert 0); perform (.expr (.binary op) span)) [a, b]
        fun e => [e] := fun target type =>
    (evaluates_convert a target [b]).bind fun a => (hadd a b type).alike [a] b []
  dsimp only
  split
  · exact (evaluates_convert a .int [b]).bind fun a => hsecond a .int _
  · split
    · split
      · exact ((hadd a b _).alike [a] b []).alike [] a [b]
      · split
        · exact (hsecond a lt _).alike [] a [b]
        · split
          · exact hfirst rt _
          · exact evaluates_fail
    · split
      · exact (hsecond a .int _).alike [] a [b]
      · split
        · exact hfirst .int _
        · split
          · exact ((hadd a b _).alike [a] b []).alike [] a [b]
          · exact evaluates_fail

/-! ### Conjunctions and disjunctions -/

theorem carries_followAnd {y : Following Bool}
    (hx : T.Carries P x fun b w => w.Starts (if b then second else no))
    (hy : T.Carries (fun w => w.Starts second) y fun b w => w.Starts (if b then yes else no)) :
    T.Carries P (followLogical .and x y) fun b w => w.Starts (if b then yes else no) :=
  hx.bind fun b => by
    cases b with
    | true => exact hy
    | false => exact Terrain.carries_pure fun _ => id

theorem carries_followOr {y : Following Bool}
    (hx : T.Carries P x fun b w => w.Starts (if b then yes else second))
    (hy : T.Carries (fun w => w.Starts second) y fun b w => w.Starts (if b then yes else no)) :
    T.Carries P (followLogical .or x y) fun b w => w.Starts (if b then yes else no) :=
  hx.bind fun b => by
    cases b with
    | true => exact Terrain.carries_pure fun _ => id
    | false => exact hy

/-- The second operand stands in a block of its own, to which the first one may lead. -/
theorem leads_secondOperand {op : LogicalOp} {kind : BranchKind} {u' : Unit} (hl : left.Traces T l)
    (hr : right.Traces T r) (hplan : o.Plan s (second :: blocks))
    (hfirst : op = .and ∧ left.branch second no .logicalAnd s = .ok (u, s₁) ∨
      op = .or ∧ left.branch yes second .logicalOr s = .ok (u, s₁))
    (hsecond : right.branch yes no kind (s₁.goneTo (some second)) = .ok (u', s')) :
    o.Plan s' blocks ∧ (T.Covers s' → T.Carries s.Here (followLogical op l.condition r.condition)
      fun b w => w.Starts (if b then yes else no)) := by
  have hmem : second ∈ second :: blocks := mem_cons_self
  rcases hfirst with ⟨rfl, hfirst⟩ | ⟨rfl, hfirst⟩
  · have h1 := hl.branch second no .logicalAnd s u s₁ hplan.tidy hfirst
    have hplan1 := hplan.adds h1.toAdds
    have hplan2 := hplan1.enter [] blocks
    have h2 := hr.branch yes no kind _ u' s' hplan2.tidy hsecond
    exact ⟨hplan2.adds h2.toAdds, fun hcovers => carries_followAnd
      (h1.carries (hcovers.before h2.toGrows)) (h2.carries_starts hplan1 hmem hcovers)⟩
  · have h1 := hl.branch yes second .logicalOr s u s₁ hplan.tidy hfirst
    have hplan1 := hplan.adds h1.toAdds
    have hplan2 := hplan1.enter [] blocks
    have h2 := hr.branch yes no kind _ u' s' hplan2.tidy hsecond
    exact ⟨hplan2.adds h2.toAdds, fun hcovers => carries_followOr
      (h1.carries (hcovers.before h2.toGrows)) (h2.carries_starts hplan1 hmem hcovers)⟩

theorem traces_branchLogical (op : LogicalOp) (kind : BranchKind) (hl : left.Traces T l)
    (hr : right.Traces T r) : Traces T (branchLogical op left right yes no kind)
      (followLogical op l.condition r.condition) fun b _ w => w.Starts (if b then yes else no) := by
  intro s u s' hs hrun
  obtain ⟨second, s₁, hnew, hrun⟩ := bind_eq_ok.1 hrun
  cases hnew
  have hlayout : s.Layout s.opened [⟨s.room⟩] := (Lowering.Layout.refl hs).opened
  cases op with
  | and =>
    obtain ⟨u1, s₁, hfirst, hrun⟩ := bind_eq_ok.1 hrun
    obtain ⟨hdone, hcarries⟩ := leads_secondOperand hl hr hlayout.toPlan (.inl ⟨rfl, hfirst⟩) hrun
    exact ⟨hdone.toAdds, fun hcovers => (hcarries hcovers).imp hlayout.here fun _ _ => id⟩
  | or =>
    obtain ⟨u1, s₁, hfirst, hrun⟩ := bind_eq_ok.1 hrun
    obtain ⟨hdone, hcarries⟩ := leads_secondOperand hl hr hlayout.toPlan (.inr ⟨rfl, hfirst⟩) hrun
    exact ⟨hdone.toAdds, fun hcovers => (hcarries hcovers).imp hlayout.here fun _ _ => id⟩

/-! ### Joined values -/

theorem leads_mergeInto {value : MergeValue} {a : Act} (hs : s.Tidy)
    (hact : ∀ p, (Element.merge join value).act? p = some a)
    (hrun : mergeInto join value next s = .ok (u, s')) :
    T.Leads s s' (perform a) (fun _ w => w.Starts next)
      ((Element.merge join value).operands T.program) [join] := by
  obtain ⟨_, s1, hpush, hjump⟩ := bind_eq_ok.1 hrun
  have hpush : T.Leads s s1 (perform a) (fun _ => s1.Here)
      ((Element.merge join value).operands T.program) [join] :=
    leads_pushElement hs hpush fun _ vs => .step vs (hact _)
  exact hpush.bind fun _ => (traces_jump next .fallthrough _ _ _ hpush.tidy hjump).frame [join]

/-- Where two ways meet, the joined expression is evaluated. -/
theorem leads_takeJoin {type : CType} {span : Span} (hplan : o.Plan s [next])
    (hlt : join.index < s.program.exprs.size) (hexpr : s.program.expr join = ⟨.join, type, span⟩)
    (hrun : pushElement (.expr join false) (s.goneTo (some next)) = .ok (u, s')) :
    o.Adds s' ∧ s'.Knows [join] ∧ (T.Covers s' → T.Covers s ∧ T.Carries (fun w => w.Starts next)
      (perform (.expr .join span)) (fun _ => s'.Here) [join] [join]) := by
  have hplan' := hplan.enter [] []
  have hgrows := (adds_pushElement hplan'.tidy hrun).toGrows
  have h : T.Leads (s.goneTo (some next)) s' (perform (.expr .join span)) (fun _ => s'.Here)
      [join] [join] :=
    leads_pushElement hplan'.tidy hrun fun hcovers vs => by
      have hdone : T.Done _ [.step (.expr join false)] _ _ := .step vs rfl
      rwa [Element.operands, ((hcovers.before hgrows).expr_eq join hlt).trans hexpr, if_pos rfl] at hdone
  exact ⟨hplan'.toAdds.trans h.toAdds, fun e he => mem_singleton.1 he ▸ hlt.trans_le h.exprs_le,
    fun hcovers => ⟨hcovers.before h.toGrows, h.carries_starts hplan mem_cons_self hcovers⟩⟩

theorem evaluates_lowerLogical (span : Span) (op : LogicalOp) (hl : left.Traces T l)
    (hr : right.Traces T r) : Evaluates T (lowerLogical span op left right) (do
      let b ← followLogical op l.condition r.condition
      perform (.merge (some (if b then 1 else 0)))
      perform (.expr .join span)) [] fun e => [e] := by
  intro s0 e s' hs _ hrun
  obtain ⟨join, s, hjoin, hrun⟩ := bind_eq_ok.1 hrun
  obtain ⟨second, s₁, hsecond, hrun⟩ := bind_eq_ok.1 hrun
  obtain ⟨yes, s2, hyes, hrun⟩ := bind_eq_ok.1 hrun
  obtain ⟨no, s3, hno, hrun⟩ := bind_eq_ok.1 hrun
  obtain ⟨next, s4, hnext, hrun⟩ := bind_eq_ok.1 hrun
  have hbefore := traces_addDetached (T := T) .join .int span s0 join s hs hjoin
  obtain ⟨-, -, -, hlt, hexpr⟩ := addDetached_spec hs hjoin
  have hlayout : s.Layout s4 [second, yes, no, next] :=
    ((((Lowering.Layout.refl hbefore.tidy).newBlock hsecond).newBlock hyes).newBlock hno).newBlock hnext
  -- the condition leads to one of the two ways
  obtain ⟨s5, hplan, hcond, hrun⟩ : ∃ s5, s.Plan s5 [yes, no, next] ∧ (T.Covers s5 →
      T.Carries s4.Here (followLogical op l.condition r.condition)
        fun b w => w.Starts (if b then yes else no)) ∧ (do
      setCurrent (some yes)
      mergeInto join (.int 1) next
      setCurrent (some no)
      mergeInto join (.int 0) next
      setCurrent (some next)
      pushElement (.expr join false)
      return join : Lower ExprId) s5 = .ok (e, s') := by
    cases op with
    | and =>
      obtain ⟨_, _, hfirst, hrun⟩ := bind_eq_ok.1 hrun
      obtain ⟨_, s5, hsecond, hrun⟩ := bind_eq_ok.1 (of_setCurrent_bind hrun)
      obtain ⟨hplan, hcarries⟩ := leads_secondOperand hl hr hlayout.toPlan (.inl ⟨rfl, hfirst⟩) hsecond
      exact ⟨s5, hplan, hcarries, hrun⟩
    | or =>
      obtain ⟨_, _, hfirst, hrun⟩ := bind_eq_ok.1 hrun
      obtain ⟨_, s5, hsecond, hrun⟩ := bind_eq_ok.1 (of_setCurrent_bind hrun)
      obtain ⟨hplan, hcarries⟩ := leads_secondOperand hl hr hlayout.toPlan (.inr ⟨rfl, hfirst⟩) hsecond
      exact ⟨s5, hplan, hcarries, hrun⟩
  obtain ⟨_, s6, hyes, hrun⟩ := bind_eq_ok.1 (of_setCurrent_bind hrun)
  obtain ⟨_, s7, hno, hrun⟩ := bind_eq_ok.1 (of_setCurrent_bind hrun)
  obtain ⟨_, _, hlast, hrun⟩ := bind_eq_ok.1 (of_setCurrent_bind hrun)
  cases hrun
  have hplan1 := hplan.enter [] [no, next]
  have h1 := leads_mergeInto (T := T) hplan1.tidy (fun _ => rfl) hyes
  have hplan2 := (hplan1.adds h1.toAdds).enter [] [next]
  have h2 := leads_mergeInto (T := T) hplan2.tidy (fun _ => rfl) hno
  have hplan3 := hplan2.adds h2.toAdds
  obtain ⟨hadds, hknown, hend⟩ := leads_takeJoin (T := T) hplan3 (hlt.trans_le hplan3.exprs_le)
    ((hplan3.expr_eq e hlt).trans hexpr) hlast
  refine ⟨hknown, hbefore.then ⟨hadds, fun hcovers => ?_⟩⟩
  obtain ⟨hcovers7, hend⟩ := hend hcovers
  have hcovers6 := hcovers7.before h2.toGrows
  refine ((hcond (hcovers6.before h1.toGrows)).imp hlayout.here fun _ _ => id).bind fun b => ?_
  cases b with
  | true => exact (h1.carries_starts hplan mem_cons_self hcovers6).bind fun _ => hend
  | false =>
    exact (h2.carries_starts (hplan1.adds h1.toAdds) mem_cons_self hcovers7).bind fun _ => hend

/-- A way to a joined expression ends: its value is converted and merged. -/
theorem leads_endWay {v : ExprId} {type : CType} (hs : s.Tidy) (hknown : s.Knows [v])
    (hrun : (do mergeInto join (.expr (← convert v type)) next : Lower Unit) s = .ok (u, s')) :
    T.Leads s s' (do perform (.convert 0); perform (.merge none)) (fun _ w => w.Starts next)
      [v] [join] := by
  obtain ⟨v', s1, hconvert, hmerge⟩ := bind_eq_ok.1 hrun
  obtain ⟨-, hconvert⟩ := evaluates_convert (T := T) v type [] s v' s1 hs hknown hconvert
  exact hconvert.bind fun _ => leads_mergeInto hconvert.tidy (fun _ => rfl) hmerge

theorem evaluates_lowerConditional (span : Span) {cond : Lowered} {c : Followed}
    {yesWay noWay : Lowered} (hc : cond.Traces T c) (hy : yesWay.Traces T l)
    (hn : noWay.Traces T r) : Evaluates T (lowerConditional span cond yesWay noWay) (do
      followEither c.condition l.way r.way
      perform (.expr .join span)) [] fun e => [e] := by
  intro s e s' hs _ hrun
  obtain ⟨yes, s₁, hyes, hrun⟩ := bind_eq_ok.1 hrun
  obtain ⟨no, s2, hno, hrun⟩ := bind_eq_ok.1 hrun
  obtain ⟨next, s3, hnext, hrun⟩ := bind_eq_ok.1 hrun
  have hlayout : s.Layout s3 [yes, no, next] :=
    (((Lowering.Layout.refl hs).newBlock hyes).newBlock hno).newBlock hnext
  obtain ⟨_, s4, hcond, hrun⟩ := bind_eq_ok.1 hrun
  have hcond := hc.branch yes no .conditional _ _ _ hlayout.tidy hcond
  have hplan := hlayout.toPlan.adds hcond.toAdds
  -- the first way
  obtain ⟨y, s5, hyes, hrun⟩ := bind_eq_ok.1 (of_setCurrent_bind hrun)
  have hplanYes := hplan.enter [] [no, next]
  obtain ⟨hknownYes, hyes⟩ := hy.value _ _ _ hplanYes.tidy (fun _ he => nomatch he) hyes
  have hplanNo := hplanYes.adds hyes.toAdds
  -- the second way
  obtain ⟨_, _, hget, hrun⟩ := bind_eq_ok.1 hrun
  cases hget
  obtain ⟨n, s6, hno, hrun⟩ := bind_eq_ok.1 (of_setCurrent_bind hrun)
  have hplanNext := hplanNo.enter [] [next]
  obtain ⟨hknownNo, hno⟩ := hn.value _ _ _ hplanNext.tidy (fun _ he => nomatch he) hno
  have hkept : ∀ b, s5.current = some b → s6.block? b = s5.block? b ∧ s6.current ≠ some b :=
    fun b hb => by
      have hlt := hplanNo.tidy.current_lt hb
      have hne : some no ≠ some b := fun heq => hplanNo.free no mem_cons_self (heq ▸ hb)
      exact ⟨hno.apart b hlt hne, hno.current_ne hlt hne⟩
  have hplan6 := hplanNext.adds hno.toAdds
  -- the joined expression
  obtain ⟨_, _, hget, hrun⟩ := bind_eq_ok.1 hrun
  cases hget
  obtain ⟨yt, _, hyt, hrun⟩ := bind_eq_ok.1 hrun
  cases hyt
  obtain ⟨nt, _, hnt, hrun⟩ := bind_eq_ok.1 hrun
  cases hnt
  cases htype : joinType? (s6.program.expr y).type (s6.program.expr n).type with
  | none =>
    rw [htype] at hrun
    cases hrun
  | some type =>
  rw [htype] at hrun
  obtain ⟨join, s7, hjoin, hrun⟩ := bind_eq_ok.1 hrun
  obtain ⟨hadded, hblocks, -, hlt, hexpr⟩ := addDetached_spec hplan6.tidy hjoin
  have hblock : ∀ b, s7.block? b = s6.block? b := fun b => by
    rw [Lowering.block?, Lowering.block?, hblocks]
  have hplan7 := hplan6.adds hadded
  -- both ways go on to the common block
  obtain ⟨v, _, hconvert, hrun⟩ := bind_eq_ok.1 (of_setCurrent_bind hrun)
  obtain ⟨_, s8, hmerge, hrun⟩ := bind_eq_ok.1 hrun
  have hsameYes : ∀ b, s5.current = some b → s7.block? b = s5.block? b := fun b hb =>
    (hblock b).trans (hkept b hb).1
  have hplanYes' := hplan7.resume hplanNo.tail hsameYes
  have hknown7 : s7.Knows [y] := (hknownYes.grows hno.toGrows.of_goneTo).grows hadded.toGrows
  have hyesEnd := leads_endWay (T := T) hplanYes'.tidy hknown7 (bind_eq_ok.2 ⟨_, _, hconvert, hmerge⟩)
  have hplan8 := hplanYes'.adds hyesEnd.toAdds
  obtain ⟨v', _, hconvert', hrun⟩ := bind_eq_ok.1 (of_setCurrent_bind hrun)
  obtain ⟨_, s9, hmerge', hrun⟩ := bind_eq_ok.1 hrun
  have hsameNo : ∀ b, s6.current = some b → s8.block? b = s6.block? b := fun b hb =>
    (hyesEnd.apart b ((hplan6.tidy.current_lt hb).trans_le hadded.room_le)
      fun heq => (hkept b heq).2 hb).trans (hblock b)
  have hplanNo' := hplan8.resume hplan6 hsameNo
  have hknown8 : s8.Knows [n] := (hknownNo.grows hadded.toGrows).grows hyesEnd.toGrows.of_goneTo
  have hnoEnd := leads_endWay (T := T) hplanNo'.tidy hknown8 (bind_eq_ok.2 ⟨_, _, hconvert', hmerge'⟩)
  have hplan9 := hplanNo'.adds hnoEnd.toAdds
  -- the common block
  obtain ⟨_, _, hlast, hrun⟩ := bind_eq_ok.1 (of_setCurrent_bind hrun)
  cases hrun
  have hgrows : s7.Grows s9 := hyesEnd.toGrows.of_goneTo.trans hnoEnd.toGrows.of_goneTo
  obtain ⟨hadds, hknown, hend⟩ := leads_takeJoin (T := T) hplan9 (hlt.trans_le hgrows.exprs_le)
    ((hgrows.expr_eq e hlt).trans hexpr) hlast
  refine ⟨hknown, hadds, fun hcovers => ?_⟩
  obtain ⟨hcovers9, hend⟩ := hend hcovers
  have hcovers8 := hcovers9.before hnoEnd.toGrows
  have hcovers6 := (hcovers8.before hyesEnd.toGrows).of_grows hadded.toGrows
  have hcovers5 := hcovers6.before hno.toGrows
  refine Terrain.Carries.bind ?_ fun _ => hend
  refine ((hcond.carries (hcovers5.before hyes.toGrows)).imp hlayout.here fun _ _ => id).bind
    fun b => ?_
  cases b with
  | true =>
    change T.Carries _ (do l.value; perform (.convert 0); perform (.merge none)) _ _ _
    refine (hyes.carries_starts hplan mem_cons_self hcovers5).bind fun _ => ?_
    exact (hyesEnd.carries hcovers8).imp (fun w hw => hw.resume (hsameYes _ hw.current) rfl)
      fun _ _ => id
  | false =>
    change T.Carries _ (do r.value; perform (.convert 0); perform (.merge none)) _ _ _
    refine (hno.carries_starts hplanNo mem_cons_self hcovers6).bind fun _ => ?_
    exact (hnoEnd.carries hcovers9).imp (fun w hw => hw.resume (hsameNo _ hw.current) rfl) fun _ _ => id

/-! ### Operators on places and values -/

theorem evaluates_integerOp (op : ValueOp) (span : Span) (h : operand.Traces T y) : Evaluates T
      (do let v ← requireInteger (← operand.value); addExpr (.unary op v) .int span)
      (do y.passed; perform (.expr (.unary op) span)) [] fun e => [e] :=
  h.passed [] fun e => (evaluates_requireInteger e []).bind fun v =>
    evaluates_addExpr (.unary op v) .int span

theorem evaluates_lowerUnary_step (span : Span) (l : Location) (h : operand.Traces T y)
    (increment before : Bool) :
    Evaluates T (lowerUnary.step span operand l increment before)
      (do y.place; perform (.expr (.incDec increment before) span)) [] fun e => [e] :=
  (h.target l).bind fun t => (traces_requireScalar t).before fun _ => (traces_typeOf t).before
    fun type => evaluates_addExpr (.incDec t increment before) type span

theorem evaluates_lowerUnary (span : Span) (op : UnaryOp) (l : Location) (h : operand.Traces T y) :
    Evaluates T (lowerUnary span op operand l)
      (do op.follow y; perform (.expr op.form span)) [] fun e => [e] := by
  cases op with
  | neg => exact evaluates_integerOp .neg span h
  | bitNot => exact evaluates_integerOp .bitNot span h
  | not =>
    exact h.value.bind fun v => (traces_requireScalar v).before fun _ =>
      evaluates_addExpr (.unary .not v) .int span
  | deref =>
    refine h.value.bind fun v => (traces_typeOf v).before fun type => ?_
    split
    · split
      · exact evaluates_fail
      · exact evaluates_addExpr (.deref v) _ span
    · exact evaluates_fail
  | addrOf =>
    exact (h.target l).bind fun t => (traces_typeOf t).before fun type =>
      evaluates_addExpr (.addrOf t) _ span
  | preInc => exact evaluates_lowerUnary_step span l h true true
  | preDec => exact evaluates_lowerUnary_step span l h false true
  | postInc => exact evaluates_lowerUnary_step span l h true false
  | postDec => exact evaluates_lowerUnary_step span l h false false

theorem evaluates_lowerAssign {target value : Lowered} {t v : Followed} (span : Span)
    (op : Option BinaryOp) (l : Location) (ht : target.Traces T t) (hv : value.Traces T v) :
    Evaluates T (lowerAssign span op target value l)
      (do t.place; v.passed; perform (.expr (assignForm op) span)) [] fun e => [e] := by
  refine (ht.target l).bind fun e => (traces_typeOf e).before fun type => ?_
  split
  · exact evaluates_fail
  · refine hv.passed [e] fun a => ?_
    cases op with
    | none =>
      exact ((evaluates_convert a type []).frame [e]).bind fun a =>
        evaluates_addExpr (.assign e a) type span
    | some op =>
      refine (traces_requireScalar e).before fun _ => ?_
      split
      · exact (traces_typeOf a).before fun _ => evaluates_fail
      · exact ((evaluates_requireInteger a []).frame [e]).bind fun a =>
          evaluates_addExpr (.compound op e a) type span

theorem evaluates_lowerIndex {index : Lowered} {i : Followed} (span : Span) (hb : base.Traces T b)
    (hi : index.Traces T i) : Evaluates T (lowerIndex span base index)
      (followPair b i (.expr .index span)) [] fun e => [e] := by
  refine hb.value.bind fun e => (hi.value.after [e]).bind fun e' => ?_
  refine (traces_typeOf e).before fun bt => (traces_typeOf e').before fun it => ?_
  cases bt.isInteger && it.isPointer with
  | false =>
    dsimp only [Bool.false_eq_true, if_false]
    split
    · split
      · exact evaluates_fail
      · refine Evaluates.alike [] e [e'] ?_
        exact ((evaluates_requireInteger e' []).frame [e]).bind fun i =>
          evaluates_addExpr (.index e i) _ span
    · exact evaluates_fail
  | true =>
    dsimp only [if_true]
    split
    · split
      · exact evaluates_fail
      · exact (evaluates_requireInteger e [e']).bind fun i =>
          (evaluates_addExchanged e' i _ span).alike [i] e' []
    · exact evaluates_fail

theorem evaluates_lowerMember (span baseSpan : Span) (field : String) (arrow : Bool)
    (hb : base.Traces T b) : Evaluates T (lowerMember span base baseSpan field arrow)
      (do followObject arrow b baseSpan; perform (.expr .member span)) [] fun e => [e] := by
  refine Evaluates.bind ?_ fun object => (?_ : Evaluates T _ _ [object] _)
  -- the structure is one thing, reached in one of two ways
  · cases arrow with
    | true =>
      refine hb.value.bind fun v => (traces_typeOf v).before fun type => ?_
      split
      · exact evaluates_addExpr (.deref v) _ baseSpan
      · exact evaluates_fail
    | false => exact hb.target baseSpan.first
  · refine (traces_typeOf object).before fun type => ?_
    split
    · refine traces_get.before fun s => ?_
      dsimp only
      split
      · exact evaluates_fail
      · split
        · exact evaluates_fail
        · exact evaluates_addExpr (.member object _) _ span
    · exact evaluates_fail

theorem evaluates_lowerCall {args : Following Unit} (span : Span) (callee : String) (count : Nat)
    {lowerArgs : List CType → Lower (List ExprId)}
    (h : ∀ params, Evaluates T (lowerArgs params) args [] fun vs => vs) :
    Evaluates T (lowerCall span callee count lowerArgs) (do args; perform (.expr .call span)) []
      fun e => [e] := by
  refine (traces_resolveFunction callee span.first).before fun f => traces_get.before fun s => ?_
  dsimp only
  split
  · exact (h _).bind fun vs => evaluates_addExpr (.call f vs) _ span
  · exact evaluates_fail

end Lower

/-! ### Expressions -/

variable {T : Terrain}

mutual

/-- **The code of an expression** leads through its course, for its value and as a condition. -/
theorem lower_traces (e : Expr) : (lower e).Traces T (e.follow T.oracle) := by
  unfold lower Expr.follow
  match e with
  | .int span n | .char span n => exact .ofPlace _ (evaluates_addExpr (.int n) _ span)
  | .string span s => exact .ofPlace _ (evaluates_addExpr (.string s) _ span)
  | .null span => exact .ofPlace _ (evaluates_addExpr .null _ span)
  | .ident span name =>
    refine .ofPlace _ (traces_get.before fun s => ?_)
    split
    · exact evaluates_addExpr (.var _) _ span
    · exact evaluates_fail
  | .binary span op l r =>
    exact .ofPlace _ (evaluates_lowerBinary span op (lower_traces l) (lower_traces r))
  | .logical span op l r =>
    exact ⟨evaluates_lowerLogical span op (lower_traces l) (lower_traces r),
      fun _ _ kind => traces_branchLogical op kind (lower_traces l) (lower_traces r)⟩
  | .unary span op a => exact .ofPlace _ (evaluates_lowerUnary span op _ (lower_traces a))
  | .assign span op t v =>
    exact .ofPlace _ (evaluates_lowerAssign span op _ (lower_traces t) (lower_traces v))
  | .conditional span c y n =>
    exact .ofPlace _
      (evaluates_lowerConditional span (lower_traces c) (lower_traces y) (lower_traces n))
  | .call span callee args =>
    exact .ofPlace _ (evaluates_lowerCall span callee args.length fun params =>
      lowerArgs_evaluates args params)
  | .index span b i => exact .ofPlace _ (evaluates_lowerIndex span (lower_traces b) (lower_traces i))
  | .member span b field arrow =>
    exact .ofPlace _ (evaluates_lowerMember span b.span field arrow (lower_traces b))
  | .cast span type a =>
    refine .ofPlace _ ((traces_requireComplete type span.first).before fun _ =>
      (lower_traces a).value.bind fun v => (traces_typeOf v).before fun source => ?_)
    split
    · exact evaluates_addExpr (.cast v) type span
    · exact evaluates_fail
  | .sizeofType span type =>
    exact .ofPlace _ ((traces_requireComplete type span.first).before fun _ =>
      traces_get.before fun s => evaluates_addSize _ .int span)
  | .sizeofExpr span a =>
    exact .ofPlace _ ((traces_typeOfUnevaluated (lower_spares a)).before fun type =>
      traces_get.before fun s => evaluates_addSize _ .int span)

/-- The code of the arguments of a call leads through their course. -/
theorem lowerArgs_evaluates (args : List Expr) (params : List CType) :
    Evaluates T (lowerArgs args params) (followArgs T.oracle args) [] fun vs => vs := by
  unfold lowerArgs followArgs
  match args with
  | [] => exact evaluates_pure rfl
  | a :: rest =>
    exact (lower_traces a).passed [] fun e => (evaluates_passArgument e _).bind fun v =>
      ((lowerArgs_evaluates rest _).after [v]).finish fun more => evaluates_pure rfl

end

end PathScout

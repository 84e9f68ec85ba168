import PathScout.Proofs.TypedPrograms

/-!
# Types of built expressions

Every form of expression is built of typed operands, and gets the type that its operation gives.

* `Lowered.Typed`: both ways of building an expression give typed results.
* `Lower.types_lowerBinary`, `types_lowerConditional`, `types_lowerCall`: one lemma for each form.
* `lower_typed`: all expressions.
-/

namespace PathScout

open Lower List Bool

/-- Built for its value the expression has a type, and built as a condition it is a scalar. -/
structure Lowered.Typed (x : Lowered) : Prop where
  place {s : Lowering} : s.Typed → Types x.place s fun e p => ∃ t, p.HasType e t
  branch {s : Lowering} (yes no : BlockId) (kind : BranchKind) : s.Typed →
    Types (x.branch yes no kind) s fun _ _ => True

namespace Lowered.Typed

variable {x : Lowered} {s : Lowering}

theorem value (h : x.Typed) (hs : s.Typed) : Types x.value s fun e p => ∃ t, p.HasType e t :=
  (h.place hs).bind fun _ _ _ hs1 ⟨_, he⟩ => types_toValue hs1 he

theorem target (h : x.Typed) (l : Location) (hs : s.Typed) :
    Types (x.target l) s fun e p => ∃ t, p.HasPlace e t := by
  refine (h.place hs).bind fun e s1 _ hs1 ⟨t, he⟩ => ?_
  obtain ⟨x, hx, rfl⟩ := he
  exact types_exprOf_bind hx
    (types_ite (fun hplace => types_pure hs1 ⟨_, x, hx, hplace, rfl⟩) fun _ => types_fail)

theorem ofPlace (l : Location) {act : Lower ExprId}
    (h : ∀ {s : Lowering}, s.Typed → Types act s fun e p => ∃ t, p.HasType e t) :
    (Lowered.ofPlace l act).Typed where
  place := h
  branch yes no kind hs := by
    refine (h hs).bind fun e s1 _ hs1 ⟨t, he⟩ => ?_
    refine (types_toValue hs1 he).bind fun v s2 _ hs2 ⟨u, hv⟩ => ?_
    refine (types_requireScalar hs2 hv).bind fun _ s3 hw3 hs3 ⟨_, hscalar⟩ => ?_
    exact types_terminate hs3 ⟨u, hv.mono hw3.program, hscalar⟩

end Lowered.Typed

namespace Lower

section

variable {s : Lowering} {left right a : Lowered} {span : Span} {next : BlockId} {e : ExprId}
  {t : CType}

theorem CType.eq_pointer {t : CType} (h : t.isPointer = true) : ∃ u, t = .pointer u := by
  cases t <;> first | exact ⟨_, rfl⟩ | cases h

theorem types_mergeInto {value : MergeValue} (hs : s.Typed)
    (h : Element.Typed s.program s.returns (.merge e value)) :
    Types (mergeInto e value next) s fun _ _ => True :=
  (types_pushElement hs h).bind fun _ _ _ hs1 _ => types_jump hs1

theorem types_mergeInt {n : Int} (hs : s.Typed) (h : s.program.HasJoin e .int) :
    Types (mergeInto e (.int n) next) s fun _ _ => True := types_mergeInto hs h

theorem types_mergeExpr {v : ExprId} (hs : s.Typed) (h : s.program.HasJoin e t)
    (hv : s.program.HasType v t) : Types (mergeInto e (.expr v) next) s fun _ _ => True :=
  types_mergeInto hs ⟨t, h, hv⟩

/-- A binary operator on values of all types that it takes. -/
theorem types_lowerBinary (op : BinaryOp) (hl : left.Typed) (hr : right.Typed) (hs : s.Typed) :
    Types (lowerBinary span op left right) s fun e p => ∃ t, p.HasType e t := by
  refine (hl.value hs).bind fun l s1 _ hs1 ⟨lt, hl⟩ => (hr.value hs1).bind fun r s2 hw2 hs2 ⟨rt, hr⟩ => ?_
  replace hl := hl.mono hw2.program
  have hadd : ∀ {s : Lowering} {op : Operation} {t : CType}, s.Typed → op.Typed s.program t →
      Types (addExpr op t span) s fun e p => ∃ t, p.HasType e t := fun hs hop =>
    (types_addValue hs hop).imp fun _ _ h => ⟨_, h⟩
  refine types_typeOf_bind hl (types_typeOf_bind hr ?_)
  refine types_ite (fun _ => ?_) fun _ => types_ite (fun hcompare => ?_) fun _ =>
    types_ite (fun hoffset => ?_) fun _ => types_ite (fun hoffset => ?_) fun _ =>
    types_ite (fun hdistance => ?_) fun _ => types_fail
  · refine (types_convert hs2 hl).bind fun l s3 hw3 hs3 hl => ?_
    refine (types_convert hs3 (hr.mono hw3.program)).bind fun r s4 hw4 hs4 hr => ?_
    exact hadd hs4 (.arithmetic (hl.mono hw4.program) hr)
  · refine types_ite (fun hboth => ?_) fun _ => types_ite (fun hleft => ?_) fun _ =>
      types_ite (fun hright => ?_) fun _ => types_fail
    · rw [and_eq_true] at hboth
      obtain ⟨u, rfl⟩ := CType.eq_pointer hboth.1
      obtain ⟨v, rfl⟩ := CType.eq_pointer hboth.2
      exact hadd hs2 (.comparison hcompare hl hr)
    · obtain ⟨u, rfl⟩ := CType.eq_pointer (and_eq_true_iff.1 hleft).1
      refine (types_convert hs2 hr).bind fun r s3 hw3 hs3 hr => ?_
      exact hadd hs3 (.comparison hcompare (hl.mono hw3.program) hr)
    · obtain ⟨u, rfl⟩ := CType.eq_pointer (and_eq_true_iff.1 hright).2
      refine (types_convert hs2 hl).bind fun l s3 hw3 hs3 hl => ?_
      exact hadd hs3 (.comparison hcompare hl (hr.mono hw3.program))
  · simp only [and_eq_true, or_eq_true, decide_eq_true_eq] at hoffset
    obtain ⟨u, rfl⟩ := CType.eq_pointer hoffset.1.2
    refine (types_convert hs2 hr).bind fun r s3 hw3 hs3 hr => ?_
    exact hadd hs3 (.offset hoffset.1.1 (hl.mono hw3.program) hr)
  · simp only [and_eq_true, decide_eq_true_eq] at hoffset
    obtain ⟨⟨rfl, -⟩, hpointer⟩ := hoffset
    obtain ⟨u, rfl⟩ := CType.eq_pointer hpointer
    refine (types_convert hs2 hl).bind fun l s3 hw3 hs3 hl => ?_
    exact hadd hs3 (.offsetLeft hl (hr.mono hw3.program))
  · simp only [and_eq_true, decide_eq_true_eq] at hdistance
    obtain ⟨⟨rfl, hpointer⟩, hpointer'⟩ := hdistance
    obtain ⟨u, rfl⟩ := CType.eq_pointer hpointer
    obtain ⟨v, rfl⟩ := CType.eq_pointer hpointer'
    exact hadd hs2 (.distance hl hr)

/-! ### Branches that are joined again -/

theorem types_branchLogical (op : LogicalOp) (yes no : BlockId) (kind : BranchKind)
    (hl : left.Typed) (hr : right.Typed) (hs : s.Typed) :
    Types (branchLogical op left right yes no kind) s fun _ _ => True := by
  refine (types_newBlock hs).bind fun second s1 _ hs1 _ => ?_
  have hrest : ∀ {s : Lowering}, s.Typed → Types (do
      setCurrent (some second)
      right.branch yes no kind) s fun _ _ => True := fun hs =>
    (types_setCurrent hs).bind fun _ _ _ hs' _ => hr.branch yes no kind hs'
  cases op with
  | and | or => exact (hl.branch _ _ _ hs1).bind fun _ _ _ hs' _ => hrest hs'

theorem types_lowerLogical (op : LogicalOp) (hl : left.Typed) (hr : right.Typed) (hs : s.Typed) :
    Types (lowerLogical span op left right) s fun e p => ∃ t, p.HasType e t := by
  refine (types_addDetached hs .join).bind fun join s1 _ hs1 hjoin => ?_
  replace hjoin : s1.program.HasJoin join .int := ⟨_, hjoin, rfl, rfl⟩
  refine (types_newBlock hs1).bind fun second s2 hw2 hs2 _ => ?_
  refine (types_newBlock hs2).bind fun yes s3 hw3 hs3 _ => ?_
  refine (types_newBlock hs3).bind fun no s4 hw4 hs4 _ => ?_
  refine (types_newBlock hs4).bind fun next s5 hw5 hs5 _ => ?_
  have hw := ((hw2.trans hw3).trans hw4).trans hw5
  have hrest : ∀ {s' : Lowering}, s1.Widens s' → s'.Typed →
      Types (joinSecond right join second yes no next) s' fun e p => ∃ t, p.HasType e t := fun hw' hs' => by
    refine (types_setCurrent hs').bind fun _ t1 hv1 ht1 _ => ?_
    refine (hr.branch _ _ _ ht1).bind fun _ t2 hv2 ht2 _ => ?_
    have hv := (hw'.trans hv1).trans hv2
    refine (types_setCurrent ht2).bind fun _ t3 hv3 ht3 _ => ?_
    have hjoin3 := hjoin.mono (hv.trans hv3).program
    refine (types_mergeInt ht3 hjoin3).bind fun _ t4 hv4 ht4 _ => ?_
    refine (types_setCurrent ht4).bind fun _ t5 hv5 ht5 _ => ?_
    have hjoin5 := hjoin3.mono (hv4.trans hv5).program
    refine (types_mergeInt ht5 hjoin5).bind fun _ t6 hv6 ht6 _ => ?_
    refine (types_setCurrent ht6).bind fun _ t7 hv7 ht7 _ => ?_
    have hjoin7 := hjoin5.mono (hv6.trans hv7).program
    have hel : Element.Typed t7.program t7.returns (.expr join false) := ⟨_, hjoin7.hasType⟩
    refine (types_pushElement ht7 hel).bind fun _ t8 hv8 ht8 _ => ?_
    exact types_pure ht8 ⟨_, (hjoin7.mono hv8.program).hasType⟩
  cases op with
  | and | or => exact (hl.branch _ _ _ hs5).bind fun _ _ hw' hs' _ => hrest (hw.trans hw') hs'

theorem types_lowerConditional {cond yes no : Lowered} (hc : cond.Typed) (hy : yes.Typed)
    (hn : no.Typed) (hs : s.Typed) :
    Types (lowerConditional span cond yes no) s fun e p => ∃ t, p.HasType e t := by
  refine (types_newBlock hs).bind fun yesBlock s1 _ hs1 _ => ?_
  refine (types_newBlock hs1).bind fun noBlock s2 _ hs2 _ => ?_
  refine (types_newBlock hs2).bind fun next s3 _ hs3 _ => ?_
  refine (hc.branch _ _ _ hs3).bind fun _ s4 _ hs4 _ => ?_
  refine (types_setCurrent hs4).bind fun _ s5 _ hs5 _ => ?_
  refine (hy.value hs5).bind fun y s6 _ hs6 ⟨yt, hy⟩ => types_get_bind ?_
  refine (types_setCurrent hs6).bind fun _ s7 hw7 hs7 _ => ?_
  refine (hn.value hs7).bind fun n s8 hw8 hs8 ⟨nt, hn⟩ => types_get_bind ?_
  have hy8 := hy.mono (hw7.trans hw8).program
  refine types_typeOf_bind hy8 (types_typeOf_bind hn ?_)
  split
  · exact types_fail
  · next type _ =>
    refine (types_addDetached hs8 .join).bind fun join s9 hw9 hs9 hjoin => ?_
    replace hjoin : s9.program.HasJoin join type := ⟨_, hjoin, rfl, rfl⟩
    refine (types_setCurrent hs9).bind fun _ t1 hv1 ht1 _ => ?_
    have hw1 := hw9.trans hv1
    refine (types_convert ht1 (hy8.mono hw1.program)).bind fun y t2 hv2 ht2 hy => ?_
    have hjoin2 := hjoin.mono (hv1.trans hv2).program
    refine (types_mergeExpr ht2 hjoin2 hy).bind fun _ t3 hv3 ht3 _ => ?_
    refine (types_setCurrent ht3).bind fun _ t4 hv4 ht4 _ => ?_
    have hw4 := ((hw1.trans hv2).trans hv3).trans hv4
    refine (types_convert ht4 (hn.mono hw4.program)).bind fun n t5 hv5 ht5 hn => ?_
    have hjoin5 := hjoin2.mono ((hv3.trans hv4).trans hv5).program
    refine (types_mergeExpr ht5 hjoin5 hn).bind fun _ t6 hv6 ht6 _ => ?_
    refine (types_setCurrent ht6).bind fun _ t7 hv7 ht7 _ => ?_
    have hjoin7 := hjoin5.mono (hv6.trans hv7).program
    have hel : Element.Typed t7.program t7.returns (.expr join false) := ⟨_, hjoin7.hasType⟩
    refine (types_pushElement ht7 hel).bind fun _ t8 hv8 ht8 _ => ?_
    exact types_pure ht8 ⟨_, (hjoin7.mono hv8.program).hasType⟩

/-! ### Operators and places -/

theorem types_integerOp {op : ValueOp} (hop : op ≠ .not) (ha : a.Typed) (hs : s.Typed) : Types (do
      let v ← requireInteger (← a.value)
      addExpr (.unary op v) .int span) s fun e p => ∃ t, p.HasType e t := by
  refine (ha.value hs).bind fun v s1 _ hs1 ⟨t, hv⟩ => ?_
  refine (types_requireInteger hs1 hv).bind fun v s2 _ hs2 hv => ?_
  exact (types_addValue hs2 (.sign hop hv)).imp fun _ _ h => ⟨_, h⟩

theorem types_lowerUnary_step (l : Location) (increment before : Bool) (ha : a.Typed) (hs : s.Typed) :
    Types (lowerUnary.step span a l increment before) s fun e p => ∃ t, p.HasType e t := by
  refine (ha.target l hs).bind fun e s1 _ hs1 ⟨t, he⟩ => ?_
  refine (types_requireScalar hs1 he.hasType).bind fun _ s2 hw2 hs2 ⟨_, hscalar⟩ => ?_
  have he2 := he.mono hw2.program
  refine types_typeOf_bind he2.hasType ?_
  exact (types_addValue hs2 (.incDec he2 hscalar)).imp fun _ _ h => ⟨_, h⟩

theorem types_lowerUnary (op : UnaryOp) (l : Location) (ha : a.Typed) (hs : s.Typed) :
    Types (lowerUnary span op a l) s fun e p => ∃ t, p.HasType e t := by
  cases op with
  | neg | bitNot => exact types_integerOp (fun h => nomatch h) ha hs
  | not =>
    refine (ha.value hs).bind fun v s1 _ hs1 ⟨t, hv⟩ => ?_
    refine (types_requireScalar hs1 hv).bind fun _ s2 hw2 hs2 ⟨_, hscalar⟩ => ?_
    exact (types_addValue hs2 (.not (hv.mono hw2.program) hscalar)).imp fun _ _ h => ⟨_, h⟩
  | deref =>
    refine (ha.value hs).bind fun v s1 _ hs1 ⟨t, hv⟩ => types_typeOf_bind hv ?_
    cases t with
    | pointer u =>
      refine types_ite (fun _ => types_fail) fun _ => ?_
      exact (types_addValue hs1 (.deref hv)).imp fun _ _ h => ⟨_, h⟩
    | void | char | int | array | struct => exact types_fail
  | addrOf =>
    refine (ha.target l hs).bind fun e s1 _ hs1 ⟨t, he⟩ => types_typeOf_bind he.hasType ?_
    exact (types_addValue hs1 (.addrOf he)).imp fun _ _ h => ⟨_, h⟩
  | preInc | preDec | postInc | postDec => exact types_lowerUnary_step l _ _ ha hs

theorem types_lowerAssign (op : Option BinaryOp) (l : Location) (hl : left.Typed) (hr : right.Typed)
    (hs : s.Typed) :
    Types (lowerAssign span op left right l) s fun e p => ∃ t, p.HasType e t := by
  refine (hl.target l hs).bind fun target s1 _ hs1 ⟨t, htarget⟩ => ?_
  refine types_typeOf_bind htarget.hasType (types_ite (fun _ => types_fail) fun harray => ?_)
  refine (hr.value hs1).bind fun v s2 hw2 hs2 ⟨u, hv⟩ => ?_
  have htarget2 := htarget.mono hw2.program
  cases op with
  | none =>
    refine (types_convert hs2 hv).bind fun v s3 hw3 hs3 hv => ?_
    have hop := Operation.Typed.assign (htarget2.mono hw3.program) (eq_false_iff.2 harray) hv
    exact (types_addValue hs3 hop).imp fun _ _ h => ⟨_, h⟩
  | some op =>
    refine (types_requireScalar hs2 htarget2.hasType).bind fun _ s3 hw3 hs3 ⟨_, hscalar⟩ => ?_
    have hv3 := hv.mono hw3.program
    refine types_ite (fun _ => types_typeOf_bind hv3 types_fail) fun hallowed => ?_
    refine (types_requireInteger hs3 hv3).bind fun v s4 hw4 hs4 hv => ?_
    have hop : Operation.Typed s4.program (.compound op target v) t :=
      .compound ((htarget2.mono hw3.program).mono hw4.program) hscalar (fun hpointer => by
        simpa [hpointer, imp_iff_not_or] using hallowed) hv
    exact (types_addValue hs4 hop).imp fun _ _ h => ⟨_, h⟩

theorem types_lowerIndex (hl : left.Typed) (hr : right.Typed) (hs : s.Typed) :
    Types (lowerIndex span left right) s fun e p => ∃ t, p.HasType e t := by
  refine (hl.value hs).bind fun b s1 _ hs1 hb => (hr.value hs1).bind fun i s2 hw2 hs2 hi => ?_
  obtain ⟨bt, hb⟩ := hb
  obtain ⟨it, hi⟩ := hi
  replace hb := hb.mono hw2.program
  refine types_typeOf_bind hb (types_typeOf_bind hi ?_)
  -- the pointer is the operand that is not the index, on either side
  have hsides : ∃ b' i' bt' it', s2.program.HasType b' bt' ∧ s2.program.HasType i' it' ∧
      (if bt.isInteger && it.isPointer then (i, b, it) else (b, i, bt)) = (b', i', bt') := by
    split
    · exact ⟨i, b, it, bt, hi, hb, rfl⟩
    · exact ⟨b, i, bt, it, hb, hi, rfl⟩
  obtain ⟨b, i, bt, it, hb, hi, hsides⟩ := hsides
  rw [hsides]
  cases bt with
  | pointer element =>
    refine types_ite (fun _ => types_fail) fun _ => ?_
    refine (types_requireInteger hs2 hi).bind fun i s3 hw3 hs3 hi => ?_
    exact (types_addValue hs3 (.index (hb.mono hw3.program) hi)).imp fun _ _ h => ⟨_, h⟩
  | void | char | int | array | struct => exact types_fail

theorem types_lowerMember (baseSpan : Span) (field : String) (arrow : Bool) (ha : a.Typed)
    (hs : s.Typed) :
    Types (lowerMember span a baseSpan field arrow) s fun e p => ∃ t, p.HasType e t := by
  unfold lowerMember
  refine Types.bind (?_ : Types _ s fun e p => ∃ t, p.HasPlace e t) fun object s1 _ hs1 he => ?_
  · refine types_ite (fun _ => ?_) fun _ => ha.target _ hs
    refine (ha.value hs).bind fun v s1 _ hs1 hv => ?_
    obtain ⟨t, hv⟩ := hv
    refine types_typeOf_bind hv ?_
    split
    · next name hpointee =>
      cases t with
      | pointer u =>
        cases hpointee
        exact (types_addExpr hs1 (.deref hv)).imp fun _ _ h => ⟨_, _, h, rfl, rfl⟩
      | void | char | int | array | struct => cases hpointee
    · exact types_fail
  obtain ⟨t, he⟩ := he
  refine types_typeOf_bind he.hasType ?_
  split
  · next name =>
    refine types_get_bind ?_
    dsimp only
    split
    · exact types_fail
    · next owner howner =>
      split
      · exact types_fail
      · next i hi =>
        obtain ⟨hlt, -⟩ := findIdx?_eq_some_iff_getElem.1 hi
        have hfield : s1.program.HasField name ⟨owner, i⟩ (s1.program.field ⟨owner, i⟩).type := by
          refine ⟨howner, _, getElem?_eq_getElem hlt, ?_⟩
          rw [Program.field, getElem?_eq_getElem hlt, Option.getD_some]
        exact (types_addValue hs1 (.member he hfield)).imp fun _ _ h => ⟨_, h⟩
  · exact types_fail

/-! ### Calls -/

theorem types_passArgument (param : Option CType) (hs : s.Typed) (he : s.program.HasType e t) :
    Types (passArgument e param) s fun v p => ∀ u, param = some u → p.HasType v u := by
  cases param with
  | some u =>
    refine (types_convert hs he).imp fun v p hv => ?_
    rintro _ ⟨⟩
    exact hv
  | none =>
    refine types_typeOf_bind he (types_ite (fun _ => ?_) fun _ => types_pure hs fun _ h => nomatch h)
    exact (types_convert hs he).imp fun _ _ _ _ h => nomatch h

/-- The values that are passed for parameters have their types. -/
def Passes (p : Program) (params : List CType) (args : List ExprId) : Prop :=
  ∀ (i : Nat) t arg, params[i]? = some t → args[i]? = some arg → p.HasType arg t

theorem types_lowerCall (callee : String) {args : List Expr}
    (hargs : ∀ {s : Lowering} params, s.Typed → Types (lowerArgs args params) s fun vs p =>
      vs.length = args.length ∧ Passes p params vs) (hs : s.Typed) :
    Types (lowerCall span callee args.length (lowerArgs args)) s fun e p => ∃ t, p.HasType e t := by
  refine (types_resolveFunction hs).bind fun f s1 _ hs1 hf => types_get_bind ?_
  obtain ⟨g, hg⟩ := hf
  have hfunction : s1.program.function f = g := by rw [Program.function, hg, Option.getD_some]
  rw [hfunction]
  refine types_ite (fun hcount => ?_) fun _ => types_fail
  refine (hargs _ hs1).bind fun vs s2 hw2 hs2 hvs => ?_
  obtain ⟨hlength, hpasses⟩ := hvs
  obtain ⟨g', hg', -, hreturns, hparams⟩ := hw2.program.functions hg
  refine Types.imp (types_addValue hs2 ?_) fun _ _ h => ⟨_, h⟩
  rw [← hreturns]
  refine .call hg' fun i t ht => ?_
  rw [hparams] at ht
  have hlt : i < vs.length := by
    have hparam : i < g.paramTypes.length := (List.getElem?_eq_some_iff.1 ht).1
    simp only [or_eq_true, and_eq_true, beq_iff_eq, decide_eq_true_eq] at hcount
    omega
  exact ⟨vs[i], getElem?_eq_getElem hlt, hpasses i t _ ht (getElem?_eq_getElem hlt)⟩

theorem typed_reopened (hs : s.Typed) : s.reopened.Typed := by
  unfold Lowering.reopened
  split
  · next b _ =>
    have hchanged := types_changeBlock (b := b) (f := fun block => { block with terminator := none }) hs
      fun _ hc => ⟨hc.elements, fun h => by cases h⟩
    exact (hchanged () _ rfl).2.1
  · exact hs

/-- Of an expression that is not evaluated only the functions stay that it announces. -/
theorem types_typeOfUnevaluated {names : List String} (ha : a.Typed) (hspares : a.Spares names)
    (hs : s.Typed) : Types (typeOfUnevaluated a) s fun _ _ => True := fun t s' hrun => by
  obtain ⟨e, s2, hplace, -, -, rfl⟩ := of_typeOfUnevaluated hspares hrun
  obtain ⟨hwidens, -, -⟩ := ha.place hs e _ hplace
  have hkept : s.program.Widens { s.program with functions := s2.program.functions } :=
    ⟨id, id, hwidens.program.functions, rfl⟩
  have hreopened := typed_reopened hs
  rw [Lowering.reopened_eq] at hreopened ⊢
  exact ⟨⟨hkept, rfl⟩, ⟨fun x hx => (hs.exprs x hx).mono hkept,
    fun hb => (hreopened.blocks hb).mono hkept, hs.names⟩, trivial⟩

theorem types_lowerIdent (name : String) (hs : s.Typed) : Types (do
    let s ← get
    match lookup? s name with
    | some v => addExpr (.var v) (s.program.var v).type span
    | none => fail (.unknownIdentifier name) span.first) s fun e p => ∃ t, p.HasType e t := by
  refine types_get_bind ?_
  split
  · next v hv => exact (types_addValue hs (.var (hs.of_lookup hv))).imp fun _ _ h => ⟨_, h⟩
  · exact types_fail

end

end Lower

mutual

/-- **Building an expression**, in both ways. -/
theorem lower_typed (e : Expr) : (lower e).Typed := by
  have hleaf {op : Operation} {t : CType} (span : Span)
      (hop : ∀ {s : Lowering}, s.Typed → op.Typed s.program t) :
      ∀ {s : Lowering}, s.Typed → Types (addExpr op t span) s fun e p => ∃ t, p.HasType e t :=
    fun hs => (types_addValue hs (hop hs)).imp fun _ _ h => ⟨_, h⟩
  unfold lower
  match e with
  | .int span n | .char span n => exact .ofPlace _ (hleaf span fun _ => .int rfl)
  | .string span text => exact .ofPlace _ (hleaf span fun _ => .string)
  | .null span => exact .ofPlace _ (hleaf span fun _ => .null)
  | .ident span name => exact .ofPlace _ (types_lowerIdent name)
  | .binary span op l r => exact .ofPlace _ (types_lowerBinary op (lower_typed l) (lower_typed r))
  | .logical span op l r =>
    exact ⟨types_lowerLogical op (lower_typed l) (lower_typed r), fun yes no kind =>
      types_branchLogical op yes no kind (lower_typed l) (lower_typed r)⟩
  | .unary span op a => exact .ofPlace _ (types_lowerUnary op _ (lower_typed a))
  | .assign span op t v => exact .ofPlace _ (types_lowerAssign op _ (lower_typed t) (lower_typed v))
  | .conditional span c y n =>
    exact .ofPlace _ (types_lowerConditional (lower_typed c) (lower_typed y) (lower_typed n))
  | .call span callee args =>
    exact .ofPlace _ (types_lowerCall callee fun params hs => types_lowerArgs args params hs)
  | .index span b i => exact .ofPlace _ (types_lowerIndex (lower_typed b) (lower_typed i))
  | .member span b field arrow => exact .ofPlace _ (types_lowerMember _ field arrow (lower_typed b))
  | .cast span type a =>
    refine .ofPlace _ fun hs => (types_requireComplete hs).bind fun _ s1 _ hs1 _ => ?_
    refine ((lower_typed a).value hs1).bind fun v s2 _ hs2 ⟨t, hv⟩ => types_typeOf_bind hv ?_
    refine types_ite (fun hcast => ?_) fun _ => types_fail
    simp only [or_eq_true, and_eq_true] at hcast
    exact (types_addValue hs2 (.cast hv (hcast.imp_left CType.eq_void))).imp fun _ _ h => ⟨_, h⟩
  | .sizeofType span type =>
    refine .ofPlace _ fun hs => (types_requireComplete hs).bind fun _ s1 _ hs1 _ => types_get_bind ?_
    exact hleaf span (fun _ => .int rfl) hs1
  | .sizeofExpr span a =>
    refine .ofPlace _ fun hs => ?_
    refine (types_typeOfUnevaluated (lower_typed a) (lower_spares a) hs).bind fun t s1 _ hs1 _ => ?_
    refine types_get_bind ?_
    exact hleaf span (fun _ => .int rfl) hs1

theorem types_lowerArgs (args : List Expr) (params : List CType) {s : Lowering} (hs : s.Typed) :
    Types (lowerArgs args params) s fun vs p => vs.length = args.length ∧ Passes p params vs := by
  unfold lowerArgs
  match args with
  | [] => exact types_pure hs ⟨rfl, fun _ _ _ _ h => nomatch h⟩
  | a :: rest =>
    refine ((lower_typed a).value hs).bind fun v s1 _ hs1 ⟨t, hv⟩ => ?_
    refine (types_passArgument _ hs1 hv).bind fun v s2 _ hs2 hv => ?_
    refine (types_lowerArgs rest _ hs2).bind fun more s3 hw3 hs3 ⟨hlength, hmore⟩ => ?_
    refine types_pure hs3 ⟨congrArg (· + 1) hlength, fun i t arg ht harg => ?_⟩
    cases i with
    | zero =>
      cases harg
      exact (hv t (by rw [head?_eq_getElem?]; exact ht)).mono hw3.program
    | succ i => exact hmore i t arg (by rw [getElem?_tail]; exact ht) harg

end

end PathScout

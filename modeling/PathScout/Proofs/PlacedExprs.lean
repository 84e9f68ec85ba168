import PathScout.Proofs.BlockPlaces
import PathScout.Proofs.UnevaluatedOperands

/-!
# Expressions go on to higher places

Building an expression goes on to higher places below any bound, however many blocks the expression
takes. As a condition it may lead to any two blocks beyond the bound.

* `Lowered.Climbs`: both ways of building an expression go on to higher places.
* `Lower.lower_climbs`: all expressions do.
-/

namespace PathScout

open Chart Lower

/-- Both ways of building an expression go on to higher places. -/
structure Lowered.Climbs (x : Lowered) : Prop where
  place : Lower.Climbs x.place
  branch {G : Chart} {hi : ℚ} {yes no : BlockId} (kind : BranchKind) : G.Sound → G.here < hi →
    G.Beyond hi yes → G.Beyond hi no → Lays (x.branch yes no kind) G fun _ H => G.Moves hi H

namespace Lower

variable {α : Type} {e : ExprId}

/-! ### Values and types -/

theorem climbs_addExpr (op : Operation) (t : CType) (span : Span) : Climbs (addExpr op t span) :=
  (keepsFlow_addDetached op t span).climbs.bind fun e =>
    (climbs_pushElement (.expr e false)).bind fun _ => climbs_pure

theorem climbs_exprOf_bind {f : TypedExpr → Lower α} (h : ∀ a, Climbs (f a)) :
    Climbs (exprOf e >>= f) := (keepsFlow_exprOf e).climbs.bind h

theorem climbs_typeOf_bind {f : CType → Lower α} (h : ∀ t, Climbs (f t)) :
    Climbs (typeOf e >>= f) := (keepsFlow_typeOf e).climbs.bind h

theorem climbs_toValue (e : ExprId) : Climbs (toValue e) :=
  climbs_exprOf_bind fun _ => climbs_ite climbs_pure <|
    climbs_ite (climbs_addExpr _ _ _) (climbs_addExpr _ _ _)

theorem climbs_convert (e : ExprId) (target : CType) : Climbs (convert e target) :=
  climbs_exprOf_bind fun _ => climbs_ite climbs_pure <| climbs_ite (climbs_addExpr _ _ _) climbs_fail

theorem climbs_requireScalar (e : ExprId) : Climbs (requireScalar e) :=
  climbs_exprOf_bind fun _ => climbs_ite climbs_pure climbs_fail

theorem climbs_requireInteger (e : ExprId) : Climbs (requireInteger e) :=
  climbs_exprOf_bind fun _ => climbs_ite (climbs_convert _ _) climbs_fail

end Lower

namespace Lowered.Climbs

variable {x : Lowered}

theorem value (hx : x.Climbs) : Lower.Climbs x.value := hx.place.bind climbs_toValue

theorem target (hx : x.Climbs) (l : Location) : Lower.Climbs (x.target l) :=
  hx.place.bind fun _ => climbs_exprOf_bind fun _ => climbs_ite climbs_pure climbs_fail

/-- The value that decides a branch is built first, in lower places than where the branch leads. -/
theorem ofPlace (l : Location) {act : Lower ExprId} (h : Lower.Climbs act) :
    (Lowered.ofPlace l act).Climbs where
  place := h
  branch {G hi yes no} kind hG hhi hyes hno := by
    refine (h G hi hG hhi).bind fun e H hH => ?_
    refine (climbs_toValue e H hi hH.sound hH.lt).bind fun cond K hK => ?_
    refine (climbs_requireScalar cond K hi hK.sound hK.lt).bind fun _ K' hK' => ?_
    have hall := (hH.trans hK).trans hK'
    refine (lays_terminate hall.sound fun c hc => ?_).imp fun _ L hL => ?_
    · have hc' : c = yes ∨ c = no := by simpa [Terminator.successors] using hc
      rcases hc' with rfl | rfl
      · exact (hyes.extends hall.toExtends).onward hall.lt
      · exact (hno.extends hall.toExtends).onward hall.lt
    · exact hall.trans (hL.moves hall.lt)

end Lowered.Climbs

namespace Lower

variable {G H : Chart} {a left right : Lowered} {span : Span} {hi m : ℚ} {b yes no next : BlockId}
  {e join : ExprId}

/-! ### Operators -/

theorem climbs_lowerBinary (op : BinaryOp) (hl : left.Climbs) (hr : right.Climbs) :
    Climbs (lowerBinary span op left right) := by
  have hadd (op : Operation) (t : CType) : Climbs (addExpr op t span) := climbs_addExpr op t span
  refine hl.value.bind fun l => hr.value.bind fun r => ?_
  refine climbs_typeOf_bind fun lt => climbs_typeOf_bind fun rt => ?_
  refine climbs_ite ?_ <| climbs_ite ?_ <| climbs_ite ?_ <| climbs_ite ?_ <|
    climbs_ite (hadd _ _) climbs_fail
  · exact (climbs_convert l .int).bind fun _ => (climbs_convert r .int).bind fun _ => hadd _ _
  · refine climbs_ite (hadd _ _) <| climbs_ite ?_ <| climbs_ite ?_ climbs_fail
    · exact (climbs_convert r lt).bind fun _ => hadd _ _
    · exact (climbs_convert l rt).bind fun _ => hadd _ _
  · exact (climbs_convert r .int).bind fun _ => hadd _ _
  · exact (climbs_convert l .int).bind fun _ => hadd _ _

theorem climbs_lowerUnary_step (l : Location) (increment before : Bool) (ha : a.Climbs) :
    Climbs (lowerUnary.step span a l increment before) :=
  (ha.target l).bind fun t => (climbs_requireScalar t).bind fun _ =>
    climbs_typeOf_bind fun _ => climbs_addExpr _ _ _

theorem climbs_lowerUnary (op : UnaryOp) (l : Location) (ha : a.Climbs) :
    Climbs (lowerUnary span op a l) := by
  cases op with
  | neg | bitNot =>
    exact ha.value.bind fun v => (climbs_requireInteger v).bind fun _ => climbs_addExpr _ _ _
  | not => exact ha.value.bind fun v => (climbs_requireScalar v).bind fun _ => climbs_addExpr _ _ _
  | deref =>
    refine ha.value.bind fun v => climbs_typeOf_bind fun t => ?_
    split
    · exact climbs_ite climbs_fail (climbs_addExpr _ _ _)
    · exact climbs_fail
  | addrOf => exact (ha.target l).bind fun t => climbs_typeOf_bind fun _ => climbs_addExpr _ _ _
  | preInc | preDec | postInc | postDec => exact climbs_lowerUnary_step l _ _ ha

theorem climbs_lowerAssign (op : Option BinaryOp) (l : Location) (hl : left.Climbs)
    (hr : right.Climbs) : Climbs (lowerAssign span op left right l) := by
  refine (hl.target l).bind fun t => climbs_typeOf_bind fun type => ?_
  refine climbs_ite climbs_fail (hr.value.bind fun v => ?_)
  cases op with
  | none => exact (climbs_convert v type).bind fun _ => climbs_addExpr _ _ _
  | some op =>
    refine (climbs_requireScalar t).bind fun _ => climbs_ite ?_ ?_
    · exact climbs_typeOf_bind fun _ => climbs_fail
    · exact (climbs_requireInteger v).bind fun _ => climbs_addExpr _ _ _

theorem climbs_lowerIndex (hl : left.Climbs) (hr : right.Climbs) :
    Climbs (lowerIndex span left right) := by
  refine hl.value.bind fun b => hr.value.bind fun i => ?_
  refine climbs_typeOf_bind fun bt => climbs_typeOf_bind fun it => ?_
  dsimp only
  split
  · exact climbs_ite climbs_fail <| (climbs_requireInteger _).bind fun _ => climbs_addExpr _ _ _
  · exact climbs_fail

theorem climbs_lowerMember (baseSpan : Span) (field : String) (arrow : Bool) (ha : a.Climbs) :
    Climbs (lowerMember span a baseSpan field arrow) := by
  unfold lowerMember
  refine Climbs.bind (climbs_ite ?_ (ha.target _)) fun object => climbs_typeOf_bind fun t => ?_
  · refine ha.value.bind fun v => climbs_typeOf_bind fun t => ?_
    split
    · exact climbs_addExpr _ _ _
    · exact climbs_fail
  · split
    · refine climbs_get_bind fun s => ?_
      dsimp only
      split
      · exact climbs_fail
      · split
        · exact climbs_fail
        · exact climbs_addExpr _ _ _
    · exact climbs_fail

/-! ### Branches that are joined again -/

/-- The second operand of a condition is built in a block of its own, above the first. -/
theorem lays_secondOperand {second : BlockId} (kind : BranchKind) (hr : right.Climbs) (hG : G.Around m H)
    (hle : G.here ≤ m) (hhi : m < hi) (hsecond : H.At second m) (hyes : H.Beyond hi yes)
    (hno : H.Beyond hi no) :
    Lays (do
      setCurrent (some second)
      right.branch yes no kind) H fun _ K => G.Moves hi K := by
  refine (lays_enter hG.sound hsecond).bind fun _ K hK => ?_
  refine (hr.branch kind hK.sound (hK.here.trans_lt hhi) (hyes.extends hK.toExtends)
    (hno.extends hK.toExtends)).imp fun _ L hL => ?_
  exact (hG.enters hK).then_moves hL hK.here.ge (hle.trans hK.here.ge)

theorem lays_branchLogical (op : LogicalOp) (kind : BranchKind) (hl : left.Climbs)
    (hr : right.Climbs) (hG : G.Sound) (hhi : G.here < hi) (hyes : G.Beyond hi yes)
    (hno : G.Beyond hi no) :
    Lays (branchLogical op left right yes no kind) G fun _ H => G.Moves hi H := by
  obtain ⟨m, hm, hmhi⟩ := exists_between hhi
  refine (lays_openAt hG m).bind fun second H ⟨hH, hsecond⟩ => ?_
  replace hyes := hyes.extends hH.toExtends
  replace hno := hno.extends hH.toExtends
  have hm' : H.here < m := hH.here.trans_lt hm
  have hrest {K : Chart} (hK : H.Moves m K) :=
    (lays_secondOperand kind hr ((Around.refl hH.sound).moves hK le_rfl) hm'.le hmhi
      (hK.at_mono hsecond) (hyes.extends hK.toExtends) (hno.extends hK.toExtends)).imp
        fun _ _ hL => hH.then_moves hL
  cases op with
  | and =>
    exact (hl.branch .logicalAnd hH.sound hm' (hsecond.beyond le_rfl) (hno.mono hmhi.le)).bind
      fun _ K hK => hrest hK
  | or =>
    exact (hl.branch .logicalOr hH.sound hm' (hyes.mono hmhi.le) (hsecond.beyond le_rfl)).bind
      fun _ K hK => hrest hK

theorem lays_mergeInto {value : MergeValue} (hG : G.Sound) (hhi : G.here < hi) (hnext : G.Beyond hi next) :
    Lays (mergeInto join value next) G fun _ H => G.Moves hi H := by
  refine (climbs_pushElement _ G hi hG hhi).bind fun _ H hH => ?_
  refine (lays_jump hH.sound ((hnext.extends hH.toExtends).onward hH.lt)).imp fun _ K hK => ?_
  exact hH.trans (hK.moves hH.lt)

/-- One of the ways that are joined again: it goes on below the common block. -/
theorem lays_way {α β : Type} {cur : Option BlockId} (act : Lower α) (value : α → MergeValue)
    {rest : Lower β} {post : β → Chart → Prop} (hG : G.Around hi H)
    (hcur : ∀ b, cur = some b → ∃ y ≤ m, H.At b y) (hm : m < hi) (hact : Climbs act)
    (hnext : H.Beyond hi next) (hrest : ∀ K, H.Extends K → G.Around hi K → Lays rest K post) :
    Lays (do
      setCurrent cur
      let a ← act
      mergeInto join (value a) next
      rest) H post := by
  refine (lays_resume hG.sound hcur).bind fun _ K hK => ?_
  refine (hact K hi hK.sound (hK.here.trans_lt hm)).bind fun a L hL => ?_
  have hext := hK.toExtends.trans hL.toExtends
  refine (lays_mergeInto hL.sound hL.lt (hnext.extends hext)).bind fun _ M hM => ?_
  exact hrest M (hext.trans hM.toExtends) (((hG.enters hK).moves hL le_rfl).moves hM le_rfl)

/-- The joined expression is evaluated in the common block. -/
theorem lays_finishJoin (hG : G.Around m H) (hle : G.here ≤ m) (hhi : m < hi) (hnext : H.At next m) :
    Lays (do
      setCurrent (some next)
      pushElement (.expr join false)
      return join) H fun _ K => G.Moves hi K := by
  refine (lays_enter hG.sound hnext).bind fun _ K hK => ?_
  refine (climbs_pushElement _ K hi hK.sound (hK.here.trans_lt hhi)).bind fun _ L hL => lays_pure ?_
  exact (hG.enters hK).then_moves hL hK.here.ge (hle.trans hK.here.ge)

theorem climbs_lowerLogical (op : LogicalOp) (hl : left.Climbs) (hr : right.Climbs) :
    Climbs (lowerLogical span op left right) := fun G hi hG hhi => by
  obtain ⟨x, h0, hxhi⟩ := exists_between hhi
  obtain ⟨y, hxy, hyhi⟩ := exists_between hxhi
  obtain ⟨z, hyz, hzhi⟩ := exists_between hyhi
  refine ((keepsFlow_addDetached _ _ _).lays hG).bind fun join G1 hG1 => ?_
  refine (lays_openAt hG1.sound x).bind fun second G2 ⟨hG2, hsecond⟩ => ?_
  refine (lays_openAt hG2.sound y).bind fun yes G3 ⟨hG3, hyes⟩ => ?_
  refine (lays_openAt hG3.sound y).bind fun no G4 ⟨hG4, hno⟩ => ?_
  refine (lays_openAt hG4.sound z).bind fun next H ⟨hH, hnext⟩ => ?_
  have hopened : G.Stays H := (((hG1.trans hG2).trans hG3).trans hG4).trans hH
  replace hsecond := hH.at_mono (hG4.at_mono (hG3.at_mono hsecond))
  replace hyes := hH.at_mono (hG4.at_mono hyes)
  replace hno := hH.at_mono hno
  have hhere : H.here < x := hopened.here.trans_lt h0
  have hrest {K : Chart} (hK : H.Moves x K) : Lays (joinSecond right join second yes no next) K
      fun _ L => G.Moves hi L := by
    unfold joinSecond
    refine Lays.bind_assoc (lays_secondOperand .operand hr ((Around.refl hH.sound).moves hK le_rfl)
      hhere.le hxy (hK.at_mono hsecond) ((hK.at_mono hyes).beyond le_rfl)
      ((hK.at_mono hno).beyond le_rfl)) fun _ L hL => ?_
    have hL' : H.Around z L := (Around.refl hH.sound).moves hL hyz.le
    refine lays_way (pure ()) (fun _ => .int 1) hL' (fun b hb => ?_) hyz climbs_pure
      ((hL.at_mono hnext).beyond le_rfl) fun M hM hM' => ?_
    · cases hb
      exact ⟨y, le_rfl, hL.at_mono hyes⟩
    refine lays_way (pure ()) (fun _ => .int 0) hM' (fun b hb => ?_) hyz climbs_pure
      ((hM'.at_mono hnext).beyond le_rfl) fun N hN hN' => ?_
    · cases hb
      exact ⟨y, le_rfl, hM'.at_mono hno⟩
    exact (lays_finishJoin hN' (hhere.trans (hxy.trans hyz)).le hzhi (hN'.at_mono hnext)).imp
      fun _ _ h => hopened.then_moves h
  cases op with
  | and =>
    exact (hl.branch .logicalAnd hH.sound hhere (hsecond.beyond le_rfl) (hno.beyond hxy.le)).bind
      fun _ K hK => hrest hK
  | or =>
    exact (hl.branch .logicalOr hH.sound hhere (hyes.beyond hxy.le) (hsecond.beyond le_rfl)).bind
      fun _ K hK => hrest hK

theorem climbs_lowerConditional {cond : Lowered} (hc : cond.Climbs) (hl : left.Climbs)
    (hr : right.Climbs) : Climbs (lowerConditional span cond left right) := fun G hi hG hhi => by
  obtain ⟨x, h0, hxhi⟩ := exists_between hhi
  obtain ⟨y, hxy, hyhi⟩ := exists_between hxhi
  refine (lays_openAt hG x).bind fun yes G1 ⟨hG1, hyes⟩ => ?_
  refine (lays_openAt hG1.sound x).bind fun no G2 ⟨hG2, hno⟩ => ?_
  refine (lays_openAt hG2.sound y).bind fun next H ⟨hH, hnext⟩ => ?_
  have hopened : G.Stays H := (hG1.trans hG2).trans hH
  replace hyes := hH.at_mono (hG2.at_mono hyes)
  replace hno := hH.at_mono hno
  have hhere : H.here < x := hopened.here.trans_lt h0
  refine (hc.branch .conditional hH.sound hhere (hyes.beyond le_rfl) (hno.beyond le_rfl)).bind
    fun _ K hK => ?_
  have hA : H.Around y K := (Around.refl hH.sound).moves hK hxy.le
  -- each way is built from its own block, and goes on from where it ended
  refine (lays_enter hK.sound (hK.at_mono hyes)).bind fun _ K1 hK1 => ?_
  refine (hl.value K1 y hK1.sound (hK1.here.trans_lt hxy)).bind fun yesValue K2 hK2 => lays_get_bind ?_
  replace hA := (hA.enters hK1).moves hK2 le_rfl
  refine (lays_enter hK2.sound (hA.at_mono hno)).bind fun _ K3 hK3 => ?_
  refine (hr.value K3 y hK3.sound (hK3.here.trans_lt hxy)).bind fun noValue K4 hK4 => lays_get_bind ?_
  replace hA := (hA.enters hK3).moves hK4 le_rfl
  have hyesEnd : ∀ b, K2.state.current = some b → ∃ z ≤ max K2.here K4.here, K4.At b z := fun b hb => by
    obtain ⟨z, hz, hat⟩ := hK2.sound.at_current hb
    exact ⟨z, hz.trans (le_max_left _ _), hK4.at_mono (hK3.at_mono hat)⟩
  have hnoEnd : ∀ b, K4.state.current = some b → ∃ z ≤ max K2.here K4.here, K4.At b z := fun b hb => by
    obtain ⟨z, hz, hat⟩ := hK4.sound.at_current hb
    exact ⟨z, hz.trans (le_max_right _ _), hat⟩
  have hends : max K2.here K4.here < y := max_lt hK2.lt hK4.lt
  refine ((keepsFlow_typeOf yesValue).lays hK4.sound).bind fun yt K5 hK5 => ?_
  refine ((keepsFlow_typeOf noValue).lays hK5.sound).bind fun nt K6 hK6 => ?_
  split
  · exact lays_fail
  · refine ((keepsFlow_addDetached _ _ _).lays hK6.sound).bind fun join K7 hK7 => ?_
    have hext : K4.Stays K7 := (hK5.trans hK6).trans hK7
    replace hA := hA.stays hext
    refine lays_way _ _ hA (fun b hb => ?_) hends (climbs_convert _ _) ((hA.at_mono hnext).beyond le_rfl)
      fun L hL hA => ?_
    · obtain ⟨z, hz, hat⟩ := hyesEnd b hb
      exact ⟨z, hz, hext.at_mono hat⟩
    refine lays_way _ _ hA (fun b hb => ?_) hends (climbs_convert _ _) ((hA.at_mono hnext).beyond le_rfl)
      fun M hM hA => ?_
    · obtain ⟨z, hz, hat⟩ := hnoEnd b hb
      exact ⟨z, hz, hL.at_mono (hext.at_mono hat)⟩
    exact (lays_finishJoin hA (hhere.trans hxy).le hyhi (hA.at_mono hnext)).imp
      fun _ _ h => hopened.then_moves h

/-! ### Calls and all expressions -/

theorem climbs_passArgument (param : Option CType) : Climbs (passArgument e param) := by
  cases param with
  | some t => exact climbs_convert e t
  | none => exact climbs_typeOf_bind fun t => climbs_ite (climbs_convert e .int) climbs_pure

theorem climbs_lowerCall (callee : String) (count : Nat) {lowerArgs : List CType → Lower (List ExprId)}
    (h : ∀ params, Climbs (lowerArgs params)) : Climbs (lowerCall span callee count lowerArgs) := by
  refine (keepsFlow_resolveFunction callee span.first).climbs.bind fun f => climbs_get_bind fun s => ?_
  exact climbs_ite ((h _).bind fun args => climbs_addExpr _ _ _) climbs_fail

/-- What is not evaluated leaves no blocks, and a current block without an end. -/
theorem climbs_typeOfUnevaluated {names : List String} {x : Lowered} (hx : x.Spares names) :
    Climbs (typeOfUnevaluated x) := fun G hi hG hhi t s' hrun => by
  obtain ⟨e, s1, -, -, -, rfl⟩ := of_typeOfUnevaluated hx hrun
  have hreopened : ∃ H : Chart, H.state = G.state.reopened ∧ G.Stays H := by
    unfold Lowering.reopened
    split
    · refine ⟨G.changed _ _, rfl, .changed hG (fun _ h => h) (fun _ _ _ ht => ?_), rfl, rfl⟩
      cases ht
    · exact ⟨G, rfl, .refl hG⟩
  obtain ⟨H, hstate, hH⟩ := hreopened
  have hprogram (p : Program) : H.Stays (H.withState { H.state with program := p }) :=
    ⟨.withState hH.sound ⟨rfl, rfl, rfl, rfl⟩, rfl, rfl⟩
  rw [← hstate]
  exact ⟨_, rfl, (hH.trans (hprogram _)).moves hhi⟩

mutual

/-- **Building an expression goes on to higher places.** -/
theorem lower_climbs (ex : Expr) : (lower ex).Climbs := by
  unfold lower
  match ex with
  | .int .. | .char .. | .string .. | .null .. => exact .ofPlace _ (climbs_addExpr _ _ _)
  | .ident span name =>
    refine .ofPlace _ (climbs_get_bind fun s => ?_)
    split
    · exact climbs_addExpr _ _ _
    · exact climbs_fail
  | .binary span op l r => exact .ofPlace _ (climbs_lowerBinary op (lower_climbs l) (lower_climbs r))
  | .logical span op l r =>
    exact ⟨climbs_lowerLogical op (lower_climbs l) (lower_climbs r), fun kind =>
      lays_branchLogical op kind (lower_climbs l) (lower_climbs r)⟩
  | .unary span op a => exact .ofPlace _ (climbs_lowerUnary op _ (lower_climbs a))
  | .assign span op t v => exact .ofPlace _ (climbs_lowerAssign op _ (lower_climbs t) (lower_climbs v))
  | .conditional span c y n =>
    exact .ofPlace _ (climbs_lowerConditional (lower_climbs c) (lower_climbs y) (lower_climbs n))
  | .call span callee args =>
    exact .ofPlace _ (climbs_lowerCall callee _ fun params => climbs_lowerArgs args params)
  | .index span b i => exact .ofPlace _ (climbs_lowerIndex (lower_climbs b) (lower_climbs i))
  | .member span b field arrow => exact .ofPlace _ (climbs_lowerMember _ field arrow (lower_climbs b))
  | .cast span type a =>
    refine .ofPlace _ ((keepsFlow_requireComplete _ _).climbs.bind fun _ => ?_)
    refine (lower_climbs a).value.bind fun v => climbs_typeOf_bind fun t => ?_
    exact climbs_ite (climbs_addExpr _ _ _) climbs_fail
  | .sizeofType span type =>
    refine .ofPlace _ ((keepsFlow_requireComplete _ _).climbs.bind fun _ => ?_)
    exact climbs_get_bind fun s => climbs_addExpr _ _ _
  | .sizeofExpr span a =>
    refine .ofPlace _ ((climbs_typeOfUnevaluated (lower_spares a)).bind fun t => ?_)
    exact climbs_get_bind fun s => climbs_addExpr _ _ _

theorem climbs_lowerArgs (args : List Expr) (params : List CType) : Climbs (lowerArgs args params) := by
  unfold lowerArgs
  match args with
  | [] => exact climbs_pure
  | a :: rest =>
    refine (lower_climbs a).value.bind fun v => (climbs_passArgument _).bind fun v => ?_
    exact (climbs_lowerArgs rest _).bind fun more => climbs_pure

end

end Lower

end PathScout

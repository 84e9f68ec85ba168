import PathScout.Proofs.EvaluatedSteps
import PathScout.Proofs.FoldLaws

/-!
# Constants are what they are at run time

Where the text asks for a constant, an expression made of literals is computed as it stands, with exact
words. Elsewhere it is built as code, and a path computes it step by step, wrapping at the width of `int`.
If everything in it fits `int` and no shift is too far, both ways give the same number.

* `Expr.PartOf`, `Expr.FitsInt`: the expressions for which this holds.
* `foldInts_of_constantBinary?`: one operator.
* `Expr.gives_constant`: the code of such an expression gives the number, by induction on it.
* `Expr.constant_agrees`: also cases of a switch and global variables agree with the code.
-/

namespace PathScout

open Lower List Naming Option

variable {e : Expr} {n : Int} {s : Lowering}

/-! ### One operator -/

section

variable {op : BinaryOp} {a b n m : Int}

theorem Word.ofInt?_eq_some (h : Word.ofInt? m = some n) : m = n :=
  some.inj (ite_none_right_eq_some.1 h).2

theorem Word.ofBool_mem_domain (p : Bool) : Word.ofBool p ∈ CType.int.domain := by
  cases p <;> decide

theorem foldInts_eq_wrap (hn : n ∈ CType.int.domain) (h : m = n) :
    Value.int (CType.int.wrap (Word.wrap m)) = .int n := by
  rw [h, wordWrap_of_mem hn, wrap_of_mem rfl hn]

/-- Where an operator on constants gives an `int`, it gives the same at run time, unless a shift is too
far. -/
theorem foldInts_of_constantBinary? (h : Expr.constantBinary? op a b = some n)
    (hn : n ∈ CType.int.domain) (hshift : op = .shl ∨ op = .shr → 0 ≤ b ∧ b < 32) :
    foldInts op a b .int = .int n := by
  have hwrap : CType.int.wrap n = n := wrap_of_mem rfl hn
  cases op with
  | add | sub | mul => exact foldInts_eq_wrap hn (Word.ofInt?_eq_some h)
  | div =>
    obtain ⟨hb, hdiv⟩ := ite_none_left_eq_some.1 h
    rw [foldInts, if_neg hb]
    exact foldInts_eq_wrap hn (Word.ofInt?_eq_some hdiv)
  | rem =>
    obtain ⟨hb, hrem⟩ := ite_none_left_eq_some.1 h
    cases hrem
    rw [foldInts, if_neg fun hzero => hb (.inl hzero)]
    exact congrArg Value.int hwrap
  | shl | shr =>
    obtain ⟨hlo, hhi⟩ := hshift (by simp)
    obtain ⟨-, hplaces⟩ := ite_none_right_eq_some.1 h
    cases hplaces
    have hwidth : ¬(b < 0 ∨ ((CType.int.bitWidth?.getD 64 : Nat) : Int) ≤ b) := by
      rintro (hneg | hfar)
      · omega
      · exact absurd hfar (not_le.2 hhi)
    rw [foldInts, if_neg hwidth]
    exact congrArg Value.int hwrap
  | bitAnd | bitOr | bitXor | eq | ne | lt | le | gt | ge =>
    cases h
    exact congrArg Value.int hwrap

/-- A divisor of a constant is not zero. -/
theorem ne_zero_of_constantBinary? (h : Expr.constantBinary? op a b = some n)
    (hop : Division.divides op = true) : b ≠ 0 := by
  rintro rfl
  cases op with
  | div | rem => simp [Expr.constantBinary?] at h
  | _ => cases hop

/-- The complement is the exclusive disjunction with `-1`. -/
theorem Word.lxor_neg_one (ha : a ∈ CType.int.domain) : Word.lxor a (-1) = Word.lnot a := by
  obtain ⟨hlo, hhi⟩ : -2147483648 ≤ a ∧ a ≤ 2147483647 := by
    simpa [Interval.mem_def, CType.domain] using ha
  have hones : BitVec.ofInt 64 (-1) = BitVec.allOnes 64 := by decide
  have hone : (1#64).toInt = 1 := by decide
  have hword : ∀ m : Int, -2147483648 ≤ m → m ≤ 2147483648 → m.bmod (2 ^ 64) = m := fun m hlo hhi =>
    Int.bmod_eq_of_le (by norm_num; omega) (by norm_num; omega)
  rw [Word.lxor, hones, BitVec.xor_allOnes, BitVec.not_eq_neg_add, BitVec.toInt_sub, ← BitVec.ofInt_neg,
    BitVec.toInt_ofInt, hone, hword (-a) (by omega) (by omega), hword (-a - 1) (by omega) (by omega)]
  rfl

end

/-! ### Constant expressions -/

namespace Expr

variable {a e : Expr}

/-- The first expression is the second one, or an operand in it. -/
inductive PartOf (a : Expr) : Expr → Prop where
  | self : PartOf a a
  | operand {e : Expr} {span : Span} {op : UnaryOp} : PartOf a e → PartOf a (.unary span op e)
  | left {l r : Expr} {span : Span} {op : BinaryOp} : PartOf a l → PartOf a (.binary span op l r)
  | right {l r : Expr} {span : Span} {op : BinaryOp} : PartOf a r → PartOf a (.binary span op l r)

/-- The values of all parts of the expression fit `int`, and all shifts are by less than its width. -/
structure FitsInt (e : Expr) : Prop where
  value {a : Expr} {n : Int} : a.PartOf e → a.constant? = some n → n ∈ CType.int.domain
  places {span : Span} {op : BinaryOp} {l r : Expr} {k : Int} : PartOf (.binary span op l r) e →
    op = .shl ∨ op = .shr → r.constant? = some k → 0 ≤ k ∧ k < 32

theorem PartOf.trans {b : Expr} (h : a.PartOf b) (h' : b.PartOf e) : a.PartOf e := by
  induction h' with
  | self => exact h
  | operand _ ih => exact .operand ih
  | left _ ih => exact .left ih
  | right _ ih => exact .right ih

theorem FitsInt.of_partOf (h : e.FitsInt) (ha : a.PartOf e) : a.FitsInt :=
  ⟨fun hb => h.value (hb.trans ha), fun hb => h.places (hb.trans ha)⟩

end Expr

/-! ### The code of a constant expression -/

section

variable {s s' s'' : Lowering} {x y : ExprId} {n a b : Int} {span : Span}

/-- The code gives the expression a number as its value, of type `int`. -/
abbrev Lowering.GivesInt (s : Lowering) (x : ExprId) (s' : Lowering) (n : Int) : Prop :=
  s.Gives x s' .int fun _ v => v = .int n

open Lowering

/-- A literal is built for its number. -/
theorem Lowering.exists_givesInt_literal {e : Expr} (hs : s.Placed)
    (he : lower e = .ofPlace span.first (Lower.addExpr (.int n) .int span)) :
    ∃ x s', (lower e).value s = .ok (x, s') ∧ s.GivesInt x s' (CType.int.wrap n) := by
  obtain ⟨s', hadd, hgives⟩ := (Brings.refl hs).gives (P := fun _ v => v = .int (CType.int.wrap n))
    (.int n) .int span rfl rfl fun f u c hx _ _ => by
      refine ⟨trivial, _, c, ?_, id, rfl⟩
      simp only [State.evaluate?, Naming.bind_apply, Naming.query_apply, hx]
      rfl
  exact ⟨_, s', hgives.value_eq_ok (by rw [he]; exact hadd), hgives⟩

/-- A sign or a complement of a number. -/
theorem Lowering.GivesInt.exists_unary {op : ValueOp} (h : s.GivesInt x s' a) (span : Span)
    (hfold : foldUnary op a = .int n) :
    ∃ s'', Lower.addExpr (.unary op x) .int span s' = .ok (⟨s'.program.exprs.size⟩, s'') ∧
      s.GivesInt ⟨s'.program.exprs.size⟩ s'' n := by
  refine h.brings.gives _ _ _ rfl rfl fun f u c hx hc hvalue => ⟨trivial, .int n, c, ?_, id, rfl⟩
  simp only [State.evaluate?, Naming.bind_apply, Naming.query_apply, hx, hvalue]
  rw [← hfold]
  cases op <;> rfl

/-- A sign or a complement is built for the number. -/
theorem Lowering.GivesInt.exists_lowerUnary {op : UnaryOp} {op' : ValueOp} {operand : Lowered}
    (h : s.GivesInt x s' a) (hvalue : operand.value s = .ok (x, s')) (span : Span)
    (hop : op = .neg ∧ op' = .neg ∨ op = .bitNot ∧ op' = .bitNot)
    (hfold : foldUnary op' a = .int n) :
    ∃ y s'', (∀ location, lowerUnary span op operand location s = .ok (y, s'')) ∧
      s.GivesInt y s'' n := by
  obtain ⟨s'', hadd, hgives⟩ := h.exists_unary span hfold
  refine ⟨_, s'', fun location => ?_, hgives⟩
  rcases hop with ⟨rfl, rfl⟩ | ⟨rfl, rfl⟩ <;> exact bind_eq_ok.2 ⟨x, s', hvalue,
      bind_eq_ok.2 ⟨x, s', requireInteger_of_type h.type_eq, hadd⟩⟩

/-- An operator on two numbers, of which the second one is built after the first one. -/
theorem Lowering.GivesInt.exists_binary {op : BinaryOp} (h : s.GivesInt x s' a)
    (h' : s'.GivesInt y s'' b) (span : Span) (hfold : foldInts op a b .int = .int n)
    (hdivisor : Division.divides op = true → b ≠ 0) :
    ∃ s3, Lower.addExpr (.binary op x y) .int span s'' = .ok (⟨s''.program.exprs.size⟩, s3) ∧
      s.GivesInt ⟨s''.program.exprs.size⟩ s3 n := by
  obtain ⟨_, hemits'⟩ := h'.brings.emits
  have hboth := h.brings.trans h'.brings fun f t u c d _ hsame hx =>
    (hsame.value fun _ => h.lt).trans hx
  refine hboth.gives _ _ _ rfl rfl fun f u c hnew hc ⟨hx, hy⟩ => ?_
  refine ⟨⟨by rw [hx]; rfl, by rw [hy]; rfl, fun hop => ⟨b, hdivisor hop, hy⟩⟩, .int n, c, ?_, id, rfl⟩
  have hxtype : (c.program.expr x).type = .int := by
    rw [hc x h.le (h.lt.trans_le hemits'.size_le), hemits'.expr_eq x h.lt, h.type_eq]
  have hpointer : ¬(op = .sub ∧ CType.int.isPointer = true ∧ (c.program.expr y).type.isPointer = true) := by
    rintro ⟨-, hp, -⟩
    cases hp
  simp only [State.evaluate?, Naming.bind_apply, Naming.query_apply, hnew, hxtype, Naming.ite_apply,
    if_neg hpointer, hx, hy]
  rw [← hfold]
  rfl

end

open Lowering in
/-- **The code of a constant expression.** From any point of building, the code of the expression gives it
the number that the text says, whatever the state and the options. -/
theorem Expr.gives_constant (hn : e.constant? = some n) (hfit : e.FitsInt) (hs : s.Placed) :
    ∃ x s', (lower e).value s = .ok (x, s') ∧ s.GivesInt x s' n := by
  have hmem : n ∈ CType.int.domain := hfit.value .self hn
  fun_induction Expr.constant? e generalizing n s with
  | case1 span m | case2 span m =>
    cases hn
    obtain ⟨x, s', hvalue, hgives⟩ := exists_givesInt_literal hs (by rw [lower])
    rw [wrap_of_mem rfl hmem] at hgives
    exact ⟨x, s', hvalue, hgives⟩
  | case3 span a ih =>
    obtain ⟨k, hk, hneg⟩ := bind_eq_some_iff.1 hn
    have hfit' := hfit.of_partOf (.operand .self)
    obtain ⟨x, s', hvalue, hgives⟩ := ih hk hfit' hs (hfit'.value .self hk)
    have hfold : foldUnary .neg k = .int n :=
      foldInts_eq_wrap hmem ((Int.zero_sub k).trans (Word.ofInt?_eq_some hneg))
    obtain ⟨y, s'', hplace, hgives'⟩ := hgives.exists_lowerUnary hvalue span (.inl ⟨rfl, rfl⟩) hfold
    exact ⟨y, s'', hgives'.value_eq_ok (by rw [lower]; exact hplace a.location), hgives'⟩
  | case4 span a ih =>
    obtain ⟨k, hk, hnot⟩ := bind_eq_some_iff.1 hn
    have hfit' := hfit.of_partOf (.operand .self)
    have hkmem := hfit'.value .self hk
    obtain ⟨x, s', hvalue, hgives⟩ := ih hk hfit' hs hkmem
    have hfold : foldUnary .bitNot k = .int n := congrArg Value.int
      ((congrArg _ ((Word.lxor_neg_one hkmem).trans (some.inj hnot))).trans (wrap_of_mem rfl hmem))
    obtain ⟨y, s'', hplace, hgives'⟩ := hgives.exists_lowerUnary hvalue span (.inr ⟨rfl, rfl⟩) hfold
    exact ⟨y, s'', hgives'.value_eq_ok (by rw [lower]; exact hplace a.location), hgives'⟩
  | case5 span op l r ihl ihr =>
    obtain ⟨i, hi, hrest⟩ := bind_eq_some_iff.1 hn
    obtain ⟨j, hj, hfold⟩ := bind_eq_some_iff.1 hrest
    have hleft := hfit.of_partOf (.left .self)
    have hright := hfit.of_partOf (.right .self)
    obtain ⟨x, s1, hx, hgx⟩ := ihl hi hleft hs (hleft.value .self hi)
    obtain ⟨_, hemits⟩ := hgx.brings.emits
    obtain ⟨y, s2, hy, hgy⟩ := ihr hj hright hemits.placed (hright.value .self hj)
    obtain ⟨_, hemits'⟩ := hgy.brings.emits
    obtain ⟨s3, hadd, hgives⟩ := hgx.exists_binary hgy span
      (foldInts_of_constantBinary? hfold hmem fun hop => hfit.places .self hop hj)
      (ne_zero_of_constantBinary? hfold)
    have hxtype : (s2.program.expr x).type = .int := by rw [hemits'.expr_eq x hgx.lt, hgx.type_eq]
    refine ⟨_, s3, hgives.value_eq_ok ?_, hgives⟩
    rw [lower]
    refine bind_eq_ok.2 ⟨x, s1, hx, bind_eq_ok.2 ⟨y, s2, hy,
      bind_eq_ok.2 ⟨.int, s2, congrArg (fun t => Except.ok (t, s2)) hxtype,
        bind_eq_ok.2 ⟨.int, s2, congrArg (fun t => Except.ok (t, s2)) hgy.type_eq,
          bind_eq_ok.2 ⟨x, s2, convert_of_type hxtype,
            bind_eq_ok.2 ⟨y, s2, convert_of_type hgy.type_eq, hadd⟩⟩⟩⟩⟩⟩
  | case6 => cases hn

/-! ### Cases of a switch -/

/-- The case of a label leads to a block, for the number that the label says. -/
theorem Lower.openCases_label {cases : List SwitchCase} {s' : Lowering} {i : Nat} {location : Location}
    {label : Expr} {body : List Stmt} {r : List BlockId × List CaseTarget × Option (BlockId × Location)}
    (hrun : openCases cases s = .ok (r, s')) (hi : cases[i]? = some (location, some label, body))
    (hn : label.constant? = some n) : ∃ b, r.1[i]? = some b ∧ ⟨n, b, location⟩ ∈ r.2.1 := by
  induction cases generalizing s r i with
  | nil => cases hi
  | cons first rest ih =>
    obtain ⟨location', value, body'⟩ := first
    obtain ⟨b, s1, -, hrun⟩ := bind_eq_ok.1 hrun
    cases value with
    | some label' =>
      dsimp only at hrun
      cases hlabel : label'.constant? with
      | none =>
        rw [hlabel] at hrun
        cases hrun
      | some m =>
        rw [hlabel] at hrun
        obtain ⟨⟨bs, ts, d⟩, s2, hrest, hlast⟩ := bind_eq_ok.1 hrun
        cases hlast
        cases i with
        | zero =>
          cases hi
          cases hlabel.symm.trans hn
          exact ⟨b, rfl, mem_cons_self⟩
        | succ i =>
          obtain ⟨b', hb', hmem⟩ := ih hrest hi
          exact ⟨b', hb', mem_cons_of_mem _ hmem⟩
    | none =>
      obtain ⟨⟨bs, ts, d⟩, s2, hrest, hlast⟩ := bind_eq_ok.1 hrun
      cases hlast
      cases i with
      | zero => cases hi
      | succ i =>
        obtain ⟨b', hb', hmem⟩ := ih hrest (getElem?_cons_succ.symm.trans hi)
        exact ⟨b', hb', hmem⟩

/-- A truth value can be assumed to be itself, which tells nothing new. -/
theorem State.assume_ofBool (σ : State) (c : Catalog) (p truth : Bool) :
    σ.assume c (.int (Word.ofBool p)) truth = if p = truth then some σ else none := by
  cases p <;> cases truth <;> rfl

theorem foldInts_eq_int (m k : Int) : foldInts .eq m k .int = .int (Word.ofBool (m == k)) :=
  congrArg Value.int (wrap_of_mem rfl (Word.ofBool_mem_domain _))

/-- A switch on a known number enters the cases of this number, and the default if there are none. -/
theorem Exploring.switchStates_int (σ : State) (m : Int) (targets : List CaseTarget)
    (rest : Option State) (c : Catalog) :
    switchStates σ (.int m) .int targets rest c =
      (((targets.filter fun t => m == CType.int.wrap t.value).map fun t => (t.block, σ),
        if targets.any fun t => m == CType.int.wrap t.value then none else rest), c) := by
  induction targets generalizing rest with
  | nil => rfl
  | cons target more ih =>
    have hstep : switchStates σ (.int m) .int (target :: more) rest c =
        let matched := foldInts .eq m (CType.int.wrap target.value) .int
        let out := switchStates σ (.int m) .int more (rest.bind fun r => r.assume c matched false) c
        ((((σ.assume c matched true).map (target.block, ·)).toList ++ out.1.1, out.1.2), out.2) := rfl
    rw [hstep]
    simp only [ih, foldInts_eq_int, State.assume_ofBool, filter_cons, any_cons]
    rcases Bool.eq_false_or_eq_true (m == CType.int.wrap target.value) with hmatch | hmatch
    · cases rest <;> simp [hmatch]
    · cases rest <;> simp [hmatch]

/-! ### Global variables -/

/-- A constant expression is what a global variable of a scalar type starts with; null if it is zero and
the variable is a pointer. -/
theorem constInit_of_constant (hn : e.constant? = some n) (p : Program) (t : CType) :
    constInit p t (.expr e) = .ok (p, if n = 0 ∧ t.isPointer then .null else .int n) := by
  have hnumber : constInitExpr.number p t e = .ok (p, if n = 0 ∧ t.isPointer then .null else .int n) := by
    rw [constInitExpr.number, hn]
  rw [← hnumber, constInit]
  cases e with
  | int | char | unary | binary => rfl
  | _ => cases hn

/-- Such a variable gets the value that a conversion to its type gives at run time. -/
theorem State.writeConst_of_constant {t : CType} (hn : n ∈ CType.int.domain) (ht : t.isScalar = true)
    (policy : StorePolicy) (σ : State) (r : RegionId) :
    σ.writeConst policy r t (if n = 0 ∧ t.isPointer then .null else .int n) =
      σ.write policy r ((Value.int n).cast .int t) := by
  have hcast : (Value.int n).cast .int t = .ofInt n t := by
    cases t with
    | int => exact congrArg Value.int (wrap_of_mem rfl hn).symm
    | char | pointer => rfl
    | _ => cases ht
  rw [hcast]
  split
  · next hnull =>
    rw [Value.ofInt, if_pos hnull.2, hnull.1]
    rfl
  · rfl

/-! ### Agreement -/

/-- **Constants are what they are at run time.** Let the text say that an expression is the number `n`, let
all its parts fit `int`, and let no shift be too far.
* Wherever the expression is built, a path that runs its code gets the value `n` for it.
* In a switch, the case that it labels is entered for the value `n`, and the default is not.
* A global variable that starts with it holds this value, converted to the type of the variable. -/
theorem Expr.constant_agrees {e : Expr} {n : Int} (hn : e.constant? = some n) (hfit : e.FitsInt) :
    (∀ s : Lowering, s.Placed → ∃ x s', (lower e).value s = .ok (x, s') ∧ s.GivesInt x s' n) ∧
    (∀ (cases : List SwitchCase) (s s' : Lowering) (i : Nat) (location : Location) (body : List Stmt)
      (blocks : List BlockId) (targets : List CaseTarget) (default : Option (BlockId × Location)),
      openCases cases s = .ok ((blocks, targets, default), s') →
      cases[i]? = some (location, some e, body) →
      ∃ b, blocks[i]? = some b ∧ ∀ (σ : State) (rest : Option State) (c : Catalog),
        let ways := (Exploring.switchStates σ (.int n) .int targets rest c).1
        (b, σ) ∈ ways.1 ∧ ways.2 = none) ∧
    ∀ (p : Program) (t : CType), t.isScalar = true → ∃ init, constInit p t (.expr e) = .ok (p, init) ∧
      ∀ (policy : StorePolicy) (σ : State) (r : RegionId),
        σ.writeConst policy r t init = σ.write policy r ((Value.int n).cast .int t) := by
  have hmem : n ∈ CType.int.domain := hfit.value .self hn
  refine ⟨fun s hs => gives_constant hn hfit hs, ?_, ?_⟩
  · intro cases s s' i location body blocks targets default hrun hi
    obtain ⟨b, hb, htarget⟩ := openCases_label hrun hi hn
    have hmatch : (n == CType.int.wrap n) = true := by rw [wrap_of_mem rfl hmem, beq_self_eq_true]
    refine ⟨b, hb, fun σ rest c => ?_⟩
    rw [Exploring.switchStates_int]
    exact ⟨mem_map.2 ⟨_, mem_filter.2 ⟨htarget, hmatch⟩, rfl⟩,
      if_pos (any_eq_true.2 ⟨_, htarget, hmatch⟩)⟩
  · exact fun p t ht => ⟨_, constInit_of_constant hn p t, State.writeConst_of_constant hmem ht⟩

/-- The number `-4`, written as `(1 << 4) - 20`. -/
def shiftedConstant : Expr :=
  .binary default .sub (.binary default .shl (.int default 1) (.int default 4)) (.int default 20)

theorem fitsInt_shiftedConstant : shiftedConstant.FitsInt := by
  refine ⟨fun {a n} ha hn => ?_, fun {span op l r k} ha hop hk => ?_⟩
  · rcases ha with _ | _ | (_ | _ | (_ | _) | (_ | _)) | (_ | _) <;> cases hn <;> decide
  · rcases ha with _ | _ | (_ | _ | (_ | _) | (_ | _)) | (_ | _) <;> cases hk <;> simp at hop ⊢

/-- The code, the case and the global variable of a difference with a shift. -/
theorem Expr.constant_agrees_shifted :
    let s : Lowering := ⟨{ file := "" }, [], ⟨0⟩, .void, #[], none, [], #[], [], []⟩
    shiftedConstant.constant? = some (-4) ∧ shiftedConstant.FitsInt ∧ s.Placed ∧
      (∃ x s', (lower shiftedConstant).value s = .ok (x, s') ∧ s.GivesInt x s' (-4)) ∧
      (∃ s', openCases [(default, some shiftedConstant, [])] s =
        .ok (([⟨0⟩], [⟨-4, ⟨0⟩, default⟩], none), s')) ∧
      ∃ init, constInit s.program .char (.expr shiftedConstant) = .ok (s.program, init) ∧
        ∀ (policy : StorePolicy) (σ : State) (r : RegionId),
          σ.writeConst policy r .char init = σ.write policy r (.int (-4)) := by
  intro s
  have hs : s.Placed := fun _ h => nomatch h
  obtain ⟨hcode, -, hglobal⟩ := Expr.constant_agrees (e := shiftedConstant) (n := -4) rfl
    fitsInt_shiftedConstant
  exact ⟨rfl, fitsInt_shiftedConstant, hs, hcode s hs, ⟨_, rfl⟩, hglobal s.program .char rfl⟩

end PathScout

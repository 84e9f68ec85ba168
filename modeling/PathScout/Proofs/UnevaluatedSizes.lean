import PathScout.Proofs.LoweredUnits
import PathScout.Proofs.StatementContexts

/-!
# Sizes of operands that are not evaluated

The size of an operand is built as a number: all that was built of the operand is taken back, but functions
that it announced. So in the source of a program the number may stand for the size.

* `SourceUnit.Context`: an expression in one place of a text. `SourceUnit.Context.reaches`: building comes to
  it, or never does, or refuses a size there.
* `build_sizeofExpr`: a size is built as the number that it is.
* `Program.ofUnit_sizeof`: nothing is left of an operand but functions, and what this says of programs.
-/

namespace PathScout

open Lower List

variable {span : Span}

/-! ### Places of a constant -/

theorem number_refuses (p : Program) (type : CType) {e : Expr} (h : e.constant? = none) :
    ∃ cause, constInitExpr.number p type e = .error cause :=
  ⟨⟨.nonConstant, e.location⟩, by rw [constInitExpr.number, h]⟩

/-- A global variable starts with a constant, so no size is in it. -/
theorem constInitExpr_refuses {F : Expr → Expr} (h : Expr.Context F) (p : Program) (type : CType)
    (e : Expr) :
    ∃ cause, constInitExpr p type (F (.sizeofExpr span e)) = .error cause := by
  have hconst := h.constant?_sizeof span e
  induction h with
  | cast h ih =>
    rw [constInitExpr]
    split
    · exact ih (h.constant?_sizeof span e)
    · exact number_refuses p type hconst
  | _ => exact number_refuses p type hconst

/-- The parts before the one with the place are read first. -/
theorem reaches_constInits {N : Expr → Initializer}
    (hN : ∀ (p : Program) (type : CType), Reaches span fun x => constInit p type (N x))
    (before after : List Initializer) (p : Program) (types : List CType) :
    Reaches span fun x => constInits p types (before ++ N x :: after) := by
  induction before generalizing p types with
  | nil =>
    cases types with
    | nil => exact .passed _ fun _ _ => by simp only [nil_append, constInits]; rfl
    | cons type types =>
      simp only [nil_append, constInits]
      exact (hN p type).bind _
  | cons item before ih =>
    cases types with
    | nil => exact .passed _ fun _ _ => by simp only [cons_append, constInits]; rfl
    | cons type types =>
      simp only [cons_append, constInits]
      exact .of_bind fun r _ => (ih r.1 types).bind _

theorem Initializer.Context.reaches_constInit {N : Expr → Initializer} (h : Initializer.Context N)
    (p : Program) (type : CType) : Reaches span fun x => constInit p type (N x) := by
  induction h generalizing p type with
  | expr h =>
    simp only [constInit]
    exact .refused fun e => constInitExpr_refuses h p type e
  | list before after h ih =>
    simp only [constInit, length_append, length_cons]
    refine .of_bind fun types _ => ?_
    cases types with
    | some types => exact (reaches_constInits ih before after p types).bind _
    | none =>
      cases before with
      | nil =>
        simp only [nil_append, constInitFirst]
        exact ih p type
      | cons item before =>
        simp only [cons_append, constInitFirst]
        exact .passed _ fun _ _ => rfl

/-! ### Places of a text -/

/-- The function puts an expression in one place of a text: in the body of a function, or in what a global
variable starts with. -/
inductive SourceUnit.Context : (Expr → SourceUnit) → Prop
  | body {S} {expansions} (before after : List Item) (decl : FunctionDecl) (first last : List Stmt)
    (h : Stmt.Context S) : Context fun x =>
      ⟨before ++ .function { decl with body := some (first ++ S x :: last) } :: after, expansions⟩
  | global {N} {expansions} (before after : List Item) (decl : VarDecl) (h : Initializer.Context N) :
    Context fun x => ⟨before ++ .global { decl with init := some (N x) } :: after, expansions⟩

theorem reaches_declareGlobal {N : Expr → Initializer} (h : Initializer.Context N) (t : TopLevel)
    (decl : VarDecl) : Reaches span fun x => declareGlobal t { decl with init := some (N x) } := by
  obtain ⟨type, htype⟩ := h.exists_completeArray span decl.type
  refine .congr ?_ fun x hx => by rw [declareGlobal, htype x hx]
  dsimp only
  refine .of_bind fun _ _ => ?_
  cases t.globals.lookup decl.name with
  | some v =>
    dsimp only
    by_cases hinit : hasInit t.program v = true
    · exact .passed _ fun x _ => if_pos hinit
    · simp only [if_neg hinit]
      exact (h.reaches_constInit _ _).bind _
  | none => exact (h.reaches_constInit _ _).bind _

theorem reaches_lowerDefinition {S : Expr → Stmt} (h : Stmt.Context S) (decl : FunctionDecl)
    (first last : List Stmt) {globals : Names} {p : Program} (hp : p.Built globals) :
    Reaches span fun x =>
      lowerDefinition globals p { decl with body := some (first ++ S x :: last) } := by
  unfold lowerDefinition
  dsimp only
  cases p.functionNamed? decl.name with
  | none => exact .passed _ fun _ _ => rfl
  | some f =>
    have hd : (Draft.begun globals p f decl.returns).Sound := Draft.sound_begun hp.linear hp.names
    have hbody : Reaches span fun x => (do
        let params ← declareParams decl.params
        lowerStmts (first ++ S x :: last)
        jumpIfOpen ⟨1⟩
        return params) (Draft.begun globals p f decl.returns).state := by
      refine .right (sends_declareParams decl.params.zipIdx hd) ?_
      rintro params d1 ⟨h1, -⟩
      exact (reaches_lowerStmts (fun d hd => h.reaches span hd) first last h1.sound).left _
    exact hbody.bind _

/-- Structures and functions are the same whatever a variable starts with. -/
theorem SourceUnit.Context.reaches {C : Expr → SourceUnit} (h : SourceUnit.Context C) (span : Span)
    (file : String) : Reaches span fun x => Program.ofUnit (C x) file := by
  cases h with
  | @global N expansions before after decl h =>
    simp only [Program.ofUnit, SourceUnit.functions, filterMap_append, filterMap_cons,
      foldlM_append, foldlM_cons]
    refine .of_bind fun p _ => ?_
    refine Reaches.bind (.of_bind fun t _ => ?_) _
    exact (reaches_declareGlobal h t decl).bind _
  | @body S expansions before after decl first last h =>
    -- to what is declared, the body is as good as none
    have hitem (x : Expr) (t : TopLevel) : declareItem t
        (.function { decl with body := some (first ++ S x :: last) }) =
          declareItem t (.function { decl with body := some [] }) := rfl
    let u0 : SourceUnit := ⟨before ++ .function { decl with body := some [] } :: after, expansions⟩
    simp only [Program.ofUnit, SourceUnit.functions, filterMap_append, filterMap_cons,
      foldlM_append, foldlM_cons, hitem]
    refine .of_bind fun p hp => .of_bind fun t ht => .of_bind fun p' hp' => ?_
    have hplain : t.Plain := declareItems_plain (u := u0)
      (by simp only [u0, filterMap_append, filterMap_cons, foldlM_append]; exact hp)
      (by simp only [u0, foldlM_append, foldlM_cons]; exact ht)
    have hbuilt : p'.Built t.globals := Checked.foldlM_keeps (P := fun p : Program => p.Built t.globals)
      (fun d p p' hp => lowerDefinition_built d hp) _ hplain.built hp'
    exact (reaches_lowerDefinition h decl first last hbuilt).bind _

/-! ### Sizes -/

theorem fits_int (span : Span) (n : Int) : (Expr.int span n).Fits span := ⟨rfl, fun _ _ heq => nomatch heq⟩

theorem branch_ofPlace {l : Location} {act act' : Lower ExprId} {s : Lowering} (h : act s = act' s)
    (yes no : BlockId) (kind : BranchKind) :
    (Lowered.ofPlace l act).branch yes no kind s = (Lowered.ofPlace l act').branch yes no kind s := by
  have hbind (act : Lower ExprId) : (Lowered.ofPlace l act).branch yes no kind s =
      Except.bind (act s) fun r => (do
        let cond ← toValue r.1
        requireScalar cond
        terminate (.branch cond yes no kind l)) r.2 := rfl
  rw [hbind, hbind, h]

/-- Where the current block goes on, a size is built as the number that it is if all is declared that its
operand calls. -/
theorem build_sizeofExpr {β : Type} {build : Lowered → Lower β} (hway : Lowered.Way build)
    {s s1 : Lowering} {e : Expr} {a : ExprId} (hs : s.Ongoing) (hplace : (lower e).place s = .ok (a, s1))
    (hdeclared : ∀ name ∈ e.callees, s.program.functionNamed? name ≠ none) :
    build (lower (.sizeofExpr span e)) s =
      build (lower (.int span (s.program.sizeWord (s1.program.expr a).type))) s := by
  have hbeside := (lower_spares e).place s s a s1 (.refl e.callees s) hplace
  have htype : typeOfUnevaluated (lower e) s = .ok ((s1.program.expr a).type, s) := by
    rw [typeOfUnevaluated_eq (lower_spares e) hs hplace, hbeside.functions.functions_eq hdeclared]
  have hsize : (lower (.sizeofExpr span e)).place s =
      (lower (.int span (s.program.sizeWord (s1.program.expr a).type))).place s := by
    simp only [lower]
    show Except.bind (typeOfUnevaluated (lower e) s) _ = _
    rw [htype]
    rfl
  cases hway with
  | place => exact hsize
  | branch yes no kind =>
    simp only [lower] at hsize ⊢
    exact branch_ofPlace hsize yes no kind

/-- Where a size is built, its operand could be built. -/
theorem exists_of_build_sizeofExpr {β : Type} {build : Lowered → Lower β} (hway : Lowered.Way build)
    {s : Lowering} {e : Expr} {r : β × Lowering}
    (hrun : build (lower (.sizeofExpr span e)) s = .ok r) : ∃ r, (lower e).place s = .ok r := by
  have hplace : ∃ r, (lower (.sizeofExpr span e)).place s = .ok r := by
    cases hway with
    | place => exact ⟨r, hrun⟩
    | branch yes no kind =>
      simp only [lower] at hrun ⊢
      obtain ⟨a, s1, hplace, -⟩ := bind_eq_ok.1 hrun
      exact ⟨(a, s1), hplace⟩
  obtain ⟨r, hplace⟩ := hplace
  simp only [lower] at hplace
  obtain ⟨type, s1, htype, -⟩ := bind_eq_ok.1 hplace
  obtain ⟨a, s2, hoperand, -⟩ := of_typeOfUnevaluated (lower_spares e) htype
  exact ⟨(a, s2), hoperand⟩

/-- **Of a size, nothing is left but the number.** Where the current block goes on or there is none, an
operand that is built for its type leaves the state as it was, but for functions that it calls and nobody
declared. Whatever the place in a text, either building comes to it in such a state, and then a size there
is as good as the number that it is, given that its operand can be built and all is declared that it calls;
or building never comes to it; or no size may stand there, because it takes constants only. -/
theorem Program.ofUnit_sizeof {C : Expr → SourceUnit} (hC : SourceUnit.Context C) (span : Span)
    (file : String) :
    (∀ (s s₁ : Lowering) (e : Expr) (a : ExprId), s.Ongoing → (lower e).place s = .ok (a, s₁) →
      ∃ more : Array Function,
        typeOfUnevaluated (lower e) s = .ok ((s₁.program.expr a).type,
          { s with program := { s.program with functions := s.program.functions ++ more } }) ∧
        ∀ f ∈ more, ∃ name ∈ e.callees, ∃ l, s.program.functionNamed? name = none ∧
          f = implicitFunction name l) ∧
    ((∃ s, BuildsAt span (fun x => Program.ofUnit (C x) file) s ∧
        (∀ e p, Program.ofUnit (C (.sizeofExpr span e)) file = .ok p → ∃ r, (lower e).place s = .ok r) ∧
        ∀ e a s₁, (lower e).place s = .ok (a, s₁) →
          (∀ name ∈ e.callees, s.program.functionNamed? name ≠ none) →
          Program.ofUnit (C (.sizeofExpr span e)) file =
            Program.ofUnit (C (.int span (s.program.sizeWord (s₁.program.expr a).type))) file) ∨
      (∃ r, ∀ x, x.Fits span → Program.ofUnit (C x) file = r) ∨
      ∀ e, ∃ cause, Program.ofUnit (C (.sizeofExpr span e)) file = .error cause) := by
  refine ⟨fun s s₁ e a hs hplace => ?_, ?_⟩
  · obtain ⟨more, hfunctions, hmore⟩ :=
      ((lower_spares e).place s s a s₁ (.refl e.callees s) hplace).functions
    exact ⟨more, by rw [typeOfUnevaluated_eq (lower_spares e) hs hplace, hfunctions], hmore⟩
  · cases hC.reaches span file with
    | built s h =>
      refine .inl ⟨s, h, fun e p hp => ?_, fun e a s₁ hplace hdeclared => ?_⟩
      all_goals
        obtain ⟨hs, β, build, rest, hway, hout⟩ := h
        replace hout : ∀ x, x.Fits span → Program.ofUnit (C x) file = build (lower x) s >>= rest := hout
      · rw [hout _ (Reaches.fits_sizeofExpr span e)] at hp
        obtain ⟨r, hbuild, -⟩ := Checked.bind_eq_ok.1 hp
        exact exists_of_build_sizeofExpr hway hbuild
      have hnumber := hout _ (fits_int span (s.program.sizeWord (s₁.program.expr a).type))
      rw [← build_sizeofExpr hway hs hplace hdeclared] at hnumber
      exact (hout _ (Reaches.fits_sizeofExpr span e)).trans hnumber.symm
    | passed r h => exact .inr (.inl ⟨r, h⟩)
    | refused h => exact .inr (.inr h)

/-- The unit `int f(int n) { return x; }` for an expression `x`. -/
def returningUnit (x : Expr) : SourceUnit := .single .int [("n", .int)] [.return ⟨1, 1⟩ (some x)]

theorem context_returningUnit : SourceUnit.Context returningUnit :=
  .body [] [] ⟨"f", .int, [⟨some "n", .int, ⟨1, 1⟩⟩], false, none, ⟨1, 1⟩, ⟨1, 1⟩⟩ [] [] (.return .here)

/-- The size of a condition with several blocks is as good as a number. -/
theorem Program.ofUnit_sizeof_returned : ∃ (span : Span) (e : Expr) (n : Int) (p : Program),
    Program.ofUnit (returningUnit (.sizeofExpr span e)) "a.c" = .ok p ∧
      Program.ofUnit (returningUnit (.int span n)) "a.c" = .ok p := by
  let span : Span := .point ⟨1, 1⟩
  let e : Expr := .logical span .and (.ident span "n") (.ident span "n")
  obtain ⟨p, hp⟩ : ∃ p, Program.ofUnit (returningUnit (.sizeofExpr span e)) "a.c" = .ok p := by
    have hok : (Program.ofUnit (returningUnit (.sizeofExpr span e)) "a.c").toOption.any
        (fun _ => true) = true := by decide +kernel
    obtain ⟨p, hp, -⟩ := exists_ok_of_any hok
    exact ⟨p, hp⟩
  obtain ⟨-, ⟨s, -, hoperand, hsize⟩ | ⟨r, hpassed⟩ | hrefused⟩ :=
    Program.ofUnit_sizeof context_returningUnit span "a.c"
  · obtain ⟨⟨a, s₁⟩, hplace⟩ := hoperand e p hp
    exact ⟨span, e, _, p, hp, (hsize e a s₁ hplace (by simp [e, Expr.callees])).symm.trans hp⟩
  · -- what is returned is not passed over
    have hsame := (hpassed _ (fits_int span 1)).trans (hpassed _ (fits_int span 2)).symm
    let ops (r : Except SemanticError Program) := r.toOption.map fun p => p.exprs.toList.map (·.op)
    have hother : ops (Program.ofUnit (returningUnit (.int span 1)) "a.c") ≠
        ops (Program.ofUnit (returningUnit (.int span 2)) "a.c") := by decide +kernel
    exact absurd (congrArg ops hsame) hother
  · obtain ⟨cause, hcause⟩ := hrefused e
    cases hp.symm.trans hcause

end PathScout

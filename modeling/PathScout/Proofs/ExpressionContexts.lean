import PathScout.Proofs.LoweredStmts

/-!
# Expressions in their place

What is made of a text depends on an expression in one place of it in one of three ways: building comes to
the place in some state and goes on from what the expression gives there, or never comes to the place, or
refuses a size there.

* `Expr.Context`: an expression in one place of a larger one.
* `BuildsAt`: building comes to the place in a state. `Reaches`: the three ways.
* `Reaches.left`, `Reaches.right`: one action after another, with the place in one of them.
* `Expr.Context.reached`: building comes to every place of an expression, or fails before.
-/

namespace PathScout

open Lower List

/-! ### Places -/

/-- The function puts an expression in one place of a larger one. -/
inductive Expr.Context : (Expr → Expr) → Prop
  | here : Context fun x => x
  | binaryLeft {F} {span op right} (h : Context F) : Context fun x => .binary span op (F x) right
  | binaryRight {F} {span op left} (h : Context F) : Context fun x => .binary span op left (F x)
  | logicalLeft {F} {span op right} (h : Context F) : Context fun x => .logical span op (F x) right
  | logicalRight {F} {span op left} (h : Context F) : Context fun x => .logical span op left (F x)
  | unary {F} {span op} (h : Context F) : Context fun x => .unary span op (F x)
  | target {F} {span op value} (h : Context F) : Context fun x => .assign span op (F x) value
  | value {F} {span op target} (h : Context F) : Context fun x => .assign span op target (F x)
  | cond {F} {span yes no} (h : Context F) : Context fun x => .conditional span (F x) yes no
  | yes {F} {span cond no} (h : Context F) : Context fun x => .conditional span cond (F x) no
  | no {F} {span cond yes} (h : Context F) : Context fun x => .conditional span cond yes (F x)
  | arg {F} {span callee} (before after : List Expr) (h : Context F) :
    Context fun x => .call span callee (before ++ F x :: after)
  | base {F} {span index} (h : Context F) : Context fun x => .index span (F x) index
  | index {F} {span base} (h : Context F) : Context fun x => .index span base (F x)
  | member {F} {span field arrow} (h : Context F) : Context fun x => .member span (F x) field arrow
  | cast {F} {span type} (h : Context F) : Context fun x => .cast span type (F x)
  | sizeofExpr {F} {span} (h : Context F) : Context fun x => .sizeofExpr span (F x)

/-- The expression covers the span and is no text. -/
structure Expr.Fits (span : Span) (x : Expr) : Prop where
  span_eq : x.span = span
  not_string : ∀ s text, x ≠ .string s text

/-- A larger expression covers the same span whatever stands in the place, and is no text either. -/
theorem Expr.Context.fits {F : Expr → Expr} (h : Expr.Context F) (span : Span) :
    ∃ span', ∀ x, x.Fits span → (F x).Fits span' := by
  cases h with
  | here => exact ⟨span, fun x hx => hx⟩
  | _ => exact ⟨_, fun x _ => ⟨rfl, fun _ _ heq => nomatch heq⟩⟩

/-- The place is not in a constant if a size stands in it. -/
theorem Expr.Context.constant?_sizeof {F : Expr → Expr} (h : Expr.Context F) (span : Span) (e : Expr) :
    (F (.sizeofExpr span e)).constant? = none := by
  induction h with
  | unary h ih => rename_i op; cases op <;> simp [Expr.constant?, ih]
  | binaryLeft h ih | binaryRight h ih => simp [Expr.constant?, ih]
  | _ => simp [Expr.constant?]

/-! ### Coming to a place -/

/-- The current block, if there is one, has no end. -/
def Lowering.Ongoing (s : Lowering) : Prop := ∀ b, s.current = some b → s.Open b

/-- The action is one of the two ways of building an expression. -/
inductive Lowered.Way : {β : Type} → (Lowered → Lower β) → Prop
  | place : Way Lowered.place
  | branch (yes no : BlockId) (kind : BranchKind) : Way fun x => x.branch yes no kind

/-- Building comes to the expression in the state, builds it there in one of the two ways, and goes on from
what this gives. -/
def BuildsAt {γ : Type} (span : Span) (out : Expr → Except SemanticError γ) (s : Lowering) : Prop :=
  s.Ongoing ∧ ∃ (β : Type) (build : Lowered → Lower β) (rest : β × Lowering → Except SemanticError γ),
    Lowered.Way build ∧ ∀ x, x.Fits span → out x = build (lower x) s >>= rest

/-- How an outcome depends on an expression in one place. -/
inductive Reaches {γ : Type} (span : Span) (out : Expr → Except SemanticError γ) : Prop
  /-- Building comes to the place. -/
  | built (s : Lowering) (h : BuildsAt span out s)
  /-- Building never comes to the place. -/
  | passed (r : Except SemanticError γ) (h : ∀ x, x.Fits span → out x = r)
  /-- A size in the place is refused. -/
  | refused (h : ∀ e, ∃ cause, out (.sizeofExpr span e) = .error cause)

namespace Reaches

variable {γ δ : Type} {span : Span} {out out' : Expr → Except SemanticError γ}

theorem fits_sizeofExpr (span : Span) (e : Expr) : (Expr.sizeofExpr span e).Fits span :=
  ⟨rfl, fun _ _ heq => nomatch heq⟩

theorem congr (h : Reaches span out') (heq : ∀ x, x.Fits span → out x = out' x) : Reaches span out := by
  cases h with
  | built s h =>
    obtain ⟨hs, β, build, rest, hway, h⟩ := h
    exact .built s ⟨hs, β, build, rest, hway, fun x hx => (heq x hx).trans (h x hx)⟩
  | passed r h => exact .passed r fun x hx => (heq x hx).trans (h x hx)
  | refused h => exact .refused fun e => by rw [heq _ (fits_sizeofExpr span e)]; exact h e

/-- What comes after the place does not depend on the expression in it. -/
theorem bind (h : Reaches span out) (g : γ → Except SemanticError δ) :
    Reaches span fun x => out x >>= g := by
  cases h with
  | built s h =>
    obtain ⟨hs, β, build, rest, hway, h⟩ := h
    refine .built s ⟨hs, β, build, fun r => rest r >>= g, hway, fun x hx => ?_⟩
    show out x >>= g = _
    rw [h x hx, bind_assoc]
  | passed r h => exact .passed (r >>= g) fun x hx => by rw [h x hx]
  | refused h =>
    refine .refused fun e => ?_
    obtain ⟨cause, hcause⟩ := h e
    exact ⟨cause, by rw [hcause]; rfl⟩

/-- What comes before the place does not depend on the expression in it. -/
theorem of_bind {m : Except SemanticError γ} {f : Expr → γ → Except SemanticError δ}
    (h : ∀ c, m = .ok c → Reaches span fun x => f x c) : Reaches span fun x => m >>= f x := by
  cases m with
  | error e => exact .passed (.error e) fun _ _ => rfl
  | ok c => exact h c rfl

variable {α β : Type} {s : Lowering} {act : Expr → Lower α} {m : Lower α} {f : Expr → α → Lower β}
  {d : Draft} {Q : α → Draft → Prop}

/-- The place is in the first of two actions. -/
theorem left (h : Reaches span fun x => act x s) (g : α → Lower β) :
    Reaches span fun x => (act x >>= g) s := h.bind fun r => g r.1 r.2

theorem get_bind {f : Expr → Lowering → Lower β} (h : Reaches span fun x => f x s s) :
    Reaches span fun x => (get >>= f x) s := h

theorem typeOf_bind {e : ExprId} {f : Expr → CType → Lower β}
    (h : Reaches span fun x => f x (s.program.expr e).type s) :
    Reaches span fun x => (typeOf e >>= f x) s := h

theorem ite {c : Prop} [Decidable c] {act' : Expr → Lower α} (h : Reaches span fun x => act x s)
    (h' : Reaches span fun x => act' x s) : Reaches span fun x => (if c then act x else act' x) s := by
  split
  · exact h
  · exact h'

/-- The place is in the second of two actions. -/
theorem right (hm : Sends d m Q) (h : ∀ a d', Q a d' → Reaches span fun x => f x a d'.state) :
    Reaches span fun x => (m >>= f x) d.state :=
  of_bind (m := m d.state) (f := fun x r => f x r.1 r.2) fun r hr => by
    obtain ⟨d', hd', hQ⟩ := hm r.1 r.2 hr
    rw [← hd']
    exact h r.1 d' hQ

end Reaches

/-! ### Places of an expression -/

/-- Whatever sound draft it starts from, building comes to the place or not, in both ways. -/
structure Lowered.Reached (span : Span) (X : Expr → Lowered) : Prop where
  place : ∀ d : Draft, d.Sound → Reaches span fun x => (X x).place d.state
  branch : ∀ (d : Draft) (yes no : BlockId) (kind : BranchKind), d.Sound → d.Idle yes → d.Idle no →
    Reaches span fun x => (X x).branch yes no kind d.state

namespace Lowered.Reached

variable {span : Span} {X : Expr → Lowered} {d : Draft}

theorem value (h : Reached span X) (hd : d.Sound) : Reaches span fun x => (X x).value d.state :=
  (h.place d hd).left toValue

theorem target (h : Reached span X) (l : Location) (hd : d.Sound) :
    Reaches span fun x => (X x).target l d.state := (h.place d hd).left _

theorem ofPlace (l : Location) {act : Expr → Lower ExprId}
    (h : ∀ d : Draft, d.Sound → Reaches span fun x => act x d.state) :
    Reached span fun x => .ofPlace l (act x) where
  place := h
  branch d _ _ _ hd _ _ := (h d hd).left _

theorem congr {Y : Expr → Lowered} (h : Reached span Y) (heq : ∀ x, x.Fits span → X x = Y x) :
    Reached span X where
  place d hd := (h.place d hd).congr fun x hx => by rw [heq x hx]
  branch d yes no kind hd hyes hno := (h.branch d yes no kind hd hyes hno).congr fun x hx => by
    rw [heq x hx]

end Lowered.Reached

namespace Lower

variable {yes no : BlockId} {left cond : Lowered} {α : Type} {l : Span}

open Draft

variable {span : Span} {X : Expr → Lowered} {d : Draft}

theorem reaches_branchLogical_left (op : LogicalOp) (right : Lowered) (hX : Lowered.Reached span X)
    (kind : BranchKind) (hd : d.Sound) (hyes : d.Idle yes) (hno : d.Idle no) :
    Reaches span fun x => branchLogical op (X x) right yes no kind d.state := by
  refine .right (sends_layOut (.refl hd)) ?_
  rintro second d1 ⟨h1, -⟩
  cases op with
  | and => exact (hX.branch d1 _ _ _ h1.sound (h1.idle second (by simp)) (h1.toBuilds.idle hno)).left _
  | or => exact (hX.branch d1 _ _ _ h1.sound (h1.toBuilds.idle hyes) (h1.idle second (by simp))).left _

theorem reaches_branchLogical_right (op : LogicalOp) (hleft : left.Sound) (hX : Lowered.Reached span X)
    (kind : BranchKind) (hd : d.Sound) (hyes : d.Idle yes) (hno : d.Idle no) :
    Reaches span fun x => branchLogical op left (X x) yes no kind d.state := by
  refine .right (sends_layOut (.refl hd)) ?_
  rintro second d1 ⟨h1, -⟩
  have hsecond := h1.idle second (by simp)
  have hrest : ∀ d2, Builds d1 d2 → Reaches span fun x =>
      (do setCurrent (some second); (X x).branch yes no kind) d2.state := fun d2 h2 => by
    refine .right (sends_enter [] [] (h1.builds h2)) fun _ d3 h3 => ?_
    exact hX.branch d3 yes no kind h3.sound (h3.toBuilds.idle hyes) (h3.toBuilds.idle hno)
  cases op with
  | and =>
    exact .right (sends_branch hleft _ h1.sound hsecond (h1.toBuilds.idle hno)) fun _ d2 h2 => hrest d2 h2
  | or =>
    exact .right (sends_branch hleft _ h1.sound (h1.toBuilds.idle hyes) hsecond) fun _ d2 h2 => hrest d2 h2

/-- The joined expression and the four blocks of a conjunction or disjunction. -/
theorem reaches_openLogical (hd : d.Sound)
    {f : Expr → ExprId → BlockId → BlockId → BlockId → BlockId → Lower α}
    (h : ∀ join second yes no next d', Layout d [next, no, yes, second] [next, no, yes, second] d' →
      Reaches span fun x => f x join second yes no next d'.state) :
    Reaches span fun x => (do
      let join ← addDetached .join .int l
      let second ← newBlock
      let yes ← newBlock
      let no ← newBlock
      let next ← newBlock
      f x join second yes no next) d.state := by
  refine .right (sends_addJoin hd .int l) fun join d1 h1 => ?_
  refine .right (sends_layOut (.builds (.refl hd) (h1.grows _).builds)) ?_
  rintro second d2 ⟨h2, -⟩
  refine .right (sends_layOut h2) ?_
  rintro yes d3 ⟨h3, -⟩
  refine .right (sends_layOut h3) ?_
  rintro no d4 ⟨h4, -⟩
  refine .right (sends_layOut h4) ?_
  rintro next d5 ⟨h5, -⟩
  exact h join second yes no next d5 h5

/-- The blocks of a conditional expression. -/
theorem reaches_openConditional (hd : d.Sound) {f : Expr → BlockId → BlockId → BlockId → Lower α}
    (h : ∀ yes no next d', Layout d [next, no, yes] [next, no, yes] d' →
      Reaches span fun x => f x yes no next d'.state) :
    Reaches span fun x => (do
      let yes ← newBlock
      let no ← newBlock
      let next ← newBlock
      f x yes no next) d.state := by
  refine .right (sends_layOut (.refl hd)) ?_
  rintro yes d1 ⟨h1, -⟩
  refine .right (sends_layOut h1) ?_
  rintro no d2 ⟨h2, -⟩
  refine .right (sends_layOut h2) ?_
  rintro next d3 ⟨h3, -⟩
  exact h yes no next d3 h3

section

variable (hX : Lowered.Reached span X) (hd : d.Sound)
include hX hd

theorem reaches_lowerLogical_left (op : LogicalOp) (right : Lowered) :
    Reaches span fun x => lowerLogical l op (X x) right d.state := by
  refine reaches_openLogical hd fun join second yes no next d' h => ?_
  have hidle : ∀ b ∈ [next, no, yes, second], d'.Idle b := h.idle
  cases op with
  | and | or => exact (hX.branch d' _ _ _ h.sound (hidle _ (by simp)) (hidle _ (by simp))).left _

theorem reaches_lowerLogical_right (op : LogicalOp) (hleft : left.Sound) :
    Reaches span fun x => lowerLogical l op left (X x) d.state := by
  refine reaches_openLogical hd fun join second yes no next d' h => ?_
  have hidle : ∀ b ∈ [next, no, yes, second], d'.Idle b := h.idle
  have hrest {α : Type} (g : Unit → Lower α) : ∀ d2, Builds d' d2 → Reaches span fun x =>
      (setCurrent (some second) >>= fun _ => (X x).branch yes no .operand >>= g) d2.state := fun d2 h2 => by
    refine .right (sends_enter [next, no, yes] [] (h.builds h2)) fun _ d3 h3 => ?_
    exact (hX.branch d3 yes no _ h3.sound (h3.idle _ (by simp)) (h3.idle _ (by simp))).left g
  cases op with
  | and | or =>
    exact .right (sends_branch hleft _ h.sound (hidle _ (by simp)) (hidle _ (by simp))) fun _ d2 h2 =>
      hrest _ d2 h2

theorem reaches_lowerConditional_cond (yes no : Lowered) :
    Reaches span fun x => lowerConditional l (X x) yes no d.state :=
  reaches_openConditional hd fun yesBlock noBlock _ d' h =>
    (hX.branch d' yesBlock noBlock _ h.sound (h.idle _ (by simp)) (h.idle _ (by simp))).left _

theorem reaches_lowerConditional_yes (hcond : cond.Sound) (no : Lowered) :
    Reaches span fun x => lowerConditional l cond (X x) no d.state := by
  refine reaches_openConditional hd fun yesBlock noBlock next d1 h1 => ?_
  refine .right (sends_branch hcond _ h1.sound (h1.idle _ (by simp)) (h1.idle _ (by simp)))
    fun _ d2 h2 => ?_
  refine .right (sends_enter [next, noBlock] [] (h1.builds h2)) fun _ d3 h3 => ?_
  exact (hX.value h3.sound).left _

theorem reaches_lowerConditional_no {yes : Lowered} (hcond : cond.Sound) (hyes : yes.Sound)
    : Reaches span fun x => lowerConditional l cond yes (X x) d.state := by
  refine reaches_openConditional hd fun yesBlock noBlock next d1 h1 => ?_
  refine .right (sends_branch hcond _ h1.sound (h1.idle _ (by simp)) (h1.idle _ (by simp)))
    fun _ d2 h2 => ?_
  refine .right (sends_enter [next, noBlock] [] (h1.builds h2)) fun _ d3 h3 => ?_
  refine .right (hyes.value h3.sound) ?_
  rintro y d4 ⟨h4, -⟩
  refine .get_bind ?_
  refine .right (sends_enter [next] [] (h3.builds h4.grows.builds)) fun _ d5 h5 => ?_
  exact (hX.value h5.sound).left _

theorem reaches_lowerUnary (op : UnaryOp) (location : Location) :
    Reaches span fun x => lowerUnary l op (X x) location d.state := by
  cases op with
  | neg | bitNot | not | deref => exact (hX.value hd).left _
  | addrOf | preInc | preDec | postInc | postDec => exact (hX.target location hd).left _

theorem reaches_lowerMember {baseSpan : Span} (field : String) (arrow : Bool)
    : Reaches span fun x => lowerMember l (X x) baseSpan field arrow d.state := by
  cases arrow with
  | true => exact ((hX.value hd).left _).left _
  | false => exact (hX.target _ hd).left _

theorem reaches_lowerAssign_value (op : Option BinaryOp) {target : Lowered} (location : Location)
    (htarget : target.Sound) :
    Reaches span fun x => lowerAssign l op target (X x) location d.state := by
  refine .right (htarget.target hd location) fun t d1 h1 => ?_
  exact .typeOf_bind (.ite (.passed _ fun _ _ => rfl) ((hX.value h1.1.grows.sound).left _))

end

/-- The arguments before the one with the place are built first. -/
theorem reaches_lowerArgs {F : Expr → Expr} (hF : Lowered.Reached span fun x => lower (F x))
    (before after : List Expr) (params : List CType) (hd : d.Sound) :
    Reaches span fun x => lowerArgs (before ++ F x :: after) params d.state := by
  induction before generalizing d params with
  | nil =>
    simp only [nil_append, lowerArgs]
    exact (hF.value hd).left _
  | cons a before ih =>
    simp only [cons_append, lowerArgs]
    refine .right ((lower_sound a).value hd) ?_
    rintro v d1 ⟨h1, -⟩
    refine .right (sends_passArgument h1.grows.sound h1.grows.size_le h1.ready _) fun w d2 h2 => ?_
    exact (ih params.tail h2.grows.sound).left _

theorem reaches_lowerCall (callee : String) (count : Nat)
    {args : Expr → List CType → Lower (List ExprId)} (hd : d.Sound)
    (hargs : ∀ (params : List CType) (d : Draft), d.Sound → Reaches span fun x => args x params d.state)
    :
    Reaches span fun x => lowerCall l callee count (args x) d.state := by
  refine .right (sends_resolveFunction hd callee l.first) fun f d1 h1 => ?_
  exact .get_bind (.ite ((hargs _ d1 h1.sound).left _) (.passed _ fun _ _ => rfl))

end Lower

open Lower

/-- **Every place of an expression**: building comes to it in a state whose current block goes on. -/
theorem Expr.Context.reached {F : Expr → Expr} (h : Expr.Context F) (span : Span) :
    Lowered.Reached span fun x => lower (F x) := by
  induction h with
  | here =>
    refine ⟨fun d hd => .built d.state ⟨hd.current, _, _, pure, .place, fun x _ => ?_⟩,
      fun d yes no kind hd _ _ =>
        .built d.state ⟨hd.current, _, _, pure, .branch yes no kind, fun x _ => ?_⟩⟩
    all_goals exact (bind_pure _).symm
  | binaryLeft _ ih =>
    simp only [lower]
    exact .ofPlace _ fun d hd => (ih.value hd).left _
  | @binaryRight _ _ _ left _ ih =>
    simp only [lower]
    exact .ofPlace _ fun d hd => .right ((lower_sound left).value hd) fun _ d1 h1 =>
      (ih.value h1.1.grows.sound).left _
  | logicalLeft _ ih =>
    simp only [lower]
    exact ⟨fun d hd => reaches_lowerLogical_left ih hd _ _, fun d yes no kind hd hyes hno =>
      reaches_branchLogical_left _ _ ih kind hd hyes hno⟩
  | @logicalRight _ _ _ left _ ih =>
    simp only [lower]
    exact ⟨fun d hd => reaches_lowerLogical_right ih hd _ (lower_sound left),
      fun d yes no kind hd hyes hno =>
        reaches_branchLogical_right _ (lower_sound left) ih kind hd hyes hno⟩
  | @unary F l op h ih =>
    obtain ⟨span', hfits⟩ := h.fits span
    refine .congr (Y := fun x => .ofPlace l.first (lowerUnary l op (lower (F x)) span'.first))
      (.ofPlace _ fun d hd => reaches_lowerUnary ih hd op _) fun x hx => ?_
    rw [lower, Expr.location, (hfits x hx).span_eq]
  | @target F l op value h ih =>
    obtain ⟨span', hfits⟩ := h.fits span
    let place (x : Expr) := lowerAssign l op (lower (F x)) (lower value) span'.first
    refine .congr (Y := fun x => .ofPlace l.first (place x))
      (.ofPlace _ fun d hd => (ih.target _ hd).left _) fun x hx => ?_
    rw [lower, Expr.location, (hfits x hx).span_eq]
  | @value F l op target h ih =>
    simp only [lower]
    exact .ofPlace _ fun d hd => reaches_lowerAssign_value ih hd op _ (lower_sound target)
  | cond _ ih =>
    simp only [lower]
    exact .ofPlace _ fun d hd => reaches_lowerConditional_cond ih hd _ _
  | @yes _ _ cond _ _ ih =>
    simp only [lower]
    exact .ofPlace _ fun d hd => reaches_lowerConditional_yes ih hd (lower_sound cond) _
  | @no _ _ cond yes _ ih =>
    simp only [lower]
    exact .ofPlace _ fun d hd => reaches_lowerConditional_no ih hd (lower_sound cond) (lower_sound yes)
  | arg before after _ ih =>
    simp only [lower, length_append, length_cons]
    exact .ofPlace _ fun d hd => reaches_lowerCall _ _ hd fun params d hd =>
      reaches_lowerArgs ih before after params hd
  | base _ ih =>
    simp only [lower]
    exact .ofPlace _ fun d hd => (ih.value hd).left _
  | @index _ _ base _ ih =>
    simp only [lower]
    exact .ofPlace _ fun d hd => .right ((lower_sound base).value hd) fun _ d1 h1 =>
      (ih.value h1.1.grows.sound).left _
  | @member F l field arrow h ih =>
    obtain ⟨span', hfits⟩ := h.fits span
    refine .congr (Y := fun x => .ofPlace l.first (lowerMember l (lower (F x)) span' field arrow))
      (.ofPlace _ fun d hd => reaches_lowerMember ih hd field arrow) fun x hx => ?_
    rw [lower, (hfits x hx).span_eq]
  | @cast _ l type _ ih =>
    simp only [lower]
    refine .ofPlace _ fun d hd => .right (sends_requireComplete type l.first) ?_
    rintro _ _ rfl
    exact (ih.value hd).left _
  | sizeofExpr _ ih =>
    simp only [lower]
    exact .ofPlace _ fun d hd => .left (.get_bind ((ih.place d hd).left _)) _

end PathScout

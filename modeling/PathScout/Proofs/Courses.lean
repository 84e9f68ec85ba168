import Mathlib.Tactic
import PathScout.Lowering.Unit

/-!
# The course of a function body

A source text says in which order its expressions are evaluated, its variables declared and its
values returned, once it is known how each condition comes out and which value each switch is on. An
oracle gives these answers, one after the other. The course of a body follows the structure of the
text: operands from left to right, targets before values, only as much of a conjunction or a
disjunction as decides it, only one way of a conditional expression, and statements up to a jump. What
was evaluated waits until it is needed, so that each act takes the latest values that wait.

* `Act`: something that is done. `Course`: what was done so far.
* `Expr.follow`: an expression, as a place or value and as a condition.
* `Stmt.follow`: a statement, and how it ended. `Ending`: the ways to end.
* `Stmt.persists_follow`: a course that is cut off asked the oracle as often as it was allowed.
-/

namespace PathScout

open List

/-! ### Acts -/

/-- What an expression does, whatever its operands are. -/
inductive Form where
  | constant (value : Int)
  | text (content : String)
  | null | name | load | decay | addrOf | deref
  | unary (op : ValueOp)
  | binary (op : BinaryOp)
  | assign
  | compound (op : BinaryOp)
  | incDec (increment before : Bool)
  | call | member | index
  | cast (type : CType)
  | join
deriving DecidableEq

/-- What an expression of a program does. -/
def TypedExpr.form (x : TypedExpr) : Form :=
  match x.op with
  | .int n => .constant n
  | .string s => .text s
  | .null => .null
  | .var _ => .name
  | .load _ => .load
  | .decay _ => .decay
  | .addrOf _ => .addrOf
  | .deref _ => .deref
  | .unary op _ => .unary op
  | .binary op _ _ => .binary op
  | .assign _ _ => .assign
  | .compound op _ _ => .compound op
  | .incDec _ increment before => .incDec increment before
  | .call _ _ => .call
  | .member _ _ => .member
  | .index _ _ => .index
  | .cast _ => .cast x.type
  | .join => .join

/-- Something that is done. An expression, a declaration or a merge takes the latest of the values that
wait. -/
inductive Act where
  | expr (form : Form) (span : Span)
  /-- A size is a constant. -/
  | size (span : Span)
  /-- What came last is read, if it is a place. -/
  | take
  /-- A value gets the type that it is needed in. So many values came after it. -/
  | convert (later : Nat)
  /-- A joined expression is a constant, or else what came last. -/
  | merge (constant : Option Int)
  /-- What came last is not needed. -/
  | drop
  | decl (location : Location)
  | return (location : Location)
  /-- What came last is returned, if the function returns anything. -/
  | result (location : Location)
  /-- The oracle tells what came last. -/
  | test
deriving DecidableEq

/-- What was done so far, and how many answers the oracle gave. -/
structure Course where
  acts : List Act := []
  asked : Nat := 0
deriving DecidableEq

/-- Actions on a course. -/
abbrev Following := StateM Course

/-- The answers of an oracle, in the order in which it is asked. -/
abbrev Oracle := Nat → Int

/-- Does something. -/
def perform (a : Act) : Following Unit := fun c => ((), { c with acts := c.acts ++ [a] })

/-- Asks the oracle. -/
def Oracle.answer (ω : Oracle) : Following Int :=
  fun c => (ω c.asked, { acts := c.acts ++ [.test], asked := c.asked + 1 })

/-- The oracle decides a condition. -/
def Oracle.decide (ω : Oracle) : Following Bool := do return (← ω.answer) != 0

/-! ### Expressions -/

/-- The courses of an expression: as a place or value, and as a condition that comes out. -/
structure Followed where
  place : Following Unit
  condition : Following Bool

namespace Followed

/-- The course of an expression for its value. -/
def value (x : Followed) : Following Unit := do
  x.place
  perform .take

/-- The course of an expression for its value in the type that is needed. -/
def passed (x : Followed) : Following Unit := do
  x.value
  perform (.convert 0)

/-- An expression whose value decides a condition. -/
def leaf (ω : Oracle) (place : Following Unit) : Followed where
  place := place
  condition := do
    place
    perform .take
    ω.decide

end Followed

/-- What an operator on one operand does. -/
def UnaryOp.form : UnaryOp → Form
  | .neg => .unary .neg
  | .bitNot => .unary .bitNot
  | .not => .unary .not
  | .deref => .deref
  | .addrOf => .addrOf
  | .preInc => .incDec true true
  | .preDec => .incDec false true
  | .postInc => .incDec true false
  | .postDec => .incDec false false

/-- The course of the operand of such an operator. -/
def UnaryOp.follow (op : UnaryOp) (x : Followed) : Following Unit :=
  match op with
  | .neg | .bitNot => x.passed
  | .not | .deref => x.value
  | .addrOf | .preInc | .preDec | .postInc | .postDec => x.place

/-- The course of two values, and what is made of them in the types that are needed. -/
def followPair (left right : Followed) (a : Act) : Following Unit := do
  left.value
  right.value
  perform (.convert 1)
  perform (.convert 0)
  perform a

/-- What an assignment does. -/
def assignForm : Option BinaryOp → Form
  | some op => .compound op
  | none => .assign

/-- A conjunction or disjunction as a condition: the left operand may decide by itself. -/
def followLogical (op : LogicalOp) (left right : Following Bool) : Following Bool := do
  match op, ← left with
  | .and, true | .or, false => right
  | .and, false => return false
  | .or, true => return true

/-- One of two ways, as a condition comes out. -/
def followEither {α : Type} (condition : Following Bool) (yes no : Following α) : Following α := do
  if ← condition then yes else no

/-- One of the two ways of a joined expression. -/
def Followed.way (x : Followed) : Following Unit := do
  x.passed
  perform (.merge none)

/-- A structure, which may be reached through a pointer. -/
def followObject (arrow : Bool) (x : Followed) (span : Span) : Following Unit := do
  if arrow then
    x.value
    perform (.expr .deref span)
  else x.place

mutual

/-- The courses of an expression. -/
def Expr.follow (ω : Oracle) (e : Expr) : Followed :=
  match e with
  | .int span n | .char span n => .leaf ω (perform (.expr (.constant n) span))
  | .sizeofType span _ | .sizeofExpr span _ => .leaf ω (perform (.size span))
  | .string span s => .leaf ω (perform (.expr (.text s) span))
  | .null span => .leaf ω (perform (.expr .null span))
  | .ident span _ => .leaf ω (perform (.expr .name span))
  | .binary span op l r => .leaf ω (followPair (l.follow ω) (r.follow ω) (.expr (.binary op) span))
  | .logical span op l r =>
    let condition := followLogical op (l.follow ω).condition (r.follow ω).condition
    { place := do
        let b ← condition
        perform (.merge (some (if b then 1 else 0)))
        perform (.expr .join span)
      condition := condition }
  | .unary span op a => .leaf ω do
    op.follow (a.follow ω)
    perform (.expr op.form span)
  | .assign span op t v => .leaf ω do
    (t.follow ω).place
    (v.follow ω).passed
    perform (.expr (assignForm op) span)
  | .conditional span c y n => .leaf ω do
    followEither (c.follow ω).condition (y.follow ω).way (n.follow ω).way
    perform (.expr .join span)
  | .call span _ args => .leaf ω do
    followArgs ω args
    perform (.expr .call span)
  | .index span b i => .leaf ω (followPair (b.follow ω) (i.follow ω) (.expr .index span))
  | .member span b _ arrow => .leaf ω do
    followObject arrow (b.follow ω) b.span
    perform (.expr .member span)
  | .cast span type a => .leaf ω do
    (a.follow ω).value
    perform (.expr (.cast type) span)

/-- The course of the arguments of a call. -/
def followArgs (ω : Oracle) (args : List Expr) : Following Unit :=
  match args with
  | [] => return
  | a :: rest => do
    (a.follow ω).passed
    followArgs ω rest

end

/-! ### Declarations -/

/-- The course of an expression that sets a part of a variable. A text sets characters one by one;
zero bytes are there anyway. -/
def followInitExpr (ω : Oracle) (type : CType) (e : Expr) : Following Unit :=
  match e, type.element? with
  | .string span s, some .char =>
    ((bytesOf s).filter (·.1 != 0)).forM fun part => perform (.expr (.constant part.1) span)
  | e, _ => (e.follow ω).passed

mutual

/-- The course of what sets a part of a variable. -/
def Initializer.follow (ω : Oracle) (p : Program) (item : Initializer) (type : CType) :
    Following Unit :=
  match item with
  | .expr e => followInitExpr ω type e
  | .list _ items =>
    match type with
    | .array .. | .struct _ =>
      match initSlots p type items.length with
      | some slots => followSlots ω p items slots
      | none => return
    | scalar => followFirst ω p items scalar

/-- The course of what sets the parts of an aggregate, as far as it has parts. -/
def followSlots (ω : Oracle) (p : Program) (items : List Initializer)
    (slots : List (CType × InitStep)) : Following Unit :=
  match items, slots with
  | item :: items, (type, _) :: slots => do
    item.follow ω p type
    followSlots ω p items slots
  | _, _ => return

/-- A scalar takes the first value of a list. -/
def followFirst (ω : Oracle) (p : Program) (items : List Initializer) (type : CType) :
    Following Unit :=
  match items with
  | item :: _ => item.follow ω p type
  | [] => return

end

/-- The course of what a variable starts with. -/
def followInit (ω : Oracle) (p : Program) (type : CType) (init : Option Initializer) :
    Following Unit :=
  match init with
  | none => return
  | some (.expr e) => if type.isArray then followInitExpr ω type e else (e.follow ω).passed
  | some (.list l items) => (Initializer.list l items).follow ω p type

/-- The course of the declaration of a local variable. A static one is set up before. -/
def VarDecl.follow (ω : Oracle) (p : Program) (d : VarDecl) : Following Unit := do
  if d.isStatic then return
  else
    followInit ω p (completeArray d.type d.init) d.init
    perform (.decl d.location)

/-! ### Statements -/

/-- The course of an expression for its effects only. -/
def followEffect (ω : Oracle) (e : Expr) : Following Unit := do
  (e.follow ω).value
  perform .drop

/-- The course of a return. -/
def followReturn (ω : Oracle) (location : Location) : Option Expr → Following Unit
  | some e => do
    (e.follow ω).passed
    perform (.result location)
  | none => perform (.return location)

/-- How a statement ends. The last way is not one of the language: the course was cut off. -/
inductive Ending where
  | normal | break | continue | return | unfinished
deriving DecidableEq

/-- One statement and then another one, unless the first one jumps away. -/
def followBoth (first second : Following Ending) : Following Ending := do
  match ← first with
  | .normal => second
  | ending => return ending

/-- The turns of a loop, as many as are allowed. A turn may end the loop. -/
def followTurns (turn : Following (Option Ending)) : (turns : Nat) → Following Ending
  | 0 => return .unfinished
  | turns + 1 => do
    match ← turn with
    | some ending => return ending
    | none => followTurns turn turns

/-- What comes after the body of a loop: the next step of its turn, unless the body jumps out. -/
def afterBody (next : Following (Option Ending)) : Ending → Following (Option Ending)
  | .normal | .continue => next
  | .break => return some .normal
  | .return => return some .return
  | .unfinished => return some .unfinished

/-- The turn of a loop that may be over before its body. -/
def followTurn (condition : Following Bool) (body : Following Ending) (step : Following Unit) :
    Following (Option Ending) := do
  followEither condition (do afterBody (do step; return none) (← body)) (return some .normal)

/-- The condition of a `for`; a missing one is a constant that is not zero. -/
def followForCondition (ω : Oracle) (location : Location) (cond : Option Expr) : Following Bool :=
  match cond with
  | some c => (c.follow ω).condition
  | none => do
    perform (.expr (.constant 1) (.point location))
    ω.decide

/-- The case of a switch that a value leads to: the one with this value, else the default one, else
none. -/
def chosenCase (cases : List SwitchCase) (v : Int) : Nat :=
  ((cases.findIdx? fun c => c.2.1.any fun label => label.constant? = some v).or
    (cases.findIdx? fun c => c.2.1.isNone)).getD cases.length

/-- The cases of a switch from one of them on, each falling through to the next. -/
def followFall : List (Following Ending) → Following Ending
  | [] => return .normal
  | first :: rest => followBoth first (followFall rest)

/-- A `break` ends a switch. -/
def afterSwitch : Ending → Ending
  | .break => .normal
  | ending => ending

mutual

/-- The course of a statement, and how it ends. No loop makes more turns than allowed. A `goto` is
not followed. -/
def Stmt.follow (ω : Oracle) (p : Program) (turns : Nat) (s : Stmt) : Following Ending :=
  match s with
  | .empty _ | .label _ _ | .goto _ _ => return .normal
  | .expr _ e => do
    followEffect ω e
    return .normal
  | .decl _ decls => do
    decls.forM (VarDecl.follow ω p)
    return .normal
  | .block _ body => followAll ω p turns body
  | .ifThen _ c yes no =>
    followEither (c.follow ω).condition (yes.follow ω p turns) (followOptional ω p turns no)
  | .whileDo _ c body =>
    followTurns (followTurn (c.follow ω).condition (body.follow ω p turns) (return)) turns
  | .doWhile _ body c =>
    followTurns (do
      afterBody (followEither (c.follow ω).condition (return none) (return some .normal))
        (← body.follow ω p turns)) turns
  | .forDo l init c step body =>
    followBoth (followOptional ω p turns init)
      (followTurns (followTurn (followForCondition ω l c) (body.follow ω p turns)
        (step.forM (followEffect ω))) turns)
  | .switch _ c cases => do
    (c.follow ω).passed
    let v ← ω.answer
    return afterSwitch (← followFall ((followCases ω p turns cases).drop (chosenCase cases v)))
  | .break _ => return .break
  | .continue _ => return .continue
  | .return l value => do
    followReturn ω l value
    return .return

/-- The course of statements one after the other. -/
def followAll (ω : Oracle) (p : Program) (turns : Nat) (body : List Stmt) : Following Ending :=
  match body with
  | [] => return .normal
  | s :: rest => followBoth (s.follow ω p turns) (followAll ω p turns rest)

/-- The course of a statement that may be missing. -/
def followOptional (ω : Oracle) (p : Program) (turns : Nat) (s : Option Stmt) :
    Following Ending :=
  match s with
  | some s => s.follow ω p turns
  | none => return .normal

/-- The courses of the cases of a switch. -/
def followCases (ω : Oracle) (p : Program) (turns : Nat)
    (cases : List (Location × Option Expr × List Stmt)) : List (Following Ending) :=
  match cases with
  | [] => []
  | (_, _, body) :: rest => followAll ω p turns body :: followCases ω p turns rest

end

/-! ### Statements of a kind -/

mutual

/-- All statements in a statement, it included, are of a kind. -/
def Stmt.every (kind : Stmt → Bool) (s : Stmt) : Bool :=
  kind s && match s with
    | .block _ body => everyOf kind body
    | .ifThen _ _ yes no => yes.every kind && everyOptional kind no
    | .whileDo _ _ body | .doWhile _ body _ => body.every kind
    | .forDo _ init _ _ body => everyOptional kind init && body.every kind
    | .switch _ _ cases => everyCase kind cases
    | _ => true

/-- All statements in a list are of a kind. -/
def everyOf (kind : Stmt → Bool) (body : List Stmt) : Bool :=
  match body with
  | [] => true
  | s :: rest => s.every kind && everyOf kind rest

/-- All statements in a statement that may be missing are of a kind. -/
def everyOptional (kind : Stmt → Bool) (s : Option Stmt) : Bool :=
  match s with
  | some s => s.every kind
  | none => true

/-- All statements in the cases of a switch are of a kind. -/
def everyCase (kind : Stmt → Bool) (cases : List (Location × Option Expr × List Stmt)) : Bool :=
  match cases with
  | [] => true
  | (_, _, body) :: rest => everyOf kind body && everyCase kind rest

end

/-- The statement is no `goto`, and if it is a switch, one of its cases at most is the default. -/
def Stmt.isStructured : Stmt → Bool
  | .goto _ _ => false
  | .switch _ _ cases => (cases.filter fun c => c.2.1.isNone).length ≤ 1
  | _ => true

/-! ### Questions to the oracle -/

section

variable {α β : Type} {x : Following α} {f : α → Following β} {c : Course} {n turns : Nat}
  {condition : Following Bool} {e : Ending} {turn : Following (Option Ending)} {body : Following Ending}

/-- The answers that the oracle gave are not taken back. -/
def Advances (x : Following α) : Prop := ∀ c, c.asked ≤ (x c).2.asked

/-- The oracle is asked. -/
def Asks (x : Following α) : Prop := ∀ c, c.asked < (x c).2.asked

theorem Asks.advances (h : Asks x) : Advances x := fun c => (h c).le

theorem Advances.bind (hx : Advances x) (hf : ∀ a, Advances (f a)) : Advances (x >>= f) :=
  fun c => (hx c).trans (hf _ _)

theorem Advances.asks_bind (hx : Advances x) (hf : ∀ a, Asks (f a)) : Asks (x >>= f) :=
  fun c => (hx c).trans_lt (hf _ _)

theorem Asks.bind (hx : Asks x) (hf : ∀ a, Advances (f a)) : Asks (x >>= f) :=
  fun c => (hx c).trans_le (hf _ _)

theorem advances_pure (a : α) : Advances (pure a : Following α) := fun _ => le_rfl

theorem advances_perform (a : Act) : Advances (perform a) := fun _ => le_rfl

theorem asks_answer (ω : Oracle) : Asks ω.answer := fun _ => Nat.lt_succ_self _

theorem Advances.ite {b : Prop} [Decidable b] {y : Following α} (hx : Advances x)
    (hy : Advances y) : Advances (if b then x else y : Following α) := by
  split
  · exact hx
  · exact hy

theorem advances_forM {as : List α} {f : α → Following PUnit} (hf : ∀ a ∈ as, Advances (f a)) :
    Advances (as.forM f) := by
  induction as with
  | nil => exact advances_pure _
  | cons a as ih =>
    exact (hf a mem_cons_self).bind fun _ => ih fun b hb => hf b (mem_cons_of_mem a hb)

theorem advances_optionForM {a? : Option α} {f : α → Following PUnit} (hf : ∀ a, Advances (f a)) :
    Advances (a?.forM f) := by
  cases a? with
  | none => exact advances_pure _
  | some a => exact hf a

theorem asks_decide (ω : Oracle) : Asks ω.decide := (asks_answer ω).bind fun _ => advances_pure _

/-- What goes on, and then one act. -/
theorem Advances.perform {x : Following Unit} (hx : Advances x) (a : Act) :
    Advances (do x; PathScout.perform a) := hx.bind fun _ => advances_perform a

/-- Both courses of an expression go on, and a condition asks the oracle. -/
structure Followed.Asks (x : Followed) : Prop where
  place : Advances x.place
  condition : PathScout.Asks x.condition

theorem Followed.Asks.value {x : Followed} (h : x.Asks) : Advances x.value := h.place.perform _

theorem Followed.Asks.passed {x : Followed} (h : x.Asks) : Advances x.passed := h.value.perform _

theorem Followed.asks_leaf (ω : Oracle) {place : Following Unit} (h : Advances place) :
    (Followed.leaf ω place).Asks where
  place := h
  condition := h.asks_bind fun _ => (advances_perform _).asks_bind fun _ => asks_decide ω

theorem advances_followPair {l r : Followed} (hl : l.Asks) (hr : r.Asks) (a : Act) :
    Advances (followPair l r a) :=
  hl.value.bind fun _ => hr.value.bind fun _ => (advances_perform _).bind fun _ =>
    (advances_perform _).perform a

theorem UnaryOp.advances_follow (op : UnaryOp) {x : Followed} (h : x.Asks) :
    Advances (op.follow x) := by
  cases op with
  | neg | bitNot => exact h.passed
  | not | deref => exact h.value
  | _ => exact h.place

theorem advances_followEither {yes no : Following α} (hc : Advances condition) (hy : Advances yes)
    (hn : Advances no) : Advances (followEither condition yes no) := hc.bind fun _ => hy.ite hn

theorem asks_followLogical (op : LogicalOp) {left right : Following Bool} (hl : Asks left)
    (hr : Asks right) : Asks (followLogical op left right) := by
  refine hl.bind fun b => ?_
  cases op <;> cases b
  · exact advances_pure _
  · exact hr.advances
  · exact hr.advances
  · exact advances_pure _

mutual

theorem Expr.asks_follow (ω : Oracle) (e : Expr) : (e.follow ω).Asks :=
  match e with
  | .int .. | .char .. | .sizeofType .. | .sizeofExpr .. | .string .. | .null .. | .ident .. =>
    Followed.asks_leaf ω (advances_perform _)
  | .binary _ _ l r => Followed.asks_leaf ω (advances_followPair (l.asks_follow ω) (r.asks_follow ω) _)
  | .logical _ op l r => by
    have h := asks_followLogical op (l.asks_follow ω).condition (r.asks_follow ω).condition
    exact ⟨h.advances.bind fun _ => (advances_perform _).perform _, h⟩
  | .unary _ op a => Followed.asks_leaf ω ((op.advances_follow (a.asks_follow ω)).perform _)
  | .assign _ _ t v => Followed.asks_leaf ω ((t.asks_follow ω).place.bind fun _ =>
      (v.asks_follow ω).passed.perform _)
  | .conditional _ c y n => Followed.asks_leaf ω ((advances_followEither
      (c.asks_follow ω).condition.advances ((y.asks_follow ω).passed.perform _)
        ((n.asks_follow ω).passed.perform _)).perform _)
  | .call _ _ args => Followed.asks_leaf ω ((advances_followArgs ω args).perform _)
  | .index _ b i => Followed.asks_leaf ω (advances_followPair (b.asks_follow ω) (i.asks_follow ω) _)
  | .member _ b _ _ => Followed.asks_leaf ω ((((b.asks_follow ω).value.perform _).ite
      (b.asks_follow ω).place).perform _)
  | .cast _ _ a => Followed.asks_leaf ω ((a.asks_follow ω).value.perform _)

theorem advances_followArgs (ω : Oracle) (args : List Expr) : Advances (followArgs ω args) :=
  match args with
  | [] => advances_pure _
  | a :: rest => (a.asks_follow ω).passed.bind fun _ => advances_followArgs ω rest

end

theorem advances_followInitExpr (ω : Oracle) (type : CType) (e : Expr) :
    Advances (followInitExpr ω type e) := by
  unfold followInitExpr
  split
  · exact advances_forM fun _ _ => advances_perform _
  · exact (Expr.asks_follow ω _).passed

mutual

theorem Initializer.advances_follow (ω : Oracle) (p : Program) (item : Initializer)
    (type : CType) : Advances (item.follow ω p type) := by
  unfold Initializer.follow
  match item with
  | .expr e => exact advances_followInitExpr ω type e
  | .list _ items =>
    dsimp only
    split
    iterate 2
      · split
        · exact advances_followSlots ω p items _
        · exact advances_pure _
    · exact advances_followFirst ω p items type

theorem advances_followSlots (ω : Oracle) (p : Program) (items : List Initializer)
    (slots : List (CType × InitStep)) : Advances (followSlots ω p items slots) := by
  unfold followSlots
  match items, slots with
  | item :: items, (type, _) :: slots =>
    exact (item.advances_follow ω p type).bind fun _ => advances_followSlots ω p items slots
  | [], _ | _ :: _, [] => exact advances_pure _

theorem advances_followFirst (ω : Oracle) (p : Program) (items : List Initializer)
    (type : CType) : Advances (followFirst ω p items type) := by
  unfold followFirst
  match items with
  | item :: _ => exact item.advances_follow ω p type
  | [] => exact advances_pure _

end

theorem VarDecl.advances_follow (ω : Oracle) (p : Program) (d : VarDecl) : Advances (d.follow ω p) := by
  refine (advances_pure _).ite (.perform ?_ _)
  unfold followInit
  split
  · exact advances_pure _
  · exact (advances_followInitExpr ω _ _).ite (Expr.asks_follow ω _).passed
  · exact Initializer.advances_follow ω p _ _

theorem advances_followEffect (ω : Oracle) (e : Expr) : Advances (followEffect ω e) :=
  (e.asks_follow ω).value.perform _

/-! ### Courses that are cut off -/

/-- The course goes on, and if it is cut off, the oracle was asked so many times. -/
def Persists (turns : Nat) (x : Following Ending) : Prop :=
  ∀ c, c.asked ≤ (x c).2.asked ∧ ((x c).1 = .unfinished → c.asked + turns ≤ (x c).2.asked)

/-- The turn asks the oracle if the loop goes on, and if it is cut off, so many times. -/
def PersistsIn (turns : Nat) (x : Following (Option Ending)) : Prop :=
  ∀ c, c.asked ≤ (x c).2.asked ∧ ((x c).1 = none → c.asked < (x c).2.asked) ∧
    ((x c).1 = some .unfinished → c.asked + turns ≤ (x c).2.asked)

theorem Advances.persists (hx : Advances x) (he : e ≠ .unfinished) :
    Persists turns (do let _ ← x; return e) := fun c => ⟨hx c, fun h => absurd h he⟩

theorem persists_pure (he : e ≠ .unfinished) :
    Persists turns (pure e) := fun _ => ⟨le_rfl, fun h => absurd h he⟩

theorem Persists.bind_of_advances {f : α → Following Ending} (hx : Advances x)
    (hf : ∀ a, Persists turns (f a)) : Persists turns (x >>= f) := fun c => by
  obtain ⟨hle, hcut⟩ := hf (x c).1 (x c).2
  have hxc := hx c
  exact ⟨hxc.trans hle, fun h => (Nat.add_le_add_right hxc _).trans (hcut h)⟩

theorem persists_followBoth {first second : Following Ending} (h1 : Persists turns first)
    (h2 : Persists turns second) : Persists turns (followBoth first second) := fun c => by
  obtain ⟨hle, hcut⟩ := h1 c
  have heq : followBoth first second c = (match (first c).1 with
    | .normal => second
    | ending => return ending : Following Ending) (first c).2 := rfl
  rw [heq]
  cases he : (first c).1 with
  | normal =>
    obtain ⟨hle', hcut'⟩ := h2 (first c).2
    exact ⟨hle.trans hle', fun h => (Nat.add_le_add_right hle _).trans (hcut' h)⟩
  | unfinished => exact ⟨hle, fun _ => hcut he⟩
  | _ => exact ⟨hle, fun h => nomatch h⟩

theorem persists_followEither {yes no : Following Ending} (hc : Advances condition)
    (hy : Persists turns yes) (hn : Persists turns no) :
    Persists turns (followEither condition yes no) :=
  Persists.bind_of_advances hc fun b => by
    split
    · exact hy
    · exact hn

/-- **A loop that is cut off** asked the oracle in every turn. -/
theorem persists_followTurns (h : PersistsIn turns turn) (hn : n ≤ turns) (c : Course) :
    c.asked ≤ (followTurns turn n c).2.asked ∧
      ((followTurns turn n c).1 = .unfinished → c.asked + n ≤ (followTurns turn n c).2.asked) := by
  induction n generalizing c with
  | zero => exact ⟨le_rfl, fun _ => le_rfl⟩
  | succ n ih =>
    obtain ⟨hle, hon, hcut⟩ := h c
    have heq : followTurns turn (n + 1) c = (match (turn c).1 with
      | some ending => return ending
      | none => followTurns turn n : Following Ending) (turn c).2 := rfl
    rw [heq]
    cases he : (turn c).1 with
    | some ending =>
      refine ⟨hle, fun h => ?_⟩
      have h := hcut (he.trans (congrArg some h))
      show c.asked + (n + 1) ≤ (turn c).2.asked
      omega
    | none =>
      obtain ⟨hle', hcut'⟩ := ih (Nat.le_of_succ_le hn) (turn c).2
      have hlt := hon he
      refine ⟨hle.trans hle', fun h => ?_⟩
      have h := hcut' h
      dsimp only at h ⊢
      omega

/-- After the body of a loop, its turn goes on or is over. -/
theorem afterBody_cases (next : Following (Option Ending)) (ending : Ending) (c : Course) :
    afterBody next ending c = next c ∨
      ∃ e, afterBody next ending c = (some e, c) ∧ (e = .unfinished → ending = .unfinished) := by
  cases ending with
  | normal | «continue» => exact .inl rfl
  | «break» => exact .inr ⟨.normal, rfl, fun h => nomatch h⟩
  | «return» => exact .inr ⟨.return, rfl, fun h => nomatch h⟩
  | unfinished => exact .inr ⟨.unfinished, rfl, id⟩

theorem persistsIn_doWhile (hb : Persists turns body) (hc : Asks condition) : PersistsIn turns (do
      afterBody (followEither condition (return none) (return some .normal)) (← body)) := fun c => by
  obtain ⟨hle, hcut⟩ := hb c
  let next : Following (Option Ending) := followEither condition (return none) (return some .normal)
  have heq : (do afterBody next (← body) : Following (Option Ending)) c =
      afterBody next (body c).1 (body c).2 := rfl
  rw [heq]
  rcases afterBody_cases next (body c).1 (body c).2 with h | ⟨e, h, he⟩
  · have hlt : (body c).2.asked < (next (body c).2).2.asked :=
      hc.bind (fun b => (advances_pure _).ite (advances_pure _)) _
    rw [h]
    refine ⟨hle.trans hlt.le, fun _ => hle.trans_lt hlt, fun hu => ?_⟩
    have hnot : ∀ c', (next c').1 ≠ some .unfinished := fun c' => by
      show ((if (condition c').1 = true then (return none) else (return some .normal) :
        Following (Option Ending)) (condition c').2).1 ≠ _
      split <;> exact fun h => nomatch h
    exact absurd hu (hnot _)
  · rw [h]
    exact ⟨hle, fun h => (nomatch h), fun hu => hcut (he (Option.some.inj hu))⟩

theorem persistsIn_followTurn {step : Following Unit} (hb : Persists turns body) (hc : Asks condition)
    (hs : Advances step) : PersistsIn turns (followTurn condition body step) := fun c => by
  let next : Following (Option Ending) := do step; return none
  have hlt := hc c
  have heq : followTurn condition body step c = (if (condition c).1 = true then
      (do afterBody next (← body)) else (return some .normal) : Following (Option Ending))
        (condition c).2 := rfl
  rw [heq]
  split
  · obtain ⟨hle, hcut⟩ := hb (condition c).2
    have heq' : (do afterBody next (← body) : Following (Option Ending)) (condition c).2 =
        afterBody next (body (condition c).2).1 (body (condition c).2).2 := rfl
    rw [heq']
    rcases afterBody_cases next (body (condition c).2).1 (body (condition c).2).2 with h | ⟨e, h, he⟩
    · have hnext : (body (condition c).2).2.asked ≤ (next (body (condition c).2).2).2.asked :=
        hs.bind (fun _ => advances_pure _) _
      rw [h]
      exact ⟨hlt.le.trans (hle.trans hnext), fun _ => hlt.trans_le (hle.trans hnext),
        fun hu => nomatch hu⟩
    · rw [h]
      refine ⟨hlt.le.trans hle, fun h => (nomatch h), fun hu => ?_⟩
      exact (Nat.add_le_add_right hlt.le _).trans (hcut (he (Option.some.inj hu)))
  · exact ⟨hlt.le, fun h => (nomatch h), fun h => nomatch h⟩

theorem persists_followFall {xs : List (Following Ending)} (h : ∀ x ∈ xs, Persists turns x) :
    Persists turns (followFall xs) := by
  induction xs with
  | nil => exact persists_pure fun h => nomatch h
  | cons x xs ih =>
    exact persists_followBoth (h x mem_cons_self) (ih fun y hy => h y (mem_cons_of_mem x hy))

theorem persists_afterSwitch {x : Following Ending} (h : Persists turns x) :
    Persists turns (do return afterSwitch (← x)) := fun c => by
  obtain ⟨hle, hcut⟩ := h c
  refine ⟨hle, fun hu => hcut ?_⟩
  have hu : afterSwitch (x c).1 = .unfinished := hu
  cases he : (x c).1 with
  | unfinished => rfl
  | _ =>
    rw [he] at hu
    cases hu

theorem persists_turns (h : PersistsIn turns turn) :
    Persists turns (followTurns turn turns) := persists_followTurns h le_rfl

variable {ω : Oracle} {p : Program}

mutual

/-- **A course that is cut off** asked the oracle as often as loops may turn. -/
theorem Stmt.persists_follow (s : Stmt) : Persists turns (s.follow ω p turns) := by
  have hnormal : Ending.normal ≠ .unfinished := fun h => nomatch h
  unfold Stmt.follow
  match s with
  | .empty _ | .label _ _ | .goto _ _ => exact persists_pure hnormal
  | .break _ | .continue _ => exact persists_pure fun h => nomatch h
  | .expr _ e => exact (advances_followEffect ω e).persists hnormal
  | .decl _ decls => exact (advances_forM fun d _ => d.advances_follow ω p).persists hnormal
  | .block _ body => exact persists_followAll body
  | .ifThen _ c yes no =>
    exact persists_followEither (c.asks_follow ω).condition.advances yes.persists_follow
      (persists_followOptional no)
  | .whileDo _ c body =>
    exact persists_turns (persistsIn_followTurn body.persists_follow (c.asks_follow ω).condition
      (advances_pure _))
  | .doWhile _ body c =>
    exact persists_turns (persistsIn_doWhile body.persists_follow (c.asks_follow ω).condition)
  | .forDo l init c step body =>
    refine persists_followBoth (persists_followOptional init) (persists_turns ?_)
    refine persistsIn_followTurn body.persists_follow ?_
      (advances_optionForM (advances_followEffect ω))
    cases c with
    | none => exact (advances_perform _).asks_bind fun _ => asks_decide ω
    | some c => exact (c.asks_follow ω).condition
  | .switch _ c cases =>
    refine .bind_of_advances (c.asks_follow ω).passed fun _ =>
      .bind_of_advances (asks_answer ω).advances fun v => persists_afterSwitch ?_
    exact persists_followFall fun x hx => persists_followCases cases x (mem_of_mem_drop hx)
  | .return l value =>
    refine Advances.persists ?_ fun h => nomatch h
    cases value with
    | none => exact advances_perform _
    | some e => exact (e.asks_follow ω).passed.perform _

theorem persists_followAll (body : List Stmt) : Persists turns (followAll ω p turns body) := by
  unfold followAll
  match body with
  | [] => exact persists_pure fun h => nomatch h
  | s :: rest => exact persists_followBoth s.persists_follow (persists_followAll rest)

theorem persists_followOptional (s : Option Stmt) : Persists turns (followOptional ω p turns s) := by
  unfold followOptional
  match s with
  | some s => exact s.persists_follow
  | none => exact persists_pure fun h => nomatch h

theorem persists_followCases (cases : List (Location × Option Expr × List Stmt)) :
    ∀ x ∈ followCases ω p turns cases, Persists turns x := by
  unfold followCases
  match cases with
  | [] => exact fun x hx => absurd hx not_mem_nil
  | (_, _, body) :: rest =>
    intro x hx
    rcases mem_cons.1 hx with rfl | hx
    · exact persists_followAll body
    · exact persists_followCases rest x hx

end

end

end PathScout

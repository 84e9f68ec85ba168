import PathScout.Exploration.Step
import PathScout.Proofs.FoldLaws

/-!
# Runs of scalar functions on numbers

A scalar function has parameters and local variables of type `int` only and computes with their
values: no calls, no addresses, no global variables, but any flow of control. It can be run on
numbers. A run stops where it reads a variable that was not set and where an operator is undefined.

* `Config`: what a run knows. `Config.evaluate?`, `Config.step?`: one expression, one step of a block.
* `Config.next?`: the block after the end of a block. `Halts`: a run to the end of a function.
* `IsScalar`: the functions that are run, as they are built from a source unit.
-/

namespace PathScout

open Option

/-- The value of an integer variable that is declared with a list before the entries of the list are
set: only memory with regions fills it with zeros. -/
def StorePolicy.blank : StorePolicy → Option Int
  | region => some 0
  | flat => none

/-! ### Configurations -/

/-- What an expression was evaluated to: a number, or the place of a variable. -/
inductive Datum where
  | int (n : Int)
  | place (v : VarId)
deriving DecidableEq

/-- What a run knows: the expressions that were evaluated, the variables that are set, and what the
function returns. -/
structure Config where
  exprs : ExprId → Option Datum
  vars : VarId → Option Int
  result : Option Int

namespace Config

/-- The number that an expression was evaluated to. -/
def int? (κ : Config) (e : ExprId) : Option Int :=
  match κ.exprs e with
  | some (.int n) => some n
  | _ => none

/-- The variable whose place an expression was evaluated to. -/
def place? (κ : Config) (e : ExprId) : Option VarId :=
  match κ.exprs e with
  | some (.place v) => some v
  | _ => none

/-- Gives an expression what it was evaluated to. -/
def setExpr (κ : Config) (e : ExprId) (d : Datum) : Config :=
  { κ with exprs := fun a => if a = e then some d else κ.exprs a }

/-- Sets a variable, or makes it one that is not set. -/
def setVar (κ : Config) (v : VarId) (n : Option Int) : Config :=
  { κ with vars := fun w => if w = v then n else κ.vars w }

/-- Forgets all expressions. -/
def clear (κ : Config) : Config := { κ with exprs := fun _ => none }

/-- The configuration at the start: the parameters have the values of the arguments. -/
def start (params : List VarId) (args : List Int) : Config where
  exprs := fun _ => none
  vars := fun v => (params.zip args).lookup v
  result := none

/-- The number that an operator gives, if it is defined. -/
def number? : Value → Option Int
  | .int n => some n
  | _ => none

/-- Evaluates an expression. -/
def evaluate? (p : Program) (e : ExprId) (κ : Config) : Option Config :=
  match (p.expr e).op with
  | .int n => some (κ.setExpr e (.int (CType.int.wrap n)))
  | .var v => some (κ.setExpr e (.place v))
  | .load place => do
    let n ← κ.vars (← κ.place? place)
    return κ.setExpr e (.int n)
  | .unary op a => do
    let n ← number? (Naming.foldUnary op (← κ.int? a))
    return κ.setExpr e (.int n)
  | .binary op l r => do
    let n ← number? (foldInts op (← κ.int? l) (← κ.int? r) .int)
    return κ.setExpr e (.int n)
  | .assign place value => do
    let v ← κ.place? place
    let n ← κ.int? value
    return (κ.setVar v (some n)).setExpr e (.int n)
  | .compound op place value => do
    let v ← κ.place? place
    let n ← number? (foldInts op (← κ.vars v) (← κ.int? value) .int)
    return (κ.setVar v (some n)).setExpr e (.int n)
  | .incDec place increment before => do
    let v ← κ.place? place
    let old ← κ.vars v
    let n ← number? (foldInts (if increment then .add else .sub) old 1 .int)
    return (κ.setVar v (some n)).setExpr e (.int (if before then n else old))
  | .join => some κ
  | _ => none

/-! ### What an expression needs -/

theorem number?_eq_some {v : Value} {n : Int} : number? v = some n ↔ v = .int n := by
  cases v with
  | int m => simp only [number?, some.injEq, Value.int.injEq]
  | _ => simp [number?]

section

variable {p : Program} {e place value : ExprId} {κ κ' : Config} {op : BinaryOp}
  (h : κ.evaluate? p e = some κ')
include h

theorem evaluate?_load (hop : (p.expr e).op = .load place) :
    ∃ v n, κ.place? place = some v ∧ κ.vars v = some n ∧ κ' = κ.setExpr e (.int n) := by
  simp only [evaluate?, hop, bind_eq_bind, bind_eq_some_iff] at h
  obtain ⟨v, hv, n, hn, hκ⟩ := h
  cases hκ
  exact ⟨v, n, hv, hn, rfl⟩

theorem evaluate?_unary {op : ValueOp} {a : ExprId} (hop : (p.expr e).op = .unary op a) :
    ∃ m n, κ.int? a = some m ∧ Naming.foldUnary op m = .int n ∧ κ' = κ.setExpr e (.int n) := by
  simp only [evaluate?, hop, bind_eq_bind, bind_eq_some_iff, number?_eq_some] at h
  obtain ⟨m, hm, n, hn, hκ⟩ := h
  cases hκ
  exact ⟨m, n, hm, hn, rfl⟩

theorem evaluate?_binary {l r : ExprId} (hop : (p.expr e).op = .binary op l r) :
    ∃ a b n, κ.int? l = some a ∧ κ.int? r = some b ∧ foldInts op a b .int = .int n ∧
      κ' = κ.setExpr e (.int n) := by
  simp only [evaluate?, hop, bind_eq_bind, bind_eq_some_iff, number?_eq_some] at h
  obtain ⟨a, ha, b, hb, n, hn, hκ⟩ := h
  cases hκ
  exact ⟨a, b, n, ha, hb, hn, rfl⟩

theorem evaluate?_assign (hop : (p.expr e).op = .assign place value) :
    ∃ v n, κ.place? place = some v ∧ κ.int? value = some n ∧
      κ' = (κ.setVar v (some n)).setExpr e (.int n) := by
  simp only [evaluate?, hop, bind_eq_bind, bind_eq_some_iff] at h
  obtain ⟨v, hv, n, hn, hκ⟩ := h
  cases hκ
  exact ⟨v, n, hv, hn, rfl⟩

theorem evaluate?_compound (hop : (p.expr e).op = .compound op place value) :
    ∃ v old b n, κ.place? place = some v ∧ κ.vars v = some old ∧ κ.int? value = some b ∧
      foldInts op old b .int = .int n ∧ κ' = (κ.setVar v (some n)).setExpr e (.int n) := by
  simp only [evaluate?, hop, bind_eq_bind, bind_eq_some_iff, number?_eq_some] at h
  obtain ⟨v, hv, old, hold, b, hb, n, hn, hκ⟩ := h
  cases hκ
  exact ⟨v, old, b, n, hv, hold, hb, hn, rfl⟩

theorem evaluate?_incDec {increment before : Bool} (hop : (p.expr e).op = .incDec place increment before) :
    ∃ v old n, κ.place? place = some v ∧ κ.vars v = some old ∧
      foldInts (if increment then .add else .sub) old 1 .int = .int n ∧
      κ' = (κ.setVar v (some n)).setExpr e (.int (if before then n else old)) := by
  simp only [evaluate?, hop, bind_eq_bind, bind_eq_some_iff, number?_eq_some] at h
  obtain ⟨v, hv, old, hold, n, hn, hκ⟩ := h
  cases hκ
  exact ⟨v, old, n, hv, hold, hn, rfl⟩

end

/-- Sets a variable to the values of a list, one after the other. -/
def setAll (v : VarId) : List InitEntry → Config → Option Config
  | [], κ => some κ
  | entry :: rest, κ => do setAll v rest (κ.setVar v (some (← κ.int? entry.value)))

/-- Does one step of a block. A variable that is declared with a list has the value `blank` before
the entries of the list are set. -/
def act? (p : Program) (blank : Option Int) (el : Element) (κ : Config) : Option Config :=
  match el with
  | .expr e _ => κ.evaluate? p e
  | .decl v none _ => some (κ.setVar v none)
  | .decl v (some (.expr e)) _ => do return κ.setVar v (some (← κ.int? e))
  | .decl v (some (.list entries)) _ => setAll v entries (κ.setVar v blank)
  | .merge target (.int n) => some (κ.setExpr target (.int (CType.int.wrap n)))
  | .merge target (.expr a) => do return κ.setExpr target (.int (← κ.int? a))
  | .return none _ => some κ
  | .return (some e) _ => do return { κ with result := some (← κ.int? e) }

/-- What a step leaves: after a statement, no expression. -/
def settle (el : Element) (κ : Config) : Config := if el.isRoot then κ.clear else κ

/-- The block that follows. -/
def next? (κ : Config) : Terminator → Option BlockId
  | .goto target _ => some target
  | .branch cond yes no _ _ => do return if (← κ.int? cond) ≠ 0 then yes else no
  | .switch cond cases default _ _ => do
    let n ← κ.int? cond
    return ((cases.find? fun c => CType.int.wrap c.value = n).map (·.block)).getD default
  | .exit => none

end Config

/-- The run from a step of a block ends in a configuration. -/
inductive Halts (p : Program) (g : FlowGraph) (blank : Option Int) :
    BlockId → Nat → Config → Config → Prop where
  | step {b : BlockId} {block : Block} {i : Nat} {el : Element} {κ κ' out : Config} :
    g.block? b = some block → block.elements[i]? = some el → κ.act? p blank el = some κ' →
    Halts p g blank b (i + 1) (κ'.settle el) out → Halts p g blank b i κ out
  | jump {b b' : BlockId} {block : Block} {i : Nat} {κ out : Config} :
    g.block? b = some block → block.elements[i]? = none → κ.next? block.terminator = some b' →
    Halts p g blank b' 0 κ out → Halts p g blank b i κ out
  | exit {b : BlockId} {block : Block} {i : Nat} {κ : Config} :
    g.block? b = some block → block.elements[i]? = none → block.terminator = .exit →
    Halts p g blank b i κ κ

/-- The configuration in which a run ends, if it does so within some steps. -/
def Config.run? (p : Program) (g : FlowGraph) (blank : Option Int) :
    (steps : Nat) → BlockId → Nat → Config → Option Config
  | 0, _, _, _ => none
  | steps + 1, b, i, κ => do
    let block ← g.block? b
    match block.elements[i]? with
    | some el => run? p g blank steps b (i + 1) ((← κ.act? p blank el).settle el)
    | none =>
      if block.terminator = .exit then return κ
      else run? p g blank steps (← κ.next? block.terminator) 0 κ

theorem Halts.of_run? {p : Program} {g : FlowGraph} {blank : Option Int} {steps : Nat} {b : BlockId}
    {i : Nat} {κ out : Config} (h : Config.run? p g blank steps b i κ = some out) :
    Halts p g blank b i κ out := by
  induction steps generalizing b i κ with
  | zero => cases h
  | succ steps ih =>
    unfold Config.run? at h
    obtain ⟨block, hb, h⟩ := bind_eq_some_iff.1 h
    split at h
    · next el hel =>
      obtain ⟨κ', hact, h⟩ := bind_eq_some_iff.1 h
      exact .step hb hel hact (ih h)
    · next hnone =>
      split at h
      · next hexit =>
        cases h
        exact .exit hb hnone hexit
      · obtain ⟨b', hnext, h⟩ := bind_eq_some_iff.1 h
        exact .jump hb hnone hnext (ih h)

/-! ### Scalar functions -/

namespace Program

/-- The expression has a number as its value. -/
def IsNumber (p : Program) (e : ExprId) : Prop :=
  (p.expr e).type = .int ∧ ∀ v, (p.expr e).op ≠ .var v

/-- The expression names a variable. -/
def IsName (p : Program) (vars : List VarId) (e : ExprId) : Prop :=
  (p.expr e).type = .int ∧ ∃ v ∈ vars, (p.expr e).op = .var v

/-- What the live variables of a function are computed from. -/
def scope (p : Program) : Liveness.Scope := ⟨p.exprs, fun v => !(p.var v).hasGlobalStorage⟩

/-- The expression computes with numbers and variables only. The name of a variable that is
assigned to is not used to read it. -/
def ScalarExpr (p : Program) (vars : List VarId) (assigned : List ExprId) (e : ExprId) : Prop :=
  (p.expr e).type = .int ∧ match (p.expr e).op with
    | .int _ | .join => True
    | .var v => v ∈ vars
    | .load place => p.IsName vars place ∧ place ∉ assigned
    | .unary _ a => p.IsNumber a
    | .binary _ l r => p.IsNumber l ∧ p.IsNumber r
    | .assign place value => p.IsName vars place ∧ p.IsNumber value
    | .compound _ place value => p.IsName vars place ∧ place ∉ assigned ∧ p.IsNumber value
    | .incDec place _ _ => p.IsName vars place ∧ place ∉ assigned
    | _ => False

/-- The step computes with numbers and variables only. -/
def ScalarElement (p : Program) (vars : List VarId) (assigned : List ExprId) (el : Element) : Prop :=
  match el with
  | .expr e _ => p.ScalarExpr vars assigned e
  | .decl v init _ => v ∈ vars ∧ match init with
    | none => True
    | some (.expr e) => p.IsNumber e
    | some (.list entries) => ∀ entry ∈ entries, entry.path = [] ∧ p.IsNumber entry.value
  | .merge target value => p.IsNumber target ∧ match value with
    | .int _ => True
    | .expr e => p.IsNumber e
  | .return value _ => ∀ e ∈ value, p.IsNumber e

/-- The end of a block is decided by a number. -/
def ScalarTerminator (p : Program) (t : Terminator) : Prop :=
  match t with
  | .branch cond .. | .switch cond .. => p.IsNumber cond
  | .goto .. | .exit => True

/-- The function has parameters and local variables of type `int` only and computes with their
values. The rest is what building a function takes care of: the live variables solve their equations,
and no two loops are told apart by the same expression. -/
structure IsScalar (p : Program) (f : FunctionId) (body : FunctionBody) : Prop where
  body_eq : (p.function f).body = some body
  isParam : ∀ v ∈ (p.function f).params, ∃ i, (p.var v).kind = .param i
  isLocal : ∀ v ∈ body.locals, (p.var v).kind = .local
  isInt : ∀ v ∈ (p.function f).params ++ body.locals, (p.var v).type = .int
  isGlobal : ∀ g ∈ p.globals, (p.var g.var).hasGlobalStorage = true
  element : ∀ block ∈ body.graph.blocks, ∀ el ∈ block.elements,
    p.ScalarElement ((p.function f).params ++ body.locals)
      (Liveness.assignedNames p.scope body.graph) el
  terminator : ∀ block ∈ body.graph.blocks, p.ScalarTerminator block.terminator
  live : ∀ b block, body.graph.block? b = some block →
    ∀ v ∈ Liveness.beforeBlock p.scope (Liveness.assignedNames p.scope body.graph)
      body.liveness.liveIn block, v ∈ body.liveness.liveIn[b.index]?.getD []
  loopExpr : ∀ b b' block block', body.graph.block? b = some block →
    body.graph.block? b' = some block' → block.loopHead = true → block'.loopHead = true →
    ∀ e, Exploring.loopExpr? block = some e → Exploring.loopExpr? block' = some e → b = b'

end Program

end PathScout

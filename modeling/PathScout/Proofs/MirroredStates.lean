import PathScout.Proofs.ScalarSteps

/-!
# States and runs with undefined values

A state mirrors a run that goes on with undefined values if every number of the run is what the state
says under an assignment. Nothing is asked of what is undefined in the run, so a state may know more:
it may hold a symbol where an operator was undefined. But what is undefined in the state is undefined
in the run.

* `Study.Mirrors`: a state mirrors a run, as far as it is still needed.
* `Study.Mirrors.undefined_of_isUndefined`: what is undefined in the state is so in the run.
* `Study.Mirrors.setNumber`, `Study.Mirrors.setVar`, `Study.Mirrors.put`: expressions and variables.
* `Study.Mirrors.fetch`, `Study.Mirrors.updated`: reading a place, and what an assignment stores.
-/

namespace PathScout

open Naming Option OrderedMap

/-!
## Runs that go on with undefined values

A run of a scalar function need not stop where it reads a variable that was not set, or where an
operator is undefined. It can go on: what is computed from an undefined value is undefined, and a
branch on one may go either way. Such runs decide whether a finding is real.

* `Machine`: what such a run knows. `Machine.evaluate`, `Machine.perform`: one expression, one step
  of a block.
* `Machine.Goes`: the blocks that may follow. `Arrives`: the run comes to a step of a block.
* `Machine.Shows`: what a run is like where it does what a finding is about.
* `Occurs`: a finding that some run shows at the point where it was made.
-/

/-- What an expression was evaluated to. -/
inductive Operand where
  | int (n : Int)
  | place (v : VarId)
  | undefined
deriving DecidableEq

/-- A number, if there is one. -/
def Operand.ofInt? : Option Int → Operand
  | some n => int n
  | none => undefined

/-- What a run knows that goes on with undefined values: the expressions that were evaluated, and the
variables that hold a number. -/
structure Machine where
  exprs : ExprId → Option Operand
  vars : VarId → Option Int

namespace Machine

/-- The number that an expression was evaluated to. -/
def int? (κ : Machine) (e : ExprId) : Option Int :=
  match κ.exprs e with
  | some (.int n) => some n
  | _ => none

/-- The variable whose place an expression was evaluated to. -/
def place? (κ : Machine) (e : ExprId) : Option VarId :=
  match κ.exprs e with
  | some (.place v) => some v
  | _ => none

/-- The number in the variable whose place an expression was evaluated to. -/
def held? (κ : Machine) (place : ExprId) : Option Int := (κ.place? place).bind κ.vars

/-- Gives an expression what it was evaluated to. -/
def setExpr (κ : Machine) (e : ExprId) (d : Operand) : Machine :=
  { κ with exprs := fun a => if a = e then some d else κ.exprs a }

/-- Sets a variable, or makes it one that holds no number. -/
def setVar (κ : Machine) (v : VarId) (n : Option Int) : Machine :=
  { κ with vars := fun w => if w = v then n else κ.vars w }

/-- Sets the variable that a place names. It holds no number if the place was not evaluated. -/
def put (p : Program) (κ : Machine) (place : ExprId) (n : Option Int) : Machine :=
  match (p.expr place).op with
  | .var v => κ.setVar v ((κ.place? place).bind fun _ => n)
  | _ => κ

/-- Forgets all expressions. -/
def clear (κ : Machine) : Machine := { κ with exprs := fun _ => none }

/-- At the start, the parameters have the values of the arguments. -/
def start (params : List VarId) (args : List Int) : Machine where
  exprs := fun _ => none
  vars := fun v => (params.zip args).lookup v

/-- What an operator with one operand gives, if it is defined. -/
def unary? (op : ValueOp) (a : Option Int) : Option Int := do
  Config.number? (foldUnary op (← a))

/-- What an operator with two operands gives, if it is defined. -/
def binary? (op : BinaryOp) (l r : Option Int) : Option Int := do
  Config.number? (foldInts op (← l) (← r) .int)

/-- What an assignment stores, if that is defined. -/
def stored? (κ : Machine) : Operation → Option Int
  | .assign _ value => κ.int? value
  | .compound op place value => binary? op (κ.held? place) (κ.int? value)
  | .incDec place increment _ => binary? (if increment then .add else .sub) (κ.held? place) (some 1)
  | _ => none

/-- What the value of an assignment is, if that is defined. -/
def assigned? (κ : Machine) : Operation → Option Int
  | .incDec place _ false => κ.held? place
  | op => κ.stored? op

/-- Evaluates an expression. -/
def evaluate (p : Program) (e : ExprId) (κ : Machine) : Machine :=
  let op := (p.expr e).op
  match op with
  | .int n => κ.setExpr e (.int (CType.int.wrap n))
  | .var v => κ.setExpr e (.place v)
  | .load place => κ.setExpr e (.ofInt? (κ.held? place))
  | .unary op a => κ.setExpr e (.ofInt? (unary? op (κ.int? a)))
  | .binary op l r => κ.setExpr e (.ofInt? (binary? op (κ.int? l) (κ.int? r)))
  | .assign place _ | .compound _ place _ | .incDec place _ _ =>
    (κ.put p place (κ.stored? op)).setExpr e (.ofInt? (κ.assigned? op))
  | _ => κ

/-- Does one step of a block. A variable that is declared with a list has the value `blank` before
the entries of the list are set. -/
def perform (p : Program) (blank : Option Int) (el : Element) (κ : Machine) : Machine :=
  match el with
  | .expr e _ => κ.evaluate p e
  | .decl v none _ => κ.setVar v none
  | .decl v (some (.expr e)) _ => κ.setVar v (κ.int? e)
  | .decl v (some (.list entries)) _ =>
    entries.foldl (fun κ entry => κ.setVar v (κ.int? entry.value)) (κ.setVar v blank)
  | .merge target (.int n) => κ.setExpr target (.int (CType.int.wrap n))
  | .merge target (.expr a) => κ.setExpr target (.ofInt? (κ.int? a))
  | .return .. => κ

/-- What a step leaves: after a statement, no expression. -/
def settle (el : Element) (κ : Machine) : Machine := if el.isRoot then κ.clear else κ

/-- The block may follow: the one that the condition says, or any if the condition is undefined. -/
def Goes (κ : Machine) (t : Terminator) (b : BlockId) : Prop :=
  match t with
  | .goto target _ => b = target
  | .branch cond yes no _ _ =>
    match κ.int? cond with
    | some n => b = if n ≠ 0 then yes else no
    | none => b = yes ∨ b = no
  | .switch cond cases default _ _ =>
    match κ.int? cond with
    | some n => (∃ c ∈ cases, CType.int.wrap c.value = n ∧ b = c.block) ∨
        (∀ c ∈ cases, CType.int.wrap c.value ≠ n) ∧ b = default
    | none => (∃ c ∈ cases, b = c.block) ∨ b = default
  | .exit => False

end Machine

/-- A run from the entry of a flow graph comes to a step of a block. -/
inductive Arrives (p : Program) (g : FlowGraph) (blank : Option Int) (start : Machine) :
    BlockId → Nat → Machine → Prop where
  | entry : Arrives p g blank start g.entry 0 start
  | step {b : BlockId} {block : Block} {i : Nat} {el : Element} {κ : Machine} :
    Arrives p g blank start b i κ → g.block? b = some block → block.elements[i]? = some el →
    Arrives p g blank start b (i + 1) ((κ.perform p blank el).settle el)
  | jump {b b' : BlockId} {block : Block} {i : Nat} {κ : Machine} :
    Arrives p g blank start b i κ → g.block? b = some block → block.elements[i]? = none →
    κ.Goes block.terminator b' → Arrives p g blank start b' 0 κ

/-! ### Findings -/

namespace Machine

/-- The run divides by zero, or by an undefined value. -/
def DividesByZero (p : Program) (κ : Machine) (e : ExprId) : Prop :=
  ∃ divisor, Division.divisor? p e = some divisor ∧
    (κ.exprs divisor = some (.int 0) ∨ κ.exprs divisor = some .undefined)

/-- The run computes with an undefined value: with the operand of an operator that is named, or with
what the variable holds that is assigned to. -/
def ComputesGarbage (p : Program) (κ : Machine) (e : ExprId) (description : String) : Prop :=
  match (p.expr e).op with
  | .binary op l r => ∃ side operand, (side = "left" ∧ operand = l ∨ side = "right" ∧ operand = r) ∧
    description = "The " ++ side ++ " operand of '" ++ op.symbol ++ "' is a garbage value" ∧
    κ.exprs operand = some .undefined
  | .compound _ place _ | .incDec place _ _ => ∃ v, κ.place? place = some v ∧ κ.vars v = none
  | _ => False

/-- The run stores an undefined value. -/
def StoresGarbage (p : Program) (κ : Machine) (e : ExprId) : Prop :=
  match (p.expr e).op with
  | .assign .. | .compound .. | .incDec .. => κ.stored? (p.expr e).op = none
  | _ => False

/-- The run does at a step what a finding is about, and the finding names the place of the step. -/
def Shows (p : Program) (κ : Machine) (f : Finding) : Element → Prop
  | .expr e _ => f.location = (p.expr e).location ∧
    (f.type = Division.zeroType ∧ κ.DividesByZero p e ∨
      f.type = Garbage.operationType ∧ κ.ComputesGarbage p e f.description ∨
      f.type = Garbage.assignmentType ∧ κ.StoresGarbage p e)
  | .decl _ (some (.expr e)) location =>
    f.location = location ∧ f.type = Garbage.assignmentType ∧ κ.exprs e = some .undefined
  | .return (some e) location =>
    f.location = location ∧ f.type = Garbage.returnType ∧ κ.exprs e = some .undefined
  | _ => False

/-- The run branches on an undefined value at the end of a block. -/
def BranchesOnGarbage (p : Program) (κ : Machine) (f : Finding) : Terminator → Prop
  | .branch cond .. | .switch cond .. => f.location = (p.expr cond).location ∧
    f.type = Garbage.branchType ∧ κ.exprs cond = some .undefined
  | _ => False

end Machine

/-- For some arguments, a run comes to the point where a finding was made and does there what the
finding is about. -/
def Occurs (p : Program) (function : FunctionId) (g : FlowGraph) (blank : Option Int) (f : Finding)
    (kind : PointKind) : Prop :=
  ∃ args : List Int, args.length = (p.function function).params.length ∧
    (∀ n ∈ args, n ∈ CType.int.domain) ∧
    match kind with
    | .before b i => ∃ block el κ, g.block? b = some block ∧ block.elements[i]? = some el ∧
      Arrives p g blank (.start (p.function function).params args) b i κ ∧ κ.Shows p f el
    | .exit b => ∃ block κ, g.block? b = some block ∧
      Arrives p g blank (.start (p.function function).params args) b block.elements.size κ ∧
      κ.BranchesOnGarbage p f block.terminator
    | _ => False

/-! ## States and runs with undefined values -/

namespace Study

variable {k : Study} {c d z : Catalog} {P : Symbol → Prop} {s : State} {env : Environment} {σ τ : Store}
  {live live' : VarId → Prop} {κ : Machine} {α : Assignment} {e place : ExprId} {x y : VarId}
  {r : RegionId} {v : Value} {n : Int} {n? l : Option Int}

/-- The variable is read before it is written again: it is live, or its place was evaluated to be
read. -/
def Wanted (k : Study) (live : VarId → Prop) (κ : Machine) (x : VarId) : Prop :=
  live x ∨ ∃ e, κ.exprs e = some (.place x) ∧ e ∉ k.assigned

/-- The environment and the memory mirror the run under the assignment, as far as it is still
needed. The same expressions were evaluated in both. -/
structure Mirrors (k : Study) (z : Catalog) (live : VarId → Prop) (env : Environment) (σ : Store)
    (κ : Machine) (α : Assignment) : Prop where
  int {e : ExprId} {n : Int} : κ.exprs e = some (.int n) →
    n ∈ CType.int.domain ∧ ∃ v, env.get? (.expr topFrame e) = some v ∧ v.Denotes z α n
  place {e : ExprId} {x : VarId} : κ.exprs e = some (.place x) →
    x ∈ k.vars ∧ ∃ r, z.IsVar topFrame x r ∧ env.get? (.expr topFrame e) = some (.pointer r)
  evaluated {e : ExprId} {v : Value} : env.get? (.expr topFrame e) = some v →
    ∃ d, κ.exprs e = some d
  name {e : ExprId} {x : VarId} {d : Operand} : (k.program.expr e).op = .var x →
    κ.exprs e = some d → d = .place x
  var {x : VarId} {n : Int} {r : RegionId} : x ∈ k.vars → κ.vars x = some n →
    k.Wanted live κ x → z.IsVar topFrame x r → k.Keeps z σ α x r n
  domain {x : VarId} {n : Int} : κ.vars x = some n → n ∈ CType.int.domain

/-- The value stands for the number, if there is one. -/
def Expresses (z : Catalog) (α : Assignment) (v : Value) (n? : Option Int) : Prop :=
  ∀ n, n? = some n → n ∈ CType.int.domain ∧ v.Denotes z α n

/-! ### Operators -/

theorem binary?_eq_some {op : BinaryOp} {r : Option Int} : Machine.binary? op l r = some n ↔
      ∃ a b, l = some a ∧ r = some b ∧ foldInts op a b .int = .int n := by
  simp only [Machine.binary?, bind_eq_bind, bind_eq_some_iff, Config.number?_eq_some]
  constructor
  · rintro ⟨a, ha, b, hb, hn⟩
    exact ⟨a, b, ha, hb, hn⟩
  · rintro ⟨a, b, ha, hb, hn⟩
    exact ⟨a, ha, b, hb, hn⟩

/-- An operator with two operands gives what it gives in the run. -/
theorem Expresses.binary {w : Value} {r : Option Int} (hv : Expresses z α v l) (hw : Expresses z α w r)
    (hc : c.Arithmetic) (hvc : v.Plain c P) (hwc : w.Plain c P) (op : BinaryOp)
    (hz : (binary op v w .int c).2 ≤ z) :
    Expresses z α (binary op v w .int c).1 (Machine.binary? op l r) := by
  have hcomp := computes_binary hc op hvc hwc
  have hcz := hcomp.le.trans hz
  intro n hn
  obtain ⟨a, b, ha, hb, hfold⟩ := binary?_eq_some.1 hn
  refine ⟨mem_domain_of_foldInts rfl hfold, (hcomp.denotes ⟨a, b, ?_, ?_, hfold⟩).mono hcomp.plain hz⟩
  · exact (hv a ha).2.of_le hvc hcz
  · exact (hw b hb).2.of_le hwc hcz

/-- An operator with one operand gives what it gives in the run. -/
theorem Expresses.unary {a? : Option Int} (hv : Expresses z α v a?) (hc : c.Arithmetic)
    (hvc : v.Plain c P) (op : ValueOp) (hz : (unary op v .int c).2 ≤ z) :
    Expresses z α (unary op v .int c).1 (Machine.unary? op a?) := by
  have hcomp := computes_unary hc op hvc
  intro n hn
  simp only [Machine.unary?, bind_eq_bind, bind_eq_some_iff, Config.number?_eq_some] at hn
  obtain ⟨a, ha, hfold⟩ := hn
  have hden := (hv a ha).2.of_le hvc (hcomp.le.trans hz)
  exact ⟨mem_domain_of_foldUnary hfold, (hcomp.denotes ⟨a, hden, hfold⟩).mono hcomp.plain hz⟩

namespace Mirrors

variable {entries : List InitEntry}

/-! ### What a run knows -/

section

variable (h : k.Mirrors z live s.env σ κ α)
include h

theorem value_int : Expresses z α (s.value topFrame e) (κ.int? e) := by
  intro n hn
  unfold Machine.int? at hn
  split at hn
  · next m hm =>
    cases hn
    obtain ⟨hdomain, v, hv, hd⟩ := h.int hm
    rw [State.value, hv]
    exact ⟨hdomain, hd⟩
  · cases hn

theorem value_place (he : κ.place? e = some x) : x ∈ k.vars ∧ κ.exprs e = some (.place x) ∧
      ∃ r, z.IsVar topFrame x r ∧ s.value topFrame e = .pointer r := by
  unfold Machine.place? at he
  split at he
  · next y hy =>
    cases he
    obtain ⟨hx, r, hr, hv⟩ := h.place hy
    rw [State.value, hv]
    exact ⟨hx, hy, r, hr, rfl⟩
  · cases he

/-- An expression that has a value was evaluated. -/
theorem evaluated_of_value (hv : s.value topFrame e ≠ .unknown) : ∃ d, κ.exprs e = some d := by
  cases hget : s.env.get? (.expr topFrame e) with
  | none =>
    rw [State.value, hget] at hv
    exact absurd rfl hv
  | some v => exact h.evaluated hget

/-- **What is undefined in the state is undefined in the run.** -/
theorem undefined_of_isUndefined (hv : (s.value topFrame e).isUndefined = true) :
    κ.exprs e = some .undefined := by
  obtain ⟨d, hd⟩ := h.evaluated_of_value (fun hu => by rw [hu] at hv; cases hv)
  cases d with
  | int n =>
    obtain ⟨-, v, hget, hden⟩ := h.int hd
    rw [State.value, hget] at hv
    cases hden.isUndefined_eq.symm.trans hv
  | place x =>
    obtain ⟨-, r, -, hget⟩ := h.place hd
    rw [State.value, hget] at hv
    cases hv
  | undefined => exact hd

/-- The place of a name was evaluated in both or in none. -/
theorem place?_of_name (hop : (k.program.expr e).op = .var x) (hv : s.value topFrame e ≠ .unknown) :
    κ.place? e = some x := by
  obtain ⟨d, hd⟩ := h.evaluated_of_value hv
  cases h.name hop hd
  rw [Machine.place?, hd]

end

section

variable (h : k.Mirrors z live env σ κ α)
include h

/-- Fewer variables may be wanted. -/
theorem mono (hlive : ∀ x, live' x → live x) : k.Mirrors z live' env σ κ α :=
  { h with var := fun hx hn hneed hr => h.var hx hn (hneed.imp_left (hlive _)) hr }

/-! ### Expressions -/

theorem setExpr {d : Operand} (hint : ∀ n, d = .int n → n ∈ CType.int.domain ∧ v.Denotes z α n)
    (hplace : ∀ x, d = .place x → x ∈ k.vars ∧ ∃ r, z.IsVar topFrame x r ∧ v = .pointer r)
    (hname : ∀ x, (k.program.expr e).op = .var x → d = .place x)
    (hwanted : ∀ x, k.Wanted live' (κ.setExpr e d) x → k.Wanted live κ x) :
    k.Mirrors z live' (env.insert (.expr topFrame e) v) σ (κ.setExpr e d) α where
  int {a n} ha := by
    simp only [Machine.setExpr] at ha
    rw [get?_insert]
    split at ha
    · next hae =>
      cases ha
      obtain ⟨hdomain, hd⟩ := hint n rfl
      exact ⟨hdomain, v, by rw [if_pos (hae ▸ rfl)], hd⟩
    · next hae =>
      rw [if_neg fun he => hae (EnvKey.expr.inj he).2]
      exact h.int ha
  place {a x} ha := by
    simp only [Machine.setExpr] at ha
    rw [get?_insert]
    split at ha
    · next hae =>
      cases ha
      obtain ⟨hx, r, hr, hv⟩ := hplace x rfl
      exact ⟨hx, r, hr, by rw [if_pos (hae ▸ rfl), hv]⟩
    · next hae =>
      rw [if_neg fun he => hae (EnvKey.expr.inj he).2]
      exact h.place ha
  evaluated {a w} ha := by
    simp only [Machine.setExpr]
    split
    · exact ⟨d, rfl⟩
    · next hae =>
      rw [get?_insert_of_ne fun he => hae (EnvKey.expr.inj he).2] at ha
      exact h.evaluated ha
  name {a x d'} hop ha := by
    simp only [Machine.setExpr] at ha
    split at ha
    · next hae =>
      cases ha
      exact hname x (hae ▸ hop)
    · exact h.name hop ha
  var hx hn hx' hr := h.var hx hn (hwanted _ hx') hr
  domain := h.domain

/-- A number is no place, so no variable is wanted on its account. -/
theorem setNumber (he : k.IsNumeric e) (hv : Expresses z α v n?) (hlive : ∀ x, live' x → live x) :
    k.Mirrors z live' (env.insert (.expr topFrame e) v) σ (κ.setExpr e (.ofInt? n?)) α := by
  have hplace : ∀ x, Operand.ofInt? n? ≠ .place x := fun x hx => by cases n? <;> cases hx
  refine h.setExpr (fun n hn => ?_) (fun x hx => absurd hx (hplace x))
    (fun x hx => absurd hx (he x)) fun x hx => hx.imp (hlive x) ?_
  · cases n? with
    | none => cases hn
    | some m =>
      cases hn
      exact hv _ rfl
  · rintro ⟨a, ha, hna⟩
    refine ⟨a, ?_, hna⟩
    simp only [Machine.setExpr] at ha
    split at ha
    · exact absurd (some.inj ha) (hplace x)
    · exact ha

theorem insertResult : k.Mirrors z live (env.insert (.result topFrame) v) σ κ α := by
  have hget : ∀ e, (env.insert (.result topFrame) v).get? (.expr topFrame e) =
      env.get? (.expr topFrame e) := fun e => get?_insert_of_ne (by simp)
  exact { h with
    int := fun {e n} ha => by
      rw [hget]
      exact h.int ha
    place := fun {e x} ha => by
      rw [hget]
      exact h.place ha
    evaluated := fun {e w} ha => by
      rw [hget] at ha
      exact h.evaluated ha }

end

theorem clear (h : k.Mirrors z live s.env σ κ α) :
    k.Mirrors z live (s.clearExprs topFrame).env σ κ.clear α where
  int ha := by cases ha
  place ha := by cases ha
  evaluated {e w} ha := by
    have hnone : (s.clearExprs topFrame).env.get? (.expr topFrame e) = none :=
      (get?_filter fun key : EnvKey => !key.isExprOf topFrame).trans
        (if_neg (by simp [EnvKey.isExprOf]))
    cases hnone.symm.trans ha
  name _ ha := by cases ha
  var hx hn hneed hr := by
    refine h.var hx hn (.inl ?_) hr
    rcases hneed with hlive | ⟨a, ha, -⟩
    · exact hlive
    · cases ha
  domain := h.domain

/-! ### Variables -/

theorem setVar (h : k.Mirrors z live env σ κ α)
    (hkeep : ∀ y r n, y ∈ k.vars → y ≠ x → z.IsVar topFrame y r → k.Keeps z σ α y r n →
      k.Keeps z τ α y r n)
    (hx : ∀ r n, n? = some n → z.IsVar topFrame x r → k.Keeps z τ α x r n)
    (hdomain : ∀ n, n? = some n → n ∈ CType.int.domain) (hlive : ∀ y, y ≠ x → live' y → live y) :
    k.Mirrors z live' env τ (κ.setVar x n?) α :=
  { h with
    var := fun {y n r} hy hn hneed hr => by
      simp only [Machine.setVar] at hn
      split at hn
      · next hyx =>
        subst hyx
        exact hx r n hn hr
      · next hyx =>
        exact hkeep y r n hy hyx hr (h.var hy hn (hneed.imp_left (hlive y hyx)) hr)
    domain := fun {y n} hn => by
      simp only [Machine.setVar] at hn
      split at hn
      · exact hdomain n hn
      · exact h.domain hn }

/-- A variable that holds no number in the run may hold anything. -/
theorem forget (h : k.Mirrors z live env σ κ α) (hlive : ∀ y, y ≠ x → live' y → live y) :
    k.Mirrors z live' env σ (κ.setVar x none) α :=
  h.setVar (fun _ _ _ _ _ _ hkeep => hkeep) (fun _ _ hm => by cases hm) (fun _ hm => by cases hm) hlive

section

variable (h : k.Mirrors z live s.env s.store κ α) (hc : k.Regular c) (hs : k.Tame c P s) (hcz : c ≤ z)
  (hr : c.IsVar topFrame x r) (hlive : ∀ y, y ≠ x → live' y → live y)
include h hc hs hcz hr hlive

theorem kill : k.Mirrors z live' s.env (s.kill c r).store (κ.setVar x none) α :=
  h.setVar (fun _ _ _ _ hne hq hkeep => hkeep.kill hc hs.store hcz hr hq hne)
    (fun _ _ hm => by cases hm) (fun _ hm => by cases hm) hlive

theorem zeroed :
    k.Mirrors z live' s.env (s.zeroed k.options.store r c).1.store (κ.setVar x k.blank) α := by
  refine h.setVar (fun y q n _ hne hq hkeep => hkeep.zeroed hc hs.store hcz hr hq hne)
    (fun q n hm hq => ?_) (fun n hm => mem_domain_of_blank hm) hlive
  obtain rfl := hq.unique (hr.mono hcz)
  exact keeps_zeroed hm

end

theorem write (h : k.Mirrors z live s.env s.store κ α) (hc : k.Regular c) (hx : x ∈ k.vars)
    (hcz : c ≤ z) (hr : c.IsVar topFrame x r) (hv : v.Plain c P) (hd : Expresses z α v n?)
    (hlive : ∀ y, y ≠ x → live' y → live y) :
    k.Mirrors z live' s.env (s.write k.options.store r v c).1.store (κ.setVar x n?) α := by
  show k.Mirrors z live' s.env (k.options.store.bind s.store c (.region r) v) _ _
  rw [bind_var hc hx hr hv]
  refine h.setVar (fun y q m _ hne hq hkeep => ?_) (fun q m hm hq => ?_) (fun m hm => (hd m hm).1) hlive
  · exact hkeep.insert_of_ne fun he => hne ((he ▸ hq).var_eq (hr.mono hcz))
  · obtain rfl := hq.unique (hr.mono hcz)
    exact keeps_insert_self (hd m hm).2

section

variable (h : k.Mirrors z live s.env s.store κ α) (hc : k.Regular c) (hs : k.Tame c P s)
include h hc hs

/-- Writing to the place that a name stands for. Nothing is written if the name was not evaluated. -/
theorem put (hcz : c ≤ z) (hx : x ∈ k.vars) (hop : (k.program.expr place).op = .var x) (hv : v.Plain c P)
    (hd : Expresses z α v n?) (hlive : ∀ y, y ≠ x → live' y → live y) :
    k.Mirrors z live' s.env (match (s.value topFrame place).region? with
      | some r => (s.write k.options.store r v c).1
      | none => s).store (κ.put k.program place n?) α := by
  simp only [Machine.put, hop]
  rcases hs.value_name hop with hu | ⟨r, hr, hval⟩
  · have hnone : κ.place? place = none := by
      by_contra hsome
      obtain ⟨y, hy⟩ := ne_none_iff_exists'.1 hsome
      obtain ⟨-, -, r, -, hr⟩ := h.value_place hy
      cases hu.symm.trans hr
    rw [hu, hnone]
    exact h.forget hlive
  · rw [h.place?_of_name hop (by rw [hval]; exact nofun), hval]
    exact h.write hc hx hcz hr hv hd hlive

/-- Setting a variable to the entries of a list, one after the other. -/
theorem writeEntries (hcz : c ≤ z) (hx : x ∈ k.vars) (hr : c.IsVar topFrame x r)
    (hentries : ∀ entry ∈ entries, entry.path = [] ∧ k.program.IsNumber entry.value) :
    k.Mirrors z live s.env (entries.foldlM (k.writeEntry r) s c).1.store
      (entries.foldl (fun κ entry => κ.setVar x (κ.int? entry.value)) κ) α := by
  induction entries generalizing s κ with
  | nil => exact h
  | cons entry rest ih =>
    obtain ⟨hpath, hnumber⟩ := hentries entry List.mem_cons_self
    have hplain := hs.plain_value hnumber.2
    have hwrite := h.write hc hx hcz hr hplain (h.value_int (e := entry.value)) fun y _ hy => hy
    rw [List.foldlM_cons, Naming.bind_apply, writeEntry_apply hpath, List.foldl_cons]
    exact ih hwrite (hs.write hc hx hr hplain) fun a ha => hentries a (List.mem_cons_of_mem _ ha)

/-- Declaring a variable with a list. -/
theorem writeList (hcz : c ≤ z) (hx : x ∈ k.vars) (hr : c.IsVar topFrame x r)
    (hentries : ∀ entry ∈ entries, entry.path = [] ∧ k.program.IsNumber entry.value)
    (hlive : ∀ y, y ≠ x → live' y → live y) :
    k.Mirrors z live' s.env (s.writeList k.options.store topFrame r .int entries c).1.store
      (entries.foldl (fun κ entry => κ.setVar x (κ.int? entry.value)) (κ.setVar x k.blank)) α :=
  (h.zeroed hc hs hcz hr hlive).writeEntries hc (hs.zeroed hr) hcz hx hr hentries

/-! ### Reading and assigning -/

/-- **Reading through the name of a variable.** -/
theorem fetch (hP : ∀ r, P (.regionValue r .int)) (hplace : k.program.IsName k.vars place)
    (hread : place ∉ k.assigned) (hz : (k.fetch s (s.value topFrame place) c).2 ≤ z) :
    Expresses z α (k.fetch s (s.value topFrame place) c).1 (κ.held? place) := by
  intro n hn
  obtain ⟨y, hy, hn⟩ := bind_eq_some_iff.1 hn
  obtain ⟨hyvars, hexpr, q, hq, hval⟩ := h.value_place hy
  obtain ⟨-, x, hx, hop⟩ := hplace
  rcases hs.value_name hop with hu | ⟨r, hr, hv⟩
  · cases hu.symm.trans hval
  · cases hv.symm.trans hval
    rw [hval] at hz ⊢
    have hcomp : Computes c P (k.fetch s (.pointer q) c) fun α n => k.Keeps c s.store α x q n :=
      computes_retrieve hc hx hr hs.store (hP q)
    have hcz := hcomp.le.trans hz
    obtain rfl := hq.var_eq (hr.mono hcz)
    have hkeep := h.var hyvars hn (.inr ⟨place, hexpr, hread⟩) hq
    exact ⟨h.domain hn, (hcomp.denotes (hkeep.of_le hs.store hx hr hcz)).mono hcomp.plain hz⟩

/-- **What an assignment stores and what its value is.** -/
theorem updated {a : ExprId} {old : Value} (hold : old.Plain c P)
    (ha : k.program.ScalarExpr k.vars k.assigned a)
    (htarget : target? (k.program.expr a).op = some place)
    (hread : place ∉ k.assigned → Expresses z α old (κ.held? place))
    (hz : (s.updated topFrame (k.program.expr a) old c).2 ≤ z) :
    Expresses z α (s.updated topFrame (k.program.expr a) old c).1.1 (κ.stored? (k.program.expr a).op) ∧
      Expresses z α (s.updated topFrame (k.program.expr a) old c).1.2
        (κ.assigned? (k.program.expr a).op) := by
  obtain ⟨htype, ha⟩ := ha
  unfold State.updated at hz ⊢
  rw [htype] at hz ⊢
  cases hop : (k.program.expr a).op with
  | assign place' value => exact ⟨h.value_int, h.value_int⟩
  | compound op place' value =>
    simp only [hop] at ha htarget hz ⊢
    cases htarget
    have hnew := (hread ha.2.1).binary (h.value_int (e := value)) hc.arithmetic hold
      (hs.plain_value ha.2.2.2) op hz
    exact ⟨hnew, hnew⟩
  | incDec place' increment first =>
    simp only [hop] at ha htarget hz ⊢
    cases htarget
    have hone : Expresses z α (.ofInt 1 .int) (some 1) := by
      rintro n ⟨⟩
      exact ⟨by decide, show CType.int.wrap 1 = 1 by decide⟩
    have hnew := (hread ha.2).binary hone hc.arithmetic hold (w := .ofInt 1 .int) trivial
      (if increment then .add else .sub) hz
    refine ⟨hnew, ?_⟩
    cases first with
    | true => exact hnew
    | false => exact hread ha.2
  | _ =>
    rw [hop] at htarget
    cases htarget

end

end Mirrors

end Study

end PathScout

import PathScout.Lowering.Unit
import PathScout.Proofs.FlowPaths

/-!
# Functions under construction

A draft is a function that is being built, together with sets of expressions that say, for each
block, which values are at hand whenever the block is entered. A sound draft has all that a finished
function has: every value is at hand where it is needed, no expression is evaluated twice, and none
is an operand of two others.

* `Draft`, `Draft.Sound`: drafts and what holds of them.
* `Draft.Extends`: what building more leaves alone. `Draft.Parked`: a block that was set aside.
* `Lower.Sends`: what an action does to a draft if it succeeds, and the rules to prove it.
-/

namespace PathScout

open List

/-- A function that is being built, and what is at hand at the start of each block. -/
structure Draft where
  state : Lowering
  entry : BlockId → Set ExprId

namespace Draft

/-! ### Looking at drafts -/

/-- The program so far. -/
abbrev program (d : Draft) : Program := d.state.program

/-- The number of expressions so far. -/
abbrev size (d : Draft) : Nat := d.program.exprs.size

/-- The number of blocks so far. -/
abbrev room (d : Draft) : Nat := d.state.blocks.size

/-- An expression of the program so far. -/
abbrev expr (d : Draft) (e : ExprId) : TypedExpr := d.program.expr e

/-- A block of the function so far. -/
def block? (d : Draft) (b : BlockId) : Option OpenBlock := d.state.blocks[b.index]?

/-- What is held at the end of a block. -/
def held (d : Draft) (b : BlockId) : Set ExprId :=
  (d.block? b).elim ∅ fun block => heldAfter (d.entry b) block.elements.toList

/-- What is held at the end of the current block. -/
def now (d : Draft) : Set ExprId := d.state.current.elim ∅ d.held

/-- The block evaluates the expression. -/
def EvaluatedIn (d : Draft) (b : BlockId) (e : ExprId) : Prop :=
  ∃ block root, d.block? b = some block ∧ .expr e root ∈ block.elements

/-- Some block evaluates the expression. -/
def Evaluated (d : Draft) (e : ExprId) : Prop := ∃ b, d.EvaluatedIn b e

/-- The expression is an operand of another one. -/
def Used (d : Draft) (x : ExprId) : Prop := ∃ e, e.index < d.size ∧ x ∈ (d.expr e).op.operands

/-- The block belongs to a label that was not met yet. -/
def Pending (d : Draft) (b : BlockId) : Prop :=
  ∃ l ∈ d.state.labels, l.2.isDefined = false ∧ l.2.block = b

/-- Nothing has to be at hand when the block is entered. -/
def Idle (d : Draft) (b : BlockId) : Prop := b.index < d.room ∧ d.entry b = ∅

/-! ### Types -/

/-- The operation and the type of an expression fit its operands. -/
def Admits (d : Draft) (op : Operation) (type : CType) : Prop :=
  match op with
  | .int _ => type = .int ∨ ∃ v ∈ d.state.locals, (d.program.var v).type ≠ .int
  | .var v => v.index < d.program.vars.size ∧ type = (d.program.var v).type
  | .load a => (d.expr a).op.isPlace = true ∧ type = (d.expr a).type
  | .unary _ a => (d.expr a).op.isPlace = false ∧ type = .int
  | .binary _ l r => (d.expr l).op.isPlace = false ∧ (d.expr r).op.isPlace = false ∧
      ((d.expr l).type = .int → (d.expr r).type = .int → type = .int)
  | .assign t v | .compound _ t v => (d.expr t).op.isPlace = true ∧
      (d.expr v).op.isPlace = false ∧ type = (d.expr t).type
  | .incDec t _ _ => (d.expr t).op.isPlace = true ∧ type = (d.expr t).type
  | _ => True

/-- The type of a joined expression is that of what it is on one of its ways. -/
def JoinTyped (d : Draft) (e : ExprId) : Prop :=
  (d.expr e).type = .int ∨ ∃ a, d.Evaluated a ∧ (d.expr a).type = (d.expr e).type ∧
    (a.index < e.index ∨ ∃ x, (d.expr a).op = .cast x)

/-- A step is about expressions of the table and about values where it needs values. -/
def StepTyped (d : Draft) : Element → Prop
  | .expr e _ => e.index < d.size ∧ d.Admits (d.expr e).op (d.expr e).type ∧
      ((d.expr e).op = .join → d.JoinTyped e)
  | .decl v init l => v ∈ d.state.locals ∧
      (∀ x ∈ Element.operands d.program (.decl v init l), (d.expr x).op.isPlace = false) ∧
      ∀ entries, init = some (.list entries) → (d.program.var v).type = .int →
        ∀ entry ∈ entries, entry.path = []
  | .merge t (.int _) => t.index < d.size ∧ (d.expr t).op = .join ∧ (d.expr t).type = .int
  | .merge t (.expr a) => t.index < d.size ∧ (d.expr t).op = .join ∧
      (d.expr a).op.isPlace = false ∧ (d.expr a).type = (d.expr t).type
  | .return value _ => ∀ x ∈ value, (d.expr x).op.isPlace = false

/-! ### Sound drafts -/

/-- A block has all values that it needs, and its end leads to blocks that ask for no more than what
is at hand there. -/
structure BlockSound (d : Draft) (b : BlockId) (block : OpenBlock) : Prop where
  supplied : Supplied d.program (d.entry b) block.elements.toList
  evaluated : ∀ el ∈ block.elements, ∀ x ∈ el.operands d.program, d.Evaluated x
  typed : ∀ el ∈ block.elements, d.StepTyped el
  operand : ∀ t ∈ block.terminator, ∀ x ∈ t.operands,
    x ∈ heldAfter (d.entry b) block.elements.toList ∧ (d.expr x).op.isPlace = false ∧
      ∃ root, .expr x root ∈ block.elements
  successor : ∀ t ∈ block.terminator, ∀ s ∈ t.successors, s.index < d.room ∧
    d.entry s ⊆ heldAfter (d.entry b) block.elements.toList
  exit : block.terminator = some .exit → b = ⟨1⟩

/-- What holds of a function while it is built. -/
structure Sound (d : Draft) : Prop where
  exit : ∃ block, d.block? ⟨1⟩ = some block ∧ block.elements = #[] ∧ block.terminator = some .exit
  start : d.entry ⟨0⟩ = ∅
  finish : d.entry ⟨1⟩ = ∅
  current : ∀ b, d.state.current = some b → ∃ block, d.block? b = some block ∧
    block.terminator = none
  block : ∀ b block, d.block? b = some block → d.BlockSound b block
  unique : ∀ (b b' : BlockId) (block block' : OpenBlock) (i i' : Nat) (e : ExprId) (r r' : Bool),
    d.block? b = some block → d.block? b' = some block' → block.elements[i]? = some (.expr e r) →
    block'.elements[i']? = some (.expr e r') → b = b' ∧ i = i'
  older : ∀ e, e.index < d.size → ∀ x ∈ (d.expr e).op.operands, x.index < e.index
  linear : ∀ e e' x, e.index < d.size → e'.index < d.size → x ∈ (d.expr e).op.operands →
    x ∈ (d.expr e').op.operands → e = e'
  targets : ∀ t ∈ d.state.targets, d.Idle t.breakTo ∧ ∀ b ∈ t.continueTo, d.Idle b
  label : ∀ l ∈ d.state.labels, d.Idle l.2.block
  labels : ∀ l ∈ d.state.labels, ∀ l' ∈ d.state.labels, l.2.block = l'.2.block → l.1 = l'.1
  pending : ∀ b, d.Pending b → d.state.current ≠ some b ∧ ∃ block, d.block? b = some block ∧
    block.terminator = none ∧ block.elements = #[]
  scopes : ∀ names ∈ d.state.scopes, ∀ x ∈ names, x.2.index < d.program.vars.size
  globals : ∀ x ∈ d.state.globals, x.2.index < d.program.vars.size
  locals : ∀ v ∈ d.state.locals, v.index < d.program.vars.size ∧
    ((d.program.var v).kind = .local ∨ (d.program.var v).kind = .staticLocal)

end Draft

/-! ### Extensions -/

/-- The second program announces more functions, which have no body. -/
structure Program.Announces (p p' : Program) : Prop where
  size_le : p.functions.size ≤ p'.functions.size
  function_eq : ∀ f, f.index < p.functions.size → p'.function f = p.function f
  body_eq_none : ∀ f, p.functions.size ≤ f.index → (p'.function f).body = none

theorem Program.Announces.refl (p : Program) : p.Announces p :=
  ⟨le_refl _, fun _ _ => rfl, fun f h => by
    rw [Program.function, Array.getElem?_eq_none h]
    rfl⟩

theorem Program.Announces.trans {p p' p'' : Program} (h : p.Announces p') (h' : p'.Announces p'') :
    p.Announces p'' where
  size_le := h.size_le.trans h'.size_le
  function_eq f hf := (h'.function_eq f (hf.trans_le h.size_le)).trans (h.function_eq f hf)
  body_eq_none f hf := by
    rcases lt_or_ge f.index p'.functions.size with hlt | hge
    · rw [h'.function_eq f hlt, h.body_eq_none f hf]
    · exact h'.body_eq_none f hge

namespace Draft

variable {block : OpenBlock} {name : String} {V : Set ExprId}

/-- The second draft knows all that the first one does. -/
structure Below (d d' : Draft) : Prop where
  size_le : d.size ≤ d'.size
  expr_eq : ∀ e, e.index < d.size → d'.expr e = d.expr e
  vars_le : d.program.vars.size ≤ d'.program.vars.size
  var_eq : ∀ v, v.index < d.program.vars.size → d'.program.var v = d.program.var v
  announces : d.program.Announces d'.program
  initial : d'.program.globals = d.program.globals
  structs : d'.program.structs = d.program.structs
  locals : ∀ v ∈ d.state.locals, v ∈ d'.state.locals
  room_le : d.room ≤ d'.room
  entry_eq : ∀ b, b.index < d.room → d'.entry b = d.entry b
  evaluatedIn : ∀ b e, d.EvaluatedIn b e → d'.EvaluatedIn b e

/-- The second draft comes from the first one by building more in the current block, in new blocks
and at labels that were not met yet. Operands of new expressions are numbered from `n` on. -/
structure Extends (n : Nat) (d d' : Draft) : Prop extends Below d d' where
  frame : ∀ b block, d.block? b = some block → d.state.current ≠ some b → ¬ d.Pending b →
    ∃ block', d'.block? b = some block' ∧ block'.elements = block.elements ∧
      block'.terminator = block.terminator
  current : ∀ b, d'.state.current = some b → d.state.current = some b ∨ d.room ≤ b.index ∨
    d.Pending b
  pending : ∀ b, d'.Pending b → d.Pending b ∨ d.room ≤ b.index
  evaluated_new : ∀ e, d'.Evaluated e → d.Evaluated e ∨ d.size ≤ e.index
  operands_new : ∀ e, d.size ≤ e.index → e.index < d'.size → ∀ x ∈ (d'.expr e).op.operands,
    n ≤ x.index
  targets : d'.state.targets = d.state.targets
  returns : d'.state.returns = d.state.returns
  globals : d'.state.globals = d.state.globals

variable {d d' d'' : Draft} {n m : Nat} {b : BlockId} {e x : ExprId} {el : Element}

theorem lt_room_of_block? (h : d.block? b = some block) : b.index < d.room :=
  (Array.getElem?_eq_some_iff.1 h).1

theorem Below.refl (d : Draft) : Below d d :=
  ⟨le_refl _, fun _ _ => rfl, le_refl _, fun _ _ => rfl, .refl _, rfl, rfl, fun _ h => h,
    le_refl _, fun _ _ => rfl, fun _ _ h => h⟩

theorem Below.trans (h : Below d d') (h' : Below d' d'') : Below d d'' where
  size_le := h.size_le.trans h'.size_le
  expr_eq e he := (h'.expr_eq e (he.trans_le h.size_le)).trans (h.expr_eq e he)
  vars_le := h.vars_le.trans h'.vars_le
  var_eq v hv := (h'.var_eq v (hv.trans_le h.vars_le)).trans (h.var_eq v hv)
  announces := h.announces.trans h'.announces
  initial := h'.initial.trans h.initial
  structs := h'.structs.trans h.structs
  locals v hv := h'.locals v (h.locals v hv)
  room_le := h.room_le.trans h'.room_le
  entry_eq b hb := (h'.entry_eq b (hb.trans_le h.room_le)).trans (h.entry_eq b hb)
  evaluatedIn b e he := h'.evaluatedIn b e (h.evaluatedIn b e he)

theorem Below.evaluated (h : Below d d') (he : d.Evaluated e) : d'.Evaluated e := by
  obtain ⟨b, hb⟩ := he
  exact ⟨b, h.evaluatedIn b e hb⟩

theorem Below.idle (h : Below d d') (hb : d.Idle b) : d'.Idle b :=
  ⟨hb.1.trans_le h.room_le, (h.entry_eq b hb.1).trans hb.2⟩

theorem Extends.refl (n : Nat) (d : Draft) : Extends n d d where
  toBelow := .refl d
  frame _ block hb _ _ := ⟨block, hb, rfl, rfl⟩
  current _ hb := .inl hb
  pending _ hb := .inl hb
  evaluated_new _ he := .inl he
  operands_new _ hle hlt := absurd hlt hle.not_gt
  targets := rfl
  returns := rfl
  globals := rfl

theorem Extends.mono (h : Extends n d d') (hm : m ≤ n) : Extends m d d' :=
  { h with operands_new := fun e hle hlt x hx => hm.trans (h.operands_new e hle hlt x hx) }

theorem Extends.trans (h : Extends n d d') (h' : Extends n d' d'') : Extends n d d'' where
  toBelow := h.toBelow.trans h'.toBelow
  frame b block hb hcur hpend := by
    have hlt := lt_room_of_block? hb
    obtain ⟨block', hb', hels, hterm⟩ := h.frame b block hb hcur hpend
    have hcur' : d'.state.current ≠ some b := fun hc => by
      rcases h.current b hc with hc | hge | hp
      · exact hcur hc
      · exact hlt.not_ge hge
      · exact hpend hp
    have hpend' : ¬ d'.Pending b := fun hp => by
      rcases h.pending b hp with hp | hge
      · exact hpend hp
      · exact hlt.not_ge hge
    obtain ⟨block'', hb'', hels', hterm'⟩ := h'.frame b block' hb' hcur' hpend'
    exact ⟨block'', hb'', hels'.trans hels, hterm'.trans hterm⟩
  current b hb := by
    rcases h'.current b hb with hb | hge | hp
    · exact h.current b hb
    · exact .inr (.inl (h.room_le.trans hge))
    · rcases h.pending b hp with hp | hge
      · exact .inr (.inr hp)
      · exact .inr (.inl hge)
  pending b hb := by
    rcases h'.pending b hb with hp | hge
    · exact h.pending b hp
    · exact .inr (h.room_le.trans hge)
  evaluated_new e he := by
    rcases h'.evaluated_new e he with he | hge
    · exact h.evaluated_new e he
    · exact .inr (h.size_le.trans hge)
  operands_new e hle hlt x hx := by
    rcases lt_or_ge e.index d'.size with hlt' | hge'
    · rw [h'.expr_eq e hlt'] at hx
      exact h.operands_new e hle hlt' x hx
    · exact h'.operands_new e hge' hlt x hx
  targets := h'.targets.trans h.targets
  returns := h'.returns.trans h.returns
  globals := h'.globals.trans h.globals

/-! ### Steps and blocks in extensions -/

theorem Sound.lt_of_evaluated (hd : d.Sound) (h : d.Evaluated e) : e.index < d.size := by
  obtain ⟨b, block, root, hb, hel⟩ := h
  exact ((hd.block b block hb).typed _ hel).1

theorem mem_of_lookup {β : Type} {l : List (String × β)} {v : β} (h : l.lookup name = some v) :
    (name, v) ∈ l := by
  obtain ⟨before, after, rfl, -⟩ := lookup_eq_some_iff.1 h
  simp

/-- A name stands for a variable of the table. -/
theorem Sound.lt_of_lookup (hd : d.Sound) {v : VarId} (h : Lower.lookup? d.state name = some v) :
    v.index < d.program.vars.size := by
  rcases Option.or_eq_some_iff.1 h with h | ⟨-, h⟩
  · obtain ⟨names, hnames, hv⟩ := exists_of_findSome?_eq_some h
    exact hd.scopes names hnames _ (mem_of_lookup hv)
  · exact hd.globals _ (mem_of_lookup h)

theorem Below.admits (h : Below d d') {op : Operation} {type : CType}
    (hops : ∀ x ∈ op.operands, x.index < d.size)
    (hlocals : ∀ v ∈ d.state.locals, v.index < d.program.vars.size) (ha : d.Admits op type) :
    d'.Admits op type := by
  cases op with
  | int n =>
    rcases ha with ha | ⟨v, hv, ht⟩
    · exact .inl ha
    · exact .inr ⟨v, h.locals v hv, by rwa [h.var_eq v (hlocals v hv)]⟩
  | var v =>
    obtain ⟨hv, ht⟩ := ha
    exact ⟨hv.trans_le h.vars_le, by rw [h.var_eq v hv, ht]⟩
  | load a | incDec a _ _ | unary _ a =>
    have ha' : a.index < d.size := hops a mem_cons_self
    simpa only [Admits, h.expr_eq a ha'] using ha
  | binary _ l r | assign l r | compound _ l r =>
    have hl : l.index < d.size := hops l mem_cons_self
    have hr : r.index < d.size := hops r (mem_cons_of_mem _ mem_cons_self)
    simpa only [Admits, h.expr_eq l hl, h.expr_eq r hr] using ha
  | _ => trivial

/-- The operands of a step do not depend on later expressions. -/
theorem Below.operands_eq (h : Below d d') (hel : d.StepTyped el) :
    el.operands d'.program = el.operands d.program := by
  cases el with
  | expr e root =>
    have heq : d'.program.expr e = d.program.expr e := h.expr_eq e hel.1
    simp only [Element.operands, heq]
  | decl v init l =>
    cases init with
    | none => rfl
    | some init => cases init <;> rfl
  | merge e v => cases v <;> rfl
  | «return» v l => rfl

theorem Below.joinTyped (h : Below d d') (hlt : ∀ a, d.Evaluated a → a.index < d.size)
    (he : e.index < d.size) (hj : d.JoinTyped e) : d'.JoinTyped e := by
  rcases hj with hj | ⟨a, ha, ht, hor⟩
  · exact .inl (by rwa [h.expr_eq e he])
  · refine .inr ⟨a, h.evaluated ha, ?_, ?_⟩
    · rwa [h.expr_eq a (hlt a ha), h.expr_eq e he]
    · rwa [h.expr_eq a (hlt a ha)]

theorem Below.stepTyped (h : Below d d') (hd : d.Sound)
    (hops : ∀ x ∈ el.operands d.program, x.index < d.size) (hel : d.StepTyped el) :
    d'.StepTyped el := by
  have hexpr : ∀ x ∈ el.operands d.program, d'.expr x = d.expr x := fun x hx => h.expr_eq x (hops x hx)
  have heq := h.operands_eq hel
  cases el with
  | expr e root =>
    obtain ⟨hlt, hadmits, hj⟩ := hel
    refine ⟨hlt.trans_le h.size_le, ?_, fun hop => ?_⟩
    · rw [h.expr_eq e hlt]
      exact h.admits (fun x hx => (hd.older e hlt x hx).trans hlt) (fun v hv => (hd.locals v hv).1)
        hadmits
    · rw [h.expr_eq e hlt] at hop
      exact h.joinTyped (fun a => hd.lt_of_evaluated) hlt (hj hop)
  | decl v init l =>
    obtain ⟨hv, hplace, hpath⟩ := hel
    refine ⟨h.locals v hv, fun x hx => ?_, fun entries hentries htype => ?_⟩
    · rw [heq] at hx
      rw [hexpr x hx]
      exact hplace x hx
    · rw [h.var_eq v (hd.locals v hv).1] at htype
      exact hpath entries hentries htype
  | merge t v =>
    cases v with
    | int n =>
      obtain ⟨hlt, hop, ht⟩ := hel
      have ht' := h.expr_eq t hlt
      exact ⟨hlt.trans_le h.size_le, by rwa [ht'], by rwa [ht']⟩
    | expr a =>
      obtain ⟨hlt, hop, hplace, ht⟩ := hel
      have ht' := h.expr_eq t hlt
      have ha := hexpr a mem_cons_self
      exact ⟨hlt.trans_le h.size_le, by rwa [ht'], by rwa [ha], by rwa [ha, ht']⟩
  | «return» v l =>
    intro x hx
    rw [hexpr x (by simpa [Element.operands] using hx)]
    exact hel x hx

theorem Below.supplied (h : Below d d') {els : List Element} (htyped : ∀ el ∈ els, d.StepTyped el)
    (hs : Supplied d.program V els) : Supplied d'.program V els := by
  intro i el hel x hx
  rw [h.operands_eq (htyped el (mem_of_getElem? hel))] at hx
  exact hs i el hel x hx

/-- A block that does not change stays sound. -/
theorem Below.blockSound (h : Below d d') (hd : d.Sound) (hlt : b.index < d.room)
    (hb : d.BlockSound b block) : d'.BlockSound b block where
  supplied := by
    rw [h.entry_eq b hlt]
    exact h.supplied (fun el hel => hb.typed el (Array.mem_toList_iff.1 hel)) hb.supplied
  evaluated el hel x hx := by
    rw [h.operands_eq (hb.typed el hel)] at hx
    exact h.evaluated (hb.evaluated el hel x hx)
  typed el hel := h.stepTyped hd (fun x hx => hd.lt_of_evaluated (hb.evaluated el hel x hx))
    (hb.typed el hel)
  operand t ht x hx := by
    obtain ⟨hheld, hplace, root, hroot⟩ := hb.operand t ht x hx
    have hx' : x.index < d.size := (hb.typed _ hroot).1
    rw [h.entry_eq b hlt, h.expr_eq x hx']
    exact ⟨hheld, hplace, root, hroot⟩
  successor t ht s hs := by
    obtain ⟨hs', hsub⟩ := hb.successor t ht s hs
    rw [h.entry_eq b hlt, h.entry_eq s hs']
    exact ⟨hs'.trans_le h.room_le, hsub⟩
  exit := hb.exit

/-! ### Blocks that are set aside -/

/-- The block is open, is not the current one, and holds the given values at its end. -/
structure Parked (d : Draft) (b : BlockId) (V : Set ExprId) : Prop where
  block : ∃ block, d.block? b = some block ∧ block.terminator = none
  held : d.held b = V
  idle : d.state.current ≠ some b
  notPending : ¬ d.Pending b

theorem Parked.lt_room (h : d.Parked b V) : b.index < d.room := by
  obtain ⟨block, hb, -⟩ := h.block
  exact lt_room_of_block? hb

theorem held_eq (h : d.block? b = some block) :
    d.held b = heldAfter (d.entry b) block.elements.toList := by
  rw [held, h]
  rfl

theorem now_eq (h : d.state.current = some b) : d.now = d.held b := by
  rw [now, h]
  rfl

/-- Building more leaves a block alone that was set aside. -/
theorem Parked.extends (h : d.Parked b V) (hext : Extends n d d') : d'.Parked b V := by
  obtain ⟨block, hb, hterm⟩ := h.block
  have hlt := h.lt_room
  obtain ⟨block', hb', hels, hterm'⟩ := hext.frame b block hb h.idle h.notPending
  refine ⟨⟨block', hb', hterm'.trans hterm⟩, ?_, fun hc => ?_, fun hp => ?_⟩
  · rw [held_eq hb', hels, hext.entry_eq b hlt, ← held_eq hb]
    exact h.held
  · rcases hext.current b hc with hc | hge | hp
    · exact h.idle hc
    · exact hlt.not_ge hge
    · exact h.notPending hp
  · rcases hext.pending b hp with hp | hge
    · exact h.notPending hp
    · exact hlt.not_ge hge

end Draft

end PathScout

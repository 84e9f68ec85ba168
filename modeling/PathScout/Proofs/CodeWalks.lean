import PathScout.Proofs.Courses
import PathScout.Proofs.FlowPaths

/-!
# Walks through code that is being built

A walker goes through the graph of a function step by step; an oracle says which way it goes at the
ends of blocks. While a function is built, blocks only grow: what was added to a block stays at its
place, and a block that was ended stays as it is. Whatever a walker does in a part of the function it
will do in the finished graph.

* `Terrain`: a finished graph and an oracle. `Walker`: where a walk stands, and what happened on it.
* `Terrain.Done`: what happens for an act of a course. `Terrain.Implements`: for all its acts.
* `Lowering.Grows`, `Lowering.Adds`: what building does to the blocks so far.
* `Lowering.Plan`: blocks that were opened and set aside for later.
* `Terrain.Covers`: the finished graph has all that was built so far.
* `Terrain.Carries`: a walker is led through a course, from one kind of place to another.
* `Terrain.Leads`: the code that was built leads a walker through a course.
-/

namespace PathScout

open List

/-! ### Walkers -/

/-- What a step of a block does, but for a return that may have a value. -/
def Element.act? (p : Program) : Element → Option Act
  | .expr e _ => some (.expr (p.expr e).form (p.expr e).span)
  | .decl _ _ l => some (.decl l)
  | .merge _ (.int n) => some (.merge (some n))
  | .merge _ (.expr _) => some (.merge none)
  | .return none l => some (.return l)
  | .return (some _) _ => none

/-- A step, whether it ends a statement or not. -/
def Element.plain : Element → Element
  | .expr e _ => .expr e false
  | el => el

/-- What happens on a walk: a step of a block, or a test at the end of one. -/
inductive Walker.Event where
  | step (el : Element)
  | test (e : ExprId)

/-- Where a walk stands, what happened on it, and how many answers the oracle gave. -/
structure Walker where
  block : BlockId
  index : Nat := 0
  events : List Walker.Event := []
  asked : Nat := 0

/-- A finished graph, the program that it belongs to, an oracle, and what the function returns. -/
structure Terrain where
  program : Program
  graph : FlowGraph
  oracle : Oracle
  returns : CType

namespace Walker

/-- The walker does a step, and goes on in the block. -/
def next (w : Walker) (el : Element) : Walker :=
  { w with index := w.index + 1, events := w.events ++ [.step el.plain] }

/-- The walker goes to a block. -/
def goTo (w : Walker) (b : BlockId) : Walker := { w with block := b, index := 0 }

/-- The walker asks the oracle about a value, and goes to a block. -/
def choose (w : Walker) (ω : Oracle) (e : ExprId) (way : Int → BlockId) : Walker where
  block := way (ω w.asked)
  index := 0
  events := w.events ++ [.test e]
  asked := w.asked + 1

/-- The walker is at the start of a block. -/
def Starts (w : Walker) (b : BlockId) : Prop := w.block = b ∧ w.index = 0

end Walker

/-- The block that a value of a switch leads to. -/
def caseBlock (cases : List CaseTarget) (default : BlockId) (v : Int) : BlockId :=
  ((cases.find? (·.value = v)).map (·.block)).getD default

namespace Terrain

/-- Where a walk goes at the end of a block. At the exit of the function it is over. -/
def leave (T : Terrain) (w : Walker) : Terminator → Walker
  | .goto target _ => w.goTo target
  | .branch cond yes no _ _ => w.choose T.oracle cond fun v => if v != 0 then yes else no
  | .switch value cases default _ _ => w.choose T.oracle value (caseBlock cases default)
  | .exit => w

/-- One step of a walk. -/
def step (T : Terrain) (w : Walker) : Walker :=
  match T.graph.block? w.block with
  | none => w
  | some block =>
    match block.elements[w.index]? with
    | some el => w.next el
    | none => T.leave w block.terminator

/-- A walk leads from one place to another. -/
def Reaches (T : Terrain) (w w' : Walker) : Prop := ∃ n, T.step^[n] w = w'

variable {T : Terrain} {w w' w'' : Walker}

theorem Reaches.refl (w : Walker) : T.Reaches w w := ⟨0, rfl⟩

theorem reaches_step : T.Reaches w (T.step w) := ⟨1, rfl⟩

theorem Reaches.trans (h : T.Reaches w w') (h' : T.Reaches w' w'') : T.Reaches w w'' := by
  obtain ⟨n, rfl⟩ := h
  obtain ⟨m, rfl⟩ := h'
  exact ⟨m + n, Function.iterate_add_apply T.step m n w⟩

end Terrain

/-! ### Acts of a course and events of a walk -/

section

variable {T : Terrain}

/-- What happens on a walk for an act, and which values wait before it and after it. Conversions have no
place in the text: a place is read exactly where a value is taken from it, and a cast gives a value another
type where it is needed. -/
inductive Terrain.Done (T : Terrain) : Act → List Walker.Event → List ExprId → List ExprId → Prop where
  | step {a : Act} {el : Element} (vs : List ExprId) : el.act? T.program = some a →
    Done T a [.step el] (vs ++ el.operands T.program) (vs ++ el.subject?.toList)
  /-- The operands of an index may be exchanged, but only after both were evaluated. -/
  | exchanged {e b i : ExprId} (vs : List ExprId) : (T.program.expr e).op = .index b i →
    Done T (.expr .index (T.program.expr e).span) [.step (.expr e false)] (vs ++ [i, b]) (vs ++ [e])
  | size {el : Element} {n : Int} {span : Span} (vs : List ExprId) :
    el.act? T.program = some (.expr (.constant n) span) →
    Done T (.size span) [.step el] vs (vs ++ el.subject?.toList)
  | keep {e : ExprId} (vs : List ExprId) : (T.program.expr e).op.isPlace = false →
    Done T .take [] (vs ++ [e]) (vs ++ [e])
  | read {e e' : ExprId} (vs : List ExprId) : (T.program.expr e).op.isPlace = true →
    (T.program.expr e').op = (if (T.program.expr e).type.isArray then .decay e else .load e) →
    (T.program.expr e').span = (T.program.expr e).span →
    Done T .take [.step (.expr e' false)] (vs ++ [e]) (vs ++ [e'])
  | alike (vs : List ExprId) (e : ExprId) (later : List ExprId) :
    Done T (.convert later.length) [] (vs ++ e :: later) (vs ++ e :: later)
  | cast {e e' : ExprId} (vs later : List ExprId) : (T.program.expr e').op = .cast e →
    (T.program.expr e').type ≠ (T.program.expr e).type →
    (T.program.expr e').span = (T.program.expr e).span →
    Done T (.convert later.length) [.step (.expr e' false)] (vs ++ e :: later) (vs ++ e' :: later)
  | drop (vs : List ExprId) (e : ExprId) : Done T .drop [] (vs ++ [e]) vs
  | result (vs : List ExprId) (e : ExprId) (l : Location) : Done T (.result l)
    [.step (.return (if T.returns.isVoid then none else some e) l)] (vs ++ [e]) vs
  | test (vs : List ExprId) (e : ExprId) : Done T .test [.test e] (vs ++ [e]) vs

/-- What happens on a walk for the acts of a course, one after the other, and which values wait then. -/
inductive Terrain.Implements (T : Terrain) : List Walker.Event → List Act → List ExprId → Prop where
  | nil : Implements T [] [] []
  | snoc {events more : List Walker.Event} {acts : List Act} {a : Act} {vs vs' : List ExprId} :
    Implements T events acts vs → T.Done a more vs vs' →
    Implements T (events ++ more) (acts ++ [a]) vs'

/-- The walker did what the course says, and these values wait. -/
structure Terrain.Does (T : Terrain) (w : Walker) (c : Course) (vs : List ExprId) : Prop where
  acts : T.Implements w.events c.acts vs
  asked : w.asked = c.asked

variable {w : Walker} {c : Course} {a : Act} {el : Element} {vs vs' : List ExprId}

theorem Terrain.Does.goTo (h : T.Does w c vs) (b : BlockId) : T.Does (w.goTo b) c vs :=
  ⟨h.acts, h.asked⟩

theorem Terrain.Does.next (h : T.Does w c vs) (hdone : T.Done a [.step el.plain] vs vs') :
    T.Does (w.next el) (perform a c).2 vs' := ⟨h.acts.snoc hdone, h.asked⟩

/-- An act for which nothing happens. -/
theorem Terrain.Does.silent (h : T.Does w c vs) (hdone : T.Done a [] vs vs') :
    T.Does w (perform a c).2 vs' :=
  ⟨append_nil w.events ▸ h.acts.snoc hdone, h.asked⟩

theorem Terrain.Does.choose {e : ExprId} (h : T.Does w c (vs ++ [e])) (ω : Oracle)
    (way : Int → BlockId) : T.Does (w.choose ω e way) (ω.answer c).2 vs ∧
      (w.choose ω e way).Starts (way (ω.answer c).1) := by
  refine ⟨⟨h.acts.snoc (.test vs e), congrArg (· + 1) h.asked⟩, ?_, rfl⟩
  show way (ω w.asked) = way (ω c.asked)
  rw [h.asked]

end

/-! ### Blocks that grow -/

/-- The steps are at their places among the later ones. -/
def StartsWith (later earlier : Array Element) : Prop :=
  ∀ (i : Nat) (el : Element), earlier[i]? = some el →
    ∃ el' : Element, later[i]? = some el' ∧ el'.plain = el.plain

/-- The later block has the steps of the earlier one, and if that was ended, it is the same. -/
structure OpenBlock.Begins (earlier later : OpenBlock) : Prop where
  steps : StartsWith later.elements earlier.elements
  ended : ∀ t, earlier.terminator = some t →
    later.terminator = some t ∧ later.elements.size = earlier.elements.size

theorem OpenBlock.Begins.refl (block : OpenBlock) : block.Begins block :=
  ⟨fun _ el h => ⟨el, h, rfl⟩, fun _ h => ⟨h, rfl⟩⟩

theorem OpenBlock.Begins.trans {block block' block'' : OpenBlock} (h : block.Begins block')
    (h' : block'.Begins block'') : block.Begins block'' where
  steps i el hel := by
    obtain ⟨el', hel', hplain⟩ := h.steps i el hel
    obtain ⟨el'', hel'', hplain'⟩ := h'.steps i el' hel'
    exact ⟨el'', hel'', hplain'.trans hplain⟩
  ended t ht := by
    obtain ⟨ht', hsize⟩ := h.ended t ht
    obtain ⟨ht'', hsize'⟩ := h'.ended t ht'
    exact ⟨ht'', hsize'.trans hsize⟩

namespace Lowering

/-- A block of the function so far. -/
def block? (s : Lowering) (b : BlockId) : Option OpenBlock := s.blocks[b.index]?

/-- The number of blocks so far. -/
abbrev room (s : Lowering) : Nat := s.blocks.size

/-- The block is there, and may still grow. -/
def Open (s : Lowering) (b : BlockId) : Prop := ∃ block, s.block? b = some block ∧
  block.terminator = none

/-- The block is there, and nothing was built in it yet. -/
def Empty (s : Lowering) (b : BlockId) : Prop := ∃ block, s.block? b = some block ∧
  block.terminator = none ∧ block.elements = #[]

/-- Only what was built so far was added to. -/
structure Grows (s s' : Lowering) : Prop where
  exprs_le : s.program.exprs.size ≤ s'.program.exprs.size
  expr_eq : ∀ e : ExprId, e.index < s.program.exprs.size → s'.program.expr e = s.program.expr e
  structs : s'.program.structs = s.program.structs
  returns : s'.returns = s.returns
  block : ∀ b block, s.block? b = some block →
    ∃ block', s'.block? b = some block' ∧ block.Begins block'

/-- The expressions are in the table. -/
def Knows (s : Lowering) (es : List ExprId) : Prop := ∀ e ∈ es, e.index < s.program.exprs.size

/-- The current block may grow, and no label waits for its block. -/
structure Tidy (s : Lowering) : Prop where
  current : ∀ b, s.current = some b → s.Open b
  labels : ∀ l ∈ s.labels, l.2.isDefined = true

/-- Something was built, in the current block and in new blocks. -/
structure Adds (s s' : Lowering) : Prop extends Grows s s' where
  tidy : s'.Tidy
  apart : ∀ b, b.index < s.room → s.current ≠ some b → s'.block? b = s.block? b
  current : ∀ b, s'.current = some b → s.current = some b ∨ s.room ≤ b.index
  targets : s'.targets = s.targets

/-- Something was built since `o`, and the blocks are new and set aside: they are empty, and none is
the current one. -/
structure Plan (o s : Lowering) (blocks : List BlockId) : Prop extends o.Adds s where
  empty : ∀ b ∈ blocks, s.Empty b
  free : ∀ b ∈ blocks, s.current ≠ some b
  new : ∀ b ∈ blocks, o.room ≤ b.index
  nodup : blocks.Nodup

/-- The walker stands at the end of what was built so far in the current block. -/
structure Here (s : Lowering) (w : Walker) : Prop where
  current : s.current = some w.block
  index : ∃ block, s.block? w.block = some block ∧ w.index = block.elements.size

/-- The state with another current block. -/
def goneTo (s : Lowering) (b : Option BlockId) : Lowering := { s with current := b }

/-- The state with one more block. -/
def opened (s : Lowering) : Lowering := { s with blocks := s.blocks.push {} }

/-- The state with one block changed. -/
def changed (s : Lowering) (b : BlockId) (f : OpenBlock → OpenBlock) : Lowering :=
  { s with blocks := s.blocks.modify b.index f }

/-- The state inside other loops and switches. -/
def within (s : Lowering) (targets : List JumpTargets) : Lowering := { s with targets := targets }

variable {o s s' s'' : Lowering} {b c : BlockId} {block : OpenBlock} {f : OpenBlock → OpenBlock}
  {w : Walker} {blocks : List BlockId}

theorem lt_room_of_block? (h : s.block? b = some block) : b.index < s.room :=
  (Array.getElem?_eq_some_iff.1 h).1

theorem exists_block?_of_lt (h : b.index < s.room) : ∃ block, s.block? b = some block :=
  ⟨_, Array.getElem?_eq_getElem h⟩

theorem Empty.open (h : s.Empty b) : s.Open b := by
  obtain ⟨block, hb, hnone, -⟩ := h
  exact ⟨block, hb, hnone⟩

theorem Open.lt_room (h : s.Open b) : b.index < s.room := by
  obtain ⟨block, hb, -⟩ := h
  exact lt_room_of_block? hb

theorem Open.of_block?_eq (h : s.Open b) (hb : s'.block? b = s.block? b) : s'.Open b := by
  obtain ⟨block, hblock, hnone⟩ := h
  exact ⟨block, hb.trans hblock, hnone⟩

theorem Empty.of_block?_eq (h : s.Empty b) (hb : s'.block? b = s.block? b) : s'.Empty b := by
  obtain ⟨block, hblock, hempty⟩ := h
  exact ⟨block, hb.trans hblock, hempty⟩

theorem Tidy.current_lt (h : s.Tidy) (hb : s.current = some b) : b.index < s.room :=
  (h.current b hb).lt_room

/-- A walker goes on where it was. -/
theorem Here.resume (h : s.Here w) (hb : s'.block? w.block = s.block? w.block)
    (hc : s'.current = s.current) : s'.Here w := by
  obtain ⟨block, hblock, hi⟩ := h.index
  exact ⟨hc.trans h.current, block, hb.trans hblock, hi⟩

/-! ### States that differ in one thing -/

@[simp] theorem room_opened : s.opened.room = s.room + 1 := Array.size_push ..

@[simp] theorem room_changed : (s.changed b f).room = s.room := Array.size_modify ..

theorem block?_opened_of_lt (h : b.index < s.room) : s.opened.block? b = s.block? b := by
  rw [block?, opened, Array.getElem?_push, if_neg h.ne]
  rfl

theorem empty_opened : s.opened.Empty ⟨s.room⟩ := by
  refine ⟨{}, ?_, rfl, rfl⟩
  rw [block?, opened, Array.getElem?_push, if_pos rfl]

theorem block?_changed_self : (s.changed b f).block? b = (s.block? b).map f := by
  rw [block?, changed, Array.getElem?_modify, if_pos rfl]
  rfl

theorem block?_changed_of_ne (h : c ≠ b) : (s.changed b f).block? c = s.block? c := by
  rw [block?, changed, Array.getElem?_modify, if_neg]
  · rfl
  · intro heq
    cases b
    cases c
    exact h (congrArg BlockId.mk heq.symm)

theorem Here.opened (h : s.Here w) (hs : s.Tidy) : s.opened.Here w :=
  h.resume (block?_opened_of_lt (hs.current_lt h.current)) rfl

/-! ### Growth -/

theorem Grows.refl (s : Lowering) : s.Grows s :=
  ⟨le_rfl, fun _ _ => rfl, rfl, rfl, fun _ block h => ⟨block, h, .refl block⟩⟩

theorem Knows.grows {es : List ExprId} (h : s.Knows es) (hs : s.Grows s') : s'.Knows es :=
  fun e he => (h e he).trans_le hs.exprs_le

theorem knows_append {es es' : List ExprId} : s.Knows (es ++ es') ↔ s.Knows es ∧ s.Knows es' :=
  forall_mem_append

theorem Grows.trans (h : s.Grows s') (h' : s'.Grows s'') : s.Grows s'' where
  exprs_le := h.exprs_le.trans h'.exprs_le
  expr_eq e he := (h'.expr_eq e (he.trans_le h.exprs_le)).trans (h.expr_eq e he)
  structs := h'.structs.trans h.structs
  returns := h'.returns.trans h.returns
  block b block hb := by
    obtain ⟨block', hb', hbegins⟩ := h.block b block hb
    obtain ⟨block'', hb'', hbegins'⟩ := h'.block b block' hb'
    exact ⟨block'', hb'', hbegins.trans hbegins'⟩

theorem Grows.room_le (h : s.Grows s') : s.room ≤ s'.room := by
  by_contra hlt
  obtain ⟨block, hb⟩ := exists_block?_of_lt (b := ⟨s'.room⟩) (Nat.lt_of_not_le hlt)
  obtain ⟨block', hb', -⟩ := h.block _ block hb
  exact (lt_room_of_block? hb').ne rfl

theorem Grows.of_goneTo {cur : Option BlockId} (h : (s.goneTo cur).Grows s') : s.Grows s' :=
  ⟨h.exprs_le, h.expr_eq, h.structs, h.returns, h.block⟩

theorem grows_opened : s.Grows s.opened where
  exprs_le := le_rfl
  expr_eq _ _ := rfl
  structs := rfl
  returns := rfl
  block _ block hb := ⟨block, (block?_opened_of_lt (lt_room_of_block? hb)).trans hb, .refl block⟩

theorem grows_changed (hf : ∀ block, s.block? b = some block → block.Begins (f block)) :
    s.Grows (s.changed b f) where
  exprs_le := le_rfl
  expr_eq _ _ := rfl
  structs := rfl
  returns := rfl
  block c block hc := by
    by_cases heq : c = b
    · rw [heq] at hc ⊢
      exact ⟨f block, by rw [block?_changed_self, hc]; rfl, hf block hc⟩
    · exact ⟨block, (block?_changed_of_ne heq).trans hc, .refl block⟩

/-! ### Additions -/

theorem Adds.refl (h : s.Tidy) : s.Adds s where
  toGrows := .refl s
  tidy := h
  apart _ _ _ := rfl
  current _ hb := .inl hb
  targets := rfl

theorem Adds.current_ne (h : s.Adds s') (hb : b.index < s.room) (hne : s.current ≠ some b) :
    s'.current ≠ some b := fun heq => by
  rcases h.current b heq with h | h
  · exact hne h
  · exact hb.not_ge h

theorem Adds.trans (h : s.Adds s') (h' : s'.Adds s'') : s.Adds s'' where
  toGrows := h.toGrows.trans h'.toGrows
  tidy := h'.tidy
  apart b hb hne := (h'.apart b (hb.trans_le h.room_le) (h.current_ne hb hne)).trans (h.apart b hb hne)
  current b hb := by
    rcases h'.current b hb with hb | hb
    · exact h.current b hb
    · exact .inr (h.room_le.trans hb)
  targets := h'.targets.trans h.targets

theorem Adds.opened (h : s.Tidy) : s.Adds s.opened where
  toGrows := grows_opened
  tidy := ⟨fun b hb => (h.current b hb).of_block?_eq (block?_opened_of_lt (h.current_lt hb)), h.labels⟩
  apart _ hb _ := block?_opened_of_lt hb
  current _ hb := .inl hb
  targets := rfl

/-- Building goes on in a block that is new, or was the current one. -/
theorem Adds.goneTo (h : s.Adds s') (hc : s.current = some c ∨ s.room ≤ c.index)
    (hopen : s'.Open c) : s.Adds (s'.goneTo (some c)) where
  toGrows := ⟨h.exprs_le, h.expr_eq, h.structs, h.returns, h.block⟩
  tidy := ⟨fun b hb => by
    cases hb
    exact hopen, h.tidy.labels⟩
  apart := h.apart
  current b hb := by
    cases hb
    exact hc
  targets := h.targets

theorem Adds.closed (h : s.Adds s') : s.Adds (s'.goneTo none) where
  toGrows := ⟨h.exprs_le, h.expr_eq, h.structs, h.returns, h.block⟩
  tidy := ⟨fun _ hb => (nomatch hb), h.tidy.labels⟩
  apart := h.apart
  current _ hb := nomatch hb
  targets := h.targets

/-- Building goes on where it was before. -/
theorem Adds.resume (h : s.Adds s') {s₁ : Lowering} (h1 : s.Adds s₁)
    (hopen : ∀ b, s₁.current = some b → s'.Open b) : s.Adds (s'.goneTo s₁.current) := by
  cases hcur : s₁.current with
  | none => exact h.closed
  | some b => exact h.goneTo (h1.current b hcur) (hopen b hcur)

section

variable (h : s.Adds s') (hb : s.current = some b ∨ s.room ≤ b.index)
include h hb

theorem Adds.apart_changed (hc : c.index < s.room) (hne : s.current ≠ some c) :
    (s'.changed b f).block? c = s.block? c := by
  refine (block?_changed_of_ne ?_).trans (h.apart c hc hne)
  rintro rfl
  rcases hb with hb | hb
  · exact hne hb
  · exact hc.not_ge hb

/-- A block that is new, or was the current one, grows. -/
theorem Adds.changed (hf : ∀ block, s'.block? b = some block → block.Begins (f block))
    (hopen : ∀ block : OpenBlock, block.terminator = none → (f block).terminator = none) :
    s.Adds (s'.changed b f) where
  toGrows := h.toGrows.trans (grows_changed hf)
  tidy := by
    refine ⟨fun c hc => ?_, h.tidy.labels⟩
    obtain ⟨block, hblock, hnone⟩ := h.tidy.current c hc
    by_cases heq : c = b
    · rw [heq] at hblock ⊢
      exact ⟨f block, by rw [block?_changed_self, hblock]; rfl, hopen block hnone⟩
    · exact ⟨block, (block?_changed_of_ne heq).trans hblock, hnone⟩
  apart _ hc hne := h.apart_changed hb hc hne
  current := h.current
  targets := h.targets

/-- A block that is new, or was the current one, grows, and nothing follows. -/
theorem Adds.ended (hf : ∀ block, s'.block? b = some block → block.Begins (f block)) :
    s.Adds ((s'.changed b f).goneTo none) where
  toGrows :=
    have hgrows := h.toGrows.trans (grows_changed hf)
    ⟨hgrows.exprs_le, hgrows.expr_eq, hgrows.structs, hgrows.returns, hgrows.block⟩
  tidy := ⟨fun _ hc => (nomatch hc), h.tidy.labels⟩
  apart _ hc hne := h.apart_changed hb hc hne
  current _ hc := nomatch hc
  targets := h.targets

end

/-! ### Blocks that were set aside -/

theorem Plan.refl (h : s.Tidy) : s.Plan s [] where
  toAdds := .refl h
  empty _ hb := nomatch hb
  free _ hb := nomatch hb
  new _ hb := nomatch hb
  nodup := .nil

theorem Plan.lt_room (h : o.Plan s blocks) (hb : b ∈ blocks) : b.index < s.room :=
  (h.empty b hb).open.lt_room

theorem Plan.opened (h : o.Plan s blocks) : o.Plan s.opened (blocks ++ [⟨s.room⟩]) where
  toAdds := h.toAdds.trans (.opened h.tidy)
  empty b hb := by
    rcases mem_append.1 hb with hb | hb
    · exact (h.empty b hb).of_block?_eq (block?_opened_of_lt (h.lt_room hb))
    · exact mem_singleton.1 hb ▸ empty_opened
  free b hb hcur := by
    rcases mem_append.1 hb with hb | hb
    · exact h.free b hb hcur
    · exact (h.tidy.current_lt hcur).ne (mem_singleton.1 hb ▸ rfl)
  new b hb := by
    rcases mem_append.1 hb with hb | hb
    · exact h.new b hb
    · exact mem_singleton.1 hb ▸ h.room_le
  nodup := by
    rw [nodup_middle, append_nil, nodup_cons]
    exact ⟨fun hb => (h.lt_room hb).ne rfl, h.nodup⟩

theorem Plan.adds (h : o.Plan s blocks) (h' : s.Adds s') : o.Plan s' blocks where
  toAdds := h.toAdds.trans h'
  empty b hb := (h.empty b hb).of_block?_eq (h'.apart b (h.lt_room hb) (h.free b hb))
  free b hb := h'.current_ne (h.lt_room hb) (h.free b hb)
  new := h.new
  nodup := h.nodup

/-- Building goes on in a block that was set aside. -/
theorem Plan.enter (before after : List BlockId) (h : o.Plan s (before ++ b :: after)) :
    o.Plan (s.goneTo (some b)) (before ++ after) := by
  have hb : b ∈ before ++ b :: after := mem_append_right _ mem_cons_self
  have hsub : ∀ c ∈ before ++ after, c ∈ before ++ b :: after := fun c hc => by
    rcases mem_append.1 hc with hc | hc
    · exact mem_append_left _ hc
    · exact mem_append_right _ (mem_cons_of_mem _ hc)
  have hnodup := nodup_middle.1 h.nodup
  rw [nodup_cons] at hnodup
  refine ⟨h.toAdds.goneTo (.inr (h.new b hb)) (h.empty b hb).open, fun c hc => h.empty c (hsub c hc),
    fun c hc heq => ?_, fun c hc => h.new c (hsub c hc), hnodup.2⟩
  cases heq
  exact hnodup.1 hc

theorem Plan.after (h : o.Plan s blocks) (h' : s'.Adds o) : s'.Plan s blocks where
  toAdds := h'.trans h.toAdds
  empty := h.empty
  free := h.free
  new b hb := h'.room_le.trans (h.new b hb)
  nodup := h.nodup

theorem Plan.tail (h : o.Plan s (b :: blocks)) : o.Plan s blocks where
  toAdds := h.toAdds
  empty c hc := h.empty c (mem_cons_of_mem b hc)
  free c hc := h.free c (mem_cons_of_mem b hc)
  new c hc := h.new c (mem_cons_of_mem b hc)
  nodup := h.nodup.of_cons

/-- Building goes on where it was before, in a block that was left alone. -/
theorem Plan.resume (h : o.Plan s' blocks) (h1 : o.Plan s blocks)
    (hsame : ∀ b, s.current = some b → s'.block? b = s.block? b) :
    o.Plan (s'.goneTo s.current) blocks where
  toAdds := h.toAdds.resume h1.toAdds fun b hb => (h1.tidy.current b hb).of_block?_eq (hsame b hb)
  empty := h.empty
  free := h1.free
  new := h.new
  nodup := h.nodup

theorem Plan.within (h : o.Plan s blocks) (targets : List JumpTargets) :
    (o.within targets).Plan (s.within targets) blocks where
  toGrows := ⟨h.exprs_le, h.expr_eq, h.structs, h.returns, h.block⟩
  tidy := ⟨h.tidy.current, h.tidy.labels⟩
  apart := h.apart
  current := h.current
  targets := rfl
  empty := h.empty
  free := h.free
  new := h.new
  nodup := h.nodup

/-- What was built inside a loop or a switch. -/
theorem plan_of_within {t : JumpTargets} (h : (o.within (t :: o.targets)).Plan s blocks) :
    o.Plan (s.within s.targets.tail) blocks where
  toGrows := ⟨h.exprs_le, h.expr_eq, h.structs, h.returns, h.block⟩
  tidy := ⟨h.tidy.current, h.tidy.labels⟩
  apart := h.apart
  current := h.current
  targets := congrArg List.tail h.targets
  empty := h.empty
  free := h.free
  new := h.new
  nodup := h.nodup

/-- Blocks were opened and set aside, and nothing else was built. -/
structure Layout (o s : Lowering) (blocks : List BlockId) : Prop extends o.Plan s blocks where
  here : ∀ w, o.Here w → s.Here w

theorem Layout.refl (h : s.Tidy) : s.Layout s [] := ⟨.refl h, fun _ => id⟩

theorem Layout.opened (h : o.Layout s blocks) : o.Layout s.opened (blocks ++ [⟨s.room⟩]) :=
  ⟨h.toPlan.opened, fun w hw => (h.here w hw).opened h.tidy⟩

theorem Layout.newBlock (h : o.Layout s blocks) (hrun : Lower.newBlock s = .ok (b, s')) :
    o.Layout s' (blocks ++ [b]) := by
  cases hrun
  exact h.opened

/-- The labels are other ones, which all have their blocks. -/
theorem Layout.labelled (h : o.Layout s blocks) {labels : List (String × LabelInfo)}
    (hlabels : ∀ l ∈ labels, l.2.isDefined = true) : o.Layout { s with labels := labels } blocks where
  toGrows := ⟨h.exprs_le, h.expr_eq, h.structs, h.returns, h.block⟩
  tidy := ⟨h.tidy.current, hlabels⟩
  apart := h.apart
  current := h.current
  targets := h.targets
  empty := h.empty
  free := h.free
  new := h.new
  nodup := h.nodup
  here w hw := ⟨(h.here w hw).current, (h.here w hw).index⟩

/-- One of the blocks that were set aside is marked. -/
theorem Layout.changed (h : o.Layout s blocks) (hb : b ∈ blocks)
    (hels : ∀ block : OpenBlock, (f block).elements = block.elements)
    (hend : ∀ block : OpenBlock, (f block).terminator = block.terminator) :
    o.Layout (s.changed b f) blocks := by
  have hbegins : ∀ block : OpenBlock, block.Begins (f block) := fun block =>
    ⟨fun i el hel => ⟨el, by rw [hels, hel], rfl⟩, fun t ht => ⟨(hend block).trans ht, by rw [hels]⟩⟩
  refine ⟨⟨h.toAdds.changed (.inr (h.new b hb)) (fun block _ => hbegins block)
    fun block hnone => (hend block).trans hnone, fun c hc => ?_, h.free, h.new, h.nodup⟩,
    fun w hw => (h.here w hw).resume (block?_changed_of_ne ?_) rfl⟩
  · obtain ⟨block, hblock, hnone, hempty⟩ := h.empty c hc
    by_cases heq : c = b
    · rw [heq] at hblock ⊢
      exact ⟨f block, by rw [block?_changed_self, hblock]; rfl, (hend block).trans hnone,
        (hels block).trans hempty⟩
    · exact ⟨block, (block?_changed_of_ne heq).trans hblock, hnone, hempty⟩
  · rintro rfl
    exact h.free _ hb (h.here w hw).current

/-- A walker at the start of a block that was set aside goes on there. -/
theorem Plan.here (h : o.Plan s blocks) (hb : b ∈ blocks) (hw : w.Starts b) :
    (s.goneTo (some b)).Here w := by
  obtain ⟨block, hblock, -, hels⟩ := h.empty b hb
  obtain ⟨rfl, hi⟩ := hw
  exact ⟨rfl, block, hblock, by rw [hels]; exact hi⟩

end Lowering

/-! ### Code in the finished graph -/

namespace Terrain

/-- The finished graph has all that was built so far. -/
structure Covers (T : Terrain) (s : Lowering) : Prop where
  expr_eq : ∀ e : ExprId, e.index < s.program.exprs.size → T.program.expr e = s.program.expr e
  structs : T.program.structs = s.program.structs
  returns : T.returns = s.returns
  block : ∀ b block, s.block? b = some block → ∃ final, T.graph.block? b = some final ∧
    StartsWith final.elements block.elements ∧ ∀ t, block.terminator = some t →
      final.terminator = t ∧ final.elements.size = block.elements.size

variable {T : Terrain} {s s' : Lowering} {w : Walker} {b : BlockId} {block : OpenBlock}

theorem Covers.of_grows (h : T.Covers s') (hs : s.Grows s') : T.Covers s where
  expr_eq e he := (h.expr_eq e (he.trans_le hs.exprs_le)).trans (hs.expr_eq e he)
  structs := h.structs.trans hs.structs
  returns := h.returns.trans hs.returns
  block b block hb := by
    obtain ⟨block', hb', hbegins⟩ := hs.block b block hb
    obtain ⟨final, hfinal, hsteps, hended⟩ := h.block b block' hb'
    refine ⟨final, hfinal, fun i el hel => ?_, fun t ht => ?_⟩
    · obtain ⟨el', hel', hplain⟩ := hbegins.steps i el hel
      obtain ⟨el'', hel'', hplain'⟩ := hsteps i el' hel'
      exact ⟨el'', hel'', hplain'.trans hplain⟩
    · obtain ⟨ht', hsize⟩ := hbegins.ended t ht
      obtain ⟨hfinal', hsize'⟩ := hended t ht'
      exact ⟨hfinal', hsize'.trans hsize⟩

theorem Covers.of_goneTo {cur : Option BlockId} (h : T.Covers (s.goneTo cur)) : T.Covers s :=
  ⟨h.expr_eq, h.structs, h.returns, h.block⟩

theorem Covers.of_within {targets : List JumpTargets} (h : T.Covers (s.within targets)) :
    T.Covers s := ⟨h.expr_eq, h.structs, h.returns, h.block⟩

/-- What was built before building went on elsewhere. -/
theorem Covers.before {cur : Option BlockId} (h : T.Covers s') (hs : (s.goneTo cur).Grows s') :
    T.Covers s := h.of_grows hs.of_goneTo

/-- A step of a block. -/
theorem Covers.step_of_element (h : T.Covers s) (hb : s.block? w.block = some block) {el : Element}
    (hel : block.elements[w.index]? = some el) : T.step w = w.next el := by
  obtain ⟨final, hfinal, hsteps, -⟩ := h.block _ block hb
  obtain ⟨el', hel', hplain⟩ := hsteps _ el hel
  rw [step, hfinal]
  dsimp only
  rw [hel']
  dsimp only
  rw [Walker.next, hplain, ← Walker.next]

/-- The end of a block. -/
theorem Covers.step_of_terminator (h : T.Covers s) (hb : s.block? w.block = some block)
    (hi : w.index = block.elements.size) {t : Terminator} (ht : block.terminator = some t) :
    T.step w = T.leave w t := by
  obtain ⟨final, hfinal, -, hended⟩ := h.block _ block hb
  obtain ⟨rfl, hsize⟩ := hended t ht
  have hnone : final.elements[w.index]? = none := Array.getElem?_eq_none (by omega)
  rw [step, hfinal]
  dsimp only
  rw [hnone]

/-- A walker of which `P` holds is led through the course, to a place of which `Q` holds. The values that
wait change from `pre` to `post`, whatever waits before them. -/
def Carries {α : Type} (T : Terrain) (P : Walker → Prop) (x : Following α)
    (Q : α → Walker → Prop) (pre post : List ExprId := []) : Prop :=
  ∀ vs w c, P w → T.Does w c (vs ++ pre) →
    ∃ w', T.Reaches w w' ∧ T.Does w' (x c).2 (vs ++ post) ∧ Q (x c).1 w'

section

variable {α β : Type} {x : Following α} {f : α → Following β} {P P' : Walker → Prop}
  {Q Q' : α → Walker → Prop} {R : β → Walker → Prop} {pre mid post : List ExprId}

theorem Carries.imp (h : T.Carries P x Q pre post) (hP : ∀ w, P' w → P w)
    (hQ : ∀ a w, Q a w → Q' a w) : T.Carries P' x Q' pre post := by
  intro vs w c hw hdoes
  obtain ⟨w', hreach, hdoes', hw'⟩ := h vs w c (hP w hw) hdoes
  exact ⟨w', hreach, hdoes', hQ _ _ hw'⟩

theorem Carries.frame (h : T.Carries P x Q pre post) (before : List ExprId) :
    T.Carries P x Q (before ++ pre) (before ++ post) := by
  intro vs w c hw hdoes
  rw [← append_assoc] at hdoes ⊢
  exact h (vs ++ before) w c hw hdoes

theorem Carries.bind (h : T.Carries P x Q pre mid) (hf : ∀ a, T.Carries (Q a) (f a) R mid post) :
    T.Carries P (x >>= f) R pre post := by
  intro vs w c hw hdoes
  obtain ⟨w1, hreach, hdoes1, hw1⟩ := h vs w c hw hdoes
  obtain ⟨w2, hreach', hdoes2, hw2⟩ := hf _ vs w1 _ hw1 hdoes1
  exact ⟨w2, hreach.trans hreach', hdoes2, hw2⟩

/-- A way that does nothing that counts, and then another one. -/
theorem Carries.then {P1 : Walker → Prop}
    (h : T.Carries P (pure () : Following Unit) (fun _ => P1) pre mid)
    (h' : T.Carries P1 x Q mid post) : T.Carries P x Q pre post := h.bind fun _ => h'

/-- A way, and then one that does nothing that counts. -/
theorem Carries.finish (h : T.Carries P x Q pre mid)
    (h' : ∀ a, T.Carries (Q a) (pure () : Following Unit) (fun _ => Q' a) mid post) :
    T.Carries P x Q' pre post := by
  intro vs w c hw hdoes
  obtain ⟨w1, hreach, hdoes1, hw1⟩ := h vs w c hw hdoes
  obtain ⟨w2, hreach', hdoes2, hw2⟩ := h' _ vs w1 _ hw1 hdoes1
  exact ⟨w2, hreach.trans hreach', hdoes2, hw2⟩

theorem carries_pure {a : α} (h : ∀ w, P w → Q a w) : T.Carries P (pure a) Q pre pre :=
  fun _ w _ hw hdoes => ⟨w, .refl w, hdoes, h w hw⟩

theorem carries_of_step (h : ∀ vs w c, P w → T.Does w c (vs ++ pre) →
    T.Does (T.step w) (x c).2 (vs ++ post) ∧ Q (x c).1 (T.step w)) : T.Carries P x Q pre post :=
  fun vs w c hw hdoes => ⟨T.step w, reaches_step, h vs w c hw hdoes⟩

end

/-- What was built from one state to another leads a walker through the course, to a place of which
`Q` holds. -/
structure Leads {α : Type} (T : Terrain) (s s' : Lowering) (x : Following α)
    (Q : α → Walker → Prop) (pre post : List ExprId := []) : Prop extends s.Adds s' where
  carries : T.Covers s' → T.Carries s.Here x Q pre post

section

variable {α β : Type} {s₁ s₂ : Lowering} {x : Following α} {f : α → Following β}
  {Q : α → Walker → Prop} {R : β → Walker → Prop} {pre mid post : List ExprId}

theorem Leads.of_eq {y : Following α} (h : T.Leads s s₁ x Q pre post) (hy : T.Covers s₁ → y = x) :
    T.Leads s s₁ y Q pre post := ⟨h.toAdds, fun hcovers => hy hcovers ▸ h.carries hcovers⟩

/-- What was built in a block that was set aside leads a walker on from its start. -/
theorem Leads.carries_starts {o : Lowering} {blocks : List BlockId}
    (h : T.Leads (s.goneTo (some b)) s₁ x Q pre post) (hplan : o.Plan s blocks) (hb : b ∈ blocks)
    (hcovers : T.Covers s₁) : T.Carries (fun w => w.Starts b) x Q pre post :=
  (h.carries hcovers).imp (fun _ hw => hplan.here hb hw) fun _ _ => id

theorem Leads.bind (h : T.Leads s s₁ x (fun _ => s₁.Here) pre mid)
    (hf : ∀ a, T.Leads s₁ s₂ (f a) R mid post) : T.Leads s s₂ (x >>= f) R pre post :=
  have a := (x {}).1
  ⟨h.toAdds.trans (hf a).toAdds, fun hcovers =>
    (h.carries (hcovers.of_grows (hf a).toGrows)).bind fun a => (hf a).carries hcovers⟩

/-- What does nothing that counts, and then something else. -/
theorem Leads.then (h : T.Leads s s₁ (pure () : Following Unit) (fun _ => s₁.Here) pre mid)
    (h' : T.Leads s₁ s₂ x Q mid post) : T.Leads s s₂ x Q pre post := h.bind fun _ => h'

theorem Leads.frame (h : T.Leads s s₁ x Q pre post) (before : List ExprId) :
    T.Leads s s₁ x Q (before ++ pre) (before ++ post) :=
  ⟨h.toAdds, fun hcovers => (h.carries hcovers).frame before⟩

end

end Terrain

namespace Lower

variable {α β : Type} {act : Lower α} {f : α → Lower β} {s s' : Lowering} {b : β}

theorem bind_eq_ok : (act >>= f) s = .ok (b, s') ↔
    ∃ a s₁, act s = .ok (a, s₁) ∧ f a s₁ = .ok (b, s') := by
  change Except.bind (act s) (fun r => f r.1 r.2) = _ ↔ _
  cases act s with
  | error e =>
    refine ⟨fun h => (nomatch h), ?_⟩
    rintro ⟨_, _, h, -⟩
    cases h
  | ok r =>
    refine ⟨fun h => ⟨r.1, r.2, rfl, h⟩, ?_⟩
    rintro ⟨_, _, h, h'⟩
    cases h
    exact h'

theorem of_setCurrent_bind {cur : Option BlockId} {f : Unit → Lower β}
    (h : (setCurrent cur >>= f) s = .ok (b, s')) : f () (s.goneTo cur) = .ok (b, s') := h

end Lower

/-- The code that an action builds leads a walker through a course. -/
def Lower.Traces {α β : Type} (T : Terrain) (act : Lower α) (x : Following β)
    (Q : β → Lowering → Walker → Prop) : Prop :=
  ∀ s a s', s.Tidy → act s = .ok (a, s') → T.Leads s s' x fun b => Q b s'

/-- The code that an action builds leads a walker on through a course, where the values that wait change from
`pre` to those that the action names. -/
def Lower.Evaluates {α : Type} (T : Terrain) (act : Lower α) (x : Following Unit) (pre : List ExprId)
    (post : α → List ExprId) : Prop :=
  ∀ s a s', s.Tidy → s.Knows pre → act s = .ok (a, s') →
    s'.Knows (post a) ∧ T.Leads s s' x (fun _ => s'.Here) pre (post a)

namespace Lower

variable {α β γ : Type} {T : Terrain} {act : Lower α} {f : α → Lower β} {x : Following γ}
  {δ : Type} {y : Following δ} {Q : δ → Lowering → Walker → Prop}

/-- One action after another. -/
theorem Traces.bind (h : Traces T act x fun _ => Lowering.Here)
    (hf : ∀ a, Traces T (f a) y Q) : Traces T (act >>= f) (do let _ ← x; y) Q := by
  intro s b s' hs hrun
  obtain ⟨a, s₁, hact, hrest⟩ := bind_eq_ok.1 hrun
  have h1 := h s a s₁ hs hact
  exact h1.bind fun _ => hf a s₁ b s' h1.tidy hrest

/-- An action that does nothing that counts, and then another one. -/
theorem Traces.then (h : Traces T act (pure () : Following Unit) fun _ => Lowering.Here)
    (hf : ∀ a, Traces T (f a) y Q) : Traces T (act >>= f) y Q := h.bind hf

theorem traces_pure {a : α} : Traces T (pure a) (pure () : Following Unit) fun _ => Lowering.Here := by
  intro s a' s' hs hrun
  cases hrun
  exact ⟨.refl hs, fun _ => Terrain.carries_pure fun _ => id⟩

/-- An action that does nothing that counts, whatever waits. -/
theorem Traces.evaluates (h : Traces T act (pure () : Following Unit) fun _ => Lowering.Here)
    (vs : List ExprId) : Evaluates T act (pure ()) vs fun _ => vs := by
  intro s a s' hs hknown hrun
  have h := h s a s' hs hrun
  exact ⟨hknown.grows h.toGrows, (append_nil vs) ▸ h.frame vs⟩

section

variable {pre : List ExprId} {mid : α → List ExprId} {post : β → List ExprId} {z z' : Following Unit}

theorem Evaluates.frame (h : Evaluates T act z pre mid) (before : List ExprId) :
    Evaluates T act z (before ++ pre) fun a => before ++ mid a := by
  intro s a s' hs hknown hrun
  obtain ⟨hbefore, hpre⟩ := Lowering.knows_append.1 hknown
  obtain ⟨hpost, h⟩ := h s a s' hs hpre hrun
  exact ⟨Lowering.knows_append.2 ⟨hbefore.grows h.toGrows, hpost⟩, h.frame before⟩

/-- What takes nothing that waits. -/
theorem Evaluates.after (h : Evaluates T act z [] mid) (before : List ExprId) :
    Evaluates T act z before fun a => before ++ mid a := by
  have h := h.frame before
  rwa [append_nil] at h

theorem Evaluates.bind (h : Evaluates T act z pre mid)
    (hf : ∀ a, Evaluates T (f a) z' (mid a) post) : Evaluates T (act >>= f) (do z; z') pre post := by
  intro s b s' hs hknown hrun
  obtain ⟨a, s₁, hact, hrest⟩ := bind_eq_ok.1 hrun
  obtain ⟨hmid, h1⟩ := h s a s₁ hs hknown hact
  obtain ⟨hpost, h2⟩ := hf a s₁ b s' h1.tidy hmid hrest
  exact ⟨hpost, h1.bind fun _ => h2⟩

/-- An action that does nothing that counts, and then another one. -/
theorem Traces.before (h : Traces T act (pure () : Following Unit) fun _ => Lowering.Here)
    (hf : ∀ a, Evaluates T (f a) z pre post) : Evaluates T (act >>= f) z pre post :=
  (h.evaluates pre).bind hf

/-- An action, and then one that does nothing that counts. -/
theorem Evaluates.finish (h : Evaluates T act z pre mid)
    (hf : ∀ a, Evaluates T (f a) (pure ()) (mid a) post) : Evaluates T (act >>= f) z pre post :=
  h.bind hf

/-- An action after which no value waits that did not wait before. -/
theorem Evaluates.traces (h : Evaluates T act z [] fun _ => []) :
    Traces T act z fun _ => Lowering.Here :=
  fun s a s' hs hrun => (h s a s' hs (fun _ he => nomatch he) hrun).2

theorem evaluates_pure {a : α} (h : pre = mid a) : Evaluates T (pure a) (pure ()) pre mid := by
  intro s a' s' hs hknown hrun
  cases hrun
  subst h
  exact ⟨hknown, .refl hs, fun _ => Terrain.carries_pure fun _ => id⟩

/-- An act for which nothing happens, and then an action. -/
theorem Evaluates.silent {a : Act} {ready : List ExprId}
    (hdone : ∀ vs, T.Done a [] (vs ++ ready) (vs ++ pre)) (hsub : ∀ e ∈ pre, e ∈ ready)
    (h : Evaluates T act z pre mid) : Evaluates T act (do perform a; z) ready mid := by
  intro s b s' hs hknown hrun
  obtain ⟨hmid, h⟩ := h s b s' hs (fun e he => hknown e (hsub e he)) hrun
  refine ⟨hmid, h.toAdds, fun hcovers => Terrain.Carries.bind ?_ fun _ => h.carries hcovers⟩
  exact fun vs w c hw hdoes => ⟨w, .refl w, hdoes.silent (hdone vs), hw⟩

theorem evaluates_fail {cause : SemanticCause} {l : Location} :
    Evaluates T (fail cause l : Lower α) z pre mid := by
  intro s a s' _ _ hrun
  cases hrun

end

theorem traces_fail {cause : SemanticCause} {l : Location} : Traces T (fail cause l : Lower α) y Q := by
  intro s a s' _ hrun
  cases hrun

end Lower

end PathScout

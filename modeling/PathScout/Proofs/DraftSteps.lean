import PathScout.Proofs.Drafts

/-!
# The steps of building a function

What each elementary step does to a draft: opening a block, going to another block, adding a step,
ending a block, adding an expression.

* `Lower.Sends`: what an action does to a draft if it succeeds. `Lower.Sends.bind`: one action after
  another.
* `Draft.Ready`: the value of an expression is at hand and not used yet.
* `Lower.sends_addExpr`, `Lower.sends_toValue`, `Lower.sends_convert`: expressions and conversions.
* `Lower.sends_terminate`, `Lower.sends_jump`: ends of blocks.
-/

namespace PathScout

namespace Lower

/-! ### Actions on drafts -/

/-- If the action succeeds, it leads from the draft to one of which `Q` holds. -/
def Sends {α : Type} (d : Draft) (act : Lower α) (Q : α → Draft → Prop) : Prop :=
  ∀ a s, act d.state = .ok (a, s) → ∃ d' : Draft, d'.state = s ∧ Q a d'

section

variable {α β : Type} {d : Draft} {act : Lower α} {f : α → Lower β} {P Q : α → Draft → Prop}
  {R : β → Draft → Prop} {e : ExprId}

theorem Sends.imp (h : Sends d act P) (hPQ : ∀ a d', P a d' → Q a d') : Sends d act Q := by
  intro a s hact
  obtain ⟨d', hs, hP⟩ := h a s hact
  exact ⟨d', hs, hPQ a d' hP⟩

theorem Sends.bind (h : Sends d act P) (hf : ∀ a d', P a d' → Sends d' (f a) R) :
    Sends d (act >>= f) R := by
  intro b s hact
  change Except.bind (act d.state) (fun p => f p.1 p.2) = _ at hact
  cases hrun : act d.state with
  | error err =>
    rw [hrun] at hact
    cases hact
  | ok p =>
    obtain ⟨a, s'⟩ := p
    rw [hrun] at hact
    obtain ⟨d', rfl, hP⟩ := h a s' hrun
    exact hf a d' hP b s hact

/-- What an action gives may be known in advance. -/
theorem Sends.foretold (h : ∀ a, Sends d act fun a' d' => a' = a → Q a' d') : Sends d act Q := by
  intro a s hact
  obtain ⟨d', hs, hQ⟩ := h a a s hact
  exact ⟨d', hs, hQ rfl⟩

/-- Two actions that were looked at together, and then a third one. -/
theorem Sends.bind_assoc {γ : Type} {g : β → Lower γ} {T : γ → Draft → Prop}
    (h : Sends d (act >>= f) R) (hg : ∀ b d', R b d' → Sends d' (g b) T) :
    Sends d (act >>= fun a => f a >>= g) T := by
  rw [← LawfulMonad.bind_assoc]
  exact h.bind hg

theorem Sends.pure {a : α} (h : Q a d) : Sends d (pure a) Q := by
  intro a' s hact
  cases hact
  exact ⟨d, rfl, h⟩

/-- Of any action, nothing is known. -/
theorem sends_any : Sends d act fun _ _ => True := by
  intro a s _
  exact ⟨⟨s, d.entry⟩, rfl, trivial⟩

theorem sends_fail (cause : SemanticCause) (l : Location) : Sends d (fail cause l) Q := by
  intro a s hact
  cases hact

theorem Sends.get_bind {f : Lowering → Lower β} (h : Sends d (f d.state) R) : Sends d (get >>= f) R := h

theorem Sends.pure_bind {a : α} (h : Sends d (f a) R) : Sends d (Pure.pure a >>= f) R := h

theorem Sends.exprOf_bind {f : TypedExpr → Lower β} (h : Sends d (f (d.expr e)) R) :
    Sends d (exprOf e >>= f) R := h

theorem Sends.typeOf_bind {f : CType → Lower β} (h : Sends d (f (d.expr e).type) R) :
    Sends d (typeOf e >>= f) R := h

end

end Lower

namespace Draft

variable {d d₀ d' : Draft} {n m : Nat} {b c : BlockId} {e x : ExprId} {el : Element}
  {V : Set ExprId} {block : OpenBlock}

theorem Sound.current_ne_exit (hd : d.Sound) : d.state.current ≠ some ⟨1⟩ := by
  intro hcur
  obtain ⟨block, hb, hterm⟩ := hd.current _ hcur
  obtain ⟨block', hb', -, hterm'⟩ := hd.exit
  cases hb.symm.trans hb'
  cases hterm.symm.trans hterm'

/-! ### Opening blocks -/

/-- The draft with one more block, at whose start `V` is at hand. -/
def opened (d : Draft) (V : Set ExprId) : Draft where
  state := { d.state with blocks := d.state.blocks.push {} }
  entry := Function.update d.entry ⟨d.room⟩ V

theorem block?_opened : (d.opened V).block? b = if b.index = d.room then some {} else d.block? b := by
  simp only [block?, opened, Array.getElem?_push]

theorem block?_opened_of_lt (h : b.index < d.room) : (d.opened V).block? b = d.block? b := by
  rw [block?_opened, if_neg h.ne]

theorem entry_opened_of_lt (h : b.index < d.room) : (d.opened V).entry b = d.entry b := by
  have hne : b ≠ ⟨d.room⟩ := fun heq => h.ne (congrArg BlockId.index heq)
  exact Function.update_of_ne hne V d.entry

theorem evaluatedIn_opened : (d.opened V).EvaluatedIn b e ↔ d.EvaluatedIn b e := by
  constructor
  · rintro ⟨block, root, hb, hel⟩
    rw [block?_opened] at hb
    split at hb
    · cases hb
      cases hel with
      | mk h => cases h
    · exact ⟨block, root, hb, hel⟩
  · rintro ⟨block, root, hb, hel⟩
    exact ⟨block, root, by rw [block?_opened_of_lt (lt_room_of_block? hb), hb], hel⟩

theorem below_opened (d : Draft) (V : Set ExprId) : Below d (d.opened V) where
  size_le := le_refl _
  expr_eq _ _ := rfl
  vars_le := le_refl _
  var_eq _ _ := rfl
  announces := .refl _
  initial := rfl
  structs := rfl
  locals _ h := h
  room_le := by simp only [room, opened, Array.size_push]; omega
  entry_eq _ h := entry_opened_of_lt h
  evaluatedIn _ _ h := evaluatedIn_opened.2 h

theorem extends_opened (n : Nat) (d : Draft) (V : Set ExprId) : Extends n d (d.opened V) where
  toBelow := below_opened d V
  frame b block hb _ _ := ⟨block, by rw [block?_opened_of_lt (lt_room_of_block? hb), hb], rfl, rfl⟩
  current _ hb := .inl hb
  pending _ hb := .inl hb
  evaluated_new e := by
    rintro ⟨b, hb⟩
    exact .inl ⟨b, evaluatedIn_opened.1 hb⟩
  operands_new _ hle hlt := absurd hlt hle.not_gt
  targets := rfl
  returns := rfl
  globals := rfl

theorem Sound.lt_room_of_pending (hd : d.Sound) (h : d.Pending b) : b.index < d.room := by
  obtain ⟨-, block, hb, -⟩ := hd.pending b h
  exact lt_room_of_block? hb

theorem Sound.opened (hd : d.Sound) (V : Set ExprId) : (d.opened V).Sound := by
  have hbelow := below_opened d V
  obtain ⟨exitBlock, hexit, hels, hterm⟩ := hd.exit
  have hone : 1 < d.room := lt_room_of_block? hexit
  refine { hd with
    exit := ⟨exitBlock, by rw [block?_opened_of_lt hone, hexit], hels, hterm⟩
    start := ?_, finish := ?_, current := ?_, block := ?_, unique := ?_, targets := ?_,
    label := ?_, pending := ?_ }
  · rw [entry_opened_of_lt (by simp only; omega), hd.start]
  · rw [entry_opened_of_lt hone, hd.finish]
  · intro b hb
    obtain ⟨block, hblock, hnone⟩ := hd.current b hb
    exact ⟨block, by rw [block?_opened_of_lt (lt_room_of_block? hblock), hblock], hnone⟩
  · intro b block hb
    rw [block?_opened] at hb
    split at hb
    · cases hb
      refine ⟨supplied_nil _ _, ?_, ?_, ?_, ?_, ?_⟩ <;> simp
    · exact hbelow.blockSound hd (lt_room_of_block? hb) (hd.block b block hb)
  · intro b b' block block' i i' e r r' hb hb' hi hi'
    rw [block?_opened] at hb hb'
    split at hb
    · cases hb
      simp at hi
    · split at hb'
      · cases hb'
        simp at hi'
      · exact hd.unique b b' block block' i i' e r r' hb hb' hi hi'
  · intro t ht
    obtain ⟨hbreak, hcontinue⟩ := hd.targets t ht
    exact ⟨hbelow.idle hbreak, fun b hb => hbelow.idle (hcontinue b hb)⟩
  · intro l hl
    exact hbelow.idle (hd.label l hl)
  · intro b hb
    obtain ⟨hcur, block, hblock, hnone⟩ := hd.pending b hb
    exact ⟨hcur, block, by rw [block?_opened_of_lt (lt_room_of_block? hblock), hblock], hnone⟩

theorem entry_opened_self : (d.opened V).entry ⟨d.room⟩ = V := Function.update_self ..

theorem parked_opened (hd : d.Sound) (V : Set ExprId) : (d.opened V).Parked ⟨d.room⟩ V where
  block := ⟨{}, by rw [block?_opened, if_pos rfl], rfl⟩
  held := by
    have hb : (d.opened V).block? ⟨d.room⟩ = some {} := by rw [block?_opened, if_pos rfl]
    rw [held_eq hb]
    exact Function.update_self ..
  idle hcur := by
    obtain ⟨block, hb, -⟩ := hd.current _ hcur
    exact (lt_room_of_block? hb).ne rfl
  notPending hp := (hd.lt_room_of_pending hp).ne rfl

theorem held_opened_of_lt (h : b.index < d.room) : (d.opened V).held b = d.held b := by
  rw [held, held, block?_opened_of_lt h, entry_opened_of_lt h]

theorem now_opened (hd : d.Sound) (V : Set ExprId) : (d.opened V).now = d.now := by
  cases hcur : d.state.current with
  | none =>
    have hcur' : (d.opened V).state.current = none := hcur
    rw [now, now, hcur, hcur']
    rfl
  | some b =>
    obtain ⟨block, hb, -⟩ := hd.current b hcur
    have hcur' : (d.opened V).state.current = some b := hcur
    rw [now_eq hcur, now_eq hcur', held_opened_of_lt (lt_room_of_block? hb)]

/-! ### Going to another block -/

/-- The draft with another current block. -/
def goneTo (d : Draft) (b : Option BlockId) : Draft :=
  ⟨{ d.state with current := b }, d.entry⟩

theorem below_goneTo (d : Draft) (b : Option BlockId) : Below d (d.goneTo b) := { Below.refl d with }

theorem Sound.goneTo (hd : d.Sound) (h : d.Parked b V) : (d.goneTo (some b)).Sound :=
  { hd with
    current := by
      intro c hc
      cases hc
      exact h.block
    block := fun c block hc =>
      (below_goneTo d _).blockSound hd (lt_room_of_block? hc) (hd.block c block hc)
    pending := by
      intro c hc
      refine ⟨fun heq => ?_, (hd.pending c hc).2⟩
      cases heq
      exact h.notPending hc }

theorem Extends.goneTo (h : Extends n d₀ d)
    (hb : d₀.state.current = some b ∨ d₀.room ≤ b.index ∨ d₀.Pending b) :
    Extends n d₀ (d.goneTo (some b)) :=
  { h with
    current := by
      intro c hc
      cases hc
      exact hb }

theorem now_goneTo (h : d.Parked b V) : (d.goneTo (some b)).now = V := h.held

/-- A block that was set aside stays so when another one becomes the current one. -/
theorem Parked.goneTo (h : d.Parked b V) (hne : c ≠ b) : (d.goneTo (some c)).Parked b V :=
  { h with idle := fun heq => hne (Option.some.inj heq) }

/-- The current block can be set aside. -/
theorem Sound.parked_of_current (hd : d.Sound) (hb : d.state.current = some b) (hne : c ≠ b) :
    (d.goneTo (some c)).Parked b d.now where
  block := hd.current b hb
  held := (now_eq hb).symm
  idle heq := hne (Option.some.inj heq)
  notPending hp := (hd.pending b hp).1 hb

/-! ### Changing the current block -/

/-- The draft with a changed block, and then another current one. -/
def changed (d : Draft) (b : BlockId) (f : OpenBlock → OpenBlock) (cur : Option BlockId) : Draft :=
  ⟨{ d.state with blocks := d.state.blocks.modify b.index f, current := cur }, d.entry⟩

variable {f : OpenBlock → OpenBlock} {cur : Option BlockId}

theorem block?_changed :
    (d.changed b f cur).block? c = if c = b then (d.block? c).map f else d.block? c := by
  have hiff : b.index = c.index ↔ c = b := by
    constructor
    · intro h
      cases b
      cases c
      exact congrArg BlockId.mk h.symm
    · rintro rfl
      rfl
  simp only [block?, changed, Array.getElem?_modify, hiff]

theorem block?_changed_of_ne (h : c ≠ b) : (d.changed b f cur).block? c = d.block? c := by
  rw [block?_changed, if_neg h]

/-- The changed block evaluates all that it evaluated before. -/
def KeepsSteps (d : Draft) (b : BlockId) (f : OpenBlock → OpenBlock) : Prop :=
  ∀ block e r, d.block? b = some block → .expr e r ∈ block.elements →
    ∃ r', .expr e r' ∈ (f block).elements

theorem room_changed : (d.changed b f cur).room = d.room := Array.size_modify

theorem below_changed (h : d.KeepsSteps b f) : Below d (d.changed b f cur) where
  size_le := le_refl _
  expr_eq _ _ := rfl
  vars_le := le_refl _
  var_eq _ _ := rfl
  announces := .refl _
  initial := rfl
  structs := rfl
  locals _ h := h
  room_le := room_changed.ge
  entry_eq _ _ := rfl
  evaluatedIn c e := by
    rintro ⟨block, root, hc, hel⟩
    by_cases hcb : c = b
    · subst hcb
      obtain ⟨r', hr'⟩ := h block e root hc hel
      exact ⟨f block, r', by rw [block?_changed, if_pos rfl, hc]; rfl, hr'⟩
    · exact ⟨block, root, by rw [block?_changed_of_ne hcb, hc], hel⟩

theorem Extends.changed (h : Extends n d₀ d) (hb : d.state.current = some b)
    (hcur : cur = some b ∨ cur = none) (hkeep : d.KeepsSteps b f)
    (hnew : ∀ block e r, d.block? b = some block → .expr e r ∈ (f block).elements →
      d.Evaluated e ∨ d₀.size ≤ e.index) :
    Extends n d₀ (d.changed b f cur) where
  toBelow := h.toBelow.trans (below_changed hkeep)
  frame c block hc hne hpend := by
    obtain ⟨block', hc', hels, hterm⟩ := h.frame c block hc hne hpend
    have hcb : c ≠ b := by
      rintro rfl
      rcases h.current c hb with hcur | hge | hp
      · exact hne hcur
      · exact (lt_room_of_block? hc).not_ge hge
      · exact hpend hp
    exact ⟨block', by rw [block?_changed_of_ne hcb, hc'], hels, hterm⟩
  current c hc := by
    rcases hcur with rfl | rfl
    · cases hc
      exact h.current b hb
    · cases hc
  pending c hc := h.pending c hc
  evaluated_new e := by
    rintro ⟨c, block, root, hc, hel⟩
    rw [block?_changed] at hc
    split at hc
    · next hcb =>
      subst hcb
      obtain ⟨old, hold, rfl⟩ := Option.map_eq_some_iff.1 hc
      rcases hnew old e root hold hel with he | hge
      · exact h.evaluated_new e he
      · exact .inr hge
    · exact h.evaluated_new e ⟨c, block, root, hc, hel⟩
  operands_new := h.operands_new
  targets := h.targets
  returns := h.returns
  globals := h.globals

/-- Changing the current block leaves a draft sound if the changed block is. -/
theorem Sound.changed (hd : d.Sound) (hcurrent : d.state.current = some b) (hb : d.block? b = some block)
    (hcur : cur = some b ∧ (f block).terminator = none ∨ cur = none) (hkeep : d.KeepsSteps b f)
    (hblock : (d.changed b f cur).BlockSound b (f block))
    (hself : ∀ (i i' : Nat) (e : ExprId) (r r' : Bool), (f block).elements[i]? = some (.expr e r) →
      (f block).elements[i']? = some (.expr e r') → i = i')
    (hother : ∀ e r, .expr e r ∈ (f block).elements → d.Evaluated e → d.EvaluatedIn b e) :
    (d.changed b f cur).Sound := by
  have hbelow : Below d (d.changed b f cur) := below_changed hkeep
  obtain ⟨exitBlock, hexit, hels, hterm⟩ := hd.exit
  have hne : (⟨1⟩ : BlockId) ≠ b := by
    rintro rfl
    exact hd.current_ne_exit hcurrent
  -- an expression that the changed block evaluates is evaluated in no other block
  have hapart : ∀ (c : BlockId) (blockc : OpenBlock) (i i' : Nat) (e : ExprId) (r r' : Bool),
      c ≠ b → d.block? c = some blockc → blockc.elements[i]? = some (.expr e r) →
      (f block).elements[i']? = some (.expr e r') → False := by
    intro c blockc i i' e r r' hcb hc hi hi'
    have heval : d.Evaluated e := ⟨c, blockc, r, hc, Array.mem_of_getElem? hi⟩
    obtain ⟨old, root, hold, hel⟩ := hother e r' (Array.mem_of_getElem? hi') heval
    obtain ⟨j, hj⟩ := Array.getElem?_of_mem hel
    exact hcb (hd.unique c b blockc old i j e r root hc hold hi hj).1
  refine { hd with
    exit := ⟨exitBlock, by rw [block?_changed_of_ne hne, hexit], hels, hterm⟩
    current := ?_, block := ?_, unique := ?_, targets := ?_, label := ?_, pending := ?_ }
  · intro c hc
    rcases hcur with ⟨rfl, hnone⟩ | rfl
    · cases hc
      exact ⟨f block, by rw [block?_changed, if_pos rfl, hb]; rfl, hnone⟩
    · cases hc
  · intro c blockc hc
    rw [block?_changed] at hc
    split at hc
    · next hcb =>
      subst hcb
      rw [hb] at hc
      cases hc
      exact hblock
    · exact hbelow.blockSound hd (lt_room_of_block? hc) (hd.block c blockc hc)
  · intro c c' blockc blockc' i i' e r r' hc hc' hi hi'
    rw [block?_changed] at hc hc'
    split at hc
    · next hcb =>
      subst hcb
      rw [hb] at hc
      cases hc
      split at hc'
      · next hcb' =>
        subst hcb'
        rw [hb] at hc'
        cases hc'
        exact ⟨rfl, hself i i' e r r' hi hi'⟩
      · next hcb' => exact (hapart c' blockc' i' i e r' r hcb' hc' hi' hi).elim
    · next hcb =>
      split at hc'
      · next hcb' =>
        subst hcb'
        rw [hb] at hc'
        cases hc'
        exact (hapart c blockc i i' e r r' hcb hc hi hi').elim
      · exact hd.unique c c' blockc blockc' i i' e r r' hc hc' hi hi'
  · intro t ht
    obtain ⟨hbreak, hcontinue⟩ := hd.targets t ht
    exact ⟨hbelow.idle hbreak, fun b hb => hbelow.idle (hcontinue b hb)⟩
  · intro l hl
    exact hbelow.idle (hd.label l hl)
  · intro c hc
    obtain ⟨hidle, blockc, hblockc, hnone⟩ := hd.pending c hc
    have hcb : c ≠ b := fun heq => hidle (heq ▸ hcurrent)
    refine ⟨fun heq => ?_, blockc, by rw [block?_changed_of_ne hcb, hblockc], hnone⟩
    rcases hcur with ⟨rfl, -⟩ | rfl
    · exact hcb (Option.some.inj heq).symm
    · cases heq

theorem changed_state (h : d.state.current = some b) : (d.changed b f (some b)).state =
      { d.state with blocks := d.state.blocks.modify b.index f } := by
  rw [changed, ← h]

/-- The current block evaluates the expression. -/
def Latest (d : Draft) (x : ExprId) : Prop := ∃ b, d.state.current = some b ∧ d.EvaluatedIn b x

theorem Latest.evaluated (h : d.Latest x) : d.Evaluated x := by
  obtain ⟨b, -, hb⟩ := h
  exact ⟨b, hb⟩

/-! ### Adding steps -/

/-- The block with one more step. -/
def withStep (el : Element) (block : OpenBlock) : OpenBlock :=
  { block with elements := block.elements.push el }

theorem keepsSteps_withStep : d.KeepsSteps b (withStep el) :=
  fun _ _ r _ hel => ⟨r, Array.mem_push_of_mem _ hel⟩

theorem getElem?_withStep {i : Nat} :
    (withStep el block).elements[i]? = if i = block.elements.size then some el
      else block.elements[i]? := Array.getElem?_push

/-- A block stays sound with a step that has the values that it needs. -/
theorem BlockSound.withStep (hb : d.BlockSound b block) (hnone : block.terminator = none)
    (hheld : ∀ x ∈ el.operands d.program, x ∈ heldAfter (d.entry b) block.elements.toList)
    (hev : ∀ x ∈ el.operands d.program, d.Evaluated x) (htyped : d.StepTyped el) :
    d.BlockSound b (withStep el block) where
  supplied := by
    simp only [Draft.withStep, Array.toList_push]
    exact supplied_concat.2 ⟨hb.supplied, hheld⟩
  evaluated el' hel' := by
    rcases Array.mem_push.1 hel' with hel' | rfl
    · exact hb.evaluated el' hel'
    · exact hev
  typed el' hel' := by
    rcases Array.mem_push.1 hel' with hel' | rfl
    · exact hb.typed el' hel'
    · exact htyped
  operand t ht := by
    rw [Draft.withStep, hnone] at ht
    cases ht
  successor t ht := by
    rw [Draft.withStep, hnone] at ht
    cases ht
  exit ht := by
    rw [Draft.withStep, hnone] at ht
    cases ht

theorem Sound.withStep (hd : d.Sound) (hcur : d.state.current = some b)
    (hnow : ∀ x ∈ el.operands d.program, x ∈ d.now)
    (hev : ∀ x ∈ el.operands d.program, d.Evaluated x ∨ ∃ r, el = .expr x r)
    (htyped : d.StepTyped el) (hfresh : ∀ e r, el = .expr e r → ¬ d.Evaluated e) :
    (d.changed b (Draft.withStep el) (some b)).Sound := by
  obtain ⟨block, hb, hnone⟩ := hd.current b hcur
  have hbelow : Below d (d.changed b (Draft.withStep el) (some b)) := below_changed keepsSteps_withStep
  refine hd.changed hcur hb (.inl ⟨rfl, hnone⟩) keepsSteps_withStep ?_ ?_ ?_
  · refine (hbelow.blockSound hd (lt_room_of_block? hb) (hd.block b block hb)).withStep hnone ?_ ?_ ?_
    · intro x hx
      have := hnow x hx
      rwa [now_eq hcur, held_eq hb] at this
    · intro x hx
      rcases hev x hx with hx | ⟨r, rfl⟩
      · exact hbelow.evaluated hx
      · exact ⟨b, Draft.withStep _ block, r, by rw [block?_changed, if_pos rfl, hb]; rfl,
          Array.mem_push_self⟩
    · refine hbelow.stepTyped hd (fun x hx => ?_) htyped
      rcases hev x hx with hx | ⟨r, rfl⟩
      · exact hd.lt_of_evaluated hx
      · exact htyped.1
  · intro i i' e r r' hi hi'
    rw [getElem?_withStep] at hi hi'
    have hold : ∀ (j : Nat) (r : Bool), block.elements[j]? = some (.expr e r) → d.Evaluated e :=
      fun j r hj => ⟨b, block, r, hb, Array.mem_of_getElem? hj⟩
    split at hi <;> split at hi'
    · next h h' => exact h.trans h'.symm
    · exact absurd (hold i' r' hi') (hfresh e r (Option.some.inj hi))
    · exact absurd (hold i r hi) (hfresh e r' (Option.some.inj hi'))
    · exact (hd.unique b b block block i i' e r r' hb hb hi hi').2
  · intro e r hel heval
    rcases Array.mem_push.1 hel with hel | rfl
    · exact ⟨block, r, hb, hel⟩
    · exact absurd heval (hfresh e r rfl)

theorem Extends.withStep (h : Extends n d₀ d) (hcur : d.state.current = some b)
    (hnew : ∀ e r, el = .expr e r → d₀.size ≤ e.index) :
    Extends n d₀ (d.changed b (Draft.withStep el) (some b)) := by
  refine h.changed hcur (.inl rfl) keepsSteps_withStep fun block e r hb hel => ?_
  rcases Array.mem_push.1 hel with hel | rfl
  · exact .inl ⟨b, block, r, hb, hel⟩
  · exact .inr (hnew e r rfl)

theorem now_withStep (hd : d.Sound) (hcur : d.state.current = some b) :
    (d.changed b (Draft.withStep el) (some b)).now = el.keep d.now := by
  obtain ⟨block, hb, -⟩ := hd.current b hcur
  have hb' : (d.changed b (Draft.withStep el) (some b)).block? b = some (Draft.withStep el block) := by
    rw [block?_changed, if_pos rfl, hb]
    rfl
  have hcur' : (d.changed b (Draft.withStep el) (some b)).state.current = some b := rfl
  rw [now_eq hcur', held_eq hb', now_eq hcur, held_eq hb, Draft.withStep, Array.toList_push,
    heldAfter_concat]
  rfl

/-! ### Ending blocks -/

/-- The block with an end. -/
def withEnd (t : Terminator) (block : OpenBlock) : OpenBlock := { block with terminator := some t }

variable {t : Terminator}

theorem keepsSteps_withEnd : d.KeepsSteps b (withEnd t) := fun _ _ r _ hel => ⟨r, hel⟩

theorem Sound.withEnd (hd : d.Sound) (hcur : d.state.current = some b)
    (hop : ∀ x ∈ t.operands, x ∈ d.now ∧ (d.expr x).op.isPlace = false ∧ d.Latest x)
    (hsucc : ∀ s ∈ t.successors, s.index < d.room ∧ d.entry s ⊆ d.now) (hexit : t ≠ .exit) :
    (d.changed b (Draft.withEnd t) none).Sound := by
  obtain ⟨block, hb, hnone⟩ := hd.current b hcur
  have hbelow : Below d (d.changed b (Draft.withEnd t) none) := below_changed keepsSteps_withEnd
  have hold := hbelow.blockSound hd (lt_room_of_block? hb) (hd.block b block hb)
  have hnow : d.now = heldAfter (d.entry b) block.elements.toList := by rw [now_eq hcur, held_eq hb]
  refine hd.changed hcur hb (.inr rfl) keepsSteps_withEnd
    { supplied := hold.supplied, evaluated := hold.evaluated, typed := hold.typed,
      operand := ?_, successor := ?_, exit := ?_ } ?_ ?_
  · intro t' ht' x hx
    obtain rfl : t = t' := Option.some.inj ht'
    obtain ⟨hheld, hplace, c, hc, block', root, hb', hel⟩ := hop x hx
    cases hcur.symm.trans hc
    cases hb.symm.trans hb'
    rw [hnow] at hheld
    exact ⟨hheld, hplace, root, hel⟩
  · intro t' ht' s hs
    obtain rfl : t = t' := Option.some.inj ht'
    obtain ⟨hlt, hsub⟩ := hsucc s hs
    rw [hnow] at hsub
    exact ⟨hlt.trans_le hbelow.room_le, hsub⟩
  · intro ht
    exact absurd (Option.some.inj ht) hexit
  · intro i i' e r r' hi hi'
    exact (hd.unique b b block block i i' e r r' hb hb hi hi').2
  · intro e r hel _
    exact ⟨block, r, hb, hel⟩

theorem Extends.withEnd (h : Extends n d₀ d) (hcur : d.state.current = some b) :
    Extends n d₀ (d.changed b (Draft.withEnd t) none) :=
  h.changed hcur (.inr rfl) keepsSteps_withEnd fun block _ r hb hel => .inl ⟨b, block, r, hb, hel⟩

/-! ### Adding expressions -/

/-- The draft with one more expression, which no block evaluates. -/
def withExpr (d : Draft) (a : TypedExpr) : Draft :=
  ⟨{ d.state with program := { d.program with exprs := d.program.exprs.push a } }, d.entry⟩

variable {a : TypedExpr}

theorem size_withExpr : (d.withExpr a).size = d.size + 1 := Array.size_push ..

theorem expr_withExpr_of_lt (h : e.index < d.size) : (d.withExpr a).expr e = d.expr e := by
  simp only [expr, Program.expr, withExpr, Array.getElem?_push, if_neg h.ne]

theorem expr_withExpr_self : (d.withExpr a).expr ⟨d.size⟩ = a := by
  simp only [expr, Program.expr, withExpr, Array.getElem?_push]
  rfl

theorem below_withExpr (d : Draft) (a : TypedExpr) : Below d (d.withExpr a) where
  size_le := size_withExpr.ge.trans' (Nat.le_succ _)
  expr_eq _ h := expr_withExpr_of_lt h
  vars_le := le_refl _
  var_eq _ _ := rfl
  announces := { Program.Announces.refl d.program with }
  initial := rfl
  structs := rfl
  locals _ h := h
  room_le := le_refl _
  entry_eq _ _ := rfl
  evaluatedIn _ _ h := h

theorem Extends.withExpr (h : Extends n d₀ d) (hops : ∀ x ∈ a.op.operands, n ≤ x.index) :
    Extends n d₀ (d.withExpr a) :=
  { h with
    toBelow := h.toBelow.trans (below_withExpr d a)
    operands_new := by
      intro e hle hlt x hx
      rcases lt_or_ge e.index d.size with hlt' | hge
      · rw [expr_withExpr_of_lt hlt'] at hx
        exact h.operands_new e hle hlt' x hx
      · have heq : e = ⟨d.size⟩ := by
          rw [size_withExpr] at hlt
          cases e
          simp only at hge hlt
          simp only [ExprId.mk.injEq]
          omega
        subst heq
        rw [expr_withExpr_self] at hx
        exact hops x hx }

theorem eq_or_lt_of_lt_size_withExpr (h : e.index < (d.withExpr a).size) :
    e = ⟨d.size⟩ ∨ e.index < d.size := by
  rw [size_withExpr] at h
  rcases Nat.lt_succ_iff_lt_or_eq.1 h with h | h
  · exact .inr h
  · exact .inl (congrArg ExprId.mk h)

theorem Sound.withExpr (hd : d.Sound) (holder : ∀ x ∈ a.op.operands, x.index < d.size)
    (hunused : ∀ x ∈ a.op.operands, ¬ d.Used x) : (d.withExpr a).Sound := by
  have hbelow := below_withExpr d a
  refine { hd with
    block := fun b block hb => hbelow.blockSound hd (lt_room_of_block? hb) (hd.block b block hb)
    older := ?_, linear := ?_ }
  · intro e he x hx
    rcases eq_or_lt_of_lt_size_withExpr he with rfl | hlt
    · rw [expr_withExpr_self] at hx
      exact holder x hx
    · rw [expr_withExpr_of_lt hlt] at hx
      exact hd.older e hlt x hx
  · intro e e' x he he' hx hx'
    rcases eq_or_lt_of_lt_size_withExpr he with rfl | hlt
    · rcases eq_or_lt_of_lt_size_withExpr he' with rfl | hlt'
      · rfl
      · rw [expr_withExpr_self] at hx
        rw [expr_withExpr_of_lt hlt'] at hx'
        exact absurd ⟨e', hlt', hx'⟩ (hunused x hx)
    · rcases eq_or_lt_of_lt_size_withExpr he' with rfl | hlt'
      · rw [expr_withExpr_self] at hx'
        rw [expr_withExpr_of_lt hlt] at hx
        exact absurd ⟨e, hlt, hx⟩ (hunused x hx')
      · rw [expr_withExpr_of_lt hlt] at hx
        rw [expr_withExpr_of_lt hlt'] at hx'
        exact hd.linear e e' x hlt hlt' hx hx'

theorem used_withExpr (h : (d.withExpr a).Used x) : d.Used x ∨ x ∈ a.op.operands := by
  obtain ⟨e, he, hx⟩ := h
  rcases eq_or_lt_of_lt_size_withExpr he with rfl | hlt
  · rw [expr_withExpr_self] at hx
    exact .inr hx
  · rw [expr_withExpr_of_lt hlt] at hx
    exact .inl ⟨e, hlt, hx⟩

/-! ### Values that are ready to be used -/

/-- The value of the expression, which is numbered from `n` on, is at hand and was not used yet. -/
structure Ready (d : Draft) (n : Nat) (x : ExprId) : Prop where
  le : n ≤ x.index
  held : x ∈ d.now
  evaluated : d.Evaluated x
  unused : ¬ d.Used x

/-- Expressions that are built with later operands do not use a value. -/
theorem Extends.used (hext : Extends m d d') (hx : x.index < m) (h : d'.Used x) : d.Used x := by
  obtain ⟨e, he, hmem⟩ := h
  rcases lt_or_ge e.index d.size with hlt | hge
  · rw [hext.expr_eq e hlt] at hmem
    exact ⟨e, hlt, hmem⟩
  · exact absurd (hext.operands_new e hge he x hmem) hx.not_ge

theorem Ready.lt_size (h : d.Ready n x) (hd : d.Sound) : x.index < d.size :=
  hd.lt_of_evaluated h.evaluated

theorem Ready.mono (h : d.Ready n x) (hm : m ≤ n) : d.Ready m x := { h with le := hm.trans h.le }

/-- More was built in the current block or behind it, and nothing that was at hand is lost. -/
structure Grows (n : Nat) (d d' : Draft) : Prop extends Extends n d d' where
  sound : d'.Sound
  now : d.now ⊆ d'.now

theorem Grows.refl (n : Nat) (hd : d.Sound) : Grows n d d := ⟨.refl n d, hd, subset_rfl⟩

theorem Grows.trans {d'' : Draft} (h : Grows n d d') (h' : Grows n d' d'') : Grows n d d'' :=
  ⟨h.toExtends.trans h'.toExtends, h'.sound, h.now.trans h'.now⟩

theorem Grows.mono (h : Grows n d d') (hm : m ≤ n) : Grows m d d' :=
  ⟨h.toExtends.mono hm, h.sound, h.now⟩

/-- A value stays ready while other expressions are built. -/
theorem Ready.grows (h : d.Ready n x) (hd : d.Sound) (hg : Grows d.size d d') : d'.Ready n x where
  le := h.le
  held := hg.now h.held
  evaluated := hg.evaluated h.evaluated
  unused hused := h.unused (hg.used (h.lt_size hd) hused)

/-! ### Announcing functions -/

/-- The draft with other functions around it. -/
def withFunctions (d : Draft) (fs : Array Function) : Draft :=
  ⟨{ d.state with program := { d.program with functions := fs } }, d.entry⟩

variable {fs : Array Function}

theorem grows_withFunctions (n : Nat) (hd : d.Sound)
    (h : d.program.Announces (d.withFunctions fs).program) : Grows n d (d.withFunctions fs) := by
  have hbelow : Below d (d.withFunctions fs) := { Below.refl d with announces := h }
  have hsound : (d.withFunctions fs).Sound :=
    { hd with
      block := fun b block hb => hbelow.blockSound hd (lt_room_of_block? hb) (hd.block b block hb) }
  exact ⟨{ Extends.refl n d with toBelow := hbelow }, hsound, subset_rfl⟩

/-- A function without a body may be announced. -/
theorem announces_push {p : Program} {g : Function} (hg : g.body = none) :
    p.Announces { p with functions := p.functions.push g } where
  size_le := by
    simp only [Array.size_push]
    omega
  function_eq f hf := by simp only [Program.function, Array.getElem?_push, if_neg hf.ne]
  body_eq_none f hf := by
    simp only [Program.function, Array.getElem?_push]
    split
    · exact hg
    · exact (Program.Announces.refl p).body_eq_none f hf

end Draft

namespace Lower

open Draft

variable {d d₀ : Draft} {n : Nat} {b : BlockId} {e x : ExprId} {el : Element} {V : Set ExprId}

/-! ### What the elementary actions do -/

theorem sends_newBlock (V : Set ExprId) :
    Sends d newBlock fun b d' => d' = d.opened V ∧ b = ⟨d.room⟩ := by
  intro b s hact
  cases hact
  exact ⟨d.opened V, rfl, rfl, rfl⟩

theorem sends_setCurrent (b : Option BlockId) : Sends d (setCurrent b) fun _ d' => d' = d.goneTo b := by
  intro u s hact
  cases hact
  exact ⟨d.goneTo b, rfl, rfl⟩

/-- There is a current block now, at whose end nothing more is held than before. -/
theorem sends_ensureCurrent (hd : d.Sound) :
    Sends d ensureCurrent fun b d' => d'.Sound ∧ d'.state.current = some b ∧ d'.now = d.now ∧
      d'.program = d.program ∧ Below d d' ∧ (∀ e, d'.Evaluated e → d.Evaluated e) ∧
      (∀ c, d.state.current = some c → d' = d) ∧
      ∀ n d₀, Extends n d₀ d → Extends n d₀ d' := by
  refine .get_bind ?_
  cases hcur : d.state.current with
  | some b =>
    exact .pure ⟨hd, hcur, rfl, rfl, .refl d, fun _ h => h, fun _ _ => rfl, fun _ _ h => h⟩
  | none =>
    refine (sends_newBlock ∅).bind ?_
    rintro b d' ⟨rfl, rfl⟩
    refine (sends_setCurrent _).bind ?_
    rintro _ d' rfl
    have hparked := parked_opened hd ∅
    refine .pure ⟨(hd.opened ∅).goneTo hparked, rfl, ?_, rfl, ?_, ?_, ?_, ?_⟩
    · rw [now_goneTo hparked, now, hcur]
      rfl
    · exact (below_opened d ∅).trans (below_goneTo _ _)
    · rintro e ⟨c, hc⟩
      exact ⟨c, (evaluatedIn_opened (V := ∅)).1 hc⟩
    · intro c hc
      cases hc
    · intro n d₀ h
      exact (h.trans (extends_opened n d ∅)).goneTo (.inr (.inl h.room_le))

/-- A step is added to the current block. -/
theorem sends_pushElement (hd : d.Sound) (hnow : ∀ x ∈ el.operands d.program, x ∈ d.now)
    (hev : ∀ x ∈ el.operands d.program, d.Evaluated x ∨ ∃ r, el = .expr x r)
    (htyped : d.StepTyped el) (hfresh : ∀ e r, el = .expr e r → ¬ d.Evaluated e) :
    Sends d (pushElement el) fun _ d' => d'.Sound ∧ d'.now = el.keep d.now ∧
      d'.program = d.program ∧ Below d d' ∧ (∀ e r, el = .expr e r → d'.Latest e) ∧
      ∀ n d₀, Extends n d₀ d → (∀ e r, el = .expr e r → d₀.size ≤ e.index) → Extends n d₀ d' := by
  refine (sends_ensureCurrent hd).bind ?_
  rintro b d' ⟨hd', hcur, hnow', hprogram, hbelow, hback, -, hext⟩
  intro u s hact
  cases hact
  have hops : el.operands d'.program = el.operands d.program := by rw [hprogram]
  refine ⟨d'.changed b (withStep el) (some b), changed_state hcur, ?_, ?_, hprogram,
    hbelow.trans (below_changed keepsSteps_withStep), ?_, ?_⟩
  · refine hd'.withStep hcur ?_ ?_ ?_ ?_
    · rw [hops, hnow']
      exact hnow
    · intro x hx
      rw [hops] at hx
      exact (hev x hx).imp_left hbelow.evaluated
    · refine hbelow.stepTyped hd (fun x hx => ?_) htyped
      rcases hev x hx with hx | ⟨r, rfl⟩
      · exact hd.lt_of_evaluated hx
      · exact htyped.1
    · intro e r heq heval
      exact hfresh e r heq (hback e heval)
  · rw [now_withStep hd' hcur, hnow']
  · rintro e r rfl
    obtain ⟨block, hb, -⟩ := hd'.current b hcur
    exact ⟨b, rfl, withStep _ block, r, by rw [block?_changed, if_pos rfl, hb]; rfl,
      Array.mem_push_self⟩
  · intro n d₀ h hnew
    exact (hext n d₀ h).withStep hcur hnew

/-- The current block is ended. -/
theorem sends_terminate {t : Terminator} (hd : d.Sound)
    (hop : ∀ x ∈ t.operands, x ∈ d.now ∧ (d.expr x).op.isPlace = false ∧ d.Latest x)
    (hsucc : ∀ s ∈ t.successors, s.index < d.room ∧ d.entry s ⊆ d.now) (hexit : t ≠ .exit) :
    Sends d (terminate t) fun _ d' => d'.Sound ∧ d'.state.current = none ∧
      ∀ n d₀, Extends n d₀ d → Extends n d₀ d' := by
  refine (sends_ensureCurrent hd).bind ?_
  rintro b d' ⟨hd', hcur, hnow, hprogram, hbelow, -, hsame, hext⟩
  intro u s hact
  cases hact
  refine ⟨d'.changed b (withEnd t) none, rfl, ?_, rfl, fun n d₀ h => (hext n d₀ h).withEnd hcur⟩
  refine hd'.withEnd hcur (fun x hx => ?_) (fun s hs => ?_) hexit
  · obtain ⟨hheld, hplace, c, hc, heval⟩ := hop x hx
    obtain rfl := hsame c hc
    exact ⟨hheld, hplace, c, hc, heval⟩
  · obtain ⟨hlt, hsub⟩ := hsucc s hs
    rw [hbelow.entry_eq s hlt, hnow]
    exact ⟨hlt.trans_le hbelow.room_le, hsub⟩

/-- The current block ends with a jump. -/
theorem sends_jump {target : BlockId} (kind : JumpKind) (hd : d.Sound)
    (htarget : target.index < d.room) (hsub : d.entry target ⊆ d.now) :
    Sends d (jump target kind) fun _ d' => d'.Sound ∧ d'.state.current = none ∧
      ∀ n d₀, Extends n d₀ d → Extends n d₀ d' := by
  refine sends_terminate hd (fun x hx => by cases hx) (fun s hs => ?_) (by simp)
  rw [List.mem_singleton.1 hs]
  exact ⟨htarget, hsub⟩

theorem sends_addDetached (op : Operation) (type : CType) (span : Span) :
    Sends d (addDetached op type span) fun e d' => d' = d.withExpr ⟨op, type, span⟩ ∧ e = ⟨d.size⟩ := by
  intro e s hact
  cases hact
  exact ⟨_, rfl, rfl, rfl⟩

/-- An expression is added and evaluated: its value is ready, and it uses its operands only. -/
theorem sends_addExpr {op : Operation} {type : CType} {span : Span} (hd : d.Sound)
    (hn : n ≤ d.size) (hops : ∀ x ∈ op.operands, d.Ready n x) (hadmits : d.Admits op type)
    (hjoin : op ≠ .join) :
    Sends d (addExpr op type span) fun e d' => Grows n d d' ∧ d'.Ready n e ∧ d'.Latest e ∧
      d.size ≤ e.index ∧ d'.expr e = ⟨op, type, span⟩ ∧
      ∀ x, d'.Used x → d.Used x ∨ x ∈ op.operands := by
  refine (sends_addDetached op type span).bind ?_
  rintro e d1 ⟨rfl, rfl⟩
  have holder : ∀ x ∈ op.operands, x.index < d.size := fun x hx => (hops x hx).lt_size hd
  have hd1 : (d.withExpr ⟨op, type, span⟩).Sound := hd.withExpr holder fun x hx => (hops x hx).unused
  have hself : (d.withExpr ⟨op, type, span⟩).program.expr ⟨d.size⟩ = ⟨op, type, span⟩ :=
    expr_withExpr_self
  have hops1 : Element.operands (d.withExpr ⟨op, type, span⟩).program (.expr ⟨d.size⟩ false) =
      op.operands := by
    rw [Element.operands, hself]
    exact if_neg hjoin
  have hext1 : Extends n d (d.withExpr ⟨op, type, span⟩) :=
    (Extends.refl n d).withExpr fun x hx => (hops x hx).le
  have hfresh : ¬ (d.withExpr ⟨op, type, span⟩).Evaluated ⟨d.size⟩ := fun h =>
    (hd.lt_of_evaluated h).ne rfl
  refine (sends_pushElement hd1 ?_ ?_ ?_ ?_).bind ?_
  · rw [hops1]
    exact fun x hx => (hops x hx).held
  · rw [hops1]
    exact fun x hx => .inl (hops x hx).evaluated
  · refine ⟨by rw [size_withExpr]; exact Nat.lt_succ_self _, ?_, fun hop => ?_⟩
    · rw [expr_withExpr_self]
      exact (below_withExpr d _).admits holder (fun v hv => (hd.locals v hv).1) hadmits
    · rw [expr_withExpr_self] at hop
      exact absurd hop hjoin
  · intro e r heq
    cases heq
    exact hfresh
  · rintro _ d' ⟨hd', hnow, hprogram, -, hlatest, hext⟩
    have hnow' : d'.now = insert ⟨d.size⟩ d.now := hnow.trans (keep_expr _ _)
    have hexpr : ∀ e, d'.expr e = (d.withExpr ⟨op, type, span⟩).expr e := fun e => by
      rw [expr, hprogram]
    have hext' : Extends n d d' := hext n d hext1 fun e r heq => by
      cases heq
      exact le_refl _
    have hused : ∀ x, d'.Used x → d.Used x ∨ x ∈ op.operands := by
      rintro x ⟨e, he, hx⟩
      rw [hexpr] at hx
      exact used_withExpr ⟨e, by rwa [size, hprogram] at he, hx⟩
    refine .pure ⟨⟨hext', hd', ?_⟩, ⟨hn, ?_, (hlatest _ _ rfl).evaluated, ?_⟩,
      hlatest _ _ rfl, le_refl _, (hexpr _).trans hself, hused⟩
    · rw [hnow']
      exact Set.subset_insert _ _
    · rw [hnow']
      exact Set.mem_insert _ _
    · intro h
      rcases hused _ h with ⟨e, he, hx⟩ | hx
      · have := hd.older e he _ hx
        simp only at this
        omega
      · exact (holder _ hx).ne rfl

end Lower

end PathScout

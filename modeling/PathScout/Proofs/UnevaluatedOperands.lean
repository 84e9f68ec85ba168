import PathScout.Proofs.CodeWalks

/-!
# Operands that are not evaluated

Building an expression only adds: expressions and blocks at the end of their tables, steps at the end of the
block that was current, and functions that it calls and nobody declared. So all of it but the functions can
be taken back, also where the expression opens blocks, ends the current one, or has operands of its own that
are not evaluated.

* `Expr.callees`: the functions that an expression calls. `implicitFunction`: what a call announces.
* `Lowering.Beside`: what building an expression may add.
* `Lower.Spares`: an action that adds no more. `Lower.lower_spares`: building any expression is one.
* `Lowering.rollBack_eq`: what is left when it is taken back.
* `Lower.of_typeOfUnevaluated`: an operand that is not evaluated leaves nothing but functions.
-/

namespace PathScout

open List Option Array

/-! ### Calls -/

namespace Expr

mutual

/-- The names of the functions that an expression calls. -/
def callees : Expr → List String
  | int .. | char .. | string .. | null .. | ident .. | sizeofType .. => []
  | unary _ _ a | member _ a _ _ | cast _ _ a | sizeofExpr _ a => a.callees
  | binary _ _ l r | logical _ _ l r | assign _ _ l r | index _ l r => l.callees ++ r.callees
  | conditional _ c y n => c.callees ++ (y.callees ++ n.callees)
  | call _ callee args => callee :: calleesIn args

/-- The names of the functions that some expressions call. -/
def calleesIn : List Expr → List String
  | [] => []
  | a :: rest => a.callees ++ calleesIn rest

end

end Expr

/-- The function that a call announces if no function has its name. -/
def implicitFunction (name : String) (l : Location) : Function :=
  let (returns, params, variadic) := (Lower.librarySignature? name).getD (.int, [], true)
  ⟨name, returns, params, [], variadic, none, l, l⟩

/-! ### What is added -/

/-- The second program announces, for some of the names, functions that the first one does not have. -/
def Program.AnnouncesOnly (names : List String) (p p' : Program) : Prop :=
  ∃ more, p'.functions = p.functions ++ more ∧ ∀ f ∈ more, ∃ name ∈ names, ∃ l,
    p.functionNamed? name = none ∧ f = implicitFunction name l

/-- The block has further steps, and perhaps another end. -/
def OpenBlock.Continues (block block' : OpenBlock) : Prop :=
  ∃ more t, block' = { block with elements := block.elements ++ more, terminator := t }

/-- A state without what building an expression adds to: names, variables, scopes, labels and targets. -/
def Lowering.setting (s : Lowering) : Lowering :=
  { s with program := { s.program with exprs := #[], functions := #[] }, blocks := #[], current := none }

/-- What building an expression may add: expressions, blocks, steps and an end of the block that was current,
and functions of the given names. All else is as it was. -/
structure Lowering.Beside (names : List String) (o s : Lowering) : Prop where
  setting_eq : s.setting = o.setting
  exprs : ∃ more, s.program.exprs = o.program.exprs ++ more
  functions : o.program.AnnouncesOnly names s.program
  room_le : o.room ≤ s.room
  apart : ∀ b, b.index < o.room → o.current ≠ some b → s.block? b = o.block? b
  here : ∀ b block, o.current = some b → o.block? b = some block →
    ∃ block', s.block? b = some block' ∧ block.Continues block'
  current : ∀ b, s.current = some b → o.current = some b ∨ o.room ≤ b.index

theorem OpenBlock.Continues.refl (block : OpenBlock) : block.Continues block :=
  ⟨#[], block.terminator, by simp⟩

theorem OpenBlock.Continues.trans {block block' block'' : OpenBlock} (h : block.Continues block')
    (h' : block'.Continues block'') : block.Continues block'' := by
  obtain ⟨more, t, rfl⟩ := h
  obtain ⟨more', t', rfl⟩ := h'
  exact ⟨more ++ more', t', by simp⟩

namespace Program

variable {names names' : List String} {p p' : Program}

theorem AnnouncesOnly.refl (names : List String) (p : Program) : p.AnnouncesOnly names p :=
  ⟨#[], by simp, by simp⟩

theorem AnnouncesOnly.functionNamed? (h : p.AnnouncesOnly names p') {name : String}
    (hnone : p'.functionNamed? name = none) : p.functionNamed? name = none := by
  obtain ⟨more, heq, -⟩ := h
  simp only [Program.functionNamed?, heq, Option.map_eq_none_iff, Array.findIdx?_eq_none_iff,
    Array.mem_append] at hnone ⊢
  exact fun f hf => hnone f (.inl hf)

theorem AnnouncesOnly.trans {p'' : Program} (h : p.AnnouncesOnly names p')
    (h' : p'.AnnouncesOnly names p'') : p.AnnouncesOnly names p'' := by
  obtain ⟨more, heq, hmore⟩ := h
  obtain ⟨more', heq', hmore'⟩ := h'
  refine ⟨more ++ more', by rw [heq', heq, Array.append_assoc], fun f hf => ?_⟩
  rcases mem_append.1 hf with hf | hf
  · exact hmore f hf
  · obtain ⟨name, hname, l, hnone, rfl⟩ := hmore' f hf
    exact ⟨name, hname, l, AnnouncesOnly.functionNamed? ⟨more, heq, hmore⟩ hnone, rfl⟩

theorem AnnouncesOnly.mono (h : p.AnnouncesOnly names p') (hsub : names ⊆ names') :
    p.AnnouncesOnly names' p' := by
  obtain ⟨more, heq, hmore⟩ := h
  refine ⟨more, heq, fun f hf => ?_⟩
  obtain ⟨name, hname, l, hnone, rfl⟩ := hmore f hf
  exact ⟨name, hsub hname, l, hnone, rfl⟩

/-- No function that was declared is announced. -/
theorem AnnouncesOnly.functions_eq (h : p.AnnouncesOnly names p')
    (hdeclared : ∀ name ∈ names, p.functionNamed? name ≠ none) : p'.functions = p.functions := by
  obtain ⟨more, heq, hmore⟩ := h
  have hnil : more = #[] := by
    refine eq_empty_iff_forall_not_mem.2 fun f hf => ?_
    obtain ⟨name, hname, -, hnone, -⟩ := hmore f hf
    exact hdeclared name hname hnone
  rw [heq, hnil, append_empty]

end Program

namespace Lowering

variable {names names' : List String} {o s s' : Lowering} {b c : BlockId} {f : OpenBlock → OpenBlock}

theorem Beside.refl (names : List String) (s : Lowering) : Beside names s s where
  setting_eq := rfl
  exprs := ⟨#[], by simp⟩
  functions := .refl names s.program
  room_le := le_rfl
  apart _ _ _ := rfl
  here _ block _ hb := ⟨block, hb, .refl block⟩
  current _ hb := .inl hb

theorem Beside.mono (h : Beside names o s) (hsub : names ⊆ names') : Beside names' o s :=
  { h with functions := h.functions.mono hsub }

theorem Beside.trans {s'' : Lowering} (h : Beside names o s') (h' : Beside names s' s'') :
    Beside names o s'' where
  setting_eq := h'.setting_eq.trans h.setting_eq
  exprs := by
    obtain ⟨more, hmore⟩ := h.exprs
    obtain ⟨more', hmore'⟩ := h'.exprs
    exact ⟨more ++ more', by rw [hmore', hmore, Array.append_assoc]⟩
  functions := h.functions.trans h'.functions
  room_le := h.room_le.trans h'.room_le
  apart b hb hc := by
    refine (h'.apart b (hb.trans_le h.room_le) fun hc' => ?_).trans (h.apart b hb hc)
    exact (h.current b hc').elim hc hb.not_ge
  here b block hc hb := by
    obtain ⟨block', hb', hcont⟩ := h.here b block hc hb
    by_cases hc' : s'.current = some b
    · obtain ⟨block'', hb'', hcont'⟩ := h'.here b block' hc' hb'
      exact ⟨block'', hb'', hcont.trans hcont'⟩
    · exact ⟨block', (h'.apart b (lt_room_of_block? hb') hc').trans hb', hcont⟩
  current b hb := (h'.current b hb).elim (h.current b) fun hge => .inr (h.room_le.trans hge)

/-- One more expression. -/
theorem Beside.withExpr (h : Beside names o s) (x : TypedExpr) : Beside names o
    { s with program := { s.program with exprs := s.program.exprs.push x } } := by
  obtain ⟨more, hmore⟩ := h.exprs
  exact { h with exprs := ⟨more.push x, by rw [append_push, ← hmore]⟩ }

/-- More functions, which nobody declared. -/
theorem Beside.announcing (h : Beside names o s) {p : Program} (hp : s.program.AnnouncesOnly names p) :
    Beside names o { s with program := { s.program with functions := p.functions } } :=
  { h with functions := h.functions.trans hp }

theorem Beside.opened (h : Beside names o s) : Beside names o s.opened where
  setting_eq := h.setting_eq
  exprs := h.exprs
  functions := h.functions
  room_le := h.room_le.trans (by simp)
  apart b hb hc := (block?_opened_of_lt (hb.trans_le h.room_le)).trans (h.apart b hb hc)
  here b block hc hb := by
    obtain ⟨block', hb', hcont⟩ := h.here b block hc hb
    exact ⟨block', (block?_opened_of_lt (lt_room_of_block? hb')).trans hb', hcont⟩
  current := h.current

theorem Beside.goneTo (h : Beside names o s) {cur : Option BlockId}
    (hcur : ∀ b, cur = some b → o.current = some b ∨ o.room ≤ b.index) : Beside names o (s.goneTo cur) :=
  { h with current := hcur }

/-- The current block goes on. -/
theorem Beside.changed (h : Beside names o s) (hb : s.current = some b)
    (hf : ∀ block : OpenBlock, block.Continues (f block)) : Beside names o (s.changed b f) where
  setting_eq := h.setting_eq
  exprs := h.exprs
  functions := h.functions
  room_le := h.room_le.trans (by simp)
  apart c hlt hc := by
    refine (block?_changed_of_ne fun heq => ?_).trans (h.apart c hlt hc)
    subst heq
    rcases h.current c hb with hcur | hge
    · exact hc hcur
    · exact hlt.not_ge hge
  here c block hc hblock := by
    obtain ⟨block', hb', hcont⟩ := h.here c block hc hblock
    by_cases heq : c = b
    · subst heq
      exact ⟨f block', by rw [block?_changed_self, hb']; rfl, hcont.trans (hf block')⟩
    · exact ⟨block', (block?_changed_of_ne heq).trans hb', hcont⟩
  current := h.current

/-! ### What is left when it is taken back -/

/-- The state with a current block that has no end. -/
def reopened (s : Lowering) : Lowering :=
  match s.current with
  | some b => s.changed b fun block => { block with terminator := none }
  | none => s

theorem reopened_of_open (h : ∀ b, s.current = some b → s.Open b) : s.reopened = s := by
  unfold reopened
  split
  · next b hb =>
    obtain ⟨block, hblock, hnone⟩ := h b hb
    have hblocks : s.blocks.modify b.index (fun block => { block with terminator := none }) = s.blocks := by
      refine ext_getElem? fun i => ?_
      rw [Array.getElem?_modify]
      split
      · next hi =>
        subst hi
        rw [show s.blocks[b.index]? = some block from hblock, map_some, ← hnone]
      · rfl
    rw [changed, hblocks]
  · rfl

theorem Beside.reopened (h : Beside names o s) : Beside names o s.reopened := by
  unfold Lowering.reopened
  split
  · next b hb => exact h.changed hb fun block => ⟨#[], none, by simp⟩
  · exact h

theorem eq_of_setting_eq (h : s.setting = o.setting) : s = { o with
    program := { o.program with exprs := s.program.exprs, functions := s.program.functions }
    blocks := s.blocks
    current := s.current } := by
  rcases s with ⟨⟨⟩⟩
  rcases o with ⟨⟨⟩⟩
  simp only [setting, Lowering.mk.injEq, Program.mk.injEq] at h ⊢
  simp [h]

theorem reopened_eq (s : Lowering) : s.reopened = { s with blocks := s.reopened.blocks } := by
  unfold reopened
  split <;> rfl

/-- The blocks that were there before, with the earlier steps of the one that was current. -/
theorem Beside.blocks_rollBack (h : Beside names o s) : (s.rollBack o).blocks = o.reopened.blocks := by
  have htake {i : Nat} : (s.blocks.take o.room)[i]? = if i < o.room then s.blocks[i]? else none := by
    rw [take_eq_extract, getElem?_extract]
    grind
  have hapart {i : Nat} (hi : i < o.room) (hc : o.current ≠ some ⟨i⟩) : s.blocks[i]? = o.blocks[i]? :=
    h.apart ⟨i⟩ hi hc
  unfold rollBack Lowering.reopened
  cases hcur : o.current with
  | none =>
    refine ext_getElem? fun i => ?_
    rw [htake]
    split
    · next hi => exact hapart hi (by rw [hcur]; simp)
    · next hi => exact (Array.getElem?_eq_none (not_lt.1 hi)).symm
  | some b =>
    refine Array.ext_getElem? fun i => ?_
    simp only [Lowering.changed, Array.getElem?_modify]
    rw [htake]
    by_cases hib : b.index = i
    · subst hib
      rw [if_pos rfl, if_pos rfl]
      split
      · next hi =>
        obtain ⟨block, hblock⟩ := exists_block?_of_lt hi
        obtain ⟨block', hblock', more, t, rfl⟩ := h.here b block hcur hblock
        rw [block?] at hblock hblock'
        simp [hblock, hblock']
      · next hi => rw [Array.getElem?_eq_none (not_lt.1 hi)]; rfl
    · rw [if_neg hib, if_neg hib]
      split
      · next hi =>
        refine hapart hi fun heq => hib ?_
        rw [hcur] at heq
        exact congrArg BlockId.index (some.inj heq)
      · next hi => exact (Array.getElem?_eq_none (not_lt.1 hi)).symm

/-- **Nothing is left** of what building an expression added but functions that it announced. -/
theorem Beside.rollBack_eq (h : Beside names o s) : s.rollBack o =
    { o.reopened with program := { o.program with functions := s.program.functions } } := by
  obtain ⟨more, hmore⟩ := h.exprs
  have hexprs : s.program.exprs.take o.program.exprs.size = o.program.exprs := by simp [hmore]
  have hrest := eq_of_setting_eq h.setting_eq
  rw [reopened_eq, ← h.blocks_rollBack]
  rw [rollBack, hexprs]
  conv_lhs => rw [hrest]

end Lowering

/-! ### Actions -/

/-- Started beside `o`, the action stays beside it. -/
def Lower.Spares {α : Type} (names : List String) (o : Lowering) (act : Lower α) : Prop :=
  ∀ s a s', o.Beside names s → act s = .ok (a, s') → o.Beside names s'

/-- Both ways of building an expression add no more than it may, whatever the state. -/
structure Lowered.Spares (names : List String) (x : Lowered) : Prop where
  place (o : Lowering) : Lower.Spares names o x.place
  branch (o : Lowering) (yes no : BlockId) (kind : BranchKind) : Lower.Spares names o (x.branch yes no kind)

namespace Lower

variable {α β : Type} {names : List String} {o s s' : Lowering} {act : Lower α} {f : α → Lower β}
  {b : BlockId} {e : ExprId}

theorem Spares.bind (h : Spares names o act) (hf : ∀ a, Spares names o (f a)) :
    Spares names o (act >>= f) := fun s b s' hs hrun => by
  obtain ⟨a, s1, hact, hrest⟩ := bind_eq_ok.1 hrun
  exact hf a s1 b s' (h s a s1 hs hact) hrest

theorem spares_pure {a : α} : Spares names o (pure a) := fun _ _ _ hs hrun => by
  cases hrun
  exact hs

theorem spares_fail {cause : SemanticCause} {l : Location} : Spares names o (fail cause l : Lower α) :=
  fun _ _ _ _ hrun => by cases hrun

/-- What is read of the state is beside `o`. -/
theorem spares_get_bind {f : Lowering → Lower β} (h : ∀ s, o.Beside names s → Spares names o (f s)) :
    Spares names o (get >>= f) := fun s a s' hs hrun => h s hs s a s' hs hrun

theorem spares_exprOf_bind {f : TypedExpr → Lower β} (h : ∀ x, Spares names o (f x)) :
    Spares names o (exprOf e >>= f) := spares_get_bind fun _ _ => h _

theorem spares_typeOf_bind {f : CType → Lower β} (h : ∀ t, Spares names o (f t)) :
    Spares names o (typeOf e >>= f) := spares_exprOf_bind fun _ => h _

theorem spares_ite {c : Prop} [Decidable c] {act' : Lower α} (h : Spares names o act)
    (h' : Spares names o act') : Spares names o (if c then act else act') := by
  split
  · exact h
  · exact h'

/-! ### Elementary actions -/

/-- A new block is beyond those that were there. -/
theorem spares_newBlock_bind {f : BlockId → Lower β}
    (h : ∀ b : BlockId, o.room ≤ b.index → Spares names o (f b)) : Spares names o (newBlock >>= f) :=
  fun s a s' hs hrun => h ⟨s.room⟩ hs.room_le s.opened a s' hs.opened hrun

theorem spares_setCurrent {cur : Option BlockId}
    (hcur : ∀ b, cur = some b → o.current = some b ∨ o.room ≤ b.index) : Spares names o (setCurrent cur) :=
  fun _ _ _ hs hrun => by
    cases hrun
    exact hs.goneTo hcur

theorem spares_enter (hb : o.room ≤ b.index) : Spares names o (setCurrent (some b)) :=
  spares_setCurrent fun _ hc => some.inj hc ▸ .inr hb

/-- There is a current block, or a new one is opened. -/
theorem beside_ensureCurrent (hs : o.Beside names s) (hrun : ensureCurrent s = .ok (b, s')) :
    o.Beside names s' ∧ s'.current = some b := by
  obtain ⟨before, s1, hget, hrun⟩ := bind_eq_ok.1 hrun
  cases hget
  cases hcur : s.current with
  | some c =>
    rw [hcur] at hrun
    cases hrun
    exact ⟨hs, hcur⟩
  | none =>
    rw [hcur] at hrun
    cases hrun
    refine ⟨hs.opened.goneTo fun b hb => .inr ?_, rfl⟩
    cases hb
    exact hs.room_le

theorem spares_pushElement (el : Element) : Spares names o (pushElement el) := fun s u s' hs hrun => by
  obtain ⟨b, s1, hensure, hrun⟩ := bind_eq_ok.1 hrun
  obtain ⟨h1, hb⟩ := beside_ensureCurrent hs hensure
  cases hrun
  exact h1.changed hb fun block => ⟨#[el], block.terminator, by simp⟩

theorem spares_terminate (t : Terminator) : Spares names o (terminate t) := fun s u s' hs hrun => by
  obtain ⟨b, s1, hensure, hrun⟩ := bind_eq_ok.1 hrun
  obtain ⟨h1, hb⟩ := beside_ensureCurrent hs hensure
  cases hrun
  exact (h1.changed hb fun block => ⟨#[], some t, by simp⟩).goneTo fun _ hc => nomatch hc

theorem spares_addDetached (op : Operation) (t : CType) (span : Span) :
    Spares names o (addDetached op t span) := fun s e s' hs hrun => by
  cases hrun
  exact hs.withExpr _

theorem spares_addExpr (op : Operation) (t : CType) (span : Span) : Spares names o (addExpr op t span) :=
  (spares_addDetached op t span).bind fun _ => (spares_pushElement _).bind fun _ => spares_pure

theorem spares_requireComplete (t : CType) (l : Location) : Spares names o (requireComplete t l) :=
  spares_get_bind fun before _ s u s' hs hrun => by
    change Except.bind (checkComplete before.program t l) (fun a => .ok (a, s)) = _ at hrun
    cases hcheck : checkComplete before.program t l with
    | error e =>
      rw [hcheck] at hrun
      cases hrun
    | ok u =>
      rw [hcheck] at hrun
      cases hrun
      exact hs

theorem spares_resolveFunction {name : String} (hname : name ∈ names) (l : Location) :
    Spares names o (resolveFunction name l) := fun s f s' hs hrun => by
  obtain ⟨before, s1, hget, hrun⟩ := bind_eq_ok.1 hrun
  cases hget
  cases hnamed : s.program.functionNamed? name with
  | some g =>
    simp only [hnamed] at hrun
    cases hrun
    exact hs
  | none =>
    simp only [hnamed] at hrun
    cases hrun
    refine hs.announcing (p := { s.program with
      functions := s.program.functions.push (implicitFunction name l) }) ?_
    refine ⟨#[implicitFunction name l], by simp, fun f hf => ?_⟩
    rw [List.mem_toArray, List.mem_singleton] at hf
    exact ⟨name, hname, l, hnamed, hf⟩

/-! ### Conversions -/

theorem spares_toValue (e : ExprId) : Spares names o (toValue e) :=
  spares_exprOf_bind fun _ => spares_ite spares_pure <|
    spares_ite (spares_addExpr _ _ _) (spares_addExpr _ _ _)

theorem spares_convert (e : ExprId) (target : CType) : Spares names o (convert e target) :=
  spares_exprOf_bind fun _ => spares_ite spares_pure <| spares_ite (spares_addExpr _ _ _) spares_fail

theorem spares_requireScalar (e : ExprId) : Spares names o (requireScalar e) :=
  spares_exprOf_bind fun _ => spares_ite spares_pure spares_fail

theorem spares_requireInteger (e : ExprId) : Spares names o (requireInteger e) :=
  spares_exprOf_bind fun _ => spares_ite (spares_convert _ _) spares_fail

end Lower

namespace Lowered.Spares

open Lower

variable {names names' : List String} {o : Lowering} {x : Lowered}

theorem mono (h : x.Spares names) (hsub : names ⊆ names') : x.Spares names' where
  place _ s e s' hs hrun := hs.trans ((h.place s s e s' (.refl names s) hrun).mono hsub)
  branch _ yes no kind s u s' hs hrun :=
    hs.trans ((h.branch s yes no kind s u s' (.refl names s) hrun).mono hsub)

/-- Both of two operands add no more than what either may. -/
theorem both {y : Lowered} (hx : x.Spares names) (hy : y.Spares names') :
    x.Spares (names ++ names') ∧ y.Spares (names ++ names') :=
  ⟨hx.mono (subset_append_left _ _), hy.mono (subset_append_right _ _)⟩

theorem value (hx : x.Spares names) : Lower.Spares names o x.value := (hx.place o).bind spares_toValue

theorem target (hx : x.Spares names) (l : Location) : Lower.Spares names o (x.target l) :=
  (hx.place o).bind fun _ => spares_exprOf_bind fun _ => spares_ite spares_pure spares_fail

theorem ofPlace (l : Location) {act : Lower ExprId} (h : ∀ o, Lower.Spares names o act) :
    (Lowered.ofPlace l act).Spares names where
  place := h
  branch o _ _ _ := (h o).bind fun _ => (spares_toValue _).bind fun _ =>
    (spares_requireScalar _).bind fun _ => spares_terminate _

end Lowered.Spares

namespace Lower

variable {names : List String} {o s : Lowering} {a left right : Lowered} {span : Span}

/-! ### Operators -/

theorem spares_lowerBinary (op : BinaryOp) (hl : left.Spares names) (hr : right.Spares names) :
    Spares names o (lowerBinary span op left right) := by
  have hadd (op : Operation) (t : CType) : Spares names o (addExpr op t span) := spares_addExpr op t span
  refine hl.value.bind fun l => hr.value.bind fun r => ?_
  refine spares_typeOf_bind fun lt => spares_typeOf_bind fun rt => ?_
  refine spares_ite ?_ <| spares_ite ?_ <| spares_ite ?_ <| spares_ite ?_ <|
    spares_ite (hadd _ _) spares_fail
  · exact (spares_convert l .int).bind fun _ => (spares_convert r .int).bind fun _ => hadd _ _
  · refine spares_ite (hadd _ _) <| spares_ite ?_ <| spares_ite ?_ spares_fail
    · exact (spares_convert r lt).bind fun _ => hadd _ _
    · exact (spares_convert l rt).bind fun _ => hadd _ _
  · exact (spares_convert r .int).bind fun _ => hadd _ _
  · exact (spares_convert l .int).bind fun _ => hadd _ _

theorem spares_lowerUnary_step (l : Location) (increment before : Bool) (ha : a.Spares names) :
    Spares names o (lowerUnary.step span a l increment before) :=
  (ha.target l).bind fun t => (spares_requireScalar t).bind fun _ =>
    spares_typeOf_bind fun _ => spares_addExpr _ _ _

theorem spares_lowerUnary (op : UnaryOp) (l : Location) (ha : a.Spares names) :
    Spares names o (lowerUnary span op a l) := by
  cases op with
  | neg | bitNot =>
    exact ha.value.bind fun v => (spares_requireInteger v).bind fun _ => spares_addExpr _ _ _
  | not => exact ha.value.bind fun v => (spares_requireScalar v).bind fun _ => spares_addExpr _ _ _
  | deref =>
    refine ha.value.bind fun v => spares_typeOf_bind fun t => ?_
    split
    · exact spares_ite spares_fail (spares_addExpr _ _ _)
    · exact spares_fail
  | addrOf => exact (ha.target l).bind fun t => spares_typeOf_bind fun _ => spares_addExpr _ _ _
  | preInc | preDec | postInc | postDec => exact spares_lowerUnary_step l _ _ ha

theorem spares_lowerAssign (op : Option BinaryOp) (l : Location) (hl : left.Spares names)
    (hr : right.Spares names) : Spares names o (lowerAssign span op left right l) := by
  refine (hl.target l).bind fun t => spares_typeOf_bind fun type => ?_
  refine spares_ite spares_fail (hr.value.bind fun v => ?_)
  cases op with
  | none => exact (spares_convert v type).bind fun _ => spares_addExpr _ _ _
  | some op =>
    refine (spares_requireScalar t).bind fun _ => spares_ite ?_ ?_
    · exact spares_typeOf_bind fun _ => spares_fail
    · exact (spares_requireInteger v).bind fun _ => spares_addExpr _ _ _

theorem spares_lowerIndex (hl : left.Spares names) (hr : right.Spares names) :
    Spares names o (lowerIndex span left right) := by
  refine hl.value.bind fun b => hr.value.bind fun i => ?_
  refine spares_typeOf_bind fun bt => spares_typeOf_bind fun it => ?_
  dsimp only
  split
  · exact spares_ite spares_fail <| (spares_requireInteger _).bind fun _ => spares_addExpr _ _ _
  · exact spares_fail

theorem spares_lowerMember (baseSpan : Span) (field : String) (arrow : Bool) (ha : a.Spares names) :
    Spares names o (lowerMember span a baseSpan field arrow) := by
  unfold lowerMember
  refine Spares.bind (spares_ite ?_ (ha.target _)) fun object => spares_typeOf_bind fun t => ?_
  · refine ha.value.bind fun v => spares_typeOf_bind fun t => ?_
    split
    · exact spares_addExpr _ _ _
    · exact spares_fail
  · split
    · refine spares_get_bind fun s _ => ?_
      dsimp only
      split
      · exact spares_fail
      · split
        · exact spares_fail
        · exact spares_addExpr _ _ _
    · exact spares_fail

/-! ### Branches that are joined again -/

theorem spares_branchLogical (op : LogicalOp) (yes no : BlockId) (kind : BranchKind)
    (hl : left.Spares names) (hr : right.Spares names) :
    Spares names o (branchLogical op left right yes no kind) := by
  refine spares_newBlock_bind fun second hsecond => ?_
  have hrest : Spares names o (do
      setCurrent (some second)
      right.branch yes no kind) := (spares_enter hsecond).bind fun _ => hr.branch o yes no kind
  cases op with
  | and => exact (hl.branch o second no .logicalAnd).bind fun _ => hrest
  | or => exact (hl.branch o yes second .logicalOr).bind fun _ => hrest

theorem spares_mergeInto {join : ExprId} {value : MergeValue} {next : BlockId} :
    Spares names o (mergeInto join value next) :=
  (spares_pushElement _).bind fun _ => spares_terminate _

/-- The right side decides in which of two blocks a logical operator gets its value. -/
def joinSecond (right : Lowered) (join : ExprId) (second yes no next : BlockId) : Lower ExprId := do
  setCurrent (some second)
  right.branch yes no .operand
  setCurrent (some yes)
  mergeInto join (.int 1) next
  setCurrent (some no)
  mergeInto join (.int 0) next
  setCurrent (some next)
  pushElement (.expr join false)
  return join

theorem spares_lowerLogical (op : LogicalOp) (hl : left.Spares names) (hr : right.Spares names) :
    Spares names o (lowerLogical span op left right) := by
  refine (spares_addDetached _ _ _).bind fun join => spares_newBlock_bind fun second hsecond => ?_
  refine spares_newBlock_bind fun yes hyes => spares_newBlock_bind fun no hno => ?_
  refine spares_newBlock_bind fun next hnext => ?_
  have hrest : Spares names o (joinSecond right join second yes no next) := by
    unfold joinSecond
    refine (spares_enter hsecond).bind fun _ => (hr.branch o yes no .operand).bind fun _ => ?_
    refine (spares_enter hyes).bind fun _ => spares_mergeInto.bind fun _ => ?_
    refine (spares_enter hno).bind fun _ => spares_mergeInto.bind fun _ => ?_
    exact (spares_enter hnext).bind fun _ => (spares_pushElement _).bind fun _ => spares_pure
  cases op with
  | and => exact (hl.branch o second no .logicalAnd).bind fun _ => hrest
  | or => exact (hl.branch o yes second .logicalOr).bind fun _ => hrest

theorem spares_lowerConditional {cond : Lowered} (hc : cond.Spares names) (hl : left.Spares names)
    (hr : right.Spares names) : Spares names o (lowerConditional span cond left right) := by
  refine spares_newBlock_bind fun yes hyes => spares_newBlock_bind fun no hno => ?_
  refine spares_newBlock_bind fun next hnext => ?_
  refine (hc.branch o yes no .conditional).bind fun _ => ?_
  -- each way ends in the block that was current before, or in a new one
  refine (spares_enter hyes).bind fun _ => hl.value.bind fun y => spares_get_bind fun s1 hyesEnd => ?_
  refine (spares_enter hno).bind fun _ => hr.value.bind fun n => spares_get_bind fun s2 hnoEnd => ?_
  refine spares_typeOf_bind fun yt => spares_typeOf_bind fun nt => ?_
  split
  · exact spares_fail
  · refine (spares_addDetached _ _ _).bind fun join => ?_
    refine (spares_setCurrent hyesEnd.current).bind fun _ => (spares_convert y _).bind fun _ => ?_
    refine spares_mergeInto.bind fun _ => ?_
    refine (spares_setCurrent hnoEnd.current).bind fun _ => (spares_convert n _).bind fun _ => ?_
    refine spares_mergeInto.bind fun _ => ?_
    exact (spares_enter hnext).bind fun _ => (spares_pushElement _).bind fun _ => spares_pure

/-! ### Calls and operands that are not evaluated -/

theorem spares_passArgument {e : ExprId} (param : Option CType) : Spares names o (passArgument e param) := by
  cases param with
  | some t => exact spares_convert e t
  | none => exact spares_typeOf_bind fun t => spares_ite (spares_convert e .int) spares_pure

theorem spares_lowerCall {callee : String} (hcallee : callee ∈ names) (count : Nat)
    {lowerArgs : List CType → Lower (List ExprId)} (h : ∀ params, Spares names o (lowerArgs params)) :
    Spares names o (lowerCall span callee count lowerArgs) := by
  refine (spares_resolveFunction hcallee span.first).bind fun f => spares_get_bind fun s _ => ?_
  exact spares_ite ((h _).bind fun args => spares_addExpr _ _ _) spares_fail

/-- **An operand that is not evaluated** leaves nothing but functions that it announced. -/
theorem of_typeOfUnevaluated {t : CType} {s' : Lowering} (ha : a.Spares names)
    (hrun : typeOfUnevaluated a s = .ok (t, s')) : ∃ e s1, a.place s = .ok (e, s1) ∧
      s.Beside names s1 ∧ t = (s1.program.expr e).type ∧
      s' = { s.reopened with program := { s.program with functions := s1.program.functions } } := by
  obtain ⟨before, s0, hget, hrun⟩ := bind_eq_ok.1 hrun
  cases hget
  obtain ⟨e, s1, hplace, hrun⟩ := bind_eq_ok.1 hrun
  have hbeside := ha.place s s e s1 (.refl names s) hplace
  obtain ⟨type, s2, htype, hrun⟩ := bind_eq_ok.1 hrun
  cases htype
  cases hrun
  exact ⟨e, s1, hplace, hbeside, rfl, hbeside.rollBack_eq⟩

/-- Where the current block has no end, all but those functions is as before. -/
theorem typeOfUnevaluated_eq {e : ExprId} {s1 : Lowering} (ha : a.Spares names)
    (hopen : ∀ b, s.current = some b → s.Open b) (hplace : a.place s = .ok (e, s1)) :
    typeOfUnevaluated a s = .ok ((s1.program.expr e).type,
      { s with program := { s.program with functions := s1.program.functions } }) := by
  have hbeside := ha.place s s e s1 (.refl names s) hplace
  have hrollBack := hbeside.rollBack_eq
  rw [Lowering.reopened_of_open hopen] at hrollBack
  refine bind_eq_ok.2 ⟨s, s, rfl, bind_eq_ok.2 ⟨e, s1, hplace, bind_eq_ok.2 ⟨_, s1, rfl, ?_⟩⟩⟩
  exact bind_eq_ok.2 ⟨(), s1.rollBack s, rfl, by rw [hrollBack]; rfl⟩

theorem spares_typeOfUnevaluated (ha : a.Spares names) : Spares names o (typeOfUnevaluated a) :=
  fun s t s' hs hrun => by
    obtain ⟨e, s1, -, hbeside, -, rfl⟩ := of_typeOfUnevaluated ha hrun
    have hreopened := hs.reopened
    rw [Lowering.reopened_eq] at hreopened ⊢
    exact hreopened.announcing hbeside.functions

/-! ### All expressions -/

mutual

/-- **Building an expression only adds**, in either way and whatever the state. -/
theorem lower_spares (ex : Expr) : (lower ex).Spares ex.callees := by
  unfold lower
  match ex with
  | .int .. | .char .. | .string .. | .null .. => exact .ofPlace _ fun _ => spares_addExpr _ _ _
  | .ident span name =>
    refine .ofPlace _ fun _ => spares_get_bind fun s _ => ?_
    split
    · exact spares_addExpr _ _ _
    · exact spares_fail
  | .binary span op l r =>
    obtain ⟨hl, hr⟩ := (lower_spares l).both (lower_spares r)
    exact .ofPlace _ fun _ => spares_lowerBinary op hl hr
  | .logical span op l r =>
    obtain ⟨hl, hr⟩ := (lower_spares l).both (lower_spares r)
    exact ⟨fun _ => spares_lowerLogical op hl hr, fun _ yes no kind =>
      spares_branchLogical op yes no kind hl hr⟩
  | .unary span op a => exact .ofPlace _ fun _ => spares_lowerUnary op _ (lower_spares a)
  | .assign span op t v =>
    obtain ⟨hl, hr⟩ := (lower_spares t).both (lower_spares v)
    exact .ofPlace _ fun _ => spares_lowerAssign op _ hl hr
  | .conditional span c y n =>
    obtain ⟨hy, hn⟩ := (lower_spares y).both (lower_spares n)
    obtain ⟨hc, hy⟩ := (lower_spares c).both hy
    replace hn := hn.mono (subset_append_right c.callees _)
    exact .ofPlace _ fun _ => spares_lowerConditional hc hy hn
  | .call span callee args =>
    exact .ofPlace _ fun _ => spares_lowerCall mem_cons_self _ fun params =>
      spares_lowerArgs args params (subset_cons_self _ _)
  | .index span b i =>
    obtain ⟨hl, hr⟩ := (lower_spares b).both (lower_spares i)
    exact .ofPlace _ fun _ => spares_lowerIndex hl hr
  | .member span b field arrow =>
    exact .ofPlace _ fun _ => spares_lowerMember _ field arrow (lower_spares b)
  | .cast span type a =>
    refine .ofPlace _ fun _ => (spares_requireComplete _ _).bind fun _ => ?_
    refine (lower_spares a).value.bind fun v => spares_typeOf_bind fun t => ?_
    exact spares_ite (spares_addExpr _ _ _) spares_fail
  | .sizeofType span type =>
    refine .ofPlace _ fun _ => (spares_requireComplete _ _).bind fun _ => ?_
    exact spares_get_bind fun s _ => spares_addExpr _ _ _
  | .sizeofExpr span a =>
    refine .ofPlace _ fun _ => (spares_typeOfUnevaluated (lower_spares a)).bind fun t => ?_
    exact spares_get_bind fun s _ => spares_addExpr _ _ _

theorem spares_lowerArgs (args : List Expr) (params : List CType) {names : List String} {o : Lowering}
    (hnames : Expr.calleesIn args ⊆ names) : Spares names o (lowerArgs args params) := by
  unfold lowerArgs
  match args with
  | [] => exact spares_pure
  | a :: rest =>
    have ha := (lower_spares a).mono (List.Subset.trans (subset_append_left _ _) hnames)
    refine ha.value.bind fun v => (spares_passArgument _).bind fun v => ?_
    exact (spares_lowerArgs rest _ (List.Subset.trans (subset_append_right _ _) hnames)).bind
      fun more => spares_pure

end

end Lower

end PathScout

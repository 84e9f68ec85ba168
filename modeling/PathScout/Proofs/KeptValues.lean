import PathScout.Proofs.QuietActions

/-!
# Values that are kept

Whatever writes to memory leaves the values of expressions as they are, and so do checkers when they
are asked about an event. Only a checker that evaluates a call gives the call a value.

* `Naming.Always`: what a naming action gives, whatever has a number already.
* `State.Keeps`: another state in which expressions have the same values and allocations the same kinds.
* `Checker.within_check`, `Checker.within_evalCall?`: checkers keep the values of expressions.
* `Checker.check_callEnds`: no checker minds the end of a call that was followed.
-/

namespace PathScout

open Naming Option

variable {P : State → Prop} {verdict : Verdict}

/-! ### Naming actions -/

namespace Naming

variable {α β : Type} {P : α → Prop} {Q : β → Prop}

/-- What the action gives satisfies the condition, whatever has a number already. -/
def Always (x : Naming α) (P : α → Prop) : Prop := ∀ c, P (x c).1

theorem always_pure {a : α} (h : P a) : (pure a : Naming α).Always P := fun _ => h

theorem always_query {f : Catalog → α} (h : ∀ c, P (f c)) : (query f).Always P := h

theorem Always.bind {x : Naming α} {f : α → Naming β} (hx : x.Always P)
    (hf : ∀ a, P a → (f a).Always Q) : (x >>= f).Always Q := fun c => hf _ (hx c) _

theorem always_bind {x : Naming α} {f : α → Naming β} (hf : ∀ a, (f a).Always Q) :
    (x >>= f).Always Q := fun _ => hf _ _

theorem always_ite {p : Prop} [Decidable p] {x y : Naming α} (hx : x.Always P) (hy : y.Always P) :
    (if p then x else y : Naming α).Always P := by
  split
  · exact hx
  · exact hy

/-- What every step of a fold keeps, the fold keeps. -/
theorem always_foldlM {f : β → α → Naming β} {xs : List α} {b : β} (hb : Q b)
    (hf : ∀ b a, Q b → (f b a).Always Q) : (xs.foldlM f b).Always Q := by
  induction xs generalizing b with
  | nil => exact always_pure hb
  | cons x xs ih =>
    rw [List.foldlM_cons]
    exact (hf b x hb).bind fun _ hb' => ih hb'

end Naming

/-! ### Memory -/

namespace State

variable {s t u : State} {p : StorePolicy} {r : RegionId} {v : Value} {f : FrameId}

/-- Expressions have the same values in the second state, and it is known of the same allocations what
became of them. -/
structure Keeps (s t : State) : Prop where
  env : t.env = s.env
  heap : t.heap = s.heap

theorem Keeps.refl (s : State) : s.Keeps s := ⟨rfl, rfl⟩

theorem Keeps.trans (h : s.Keeps t) (h' : t.Keeps u) : s.Keeps u :=
  ⟨h'.env.trans h.env, h'.heap.trans h.heap⟩

theorem keeps_write (s : State) (p : StorePolicy) (r : RegionId) (v : Value) :
    (s.write p r v).Always s.Keeps := always_query fun _ => ⟨rfl, rfl⟩

theorem keeps_writeText (s : State) (p : StorePolicy) (r : RegionId) (text : String) :
    (s.writeText p r text).Always s.Keeps := by
  have hzeroed : (s.zeroed p r).Always s.Keeps := always_query fun _ => ⟨rfl, rfl⟩
  refine hzeroed.bind fun t ht => always_foldlM ht fun t _ ht => ?_
  exact always_bind fun _ => fun c => ht.trans (t.keeps_write _ _ _ c)

theorem keeps_writeList (s : State) (p : StorePolicy) (f : FrameId) (r : RegionId) (t : CType)
    (entries : List InitEntry) : (s.writeList p f r t entries).Always s.Keeps := by
  have hzeroed : (s.zeroed p r).Always s.Keeps := always_query fun _ => ⟨rfl, rfl⟩
  refine hzeroed.bind fun t ht => always_foldlM ht fun t _ ht => ?_
  exact always_bind fun _ => fun c => ht.trans (t.keeps_write _ _ _ c)

theorem keeps_invalidate (s : State) (p : StorePolicy) (request : Invalidation) :
    (s.invalidate p request).Always fun out => s.Keeps out.1 :=
  always_bind fun _ => always_pure ⟨rfl, rfl⟩

theorem keeps_removeDead (s : State) (c : Catalog) (m : Marks) : s.Keeps (s.removeDead c m) :=
  ⟨rfl, rfl⟩

theorem keeps_assume {c : Catalog} {truth : Bool} (h : s.assume c v truth = some t) : s.Keeps t := by
  obtain ⟨m, -, rfl⟩ := map_eq_some_iff.1 h
  exact ⟨rfl, rfl⟩

theorem keeps_bindParams (p : StorePolicy) (f : FrameId) (vars : List VarId) (args : List Value)
    (s : State) : (Exploring.bindParams p f vars args s).Always s.Keeps := by
  induction vars generalizing args s with
  | nil => exact always_pure (.refl s)
  | cons x vars ih =>
    refine always_bind fun r => (s.keeps_write p r _).bind fun t ht => fun c => ?_
    exact ht.trans (ih _ t c)

mutual

theorem keeps_writeConst (p : StorePolicy) (s : State) (r : RegionId) (t : CType)
    (init : ConstInit) : (writeConst p s r t init).Always s.Keeps := by
  cases init with
  | int n | null => exact s.keeps_write p r _
  | string e =>
    unfold writeConst
    refine always_ite ?_ (always_pure (.refl s))
    exact always_bind fun _ => always_bind fun _ => s.keeps_write p r _
  | list items =>
    unfold writeConst
    have hempty : s.Keeps (s.bindDefault p r (.int 0)) := ⟨rfl, rfl⟩
    exact fun c => hempty.trans (keeps_writeConsts p _ r t 0 items c)

theorem keeps_writeConsts (p : StorePolicy) (s : State) (r : RegionId) (t : CType) (i : Nat)
    (items : List ConstInit) : (writeConsts p s r t i items).Always s.Keeps := by
  cases items with
  | nil => exact always_pure (.refl s)
  | cons item rest =>
    unfold writeConsts
    refine always_bind fun part? => ?_
    match part? with
    | none => exact always_pure (.refl s)
    | some (part, type) =>
      refine (keeps_writeConst p s part type item).bind fun t' ht => fun c => ?_
      exact ht.trans (keeps_writeConsts p t' r t (i + 1) rest c)

end

/-- No expression has a value when the program starts. -/
theorem keeps_ofGlobals (p : StorePolicy) (f : FrameId) : (ofGlobals p f).Always (State.Keeps {}) := by
  refine always_bind fun program => ?_
  refine always_foldlM (.refl _) fun s g hs => always_bind fun r => ?_
  split
  · exact always_pure (hs.trans ⟨rfl, rfl⟩)
  · exact fun c => hs.trans (keeps_writeConst p s r _ _ c)

end State

/-! ### Checkers -/

/-- The verdict lets a path come to a state, or ends it there. -/
inductive Verdict.Reaches : Verdict → State → Bool → Prop where
  | proceed {s : State} : Reaches (.proceed s) s false
  | report {s : State} {findings : List Finding} : Reaches (.report s findings) s false
  | stop {s : State} {findings : List Finding} : Reaches (.stop s findings) s true

/-- The state that a path comes to satisfies the condition. -/
def Verdict.Within (P : State → Prop) : Verdict → Prop
  | .pass => True
  | .proceed s | .report s _ | .stop s _ => P s

theorem Verdict.Within.imp {Q : State → Prop} (h : verdict.Within P) (hPQ : ∀ s, P s → Q s) :
    verdict.Within Q := by
  cases verdict with
  | pass => trivial
  | _ => exact hPQ _ h

theorem Verdict.Within.of_reaches {t : State} {sink : Bool} (h : verdict.Within P)
    (ht : verdict.Reaches t sink) : P t := by
  cases ht <;> exact h

/-- Expressions have the same values in both states. -/
def State.SameEnv (s t : State) : Prop := t.env = s.env

/-- All expressions but one have the same values in both states. -/
def State.SameEnvBut (f : FrameId) (e : ExprId) (s t : State) : Prop :=
  ∀ k, k ≠ .expr f e → t.env.get? k = s.env.get? k

theorem State.sameEnvBut_bindExpr (s : State) (f : FrameId) (e : ExprId) (v : Value) :
    s.SameEnvBut f e (s.bindExpr f e v) := fun _ hk => OrderedMap.get?_insert_of_ne hk

theorem State.SameEnv.sameEnvBut {s t : State} (h : s.SameEnv t) (f : FrameId) (e : ExprId) :
    s.SameEnvBut f e t := fun k _ => congrArg (OrderedMap.get? · k) h

variable {scene : Scene} {s t : State}

namespace Allocation

theorem sameEnv_escapeSymbol (h : s.SameEnv t) (x : SymbolId) : s.SameEnv (escapeSymbol t x) := by
  unfold escapeSymbol
  split <;> exact h

theorem sameEnv_escapeValue (h : s.SameEnv t) (c : Catalog) (v : Value) :
    s.SameEnv (escapeValue c t v) := by
  unfold escapeValue
  split
  · exact sameEnv_escapeSymbol h _
  · exact h

theorem sameEnv_foldl {α : Type} {step : State → α → State} {xs : List α} (h : s.SameEnv t)
    (hstep : ∀ {t} x, s.SameEnv t → s.SameEnv (step t x)) : s.SameEnv (xs.foldl step t) := by
  induction xs generalizing t with
  | nil => exact h
  | cons x xs ih => exact ih (hstep x h)

theorem within_checkUse {c : Catalog} {v : Value} {span : Span} {verdict : Verdict}
    (h : checkUse scene c v span = some verdict) : verdict.Within scene.state.SameEnv := by
  obtain ⟨x, -, rfl⟩ := map_eq_some_iff.1 h
  exact rfl

theorem within_getD {P : State → Prop} {verdict? : Option Verdict}
    (h : ∀ v, verdict? = some v → v.Within P) : (verdict?.getD .pass).Within P := by
  cases verdict? with
  | none => trivial
  | some v => exact h v rfl

theorem within_checkArgs (c : Catalog) (call : CallEvent) :
    (checkArgs scene c call).Within scene.state.SameEnv := by
  unfold checkArgs
  split
  · trivial
  · refine within_getD fun verdict hv => ?_
    obtain ⟨⟨v, i⟩, -, hv⟩ := List.exists_of_findSome?_eq_some hv
    exact within_checkUse hv

theorem within_checkDead (marks : Marks) :
    (checkDead scene marks).Always (Verdict.Within scene.state.SameEnv) := by
  refine always_bind fun dead => always_bind fun leaks => ?_
  have hrest : scene.state.SameEnv (dead.foldl (fun s e => s.dropAllocation e.1) scene.state) :=
    sameEnv_foldl rfl fun _ h => h
  exact always_ite (always_pure hrest) (always_bind fun _ => always_pure hrest)

theorem within_check (event : Event) :
    (check event scene).Always (Verdict.Within scene.state.SameEnv) := by
  have hpass : (pure .pass : Naming Verdict).Always (Verdict.Within scene.state.SameEnv) :=
    always_pure trivial
  cases event with
  | callBegins call => exact always_query fun c => within_checkArgs c call
  | callEnds call =>
    refine always_ite (always_query fun c => ?_) hpass
    exact sameEnv_foldl (sameEnv_foldl rfl fun v h => sameEnv_escapeValue h c v) fun x h =>
      sameEnv_escapeSymbol h x
  | access location place =>
    exact always_query fun c => within_getD fun verdict hv => within_checkUse hv
  | write location value span =>
    unfold check
    dsimp only
    split
    · exact hpass
    · refine always_query fun c => ?_
      split
      · trivial
      · exact sameEnv_escapeValue rfl c _
  | dead marks => exact within_checkDead marks
  | element | condition | functionEnds => exact hpass

theorem within_release (c : Catalog) (call : CallEvent) :
    (release scene c call).Within scene.state.SameEnv := by
  unfold release
  split
  · trivial
  · split
    · trivial
    · split
      · trivial
      · dsimp only
        split
        · split <;> exact rfl
        · exact rfl

/-- Only the call is given a value. -/
theorem within_evalCall? (call : CallEvent) : (evalCall? scene call).Always fun verdict? =>
    ∀ v, verdict? = some v → v.Within (scene.state.SameEnvBut call.frame call.expr) := by
  have hsome : ∀ {x : Naming Verdict},
      x.Always (Verdict.Within (scene.state.SameEnvBut call.frame call.expr)) →
      (do return some (← x) : Naming (Option Verdict)).Always fun verdict? =>
        ∀ v, verdict? = some v → v.Within (scene.state.SameEnvBut call.frame call.expr) :=
    fun hx => hx.bind fun verdict hv => always_pure fun _ h => some.inj h ▸ hv
  have hallocate : ∀ zeroed, (allocate scene call zeroed).Always
      (Verdict.Within (scene.state.SameEnvBut call.frame call.expr)) := fun zeroed => by
    refine always_bind fun _ => always_bind fun _ => always_bind fun r => ?_
    refine always_pure ?_
    have hbound := scene.state.sameEnvBut_bindExpr call.frame call.expr (.pointer r)
    cases zeroed with
    | false | true => exact hbound
  unfold evalCall?
  split
  · exact hsome (hallocate false)
  · exact hsome (hallocate true)
  · refine hsome (always_query fun c => ?_)
    have h : (release scene c call).Within scene.state.SameEnv := within_release c call
    cases hverdict : release scene c call <;> rw [hverdict] at h
    · trivial
    all_goals exact State.SameEnv.sameEnvBut h _ _
  · exact hsome (always_bind fun r =>
      always_pure (scene.state.sameEnvBut_bindExpr call.frame call.expr (.pointer r)))
  · exact always_pure fun _ h => nomatch h

end Allocation

namespace NullPointer

theorem within_check (event : Event) :
    (check event scene).Always (Verdict.Within scene.state.Keeps) := by
  have hpass : (pure .pass : Naming Verdict).Always (Verdict.Within scene.state.Keeps) :=
    always_pure trivial
  cases event with
  | access location place =>
    refine always_ite (always_bind fun _ => always_pure (.refl _)) (always_ite hpass ?_)
    refine Naming.Always.bind (P := fun out => (∀ t, out.1 = some t → scene.state.Keeps t) ∧
      ∀ t, out.2 = some t → scene.state.Keeps t) (always_query fun c => ?_) ?_
    · exact ⟨fun t ht => State.keeps_assume ht, fun t ht => State.keeps_assume ht⟩
    · rintro ⟨nonNull, null⟩ ⟨hnonNull, hnull⟩
      match nonNull, null with
      | some t, _ => exact always_pure (hnonNull t rfl)
      | none, some t =>
        exact always_bind fun _ => always_bind fun _ => always_pure (hnull t rfl)
      | none, none => exact hpass
  | _ => exact hpass

end NullPointer

namespace Garbage

theorem within_stop (type : BugType) (description : String) (location : Location)
    (culprit : Option ExprId) : (stop scene type description location culprit).Always
      (Verdict.Within scene.state.Keeps) := by
  refine always_bind fun program => ?_
  dsimp only
  split
  · exact always_bind fun _ => always_bind fun _ => always_pure (.refl _)
  · exact always_bind fun _ => always_pure (.refl _)

theorem within_check (event : Event) :
    (check event scene).Always (Verdict.Within scene.state.Keeps) := by
  have hpass : (pure .pass : Naming Verdict).Always (Verdict.Within scene.state.Keeps) :=
    always_pure trivial
  unfold check
  split
  · refine always_bind fun expr => ?_
    split
    · split
      · exact within_stop _ _ _ _
      · exact hpass
    iterate 2
      · exact always_bind fun _ => always_ite (within_stop _ _ _ _) hpass
    · exact hpass
  · exact always_ite (within_stop _ _ _ _) hpass
  · split
    · exact always_bind fun _ => within_stop _ _ _ _
    · exact hpass
  · exact always_ite (always_pure (.refl _)) hpass
  · exact always_ite (always_bind fun _ => within_stop _ _ _ _) hpass
  · exact hpass

end Garbage

namespace Division

theorem within_checkExpr (c : Catalog) (e : ExprId) :
    (checkExpr scene c e).Within scene.state.Keeps := by
  unfold checkExpr
  split
  · trivial
  · dsimp only
    split
    · trivial
    · split
      · exact .refl _
      · trivial
      · split
        · next ht => exact State.keeps_assume ht
        · trivial

end Division

namespace StackEscape

theorem within_check (event : Event) :
    (check event scene).Always (Verdict.Within scene.state.Keeps) := by
  unfold check
  split
  · refine always_query fun c => ?_
    unfold checkReturn
    split
    · exact .refl _
    · trivial
  · refine always_query fun c => ?_
    unfold checkEnd
    split
    · trivial
    · exact .refl _
  · exact always_pure trivial

end StackEscape

namespace Checker

variable {checker : Checker}

/-- **Asking a checker** that does not follow memory leaves values and what is known of memory as they
are. -/
theorem keeps_check (h : checker ≠ .malloc) (event : Event) (scene : Scene) :
    (checker.check event scene).Always (Verdict.Within scene.state.Keeps) := by
  cases checker with
  | nullDereference => exact NullPointer.within_check event
  | undefinedValue => exact Garbage.within_check event
  | divideZero =>
    show (Division.check event scene).Always _
    unfold Division.check
    split
    · exact always_query fun c => Division.within_checkExpr c _
    · exact always_pure trivial
  | stackAddressEscape => exact StackEscape.within_check event
  | malloc => exact absurd rfl h
  | noReturn => exact always_pure trivial

/-- **Asking a checker** leaves the values of expressions as they are. -/
theorem within_check (checker : Checker) (event : Event) (scene : Scene) :
    (checker.check event scene).Always (Verdict.Within scene.state.SameEnv) := by
  by_cases h : checker = .malloc
  · subst h
    exact Allocation.within_check event
  · exact fun c => (keeps_check h event scene c).imp fun _ ht => ht.env

/-- A checker that does not follow memory has nothing to say to symbols that are dead. -/
theorem check_dead (h : checker ≠ .malloc) (m : Marks) (scene : Scene) :
    checker.check (.dead m) scene = pure .pass := by
  cases checker with
  | malloc => exact absurd rfl h
  | _ => rfl

/-- A checker that does not follow memory evaluates calls that do not return, and no others. -/
theorem within_evalCall?_of_ne (h : checker ≠ .malloc) (call : CallEvent) (scene : Scene) :
    (checker.evalCall? call scene).Always fun verdict? => ∀ v, verdict? = some v →
      call.name ∈ NoReturn.names ∧ v.Within (scene.state = ·) := by
  cases checker with
  | malloc => exact absurd rfl h
  | noReturn =>
    refine always_pure fun v hv => ?_
    unfold NoReturn.evalCall? at hv
    split at hv
    · next hname =>
      cases hv
      exact ⟨List.contains_iff_mem.1 hname, rfl⟩
    · cases hv
  | _ => exact always_pure fun v hv => by cases hv

/-- **A checker that evaluates a call** gives no other expression a value. -/
theorem within_evalCall? (checker : Checker) (call : CallEvent) (scene : Scene) :
    (checker.evalCall? call scene).Always fun verdict? => ∀ v, verdict? = some v →
      v.Within (scene.state.SameEnvBut call.frame call.expr) := by
  by_cases h : checker = .malloc
  · subst h
    exact Allocation.within_evalCall? call
  · refine fun c v hv => (within_evalCall?_of_ne h call scene c v hv).2.imp ?_
    rintro _ rfl
    exact fun _ _ => rfl

/-- No checker minds the end of a call that was followed. -/
theorem check_callEnds (checker : Checker) {call : CallEvent} (h : call.conservative = false)
    (scene : Scene) : checker.check (.callEnds call) scene = pure .pass := by
  cases checker with
  | malloc =>
    show (if call.conservative = true then _ else pure .pass : Naming Verdict) = _
    rw [h, if_neg Bool.false_ne_true]
  | _ => rfl

end Checker

end PathScout

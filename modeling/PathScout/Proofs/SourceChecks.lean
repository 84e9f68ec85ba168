import PathScout.Proofs.SourceLaws

/-!
# What checkers conjure

A checker lets a path go on in a state without new conjured symbols. Only a call that allocates
memory conjures one, for the call.

* `Verdict.From`, `Event.From`: all conjured symbols in them are of a set.
* `Checker.makes_check`, `Checker.makes_evalCall?`: asking a checker.
-/

namespace PathScout

open Naming

variable {c : Catalog} {P : Set Conjuring} {v : Value} {s : State}

/-- All conjured symbols in the state in which the path goes on are of the set. -/
def Verdict.From (verdict : Verdict) (c : Catalog) (P : Set Conjuring) : Prop :=
  match verdict with
  | .pass => True
  | .proceed s | .report s _ | .stop s _ => s.From c P

/-- All conjured symbols in a place that is accessed are of the set. -/
def Event.From (event : Event) (c : Catalog) (P : Set Conjuring) : Prop :=
  match event with
  | .access location _ => location.From c P
  | _ => True

variable {scene : Scene}

namespace Allocation

theorem from_escapeSymbol (h : s.From c P) (x : SymbolId) : (escapeSymbol s x).From c P := by
  unfold escapeSymbol
  split
  · next he => exact h.setAllocation (h _ (.allocated (OrderedMap.mem_of_get? he))) _
  · exact h

theorem from_escapeValue (h : s.From c P) (d : Catalog) (v : Value) : (escapeValue d s v).From c P := by
  unfold escapeValue
  split
  · exact from_escapeSymbol h _
  · exact h

theorem from_foldl_escape {α : Type} {escape : State → α → State} {xs : List α} (h : s.From c P)
    (hescape : ∀ {s : State} x, s.From c P → (escape s x).From c P) :
    (xs.foldl escape s).From c P := by
  induction xs generalizing s with
  | nil => exact h
  | cons x xs ih => exact ih (hescape x h)

theorem from_escapeCall (h : s.From c P) (d : Catalog) (call : CallEvent) :
    (escapeCall d s call).From c P :=
  from_foldl_escape (from_foldl_escape h fun v h => from_escapeValue h d v) fun x h =>
    from_escapeSymbol h x

theorem from_release (h : scene.state.From c P) {call : CallEvent}
    (hargs : ∀ v ∈ call.args, v.From c P) : (release scene c call).From c P := by
  unfold release
  split
  · trivial
  · next argument hargument =>
    split
    · trivial
    · split
      · trivial
      · next r hr =>
        have hbase := ((hargs _ (List.mem_of_head? hargument)).region hr).base
        dsimp only
        split
        · next x p hregion =>
          have hx : c.From P (.symbol x) := hbase.symbolOf (by rw [hregion]; rfl)
          split
          · exact h
          · exact h.setAllocation hx _
          · exact h.setAllocation hx _
        · exact h

/-- Only allocating memory conjures, for the call that allocates it. -/
theorem makes_evalCall? (h : scene.state.From c P) {call : CallEvent}
    (hargs : ∀ v ∈ call.args, v.From c P)
    (hP : conjuredFor call.expr call.frame scene.visits ⊆ P) :
    (evalCall? scene call).Makes c fun verdict? d => ∀ v, verdict? = some v → v.From d P := by
  have hsome : ∀ {verdict : Verdict} {d : Catalog}, verdict.From d P →
      (pure (some verdict) : Naming (Option Verdict)).Makes d
        fun verdict? d => ∀ v, verdict? = some v → v.From d P :=
    fun hv => makes_pure fun _ hv' => Option.some.inj hv' ▸ hv
  have hallocate : ∀ zeroed, (allocate scene call zeroed).Makes c fun verdict d =>
      verdict.From d P := fun zeroed => by
    refine makes_query_bind ?_
    refine (makes_symbol (P := P) (fun k hk => ?_)
      fun x hx => absurd hx List.not_mem_nil).bind fun x d hd hx => ?_
    · cases hk
      exact hP ⟨rfl, rfl, rfl⟩
    refine (makes_symbolicHeap hx).bind fun r d' hd' hr => makes_pure ?_
    have hbound := ((h.mono hd).mono hd').bindExpr (f := call.frame) (e := call.expr)
      (Value.from_pointer hr)
    refine State.From.setAllocation ?_ (hx.mono hd') _
    split
    · exact hbound.bindDefault hr (Value.from_of_nil rfl)
    · exact hbound
  unfold evalCall?
  split
  iterate 2
    · exact (hallocate _).bind fun _ _ _ hv => hsome hv
  · exact makes_query_bind (hsome (from_release h hargs))
  · have hstack : (allocateOnStack scene call).Makes c fun verdict d => verdict.From d P :=
      (makes_alloca _ _ _).bind fun r d hd hr =>
        makes_pure ((h.mono hd).bindExpr (Value.from_pointer hr))
    exact hstack.bind fun _ _ _ hv => hsome hv
  · exact makes_pure fun _ hv => nomatch hv

theorem from_checkUse (h : scene.state.From c P) {d : Catalog} {span : Span} {verdict : Verdict}
    (hv : checkUse scene d v span = some verdict) : verdict.From c P := by
  obtain ⟨x, -, rfl⟩ := Option.map_eq_some_iff.1 hv
  exact h

theorem from_getD {verdict? : Option Verdict} (h : ∀ v, verdict? = some v → v.From c P) :
    (verdict?.getD .pass).From c P := by
  cases verdict? with
  | none => trivial
  | some v => exact h v rfl

theorem from_checkArgs (h : scene.state.From c P) (d : Catalog) (call : CallEvent) :
    (checkArgs scene d call).From c P := by
  unfold checkArgs
  split
  · trivial
  · refine from_getD fun verdict hv => ?_
    obtain ⟨⟨v, i⟩, -, hv⟩ := List.exists_of_findSome?_eq_some hv
    exact from_checkUse h hv

theorem makes_checkDead (h : scene.state.From c P) (marks : Marks) :
    (checkDead scene marks).Makes c fun verdict d => verdict.From d P := by
  refine makes_query_bind ?_
  have hgrows : (List.filterM (isLeak scene.state) (deadAllocations scene.state c marks)).Makes c
      fun _ _ => True := by
    refine ⟨Naming.Grows.filterM (fun a => ?_) _ c, trivial⟩
    exact .ite ((grows_symbolicHeap _).bind fun _ => grows_query _) (grows_pure _)
  refine hgrows.bind fun leaks d hd _ => ?_
  have hrest : ((deadAllocations scene.state c marks).foldl
      (fun s e => s.dropAllocation e.1) scene.state).From d P :=
    from_foldl_escape (h.mono hd) fun e h => h.dropAllocation _
  exact makes_ite (fun _ => makes_pure hrest) fun _ => makes_query_bind (makes_pure hrest)

theorem makes_check (h : scene.state.From c P) (event : Event) :
    (check event scene).Makes c fun verdict d => verdict.From d P := by
  have hpass : (pure .pass : Naming Verdict).Makes c fun verdict d => verdict.From d P :=
    makes_pure trivial
  cases event with
  | callBegins call => exact makes_query (from_checkArgs h c call)
  | callEnds call => exact makes_ite (fun _ => makes_query (from_escapeCall h c call)) fun _ => hpass
  | access location place => exact makes_query (from_getD fun verdict hv => from_checkUse h hv)
  | write location value span =>
    unfold check
    dsimp only
    split
    · exact hpass
    · refine makes_query ?_
      split
      · trivial
      · exact from_escapeValue h c _
  | dead marks => exact makes_checkDead h marks
  | element | condition | functionEnds => exact hpass

end Allocation

namespace NullPointer

theorem makes_check (h : scene.state.From c P) {event : Event} (he : event.From c P) :
    (check event scene).Makes c fun verdict d => verdict.From d P := by
  have hpass : (pure .pass : Naming Verdict).Makes c fun verdict d => verdict.From d P :=
    makes_pure trivial
  cases event with
  | access location place =>
    have hfinding : ∀ type text (d : Catalog), c ≤ d →
        (finding type text place scene.point.frame).Makes d fun _ d => c ≤ d :=
      fun type text d hd => ⟨grows_finding _ _ _ _ d, hd.trans (grows_finding _ _ _ _ d)⟩
    refine makes_ite (fun _ => ?_) fun _ => makes_ite (fun _ => hpass) fun _ => ?_
    · exact (hfinding _ _ c le_rfl).bind fun _ d _ hd => makes_pure (h.mono hd)
    · refine makes_query_bind ?_
      dsimp only
      split
      · next hs => exact makes_pure (h.assume he hs)
      · next s' _ hs =>
        have hs' : s'.From c P := h.assume he hs
        refine makes_query_bind ((hfinding _ _ c le_rfl).bind fun _ d _ hd => ?_)
        exact makes_pure (hs'.mono hd)
      · exact hpass
  | _ => exact hpass

end NullPointer

namespace Garbage

theorem makes_stop (h : scene.state.From c P) (type : BugType) (description : String)
    (location : Location) (culprit : Option ExprId) :
    (stop scene type description location culprit).Makes c fun verdict d => verdict.From d P := by
  refine makes_query_bind ?_
  dsimp only
  split
  · exact (makes_var (P := P) _ _).bind fun _ d hd _ => makes_pure (h.mono hd)
  · exact makes_pure h

theorem makes_checkExpr (h : scene.state.From c P) (e : ExprId) :
    (checkExpr scene e).Makes c fun verdict d => verdict.From d P := by
  have hpass : ∀ d, (pure .pass : Naming Verdict).Makes d fun verdict d => verdict.From d P :=
    fun _ => makes_pure trivial
  have hholds : ∀ place, (holdsGarbage scene place).Makes c fun _ d => c ≤ d := fun place =>
    ⟨grows_holdsGarbage scene place c, grows_holdsGarbage scene place c⟩
  refine makes_query_bind ?_
  split
  · split
    · exact makes_stop h _ _ _ _
    · exact hpass c
  iterate 2
    · exact (hholds _).bind fun _ d _ hd =>
        makes_ite (fun _ => makes_stop (h.mono hd) _ _ _ _) fun _ => hpass d
  · exact hpass c

theorem makes_check (h : scene.state.From c P) (event : Event) :
    (check event scene).Makes c fun verdict d => verdict.From d P := by
  have hpass : (pure .pass : Naming Verdict).Makes c fun verdict d => verdict.From d P :=
    makes_pure trivial
  unfold check
  split
  · exact makes_checkExpr h _
  · exact makes_ite (fun _ => makes_stop h _ _ _ _) fun _ => hpass
  · split
    · exact makes_query_bind (makes_stop h _ _ _ _)
    · exact hpass
  · exact makes_ite (fun _ => makes_pure h) fun _ => hpass
  · exact makes_ite (fun _ => makes_query_bind (makes_stop h _ _ _ _)) fun _ => hpass
  · exact hpass

end Garbage

namespace Checker

/-- **Asking a checker conjures nothing.** -/
theorem makes_check (checker : Checker) {event : Event} (h : scene.state.From c P)
    (he : event.From c P) :
    (checker.check event scene).Makes c fun verdict d => verdict.From d P := by
  have hpass : (pure .pass : Naming Verdict).Makes c fun verdict d => verdict.From d P :=
    makes_pure trivial
  cases checker with
  | nullDereference => exact NullPointer.makes_check h he
  | undefinedValue => exact Garbage.makes_check h event
  | divideZero =>
    show (Division.check event scene).Makes c fun verdict d => verdict.From d P
    unfold Division.check
    split
    · refine makes_query ?_
      unfold Division.checkExpr
      split
      · trivial
      · dsimp only
        split
        · trivial
        · split
          · exact h
          · trivial
          · split
            · next hs => exact h.assume (h.value _ _) hs
            · trivial
    · exact hpass
  | stackAddressEscape =>
    show (StackEscape.check event scene).Makes c fun verdict d => verdict.From d P
    unfold StackEscape.check
    split
    · refine makes_query ?_
      unfold StackEscape.checkReturn
      split
      · exact h
      · trivial
    · refine makes_query ?_
      unfold StackEscape.checkEnd
      split
      · trivial
      · exact h
    · exact hpass
  | malloc => exact Allocation.makes_check h event
  | noReturn => exact hpass

/-- **A call that a checker evaluates conjures for the call only.** -/
theorem makes_evalCall? (checker : Checker) (h : scene.state.From c P) {call : CallEvent}
    (hargs : ∀ v ∈ call.args, v.From c P)
    (hP : conjuredFor call.expr call.frame scene.visits ⊆ P) :
    (checker.evalCall? call scene).Makes c fun verdict? d => ∀ v, verdict? = some v → v.From d P := by
  have hnone : (pure none : Naming (Option Verdict)).Makes c
      fun verdict? d => ∀ v, verdict? = some v → v.From d P :=
    makes_pure fun _ hv => nomatch hv
  cases checker with
  | malloc => exact Allocation.makes_evalCall? h hargs hP
  | noReturn =>
    refine makes_pure fun verdict hv => ?_
    unfold NoReturn.evalCall? at hv
    split at hv
    · cases hv
      exact h
    · cases hv
  | _ => exact hnone

end Checker

end PathScout

import PathScout.Proofs.MirroredStates

/-!
# Findings and runs

What checkers find on the way of a scalar function is what every run does that the state stands for:
a division by a value that must be zero, or a use of a value that is undefined. A checker changes the
ranges of a state at most, and only to rule runs out.

* `Study.Flaw`: the run does what a finding about an event says.
* `Study.Tells`: what an answer of a checker must be like.
* `Study.tells_garbage`, `Study.tells_division`: the two checkers that find something.
* `Study.tells_check`: the answers of all checkers are like this.
-/

namespace PathScout

open Naming

namespace Verdict

/-- The state of the node that an answer makes. -/
def shown (s : State) : Verdict → State
  | pass => s
  | proceed t | report t _ | stop t _ => t

/-- The path goes on in the state of this node, if it does. -/
theorem shown_of_next? {s t : State} {verdict : Verdict} (h : verdict.next? s = some t) :
    verdict.shown s = t := by
  cases verdict with
  | stop => cases h
  | _ => exact Option.some.inj h

/-- The findings of an answer. -/
def findings : Verdict → List Finding
  | pass | proceed _ => []
  | report _ fs | stop _ fs => fs

end Verdict

namespace Study

variable {k : Study} {c d z : Catalog} {P : Symbol → Prop} {s : State} {κ : Machine}
  {live : VarId → Prop} {α : Assignment} {event : Event} {e place : ExprId} {scene : Scene}
  {verdict : Verdict}

/-- The run does what a finding about an event says. What is written is looked at by itself. -/
def Flaw (k : Study) (κ : Machine) (f : Finding) : Event → Prop
  | .element el => κ.Shows k.program f el
  | .write _ value span =>
    f.location = span.first ∧ f.type = Garbage.assignmentType ∧ value.isUndefined = true
  | .condition cond => f.location = (k.program.expr cond).location ∧
    f.type = Garbage.branchType ∧ κ.exprs cond = some .undefined
  | _ => False

/-- The answer changes ranges only, and only narrows them, and what it finds is so in every run that
the state stands for. -/
structure Tells (k : Study) (s : State) (event : Event) (out : Verdict × Catalog) : Prop where
  shown : ∃ m, out.1.shown s = { s with constraints := m } ∧
    (Filled out.2 s.constraints → Filled out.2 m) ∧
    ∀ z α, out.2 ≤ z → Satisfies z α m → Satisfies z α s.constraints
  flaw {f : Finding} {z : Catalog} {live : VarId → Prop} {κ : Machine} {α : Assignment} :
    f ∈ out.1.findings → out.2 ≤ z → k.Mirrors z live s.env s.store κ α →
    Satisfies z α s.constraints → k.Flaw κ f event

/-! ### Kinds of answers -/

/-- A checker that finds nothing. -/
theorem tells_same (hshown : verdict.shown s = s) (hfindings : verdict.findings = []) :
    k.Tells s event (verdict, d) where
  shown := ⟨s.constraints, hshown, id, fun _ _ _ h => h⟩
  flaw hf := by
    rw [hfindings] at hf
    cases hf

theorem tells_pass : k.Tells s event (.pass, d) := tells_same rfl rfl

/-- A checker that ends the path with one finding. -/
theorem tells_stop {f : Finding} (hflaw : ∀ {z live κ α}, d ≤ z → k.Mirrors z live s.env s.store κ α →
      Satisfies z α s.constraints → k.Flaw κ f event) :
    k.Tells s event (.stop s [f], d) where
  shown := ⟨s.constraints, rfl, id, fun _ _ _ h => h⟩
  flaw hf hz hκ hα := by
    obtain rfl := List.mem_singleton.1 hf
    exact hflaw hz hκ hα

/-! ### Uses of garbage -/

/-- A finding about garbage. Looking for a variable that explains it may give the variable a region. -/
theorem tells_garbageStop (type : BugType) (text : String) (location : Location)
    (culprit : Option ExprId) (hscene : k.Views s scene)
    (hflaw : ∀ {f z live κ α}, d ≤ z → k.Mirrors z live s.env s.store κ α →
      f.type = type → f.description = text → f.location = location → k.Flaw κ f event) :
    k.Tells s event (Garbage.stop scene type text location culprit d) := by
  unfold Garbage.stop
  rw [bind_apply, query_apply, hscene.state]
  cases culprit.bind (NullPointer.loadedVar? d.program) with
  | none => exact tells_stop fun hz hκ _ => hflaw hz hκ rfl rfl rfl
  | some v =>
    refine tells_stop fun hz hκ _ => ?_
    exact hflaw ((grows_var v _ d).trans hz) hκ rfl rfl rfl

section

variable (hc : k.Regular c) (hs : k.Tame c P s) (hP : ∀ r, P (.regionValue r .int))
include hc hs hP

/-- A name whose place holds garbage is that of a variable without a number. -/
theorem vars_eq_none_of_fetch (hκ : k.Mirrors z live s.env s.store κ α)
    (hplace : k.program.IsName k.vars place) (hread : place ∉ k.assigned)
    (hz : (k.fetch s (s.value topFrame place) c).2 ≤ z)
    (hgarbage : (k.fetch s (s.value topFrame place) c).1.isUndefined = true) :
    ∃ v, κ.place? place = some v ∧ κ.vars v = none := by
  obtain ⟨-, x, -, hop⟩ := id hplace
  have hvalue : s.value topFrame place ≠ .unknown := fun hu => by
    rw [hu] at hgarbage
    cases hgarbage
  have hx := hκ.place?_of_name hop hvalue
  refine ⟨x, hx, ?_⟩
  by_contra hsome
  obtain ⟨n, hn⟩ := Option.ne_none_iff_exists'.1 hsome
  have hden := (hκ.fetch hc hs hP hplace hread hz n (Option.bind_eq_some_iff.2 ⟨x, hx, hn⟩)).2
  cases hden.isUndefined_eq.symm.trans hgarbage

/-- Looking at what an assignment reads. -/
theorem tells_holdsGarbage (text : String) (location : Location) (hscene : k.Views s scene)
    (hplace : k.program.IsName k.vars place) (hread : place ∉ k.assigned)
    (hflaw : ∀ {f κ}, (∃ v, κ.place? place = some v ∧ κ.vars v = none) →
      f.type = Garbage.operationType → f.location = location → k.Flaw κ f event) :
    k.Tells s event ((do
      if ← Garbage.holdsGarbage scene place then
        Garbage.stop scene Garbage.operationType text location none
      else return .pass : Naming Verdict) c) := by
  rw [bind_apply, holdsGarbage_apply hc hscene hplace, ite_apply]
  split
  · next hgarbage =>
    refine tells_garbageStop _ _ _ none hscene fun hz hκ htype _ hlocation => ?_
    exact hflaw (vars_eq_none_of_fetch hc hs hP hκ hplace hread hz hgarbage) htype hlocation
  · exact tells_pass

theorem tells_garbageExpr {root : Bool} (hscene : k.Views s scene)
    (h : k.program.ScalarExpr k.vars k.assigned e) :
    k.Tells s (.element (.expr e root)) (Garbage.checkExpr scene e c) := by
  unfold Garbage.checkExpr
  rw [bind_apply, query_apply, hc.program]
  obtain ⟨-, h⟩ := h
  have hshows : ∀ {f : Finding} {κ : Machine}, κ.ComputesGarbage k.program e f.description →
      f.type = Garbage.operationType → f.location = (k.program.expr e).location →
      k.Flaw κ f (.element (.expr e root)) :=
    fun hcomputes htype hlocation => ⟨hlocation, .inr (.inl ⟨htype, hcomputes⟩)⟩
  cases hop : (k.program.expr e).op with
  | binary op l r =>
    dsimp only
    cases hoperand : Garbage.garbageOperand? scene l r with
    | none => exact tells_pass
    | some p =>
      obtain ⟨side, operand⟩ := p
      have hcases : (side = "left" ∧ operand = l ∨ side = "right" ∧ operand = r) ∧
          (s.value topFrame operand).isUndefined = true := by
        simp only [Garbage.garbageOperand?, hscene.value_eq] at hoperand
        split at hoperand
        · next hl =>
          cases hoperand
          exact ⟨.inl ⟨rfl, rfl⟩, hl⟩
        · split at hoperand
          · next hr =>
            cases hoperand
            exact ⟨.inr ⟨rfl, rfl⟩, hr⟩
          · cases hoperand
      refine tells_garbageStop _ _ _ _ hscene fun _ hκ htype htext hlocation => ?_
      refine hshows ?_ htype hlocation
      simp only [Machine.ComputesGarbage, hop]
      exact ⟨side, operand, hcases.1, htext, hκ.undefined_of_isUndefined hcases.2⟩
  | compound op place value =>
    simp only [hop] at h ⊢
    refine tells_holdsGarbage hc hs hP _ _ hscene h.1 h.2.1 fun hv htype hlocation => ?_
    refine hshows ?_ htype hlocation
    simpa only [Machine.ComputesGarbage, hop] using hv
  | incDec place increment before =>
    simp only [hop] at h ⊢
    refine tells_holdsGarbage hc hs hP _ _ hscene h.1 h.2 fun hv htype hlocation => ?_
    refine hshows ?_ htype hlocation
    simpa only [Machine.ComputesGarbage, hop] using hv
  | _ => exact tells_pass

/-- **A finding about garbage is a use of an undefined value.** -/
theorem tells_garbage (hscene : k.Views s scene) (h : k.Meets c P event) :
    k.Tells s event (Garbage.check event scene c) := by
  cases event with
  | element el =>
    cases el with
    | expr e root => exact tells_garbageExpr hc hs hP hscene h
    | decl | merge => exact tells_pass
    | «return» value location =>
      cases value with
      | none => exact tells_pass
      | some e =>
        show k.Tells s _ ((if (scene.value e).isUndefined then _ else _ : Naming Verdict) c)
        rw [ite_apply, hscene.value_eq]
        split
        · next hgarbage =>
          refine tells_garbageStop _ _ _ _ hscene fun _ hκ htype _ hlocation => ?_
          exact ⟨hlocation, htype, hκ.undefined_of_isUndefined hgarbage⟩
        · exact tells_pass
  | write location value span =>
    show k.Tells s _ ((if value.isUndefined then _ else _ : Naming Verdict) c)
    rw [ite_apply, hscene.state]
    split
    · next hgarbage => exact tells_stop fun _ _ _ => ⟨rfl, rfl, hgarbage⟩
    · exact tells_pass
  | condition cond =>
    show k.Tells s _ ((if (scene.value cond).isUndefined then _ else _ : Naming Verdict) c)
    rw [ite_apply, hscene.value_eq]
    split
    · next hgarbage =>
      rw [bind_apply, query_apply]
      refine tells_garbageStop _ _ _ _ hscene fun _ hκ htype _ hlocation => ?_
      exact ⟨hlocation.trans (by rw [hc.program]), htype, hκ.undefined_of_isUndefined hgarbage⟩
    · exact tells_pass
  | access | functionEnds | dead => exact tells_pass
  | callBegins | callEnds => cases h

end

/-! ### Divisions -/

/-- A divisor that must be zero is zero in the run, or undefined. -/
theorem dividesByZero_of_assume {divisor : ExprId} (hκ : k.Mirrors z live s.env s.store κ α)
    (hc : k.Regular c) (hs : k.Tame c P s) (hcz : c ≤ z) (hα : Satisfies z α s.constraints)
    (hdiv : Division.divisor? k.program e = some divisor) (hnumber : k.program.IsNumber divisor)
    (hknown : s.value topFrame divisor ≠ .unknown)
    (hzero : s.constraints.assume c (s.value topFrame divisor) true = none) :
    κ.DividesByZero k.program e := by
  have hplain := hs.plain_value hnumber.2
  refine ⟨divisor, hdiv, ?_⟩
  obtain ⟨d, hd⟩ := hκ.evaluated_of_value hknown
  cases d with
  | int n =>
    have hden := (hκ.value_int n (by rw [Machine.int?, hd])).2
    rw [eq_zero_of_assume hc.arithmetic hs.constraints hplain hcz hzero hα hden] at hd
    exact .inl hd
  | place x =>
    obtain ⟨-, -, r, -, hr⟩ := hκ.value_place (show κ.place? divisor = some x by rw [Machine.place?, hd])
    rw [hr] at hplain
    cases hplain
  | undefined => exact .inr hd

theorem tells_divisionExpr {root : Bool} (hc : k.Regular c) (hs : k.Tame c P s)
    (hscene : k.Views s scene) (h : k.program.ScalarExpr k.vars k.assigned e) :
    k.Tells s (.element (.expr e root)) (Division.checkExpr scene c e, c) := by
  unfold Division.checkExpr
  rw [hc.program]
  cases hdiv : Division.divisor? k.program e with
  | none => exact tells_pass
  | some divisor =>
    have hnumber := (divisor?_spec hdiv h).1
    have hplain := hs.plain_value hnumber.2
    simp only [hscene.value_eq, hscene.state]
    split
    · exact tells_pass
    · next hknown =>
      split
      · next hzero =>
        refine tells_stop fun hz hκ hα => ⟨rfl, .inl ⟨rfl, ?_⟩⟩
        refine dividesByZero_of_assume hκ hc hs hz hα hdiv hnumber (fun hu => ?_) ?_
        · rw [hu] at hknown
          exact hknown rfl
        · unfold State.zero? State.assume at hzero
          cases hassume : s.constraints.assume c (s.value topFrame divisor) true with
          | none => rfl
          | some m =>
            rw [hassume] at hzero
            cases hfalse : s.constraints.assume c (s.value topFrame divisor) false <;>
              rw [hfalse] at hzero <;> cases hzero
      · exact tells_pass
      · cases hassume : s.constraints.assume c (s.value topFrame divisor) true with
        | none =>
          rw [State.assume, hassume]
          exact tells_pass
        | some m =>
          rw [State.assume, hassume]
          refine ⟨⟨m, rfl, fun hfilled => hfilled.assume hs.constraints hplain hassume,
            fun z α hz hα => ?_⟩, fun hf => by cases hf⟩
          exact (satisfies_of_assume hc.arithmetic hs.constraints hplain hz hassume hα).1

theorem tells_division (hc : k.Regular c) (hs : k.Tame c P s) (hscene : k.Views s scene)
    (h : k.Meets c P event) : k.Tells s event (Division.check event scene c) := by
  cases event with
  | element el =>
    cases el with
    | expr e root => exact tells_divisionExpr hc hs hscene h
    | _ => exact tells_pass
  | _ => exact tells_pass

/-! ### All checkers -/

theorem Silent.tells {out : Verdict × Catalog} (h : Silent s c out) : k.Tells s event out := by
  rcases h with rfl | rfl
  · exact tells_pass
  · exact tells_same rfl rfl

/-- **What a checker finds is so in every run that the state stands for.** -/
theorem tells_check (checker : Checker) (hc : k.Regular c) (hs : k.Tame c P s)
    (hP : ∀ r, P (.regionValue r .int)) (hscene : k.Views s scene) (h : k.Meets c P event) :
    k.Tells s event (checker.check event scene c) := by
  cases checker with
  | nullDereference => exact (silent_nullPointer hscene h).tells
  | undefinedValue => exact tells_garbage hc hs hP hscene h
  | divideZero => exact tells_division hc hs hscene h
  | stackAddressEscape => exact (silent_stackEscape hs hscene h).tells
  | malloc => exact (silent_allocation hs hscene h).tells
  | noReturn => exact tells_pass

end Study

end PathScout

import PathScout.Proofs.ScalarAssume

/-!
# Checkers and runs

Whatever checkers are asked about on the way of a run that has a number for everything it uses, none
of them ends the path, and none changes more than the ranges of the state.

* `Study.Meets`: the events that the exploration of a scalar function meets.
* `Study.Passes`: the run gets past an event.
* `Study.Lets`: what an answer of a checker must be like.
* `Study.Silent`: checkers that have nothing to say.
* `Study.lets_check`: the answers of all checkers are like this.
-/

namespace PathScout

open Naming Bool

/-- The state in which a path goes on, if it does. -/
def Verdict.next? (s : State) : Verdict → Option State
  | pass => some s
  | proceed t => some t
  | report t _ => some t
  | stop .. => none

namespace Study

variable {k : Study} {c d z : Catalog} {P : Symbol → Prop} {s : State} {κ : Config} {α : Assignment}
  {event : Event} {e place : ExprId} {scene : Scene} {verdict : Verdict} {root : Bool}

/-- What an event of the exploration of a scalar function is about. -/
def Meets (k : Study) (c : Catalog) (P : Symbol → Prop) : Event → Prop
  | .element el => k.program.ScalarElement k.vars k.assigned el
  | .access location _ =>
    location = .unknown ∨ ∃ x r, c.IsVar topFrame x r ∧ location = .pointer r
  | .write _ value _ => value.Plain c P
  | .condition cond => k.program.IsNumber cond
  | .functionEnds | .dead _ => True
  | .callBegins _ | .callEnds _ => False

/-- The run gets past an event: it has a number for everything that is used there. -/
def Passes (k : Study) (z : Catalog) (κ : Config) (α : Assignment) : Event → Prop
  | .element el => ∃ κ', κ.act? k.program k.blank el = some κ'
  | .write _ value _ => ∃ n, value.Denotes z α n
  | .condition cond => ∃ n, κ.int? cond = some n
  | _ => True

/-- The answer to an event changes ranges only, and does not lose a run that gets past it. -/
structure Lets (k : Study) (c : Catalog) (P : Symbol → Prop) (s : State) (event : Event)
    (out : Verdict × Catalog) : Prop where
  le : c ≤ out.2
  regular : k.Regular out.2
  next {t : State} : out.1.next? s = some t →
    ∃ m, t = { s with constraints := m } ∧ TameConstraints out.2 P m
  keeps {z : Catalog} {live : VarId → Prop} {κ : Config} {α : Assignment} : out.2 ≤ z →
    k.Agrees z live s κ α → k.Passes z κ α event →
    ∃ t, out.1.next? s = some t ∧ ∀ x rs, t.constraints.get? x = some rs → z.eval α x ∈ rs

/-- What a checker sees at a state of the exploration. -/
structure Views (k : Study) (s : State) (scene : Scene) : Prop where
  state : scene.state = s
  frame : scene.point.frame = topFrame
  policy : scene.policy = k.options.store

theorem Views.value_eq (h : k.Views s scene) (e : ExprId) : scene.value e = s.value topFrame e := by
  rw [Scene.value, h.state, h.frame]

/-! ### Kinds of answers -/

theorem lets_same (hs : k.Tame c P s) (hcd : c ≤ d) (hd : k.Regular d) (h : verdict.next? s = some s) :
    k.Lets c P s event (verdict, d) where
  le := hcd
  regular := hd
  next ht := by
    cases h.symm.trans ht
    exact ⟨s.constraints, rfl, hs.constraints.mono hcd⟩
  keeps _ ha _ := ⟨s, h, fun x rs hx => ha.range hx⟩

theorem lets_pass (hc : k.Regular c) (hs : k.Tame c P s) : k.Lets c P s event (.pass, c) :=
  lets_same hs le_rfl hc rfl

/-- A path may end where no run gets on. -/
theorem lets_stop (hcd : c ≤ d) (hd : k.Regular d) (h : verdict.next? s = none)
    (hnone : ∀ {z live κ α}, d ≤ z → k.Agrees z live s κ α → ¬ k.Passes z κ α event) :
    k.Lets c P s event (verdict, d) where
  le := hcd
  regular := hd
  next ht := nomatch h.symm.trans ht
  keeps hz ha hp := absurd hp (hnone hz ha)

/-! ### Garbage -/

/-- Findings about garbage may give a region to the variable that it was read from. -/
theorem lets_garbageStop (type : BugType) (text : String) (location : Location)
    (culprit : Option ExprId) (hcd : c ≤ d) (hd : k.Regular d)
    (hnone : ∀ {z live κ α}, d ≤ z → k.Agrees z live s κ α → ¬ k.Passes z κ α event) :
    k.Lets c P s event (Garbage.stop scene type text location culprit d) := by
  have hstop : ∃ fs d', Garbage.stop scene type text location culprit d = (.stop scene.state fs, d')
      ∧ d ≤ d' ∧ k.Regular d' := by
    unfold Garbage.stop
    rw [bind_apply, query_apply]
    cases culprit.bind (NullPointer.loadedVar? d.program) with
    | none => exact ⟨_, d, rfl, le_rfl, hd⟩
    | some v => exact ⟨_, _, rfl, grows_var v _ d, hd.var v _⟩
  obtain ⟨fs, d', hout, hle, hd'⟩ := hstop
  rw [hout]
  exact lets_stop (hcd.trans hle) hd' rfl fun hz ha => hnone (hle.trans hz) ha

theorem holdsGarbage_apply (hc : k.Regular c) (hscene : k.Views s scene)
    (hplace : k.program.IsName k.vars place) :
    Garbage.holdsGarbage scene place c = ((k.fetch s (s.value topFrame place) c).1.isUndefined,
        (k.fetch s (s.value topFrame place) c).2) := by
  unfold Garbage.holdsGarbage fetch
  rw [hscene.value_eq]
  cases (s.value topFrame place).loc? with
  | none => rfl
  | some l =>
    simp only [bind_apply, query_apply, pure_apply, hscene.policy, hscene.state, hc.program, hplace.1]

section

variable (hc : k.Regular c) (hs : k.Tame c P s) (hP : ∀ r, P (.regionValue r .int))
  (hscene : k.Views s scene)
include hc hs hP hscene

/-- Reading what a run reads does not give garbage. -/
theorem lets_holdsGarbage (type : BugType) (text : String) (location : Location)
    (hplace : k.program.IsName k.vars place) (hread : place ∉ k.assigned)
    (hpasses : ∀ {z κ α}, k.Passes z κ α event → ∃ x n, κ.place? place = some x ∧ κ.vars x = some n) :
    k.Lets c P s event ((do
      if ← Garbage.holdsGarbage scene place then Garbage.stop scene type text location none
      else return .pass : Naming Verdict) c) := by
  have hfetch := fetches_fetch hc hs hP hplace
  rw [bind_apply, holdsGarbage_apply hc hscene hplace, ite_apply]
  split
  · next hgarbage =>
    refine lets_garbageStop type text location none hfetch.le hfetch.regular ?_
    intro z live κ α hz ha hp
    obtain ⟨x, n, hx, hn⟩ := hpasses hp
    rw [(hfetch.denotes hz ha hx hn hread).isUndefined_eq] at hgarbage
    cases hgarbage
  · exact lets_same hs hfetch.le hfetch.regular rfl

theorem lets_garbageExpr (h : k.program.ScalarExpr k.vars k.assigned e) :
    k.Lets c P s (.element (.expr e root)) (Garbage.checkExpr scene e c) := by
  unfold Garbage.checkExpr
  rw [bind_apply, query_apply, hc.program]
  obtain ⟨-, h⟩ := h
  cases hop : (k.program.expr e).op with
  | binary op l r =>
    dsimp only
    cases hoperand : Garbage.garbageOperand? scene l r with
    | none => exact lets_pass hc hs
    | some p =>
      refine lets_garbageStop _ _ _ _ le_rfl hc ?_
      rintro z live κ α - ha ⟨κ', hκ'⟩
      obtain ⟨a, b, n, hl, hr, -, -⟩ := Config.evaluate?_binary hκ' hop
      simp only [Garbage.garbageOperand?, hscene.value_eq, (ha.value_int hl).1.isUndefined_eq,
        (ha.value_int hr).1.isUndefined_eq, false_eq_true, if_false] at hoperand
      cases hoperand
  | compound op place value =>
    simp only [hop] at h ⊢
    refine lets_holdsGarbage hc hs hP hscene _ _ _ h.1 h.2.1 ?_
    rintro z κ α ⟨κ', hκ'⟩
    obtain ⟨x, old, -, -, hx, hold, -⟩ := Config.evaluate?_compound hκ' hop
    exact ⟨x, old, hx, hold⟩
  | incDec place increment before =>
    simp only [hop] at h ⊢
    refine lets_holdsGarbage hc hs hP hscene _ _ _ h.1 h.2 ?_
    rintro z κ α ⟨κ', hκ'⟩
    obtain ⟨x, old, -, hx, hold, -⟩ := Config.evaluate?_incDec hκ' hop
    exact ⟨x, old, hx, hold⟩
  | _ =>
    dsimp only
    exact lets_pass hc hs

/-- Garbage is not used by a run that gets on. -/
theorem lets_garbage (h : k.Meets c P event) :
    k.Lets c P s event (Garbage.check event scene c) := by
  cases event with
  | element el =>
    cases el with
    | expr e root => exact lets_garbageExpr hc hs hP hscene h
    | decl | merge => exact lets_pass hc hs
    | «return» value location =>
      cases value with
      | none => exact lets_pass hc hs
      | some e =>
        show k.Lets c P s _ ((if (scene.value e).isUndefined then _ else _ : Naming Verdict) c)
        rw [ite_apply]
        split
        · next hgarbage =>
          refine lets_garbageStop _ _ _ _ le_rfl hc ?_
          rintro z live κ α - ha ⟨κ', hκ'⟩
          obtain ⟨n, hn, -⟩ := Option.bind_eq_some_iff.1 hκ'
          rw [hscene.value_eq, (ha.value_int hn).1.isUndefined_eq] at hgarbage
          cases hgarbage
        · exact lets_pass hc hs
  | write location value span =>
    show k.Lets c P s _ ((if value.isUndefined then _ else _ : Naming Verdict) c)
    rw [ite_apply]
    split
    · next hgarbage =>
      refine lets_stop le_rfl hc rfl ?_
      rintro z live κ α - - ⟨n, hn⟩
      rw [hn.isUndefined_eq] at hgarbage
      cases hgarbage
    · exact lets_pass hc hs
  | condition cond =>
    show k.Lets c P s _ ((if (scene.value cond).isUndefined then _ else _ : Naming Verdict) c)
    rw [ite_apply]
    split
    · next hgarbage =>
      refine lets_garbageStop _ _ _ _ le_rfl hc ?_
      rintro z live κ α - ha ⟨n, hn⟩
      rw [hscene.value_eq, (ha.value_int hn).1.isUndefined_eq] at hgarbage
      cases hgarbage
    · exact lets_pass hc hs
  | access | functionEnds | dead => exact lets_pass hc hs
  | callBegins | callEnds => cases h

end

/-! ### Divisions -/

/-- What is divided by is a number, and in a run that gets on it is not zero. -/
theorem divisor?_spec {divisor : ExprId} (hdiv : Division.divisor? k.program e = some divisor)
    (h : k.program.ScalarExpr k.vars k.assigned e) :
    k.program.IsNumber divisor ∧ ∀ {κ κ' : Config}, κ.evaluate? k.program e = some κ' →
      ∃ n, κ.int? divisor = some n ∧ n ≠ 0 := by
  have hzero : ∀ {op : BinaryOp} {a b n : Int}, Division.divides op = true →
      foldInts op a b .int = .int n → b ≠ 0 := by
    rintro op a b n hop hn rfl
    cases op with
    | div | rem => cases hn
    | _ => cases hop
  obtain ⟨-, h⟩ := h
  unfold Division.divisor? at hdiv
  cases hop : (k.program.expr e).op with
  | binary op l r =>
    simp only [hop] at hdiv h
    split at hdiv
    · next hdivides =>
      cases hdiv
      refine ⟨h.2, fun {κ κ'} hκ' => ?_⟩
      obtain ⟨a, b, n, -, hb, hn, -⟩ := Config.evaluate?_binary hκ' hop
      exact ⟨b, hb, hzero hdivides hn⟩
    · cases hdiv
  | compound op place value =>
    simp only [hop] at hdiv h
    split at hdiv
    · next hdivides =>
      cases hdiv
      refine ⟨h.2.2, fun {κ κ'} hκ' => ?_⟩
      obtain ⟨x, old, b, n, -, -, hb, hn, -⟩ := Config.evaluate?_compound hκ' hop
      exact ⟨b, hb, hzero hdivides hn⟩
    · cases hdiv
  | _ =>
    simp only [hop] at hdiv
    cases hdiv

section

variable (hc : k.Regular c) (hs : k.Tame c P s) (hscene : k.Views s scene)
include hc hs hscene

theorem lets_divisionExpr (h : k.program.ScalarExpr k.vars k.assigned e) :
    k.Lets c P s (.element (.expr e root)) (Division.checkExpr scene c e, c) := by
  unfold Division.checkExpr
  rw [hc.program]
  cases hdiv : Division.divisor? k.program e with
  | none => exact lets_pass hc hs
  | some divisor =>
    obtain ⟨hnumber, hrun⟩ := divisor?_spec hdiv h
    have hplain := hs.plain_value hnumber.2
    simp only [hscene.value_eq, hscene.state]
    split
    · exact lets_pass hc hs
    -- a run that gets on satisfies the assumption that the divisor is not zero
    have htrue : ∀ {z live κ α}, c ≤ z → k.Agrees z live s κ α →
        k.Passes z κ α (.element (.expr e root)) →
        ∃ m, s.constraints.assume c (s.value topFrame divisor) true = some m ∧
          ∀ x rs, m.get? x = some rs → z.eval α x ∈ rs := by
      rintro z live κ α hcz ha ⟨κ', hκ'⟩
      obtain ⟨n, hn, hne⟩ := hrun hκ'
      have hd := (ha.value_int hn).1
      have hrange : ∀ x rs, s.constraints.get? x = some rs → z.eval α x ∈ rs :=
        fun x rs hx => ha.range hx
      obtain ⟨m, hm⟩ := exists_assume hc.arithmetic hs.constraints hplain hcz hrange hd
      have hkeep := assume_holds hc.arithmetic hs.constraints hplain hcz hrange hd hm
      rw [decide_eq_true hne] at hm
      exact ⟨m, hm, hkeep⟩
    split
    · next hzero =>
      refine lets_stop le_rfl hc rfl ?_
      intro z live κ α hcz ha hp
      obtain ⟨m, hm, -⟩ := htrue hcz ha hp
      rw [State.zero?, State.assume, hm] at hzero
      simp only [Option.map_some] at hzero
      split at hzero <;> simp_all
    · exact lets_pass hc hs
    · cases hassume : s.constraints.assume c (s.value topFrame divisor) true with
      | none =>
        rw [State.assume, hassume]
        exact lets_pass hc hs
      | some m =>
        rw [State.assume, hassume]
        refine ⟨le_rfl, hc, fun ht => ?_, fun hcz ha hp => ?_⟩
        · cases ht
          exact ⟨m, rfl, hs.constraints.assume hc.arithmetic hplain hassume⟩
        · obtain ⟨m', hm', hkeep⟩ := htrue hcz ha hp
          cases hassume.symm.trans hm'
          exact ⟨_, rfl, hkeep⟩

theorem lets_division (h : k.Meets c P event) : k.Lets c P s event (Division.check event scene c) := by
  cases event with
  | element el =>
    cases el with
    | expr e root => exact lets_divisionExpr hc hs hscene h
    | _ => exact lets_pass hc hs
  | _ => exact lets_pass hc hs

end

/-! ### Null pointers, addresses and allocated memory -/

/-- The checker has nothing to say: the path goes on in the state that it is in. -/
def Silent (s : State) (c : Catalog) (out : Verdict × Catalog) : Prop :=
  out = (.pass, c) ∨ out = (.proceed s, c)

theorem Silent.lets {out : Verdict × Catalog} (h : Silent s c out) (hc : k.Regular c) (hs : k.Tame c P s) :
    k.Lets c P s event out := by
  rcases h with rfl | rfl
  · exact lets_pass hc hs
  · exact lets_same hs le_rfl hc rfl

/-- The address of a variable is not null. -/
theorem assume_var {x : VarId} {r : RegionId} (hr : c.IsVar topFrame x r) :
    s.assume c (.pointer r) true = some s := by
  have h : s.constraints.assume c (.pointer r) true = some s.constraints := by
    simp only [Value.pointer, Constraints.assume, Constraints.assumeLoc, hr.symbolicBase?_eq, if_true]
  rw [State.assume, h]
  rfl

theorem silent_nullPointer (hscene : k.Views s scene) (h : k.Meets c P event) :
    Silent s c (NullPointer.check event scene c) := by
  cases event with
  | access location place =>
    rcases h with rfl | ⟨x, r, hr, rfl⟩
    · exact .inl rfl
    · have hassume : s.assume c (.pointer r) true = some s := assume_var hr
      right
      unfold NullPointer.check
      refine (congrFun (if_neg Bool.false_ne_true) c).trans ?_
      refine (congrFun (if_neg Bool.false_ne_true) c).trans ?_
      rw [bind_apply, query_apply]
      simp only [hscene.state, hassume]
      rfl
  | _ => exact .inl rfl

section

variable (hs : k.Tame c P s) (hscene : k.Views s scene)
include hs hscene

/-- Nothing that global variables hold points into the frame. -/
theorem escapes_eq_nil : StackEscape.escapes scene c = [] := by
  unfold StackEscape.escapes
  rw [List.filterMap_eq_nil_iff, hscene.state]
  rintro ⟨key, value⟩ hb
  dsimp only
  split
  · cases hq : value.region? with
    | none => rfl
    | some q =>
      have hframe := (hs.store.pointer hb hq).frame
      have hdescribe : StackEscape.describe? c scene.point.frame q = none := by
        rw [StackEscape.describe?, hframe]
        exact if_neg nofun
      simp [hdescribe]
  · rfl

theorem silent_stackEscape (h : k.Meets c P event) : Silent s c (StackEscape.check event scene c) := by
  cases event with
  | element el =>
    cases el with
    | «return» value location =>
      cases value with
      | none => exact .inl rfl
      | some e =>
        show Silent s c (StackEscape.checkReturn scene c e location, c)
        rw [StackEscape.checkReturn, hscene.value_eq, (hs.plain_value (h e rfl).2).region?_eq_none]
        exact .inl rfl
    | _ => exact .inl rfl
  | functionEnds =>
    show Silent s c (StackEscape.checkEnd scene c, c)
    rw [StackEscape.checkEnd, escapes_eq_nil hs hscene]
    exact .inl rfl
  | _ => exact .inl rfl

/-- Nothing is allocated, so nothing is lost. -/
theorem silent_allocation (h : k.Meets c P event) : Silent s c (Allocation.check event scene c) := by
  cases event with
  | access location place =>
    show Silent s c ((Allocation.checkUse scene c location _).getD .pass, c)
    have hnone : Allocation.releasedSymbol? c scene.state location = none := by
      rw [Allocation.releasedSymbol?, hscene.state, hs.heap]
      exact Option.filter_eq_none_iff.2 fun sym _ => false_ne_true
    rw [Allocation.checkUse, hnone]
    exact .inl rfl
  | write location value span =>
    unfold Allocation.check
    dsimp only
    cases location.region? with
    | none => exact .inl rfl
    | some r =>
      have hescape : Allocation.escapeValue c scene.state value = s := by
        rw [Allocation.escapeValue, Allocation.trackedSymbol?, Value.Plain.region?_eq_none h,
          hscene.state]
        rfl
      dsimp only [query_apply]
      split
      · exact .inl rfl
      · exact .inr (by rw [hescape])
  | dead marks =>
    have hdead : Allocation.deadAllocations scene.state c marks = [] := by
      rw [Allocation.deadAllocations, hscene.state, hs.heap]
      rfl
    right
    show Allocation.checkDead scene marks c = _
    unfold Allocation.checkDead
    rw [bind_apply, query_apply, hdead, ← hscene.state]
    rfl
  | callBegins | callEnds => cases h
  | _ => exact .inl rfl

end

/-- **No checker loses a run that gets on.** -/
theorem lets_check (checker : Checker) (hc : k.Regular c) (hs : k.Tame c P s)
    (hP : ∀ r, P (.regionValue r .int)) (hscene : k.Views s scene) (h : k.Meets c P event) :
    k.Lets c P s event (checker.check event scene c) := by
  cases checker with
  | nullDereference => exact (silent_nullPointer hscene h).lets hc hs
  | undefinedValue => exact lets_garbage hc hs hP hscene h
  | divideZero => exact lets_division hc hs hscene h
  | stackAddressEscape => exact (silent_stackEscape hs hscene h).lets hc hs
  | malloc => exact (silent_allocation hs hscene h).lets hc hs
  | noReturn => exact lets_pass hc hs

end Study

end PathScout

import PathScout.Proofs.BlockExits
import PathScout.Proofs.EscapedMemory
import PathScout.Proofs.GatheredReports

/-!
# Paths without a defect

The place of an access must not be null, and a divisor must not be zero. Where the value is certain, the
checker passes or reports a defect and ends the path; where it is not, the path goes on with what keeps
it from the defect. So nothing is lost but runs that have the defect, and none of them goes on.

* `Checker.Guards`: the value that a checker looks at.
* `Verdict.Spares`: what is left of a state after a verdict.
* `NullPointer.spares_check`, `Division.spares_check`: what the two checkers say.
* `Exploring.Guarded`: what becomes of a path.
* `Exploring.guarded_consultAll`: what becomes of it when one of the two checkers is asked.
-/

namespace PathScout

open State Option

/-! ### Assumptions about any value -/

section

variable {c : Catalog} {s t : State} {v : Value} {truth : Bool}

/-- An assumption that is possible keeps the valuations that it is true of, and changes nothing else. -/
theorem State.keeps_of_assume (hs : s.constraints.Normal) (hv : v.isCondition = true) (hf : v.Fits c)
    (ht : s.assume c v truth = some t) : s.Remains (some t) ∧ ∀ ν : Valuation c,
      t.constraints.Holds ν ↔ s.constraints.Holds ν ∧ v.truth? ν = some truth := by
  obtain ⟨m, hm, rfl⟩ := map_eq_some_iff.1 ht
  have hdecides := Constraints.decides_assume_of_fits hs hv hf truth
  refine ⟨?_, fun ν => hdecides.exact hm ν⟩
  rintro _ ⟨⟩
  exact ⟨hdecides.normal hm, m, rfl⟩

/-- An assumption that is impossible is true of no valuation. -/
theorem State.truth?_of_assume (hs : s.constraints.Normal) (hv : v.isCondition = true)
    (hf : v.Fits c) (h : s.assume c v truth = none) {ν : Valuation c} (hν : s.constraints.Holds ν) :
    v.truth? ν = some (!truth) := by
  have hdecides := Constraints.decides_assume_of_fits hs hv hf truth
  obtain ⟨b, hb⟩ := Value.exists_truth? ν hv
  have hne : b ≠ truth := fun hbt => hdecides.impossible (map_eq_none_iff.1 h) ν hν (hbt ▸ hb)
  rw [hb, Bool.eq_not.2 hne]

end

/-! ### Verdicts -/

/-- The value that the checker looks at when it is asked about the event: the place of an access, which
must not be null, or the divisor of a division, which must not be zero. -/
inductive Checker.Guards (p : Program) (s : State) (f : FrameId) : Checker → Event → Value → Prop where
  | access {l : Loc} {place : ExprId} : Guards p s f .nullDereference (.access (.loc l) place) (.loc l)
  | division {a divisor : ExprId} {root : Bool} : Division.divisor? p a = some divisor →
    Guards p s f .divideZero (.element (.expr a root)) (s.value f divisor)

/-- If the path goes on, it keeps the valuations of which the value is true, and nothing is changed but
what is known of symbols. If it ends, there are no such valuations, and there is one finding. -/
def Verdict.Spares (c : Catalog) (s : State) (v : Value) : Verdict → Prop
  | .pass => ∀ ν : Valuation c, s.constraints.Holds ν → v.truth? ν = some true
  | .proceed t => s.Remains (some t) ∧ ∀ ν : Valuation c,
    t.constraints.Holds ν ↔ s.constraints.Holds ν ∧ v.truth? ν = some true
  | .report .. => False
  | .stop t findings => s.Remains (some t) ∧ (∃ f, findings = [f]) ∧ ∀ ν : Valuation c,
    s.constraints.Holds ν → v.truth? ν = some false

section

variable {c : Catalog} (scene : Scene)

/-- What is said of an access. -/
theorem NullPointer.spares_check {l : Loc} (hs : scene.state.constraints.Normal) (hl : l.Fits c)
    (place : ExprId) :
    (check (.access (.loc l) place) scene c).1.Spares c scene.state (.loc l) := by
  unfold check
  have hdefined : ¬ (Value.loc l).isUndefined = true := Bool.false_ne_true
  have hplace : ¬ (Value.loc l).loc?.isNone = true := Bool.false_ne_true
  dsimp only
  rw [if_neg hdefined, if_neg hplace, Naming.bind_apply, Naming.query_apply]
  cases hnonNull : scene.state.assume c (.loc l) true with
  | some t => exact keeps_of_assume (v := .loc l) hs rfl hl hnonNull
  | none =>
    have hfalse {ν : Valuation c} (hν : scene.state.constraints.Holds ν) :=
      truth?_of_assume (v := .loc l) hs rfl hl hnonNull hν
    cases hnull : scene.state.assume c (.loc l) false with
    | some t =>
      exact ⟨(keeps_of_assume (v := .loc l) hs rfl hl hnull).1, ⟨_, rfl⟩, fun ν hν => hfalse hν⟩
    | none =>
      -- no valuation makes the place null and none makes it not null, so there is none
      exact fun ν hν => truth?_of_assume (v := .loc l) hs rfl hl hnull hν

/-- What is said of a division. -/
theorem Division.spares_check {a divisor : ExprId} (hs : scene.state.constraints.Normal)
    (ha : divisor? c.program a = some divisor) (hv : (scene.value divisor).isCondition = true)
    (hf : (scene.value divisor).Fits c) (root : Bool) :
    (check (.element (.expr a root)) scene c).1.Spares c scene.state (scene.value divisor) := by
  have hknown : ¬ ((scene.value divisor).isUnknown || (scene.value divisor).isUndefined) = true := by
    cases h : scene.value divisor with
    | int | symbol | loc | locAsInt => exact fun h => nomatch h
    | undefined | unknown | snapshot =>
      rw [h] at hv
      cases hv
  show (checkExpr scene c a).Spares c scene.state (scene.value divisor)
  unfold checkExpr
  rw [ha]
  dsimp only
  rw [if_neg hknown]
  unfold State.zero?
  cases hnonzero : scene.state.assume c (scene.value divisor) true with
  | some t =>
    cases hzero : scene.state.assume c (scene.value divisor) false with
    | some u => exact keeps_of_assume hs hv hf hnonzero
    | none => exact fun ν hν => truth?_of_assume hs hv hf hzero hν
  | none =>
    have hfalse {ν : Valuation c} (hν : scene.state.constraints.Holds ν) :=
      truth?_of_assume hs hv hf hnonzero hν
    cases hzero : scene.state.assume c (scene.value divisor) false with
    | some u => exact ⟨remains_self hs, ⟨_, rfl⟩, fun ν hν => hfalse hν⟩
    | none => exact fun ν hν => truth?_of_assume hs hv hf hzero hν

end

/-! ### Paths -/

namespace Exploring

/-- What becomes of a path that stands in a state where a value must be true. Either it goes on, with
exactly the valuations of which the value is true, in a state that differs in what is known of symbols
only, and nothing is reported; or it ends at a sink, the value is true of no valuation, and a defect is
reported there. -/
inductive Guarded (e : Exploration) (point : Point) (s : State) (v : Value) :
    Option NodeId → Exploration → Prop where
  | goesOn {m : NodeId} {e' : Exploration} : e.Stays e' → e'.reports = e.reports →
    s.Remains (some (e'.graph.state m)) →
    (∀ ν : Valuation e.catalog, (e'.graph.state m).constraints.Holds ν ↔
      s.constraints.Holds ν ∧ v.truth? ν = some true) → Guarded e point s v (some m) e'
  | ends {m : NodeId} {e' : Exploration} {t : State} {finding : Finding} : e.Stays e' →
    e'.graph.node? m = some ⟨point, t, true⟩ → s.Remains (some t) →
    e'.reports = e.reports.add ⟨finding, m⟩ →
    (∀ ν : Valuation e.catalog, s.constraints.Holds ν → v.truth? ν = some false) →
    Guarded e point s v none e'

variable {o : Options} {e d : Exploration} {n : NodeId} {point : Point} {visits : Nat} {s : State}
  {v : Value} {checker : Checker} {event : Event} {verdict : Verdict}

/-- What is done after a verdict about a state. -/
theorem guarded_obey (hd : e.Stays d) (hreports : d.reports = e.reports)
    (hstate : d.graph.state n = s) (hs : s.constraints.Normal)
    (hspares : verdict.Spares e.catalog s v) :
    (obey n point verdict).Ends d (Guarded e point s v) := by
  cases verdict with
  | pass =>
    refine ends_pure (.goesOn hd hreports ?_ fun ν => ?_)
    · rw [hstate]
      exact remains_self hs
    · rw [hstate]
      exact ⟨fun hν => ⟨hν, hspares ν hν⟩, And.left⟩
  | proceed t =>
    refine (ends_settle_state t).bind fun m d' hm => ends_pure ?_
    refine .goesOn (hd.trans hm.stays) (hm.reports_eq.trans hreports) ?_ fun ν => ?_
    · rw [hm.state_eq]
      exact hspares.1
    · rw [hm.state_eq]
      exact hspares.2 ν
  | report => exact hspares.elim
  | stop t findings =>
    obtain ⟨hremains, ⟨finding, rfl⟩, hfalse⟩ := hspares
    have harrive : (arrive n ⟨point, t, true⟩).Ends d fun a d' => d.Stays d' ∧
        d'.graph.node? a.1 = some ⟨point, t, true⟩ ∧ d'.reports = d.reports :=
      ⟨_, _, rfl, stays_arrived d n _, node?_arrived d n _, rfl⟩
    refine harrive.bind fun a d' ⟨hstays, hnode, hsame⟩ => ?_
    have hreport : (report a.1 [finding]).Ends d' fun _ d'' => d'.Stays d'' ∧
        d''.graph = d'.graph ∧ d''.reports = d'.reports.add ⟨finding, a.1⟩ :=
      ⟨(), _, rfl, ⟨le_rfl, id, rfl, rfl, rfl⟩, rfl, Reporter.toList_emit ..⟩
    refine hreport.bind fun _ d'' ⟨hstays', hgraph, hadded⟩ => ends_pure ?_
    have hreported : d''.reports = e.reports.add ⟨finding, a.1⟩ := by rw [hadded, hsame, hreports]
    exact .ends ((hd.trans hstays).trans hstays') (hgraph ▸ hnode) hremains hreported hfalse

/-- **Only defective runs are cut off.** A checker is asked about an access of a place, or about a
division by a number. Then the path goes on with exactly the valuations of its state for which the place
is not null or the divisor is not zero, unless there are none; nothing else changes in the state. A
defect is reported only if there are none, and then the path ends. -/
theorem guarded_consultAll
    (hguards : checker.Guards e.catalog.program (e.graph.state n) point.frame event v)
    (hs : (e.graph.state n).constraints.Normal) (hv : v.isCondition = true) (hf : v.Fits e.catalog) :
    (consultAll o point visits event [checker] n).Ends e
      (Guarded e (point.tagged checker) (e.graph.state n) v) := by
  let scene : Scene := ⟨e.graph.state n, point.tagged checker, visits, e.frames, o.store⟩
  have hspares : (checker.check event scene e.catalog).1.Spares e.catalog (e.graph.state n) v := by
    cases hguards with
    | access => exact NullPointer.spares_check scene hs hf _
    | @division _ _ root ha => exact Division.spares_check scene hs ha hv hf root
  have hnamed : (naming (checker.check event scene)).Ends e fun verdict d =>
      verdict = (checker.check event scene e.catalog).1 ∧ e.Stays d ∧ d.reports = e.reports ∧
        d.graph = e.graph :=
    ⟨_, _, rfl, rfl, ⟨checker.grows_check event scene e.catalog, id, rfl, rfl, rfl⟩, rfl, rfl⟩
  refine ends_query_bind (hnamed.bind fun verdict d ⟨hverdict, hd, hreports, hgraph⟩ => ?_)
  subst hverdict
  refine (guarded_obey hd hreports (by rw [hgraph]) hs hspares).bind fun n? d' h => ?_
  cases n? with
  | none => exact ends_pure h
  | some m => exact ends_pure h

/-- The only symbol is the pointer to the allocated memory. -/
theorem isAtomic_heldCatalog (x : SymbolId) : (heldCatalog.symbol x).isAtomic = true ∧
    1 ∈ (heldCatalog.symbol x).type.domain := by
  obtain ⟨_ | i⟩ := x
  · exact ⟨rfl, by decide⟩
  · exact ⟨rfl, (by decide : (1 : Int) ∈ CType.int.domain)⟩

/-- The valuation where the pointer is not null. -/
def heldValuation : Valuation heldCatalog where
  value _ := 1
  mem_domain x := (isAtomic_heldCatalog x).2
  sum h := nomatch h ▸ (isAtomic_heldCatalog _).1
  difference h := nomatch h ▸ (isAtomic_heldCatalog _).1
  compare h _ := nomatch h ▸ (isAtomic_heldCatalog _).1
  compare_const h _ := nomatch h ▸ (isAtomic_heldCatalog _).1

/-- The allocated memory is accessed. Nothing is reported, and it is known then that the pointer is not
null. -/
theorem guarded_consultAll_held :
    Checker.Guards heldProgram heldState topFrame .nullDereference
      (.access (.loc (.region ⟨3⟩)) ⟨0⟩) (.loc (.region ⟨3⟩)) ∧
    heldState.constraints.Normal ∧ (Value.loc (.region ⟨3⟩)).isCondition = true ∧
    (Value.loc (.region ⟨3⟩)).Fits heldCatalog ∧
    ∃ m e', consultAll { checkers := [.nullDereference] } ⟨.before ⟨0⟩ 1, topFrame, none⟩ 1
        (.access (.loc (.region ⟨3⟩)) ⟨0⟩) [.nullDereference] ⟨0⟩ heldExploration =
          .ok (some m, e') ∧ e'.reports = [] ∧
      ∀ ν : Valuation heldCatalog, (e'.graph.state m).constraints.Holds ν ↔ ν.value ⟨0⟩ ≠ 0 := by
  have hstate : heldExploration.graph.state ⟨0⟩ = heldState :=
    PathGraph.state_eq (node?_heldExploration ⟨0⟩)
  have hguards : Checker.Guards heldProgram heldState topFrame .nullDereference
      (.access (.loc (.region ⟨3⟩)) ⟨0⟩) (.loc (.region ⟨3⟩)) := .access
  have hnormal : heldState.constraints.Normal := Constraints.normal_empty
  have hholds (ν : Valuation heldCatalog) : heldState.constraints.Holds ν := Constraints.holds_empty ν
  have hbase : heldCatalog.symbolicBase? ⟨3⟩ = some ⟨0⟩ := by decide +kernel
  have hfits : (Value.loc (.region ⟨3⟩)).Fits heldCatalog := fun x hx => by
    obtain rfl := some.inj (hbase.symm.trans hx)
    exact .intro (fun p hp => by cases hp) (fun p hp => by cases hp) fun p hp => by cases hp
  have htruth (ν : Valuation heldCatalog) {b : Bool} :
      (Value.loc (.region ⟨3⟩)).truth? ν = some b ↔ decide (ν.value ⟨0⟩ ≠ 0) = b := by
    rw [Value.truth?, Loc.truth, hbase, some.injEq]
  obtain ⟨out, e', hrun, hguarded⟩ : (consultAll { checkers := [.nullDereference] }
      ⟨.before ⟨0⟩ 1, topFrame, none⟩ 1 (.access (.loc (.region ⟨3⟩)) ⟨0⟩) [.nullDereference] ⟨0⟩).Ends
      heldExploration (Guarded heldExploration ⟨.before ⟨0⟩ 1, topFrame, some .nullDereference⟩
        (heldExploration.graph.state ⟨0⟩) (.loc (.region ⟨3⟩))) :=
    guarded_consultAll (by rw [hstate]; exact hguards) (by rw [hstate]; exact hnormal) rfl hfits
  rw [hstate] at hguarded
  refine ⟨hguards, hnormal, rfl, hfits, ?_⟩
  cases hguarded with
  | goesOn _ hreports _ hkept =>
    refine ⟨_, e', hrun, hreports, fun ν => (hkept ν).trans ((and_iff_right (hholds ν)).trans ?_)⟩
    exact (htruth ν).trans decide_eq_true_iff
  | ends _ _ _ _ hfalse =>
    exact absurd ((htruth heldValuation).1 (hfalse heldValuation (hholds heldValuation))) (by decide)

end Exploring

end PathScout

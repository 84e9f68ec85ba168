import PathScout.Proofs.BackedSteps

/-!
# Blocks in states that are backed

A path that is continued from a backed node does one step of a block or leaves the block. In both
cases the new nodes are backed again: by runs that did the step, or by runs that may go where the
path goes. A run may go on both ways where its condition is undefined.

* `Study.Backed.assume`: what is assumed on a way rules out the runs that do not take it.
* `Study.backed_switchStates`: the ways of a switch.
* `Study.Sure.branchOut`, `Study.Sure.continueBlock`, `Study.Sure.afterElement`: what a path does in
  a block.
-/

namespace PathScout.Study

open Exploring Option List Naming

variable {k : Study} {e e' d : Exploration} {c z : Catalog} {P : Symbol → Prop} {s t : State}
  {n pred : NodeId} {b b' : BlockId} {block : Block} {i count : Nat} {el : Element} {κ : Machine}
  {α : Assignment} {live : VarId → Prop} {R R' : Machine → Prop} {V : Visits} {v : Value} {cond : ExprId}
  {truth : Bool} {cases : List CaseTarget}

/-! ### One step -/

/-- Asking about an event, with a node made first. -/
theorem Sure.asked {kind kind' : PointKind} {event : Event} {f : NodeId → Exploring Unit}
    (hsure : k.Sure z e) (h : k.Ready e) (hpred : HasState e pred t) (hs : k.Tame e.catalog (k.Stale V) s)
    (hpoint : PathNode.isResumed ⟨⟨kind, topFrame, none⟩, s, false⟩ = false) (hrun : (do
      let pred ← Exploring.settle pred ⟨kind, topFrame, none⟩ s
      match ← Exploring.consult k.options pred ⟨kind', topFrame, none⟩ count event with
      | none => return ()
      | some n => f n : Exploring Unit) e = .ok ((), e')) (hmeets : ∀ c, k.Meets c (k.Stale V) event)
    (hback : k.Backed z live s R) (hflaw : ∀ {κ α g}, R κ → k.Mirrors z live s.env s.store κ α →
      k.Flaw κ g event → k.Found g kind') :
    (Within z e' → k.Sure z e') ∨
    ∃ n d m, k.Evolves e d ∧ HasState d n { s with constraints := m } ∧
      k.Tame d.catalog (k.Stale V) { s with constraints := m } ∧ f n d = .ok ((), e') ∧
      (Within z d → k.Sure z d ∧ k.Backed z live { s with constraints := m } R) := by
  obtain ⟨n, d, hsettle, hrest⟩ := bind_eq_ok.1 hrun
  obtain ⟨hd, hn⟩ := evolves_settle h hpred hpoint hsettle
  have hs1 := hs.mono h.regular hd.le
  have hsure1 := hsure.settle hpoint hsettle
  obtain ⟨d1, hd1, ⟨hrest1, hsure2⟩ | ⟨n', m, hrest1, hstate, hs2, hgoes⟩⟩ :=
    hsure1.consult hd.ready hn hs1 (fun _ => trivial) (hmeets _) hback hflaw hrest
  · obtain ⟨-, rfl⟩ := pure_eq_ok.1 hrest1
    exact .inl hsure2
  · exact .inr ⟨n', d1, m, hd.trans hd1, hstate, hs2, hrest1, hgoes⟩

theorem Sure.processElement (hsure : k.Sure z e) (h : k.Ready e) (hpred : HasState e pred t)
    (hs : k.Tame e.catalog (k.Stale V) s) (hb : k.body.graph.block? b = some block)
    (hel : block.elements[i]? = some el)
    (hback : k.Backed z (Live (k.liveFrom block i)) s (k.Run b i))
    (hrun : processElement k.options ⟨topFrame, b, i, V⟩ pred s el e = .ok ((), e'))
    (hz : Within z e') : k.Sure z e' := by
  have hscalar := k.isScalar.element block (mem_blocks hb) el (Array.mem_of_getElem? hel)
  rw [liveFrom_of_some hel] at hback
  obtain hends | ⟨n, d, m, hd, hstate, hs2, hrest, hgoes⟩ := hsure.asked h hpred hs rfl hrun
    (fun _ => hscalar) hback fun hκ _ hshows => hκ.found hb hel hshows
  · exact hends hz
  · obtain ⟨r, d2, heval, hrest2⟩ := bind_eq_ok.1 hrest
    have hevaluates : k.Evaluates (k.Stale V) [] d _ el r d2 :=
      evaluates_evalElement hd.ready hstate hs2 (fun _ => trivial) rfl hscalar heval
    have hperforms : Within z d2 →
        k.Performs z (k.liveFrom block (i + 1)) (k.Run b i) el r d2 := fun hz2 => by
      obtain ⟨hsure2, hback'⟩ := hgoes (hz2.of_evolves hevaluates.evolves)
      exact performs_evalElement hsure2 hd.ready hstate hs2 (fun _ => trivial) rfl hscalar hback'
        (fun hκ hshows => hκ.found hb hel hshows) heval hz2
    cases r with
    | none =>
      obtain ⟨-, rfl⟩ := pure_eq_ok.1 hrest2
      exact (hperforms hz).sure
    | some o =>
      obtain ⟨hcall, htame⟩ := hevaluates.tame rfl
      have hrest3 := (finishElement_eq hcall d2).symm.trans hrest2
      obtain ⟨hadvance, -⟩ := evolves_advance hevaluates.evolves.ready rfl htame hrest3
      have hdone := hperforms (hz.of_evolves hadvance)
      have hreal : k.Real z ⟨⟨.after b i, topFrame, none⟩, o.state, false⟩ :=
        ⟨block, el, hb, hel, hdone.backed rfl⟩
      exact hdone.sure.advance hreal hrest3

/-! ### Conditions -/

/-- A run that satisfies what is assumed on a way may take it. -/
theorem Backed.assume (h : k.Backed z live s R) (hc : c.Arithmetic)
    (hs : TameConstraints c P s.constraints) (hv : v.Plain c P) (hcz : c ≤ z)
    (ht : s.assume c v truth = some t)
    (hR : ∀ κ α, R κ → k.Mirrors z live s.env s.store κ α →
      (∀ n, v.Denotes z α n → decide (n ≠ 0) = truth) → R' κ) : k.Backed z live t R' := by
  obtain ⟨m, hm, rfl⟩ := map_eq_some_iff.1 ht
  have hexact : ∀ α, Satisfies z α m → _ := fun α hα => satisfies_of_assume hc hs hv hcz hm hα
  refine h.narrow ?_ (fun κ α hα hκ hmirrors => hR κ α hκ hmirrors (hexact α hα).2)
    fun α hα => (hexact α hα).1
  have hfilled := h.filled.of_le hs hcz
  exact (hfilled.assume hs hv hm).mono (hs.assume hc hv hm) hcz

/-- Only runs that the state stands for matter. -/
theorem Backed.refine (h : k.Backed z live s R)
    (hR : ∀ κ α, R κ → k.Mirrors z live s.env s.store κ α → R' κ) : k.Backed z live s R' :=
  h.narrow h.filled (fun κ α _ hκ hmirrors => hR κ α hκ hmirrors) fun _ hα => hα

/-- Both ways of a branch: a condition that is a number in a run says which one the run takes. -/
theorem backed_branchStates (hc : k.Regular c) (hs : k.Tame c P s) (hcond : k.program.IsNumber cond)
    (hcz : c ≤ z) (hback : k.Backed z live s R) :
    (∀ t, (branchStates c s (s.value topFrame cond)).1 = some t →
      k.Backed z live t fun κ => R κ ∧ ∀ m, κ.int? cond = some m → m ≠ 0) ∧
    ∀ t, (branchStates c s (s.value topFrame cond)).2 = some t →
      k.Backed z live t fun κ => R κ ∧ ∀ m, κ.int? cond = some m → m = 0 := by
  have hv := hs.plain_value hcond.2
  unfold branchStates
  split
  · next hunknown =>
    -- neither way has a condition, so no run has a number for it
    have hnone : ∀ κ α, k.Mirrors z live s.env s.store κ α → κ.int? cond = none := by
      intro κ α hmirrors
      by_contra hsome
      obtain ⟨m, hm⟩ := ne_none_iff_exists'.1 hsome
      have hd := (hmirrors.value_int m hm).2
      rw [hd.isUnknown_eq, hd.isUndefined_eq] at hunknown
      cases hunknown
    constructor
    iterate 2
      · rintro t ⟨⟩
        refine hback.refine fun κ α hκ hmirrors => ⟨hκ, fun m hm => ?_⟩
        cases (hnone κ α hmirrors).symm.trans hm
  · constructor
    · intro t ht
      refine hback.assume hc.arithmetic hs.constraints hv hcz ht fun κ α hκ hmirrors htruth => ?_
      exact ⟨hκ, fun m hm => of_decide_eq_true (htruth m (hmirrors.value_int m hm).2)⟩
    · intro t ht
      refine hback.assume hc.arithmetic hs.constraints hv hcz ht fun κ α hκ hmirrors htruth => ?_
      refine ⟨hκ, fun m hm => ?_⟩
      exact not_not.1 (of_decide_eq_false (htruth m (hmirrors.value_int m hm).2))

/-- A case of a switch that is compared with a value. -/
theorem denotes_case {n m : Int} (hc : c.Arithmetic) (hv : v.Plain c P)
    (hz : (binary .eq v (.ofInt m .int) .int c).2 ≤ z) (hd : v.Denotes z α n) :
    (binary .eq v (.ofInt m .int) .int c).1.Denotes z α
      (if n = CType.int.wrap m then 1 else 0) := by
  have hone : (Value.ofInt m .int).Plain c P := trivial
  have hcomp := computes_binary hc .eq hv hone
  have hcz := hcomp.le.trans hz
  refine (hcomp.denotes ⟨n, _, hd.of_le hv hcz, rfl, ?_⟩).mono hcomp.plain hz
  exact foldInts_eq_int n _

/-- A condition that is a number in a run is that of the case of a way, and of no case where no case
is taken. -/
structure Sorts (k : Study) (z : Catalog) (live : VarId → Prop) (R R' : Machine → Prop) (cond : ExprId)
    (cases : List CaseTarget) (out : List (BlockId × State) × Option State) : Prop where
  way {w : BlockId × State} : w ∈ out.1 → ∃ a ∈ cases, w.1 = a.block ∧ k.Backed z live w.2 fun κ =>
    R κ ∧ ∀ n, κ.int? cond = some n → CType.int.wrap a.value = n
  rest {t : State} : out.2 = some t → k.Backed z live t fun κ =>
    R' κ ∧ ∀ n, κ.int? cond = some n → ∀ a ∈ cases, CType.int.wrap a.value ≠ n

/-- **The ways of a switch.** -/
theorem sorts_switchStates {rest : Option State} (hc : k.Regular c) (hs : k.Tame c P s)
    (hcond : k.program.IsNumber cond) (hback : k.Backed z live s R)
    (hrest : ∀ t, rest = some t → Differs c P s t ∧ k.Backed z live t R')
    (hz : (switchStates s (s.value topFrame cond) .int cases rest c).2 ≤ z) :
    k.Sorts z live R R' cond cases (switchStates s (s.value topFrame cond) .int cases rest c).1 := by
  induction cases generalizing c rest R' with
  | nil =>
    refine ⟨fun hw => (by cases hw), fun ht => ?_⟩
    exact (hrest _ ht).2.imp fun κ hκ => ⟨hκ, fun _ _ a ha => by cases ha⟩
  | cons target more ih =>
    have hv := hs.plain_value hcond.2
    by_cases hunknown : ((s.value topFrame cond).isUnknown || (s.value topFrame cond).isUndefined) = true
    · -- no run that the state stands for has a number for the condition
      have hnone : ∀ κ α σ, k.Mirrors z live s.env σ κ α → κ.int? cond = none := by
        intro κ α σ hmirrors
        by_contra hsome
        obtain ⟨m, hm⟩ := ne_none_iff_exists'.1 hsome
        have hd := (hmirrors.value_int m hm).2
        rw [hd.isUnknown_eq, hd.isUndefined_eq] at hunknown
        cases hunknown
      have hout : switchStates s (s.value topFrame cond) .int (target :: more) rest c =
          (((target.block, s) :: (switchStates s (s.value topFrame cond) .int more rest c).1.1,
            (switchStates s (s.value topFrame cond) .int more rest c).1.2),
            (switchStates s (s.value topFrame cond) .int more rest c).2) :=
        congrFun (if_pos hunknown) c
      rw [hout] at hz ⊢
      have hrest' : ∀ t, rest = some t → Differs c P s t ∧
          k.Backed z live t fun κ => R' κ ∧ κ.int? cond = none := by
        intro t ht
        obtain ⟨⟨m, rfl, hm⟩, hbacked⟩ := hrest t ht
        exact ⟨⟨m, rfl, hm⟩, hbacked.refine fun κ α hκ hmirrors => ⟨hκ, hnone κ α _ hmirrors⟩⟩
      have hsorts := ih hc hs hrest' hz
      refine ⟨fun hw => ?_, fun ht => ?_⟩
      · rcases mem_cons.1 hw with rfl | hw
        · refine ⟨target, mem_cons_self, rfl, ?_⟩
          refine hback.refine fun κ α hκ hmirrors => ⟨hκ, fun n hn => ?_⟩
          cases (hnone κ α _ hmirrors).symm.trans hn
        · obtain ⟨a, ha, hway⟩ := hsorts.way hw
          exact ⟨a, mem_cons_of_mem _ ha, hway⟩
      · refine (hsorts.rest ht).imp fun κ hκ => ⟨hκ.1.1, fun n hn => ?_⟩
        cases hκ.1.2.symm.trans hn
    · have hone : (Value.ofInt target.value .int).Plain c P := trivial
      have hmatch := computes_binary hc.arithmetic .eq hv hone
      have hcompare : ∀ {κ α n}, (binary .eq (s.value topFrame cond)
          (.ofInt target.value .int) .int c).2 ≤ z → ∀ σ, k.Mirrors z live s.env σ κ α →
          κ.int? cond = some n → _ := fun hz1 σ hmirrors hn =>
        denotes_case (m := target.value) hc.arithmetic hv hz1 (hmirrors.value_int _ hn).2
      rw [switchStates_cons hunknown] at hz ⊢
      dsimp only at hz ⊢
      generalize binary .eq (s.value topFrame cond) (.ofInt target.value .int) .int c = matched
        at hmatch hz hcompare ⊢
      have hc1 := hc.of_computes hmatch
      have hs1 := hs.mono hc hmatch.le
      have hdiffers : ∀ t, (rest.bind fun r => r.assume matched.2 matched.1 false) = some t →
          Differs matched.2 P s t := by
        intro t ht
        obtain ⟨r, hr, ht⟩ := bind_eq_some_iff.1 ht
        exact ((hrest r hr).1.mono hmatch.le).assume hc1.arithmetic hmatch.plain ht
      have hmore : k.Switches matched.2 P s (s.value topFrame cond) more _ _ :=
        switches_switchStates hc1 hs1 (hv.mono hmatch.le) hdiffers
      have hz1 := hmore.le.trans hz
      have hrest' : ∀ t, (rest.bind fun r => r.assume matched.2 matched.1 false) = some t →
          Differs matched.2 P s t ∧ k.Backed z live t fun κ =>
            R' κ ∧ ∀ n, κ.int? cond = some n → CType.int.wrap target.value ≠ n := by
        intro t ht
        refine ⟨hdiffers t ht, ?_⟩
        obtain ⟨r, hr, ht⟩ := bind_eq_some_iff.1 ht
        obtain ⟨⟨m, rfl, hm⟩, hbacked⟩ := hrest r hr
        refine hbacked.assume hc1.arithmetic (hm.mono hmatch.le) hmatch.plain hz1 ht
          fun κ α hκ hmirrors htruth => ⟨hκ, fun n hn hvalue => ?_⟩
        have hfalse := htruth _ (hcompare hz1 _ hmirrors hn)
        rw [if_pos hvalue.symm] at hfalse
        cases hfalse
      have hsorts := ih hc1 hs1 hrest' hz
      refine ⟨fun hw => ?_, fun ht => ?_⟩
      · rcases mem_append.1 hw with hw | hw
        · obtain ⟨t, ht, rfl⟩ := map_eq_some_iff.1 (mem_toList.1 hw)
          refine ⟨target, mem_cons_self, rfl, ?_⟩
          refine hback.assume hc1.arithmetic hs1.constraints hmatch.plain hz1 ht
            fun κ α hκ hmirrors htruth => ⟨hκ, fun n hn => ?_⟩
          by_contra hvalue
          have htrue := htruth _ (hcompare hz1 _ hmirrors hn)
          rw [if_neg (Ne.symm hvalue)] at htrue
          cases htrue
        · obtain ⟨a, ha, hway⟩ := hsorts.way hw
          exact ⟨a, mem_cons_of_mem _ ha, hway⟩
      · refine (hsorts.rest ht).imp fun κ hκ => ⟨hκ.1.1, fun n hn a ha => ?_⟩
        rcases mem_cons.1 ha with rfl | ha
        · exact hκ.1.2 n hn
        · exact hκ.2 n hn a ha

/-! ### Leaving a block -/

/-- The state is backed by runs that enter the block. -/
def Entering (k : Study) (z : Catalog) (b : BlockId) (s : State) : Prop :=
  k.Backed z (Live (k.liveIn b)) s (k.Run b 0)

/-- Runs at the end of a block that may go on to a block enter it. -/
theorem Backed.entering (h : k.Backed z (Live (k.liveOut block)) s R)
    (hb' : b' ∈ block.terminator.successors) (hR : ∀ κ, R κ → k.Run b' 0 κ) : k.Entering z b' s :=
  (h.mono fun _ hx => live_liveOut hb' hx).imp hR

theorem Sure.followEdge {way : Option State} (hsure : k.Sure z e)
    (hway : ∀ t, way = some t → k.Entering z b' t)
    (hrun : way.forM (followEdge topFrame V n b b') e = .ok ((), e')) : k.Sure z e' := by
  cases way with
  | none =>
    obtain ⟨-, rfl⟩ := pure_eq_ok.1 hrun
    exact hsure
  | some t =>
    have hreal : k.Real z ⟨⟨.edge b b', topFrame, none⟩, t, false⟩ := hway t rfl
    exact hsure.advance hreal hrun

theorem Sure.followEdges {ways : List (BlockId × State)} (hsure : k.Sure z e)
    (hways : ∀ w ∈ ways, k.Entering z w.1 w.2)
    (hrun : (ways.forM fun (target, s) => Exploring.followEdge topFrame V n b target s :
      Exploring Unit) e = .ok ((), e')) : k.Sure z e' := by
  induction ways generalizing e with
  | nil =>
    obtain ⟨-, rfl⟩ := pure_eq_ok.1 hrun
    exact hsure
  | cons w ways ih =>
    obtain ⟨_, d, hfirst, hmore⟩ := bind_eq_ok.1 hrun
    have hreal : k.Real z ⟨⟨.edge b w.1, topFrame, none⟩, w.2, false⟩ := hways w List.mem_cons_self
    exact ih (hsure.advance hreal hfirst) (fun w' hw' => hways w' (mem_cons_of_mem _ hw')) hmore

section

variable (hsure : k.Sure z e) (h : k.Ready e) (hn : HasState e n s) (hs : k.Tame e.catalog (k.Stale V) s)
  (hcond : k.program.IsNumber cond) (hback : k.Backed z live s R)
include hsure h hn hs hcond hback

/-- The path goes on in both ways of a branch. -/
theorem Sure.branch {yes no : BlockId} (hz : e.catalog ≤ z)
    (hyes : ∀ t, (k.Backed z live t fun κ => R κ ∧ ∀ m, κ.int? cond = some m → m ≠ 0) →
      k.Entering z yes t)
    (hno : ∀ t, (k.Backed z live t fun κ => R κ ∧ ∀ m, κ.int? cond = some m → m = 0) →
      k.Entering z no t) (hrun : (do
      let state ← stateOf n
      let (taken, other) ← query fun e =>
        branchStates e.catalog state (state.value topFrame cond)
      taken.forM (Exploring.followEdge topFrame V n b yes)
      other.forM (Exploring.followEdge topFrame V n b no) : Exploring Unit) e = .ok ((), e')) :
    k.Sure z e' := by
  simp only [Exploring.stateOf, query_bind, hn.state_eq] at hrun
  obtain ⟨htaken, hother⟩ := backed_branchStates h.regular hs hcond hz hback
  obtain ⟨_, d, hfirst, hsecond⟩ := bind_eq_ok.1 hrun
  have hsure' := hsure.followEdge (fun t ht => hyes t (htaken t ht)) hfirst
  exact hsure'.followEdge (fun t ht => hno t (hother t ht)) hsecond

/-- The path goes on in all ways of a switch. -/
theorem Sure.switch {default : BlockId} (hcase : ∀ a ∈ cases, ∀ t, (k.Backed z live t fun κ =>
      R κ ∧ ∀ n, κ.int? cond = some n → CType.int.wrap a.value = n) → k.Entering z a.block t)
    (hdefault : ∀ t, (k.Backed z live t fun κ =>
      R κ ∧ ∀ n, κ.int? cond = some n → ∀ a ∈ cases, CType.int.wrap a.value ≠ n) →
      k.Entering z default t) (hrun : (do
      let state ← stateOf n
      let type ← Exploring.query fun e => (e.catalog.program.expr cond).type
      let (ways, rest) ← Exploring.naming
        (Exploring.switchStates state (state.value topFrame cond) type cases (some state))
      ways.forM fun (target, s) => Exploring.followEdge topFrame V n b target s
      rest.forM (Exploring.followEdge topFrame V n b default) : Exploring Unit) e = .ok ((), e'))
    (hz : Within z e') : k.Sure z e' := by
  have hle := (switch_spec h hn hs hcond hrun).1.le
  unfold Exploring.stateOf at hrun
  simp only [query_bind, hn.state_eq, naming_bind, h.regular.program, hcond.1] at hrun
  have hswitch : k.Switches e.catalog (k.Stale V) s (s.value topFrame cond) cases (some s) _ :=
    switches_switchStates h.regular hs (hs.plain_value hcond.2)
      fun t ht => some.inj ht ▸ hs.differs
  have hsorts : (switchStates s (s.value topFrame cond) .int cases (some s) e.catalog).2 ≤ z →
      k.Sorts z live R R cond cases _ :=
    sorts_switchStates h.regular hs hcond hback fun t ht => some.inj ht ▸ ⟨hs.differs, hback⟩
  generalize switchStates s (s.value topFrame cond) .int cases (some s) e.catalog = out
    at hrun hswitch hsorts
  have hnaming := evolves_naming h hswitch.le hswitch.regular
  have hs1 := hs.mono h.regular hswitch.le
  obtain ⟨_, d, hways, hrest⟩ := bind_eq_ok.1 hrun
  obtain ⟨hd, -⟩ := evolves_followEdges hnaming.ready (fun w hw => (hswitch.way hw).tame hs1) hways
  obtain ⟨hd', -⟩ := evolves_followEdge hd.ready
    (fun t ht => ((hswitch.rest ht).tame hs1).mono hswitch.regular hd.le) hrest
  have hout := hsorts (hd.le.trans (hd'.le.trans hz.le))
  refine Sure.followEdge (Sure.followEdges (hsure.naming _) (fun w hw => ?_) hways) (fun t ht => ?_) hrest
  · obtain ⟨a, ha, hblock, hbacked⟩ := hout.way hw
    exact hblock ▸ hcase a ha w.2 hbacked
  · exact hdefault t (hout.rest ht)

end

theorem Sure.exit (hsure : k.Sure z e) (h : k.Ready e) (hpred : HasState e pred t)
    (hs : k.Tame e.catalog (k.Stale V) s) (hback : k.Backed z live s R) (hrun : (do
      let pred ← Exploring.settle pred ⟨.exit b, topFrame, none⟩ s
      match ← Exploring.consult k.options pred ⟨.finish, topFrame, none⟩ count .functionEnds with
      | none => return ()
      | some n => Exploring.advance n ⟨.finish, topFrame, none⟩ (← Exploring.stateOf n) V :
        Exploring Unit) e = .ok ((), e')) (hz : Within z e') : k.Sure z e' := by
  obtain hends | ⟨n, d, m, hd, hstate, hs', hrest, hgoes⟩ := hsure.asked h hpred hs rfl hrun
    (fun _ => trivial) hback fun _ _ hflaw => hflaw.elim
  · exact hends hz
  · simp only [stateOf, query_bind, hstate.state_eq] at hrest
    obtain ⟨hadvance, -⟩ := evolves_advance hd.ready rfl hs' hrest
    obtain ⟨hsure', hback'⟩ := hgoes (hz.of_evolves hadvance)
    have hreal : k.Real z ⟨⟨.finish, topFrame, none⟩, { s with constraints := m }, false⟩ :=
      (hback'.mono fun _ hx => hx.elim).imp fun _ _ => trivial
    exact hsure'.advance hreal hrest

/-! ### Where runs may go -/

section

variable {last : Terminator} {yes no default : BlockId} {kind : BranchKind} {location : Location}
  {defaultLocation : Option Location}
  {cases : List CaseTarget} {a : CaseTarget}

theorem goes_yes (ht : last = .branch cond yes no kind location)
    (h : ∀ m, κ.int? cond = some m → m ≠ 0) : κ.Goes last yes := by
  subst ht
  unfold Machine.Goes
  dsimp only
  cases hm : κ.int? cond with
  | none => exact .inl rfl
  | some m => exact (if_pos (h m hm)).symm

theorem goes_no (ht : last = .branch cond yes no kind location)
    (h : ∀ m, κ.int? cond = some m → m = 0) : κ.Goes last no := by
  subst ht
  unfold Machine.Goes
  dsimp only
  cases hm : κ.int? cond with
  | none => exact .inr rfl
  | some m => exact (if_neg (not_not.2 (h m hm))).symm

theorem goes_case (ht : last = .switch cond cases default defaultLocation location) (ha : a ∈ cases)
    (h : ∀ n, κ.int? cond = some n → CType.int.wrap a.value = n) : κ.Goes last a.block := by
  subst ht
  unfold Machine.Goes
  dsimp only
  cases hm : κ.int? cond with
  | none => exact .inl ⟨a, ha, rfl⟩
  | some m => exact .inl ⟨a, ha, h m hm, rfl⟩

theorem goes_default (ht : last = .switch cond cases default defaultLocation location)
    (h : ∀ n, κ.int? cond = some n → ∀ a ∈ cases, CType.int.wrap a.value ≠ n) :
    κ.Goes last default := by
  subst ht
  unfold Machine.Goes
  dsimp only
  cases hm : κ.int? cond with
  | none => exact .inr rfl
  | some m => exact .inr ⟨h m hm, rfl⟩

end

/-- **The runs at the end of a block back the nodes on all ways that a path takes.** -/
theorem Sure.branchOut (hsure : k.Sure z e) (h : k.Ready e) (hpred : HasState e pred t)
    (hs : k.Tame e.catalog (k.Stale V) s) (hb : k.body.graph.block? b = some block)
    (hel : block.elements[i]? = none)
    (hback : k.Backed z (Live (k.liveOut block)) s (k.Run b i))
    (hrun : branchOut k.options pred s b topFrame V e = .ok ((), e'))
    (hz : Within z e') : k.Sure z e' := by
  unfold Exploring.branchOut at hrun
  obtain ⟨block', d, hblock, hrest⟩ := bind_eq_ok.1 hrun
  obtain ⟨hb', rfl⟩ := blockOf_eq_ok h hblock
  cases hb.symm.trans hb'
  have hscalar := k.isScalar.terminator block (mem_blocks hb)
  -- where a run may go to, it goes
  have hjump : ∀ {b' κ}, κ.Goes block.terminator b' → k.Run b i κ → k.Run b' 0 κ :=
    fun hgoes hκ => hκ.jump hb hel hgoes
  cases hterm : block.terminator with
  | goto target kind =>
    simp only [hterm] at hrest
    have hreal : k.Real z ⟨⟨.edge b target, topFrame, none⟩, s, false⟩ :=
      hback.entering (by simp [hterm, Terminator.successors]) fun κ hκ =>
        hjump (by rw [hterm]; exact rfl) hκ
    exact hsure.advance hreal hrest
  | branch cond yes no kind location =>
    simp only [hterm, Program.ScalarTerminator] at hrest hscalar
    rcases hsure.asked h hpred hs rfl hrest (fun _ => hscalar) hback (fun hκ _ hflaw =>
      hκ.found_exit hb hel (by rw [hterm]; exact hflaw)) with
      hends | ⟨n, d, m, hd, hstate, hs', hrest', hgoes⟩
    · exact hends hz
    · obtain ⟨hd', -⟩ := branch_spec hd.ready hstate hs' hscalar hrest'
      have hzd := hz.of_evolves hd'
      obtain ⟨hsure', hback'⟩ := hgoes hzd
      refine hsure'.branch hd.ready hstate hs' hscalar hback' hzd.le (fun t hbacked => ?_)
        (fun t hbacked => ?_) hrest'
      · refine hbacked.entering (by simp [hterm, Terminator.successors]) fun κ hκ => ?_
        exact hjump (goes_yes hterm hκ.2) hκ.1
      · refine hbacked.entering (by simp [hterm, Terminator.successors]) fun κ hκ => ?_
        exact hjump (goes_no hterm hκ.2) hκ.1
  | switch cond cases default defaultLocation location =>
    simp only [hterm, Program.ScalarTerminator] at hrest hscalar
    rcases hsure.asked h hpred hs rfl hrest (fun _ => hscalar) hback (fun hκ _ hflaw =>
      hκ.found_exit hb hel (by rw [hterm]; exact hflaw)) with
      hends | ⟨n, d, m, hd, hstate, hs', hrest', hgoes⟩
    · exact hends hz
    · obtain ⟨hd', -⟩ := switch_spec hd.ready hstate hs' hscalar hrest'
      have hzd := hz.of_evolves hd'
      obtain ⟨hsure', hback'⟩ := hgoes hzd
      refine hsure'.switch hd.ready hstate hs' hscalar hback' (fun a ha t hbacked => ?_)
        (fun t hbacked => ?_) hrest' hz
      · have hsuccessor : a.block ∈ block.terminator.successors := by
          rw [hterm, Terminator.successors]
          exact List.mem_append_left _ (List.mem_map_of_mem ha)
        exact hbacked.entering hsuccessor fun κ hκ => hjump (goes_case hterm ha hκ.2) hκ.1
      · have hsuccessor : default ∈ block.terminator.successors := by
          rw [hterm, Terminator.successors]
          exact mem_append_right _ (mem_singleton_self _)
        exact hbacked.entering hsuccessor fun κ hκ => hjump (goes_default hterm hκ.2) hκ.1
  | exit =>
    simp only [hterm] at hrest
    exact hsure.exit h hpred hs hback hrest hz

/-! ### Continuing in a block -/

/-- **The runs at a step of a block back what a path does there.** -/
theorem Sure.continueBlock (hsure : k.Sure z e) (h : k.Ready e) (hpred : HasState e pred t)
    (hs : k.Tame e.catalog (k.Stale V) s)
    (hback : ∀ block, k.body.graph.block? b = some block →
      k.Backed z (Live (k.liveFrom block i)) s (k.Run b i))
    (hrun : continueBlock k.options pred s ⟨topFrame, b, i, V⟩ e = .ok ((), e'))
    (hz : Within z e') : k.Sure z e' := by
  unfold Exploring.continueBlock at hrun
  obtain ⟨block, d, hblock, hrest⟩ := bind_eq_ok.1 hrun
  obtain ⟨hb, rfl⟩ := blockOf_eq_ok h hblock
  dsimp only at hrest
  cases hel : block.elements[i]? with
  | some el =>
    simp only [hel] at hrest
    exact hsure.processElement h hpred hs hb hel (hback block hb) hrest hz
  | none =>
    simp only [hel] at hrest
    have hleaving := hback block hb
    rw [liveFrom_of_none hel] at hleaving
    exact hsure.branchOut h hpred hs hb hel hleaving hrest hz

/-- After a statement neither the state nor the runs keep expressions. -/
theorem Backed.settled (hb : k.body.graph.block? b = some block) (hel : block.elements[i]? = some el)
    (h : k.Backed z live s fun κ' => ∃ κ, k.Run b i κ ∧ κ.perform k.program k.blank el = κ') :
    k.Backed z live (k.settled b i s) (k.Run b (i + 1)) := by
  have hsettled : k.settled b i s = if el.isRoot then s.clearExprs topFrame else s := by
    unfold Study.settled
    simp only [hb, bind_some, hel, any_some]
  rw [hsettled]
  have hmap : k.Backed z live (if el.isRoot then s.clearExprs topFrame else s) fun κ'' =>
      ∃ κ', (∃ κ, k.Run b i κ ∧ κ.perform k.program k.blank el = κ') ∧ κ'.settle el = κ'' := by
    refine h.map (by split <;> rfl) fun κ α _ hmirrors => ?_
    unfold Machine.settle
    split
    · exact hmirrors.clear
    · exact hmirrors
  refine hmap.imp ?_
  rintro _ ⟨_, ⟨κ, hκ, rfl⟩, rfl⟩
  exact hκ.step hb hel

theorem Sure.afterElement (hsure : k.Sure z e) (h : k.Ready e) (hn : HasState e n s)
    (hs : k.Tame e.catalog (k.Stale V) s) (hreal : k.Real z ⟨⟨.after b i, topFrame, none⟩, s, false⟩)
    (hrun : afterElement k.options n ⟨topFrame, b, i, V⟩ e = .ok ((), e'))
    (hz : Within z e') : k.Sure z e' := by
  obtain ⟨block, el, hb, hel, hback⟩ := hreal
  have hsettled : k.settled b i s = if el.isRoot then s.clearExprs topFrame else s := by
    unfold Study.settled
    simp only [hb, bind_some, hel, any_some]
  unfold Exploring.afterElement Exploring.stateOf at hrun
  rw [query_bind, hn.state_eq] at hrun
  obtain ⟨block', d, hblock, hrest⟩ := bind_eq_ok.1 hrun
  obtain ⟨hb', rfl⟩ := blockOf_eq_ok h hblock
  cases hb.symm.trans hb'
  simp only [hel, any_some] at hrest
  rw [← hsettled] at hrest
  refine hsure.continueBlock h hn (hs.settled b i) (fun block' hb' => ?_) hrest hz
  cases hb.symm.trans hb'
  exact hback.settled hb hel

end PathScout.Study

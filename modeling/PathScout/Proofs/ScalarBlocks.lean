import PathScout.Proofs.LivenessLaws
import PathScout.Proofs.ReachLaws
import PathScout.Proofs.ScalarSteps
import PathScout.Proofs.Widening

/-!
# Blocks and runs

A pending node whose state stands for a configuration of a run leads to a node whose state stands
for the next one: past a step of a block, over an edge to the next block, or to the end of the
function. Entering a block may forget what a loop changes, and what is not needed any more.

* `Study.liveFrom`: what is live at a step of a block.
* `Study.Reached`: a node that stands for a configuration.
* `Study.enterBlock_spec`, `Study.continueBlock_spec`: entering a block, and one step in it.
* `Study.dispatch_spec`: continuing a pending node.
-/

namespace PathScout

open Exploring List Option Naming

namespace Study

variable {k : Study} {e e' : Exploration} {c d z : Catalog} {P : Symbol → Prop} {s t : State}
  {n pred : NodeId} {b b' : BlockId} {block : Block} {i count : Nat} {el : Element} {V : Visits}
  {x : VarId} {κ κ' : Config} {α : Assignment} {live : VarId → Prop} {cond : ExprId}
  {rest : Option State} {cases : List CaseTarget}

/-! ### Live variables of a block -/

/-- What is live when a block is entered. -/
def liveIn (k : Study) (b : BlockId) : VarSet := k.body.liveness.liveIn[b.index]?.getD []

/-- What is live at the end of a block. -/
def liveOut (k : Study) (block : Block) : VarSet :=
  block.terminator.successors.foldl (fun acc b => VarSet.union (k.liveIn b) acc) []

/-- What is live before the step of a block with the given number. -/
def liveFrom (k : Study) (block : Block) (i : Nat) : VarSet :=
  (block.elements.toList.drop i).foldr k.before (k.liveOut block)

theorem liveFrom_of_some (h : block.elements[i]? = some el) :
    k.liveFrom block i = k.before el (k.liveFrom block (i + 1)) := by
  obtain ⟨hi, rfl⟩ := Array.getElem?_eq_some_iff.1 h
  unfold liveFrom
  rw [drop_eq_getElem_cons (by simpa using hi), foldr_cons, Array.getElem_toList]

theorem liveFrom_of_none (h : block.elements[i]? = none) : k.liveFrom block i = k.liveOut block := by
  have hi : block.elements.toList.length ≤ i := by simpa using h
  rw [liveFrom, drop_eq_nil_of_le hi, foldr_nil]

/-- What is live at the first step of a block is live when the block is entered. -/
theorem live_of_liveFrom_zero (hb : k.body.graph.block? b = some block)
    (h : Live (k.liveFrom block 0) x) : Live (k.liveIn b) x := by
  refine k.isScalar.live b block hb x.index ?_
  unfold Liveness.beforeBlock
  rw [← Array.foldr_toList]
  exact h

/-- What is live when a block is entered is live at the end of every block before it. -/
theorem live_liveOut (hb : b ∈ block.terminator.successors) (h : Live (k.liveIn b) x) :
    Live (k.liveOut block) x := by
  have hfold : ∀ (bs : List BlockId) (acc : VarSet), b ∈ bs ∨ x.index ∈ acc →
      x.index ∈ bs.foldl (fun acc b => VarSet.union (k.liveIn b) acc) acc := by
    intro bs
    induction bs with
    | nil =>
      intro acc hacc
      exact hacc.resolve_left not_mem_nil
    | cons a bs ih =>
      intro acc hacc
      refine ih _ ?_
      rcases hacc with hmem | hacc
      · rcases mem_cons.1 hmem with rfl | hmem
        · exact .inr (VarSet.mem_union.2 (.inl h))
        · exact .inl hmem
      · exact .inr (VarSet.mem_union.2 (.inr hacc))
  exact hfold _ _ (.inl hb)

/-! ### One step -/

/-- The exploration has a node at a point from which a path is continued, and its state stands for
the configuration. -/
def Reached (k : Study) (z : Catalog) (g : PathGraph) (kind : PointKind) (live : VarSet)
    (κ : Config) (α : Assignment) : Prop :=
  ∃ n s, g.node? n = some ⟨⟨kind, topFrame, none⟩, s, false⟩ ∧ k.Agrees z (Live live) s κ α

theorem finishElement_eq {spot : Spot} {o : Outcome} (h : o.call = none) (e : Exploration) :
    finishElement k.options spot o e =
      Exploring.advance o.pred spot.after o.state spot.visits e := by
  unfold finishElement Exploring.advance
  rw [h]

/-- Asking about an event, with a node made first: the path ends, and no run gets past the event, or it
goes on in a state that differs in ranges only. -/
theorem asked_cases {kind kind' : PointKind} {event : Event} {f : NodeId → Exploring Unit}
    (h : k.Ready e) (hpred : HasState e pred t) (hs : k.Tame e.catalog (k.Stale V) s)
    (hpoint : PathNode.isResumed ⟨⟨kind, topFrame, none⟩, s, false⟩ = false) (hrun : (do
      let pred ← settle pred ⟨kind, topFrame, none⟩ s
      match ← consult k.options pred ⟨kind', topFrame, none⟩ count event with
      | none => return ()
      | some n => f n : Exploring Unit) e = .ok ((), e')) (hmeets : ∀ c, k.Meets c (k.Stale V) event) :
    (k.Evolves e e' ∧ ∀ {z live κ α}, e'.catalog ≤ z → k.Agrees z live s κ α →
      ¬ k.Passes z κ α event) ∨
    ∃ n d t, k.Evolves e d ∧ HasState d n t ∧ k.Tame d.catalog (k.Stale V) t ∧
      f n d = .ok ((), e') ∧ ∀ {z live κ α}, d.catalog ≤ z → k.Agrees z live s κ α →
        k.Passes z κ α event → k.Agrees z live t κ α := by
  obtain ⟨n, d, hsettle, hrest⟩ := bind_eq_ok.1 hrun
  obtain ⟨hd, hn⟩ := evolves_settle h hpred hpoint hsettle
  have hs1 := hs.mono h.regular hd.le
  obtain ⟨r, d1, hask, hrest1⟩ := bind_eq_ok.1 hrest
  have hasks := asks_consult hd.ready hn hs1 (fun _ => trivial) (hmeets _) hask
  have hd1 := hd.trans hasks.evolves
  cases r with
  | none =>
    obtain ⟨-, rfl⟩ := pure_eq_ok.1 hrest1
    exact .inl ⟨hd1, hasks.none_spec⟩
  | some n' =>
    obtain ⟨m, hstate, hs2, hkeep⟩ := hasks.some_spec hd.ready hs1
    exact .inr ⟨n', d1, _, hd1, hstate, hs2, hrest1, hkeep⟩

theorem processElement_spec (h : k.Ready e) (hpred : HasState e pred t)
    (hs : k.Tame e.catalog (k.Stale V) s)
    (hel : k.program.ScalarElement k.vars k.assigned el)
    (hrun : processElement k.options ⟨topFrame, b, i, V⟩ pred s el e = .ok ((), e')) :
    k.Evolves e e' ∧ ∀ {live z κ κ' α}, e'.catalog ≤ z →
      k.Agrees z (Live (k.before el live)) s κ α → κ.act? k.program k.blank el = some κ' →
      k.Reached z e'.graph (.after b i) live κ' α := by
  obtain ⟨hev, hnone⟩ | ⟨n, d1, t', hd1, hstate, hs2, hrest1, hkeep⟩ :=
    asked_cases h hpred hs rfl hrun fun _ => hel
  · exact ⟨hev, fun hz hagrees hact => absurd ⟨_, hact⟩ (hnone hz hagrees)⟩
  · obtain ⟨r, d2, heval, hrest2⟩ := bind_eq_ok.1 hrest1
    have hevaluates : ∀ live, k.Evaluates (k.Stale V) live d1 _ el r d2 := fun live =>
      evaluates_evalElement hd1.ready hstate hs2 (fun _ => trivial) rfl hel heval
    have hd2 := hd1.trans (hevaluates []).evolves
    cases r with
    | none =>
      obtain ⟨-, rfl⟩ := pure_eq_ok.1 hrest2
      refine ⟨hd2, fun {live z κ κ' α} hz hagrees hact => ?_⟩
      have hz1 := (hevaluates live).evolves.le.trans hz
      obtain ⟨o, ho, -⟩ := (hevaluates live).keeps hz (hkeep hz1 hagrees ⟨_, hact⟩) hact
      cases ho
    | some o =>
      obtain ⟨hcall, htame⟩ := (hevaluates []).tame rfl
      have hrest3 := (finishElement_eq hcall d2).symm.trans hrest2
      obtain ⟨hadvance, m', hnode⟩ := evolves_advance hd2.ready rfl htame hrest3
      refine ⟨hd2.trans hadvance, fun {live z κ κ' α} hz hagrees hact => ?_⟩
      have hz2 := hadvance.le.trans hz
      have hz1 := (hevaluates live).evolves.le.trans hz2
      obtain ⟨_, ⟨⟩, hagrees'⟩ := (hevaluates live).keeps hz2 (hkeep hz1 hagrees ⟨_, hact⟩) hact
      exact ⟨m', o.state, hnode, hagrees'⟩

/-! ### Leaving a block -/

/-- The state differs in ranges only. -/
def Differs (c : Catalog) (P : Symbol → Prop) (s t : State) : Prop :=
  ∃ m, t = { s with constraints := m } ∧ TameConstraints c P m

theorem Differs.tame (h : Differs c P s t) (hs : k.Tame c P s) : k.Tame c P t := by
  obtain ⟨m, rfl, hm⟩ := h
  exact { hs with constraints := hm }

theorem Differs.mono (h : Differs c P s t) (hcd : c ≤ d) : Differs d P s t := by
  obtain ⟨m, rfl, hm⟩ := h
  exact ⟨m, rfl, hm.mono hcd⟩

theorem Tame.differs (h : k.Tame c P s) : Differs c P s s := ⟨s.constraints, rfl, h.constraints⟩

variable {v : Value} {truth : Bool}

theorem Differs.assume {t' : State} (h : Differs c P s t) (hc : c.Arithmetic) (hv : v.Plain c P)
    (ht : t.assume c v truth = some t') : Differs c P s t' := by
  obtain ⟨m, rfl, hm⟩ := h
  obtain ⟨m', hm', rfl⟩ := map_eq_some_iff.1 ht
  exact ⟨m', rfl, hm.assume hc hv hm'⟩

/-- A condition that holds in a run may be assumed. -/
theorem Agrees.assume {n : Int} (h : k.Agrees z live t κ α) (ht : Differs c P s t) (hc : c.Arithmetic)
    (hv : v.Plain c P) (hcz : c ≤ z) (hd : v.Denotes z α n) (htruth : decide (n ≠ 0) = truth) :
    ∃ t', t.assume c v truth = some t' ∧ k.Agrees z live t' κ α := by
  obtain ⟨m, rfl, hm⟩ := ht
  subst htruth
  have hrange : ∀ x rs, m.get? x = some rs → z.eval α x ∈ rs := fun x rs hx => h.range hx
  obtain ⟨m', hm'⟩ := exists_assume hc hm hv hcz hrange hd
  refine ⟨{ s with constraints := m' }, ?_, ?_⟩
  · rw [State.assume, hm']
    rfl
  · exact h.withConstraints (assume_holds hc hm hv hcz hrange hd hm')

/-- A path goes on over an edge, if it does. -/
theorem evolves_followEdge {way : Option State} (h : k.Ready e)
    (hs : ∀ t, way = some t → k.Tame e.catalog (k.Stale V) t)
    (hrun : way.forM (followEdge topFrame V n b b') e = .ok ((), e')) :
    k.Evolves e e' ∧ ∀ t, way = some t →
      ∃ m, e'.graph.node? m = some ⟨⟨.edge b b', topFrame, none⟩, t, false⟩ := by
  cases way with
  | none =>
    obtain ⟨-, rfl⟩ := pure_eq_ok.1 hrun
    exact ⟨.refl h, fun t ht => nomatch ht⟩
  | some t =>
    obtain ⟨hev, hnode⟩ := evolves_advance h rfl (hs t rfl) hrun
    refine ⟨hev, ?_⟩
    rintro _ ⟨⟩
    exact hnode

/-- What follows a block stands for the configurations that follow it in a run. -/
def Leaves (k : Study) (z : Catalog) (g : PathGraph) (b : BlockId) (t : Terminator) (κ : Config)
    (α : Assignment) : Prop :=
  (∀ b', κ.next? t = some b' → k.Reached z g (.edge b b') (k.liveIn b') κ α) ∧
    (t = .exit → k.Reached z g .finish [] κ α)

/-- Both ways of a branch are tame, and a run takes the one that its condition says. -/
theorem branchStates_spec (hc : k.Regular c) (hs : k.Tame c P s) (hv : v.Plain c P) :
    (∀ t, (branchStates c s v).1 = some t → k.Tame c P t) ∧
      (∀ t, (branchStates c s v).2 = some t → k.Tame c P t) ∧
      ∀ {z live κ α n}, c ≤ z → k.Agrees z live s κ α → v.Denotes z α n →
        ∃ t, (if n ≠ 0 then (branchStates c s v).1
          else (branchStates c s v).2) = some t ∧ k.Agrees z live t κ α := by
  have htame : ∀ truth t, s.assume c v truth = some t → k.Tame c P t := fun truth t ht =>
    (hs.differs.assume hc.arithmetic hv ht).tame hs
  unfold branchStates
  split
  · next hunknown =>
    refine ⟨?_, ?_, fun {z live κ α n} _ _ hd => ?_⟩
    · rintro t ⟨⟩
      exact hs
    · rintro t ⟨⟩
      exact hs
    · rw [hd.isUnknown_eq, hd.isUndefined_eq] at hunknown
      cases hunknown
  · refine ⟨htame true, htame false, fun {z live κ α n} hcz hagrees hd => ?_⟩
    split
    · next hne => exact hagrees.assume hs.differs hc.arithmetic hv hcz hd (decide_eq_true hne)
    · next hzero => exact hagrees.assume hs.differs hc.arithmetic hv hcz hd (decide_eq_false hzero)

theorem branch_spec {yes no : BlockId} (h : k.Ready e) (hn : HasState e n s)
    (hs : k.Tame e.catalog (k.Stale V) s) (hcond : k.program.IsNumber cond) (hrun : (do
      let state ← stateOf n
      let (taken, other) ← query fun e =>
        branchStates e.catalog state (state.value topFrame cond)
      taken.forM (followEdge topFrame V n b yes)
      other.forM (followEdge topFrame V n b no) : Exploring Unit) e = .ok ((), e')) :
    k.Evolves e e' ∧ ∀ {z live κ α i}, e'.catalog ≤ z → k.Agrees z live s κ α →
      κ.int? cond = some i → ∃ n t, e'.graph.node? n =
        some ⟨⟨.edge b (if i ≠ 0 then yes else no), topFrame, none⟩, t, false⟩ ∧
        k.Agrees z live t κ α := by
  unfold stateOf at hrun
  simp only [query_bind, hn.state_eq] at hrun
  have hplain := hs.plain_value hcond.2
  obtain ⟨htaken, hother, hfollow⟩ := branchStates_spec h.regular hs hplain
  obtain ⟨_, d, htrue, hfalse⟩ := bind_eq_ok.1 hrun
  obtain ⟨hd, hyes⟩ := evolves_followEdge h htaken htrue
  obtain ⟨hd', hno⟩ := evolves_followEdge hd.ready
    (fun t ht => (hother t ht).mono h.regular hd.le) hfalse
  refine ⟨hd.trans hd', fun {z live κ α i} hz hagrees hi => ?_⟩
  have hcz := (hd.trans hd').le.trans hz
  obtain ⟨t, ht, hagrees'⟩ := hfollow hcz hagrees (hagrees.value_int hi).1
  by_cases hne : i ≠ 0
  · rw [if_pos hne] at ht ⊢
    obtain ⟨m, hm⟩ := hyes t ht
    exact ⟨m, t, hd'.node hm, hagrees'⟩
  · rw [if_neg hne] at ht ⊢
    obtain ⟨m, hm⟩ := hno t ht
    exact ⟨m, t, hm, hagrees'⟩

/-! ### Switches -/

/-- Whether a value equals a constant, as a number. -/
theorem foldInts_eq_int (l r : Int) : foldInts .eq l r .int = .int (if l = r then 1 else 0) := by
  rw [foldInts_comparison rfl rfl]
  by_cases h : l = r
  · simp [BinaryOp.holds, h]
    decide
  · simp [BinaryOp.holds, h]
    decide

/-- The ways of a switch differ in ranges only, and a run takes the first case that has its value,
or else the rest. -/
structure Switches (k : Study) (c : Catalog) (P : Symbol → Prop) (s : State) (v : Value)
    (cases : List CaseTarget) (before : Option State)
    (out : (List (BlockId × State) × Option State) × Catalog) : Prop where
  le : c ≤ out.2
  regular : k.Regular out.2
  way {w : BlockId × State} : w ∈ out.1.1 → Differs out.2 P s w.2
  rest {t : State} : out.1.2 = some t → Differs out.2 P s t
  taken {z : Catalog} {live : VarId → Prop} {κ : Config} {α : Assignment} {n : Int}
    {target : CaseTarget} : out.2 ≤ z → k.Agrees z live s κ α → v.Denotes z α n →
    cases.find? (fun a => CType.int.wrap a.value = n) = some target →
    ∃ t, (target.block, t) ∈ out.1.1 ∧ k.Agrees z live t κ α
  missed {z : Catalog} {live : VarId → Prop} {κ : Config} {α : Assignment} {n : Int} {t : State} :
    out.2 ≤ z → v.Denotes z α n →
    cases.find? (fun a => CType.int.wrap a.value = n) = none → before = some t →
    k.Agrees z live t κ α → ∃ t', out.1.2 = some t' ∧ k.Agrees z live t' κ α

/-- A case that is told apart from those after it. -/
theorem switchStates_cons {type : CType} {target : CaseTarget} {more : List CaseTarget}
    (h : ¬ (v.isUnknown || v.isUndefined) = true) (c : Catalog) :
    switchStates s v type (target :: more) rest c =
      let matched := binary .eq v (.ofInt target.value type) .int c
      let out := switchStates s v type more
        (rest.bind fun r => r.assume matched.2 matched.1 false) matched.2
      ((((s.assume matched.2 matched.1 true).map (target.block, ·)).toList ++ out.1.1, out.1.2),
        out.2) :=
  congrFun (if_neg h) c

theorem switches_switchStates (hc : k.Regular c) (hs : k.Tame c P s) (hv : v.Plain c P)
    (hrest : ∀ t, rest = some t → Differs c P s t) :
    k.Switches c P s v cases rest (switchStates s v .int cases rest c) := by
  induction cases generalizing c rest with
  | nil =>
    exact
      { le := le_rfl
        regular := hc
        way := fun hw => nomatch hw
        rest := fun ht => hrest _ ht
        taken := fun _ _ _ ha => nomatch ha
        missed := fun _ _ _ ht hagrees => ⟨_, ht, hagrees⟩ }
  | cons target more ih =>
    by_cases hunknown : (v.isUnknown || v.isUndefined) = true
    · have hnone : ∀ {z α n}, ¬ v.Denotes z α n := fun {z α n} hd => by
        rw [hd.isUnknown_eq, hd.isUndefined_eq] at hunknown
        cases hunknown
      have hmore := ih hc hs hv hrest
      have hout : switchStates s v .int (target :: more) rest c =
          (((target.block, s) :: (switchStates s v .int more rest c).1.1,
            (switchStates s v .int more rest c).1.2),
            (switchStates s v .int more rest c).2) := congrFun (if_pos hunknown) c
      rw [hout]
      refine ⟨hmore.le, hmore.regular, fun {w} hw => ?_, hmore.rest,
        fun _ _ hd => absurd hd hnone, fun _ hd => absurd hd hnone⟩
      rcases mem_cons.1 hw with rfl | hw
      · exact hs.differs.mono hmore.le
      · exact hmore.way hw
    · have hone : (Value.ofInt target.value .int).Plain c P := trivial
      have hmatch := computes_binary hc.arithmetic .eq hv hone
      have hc1 := hc.of_computes hmatch
      have hs1 := hs.mono hc hmatch.le
      rw [switchStates_cons hunknown]
      dsimp only
      generalize binary .eq v (.ofInt target.value .int) .int c = matched
        at hmatch hc1 hs1 ⊢
      have hno : ∀ t, (rest.bind fun r => r.assume matched.2 matched.1 false) = some t →
          Differs matched.2 P s t := by
        intro t ht
        obtain ⟨r, hr, ht⟩ := bind_eq_some_iff.1 ht
        exact ((hrest r hr).mono hmatch.le).assume hc1.arithmetic hmatch.plain ht
      have hmore := ih hc1 hs1 (hv.mono hmatch.le) hno
      generalize switchStates s v .int more _ matched.2 = out at hmore ⊢
      -- the comparison is true in a run exactly if the case has the value of the run
      have hcompare : ∀ {z α n}, out.2 ≤ z → v.Denotes z α n →
          matched.1.Denotes z α (if n = CType.int.wrap target.value then 1 else 0) := by
        intro z α n hz hd
        have hcz := hmatch.le.trans (hmore.le.trans hz)
        refine (hmatch.denotes ⟨n, _, hd.of_le hv hcz, rfl, ?_⟩).mono hmatch.plain
          (hmore.le.trans hz)
        exact foldInts_eq_int n _
      refine
        { le := hmatch.le.trans hmore.le
          regular := hmore.regular
          way := fun {w} hw => ?_
          rest := hmore.rest
          taken := fun {z live κ α n a} hz hagrees hd ha => ?_
          missed := fun {z live κ α n t} hz hd ha ht hagrees => ?_ }
      · rcases mem_append.1 hw with hw | hw
        · obtain ⟨t, ht, rfl⟩ := map_eq_some_iff.1 (mem_toList.1 hw)
          exact (hs1.differs.assume hc1.arithmetic hmatch.plain ht).mono hmore.le
        · exact hmore.way hw
      · have hz1 := hmore.le.trans hz
        by_cases hvalue : CType.int.wrap target.value = n
        · rw [find?_cons_of_pos (by simpa using hvalue)] at ha
          cases ha
          have hcompare' := hcompare hz hd
          rw [if_pos hvalue.symm] at hcompare'
          obtain ⟨t, ht, hagrees'⟩ := hagrees.assume hs1.differs hc1.arithmetic hmatch.plain hz1
            hcompare' (decide_eq_true one_ne_zero)
          refine ⟨t, mem_append.2 (.inl ?_), hagrees'⟩
          rw [ht]
          exact mem_singleton.2 rfl
        · rw [find?_cons_of_neg (by simpa using hvalue)] at ha
          obtain ⟨t, ht, hagrees'⟩ := hmore.taken hz hagrees hd ha
          exact ⟨t, mem_append.2 (.inr ht), hagrees'⟩
      · have hz1 := hmore.le.trans hz
        rw [find?_eq_none] at ha
        have hne : n ≠ CType.int.wrap target.value := fun he =>
          ha target mem_cons_self (by simpa using he.symm)
        have hcompare' := hcompare hz hd
        rw [if_neg hne] at hcompare'
        obtain ⟨t', ht', hagrees'⟩ := hagrees.assume ((hrest t ht).mono hmatch.le) hc1.arithmetic
          hmatch.plain hz1 hcompare' (decide_eq_false (not_not.2 rfl))
        refine hmore.missed hz hd (find?_eq_none.2 fun a ha' => ?_) (by rw [ht]; exact ht') hagrees'
        exact ha a (mem_cons_of_mem _ ha')

/-- A path goes on over several edges. -/
theorem evolves_followEdges {ways : List (BlockId × State)} (h : k.Ready e)
    (hs : ∀ w ∈ ways, k.Tame e.catalog (k.Stale V) w.2)
    (hrun : (ways.forM fun (target, s) => followEdge topFrame V n b target s :
      Exploring Unit) e = .ok ((), e')) :
    k.Evolves e e' ∧ ∀ w ∈ ways,
      ∃ m, e'.graph.node? m = some ⟨⟨.edge b w.1, topFrame, none⟩, w.2, false⟩ := by
  induction ways generalizing e with
  | nil =>
    obtain ⟨-, rfl⟩ := pure_eq_ok.1 hrun
    exact ⟨.refl h, fun w hw => nomatch hw⟩
  | cons w ways ih =>
    obtain ⟨_, d, hfirst, hmore⟩ := bind_eq_ok.1 hrun
    obtain ⟨hd, m, hm⟩ := evolves_advance h rfl (hs w mem_cons_self) hfirst
    obtain ⟨hd', hnodes⟩ := ih hd.ready
      (fun w hw => (hs w (mem_cons_of_mem _ hw)).mono h.regular hd.le) hmore
    refine ⟨hd.trans hd', fun w' hw' => ?_⟩
    rcases mem_cons.1 hw' with rfl | hw'
    · exact ⟨m, hd'.node hm⟩
    · exact hnodes w' hw'

theorem switch_spec {default : BlockId} (h : k.Ready e) (hn : HasState e n s)
    (hs : k.Tame e.catalog (k.Stale V) s) (hcond : k.program.IsNumber cond) (hrun : (do
      let state ← stateOf n
      let type ← query fun e => (e.catalog.program.expr cond).type
      let (ways, rest) ← naming
        (switchStates state (state.value topFrame cond) type cases (some state))
      ways.forM fun (target, s) => followEdge topFrame V n b target s
      rest.forM (followEdge topFrame V n b default) : Exploring Unit) e = .ok ((), e')) :
    k.Evolves e e' ∧ ∀ {z live κ α i}, e'.catalog ≤ z → k.Agrees z live s κ α →
      κ.int? cond = some i → ∃ n t, e'.graph.node? n = some ⟨⟨.edge b
        (((cases.find? fun a => CType.int.wrap a.value = i).map (·.block)).getD default),
        topFrame, none⟩, t, false⟩ ∧ k.Agrees z live t κ α := by
  unfold stateOf at hrun
  simp only [query_bind, hn.state_eq, naming_bind, h.regular.program, hcond.1] at hrun
  have hplain := hs.plain_value hcond.2
  have hswitch : k.Switches e.catalog (k.Stale V) s (s.value topFrame cond) cases (some s) _ :=
    switches_switchStates h.regular hs hplain fun t ht => some.inj ht ▸ hs.differs
  generalize switchStates s (s.value topFrame cond) .int cases (some s) e.catalog = out
    at hrun hswitch
  have hnaming := evolves_naming h hswitch.le hswitch.regular
  have hs1 := hs.mono h.regular hswitch.le
  obtain ⟨_, d, hways, hdefault⟩ := bind_eq_ok.1 hrun
  obtain ⟨hd, hnodes⟩ := evolves_followEdges hnaming.ready (fun w hw => (hswitch.way hw).tame hs1) hways
  obtain ⟨hd', hrest⟩ := evolves_followEdge hd.ready
    (fun t ht => ((hswitch.rest ht).tame hs1).mono hswitch.regular hd.le) hdefault
  refine ⟨(hnaming.trans hd).trans hd', fun {z live κ α i} hz hagrees hi => ?_⟩
  have hcz := (hd.trans hd').le.trans hz
  have hden := (hagrees.value_int hi).1
  cases hfind : cases.find? fun a => CType.int.wrap a.value = i with
  | some target =>
    obtain ⟨t, ht, hagrees'⟩ := hswitch.taken hcz hagrees hden hfind
    obtain ⟨m, hm⟩ := hnodes _ ht
    exact ⟨m, t, hd'.node hm, hagrees'⟩
  | none =>
    obtain ⟨t, ht, hagrees'⟩ := hswitch.missed hcz hden hfind rfl hagrees
    obtain ⟨m, hm⟩ := hrest t ht
    exact ⟨m, t, hm, hagrees'⟩

/-! ### The end of a block -/

theorem exit_spec (h : k.Ready e) (hpred : HasState e pred t) (hs : k.Tame e.catalog (k.Stale V) s)
    (hrun : (do
      let pred ← settle pred ⟨.exit b, topFrame, none⟩ s
      match ← consult k.options pred ⟨.finish, topFrame, none⟩ count .functionEnds with
      | none => return ()
      | some n => Exploring.advance n ⟨.finish, topFrame, none⟩ (← stateOf n) V :
        Exploring Unit) e = .ok ((), e')) :
    k.Evolves e e' ∧ ∀ {z live κ α}, e'.catalog ≤ z → k.Agrees z (Live live) s κ α →
      k.Reached z e'.graph .finish live κ α := by
  obtain ⟨hev, hnone⟩ | ⟨n, d, t', hd, hstate, hs', hrest, hkeep⟩ :=
    asked_cases h hpred hs rfl hrun fun _ => trivial
  · exact ⟨hev, fun hz hagrees => absurd trivial (hnone hz hagrees)⟩
  · simp only [stateOf, query_bind, hstate.state_eq] at hrest
    obtain ⟨hadvance, m, hnode⟩ := evolves_advance hd.ready rfl hs' hrest
    exact ⟨hd.trans hadvance, fun hz hagrees =>
      ⟨m, _, hnode, hkeep (hadvance.le.trans hz) hagrees trivial⟩⟩

/-! ### The function that is explored -/

theorem functionIn?_eq (h : k.Ready e) :
    e.catalog.program.functionIn? e.frames topFrame = some (k.program.function k.function) := by
  rw [Program.functionIn?, h.frame, h.regular.program]
  rfl

theorem functionOf_eq (h : k.Ready e) :
    functionOf topFrame e = .ok (k.program.function k.function, e) := by
  unfold functionOf
  rw [query_bind, functionIn?_eq h]
  rfl

theorem bodyOf_eq (h : k.Ready e) : bodyOf topFrame e = .ok (k.body, e) := by
  refine bind_eq_ok.2 ⟨_, e, functionOf_eq h, ?_⟩
  rw [k.isScalar.body_eq]
  rfl

theorem blockOf_eq_ok (h : k.Ready e) (hrun : blockOf topFrame b e = .ok (block, e')) :
    k.body.graph.block? b = some block ∧ e' = e := by
  obtain ⟨body, d, hbody, hrest⟩ := bind_eq_ok.1 hrun
  rw [bodyOf_eq h] at hbody
  cases hbody
  cases hblock : k.body.graph.block? b with
  | some block' =>
    rw [hblock] at hrest
    obtain ⟨rfl, rfl⟩ := pure_eq_ok.1 hrest
    exact ⟨rfl, rfl⟩
  | none =>
    rw [hblock] at hrest
    obtain ⟨function, d, -, hthrow⟩ := bind_eq_ok.1 hrest
    cases hthrow

theorem mem_blocks (h : k.body.graph.block? b = some block) : block ∈ k.body.graph.blocks :=
  Array.mem_of_getElem? h

/-! ### Continuing in a block -/

/-- **Leaving a block follows every run.** -/
theorem branchOut_spec (h : k.Ready e) (hpred : HasState e pred t)
    (hs : k.Tame e.catalog (k.Stale V) s) (hb : k.body.graph.block? b = some block)
    (hrun : branchOut k.options pred s b topFrame V e = .ok ((), e')) :
    k.Evolves e e' ∧ ∀ {z κ α}, e'.catalog ≤ z → k.Agrees z (Live (k.liveOut block)) s κ α →
      k.Leaves z e'.graph b block.terminator κ α := by
  unfold branchOut at hrun
  obtain ⟨block', d, hblock, hrest⟩ := bind_eq_ok.1 hrun
  obtain ⟨hb', rfl⟩ := blockOf_eq_ok h hblock
  cases hb.symm.trans hb'
  have hscalar := k.isScalar.terminator block (mem_blocks hb)
  have hlive : ∀ {b'}, b' ∈ block.terminator.successors → ∀ y, Live (k.liveIn b') y →
      Live (k.liveOut block) y := fun hb' y hy => live_liveOut hb' hy
  cases hterm : block.terminator with
  | goto target kind =>
    simp only [hterm] at hrest
    obtain ⟨hev, m, hm⟩ := evolves_advance h rfl hs hrest
    refine ⟨hev, fun {z κ α} hz hagrees => ⟨fun b' hb' => ?_, fun hexit => nomatch hexit⟩⟩
    cases hb'
    exact ⟨m, s, hm, hagrees.mono (hlive (by simp [hterm, Terminator.successors]))⟩
  | branch cond yes no kind location =>
    simp only [hterm, Program.ScalarTerminator] at hrest hscalar
    rcases asked_cases h hpred hs rfl hrest (fun _ => hscalar) with
      ⟨hev, hnone⟩ | ⟨n, d, t', hd, hstate, hs', hrest', hkeep⟩
    · refine ⟨hev, fun {z κ α} hz hagrees => ⟨fun b' hb' => ?_, fun hexit => nomatch hexit⟩⟩
      obtain ⟨i, hi, -⟩ := bind_eq_some_iff.1 hb'
      exact absurd ⟨i, hi⟩ (hnone hz hagrees)
    · obtain ⟨hd', hfollow⟩ := branch_spec hd.ready hstate hs' hscalar hrest'
      refine ⟨hd.trans hd', fun {z κ α} hz hagrees => ⟨fun b' hb' => ?_, fun hexit => nomatch hexit⟩⟩
      obtain ⟨i, hi, hb'⟩ := bind_eq_some_iff.1 hb'
      cases hb'
      obtain ⟨m, t'', hm, hagrees'⟩ := hfollow hz (hkeep (hd'.le.trans hz) hagrees ⟨i, hi⟩) hi
      refine ⟨m, t'', hm, hagrees'.mono (hlive ?_)⟩
      rw [hterm]
      split
      · exact mem_cons_self
      · exact mem_cons_of_mem _ mem_cons_self
  | switch cond cases default defaultLocation location =>
    simp only [hterm, Program.ScalarTerminator] at hrest hscalar
    rcases asked_cases h hpred hs rfl hrest (fun _ => hscalar) with
      ⟨hev, hnone⟩ | ⟨n, d, t', hd, hstate, hs', hrest', hkeep⟩
    · refine ⟨hev, fun {z κ α} hz hagrees => ⟨fun b' hb' => ?_, fun hexit => nomatch hexit⟩⟩
      obtain ⟨i, hi, -⟩ := bind_eq_some_iff.1 hb'
      exact absurd ⟨i, hi⟩ (hnone hz hagrees)
    · obtain ⟨hd', hfollow⟩ := switch_spec hd.ready hstate hs' hscalar hrest'
      refine ⟨hd.trans hd', fun {z κ α} hz hagrees => ⟨fun b' hb' => ?_, fun hexit => nomatch hexit⟩⟩
      obtain ⟨i, hi, hb'⟩ := bind_eq_some_iff.1 hb'
      cases hb'
      obtain ⟨m, t'', hm, hagrees'⟩ := hfollow hz (hkeep (hd'.le.trans hz) hagrees ⟨i, hi⟩) hi
      refine ⟨m, t'', hm, hagrees'.mono (hlive ?_)⟩
      rw [hterm, Terminator.successors]
      cases hfind : cases.find? fun a => CType.int.wrap a.value = i with
      | none => exact mem_append.2 (.inr (mem_singleton.2 rfl))
      | some target =>
        exact mem_append.2 (.inl (mem_map.2 ⟨target, mem_of_find?_eq_some hfind, rfl⟩))
  | exit =>
    simp only [hterm] at hrest
    obtain ⟨hev, hfinish⟩ := exit_spec h hpred hs hrest
    refine ⟨hev, fun {z κ α} hz hagrees => ⟨fun b' hb' => (nomatch hb'), fun _ => ?_⟩⟩
    exact hfinish hz (hagrees.mono fun y hy => nomatch hy)

/-- The state at a step of a block leads on for every run that it stands for. -/
def Proceeds (k : Study) (z : Catalog) (g : PathGraph) (b : BlockId) (i : Nat) (s : State) : Prop :=
  ∀ {block κ α}, k.body.graph.block? b = some block →
    k.Agrees z (Live (k.liveFrom block i)) s κ α →
    (∀ el κ', block.elements[i]? = some el → κ.act? k.program k.blank el = some κ' →
      k.Reached z g (.after b i) (k.liveFrom block (i + 1)) κ' α) ∧
    (block.elements[i]? = none → k.Leaves z g b block.terminator κ α)

/-- **One step in a block follows every run.** -/
theorem continueBlock_spec (h : k.Ready e) (hpred : HasState e pred t)
    (hs : k.Tame e.catalog (k.Stale V) s)
    (hrun : continueBlock k.options pred s ⟨topFrame, b, i, V⟩ e = .ok ((), e')) :
    k.Evolves e e' ∧ ∀ {z}, e'.catalog ≤ z → k.Proceeds z e'.graph b i s := by
  unfold continueBlock at hrun
  obtain ⟨block, d, hblock, hrest⟩ := bind_eq_ok.1 hrun
  obtain ⟨hb, rfl⟩ := blockOf_eq_ok h hblock
  dsimp only at hrest
  cases hel : block.elements[i]? with
  | some el =>
    simp only [hel] at hrest
    have hscalar := k.isScalar.element block (mem_blocks hb) el (Array.mem_of_getElem? hel)
    obtain ⟨hev, hfollow⟩ := processElement_spec h hpred hs hscalar hrest
    refine ⟨hev, fun {z} hz {block' κ α} hb' hagrees => ?_⟩
    cases hb.symm.trans hb'
    rw [liveFrom_of_some hel] at hagrees
    refine ⟨fun el' κ' hel' hact => ?_, fun hnone => nomatch hel.symm.trans hnone⟩
    cases hel.symm.trans hel'
    exact hfollow hz hagrees hact
  | none =>
    simp only [hel] at hrest
    obtain ⟨hev, hfollow⟩ := branchOut_spec h hpred hs hb hrest
    refine ⟨hev, fun {z} hz {block' κ α} hb' hagrees => ?_⟩
    cases hb.symm.trans hb'
    rw [liveFrom_of_none hel] at hagrees
    exact ⟨fun el' κ' hel' _ => (nomatch hel.symm.trans hel'), fun _ => hfollow hz hagrees⟩

/-- The state after a step: no expression is kept after a statement. -/
def settled (k : Study) (b : BlockId) (i : Nat) (s : State) : State :=
  if ((k.body.graph.block? b).bind (·.elements[i]?)).any (·.isRoot) then s.clearExprs topFrame else s

theorem Tame.settled (hs : k.Tame c P s) (b : BlockId) (i : Nat) : k.Tame c P (k.settled b i s) := by
  unfold Study.settled
  split
  · exact hs.clearExprs
  · exact hs

theorem Agrees.settled (h : k.Agrees z live s κ α) (hb : k.body.graph.block? b = some block)
    (hel : block.elements[i]? = some el) : k.Agrees z live (k.settled b i s) (κ.settle el) α := by
  unfold Study.settled Config.settle
  rw [hb]
  simp only [bind_some, hel, any_some]
  split
  · exact h.clear
  · exact h

theorem afterElement_spec (h : k.Ready e) (hn : HasState e n s) (hs : k.Tame e.catalog (k.Stale V) s)
    (hrun : afterElement k.options n ⟨topFrame, b, i, V⟩ e = .ok ((), e')) :
    k.Evolves e e' ∧ ∀ {z}, e'.catalog ≤ z → k.Proceeds z e'.graph b (i + 1) (k.settled b i s) := by
  unfold afterElement stateOf at hrun
  rw [query_bind, hn.state_eq] at hrun
  obtain ⟨block, d, hblock, hrest⟩ := bind_eq_ok.1 hrun
  obtain ⟨hb, rfl⟩ := blockOf_eq_ok h hblock
  have hsettled : k.settled b i s =
      if block.elements[i]?.any (·.isRoot) then s.clearExprs topFrame else s := by
    rw [settled, hb]
    rfl
  dsimp only at hrest
  rw [← hsettled] at hrest
  exact continueBlock_spec h hn (hs.settled b i) hrest

end Study

end PathScout

import PathScout.Proofs.ScalarBlocks

/-!
# Entering blocks

When a block is entered, what is not needed any more is removed, a loop that was entered as often as
allowed forgets its variables, and a path that entered a block too often ends with a note.

* `Study.liveMarks_spec`: everything that is needed is marked.
* `Study.widenLoop_spec`: forgetting the variables of a loop loses no run.
* `Study.noteCoverage_spec`: a path that is given up is noted.
* `Study.enterBlock_spec`, `Study.dispatch_spec`: entering a block, continuing a pending node.
-/

namespace PathScout.Study

open Exploring List

variable {k : Study} {e e' : Exploration} {c z : Catalog} {s t : State} {n pred : NodeId} {b : BlockId}
  {block : Block} {i count : Nat} {V : Visits} {κ : Config} {α : Assignment} {m : Marks} {a : ExprId}

theorem ancestors_eq (h : k.Ready e) : Frames.ancestors e.frames topFrame = [topFrame] := by
  unfold Frames.ancestors
  cases e.frames.size with
  | zero => rfl
  | succ n =>
    rw [Frames.ancestorsTo, Frames.caller?, h.frame]
    rfl

/-! ### What is marked -/

theorem mem_liveVars {x : VarId} (hx : x ∈ k.vars) (hlive : Live (k.liveIn b) x) :
    x ∈ liveVars (k.program.function k.function) k.body (some b) := by
  refine mem_filter.2 ⟨hx, ?_⟩
  show (_ || _) = true
  rw [Bool.or_eq_true]
  exact .inr (contains_iff_mem.2 hlive)

theorem liveMarks_spec (h : k.Ready e)
    (hrun : liveMarks s [topFrame] (some b) e = .ok (m, e')) :
    k.Evolves e e' ∧ k.Marked e'.catalog (Live (k.liveIn b)) s.env m := by
  unfold liveMarks at hrun
  rw [query_bind] at hrun
  dsimp only at hrun
  have hmarks : (do
      let m ← markFrames e.catalog.program e.frames [topFrame] (some b) {}
      Naming.query fun c => m.markReachable c s.store s.env : Naming Marks) = (do
      let m ← (liveVars (k.program.function k.function) k.body (some b)).foldlM markVar {}
      Naming.query fun c => m.markReachable c s.store s.env : Naming Marks) := by
    funext c
    unfold markFrames
    rw [functionIn?_eq h]
    dsimp only
    rw [k.isScalar.body_eq]
    rfl
  rw [hmarks] at hrun
  obtain ⟨hle, hreg, hmarked⟩ := markReachable_spec (s := s) h.regular
    (liveVars (k.program.function k.function) k.body (some b))
    fun x hx hlive => mem_liveVars hx hlive
  cases hrun
  exact ⟨evolves_naming h hle hreg, hmarked⟩

/-! ### What is forgotten -/

section

variable (hb : k.body.graph.block? b = some block) (hloop : block.loopHead = true)
  (ha : loopExpr? block = some a) (hcount : V.count topFrame b + 1 = k.options.maxBlockVisits)
include hb hloop ha hcount

/-- A loop has no symbols of its own before it was entered as often as allowed. -/
theorem not_stale_loopSymbol {r : RegionId} : ¬ k.Stale V (loopSymbol a count r) := by
  rintro ⟨b', block', hb', hloop', ha', hle⟩
  obtain rfl := k.isScalar.loopExpr b b' block block' hb hb' hloop hloop' a ha ha'
  omega

theorem stale_enter (type : CType) (count : Nat) (tag : Option RegionId) :
    k.Stale (V.enter topFrame b) (.conjured a topFrame type count tag) := by
  refine ⟨b, block, hb, hloop, ha, ?_⟩
  rw [Visits.count_enter_self]
  exact hcount.ge

end

/-- **Forgetting the variables of a loop loses no run.** -/
theorem widenLoop_spec (h : k.Ready e) (hs : k.Tame e.catalog (k.Stale V) s)
    (hb : k.body.graph.block? b = some block) (hloop : block.loopHead = true)
    (hcount : V.count topFrame b + 1 = k.options.maxBlockVisits)
    (hrun : widenLoop k.options s block topFrame count e = .ok (t, e')) :
    k.Evolves e e' ∧ t.env = s.env ∧ k.Tame e'.catalog (k.Stale (V.enter topFrame b)) t ∧
      ∀ {z live κ α}, e'.catalog ≤ z → k.Agrees z live s κ α →
        ∃ β : Assignment, (∀ q t, β.value (.regionValue q t) = α.value (.regionValue q t)) ∧
          k.Agrees z live t κ β := by
  have hPQ : ∀ a, k.Stale V a → k.Stale (V.enter topFrame b) a := fun a ha => ha.enter b
  unfold widenLoop at hrun
  cases ha : loopExpr? block with
  | none =>
    rw [ha] at hrun
    obtain ⟨rfl, rfl⟩ := pure_eq_ok.1 hrun
    exact ⟨.refl h, rfl, hs.imp hPQ, fun _ hagrees => ⟨_, fun _ _ => rfl, hagrees⟩⟩
  | some a =>
    rw [ha] at hrun
    obtain ⟨function, d, hfunction, hrest⟩ := bind_eq_ok.1 hrun
    rw [functionOf_eq h] at hfunction
    cases hfunction
    have hwiden : naming (k.widen a count s) e = .ok (t, e') := by
      rw [k.isScalar.body_eq] at hrest
      exact hrest
    have hQ := stale_enter hb hloop ha hcount
    obtain ⟨hle, hreg, htame, ⟨σ, hσ⟩, -⟩ := widen_spec h.regular (hs.imp hPQ) count hQ
    have hfollow : ∀ {z live κ α}, (k.widen a count s e.catalog).2 ≤ z → k.Agrees z live s κ α →
        ∃ β : Assignment, (∀ q t, β.value (.regionValue q t) = α.value (.regionValue q t)) ∧
          k.Agrees z live (k.widen a count s e.catalog).1 κ β := fun hz hagrees =>
      hagrees.widen h.regular hs (fun r => not_stale_loopSymbol hb hloop ha hcount) hQ hPQ hz
    have henv : (k.widen a count s e.catalog).1.env = s.env := by rw [hσ]
    cases hwiden
    exact ⟨evolves_naming h hle hreg, henv, htame, hfollow⟩

/-! ### Notes -/

theorem noteCoverage_spec {kind : CoverageKind} {location : Location} (h : k.Ready e)
    (hrun : noteCoverage topFrame kind location e = .ok ((), e')) :
    k.Evolves e e' ∧ e'.coverage ≠ [] := by
  have hbottom : (Frames.ancestors e.frames topFrame).getLastD topFrame = topFrame := by
    rw [ancestors_eq h]
    rfl
  obtain rfl := congrArg Prod.snd (Except.ok.inj hrun)
  dsimp only
  rw [hbottom, functionIn?_eq h]
  dsimp only
  split
  · next hmem =>
    refine ⟨.refl h, fun hnil => ?_⟩
    rw [hnil] at hmem
    cases hmem
  · refine ⟨evolves_of_eq le_rfl ⟨h.regular, h.frame⟩ rfl rfl fun hnil => ?_, ?_⟩
    · exact (append_eq_nil_iff.1 hnil).1
    · exact append_ne_nil_of_right_ne_nil _ (cons_ne_nil _ _)

/-! ### Entering -/

/-- The state when a block is entered leads on for every run that it stands for, if no path is
given up. -/
def Enters (k : Study) (z : Catalog) (g : PathGraph) (b : BlockId) (s : State) : Prop :=
  ∀ {κ α}, k.Agrees z (Live (k.liveIn b)) s κ α →
    ∃ β : Assignment, (∀ q t, β.value (.regionValue q t) = α.value (.regionValue q t)) ∧
      k.Reached z g (.entrance b) (k.liveIn b) κ β

/-- The state in which a block is entered: what the loop may change is forgotten if it has to be. -/
theorem widen_cases {p : Prop} [Decidable p] {f : State → Exploring Unit} (h : k.Ready e)
    (hs : k.Tame e.catalog (k.Stale V) s) (hb : k.body.graph.block? b = some block)
    (hp : p → V.count topFrame b + 1 = k.options.maxBlockVisits ∧ block.loopHead = true)
    (hrun : (if p then widenLoop k.options s block topFrame count >>= f
      else pure s >>= f : Exploring Unit) e = .ok ((), e')) :
    ∃ t d, f t d = .ok ((), e') ∧ k.Evolves e d ∧ t.env = s.env ∧
      k.Tame d.catalog (k.Stale (V.enter topFrame b)) t ∧
      ∀ {z live κ α}, d.catalog ≤ z → k.Agrees z live s κ α →
        ∃ β : Assignment, (∀ q t, β.value (.regionValue q t) = α.value (.regionValue q t)) ∧
          k.Agrees z live t κ β := by
  rw [ite_apply] at hrun
  split at hrun
  · next hwiden =>
    obtain ⟨t, d, hloop, hrest⟩ := bind_eq_ok.1 hrun
    obtain ⟨hloopHead, hcount⟩ := (hp hwiden).symm
    exact ⟨t, d, hrest, widenLoop_spec h hs hb hloopHead hcount hloop⟩
  · exact ⟨s, e, hrun, .refl h, rfl, hs.imp fun a ha => ha.enter b,
      fun _ hagrees => ⟨_, fun _ _ => rfl, hagrees⟩⟩

/-- What entering a block comes to: it was entered too often, or checkers are told what is dead there
before the path goes on. -/
theorem enterBlock_cases (h : k.Ready e) (hpred : HasState e pred s)
    (hrun : enterBlock k.options pred b topFrame V e = .ok ((), e')) :
    (∃ location, noteCoverage topFrame .blockLimit location
        (arrived e pred ⟨⟨.entrance b, topFrame, none⟩, s, true⟩) = .ok ((), e')) ∨
      ∃ block marks d, k.body.graph.block? b = some block ∧
        liveMarks s [topFrame] (some b) e = .ok (marks, d) ∧ (do
          match ← consult k.options pred ⟨.entrance b, topFrame, none⟩ (V.count topFrame b + 1)
            (.dead marks) with
          | none => return ()
          | some n =>
            let state ← stateOf n
            let widen := V.count topFrame b + 1 = k.options.maxBlockVisits ∧ block.loopHead ∧
              k.options.loopExhaustion = .widen
            let state ← if widen then widenLoop k.options state block topFrame (V.count topFrame b + 1)
              else pure state
            let state ← query fun e => state.removeDead e.catalog marks
            Exploring.advance n ⟨.entrance b, topFrame, none⟩ state (V.enter topFrame b) : Exploring Unit) d =
          .ok ((), e') := by
  unfold enterBlock at hrun
  obtain ⟨block, d, hblock, hrest⟩ := bind_eq_ok.1 hrun
  obtain ⟨hb, rfl⟩ := blockOf_eq_ok h hblock
  unfold stateOf at hrest
  rw [query_bind, hpred.state_eq, ite_apply] at hrest
  split at hrest
  · obtain ⟨_, d1, harrive, hrest1⟩ := bind_eq_ok.1 hrest
    obtain ⟨-, rfl⟩ := arrive_eq_ok.1 harrive
    have harrived := evolves_arrived (x := ⟨⟨.entrance b, topFrame, none⟩, s, true⟩) h pred rfl
    obtain ⟨function, d2, hfunction, hrest2⟩ := bind_eq_ok.1 hrest1
    rw [functionOf_eq harrived.ready] at hfunction
    cases hfunction
    exact .inl ⟨_, hrest2⟩
  · rw [query_bind, ancestors_eq h] at hrest
    obtain ⟨marks, d1, hmarks, hrest1⟩ := bind_eq_ok.1 hrest
    exact .inr ⟨block, marks, d1, hb, hmarks, hrest1⟩

/-- **Entering a block follows every run.** -/
theorem enterBlock_spec (h : k.Ready e) (hpred : HasState e pred s)
    (hs : k.Tame e.catalog (k.Stale V) s)
    (hrun : enterBlock k.options pred b topFrame V e = .ok ((), e')) :
    k.Evolves e e' ∧ (e'.coverage = [] → ∀ {z}, e'.catalog ≤ z → k.Enters z e'.graph b s) := by
  have hP : ∀ r, k.Stale V (.regionValue r .int) := fun r => trivial
  obtain ⟨location, hnote⟩ | ⟨block, marks, d1, hb, hmarks, hrest1⟩ := enterBlock_cases h hpred hrun
  · have harrived := evolves_arrived (x := ⟨⟨.entrance b, topFrame, none⟩, s, true⟩) h pred rfl
    obtain ⟨hnoted, hne⟩ := noteCoverage_spec harrived.ready hnote
    exact ⟨harrived.trans hnoted, fun hnil => absurd hnil hne⟩
  · obtain ⟨hd1, hmarked⟩ := liveMarks_spec h hmarks
    have hs1 := hs.mono h.regular hd1.le
    obtain ⟨r, d2, hask, hrest2⟩ := bind_eq_ok.1 hrest1
    have hmeets : k.Meets d1.catalog (k.Stale V) (.dead marks) := trivial
    have hasks := asks_consult hd1.ready (hpred.mono hd1) hs1 hP hmeets hask
    have hd2 := hd1.trans hasks.evolves
    cases r with
    | none =>
      obtain ⟨-, rfl⟩ := pure_eq_ok.1 hrest2
      exact ⟨hd2, fun _ {z} hz {κ α} hagrees => absurd trivial (hasks.none_spec hz hagrees)⟩
    | some n =>
      obtain ⟨ranges, hstate, hs2, hkeep⟩ := hasks.some_spec hd1.ready hs1
      dsimp only [stateOf] at hrest2
      rw [query_bind, hstate.state_eq] at hrest2
      obtain ⟨t, d3, hrest3, hd3, henv, hs3, hforget⟩ := widen_cases hd2.ready hs2 hb
        (fun hp => ⟨hp.1, hp.2.1⟩) hrest2
      rw [query_bind] at hrest3
      obtain ⟨hd4, m, hm⟩ := evolves_advance hd3.ready rfl (hs3.removeDead _ _) hrest3
      refine ⟨(hd2.trans hd3).trans hd4, fun _ {z} hz {κ α} hagrees => ?_⟩
      have hz3 := hd4.le.trans hz
      have hz2 := hd3.le.trans hz3
      obtain ⟨β, hβ, hagrees'⟩ := hforget hz3 (hkeep hz2 hagrees trivial)
      have hmarked' : k.Marked d1.catalog (Live (k.liveIn b)) t.env marks := henv.symm ▸ hmarked
      have henv' : k.TameEnv d1.catalog (k.Stale V) t.env := henv.symm ▸ hs1.env
      exact ⟨β, hβ, m, _, hm, hagrees'.removeDead hmarked' (hasks.evolves.le.trans hd3.le) hz3 henv'⟩

/-! ### Continuing a pending node -/

/-- The path ends where the function does. -/
theorem leaveFrame_spec (h : k.Ready e) (hn : HasState e n s) (hs : k.Tame e.catalog (k.Stale V) s)
    (hrun : leaveFrame k.options n topFrame V e = .ok ((), e')) : k.Evolves e e' := by
  have hP : ∀ r, k.Stale V (.regionValue r .int) := fun r => trivial
  unfold leaveFrame stateOf at hrun
  rw [query_bind, query_bind, hn.state_eq, h.frame] at hrun
  obtain ⟨marks, d, hmarks, hrest⟩ := bind_eq_ok.1 hrun
  have hmeets : k.Meets e.catalog (k.Stale V) (.dead marks) := trivial
  cases hmarks
  obtain ⟨r, d, hask, hrest'⟩ := bind_eq_ok.1 hrest
  obtain ⟨-, rfl⟩ := pure_eq_ok.1 hrest'
  exact (asks_consult h hn hs hP hmeets hask).evolves

/-- The node leads on for every run that its state stands for. -/
def Served (k : Study) (z : Catalog) (g : PathGraph) (x : PathNode) : Prop :=
  match x.point.kind with
  | .entry => k.Enters z g k.body.graph.entry x.state
  | .edge _ b => k.Enters z g b x.state
  | .entrance b => k.Proceeds z g b 0 x.state
  | .after b i => k.Proceeds z g b (i + 1) (k.settled b i x.state)
  | _ => True

/-- **Continuing a pending node follows every run that its state stands for.** -/
theorem dispatch_spec {p : Pending} {x : PathNode} (h : k.Ready e) (hw : k.Waiting e p x)
    (hrun : dispatch k.options p e = .ok ((), e')) :
    k.Evolves e e' ∧ (e'.coverage = [] → ∀ {z}, e'.catalog ≤ z → k.Served z e'.graph x) := by
  have hn : HasState e p.node x.state := ⟨x, hw.node, rfl⟩
  have hkind := hw.kind
  unfold dispatch at hrun
  rw [query_bind, PathGraph.point_eq hw.node, hw.frame] at hrun
  unfold Served
  cases hpoint : x.point.kind with
  | entry =>
    rw [hpoint] at hrun
    obtain ⟨body, d, hbody, hrest⟩ := bind_eq_ok.1 hrun
    rw [bodyOf_eq h] at hbody
    cases hbody
    exact enterBlock_spec h hn hw.tame hrest
  | edge source target =>
    rw [hpoint] at hrun
    exact enterBlock_spec h hn hw.tame hrun
  | entrance b =>
    rw [hpoint] at hrun
    simp only [stateOf, query_bind, hn.state_eq] at hrun
    obtain ⟨hev, hproceeds⟩ := continueBlock_spec h hn hw.tame hrun
    exact ⟨hev, fun _ _ hz => hproceeds hz⟩
  | after b i =>
    rw [hpoint] at hrun
    obtain ⟨hev, hproceeds⟩ := afterElement_spec h hn hw.tame hrun
    exact ⟨hev, fun _ _ hz => hproceeds hz⟩
  | finish =>
    rw [hpoint] at hrun
    exact ⟨leaveFrame_spec h hn hw.tame hrun, fun _ _ _ => trivial⟩
  | before | exit | callEnter | callExit =>
    rw [hpoint] at hkind
    cases hkind

end PathScout.Study

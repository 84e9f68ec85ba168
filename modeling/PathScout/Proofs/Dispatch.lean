import PathScout.Proofs.PathSteps

/-!
# Continuing a pending node

Each action of an exploration succeeds at a valid point, and each node that it makes pending follows
the node that is continued. There is one lemma for each action, from the steps of a block up to
`Exploring.dispatch`.

* `Exploring.advances_evalElement`: evaluating a step; a call may enter a function.
* `Exploring.advances_continueBlock`: going on in a block.
* `Exploring.advances_enterBlock`: entering a block, or giving the path up.
* `Exploring.advances_dispatch`: continuing a pending node.
-/

namespace PathScout

open Naming List Option

namespace Exploring

variable {p : Program} {o : Options} {main : FunctionId} {point : Point} {V : Visits} {e : Exploration}
  {f : FrameId} {b : BlockId} {block : Block} {n pred : NodeId} {s : State} {spot : Spot} {el : Element}
  {fs : Frames} {tag : Option Checker} {site : CallSite} {call : CallEvent} {root : Bool} {e' : ExprId}

/-! ### Steps of a block -/

/-- The path stands before the step at the spot. -/
structure At (p : Program) (fs : Frames) (point : Point) (V : Visits) (spot : Spot) (block : Block) :
    Prop where
  before : point.Before spot.frame spot.block spot.index
  block : Frames.HasBlock p fs spot.frame spot.block block
  visits : spot.visits = V

theorem At.mono {fs' : Frames} (h : At p fs point V spot block) (hfs : fs.Extends fs') :
    At p fs' point V spot block := ⟨h.before, h.block.mono hfs, h.visits⟩

theorem At.stays (h : At p e.frames point V spot block) {d : Exploration} (hd : e.Stays d) :
    At p d.frames point V spot block := by
  rw [hd.frames]
  exact h

theorem At.follows (h : At p fs point V spot block) (hel : block.elements[spot.index]? = some el) :
    Follows p o fs point V ⟨.after spot.block spot.index, spot.frame, tag⟩ spot.visits := by
  rw [h.visits]
  exact .step h.before h.block hel

theorem grows_bindParams (p : StorePolicy) (f : FrameId) (vs : List VarId) (args : List Value)
    (s : State) : (bindParams p f vs args s).Grows := by
  induction vs generalizing args s with
  | nil => exact grows_pure s
  | cons v vs ih => exact (grows_var v f).bind fun _ => (s.grows_write _ _ _).bind fun _ => ih _ _

theorem callEvent?_eq_some {e : ExprId} (h : s.callEvent? p f e site = some call) :
    call.frame = f ∧ call.site = site ∧ ∃ callee args, (p.expr e).op = .call callee args := by
  unfold State.callEvent? at h
  split at h
  · next hop =>
    cases h
    exact ⟨rfl, rfl, _, _, hop⟩
  · cases h

section

variable (he : e.Regular p o main) (hat : At p e.frames point V spot block)
include he hat

theorem advances_inlineCall (hel : block.elements[spot.index]? = some (.expr e' root))
    (hcall : call.frame = spot.frame ∧ call.site = spot.site e' ∧
      ∃ callee args, (p.expr e').op = .call callee args)
    (hmay : mayInline o spot.frame call.callee e = true) :
    Advances p o main point V (inlineCall o spot pred call) e := by
  obtain ⟨hframe, hsite, hop⟩ := hcall
  obtain ⟨body, ⟨x, hx, hbody⟩, hb⟩ := hat.block
  have hhas : Frames.HasSite p e.frames spot.frame (spot.site e') :=
    ⟨hop, block, root, ⟨body, ⟨x, hx, hbody⟩, hb⟩, hel⟩
  unfold mayInline at hmay
  simp only [Bool.and_eq_true, decide_eq_true_eq, hx, map_some, getD_some] at hmay
  obtain ⟨⟨⟨-, hsome⟩, hdepth⟩, -⟩ := hmay
  obtain ⟨body', hbody'⟩ := isSome_iff_exists.1 hsome
  rw [he.program] at hbody'
  unfold inlineCall
  refine advances_query_bind ?_
  rw [hframe, hsite]
  refine .thenWith he (moves_call he hx hdepth hbody' hhas) fun callee d hd hreg _ => ?_
  refine .afterQuiet hreg (quiet_stateOf _) fun s d1 hd1 hreg1 => ?_
  refine .afterQuiet hreg1 (quiet_naming (grows_bindParams _ _ _ _ _)) fun t d2 hd2 hreg2 => ?_
  refine advances_advance hreg2 ?_
  rw [hd2.frames, hd1.frames, hat.visits]
  exact .call hat.before (hhas.mono hd.frames) hbody' (hd.frames _ _ hx) hdepth

theorem advances_evalCall (hel : block.elements[spot.index]? = some (.expr e' root)) :
    Advances p o main point V (evalCall o spot pred e') e := by
  unfold evalCall
  refine .afterQuiet he (quiet_stateOf _) fun s d hd hreg => advances_query_bind ?_
  have hatd := hat.stays hd
  cases hcall : s.callEvent? d.catalog.program spot.frame e' (spot.site e') with
  | none => exact advances_pure _ hreg
  | some call =>
    rw [hreg.program] at hcall
    refine .afterQuiet hreg (quiet_ask _ _) fun n? d1 hd1 hreg1 => ?_
    have hat1 := hatd.stays hd1
    cases n? with
    | none => exact advances_pure _ hreg1
    | some n =>
      refine .afterQuiet hreg1 (quiet_evalByChecker _ _) fun r d2 hd2 hreg2 => ?_
      have hat2 := hat1.stays hd2
      match r with
      | some none => exact advances_pure _ hreg2
      | some (some n) =>
        exact .afterQuiet hreg2 (quiet_stateOf _) fun _ _ _ hreg => advances_pure _ hreg
      | none =>
        refine advances_query_bind (advances_ite (fun hmay => ?_) fun _ => ?_)
        · refine .then hreg2 (advances_inlineCall hreg2 hat2 hel (callEvent?_eq_some hcall) hmay)
            fun _ _ _ hreg => advances_pure _ hreg
        · exact .afterQuiet hreg2 (quiet_conservativeCall _) fun _ _ _ hreg => advances_pure _ hreg

/-- **Evaluating a step.** -/
theorem advances_evalElement (hel : block.elements[spot.index]? = some el) :
    Advances p o main point V (evalElement o spot pred el) e := by
  cases el with
  | expr e' root =>
    unfold evalElement evalExpr
    refine advances_query_bind ?_
    split
    · exact (quiet_evalLoad _ _).advances he
    iterate 3
      · exact (quiet_evalStore _ _).advances he
    · exact advances_evalCall he hat hel
    · refine .afterQuiet he (quiet_stateOf _) fun s d _ hreg => ?_
      refine .afterQuiet hreg (quiet_naming (s.grows_evaluate? _ _)) fun v? d' _ hreg' => ?_
      cases v? with
      | none | some v => exact advances_pure _ hreg'
  | decl v init l => exact (quiet_evalDecl _ _ _).advances he
  | merge target value =>
    exact .afterQuiet he (quiet_stateOf _) fun _ _ _ hreg =>
      .afterQuiet hreg (quiet_query _) fun _ _ _ hreg' => advances_pure _ hreg'
  | «return» value l =>
    refine .afterQuiet he (quiet_stateOf _) fun _ _ _ hreg => ?_
    cases value with
    | none | some a => exact advances_pure _ hreg

end

/-- A step was evaluated: the path stands after it, also where a checker made the last node. -/
theorem advances_finishElement {outcome : Outcome} (he : e.Regular p o main)
    (hfollows : ∀ tag, Follows p o e.frames point V
      ⟨.after spot.block spot.index, spot.frame, tag⟩ spot.visits) :
    Advances p o main point V (finishElement o spot outcome) e := by
  have harrive : (arrive outcome.pred ⟨spot.after, outcome.state, false⟩).Ends e fun a d =>
      e.Stays d ∧ d.graph.node? a.1 = some ⟨spot.after, outcome.state, false⟩ :=
    ⟨_, _, rfl, stays_arrived e _ _, node?_arrived e _ _⟩
  refine .after he harrive fun a d hd hreg hnode => advances_ite (fun _ => ?_) fun _ => ?_
  · have hfollows' := hd.frames ▸ hfollows
    cases outcome.call with
    | none => exact advances_queue hreg hnode (hfollows' none)
    | some call =>
      refine .after hreg (ends_consult o _ _) fun n? d' hd' hreg' hn => ?_
      cases n? with
      | none => exact advances_pure _ hreg'
      | some n =>
        obtain ⟨⟨⟨kind, g, tag⟩, t, sink⟩, hy, hkind, hframe⟩ := (hn n rfl).stands ⟨_, hnode, rfl, rfl⟩
        refine advances_queue hreg' hy ?_
        cases hkind
        cases hframe
        rw [hd'.frames]
        exact hfollows' tag
  · exact advances_pure _ hreg

theorem advances_processElement (he : e.Regular p o main) (hat : At p e.frames point V spot block)
    (hel : block.elements[spot.index]? = some el) :
    Advances p o main point V (processElement o spot pred s el) e := by
  refine .afterQuiet he (quiet_settle _ _ _) fun n d hd hreg => ?_
  refine .afterQuiet hreg (quiet_ask _ _) fun n? d1 hd1 hreg1 => ?_
  have hat1 := (hat.stays hd).stays hd1
  cases n? with
  | none => exact advances_pure _ hreg1
  | some n =>
    refine .then hreg1 (advances_evalElement hreg1 hat1 hel) fun outcome? d2 hd2 hreg2 => ?_
    cases outcome? with
    | none => exact advances_pure _ hreg2
    | some outcome => exact advances_finishElement hreg2 fun tag => (hat1.follows hel).mono hd2.frames

/-! ### Leaving blocks -/

theorem grows_switchStates (s : State) (value : Value) (t : CType) (cases : List CaseTarget)
    (rest : Option State) : (switchStates s value t cases rest).Grows := by
  induction cases generalizing rest with
  | nil => exact grows_pure _
  | cons target more ih =>
    refine .ite ((ih rest).bind fun _ => grows_pure _) ?_
    exact (grows_binary _ _ _ _).bind fun _ => (grows_query _).bind fun _ =>
      (ih _).bind fun _ => grows_pure _

/-- The ways of a switch lead to its cases. -/
theorem mem_switchStates {value : Value} {t : CType} {targets : List CaseTarget}
    {rest : Option State} {c : Catalog} {way : BlockId × State}
    (h : way ∈ (switchStates s value t targets rest c).1.1) : way.1 ∈ targets.map (·.block) := by
  induction targets generalizing rest c with
  | nil => cases h
  | cons target more ih =>
    unfold switchStates at h
    rw [Naming.ite_apply] at h
    split at h
    · rcases mem_cons.1 h with rfl | h
      · exact mem_cons_self
      · exact mem_cons_of_mem _ (ih h)
    · rcases mem_append.1 h with h | h
      · obtain ⟨t, -, rfl⟩ := map_eq_some_iff.1 (mem_toList.1 h)
        exact mem_cons_self
      · exact mem_cons_of_mem _ (ih h)

section

variable (he : e.Regular p o main) (hat : At p e.frames point V spot block)
include he hat

theorem advances_followEdge {target : BlockId} (hel : block.elements[spot.index]? = none)
    (ht : target ∈ block.terminator.successors) :
    Advances p o main point V (followEdge spot.frame spot.visits pred spot.block target s) e := by
  refine advances_advance he ?_
  rw [hat.visits]
  exact .leave hat.before hat.block hel ht

/-- **Leaving a block.** -/
theorem advances_branchOut (hel : block.elements[spot.index]? = none) :
    Advances p o main point V (branchOut o pred s spot.block spot.frame spot.visits) e := by
  unfold branchOut
  refine .afterLookup (ends_blockOf he hat.block) ?_
  dsimp only
  cases hterm : block.terminator with
  | goto target kind => exact advances_followEdge he hat hel (by rw [hterm]; exact mem_cons_self)
  | branch cond yes no kind l =>
    refine .afterQuiet he (quiet_settle _ _ _) fun n d hd hreg => ?_
    refine .afterQuiet hreg (quiet_consult _ _ _ _ _) fun n? d1 hd1 hreg1 => ?_
    have hat1 := (hat.stays hd).stays hd1
    cases n? with
    | none => exact advances_pure _ hreg1
    | some n =>
      refine advances_query_bind (advances_query_bind ?_)
      refine .then hreg1 (advances_optionForM hreg1 fun t _ => ?_) fun _ d2 hd2 hreg2 =>
        advances_optionForM hreg2 fun t _ => ?_
      · exact advances_followEdge hreg1 hat1 hel (by rw [hterm]; exact mem_cons_self)
      · exact advances_followEdge hreg2 (hat1.mono hd2.frames) hel
          (by rw [hterm]; exact mem_cons_of_mem _ mem_cons_self)
  | switch cond targets default dl l =>
    refine .afterQuiet he (quiet_settle _ _ _) fun n d hd hreg => ?_
    refine .afterQuiet hreg (quiet_consult _ _ _ _ _) fun n? d1 hd1 hreg1 => ?_
    have hat1 := (hat.stays hd).stays hd1
    have hsuccessors : block.terminator.successors = targets.map (·.block) ++ [default] := by
      rw [hterm]
      rfl
    cases n? with
    | none => exact advances_pure _ hreg1
    | some n =>
      refine advances_query_bind (advances_query_bind ?_)
      refine .after hreg1 ((ends_naming (grows_switchStates _ _ _ _ _)).imp fun _ _ h => h.symm)
        fun ways d2 hd2 hreg2 hways => ?_
      have hat2 := hat1.stays hd2
      refine .then hreg2 (advances_forM hreg2 fun way hway d3 hd3 hreg3 => ?_)
        fun _ d3 hd3 hreg3 => advances_optionForM hreg3 fun t _ => ?_
      · refine advances_followEdge hreg3 (hat2.mono hd3.frames) hel ?_
        rw [hways] at hway
        rw [hsuccessors]
        exact mem_append_left _ (mem_switchStates hway)
      · refine advances_followEdge hreg3 (hat2.mono hd3.frames) hel ?_
        rw [hsuccessors]
        exact mem_append_right _ mem_cons_self
  | exit =>
    refine .afterQuiet he (quiet_settle _ _ _) fun n d hd hreg => ?_
    refine .afterQuiet hreg (quiet_consult _ _ _ _ _) fun n? d1 hd1 hreg1 => ?_
    have hat1 := (hat.stays hd).stays hd1
    cases n? with
    | none => exact advances_pure _ hreg1
    | some n =>
      refine advances_query_bind (advances_advance hreg1 ?_)
      rw [hat1.visits]
      exact .finish hat1.before hat1.block hel hterm

/-- **Going on in a block.** -/
theorem advances_continueBlock : Advances p o main point V (continueBlock o pred s spot) e := by
  unfold continueBlock
  refine .afterLookup (ends_blockOf he hat.block) ?_
  cases hel : block.elements[spot.index]? with
  | none => exact advances_branchOut he hat hel
  | some el => exact advances_processElement he hat hel

end

theorem advances_afterElement (he : e.Regular p o main)
    (hat : At p e.frames point V { spot with index := spot.index + 1 } block) :
    Advances p o main point V (afterElement o n spot) e := by
  unfold afterElement
  refine advances_query_bind (.afterLookup (ends_blockOf he hat.block) ?_)
  exact advances_continueBlock he hat

/-! ### Entering blocks -/

theorem grows_markFrames (fs : Frames) (chain : List FrameId) (entering : Option BlockId)
    (m : Marks) : (markFrames p fs chain entering m).Grows := by
  induction chain generalizing entering m with
  | nil => exact grows_pure m
  | cons f rest ih =>
    refine (Naming.Grows.foldlM (fun m v => ?_) _ _).bind fun m => ih none m
    exact (grows_var v f).bind fun _ => grows_query _

theorem quiet_liveMarks (s : State) (chain : List FrameId) (entering : Option BlockId) :
    (liveMarks s chain entering).Quiet :=
  (quiet_query _).bind fun _ => quiet_naming ((grows_markFrames _ _ _ _).bind fun _ => grows_query _)

section

variable (he : e.Regular p o main)
include he

/-- Where a loop may be forgotten, the function that it is in is known. -/
theorem ends_widenLoop {body : FunctionBody} {count : Nat} (hruns : Frames.Runs p e.frames f body) :
    (widenLoop o s block f count).Ends e fun _ e' => e.Stays e' := by
  obtain ⟨x, hx, -⟩ := hruns
  unfold widenLoop
  split
  · exact ends_pure (.refl e)
  · refine (ends_functionOf he hx).bind ?_
    rintro _ _ ⟨rfl, rfl⟩
    exact quiet_naming ((Naming.Grows.mapM (fun v => grows_var v f) _).bind fun _ =>
      (grows_stateInvalidate _ _ _).bind fun _ => grows_pure _) _

/-- A path was given up where a block was entered too often. -/
theorem advances_noteCoverage {kind : CoverageKind} {l : Location}
    (hnoted : ∃ f b, Leads p e.frames point f b ∧ o.maxBlockVisits ≤ V.count f b) :
    Advances p o main point V (noteCoverage f kind l) e := by
  refine ⟨_, _, rfl, ?_⟩
  have hsame : e.Moves p o main point V e := (Exploration.Stays.refl e).moves he
  dsimp only
  split
  · exact hsame
  · split
    · exact hsame
    · exact { hsame with coverage := .inr hnoted }

/-- **Entering a block.** -/
theorem advances_enterBlock (hleads : Leads p e.frames point f b)
    (hblock : Frames.HasBlock p e.frames f b block) :
    Advances p o main point V (enterBlock o pred b f V) e := by
  obtain ⟨body, hruns, hb⟩ := hblock
  unfold enterBlock
  refine .afterLookup (ends_blockOf he ⟨body, hruns, hb⟩) (advances_query_bind ?_)
  refine advances_ite (fun hlimit => ?_) fun hlimit => ?_
  · refine .afterQuiet he (quiet_arrive _ _) fun _ d hd hreg => ?_
    obtain ⟨x, hx, -⟩ := hruns
    refine .afterLookup (ends_functionOf hreg (hd.frames ▸ hx)) (advances_query_bind ?_)
    exact advances_noteCoverage hreg ⟨f, b, hd.frames ▸ hleads, Nat.le_of_lt_succ hlimit⟩
  · refine advances_query_bind (.afterQuiet he (quiet_liveMarks _ _ _) fun marks d hd hreg => ?_)
    refine .afterQuiet hreg (quiet_consult _ _ _ _ _) fun n? d1 hd1 hreg1 => ?_
    have hframes : d1.frames = e.frames := hd1.frames.trans hd.frames
    cases n? with
    | none => exact advances_pure _ hreg1
    | some n =>
      refine advances_query_bind ?_
      have hadvance : ∀ t d2, e.frames = Exploration.frames d2 → d2.Regular p o main →
          Advances p o main point V (do
            let state ← query fun e => State.removeDead t e.catalog marks
            advance n ⟨.entrance b, f, none⟩ state (V.enter f b)) d2 := fun t d2 hd2 hreg2 => by
        refine advances_query_bind (advances_advance hreg2 ?_)
        rw [← hd2]
        exact .enter hleads ⟨body, hruns, hb⟩ (Nat.le_of_not_lt hlimit)
      refine advances_ite (fun _ => ?_) fun _ => hadvance _ d1 hframes.symm hreg1
      exact .afterStays hreg1 (ends_widenLoop hreg1 (hframes ▸ hruns)) fun t d2 hd2 hreg2 =>
        hadvance t d2 (hd2.frames.trans hframes).symm hreg2

/-! ### Leaving functions -/

theorem advances_leaveFrame {x : Frame} (hx : e.frames.frame? f = some x) :
    Advances p o main ⟨.finish, f, tag⟩ V (leaveFrame o n f V) e := by
  unfold leaveFrame
  refine advances_query_bind (advances_query_bind ?_)
  rw [hx]
  obtain ⟨parent, function, site, depth⟩ := x
  cases parent with
  | none =>
    exact .afterQuiet he (quiet_liveMarks _ _ _) fun _ _ _ hreg =>
      .afterQuiet hreg (quiet_consult _ _ _ _ _) fun _ _ _ hreg' => advances_pure _ hreg'
  | some caller =>
    cases site with
    | none =>
      exact .afterQuiet he (quiet_liveMarks _ _ _) fun _ _ _ hreg =>
        .afterQuiet hreg (quiet_consult _ _ _ _ _) fun _ _ _ hreg' => advances_pure _ hreg'
    | some site => exact advances_advance he (.giveBack hx)

theorem advances_returnToCaller {caller : FrameId} {callee : FunctionId} {depth : Nat}
    (hx : e.frames.frame? f = some ⟨some caller, callee, some site, depth⟩) :
    Advances p o main ⟨.callExit site, f, tag⟩ V (returnToCaller o n site f V) e := by
  have hsite : Frames.HasSite p e.frames caller site := by
    cases he.frames f _ hx with
    | called _ _ _ hsite => exact hsite
  obtain ⟨hop, block, root, hblock, hel⟩ := hsite
  unfold returnToCaller
  refine advances_query_bind ?_
  rw [show Frames.caller? e.frames f = some caller by rw [Frames.caller?, hx]; rfl]
  refine advances_query_bind (.afterLookup (ends_blockOf he hblock) ?_)
  rw [hel]
  refine advances_query_bind (advances_query_bind ?_)
  refine .afterQuiet he (quiet_liveMarks _ _ _) fun marks d hd hreg => ?_
  refine .afterQuiet hreg (quiet_consult _ _ _ _ _) fun n? d1 hd1 hreg1 => ?_
  cases n? with
  | none => exact advances_pure _ hreg1
  | some m =>
    refine advances_query_bind (advances_query_bind ?_)
    refine advances_finishElement hreg1 fun tag' => ?_
    rw [hd1.frames, hd.frames]
    exact .resume hx ⟨hop, block, root, hblock, hel⟩

end

/-! ### Pending nodes -/

/-- **Continuing a pending node** succeeds, and every node that becomes pending follows it. -/
theorem advances_dispatch {q : Pending} {x : PathNode} (hp : p.Closed) (he : e.Regular p o main)
    (hn : e.graph.node? q.node = some x) (hv : Valid p o e.frames x.point q.visits) :
    Advances p o main x.point q.visits (dispatch o q) e := by
  obtain ⟨⟨kind, f, tag⟩, s, sink⟩ := x
  have hkind := hv.kind
  unfold dispatch
  refine advances_query_bind ?_
  rw [PathGraph.point_eq hn]
  cases kind with
  | entry =>
    obtain ⟨body, hruns⟩ := hkind
    obtain ⟨x, hx, hbody⟩ := hruns
    obtain ⟨⟨block, hb⟩, -⟩ := hp _ body hbody
    refine .afterLookup (ends_bodyOf he ⟨x, hx, hbody⟩) ?_
    exact advances_enterBlock he (.entry ⟨x, hx, hbody⟩) ⟨body, ⟨x, hx, hbody⟩, hb⟩
  | edge source target =>
    obtain ⟨block, hblock⟩ := hkind
    exact advances_enterBlock he .edge hblock
  | entrance b =>
    obtain ⟨block, hblock⟩ := hkind
    have hat : At p e.frames ⟨.entrance b, f, tag⟩ q.visits ⟨f, b, 0, q.visits⟩ block :=
      ⟨.entrance, hblock, rfl⟩
    exact advances_query_bind (advances_continueBlock he hat)
  | after b i =>
    obtain ⟨block, hblock⟩ := hkind
    have hat : At p e.frames ⟨.after b i, f, tag⟩ q.visits ⟨f, b, i + 1, q.visits⟩ block :=
      ⟨.after, hblock, rfl⟩
    exact advances_afterElement he hat
  | callEnter site callee =>
    obtain ⟨hsite, ⟨body, hbody⟩, y, hy, hdepth⟩ := hkind
    obtain ⟨⟨block, hb⟩, -⟩ := hp _ body hbody
    refine .thenWith he (moves_call he hy hdepth hbody hsite) fun g d hd hreg hg => ?_
    have hruns : Frames.Runs p d.frames g body := ⟨_, hg, hbody⟩
    refine .afterLookup (ends_bodyOf hreg hruns) ?_
    exact advances_enterBlock hreg (.call hg hruns) ⟨body, hruns, hb⟩
  | finish =>
    obtain ⟨x, hx⟩ := hkind
    exact advances_leaveFrame he hx
  | callExit site =>
    obtain ⟨caller, callee, depth, hx⟩ := hkind
    exact advances_returnToCaller he hx
  | before | exit => exact hkind.elim

end Exploring

end PathScout

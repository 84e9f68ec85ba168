import PathScout.Proofs.WalkedStmts

/-!
# Walks through built loops and switches

A loop is walked through turn by turn: the condition leads into the body or out of the loop, a jump in
the body leads to the next step of the turn or out of the loop. A switch leads to one of its cases and
from there through the following ones.

* `Terrain.carries_followTurns`: a loop, from one of its turns.
* `Lower.traces_whileDo`, `Lower.traces_doWhile`, `Lower.traces_forDo`: the three kinds of loop.
* `Chooses`: the targets of a switch lead to the blocks of its cases.
* `lowerStmts_traces`: statements one after the other, of every kind.
-/

namespace PathScout

open Lower Terrain List Option Bool

/-! ### Turns -/

/-- Where a walker stands after the body of a loop: at the next step of the turn, or outside. -/
def Walker.LeavesBody (w : Walker) (exit next : BlockId) : Ending → Prop
  | .normal | .continue => w.Starts next
  | .break => w.Starts exit
  | .return => w.Starts ⟨1⟩
  | .unfinished => True

/-- Where a walker stands after a loop. Only its body ends with a jump of the loop. -/
def Walker.LeavesLoop (w : Walker) (exit : BlockId) : Ending → Prop
  | .normal => w.Starts exit
  | .return => w.Starts ⟨1⟩
  | .unfinished => True
  | .break | .continue => False

namespace Terrain

variable {T : Terrain} {P : Walker → Prop} {head first next exit : BlockId} {condition : Following Bool}
  {body : Following Ending}

/-- **A loop** is walked through as often as its turns lead back to where they start. -/
theorem carries_followTurns {turn : Following (Option Ending)}
    (h : T.Carries P turn fun r w => r.elim (P w) (w.LeavesLoop exit)) (n : Nat) :
    T.Carries P (followTurns turn n) fun e w => w.LeavesLoop exit e := by
  induction n with
  | zero => exact carries_pure fun _ _ => trivial
  | succ n ih =>
    refine h.bind fun r => ?_
    cases r with
    | none => exact ih
    | some e => exact carries_pure fun _ => id

theorem carries_afterBody {rest : Following (Option Ending)}
    (h : T.Carries (fun w => w.Starts next) rest fun r w => r.elim (P w) (w.LeavesLoop exit))
    (e : Ending) : T.Carries (fun w => w.LeavesBody exit next e) (afterBody rest e)
      fun r w => r.elim (P w) (w.LeavesLoop exit) := by
  cases e with
  | normal | «continue» => exact h
  | «break» | «return» | unfinished => exact carries_pure fun _ => id

/-- A loop with its condition before its body. -/
theorem carries_followTurn {step : Following Unit}
    (hc : T.Carries (fun w => w.Starts head) condition fun b w => w.Starts (if b then first else exit))
    (hb : T.Carries (fun w => w.Starts first) body fun e w => w.LeavesBody exit next e)
    (hs : T.Carries (fun w => w.Starts next) step fun _ w => w.Starts head) (n : Nat) :
    T.Carries (fun w => w.Starts head) (followTurns (followTurn condition body step) n)
      fun e w => w.LeavesLoop exit e := by
  refine carries_followTurns (hc.bind fun b => ?_) n
  cases b with
  | true => exact hb.bind (carries_afterBody (hs.bind fun _ => carries_pure fun _ => id))
  | false => exact carries_pure fun _ => id

/-- A loop with its condition behind its body. -/
theorem carries_doTurn
    (hb : T.Carries (fun w => w.Starts first) body fun e w => w.LeavesBody exit next e)
    (hc : T.Carries (fun w => w.Starts next) condition
      fun b w => w.Starts (if b then first else exit)) (n : Nat) :
    T.Carries (fun w => w.Starts first) (followTurns (do
      afterBody (followEither condition (return none) (return some .normal)) (← body)) n)
      fun e w => w.LeavesLoop exit e := by
  refine carries_followTurns (hb.bind (carries_afterBody (hc.bind fun b => ?_))) n
  cases b with
  | true | false => exact carries_pure fun _ => id

end Terrain

section

variable {T : Terrain} {o s s' s₁ : Lowering} {e : Ending} {w : Walker} {b next exit : BlockId}
  {blocks : List BlockId} {x : Following Ending} {u u' : Unit} {act : Lower Unit}

theorem Walker.LeavesLoop.ends (h : w.LeavesLoop exit e) (hplan : o.Plan s blocks)
    (hexit : exit ∈ blocks) : (s.goneTo (some exit)).Ends e w := by
  cases e with
  | normal => exact hplan.here hexit h
  | «return» | unfinished => exact h
  | «break» | «continue» => exact h.elim

/-- An action inside a loop or a switch. -/
theorem inTargets_eq_ok {t : JumpTargets} : inTargets t act s = .ok (u, s') ↔
    ∃ s₁, act (s.within (t :: s.targets)) = .ok (u, s₁) ∧ s' = s₁.within s₁.targets.tail := by
  constructor
  · intro h
    obtain ⟨_, _, hopen, h⟩ := bind_eq_ok.1 h
    obtain ⟨_, s₁, hact, hclose⟩ := bind_eq_ok.1 h
    cases hopen
    cases hclose
    exact ⟨s₁, hact, rfl⟩
  · rintro ⟨s₁, hact, rfl⟩
    exact bind_eq_ok.2 ⟨_, _, rfl, bind_eq_ok.2 ⟨_, _, hact, rfl⟩⟩

/-- The body of a loop, from which a walker goes on to the next step of the turn. -/
theorem leads_loopBody (before after : List BlockId) (hplan : o.Plan s (before ++ b :: after))
    (hact : Traces T act x fun e s' => s'.Ends e)
    (hrun : inTargets ⟨exit, some next⟩ act (s.goneTo (some b)) = .ok (u, s₁))
    (hjump : jumpIfOpen next s₁ = .ok (u', s')) :
    o.Plan s' (before ++ after) ∧ s.Grows s' ∧ (T.Covers s' →
      T.Carries (fun w => w.Starts b) x fun e w => w.LeavesBody exit next e) := by
  obtain ⟨s2, hinner, rfl⟩ := inTargets_eq_ok.1 hrun
  have hplan1 := (hplan.enter before after).within (⟨exit, some next⟩ :: o.targets)
  have htargets : (s.goneTo (some b)).targets = o.targets := hplan.targets
  rw [htargets] at hinner
  have h := hact _ u s2 hplan1.tidy hinner
  have hplan2 := Lowering.plan_of_within (hplan1.adds h.toAdds)
  have hjump := traces_jumpIfOpen (T := T) next _ u' s' hplan2.tidy hjump
  have hgrows : (s.goneTo (some b)).Grows (s2.within s2.targets.tail) :=
    ⟨h.exprs_le, h.expr_eq, h.structs, h.returns, h.block⟩
  refine ⟨hplan2.adds hjump.toAdds, (hgrows.trans hjump.toGrows).of_goneTo, fun hcovers => ?_⟩
  have hcovers2 : T.Covers s2 := (hcovers.of_grows hjump.toGrows).of_within
  refine Terrain.Carries.finish (Q := s2.Ends) ((h.carries hcovers2).imp (fun w hw => ?_)
    fun _ _ => id) fun e => ?_
  · have hw := hplan.here (mem_append_right _ mem_cons_self) hw
    exact ⟨hw.current, hw.index⟩
  · have hs2 : s2.targets = ⟨exit, some next⟩ :: o.targets := h.targets
    cases e with
    | normal => exact (hjump.carries hcovers).imp (fun w hw => ⟨hw.current, hw.index⟩) fun _ _ => id
    | «break» =>
      refine carries_pure fun w hw => ?_
      obtain ⟨t, ht, hw⟩ := hw
      rw [hs2] at ht
      cases ht
      exact hw
    | «continue» =>
      refine carries_pure fun w hw => ?_
      obtain ⟨c, hc, hw⟩ := hw
      rw [hs2] at hc
      cases hc
      exact hw
    | «return» | unfinished => exact carries_pure fun _ => id

/-- Blocks were opened, one of them was marked as the head of a loop, and the current block leads to
one of them. -/
theorem carries_jumpTo {head : BlockId} {kind : JumpKind} (hlayout : o.Layout s blocks)
    (hhead : head ∈ blocks) (hrun : (do markLoopHead head; jump b kind) s = .ok (u, s')) :
    o.Plan s' blocks ∧ (T.Covers s' → T.Carries o.Here (pure () : Following Unit)
      fun _ w => w.Starts b) := by
  obtain ⟨_, s₁, hmark, hjump⟩ := bind_eq_ok.1 hrun
  have hlayout1 : o.Layout s₁ blocks := by
    cases hmark
    exact hlayout.changed hhead (fun _ => rfl) fun _ => rfl
  have hjump := traces_jump (T := T) b kind s₁ u s' hlayout1.tidy hjump
  exact ⟨hlayout1.toPlan.adds hjump.toAdds, fun hcovers =>
    (hjump.carries hcovers).imp hlayout1.here fun _ _ => id⟩

end

namespace Lower

variable {T : Terrain} {x y : Following Ending}

theorem traces_whileDo (l : Location) (c : Expr) (body : Stmt) (turns : Nat)
    (hb : Traces T (lowerStmt body) x fun e s' => s'.Ends e) :
    Traces T (lowerStmt (.whileDo l c body))
      (followTurns (followTurn (c.follow T.oracle).condition x (return)) turns)
      fun e s' => s'.Ends e := by
  intro s u s' hs hrun
  rw [lowerStmt] at hrun
  obtain ⟨head, s₁, hhead, hrun⟩ := bind_eq_ok.1 hrun
  obtain ⟨first, s2, hfirst, hrun⟩ := bind_eq_ok.1 hrun
  obtain ⟨exit, s3, hexit, hrun⟩ := bind_eq_ok.1 hrun
  have hlayout : s.Layout s3 [head, first, exit] :=
    (((Lowering.Layout.refl hs).newBlock hhead).newBlock hfirst).newBlock hexit
  obtain ⟨_, s4, hmark, hrun⟩ := bind_eq_ok.1 hrun
  obtain ⟨_, s5, hjump, hrun⟩ := bind_eq_ok.1 hrun
  obtain ⟨_, s6, hcond, hrun⟩ := bind_eq_ok.1 (of_setCurrent_bind hrun)
  obtain ⟨_, s7, hbody, hrun⟩ := bind_eq_ok.1 (of_setCurrent_bind hrun)
  obtain ⟨_, s8, hback, hlast⟩ := bind_eq_ok.1 hrun
  cases hlast
  obtain ⟨hplan, hstart⟩ := carries_jumpTo (T := T) hlayout mem_cons_self
    (bind_eq_ok.2 ⟨_, _, hmark, hjump⟩)
  have hplan1 := hplan.enter [] [first, exit]
  have hcond := (lower_traces (T := T) c).branch _ _ _ _ _ s6 hplan1.tidy hcond
  obtain ⟨hplan2, hgrows, hway⟩ := leads_loopBody [] [exit] (hplan1.adds hcond.toAdds) hb hbody hback
  refine ⟨(hplan2.enter [] []).toAdds, fun hcovers => ?_⟩
  have hcovers8 := hcovers.of_goneTo
  have hcovers6 := hcovers8.of_grows hgrows
  have hstep : T.Carries (fun w => w.Starts head) (pure () : Following Unit)
      fun _ w => w.Starts head := carries_pure fun _ => id
  have hloop := carries_followTurn
    (hcond.carries_starts hplan mem_cons_self hcovers6) (hway hcovers8) hstep turns
  exact (hstart (hcovers6.before hcond.toGrows)).then
    (hloop.imp (fun _ => id) fun e w hw => hw.ends hplan2 mem_cons_self)

theorem traces_doWhile (l : Location) (body : Stmt) (c : Expr) (turns : Nat)
    (hb : Traces T (lowerStmt body) x fun e s' => s'.Ends e) :
    Traces T (lowerStmt (.doWhile l body c)) (followTurns (do
      afterBody (followEither (c.follow T.oracle).condition (return none) (return some .normal))
        (← x)) turns) fun e s' => s'.Ends e := by
  intro s u s' hs hrun
  rw [lowerStmt] at hrun
  obtain ⟨first, s₁, hfirst, hrun⟩ := bind_eq_ok.1 hrun
  obtain ⟨test, s2, htest, hrun⟩ := bind_eq_ok.1 hrun
  obtain ⟨exit, s3, hexit, hrun⟩ := bind_eq_ok.1 hrun
  have hlayout : s.Layout s3 [first, test, exit] :=
    (((Lowering.Layout.refl hs).newBlock hfirst).newBlock htest).newBlock hexit
  obtain ⟨_, s4, hmark, hrun⟩ := bind_eq_ok.1 hrun
  obtain ⟨_, s5, hjump, hrun⟩ := bind_eq_ok.1 hrun
  obtain ⟨_, s6, hbody, hrun⟩ := bind_eq_ok.1 (of_setCurrent_bind hrun)
  obtain ⟨_, s7, hnext, hrun⟩ := bind_eq_ok.1 hrun
  obtain ⟨_, s8, hcond, hlast⟩ := bind_eq_ok.1 (of_setCurrent_bind hrun)
  cases hlast
  obtain ⟨hplan, hstart⟩ := carries_jumpTo (T := T) hlayout
    (mem_cons_of_mem _ mem_cons_self) (bind_eq_ok.2 ⟨_, _, hmark, hjump⟩)
  obtain ⟨hplan1, hgrows, hway⟩ := leads_loopBody [] [test, exit] hplan hb hbody hnext
  have hplan2 := hplan1.enter [] [exit]
  have hcond := (lower_traces (T := T) c).branch _ _ _ _ _ s8 hplan2.tidy hcond
  have hplan3 := hplan2.adds hcond.toAdds
  refine ⟨(hplan3.enter [] []).toAdds, fun hcovers => ?_⟩
  have hcovers8 := hcovers.of_goneTo
  have hcovers7 := hcovers8.before hcond.toGrows
  have hloop := carries_doTurn (hway hcovers7)
    (hcond.carries_starts hplan1 mem_cons_self hcovers8) turns
  exact (hstart (hcovers7.of_grows hgrows)).then
    (hloop.imp (fun _ => id) fun e w hw => hw.ends hplan3 mem_cons_self)

theorem traces_lowerForCondition (l : Location) (c : Option Expr) (first exit : BlockId) :
    Traces T (lowerForCondition l c first exit) (followForCondition T.oracle l c)
      fun b _ w => w.Starts (if b then first else exit) := by
  cases c with
  | some c => exact (lower_traces c).branch first exit _
  | none =>
    intro s u s' hs hrun
    obtain ⟨always, s1, hone, hrun⟩ := bind_eq_ok.1 hrun
    obtain ⟨-, hone⟩ := evaluates_addExpr (T := T) (.int 1) .int (.point l) (fun h => nomatch h)
      s always s1 hs (fun _ he => nomatch he) hone
    exact hone.bind fun _ => leads_branch hone.tidy hrun

theorem traces_forDo (l : Location) (init : Option Stmt) (c step : Option Expr) (body : Stmt)
    (turns : Nat) (hi : Traces T (lowerOptional init) y fun e s' => s'.Ends e)
    (hb : Traces T (lowerStmt body) x fun e s' => s'.Ends e) :
    Traces T (lowerStmt (.forDo l init c step body)) (followBoth y
      (followTurns (followTurn (followForCondition T.oracle l c) x
        (step.forM (followEffect T.oracle))) turns)) fun e s' => s'.Ends e := by
  rw [lowerStmt]
  refine traces_inScope fun s0 u s' hs hrun => ?_
  obtain ⟨_, s, hinit, hrun⟩ := bind_eq_ok.1 hrun
  have hinit := hi s0 _ s hs hinit
  refine hinit.both ?_
  obtain ⟨head, s₁, hhead, hrun⟩ := bind_eq_ok.1 hrun
  obtain ⟨first, s2, hfirst, hrun⟩ := bind_eq_ok.1 hrun
  obtain ⟨next, s3, hnext, hrun⟩ := bind_eq_ok.1 hrun
  obtain ⟨exit, s4, hexit, hrun⟩ := bind_eq_ok.1 hrun
  have hlayout : s.Layout s4 [head, first, next, exit] :=
    ((((Lowering.Layout.refl hinit.tidy).newBlock hhead).newBlock hfirst).newBlock hnext).newBlock hexit
  obtain ⟨_, s5, hmark, hrun⟩ := bind_eq_ok.1 hrun
  obtain ⟨_, s6, hjump, hrun⟩ := bind_eq_ok.1 hrun
  obtain ⟨_, s7, hcond, hrun⟩ := bind_eq_ok.1 (of_setCurrent_bind hrun)
  obtain ⟨_, s8, hbody, hrun⟩ := bind_eq_ok.1 (of_setCurrent_bind hrun)
  obtain ⟨_, s9, hnext, hrun⟩ := bind_eq_ok.1 hrun
  obtain ⟨_, s10, hstep, hrun⟩ := bind_eq_ok.1 (of_setCurrent_bind hrun)
  obtain ⟨_, s11, hback, hlast⟩ := bind_eq_ok.1 hrun
  cases hlast
  obtain ⟨hplan, hstart⟩ := carries_jumpTo (T := T) hlayout mem_cons_self
    (bind_eq_ok.2 ⟨_, _, hmark, hjump⟩)
  have hplan1 := hplan.enter [] [first, next, exit]
  have hcond := traces_lowerForCondition (T := T) l c _ _ _ _ s7 hplan1.tidy hcond
  obtain ⟨hplan2, hgrows, hway⟩ :=
    leads_loopBody [] [next, exit] (hplan1.adds hcond.toAdds) hb hbody hnext
  have hplan3 := hplan2.enter [] [exit]
  have hstep := traces_optionalEffect (T := T) step _ _ s10 hplan3.tidy hstep
  have hback := traces_jump (T := T) head .fallthrough _ _ s11 hstep.tidy hback
  have hturn : T.Leads (s9.goneTo (some next)) s11 (step.forM (followEffect T.oracle))
      fun _ w => w.Starts head :=
    ⟨hstep.toAdds.trans hback.toAdds, fun hcovers =>
      (hstep.carries (hcovers.of_grows hback.toGrows)).finish fun _ => hback.carries hcovers⟩
  have hplan4 := hplan3.adds hturn.toAdds
  refine ⟨(hplan4.enter [] []).toAdds, fun hcovers => ?_⟩
  have hcovers11 := hcovers.of_goneTo
  have hcovers9 := hcovers11.before hturn.toGrows
  have hcovers7 := hcovers9.of_grows hgrows
  have hloop := carries_followTurn (hcond.carries_starts hplan mem_cons_self hcovers7) (hway hcovers9)
    (hturn.carries_starts hplan2 mem_cons_self hcovers11) turns
  exact (hstart (hcovers7.before hcond.toGrows)).then
    (hloop.imp (fun _ => id) fun e w hw => hw.ends hplan4 mem_cons_self)

end Lower

/-! ### The choice of a case -/

/-- What the blocks of the cases of a switch are chosen by: a value leads to the first case with it, the
default to the only case without one. -/
structure Chooses (cases : List SwitchCase) (blocks : List BlockId) (targets : List CaseTarget)
    (default : Option (BlockId × Location)) : Prop where
  length_eq : blocks.length = cases.length
  value : ∀ v, (targets.find? (·.value = v)).map (·.block) =
    (cases.findIdx? fun c => c.2.1.any fun label => label.constant? = some v).bind (blocks[·]?)
  default : default.map (·.1) = (cases.findIdx? fun c => c.2.1.isNone).bind (blocks[·]?)

section

variable {cases : List SwitchCase} {blocks : List BlockId} {targets : List CaseTarget}
  {default : Option (BlockId × Location)} {b : BlockId}

theorem getElem?_cons_map_succ (i? : Option Nat) :
    (i?.map (· + 1)).bind ((b :: blocks)[·]?) = i?.bind (blocks[·]?) := by
  cases i? <;> rfl

theorem Chooses.consValue (h : Chooses cases blocks targets default) {label : Expr} {n : Int}
    (hlabel : label.constant? = some n) (l l' : Location) (body : List Stmt) :
    Chooses ((l, some label, body) :: cases) (b :: blocks) (⟨n, b, l'⟩ :: targets) default where
  length_eq := congrArg (· + 1) h.length_eq
  value v := by
    rw [find?_cons, findIdx?_cons]
    by_cases hv : n = v
    · simp [hv, hlabel]
    · simp only [hv, hlabel, any_some, some.injEq, decide_false, false_eq_true,
        if_false]
      rw [getElem?_cons_map_succ]
      exact h.value v
  default := by
    rw [findIdx?_cons]
    simp only [isNone_some, false_eq_true, if_false]
    rw [getElem?_cons_map_succ]
    exact h.default

theorem Chooses.consDefault (h : Chooses cases blocks targets none) (l l' : Location)
    (body : List Stmt) :
    Chooses ((l, none, body) :: cases) (b :: blocks) targets (some (b, l')) where
  length_eq := congrArg (· + 1) h.length_eq
  value v := by
    rw [findIdx?_cons]
    simp only [any_none, false_eq_true, if_false]
    rw [getElem?_cons_map_succ]
    exact h.value v
  default := by
    rw [findIdx?_cons]
    rfl

/-- The block that a value leads to. -/
theorem Chooses.caseBlock_eq (h : Chooses cases blocks targets default) (exit : BlockId) (v : Int) :
    caseBlock targets ((default.map (·.1)).getD exit) v = (blocks[chosenCase cases v]?).getD exit := by
  have hsome : ∀ {q : SwitchCase → Bool} {i : Nat}, cases.findIdx? q = some i →
      ∃ b, blocks[i]? = some b := fun hi => by
    have hlt := (findIdx?_eq_some_iff_getElem.1 hi).1
    exact ⟨_, getElem?_eq_getElem (h.length_eq ▸ hlt)⟩
  rw [caseBlock, h.value, h.default, chosenCase]
  cases hv : cases.findIdx? fun c => c.2.1.any fun label => label.constant? = some v with
  | some i =>
    obtain ⟨b, hb⟩ := hsome hv
    simp [hb]
  | none =>
    cases hd : cases.findIdx? fun c => c.2.1.isNone with
    | some i => simp
    | none => simp [← h.length_eq]

end

namespace Lower

variable {T : Terrain} {o s s' : Lowering} {blocks fresh : List BlockId}

theorem openCases_spec (cases : List SwitchCase) {targets : List CaseTarget}
    {default : Option (BlockId × Location)} (h : o.Layout s fresh)
    (hone : (cases.filter fun c => c.2.1.isNone).length ≤ 1)
    (hrun : openCases cases s = .ok ((blocks, targets, default), s')) :
    o.Layout s' (fresh ++ blocks) ∧ Chooses cases blocks targets default := by
  induction cases generalizing s fresh blocks targets default with
  | nil =>
    cases hrun
    exact ⟨by rwa [append_nil], rfl, fun _ => rfl, rfl⟩
  | cons c rest ih =>
    obtain ⟨location, value, body⟩ := c
    obtain ⟨b, s₁, hnew, hrun⟩ := bind_eq_ok.1 hrun
    cases hnew
    cases value with
    | some label =>
      dsimp only at hrun
      cases hlabel : label.constant? with
      | none =>
        rw [hlabel] at hrun
        cases hrun
      | some n =>
        rw [hlabel] at hrun
        obtain ⟨⟨bs, ts, d⟩, s2, hrest, hlast⟩ := bind_eq_ok.1 hrun
        cases hlast
        obtain ⟨hlayout, hchooses⟩ := ih h.opened hone hrest
        rw [append_assoc] at hlayout
        exact ⟨hlayout, hchooses.consValue hlabel _ _ _⟩
    | none =>
      obtain ⟨⟨bs, ts, d⟩, s2, hrest, hlast⟩ := bind_eq_ok.1 hrun
      cases hlast
      -- no other case is the default
      have hrest' : (rest.filter fun c => c.2.1.isNone) = [] :=
        length_eq_zero_iff.1 (Nat.le_zero.1 (Nat.le_of_succ_le_succ hone))
      obtain ⟨hlayout, hchooses⟩ := ih h.opened (by rw [hrest']; exact Nat.zero_le _) hrest
      have hd : d = none := by
        have hnone := hchooses.default
        rw [findIdx?_eq_none_iff.2 fun c hc =>
          eq_false_iff.2 (filter_eq_nil_iff.1 hrest' c hc)] at hnone
        exact map_eq_none_iff.1 hnone
      rw [hd] at hchooses ⊢
      rw [append_assoc] at hlayout
      exact ⟨hlayout, hchooses.consDefault _ _ _⟩

/-- The head of a switch leads to the case that is chosen, or behind the switch. -/
theorem leads_lowerSwitchHead {l : Location} {c : Expr} {cases : List SwitchCase} {exit : BlockId}
    (hs : s.Tidy) (hone : (cases.filter fun c => c.2.1.isNone).length ≤ 1)
    (hrun : lowerSwitchHead l c cases s = .ok ((exit, blocks), s')) :
    s.Plan s' (exit :: blocks) ∧ blocks.length = cases.length ∧ (T.Covers s' →
      T.Carries s.Here (do (c.follow T.oracle).passed; T.oracle.answer)
        fun v w => w.Starts ((blocks[chosenCase cases v]?).getD exit)) := by
  obtain ⟨v, s₁, hvalue, hrun⟩ := bind_eq_ok.1 hrun
  obtain ⟨hknown, hvalue⟩ := (lower_traces (T := T) c).value s v s₁ hs (fun _ he => nomatch he) hvalue
  obtain ⟨type, _, htype, hrun⟩ := bind_eq_ok.1 hrun
  cases htype
  split at hrun
  · cases hrun
  obtain ⟨v', s2, hconvert, hrun⟩ := bind_eq_ok.1 hrun
  obtain ⟨-, hconvert⟩ := evaluates_convert (T := T) v .int [] s₁ v' s2 hvalue.tidy hknown hconvert
  obtain ⟨exit', s3, hnew, hrun⟩ := bind_eq_ok.1 hrun
  cases hnew
  obtain ⟨⟨bs, targets, default⟩, s4, hopen, hrun⟩ := bind_eq_ok.1 hrun
  obtain ⟨hlayout, hchooses⟩ :=
    openCases_spec cases (Lowering.Layout.refl hconvert.tidy).opened hone hopen
  obtain ⟨_, s5, hend, hlast⟩ := bind_eq_ok.1 hrun
  cases hlast
  have hend := leads_switch (T := T) hlayout.tidy hend
  refine ⟨(hlayout.toPlan.adds hend.toAdds).after (hvalue.toAdds.trans hconvert.toAdds),
    hchooses.length_eq, fun hcovers => ?_⟩
  have hcovers2 := hcovers.of_grows (hlayout.toGrows.trans hend.toGrows)
  have hpassed := (hvalue.carries (hcovers2.of_grows hconvert.toGrows)).bind fun _ =>
    hconvert.carries hcovers2
  refine hpassed.bind fun _ => (hend.carries hcovers).imp hlayout.here fun n w hw => ?_
  rw [← hchooses.caseBlock_eq]
  exact hw

/-- The cases of a switch lead from one to the next. A walker may begin at any of them. -/
theorem leads_lowerCases {turns : Nat} {u : Unit} (fresh : List BlockId)
    (cases : List SwitchCase) (hbodies : ∀ c ∈ cases, Traces T (lowerStmts c.2.2)
      (followAll T.oracle T.program turns c.2.2) fun e s' => s'.Ends e)
    (hlength : blocks.length = cases.length) (hplan : o.Plan s (fresh ++ blocks))
    (hrun : lowerCases cases blocks s = .ok (u, s')) :
    o.Plan s' fresh ∧ s.Grows s' ∧ (T.Covers s' →
      T.Carries s.Here (followFall (followCases T.oracle T.program turns cases)) s'.Ends ∧
      ∀ i b, blocks[i]? = some b → T.Carries (fun w => w.Starts b)
        (followFall ((followCases T.oracle T.program turns cases).drop i)) s'.Ends) := by
  induction cases generalizing s blocks with
  | nil =>
    obtain rfl := length_eq_zero_iff.1 hlength
    unfold lowerCases at hrun
    cases hrun
    rw [append_nil] at hplan
    refine ⟨hplan, .refl _, fun _ => ⟨carries_pure fun _ => id, fun i b hb => ?_⟩⟩
    cases hb
  | cons c rest ih =>
    obtain ⟨l, value, body⟩ := c
    cases blocks with
    | nil => cases hlength
    | cons b blocks =>
      rw [lowerCases] at hrun
      obtain ⟨_, s₁, hjump, hrun⟩ := bind_eq_ok.1 hrun
      obtain ⟨_, s2, hbody, hrun⟩ := bind_eq_ok.1 (of_setCurrent_bind hrun)
      have hjump := traces_jumpIfOpen (T := T) b s _ s₁ hplan.tidy hjump
      have hplan1 := hplan.adds hjump.toAdds
      have hplan2 := hplan1.enter fresh blocks
      have hbody := hbodies _ mem_cons_self _ _ s2 hplan2.tidy hbody
      have hplan3 := hplan2.adds hbody.toAdds
      obtain ⟨hplan', hgrows, hrest⟩ := ih (fun c hc => hbodies c (mem_cons_of_mem _ hc))
        (Nat.succ.inj hlength) hplan3 hrun
      refine ⟨hplan', (hjump.toGrows.trans hbody.toGrows.of_goneTo).trans hgrows, fun hcovers => ?_⟩
      obtain ⟨hfall, hstarts⟩ := hrest hcovers
      have hcovers2 := hcovers.of_grows hgrows
      have hfirst := (hbody.carries_starts hplan1 (mem_append_right _ mem_cons_self)
        hcovers2).both hfall (hplan'.targets.trans hplan3.targets.symm)
      refine ⟨(hjump.carries (hcovers2.before hbody.toGrows)).then hfirst, fun i d hd => ?_⟩
      cases i with
      | zero =>
        cases hd
        exact hfirst
      | succ i => exact hstarts i d hd

theorem length_followCases (ω : Oracle) (p : Program) (turns : Nat) (cases : List SwitchCase) :
    (followCases ω p turns cases).length = cases.length := by
  induction cases with
  | nil => rfl
  | cons c rest ih =>
    obtain ⟨l, value, body⟩ := c
    exact congrArg (· + 1) ih

/-- Behind a switch, a `break` of one of its cases ends normally. -/
theorem traces_lowerSwitch (l : Location) (c : Expr) (cases : List SwitchCase) (turns : Nat)
    (hone : (cases.filter fun c => c.2.1.isNone).length ≤ 1)
    (hbodies : ∀ c ∈ cases, Traces T (lowerStmts c.2.2)
      (followAll T.oracle T.program turns c.2.2) fun e s' => s'.Ends e) :
    Traces T (lowerStmt (.switch l c cases)) (do
      (c.follow T.oracle).passed
      let v ← T.oracle.answer
      return afterSwitch (← followFall
        ((followCases T.oracle T.program turns cases).drop (chosenCase cases v))))
      fun e s' => s'.Ends e := by
  intro s u s' hs hrun
  rw [lowerStmt] at hrun
  obtain ⟨⟨exit, blocks⟩, s₁, hhead, hrun⟩ := bind_eq_ok.1 hrun
  obtain ⟨hplan, hlength, hhead⟩ := leads_lowerSwitchHead (T := T) hs hone hhead
  obtain ⟨_, s2, hcases, hrun⟩ := bind_eq_ok.1 hrun
  obtain ⟨_, s3, hjump, hlast⟩ := bind_eq_ok.1 hrun
  cases hlast
  obtain ⟨s4, hinner, rfl⟩ := inTargets_eq_ok.1 hcases
  rw [hplan.targets] at hinner
  obtain ⟨hplan4, hgrows, hfall⟩ := leads_lowerCases [exit] cases hbodies hlength
    (hplan.within (⟨exit, none⟩ :: s.targets)) hinner
  have hplan2 := Lowering.plan_of_within hplan4
  have hjump := traces_jumpIfOpen (T := T) exit _ _ s3 hplan2.tidy hjump
  have hplan3 := hplan2.adds hjump.toAdds
  refine ⟨(hplan3.enter [] []).toAdds, fun hcovers => ?_⟩
  have hcovers3 := hcovers.of_goneTo
  have hcovers4 := (hcovers3.of_grows hjump.toGrows).of_within
  have hcovers1 := (hcovers4.of_grows hgrows).of_within
  have hexit : ∀ w : Walker, w.Starts exit → (s3.goneTo (some exit)).Here w := fun w hw =>
    hplan3.here mem_cons_self hw
  have htargets : s4.targets = ⟨exit, none⟩ :: s.targets := hplan4.targets
  change T.Carries s.Here ((do (c.follow T.oracle).passed; T.oracle.answer) >>= fun v =>
    followFall ((followCases T.oracle T.program turns cases).drop (chosenCase cases v)) >>=
      fun e => pure (afterSwitch e)) _
  refine (hhead hcovers1).bind fun v => ?_
  cases hb : blocks[chosenCase cases v]? with
  | none =>
    have hnil : (followCases T.oracle T.program turns cases).drop (chosenCase cases v) = [] := by
      rw [drop_eq_nil_iff, length_followCases, ← hlength]
      exact getElem?_eq_none_iff.1 hb
    rw [hnil]
    exact carries_pure hexit
  | some b =>
    refine ((hfall hcovers4).2 _ b hb).bind fun e => ?_
    cases e with
    | normal =>
      exact ((hjump.carries hcovers3).imp (fun w hw => ⟨hw.current, hw.index⟩) fun _ _ => id).then
        (carries_pure hexit)
    | «break» =>
      refine carries_pure fun w hw => ?_
      obtain ⟨t, ht, hw⟩ := hw
      rw [htargets] at ht
      cases ht
      exact hexit w hw
    | «continue» =>
      refine carries_pure fun w hw => ?_
      obtain ⟨d, hd, hw⟩ := hw
      rw [htargets] at hd
      exact ⟨d, by rw [← hd]; exact congrArg (List.findSome? (·.continueTo)) hplan3.targets, hw⟩
    | «return» | unfinished => exact carries_pure fun _ => id

end Lower

/-! ### Statements -/

variable {T : Terrain} {turns : Nat}

mutual

/-- **The code of a statement** leads through its course, to where its end leads. -/
theorem lowerStmt_traces (s : Stmt) (hs : s.every Stmt.isStructured = true) :
    Lower.Traces T (lowerStmt s) (s.follow T.oracle T.program turns) fun e s' => s'.Ends e := by
  unfold Stmt.every at hs
  obtain ⟨hkind, hparts⟩ := and_eq_true_iff.1 hs
  unfold Stmt.follow
  match s with
  | .empty _ =>
    rw [lowerStmt]
    exact traces_pure.normal
  | .expr _ e =>
    rw [lowerStmt]
    exact (traces_lowerEffect e).normal
  | .decl _ ds =>
    rw [lowerStmt]
    exact (traces_lowerDecls ds).normal
  | .block _ body =>
    rw [lowerStmt]
    exact traces_inScope (lowerStmts_traces body hparts)
  | .ifThen l c yes no =>
    obtain ⟨hyes, hno⟩ := and_eq_true_iff.1 hparts
    exact traces_ifThen l c yes no (lowerStmt_traces yes hyes) (lowerOptional_traces no hno)
  | .whileDo l c body => exact traces_whileDo l c body turns (lowerStmt_traces body hparts)
  | .doWhile l body c => exact traces_doWhile l body c turns (lowerStmt_traces body hparts)
  | .forDo l init c step body =>
    obtain ⟨hinit, hbody⟩ := and_eq_true_iff.1 hparts
    exact traces_forDo l init c step body turns (lowerOptional_traces init hinit)
      (lowerStmt_traces body hbody)
  | .switch l c cases =>
    exact traces_lowerSwitch l c cases turns (of_decide_eq_true hkind) (lowerCases_traces cases hparts)
  | .break l => exact traces_break l
  | .continue l => exact traces_continue l
  | .return l value =>
    rw [lowerStmt]
    exact traces_lowerReturn l value
  | .goto _ _ => cases hkind
  | .label l name =>
    rw [lowerStmt]
    exact (traces_lowerLabel l name).normal

/-- The code of statements, one after the other. -/
theorem lowerStmts_traces (body : List Stmt) (hs : everyOf Stmt.isStructured body = true) :
    Lower.Traces T (lowerStmts body) (followAll T.oracle T.program turns body)
      fun e s' => s'.Ends e := by
  unfold lowerStmts followAll
  match body with
  | [] => exact traces_pure.normal
  | s :: rest =>
    unfold everyOf at hs
    obtain ⟨hs, hrest⟩ := and_eq_true_iff.1 hs
    intro s0 u s' htidy hrun
    obtain ⟨_, s₁, hfirst, hrun⟩ := bind_eq_ok.1 hrun
    have hfirst := lowerStmt_traces s hs s0 _ s₁ htidy hfirst
    exact hfirst.both (lowerStmts_traces rest hrest s₁ _ s' hfirst.tidy hrun)

theorem lowerOptional_traces (s : Option Stmt) (hs : everyOptional Stmt.isStructured s = true) :
    Lower.Traces T (lowerOptional s) (followOptional T.oracle T.program turns s)
      fun e s' => s'.Ends e := by
  unfold lowerOptional followOptional
  match s with
  | some s => exact lowerStmt_traces s hs
  | none => exact traces_pure.normal

theorem lowerCases_traces (cases : List (Location × Option Expr × List Stmt))
    (hs : everyCase Stmt.isStructured cases = true) : ∀ c ∈ cases,
      Lower.Traces T (lowerStmts c.2.2) (followAll T.oracle T.program turns c.2.2)
        fun e s' => s'.Ends e := by
  match cases with
  | [] => exact fun c hc => absurd hc not_mem_nil
  | (l, value, body) :: rest =>
    unfold everyCase at hs
    obtain ⟨hbody, hrest⟩ := and_eq_true_iff.1 hs
    intro c hc
    rcases mem_cons.1 hc with rfl | hc
    · exact lowerStmts_traces body hbody
    · exact lowerCases_traces rest hrest c hc

end

end PathScout

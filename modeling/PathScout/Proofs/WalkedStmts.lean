import PathScout.Proofs.WalkedExprs

/-!
# Walks through built statements

The code of a statement leads a walker through the course of the statement, to the end of the code or
to where the statement jumps. Declarations set the parts of a variable in the order of their list.

* `Lowering.Ends`, `Lowering.EndsIn`: where a walker stands after a statement, as the course ended.
* `Terrain.Leads.both`: one statement after another.
* `Lower.traces_lowerDecl`, `Lower.traces_ifThen`, `Lower.traces_lowerLabel`: statements without
  loops.
-/

namespace PathScout

open Lower List

namespace Lower

variable {T : Terrain}

/-! ### Declarations -/

theorem evaluates_addChars (span : Span) (path : List InitStep) (parts : List (Nat × Nat)) :
    Evaluates T (parts.mapM fun part => do
      let v ← addExpr (.int part.1) .char span
      return (⟨path ++ [.element part.2], v⟩ : InitEntry))
      (parts.forM fun part => perform (.expr (.constant part.1) span)) []
      fun entries => entries.map (·.value) := by
  induction parts with
  | nil => exact evaluates_pure rfl
  | cons part parts ih =>
    have hpart : Evaluates T (do
        let v ← addExpr (.int part.1) .char span
        return (⟨path ++ [.element part.2], v⟩ : InitEntry))
        (perform (.expr (.constant part.1) span)) [] fun entry => [entry.value] :=
      (evaluates_addExpr (.int part.1) .char span).finish fun v => evaluates_pure rfl
    rw [mapM_cons]
    exact hpart.bind fun entry => (ih.after [entry.value]).finish fun entries => evaluates_pure rfl

theorem evaluates_lowerInitExpr (type : CType) (e : Expr) (path : List InitStep) :
    Evaluates T (lowerInitExpr type e path) (followInitExpr T.oracle type e) []
      fun entries => entries.map (·.value) := by
  have hvalue : Evaluates T (do
      if type.isArray then fail (.invalidOperands .arrayFromExpr) e.location
      else
        let v ← convert (← (lower e).value) type
        return [(⟨path, v⟩ : InitEntry)]) (e.follow T.oracle).passed []
        fun entries => entries.map (·.value) := by
    split
    · exact evaluates_fail
    · exact (lower_traces e).value.bind fun v => (evaluates_convert v type []).finish fun v =>
        evaluates_pure rfl
  unfold lowerInitExpr followInitExpr
  cases e with
  | string span s =>
    cases helement : type.element? with
    | none => exact hvalue
    | some element =>
      cases element with
      | char => exact evaluates_addChars span path _
      | _ => exact hvalue
  | _ => exact hvalue

theorem initSlots_congr {p p' : Program} (h : p'.structs = p.structs) (type : CType) (count : Nat) :
    initSlots p' type count = initSlots p type count := by
  cases type <;> simp only [initSlots, Program.structNamed?, Program.struct, h]

/-- The parts of a type are the same in the finished program. -/
theorem initSlots_eq {s s' : Lowering} (hadds : s.Adds s') (hcovers : T.Covers s') (type : CType)
    (count : Nat) : initSlots T.program type count = initSlots s.program type count :=
  initSlots_congr (hcovers.of_grows hadds.toGrows).structs type count

mutual

/-- The code that sets a part leads through its course. -/
theorem lowerInit_evaluates (item : Initializer) (type : CType) (path : List InitStep) :
    Evaluates T (lowerInit item type path) (item.follow T.oracle T.program type) []
      fun entries => entries.map (·.value) := by
  unfold lowerInit Initializer.follow
  match item with
  | .expr e => exact evaluates_lowerInitExpr type e path
  | .list _ items =>
    intro s entries s' hs hknown hrun
    cases type with
    | array element size =>
      obtain ⟨_, _, hget, hrun⟩ := bind_eq_ok.1 hrun
      cases hget
      cases hslots : initSlots s.program (.array element size) items.length with
      | none =>
        rw [hslots] at hrun
        have hnone : Evaluates T (pure []) (pure ()) [] fun entries : List InitEntry =>
            entries.map (·.value) := evaluates_pure rfl
        obtain ⟨hknown, h⟩ := hnone s entries s' hs hknown hrun
        refine ⟨hknown, h.of_eq fun hcovers => ?_⟩
        dsimp only
        rw [initSlots_eq h.toAdds hcovers, hslots]
      | some slots =>
        rw [hslots] at hrun
        obtain ⟨hknown, h⟩ := lowerInitSlots_evaluates items slots path s entries s' hs hknown hrun
        refine ⟨hknown, h.of_eq fun hcovers => ?_⟩
        dsimp only
        rw [initSlots_eq h.toAdds hcovers, hslots]
    | struct name =>
      obtain ⟨_, _, hget, hrun⟩ := bind_eq_ok.1 hrun
      cases hget
      cases hslots : initSlots s.program (.struct name) items.length with
      | none =>
        rw [hslots] at hrun
        cases hrun
      | some slots =>
        rw [hslots] at hrun
        obtain ⟨hknown, h⟩ := lowerInitSlots_evaluates items slots path s entries s' hs hknown hrun
        refine ⟨hknown, h.of_eq fun hcovers => ?_⟩
        dsimp only
        rw [initSlots_eq h.toAdds hcovers, hslots]
    | _ => exact lowerInitFirst_evaluates items _ path s entries s' hs hknown hrun

/-- The code that sets the parts of an aggregate leads through their course. -/
theorem lowerInitSlots_evaluates (items : List Initializer) (slots : List (CType × InitStep))
    (path : List InitStep) : Evaluates T (lowerInitSlots items slots path)
      (followSlots T.oracle T.program items slots) [] fun entries => entries.map (·.value) := by
  unfold lowerInitSlots followSlots
  match items, slots with
  | item :: items, (type, step) :: slots =>
    exact (lowerInit_evaluates item type (path ++ [step])).bind fun first =>
      ((lowerInitSlots_evaluates items slots path).after _).finish fun more =>
        evaluates_pure map_append.symm
  | [], _ | _ :: _, [] => exact evaluates_pure rfl

theorem lowerInitFirst_evaluates (items : List Initializer) (type : CType) (path : List InitStep) :
    Evaluates T (lowerInitFirst items type path) (followFirst T.oracle T.program items type) []
      fun entries => entries.map (·.value) := by
  unfold lowerInitFirst followFirst
  match items with
  | item :: _ => exact lowerInit_evaluates item type path
  | [] => exact evaluates_pure rfl

end

theorem traces_lowerDecl (d : VarDecl) :
    Traces T (lowerDecl d) (d.follow T.oracle T.program) fun _ => Lowering.Here := by
  unfold lowerDecl VarDecl.follow followInit
  dsimp only
  generalize completeArray d.type d.init = type
  refine Evaluates.traces ((traces_requireComplete type d.location).before fun _ =>
    (traces_declareVar d.name type _ d.location).before fun v => ?_)
  cases d.isStatic with
  | true => exact evaluates_pure rfl
  | false =>
    match d.init with
    | none => exact evaluates_pushDecl v none d.location fun _ => rfl
    | some (.expr e) =>
      dsimp only
      cases type.isArray with
      | true =>
        exact (evaluates_lowerInitExpr type e []).bind fun entries =>
          evaluates_pushDecl v (some (.list entries)) d.location fun _ => rfl
      | false =>
        exact (lower_traces e).passed [] fun v' => (evaluates_convert v' type []).bind fun v' =>
          evaluates_pushDecl v (some (.expr v')) d.location fun _ => rfl
    | some (.list l items) =>
      exact (lowerInit_evaluates (.list l items) type []).bind fun entries =>
        evaluates_pushDecl v (some (.list entries)) d.location fun _ => rfl

end Lower

/-! ### Ends of statements -/

/-- A walker stands where a statement that ended so leads: behind it, or where a jump goes. -/
def Lowering.Ends (s : Lowering) : Ending → Walker → Prop
  | .normal, w => s.Here w
  | .break, w => ∃ t, s.targets.head? = some t ∧ w.Starts t.breakTo
  | .continue, w => ∃ b, s.targets.findSome? (·.continueTo) = some b ∧ w.Starts b
  | .return, w => w.Starts ⟨1⟩
  | .unfinished, _ => True

/-- A walker stands where a statement that ended so leads, and behind it there is a block. -/
def Lowering.EndsIn (s : Lowering) (next : BlockId) : Ending → Walker → Prop
  | .normal, w => w.Starts next
  | e, w => s.Ends e w

section

variable {T : Terrain} {o s s' s₁ : Lowering} {e : Ending} {w : Walker} {b next : BlockId}
  {blocks : List BlockId} {P : Walker → Prop} {x y : Following Ending} {u u' : Unit}
  {act : Lower Unit}

/-- Where a jump leads does not change as more is built. -/
theorem Lowering.Ends.jump (h : s.Ends e w) (he : e ≠ .normal) (ht : s'.targets = s.targets) :
    s'.Ends e w := by
  cases e with
  | normal => exact absurd rfl he
  | «break» =>
    obtain ⟨t, htarget, hw⟩ := h
    exact ⟨t, (congrArg List.head? ht).trans htarget, hw⟩
  | «continue» =>
    obtain ⟨b, htarget, hw⟩ := h
    exact ⟨b, by rw [ht, htarget], hw⟩
  | «return» | unfinished => exact h

theorem Lowering.endsIn_of_ne (he : e ≠ .normal) : s.EndsIn next e w ↔ s.Ends e w := by
  cases e with
  | normal => exact absurd rfl he
  | _ => rfl

theorem Lowering.EndsIn.ends (h : s.EndsIn b e w) (hplan : o.Plan s blocks) (hb : b ∈ blocks) :
    (s.goneTo (some b)).Ends e w := by
  by_cases he : e = .normal
  · subst he
    exact hplan.here hb h
  · exact ((Lowering.endsIn_of_ne he).1 h).jump he rfl

theorem Lowering.EndsIn.of_targets_eq (h : s.EndsIn next e w) (ht : s'.targets = s.targets) :
    s'.EndsIn next e w := by
  by_cases he : e = .normal
  · subst he
    exact h
  · rw [Lowering.endsIn_of_ne he] at h ⊢
    exact h.jump he ht

/-- One statement, and then another one unless the first one jumps away. -/
theorem Terrain.Carries.both (h : T.Carries P x s₁.Ends) (h' : T.Carries s₁.Here y s'.Ends)
    (ht : s'.targets = s₁.targets) : T.Carries P (followBoth x y) s'.Ends :=
  h.bind fun e => by
    cases e with
    | normal => exact h'
    | _ => exact Terrain.carries_pure fun w hw => hw.jump (fun he => nomatch he) ht

theorem Terrain.Leads.both (h : T.Leads s s₁ x s₁.Ends) (h' : T.Leads s₁ s' y s'.Ends) :
    T.Leads s s' (followBoth x y) s'.Ends :=
  ⟨h.toAdds.trans h'.toAdds, fun hcovers =>
    (h.carries (hcovers.of_grows h'.toGrows)).both (h'.carries hcovers) h'.targets⟩

/-- What ends normally. -/
theorem Lower.Traces.normal {α : Type} {act : Lower α} {x : Following Unit}
    (h : Traces T act x fun _ => Lowering.Here) :
    Traces T act (do x; return .normal) fun e s' => s'.Ends e := by
  intro s a s' hs hrun
  have h := h s a s' hs hrun
  exact ⟨h.toAdds, fun hcovers => (h.carries hcovers).bind fun _ => Terrain.carries_pure fun _ => id⟩

/-- After a statement that ended normally, a walker goes to the next block. -/
theorem carries_jumpIfOpen (h : T.Leads s s₁ x s₁.Ends) (hrun : jumpIfOpen next s₁ = .ok (u, s')) :
    s.Adds s' ∧ s₁.Grows s' ∧ (T.Covers s' → T.Carries s.Here x (s'.EndsIn next)) := by
  have hjump := traces_jumpIfOpen (T := T) next s₁ u s' h.tidy hrun
  refine ⟨h.toAdds.trans hjump.toAdds, hjump.toGrows, fun hcovers => ?_⟩
  refine (h.carries (hcovers.of_grows hjump.toGrows)).finish fun e => ?_
  cases e with
  | normal => exact hjump.carries hcovers
  | _ => exact Terrain.carries_pure fun w hw => hw.jump (fun he => nomatch he) hjump.targets

/-- A statement in a block that was set aside, from which a walker goes on to the next block. -/
theorem leads_way (before after : List BlockId) (hplan : o.Plan s (before ++ b :: after))
    (hact : Traces T act x fun e s' => s'.Ends e)
    (hrun : act (s.goneTo (some b)) = .ok (u, s₁)) (hjump : jumpIfOpen next s₁ = .ok (u', s')) :
    o.Plan s' (before ++ after) ∧ s.Grows s' ∧
      (T.Covers s' → T.Carries (fun w => w.Starts b) x (s'.EndsIn next)) := by
  have hplan1 := hplan.enter before after
  have h := hact _ u s₁ hplan1.tidy hrun
  obtain ⟨hadds, -, hcarries⟩ := carries_jumpIfOpen h hjump
  refine ⟨hplan1.adds hadds, hadds.toGrows.of_goneTo, fun hcovers => ?_⟩
  refine (hcarries hcovers).imp (fun w hw => hplan.here ?_ hw) fun _ _ => id
  exact mem_append_right _ mem_cons_self

end

namespace Lower

variable {T : Terrain} {turns : Nat}

/-! ### Simple statements -/

theorem traces_lowerEffect (e : Expr) :
    Traces T (lowerEffect e) (followEffect T.oracle e) fun _ => Lowering.Here := by
  refine Evaluates.traces ((lower_traces e).value.bind fun v => ?_)
  have hmark : Evaluates T markRoot (pure ()) [] fun _ => [] := traces_markRoot.evaluates []
  refine hmark.silent (fun vs => ?_) fun _ he => absurd he not_mem_nil
  rw [append_nil]
  exact .drop vs v

theorem traces_optionalEffect (e : Option Expr) :
    Traces T (e.forM lowerEffect) (e.forM (followEffect T.oracle)) fun _ => Lowering.Here := by
  cases e with
  | none => exact traces_pure
  | some e => exact traces_lowerEffect e

theorem traces_lowerDecls (ds : List VarDecl) :
    Traces T (ds.forM lowerDecl) (ds.forM (VarDecl.follow T.oracle T.program))
      fun _ => Lowering.Here := by
  induction ds with
  | nil => exact traces_pure
  | cons d ds ih => exact (traces_lowerDecl d).bind fun _ => ih

/-- A value is returned, or dropped if the function returns nothing. -/
theorem leads_pushResult {s s' : Lowering} {e : ExprId} {l : Location} {u : Unit} {r : Option ExprId}
    (hs : s.Tidy) (hr : r = if s.returns.isVoid then none else some e)
    (hrun : pushElement (.return r l) s = .ok (u, s')) :
    T.Leads s s' (perform (.result l)) (fun _ => s'.Here) [e] [] := by
  have hgrows := (adds_pushElement hs hrun).toGrows
  refine leads_pushElement hs hrun fun hcovers vs => ?_
  rw [hr, ← (hcovers.of_grows hgrows).returns, append_nil]
  exact .result vs e l

theorem traces_lowerReturn (l : Location) (value : Option Expr) : Traces T (lowerReturn l value)
    (do followReturn T.oracle l value; return .return : Following Ending) fun e s' => s'.Ends e := by
  have hjump : Traces T (jump ⟨1⟩ .return) (return .return : Following Ending)
      fun e s' => s'.Ends e := fun s u s' hs hrun =>
    have h := traces_jump (T := T) ⟨1⟩ .return s u s' hs hrun
    ⟨h.toAdds, fun hcovers => (h.carries hcovers).bind fun _ => Terrain.carries_pure fun _ => id⟩
  intro s u s' hs hrun
  obtain ⟨_, _, hget, hrun⟩ := bind_eq_ok.1 hrun
  cases hget
  cases value with
  | none =>
    obtain ⟨_, _, hnone, hrun⟩ := bind_eq_ok.1 hrun
    cases hnone
    obtain ⟨_, s1, hpush, hrun⟩ := bind_eq_ok.1 hrun
    have hpush : T.Leads s s1 (perform (.return l)) fun _ => s1.Here :=
      leads_pushElement hs hpush fun _ vs => .step vs rfl
    exact hpush.bind fun _ => hjump _ _ _ hpush.tidy hrun
  | some e =>
    obtain ⟨v, s1, hvalue, hrun⟩ := bind_eq_ok.1 hrun
    obtain ⟨hknown, hvalue⟩ :=
      (lower_traces (T := T) e).value s v s1 hs (fun _ he => nomatch he) hvalue
    obtain ⟨v', r, s2, hconvert, hr, hrun⟩ : ∃ v' r s2,
        T.Leads s1 s2 (perform (.convert 0)) (fun _ => s2.Here) [v] [v'] ∧
        r = (if s.returns.isVoid then none else some v') ∧
        (do pushElement (.return r l); jump ⟨1⟩ .return : Lower Unit) s2 = .ok (u, s') := by
      cases hvoid : s.returns.isVoid with
      | true =>
        rw [hvoid] at hrun
        exact ⟨v, none, s1, (evaluates_alike v [] s1 v s1 hvalue.tidy hknown rfl).2, rfl, hrun⟩
      | false =>
        rw [hvoid] at hrun
        obtain ⟨v', s2, hconvert, hrun⟩ := bind_eq_ok.1 hrun
        exact ⟨v', some v', s2,
          (evaluates_convert v s.returns [] s1 v' s2 hvalue.tidy hknown hconvert).2, rfl, hrun⟩
    obtain ⟨_, s3, hpush, hrun⟩ := bind_eq_ok.1 hrun
    have hpush := leads_pushResult (T := T) hconvert.tidy
      (by rw [hconvert.returns, hvalue.returns, hr]) hpush
    have hend := hpush.bind fun _ => hjump _ _ _ hpush.tidy hrun
    exact hvalue.bind fun _ => hconvert.bind fun _ => hend

theorem traces_break (l : Location) : Traces T (lowerStmt (.break l))
    (return .break : Following Ending) fun e s' => s'.Ends e := by
  intro s u s' hs hrun
  rw [lowerStmt] at hrun
  obtain ⟨_, _, hget, hrun⟩ := bind_eq_ok.1 hrun
  cases hget
  cases htarget : s.targets.head? with
  | none =>
    rw [htarget] at hrun
    cases hrun
  | some t =>
    rw [htarget] at hrun
    have h := traces_jump (T := T) t.breakTo .break s u s' hs hrun
    refine ⟨h.toAdds, fun hcovers => (h.carries hcovers).then ?_⟩
    exact Terrain.carries_pure fun w hw => ⟨t, (congrArg List.head? h.targets).trans htarget, hw⟩

theorem traces_continue (l : Location) : Traces T (lowerStmt (.continue l))
    (return .continue : Following Ending) fun e s' => s'.Ends e := by
  intro s u s' hs hrun
  rw [lowerStmt] at hrun
  obtain ⟨_, _, hget, hrun⟩ := bind_eq_ok.1 hrun
  cases hget
  cases htarget : s.targets.findSome? (·.continueTo) with
  | none =>
    rw [htarget] at hrun
    cases hrun
  | some b =>
    rw [htarget] at hrun
    have h := traces_jump (T := T) b .continue s u s' hs hrun
    refine ⟨h.toAdds, fun hcovers => (h.carries hcovers).then ?_⟩
    exact Terrain.carries_pure fun w hw => ⟨b, by rw [h.targets]; exact htarget, hw⟩

theorem traces_inScope {act : Lower Unit} {x : Following Ending}
    (h : Traces T act x fun e s' => s'.Ends e) :
    Traces T (inScope act) x fun e s' => s'.Ends e := by
  intro s u s' hs hrun
  obtain ⟨_, s₁, hopen, hrun⟩ := bind_eq_ok.1 hrun
  obtain ⟨_, s₂, hact, hclose⟩ := bind_eq_ok.1 hrun
  cases hopen
  cases hclose
  have h : T.Leads { s with scopes := [] :: s.scopes } s₂ x s₂.Ends :=
    h _ u s₂ ⟨hs.current, hs.labels⟩ hact
  refine ⟨⟨⟨h.exprs_le, h.expr_eq, h.structs, h.returns, h.block⟩, ⟨h.tidy.current, h.tidy.labels⟩, h.apart,
    h.current, h.targets⟩, fun hcovers => ?_⟩
  have hcovers' : T.Covers s₂ := ⟨hcovers.expr_eq, hcovers.structs, hcovers.returns, hcovers.block⟩
  refine (h.carries hcovers').imp (fun w hw => ⟨hw.current, hw.index⟩) fun e w hw => ?_
  cases e with
  | normal => exact ⟨hw.current, hw.index⟩
  | _ => exact hw.jump (fun he => nomatch he) rfl

/-! ### Labels -/

/-- A label that no jump goes to opens a block, to which the current one leads. -/
theorem traces_lowerLabel (l : Location) (name : String) :
    Traces T (lowerLabel l name) (pure () : Following Unit) fun _ => Lowering.Here := by
  intro s u s' hs hrun
  obtain ⟨b, s₁, hblock, hrun⟩ := bind_eq_ok.1 hrun
  obtain ⟨_, _, hget, hrun⟩ := bind_eq_ok.1 hrun
  cases hget
  obtain ⟨_, _, hget, hblock⟩ := bind_eq_ok.1 hblock
  cases hget
  cases hlookup : s.labels.lookup name with
  | some info =>
    -- a label that is there already is defined
    rw [hlookup] at hblock
    cases hblock
    rw [hlookup] at hrun
    have hdef : info.isDefined = true := hs.labels _ (Draft.mem_of_lookup hlookup)
    dsimp only at hrun
    rw [if_pos hdef] at hrun
    cases hrun
  | none =>
    rw [hlookup] at hblock
    cases hblock
    have hfound : (s.labels ++ [(name, (⟨⟨s.room⟩, false, l⟩ : LabelInfo))]).lookup name =
        some ⟨⟨s.room⟩, false, l⟩ := by
      rw [lookup_append, hlookup]
      simp
    dsimp only at hrun
    rw [hfound] at hrun
    obtain ⟨_, s₁, hmet, hrun⟩ := bind_eq_ok.1 hrun
    obtain ⟨_, s₂, hjump, hgo⟩ := bind_eq_ok.1 hrun
    cases hgo
    have hplan : s.Layout s₁ [⟨s.room⟩] := by
      cases hmet
      refine (Lowering.Layout.refl hs).opened.labelled fun x hx => ?_
      obtain ⟨⟨n, i⟩, hy, rfl⟩ := mem_map.1 hx
      dsimp only
      split
      · rfl
      · next hne =>
        rcases mem_append.1 hy with hy | hy
        · exact hs.labels _ hy
        · cases mem_singleton.1 hy
          exact absurd rfl hne
    have hjump := traces_jumpIfOpen (T := T) _ s₁ _ s₂ hplan.tidy hjump
    have hplan2 := hplan.toPlan.adds hjump.toAdds
    exact ⟨(hplan2.enter [] []).toAdds, fun hcovers => (hjump.carries hcovers.of_goneTo).imp
      hplan.here fun _ _ hw => hplan2.here mem_cons_self hw⟩

/-! ### Conditional statements -/

theorem traces_ifThen (l : Location) (c : Expr) (yes : Stmt) (no : Option Stmt)
    {x y : Following Ending} (hy : Traces T (lowerStmt yes) x fun e s' => s'.Ends e)
    (hn : Traces T (lowerOptional no) y fun e s' => s'.Ends e) :
    Traces T (lowerStmt (.ifThen l c yes no)) (followEither (c.follow T.oracle).condition x y)
      fun e s' => s'.Ends e := by
  intro s u s' hs hrun
  rw [lowerStmt] at hrun
  obtain ⟨b1, s₁, hyes, hrun⟩ := bind_eq_ok.1 hrun
  obtain ⟨next, s₂, hnext, hrun⟩ := bind_eq_ok.1 hrun
  cases hyes
  cases hnext
  have hlayout := (Lowering.Layout.refl hs).opened.opened
  cases no with
  | none =>
    obtain ⟨_, _, hno, hrun⟩ := bind_eq_ok.1 hrun
    cases hno
    obtain ⟨_, s3, hcond, hrun⟩ := bind_eq_ok.1 hrun
    obtain ⟨_, s4, hyes, hrun⟩ := bind_eq_ok.1 (of_setCurrent_bind hrun)
    obtain ⟨_, s5, hjump, hrun⟩ := bind_eq_ok.1 hrun
    obtain ⟨_, _, helse, hlast⟩ := bind_eq_ok.1 hrun
    rw [lowerElse] at helse
    cases helse
    cases hlast
    have hcond := (lower_traces (T := T) c).branch _ _ _ _ _ s3 hlayout.tidy hcond
    have hplan := hlayout.toPlan.adds hcond.toAdds
    obtain ⟨hplan1, hgrows, hway⟩ := leads_way [] [_] hplan hy hyes hjump
    have hlast := hn _ () _ (hplan1.enter [] []).tidy (by rw [lowerOptional]; rfl)
    refine ⟨(hplan1.enter [] []).toAdds, fun hcovers => ?_⟩
    have hcovers5 := hcovers.of_goneTo
    refine ((hcond.carries (hcovers5.of_grows hgrows)).imp hlayout.here fun _ _ => id).bind fun b => ?_
    cases b with
    | true => exact (hway hcovers5).imp (fun _ => id) fun e w hw => hw.ends hplan1 mem_cons_self
    | false => exact hlast.carries_starts hplan1 mem_cons_self hcovers
  | some no =>
    obtain ⟨_, _, hno, hrun⟩ := bind_eq_ok.1 hrun
    cases hno
    obtain ⟨_, s3, hcond, hrun⟩ := bind_eq_ok.1 hrun
    obtain ⟨_, s4, hyes, hrun⟩ := bind_eq_ok.1 (of_setCurrent_bind hrun)
    obtain ⟨_, s5, hjump, hrun⟩ := bind_eq_ok.1 hrun
    obtain ⟨_, s7, helse, hlast⟩ := bind_eq_ok.1 hrun
    rw [lowerElse] at helse
    obtain ⟨_, s6, hno, hjump'⟩ := bind_eq_ok.1 (of_setCurrent_bind helse)
    cases hlast
    have hcond := (lower_traces (T := T) c).branch _ _ _ _ _ s3 hlayout.opened.tidy hcond
    have hplan := hlayout.opened.toPlan.adds hcond.toAdds
    obtain ⟨hplan1, hgrows, hway⟩ := leads_way [] [_, _] hplan hy hyes hjump
    rw [lowerOptional] at hn
    obtain ⟨hplan2, hgrows', hway'⟩ := leads_way [_] [] hplan1 hn hno hjump'
    refine ⟨(hplan2.enter [] []).toAdds, fun hcovers => ?_⟩
    have hcovers7 := hcovers.of_goneTo
    have hcovers5 := hcovers7.of_grows hgrows'
    refine ((hcond.carries (hcovers5.of_grows hgrows)).imp hlayout.opened.here fun _ _ => id).bind
      fun b => ?_
    cases b with
    | true =>
      refine (hway hcovers5).imp (fun _ => id) fun e w hw => ?_
      exact (hw.of_targets_eq (hplan2.targets.trans hplan1.targets.symm)).ends hplan2 mem_cons_self
    | false => exact (hway' hcovers7).imp (fun _ => id) fun e w hw => hw.ends hplan2 mem_cons_self

end Lower

end PathScout

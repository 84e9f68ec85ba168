import PathScout.Proofs.Drafts
import PathScout.Proofs.PlacedExprs

/-!
# Statements go on to higher places

A statement goes on to higher places below a bound, if `break` and `continue` lead beyond the bound or
to the head of a loop. A loop leads back to its head only. The condition of a `do` loop, which is built
after the body, gets lower places than the body: the edge to it leads back, and its block is the head.

* `Chart.Stands`: what is needed to build a statement below a bound.
* `Lower.Proceeds`: an action that goes on to higher places wherever this holds.
* `Lower.proceeds_lowerStmt`: all statements do.
-/

namespace PathScout

open Chart Lower List

namespace Chart

variable {G H K : Chart} {b : BlockId} {x y hi : ℚ}

/-- Building stands below the bound, and so do all jumps to labels that are not yet set; `break` and
`continue` lead beyond it. -/
structure Stands (hi : ℚ) (G : Chart) : Prop where
  sound : G.Sound
  here : G.here < hi
  late : G.late < hi
  leave : ∀ t ∈ G.state.targets, G.Beyond hi t.breakTo
  again : ∀ t ∈ G.state.targets, ∀ c, t.continueTo = some c → G.Beyond hi c

/-- Something was added below the bound, and so were all jumps to labels that are not yet set. -/
structure Within (hi : ℚ) (G H : Chart) : Prop extends G.Extends H where
  late : H.late < hi

theorem Stands.within (h : G.Stands hi) (hext : G.Within y H) (hhere : H.here < y) (hy : y ≤ hi) :
    H.Stands y where
  sound := hext.sound
  here := hhere
  late := hext.late
  leave t ht := ((h.leave t (hext.targets ▸ ht)).extends hext.toExtends).mono hy
  again t ht c hc := ((h.again t (hext.targets ▸ ht) c hc).extends hext.toExtends).mono hy

theorem Moves.late_lt (h : G.Moves hi H) (hlate : G.late < hi) : H.late < hi :=
  h.late.trans_lt (max_lt hlate h.lt)

theorem Stands.moves (h : G.Stands hi) (hH : G.Moves hi H) : H.Stands hi :=
  h.within ⟨hH.toExtends, hH.late_lt h.late⟩ hH.lt le_rfl

theorem Stands.stays (h : G.Stands hi) (hH : G.Stays H) : H.Stands hi := h.moves (hH.moves h.here)

theorem Within.moves (h : G.Within y H) (hK : H.Moves x K) (hxy : x ≤ y) : G.Within y K :=
  ⟨h.toExtends.trans hK.toExtends, hK.late.trans_lt (max_lt h.late (hK.lt.trans_le hxy))⟩

theorem Within.stays (h : G.Within y H) (hK : H.Stays K) : G.Within y K :=
  ⟨h.toExtends.trans hK.toExtends, hK.late.trans_lt h.late⟩

theorem Within.enters (h : G.Within y H) (hK : H.Enters x K) : G.Within y K :=
  ⟨h.toExtends.trans hK.toExtends, hK.late.trans_lt h.late⟩

/-- Between the place where building stands and the bound there are places for blocks. -/
theorem Stands.exists_place (h : G.Stands hi) : ∃ x, G.here < x ∧ G.late < x ∧ x < hi := by
  obtain ⟨x, hx, hxhi⟩ := exists_between (max_lt h.here h.late)
  exact ⟨x, (le_max_left _ _).trans_lt hx, (le_max_right _ _).trans_lt hx, hxhi⟩

/-- The chart inside other loops and switches. -/
def withTargets (G : Chart) (targets : List JumpTargets) : Chart :=
  { G with state := G.state.within targets }

variable {targets : List JumpTargets}

theorem Sound.withTargets (h : G.Sound) (targets : List JumpTargets) :
    (G.withTargets targets).Sound := ⟨h.current, h.edge, h.label, h.apart⟩

theorem At.withTargets (h : G.At b x) : (G.withTargets targets).At b x := ⟨h.lt_room, h.place_eq⟩

theorem Beyond.withTargets (h : G.Beyond x b) : (G.withTargets targets).Beyond x b :=
  h.imp_right fun h => h.imp_right fun ⟨y, hxy, hb⟩ => ⟨y, hxy, hb.withTargets⟩

end Chart

namespace Lower

variable {α β γ : Type} {G H : Chart} {b : BlockId} {x y hi : ℚ} {act : Lower α} {f : α → Lower β}
  {a : α}

/-! ### Actions of statements -/

/-- Wherever a statement can be built, the action goes on to higher places below the bound. -/
def Proceeds (act : Lower α) : Prop :=
  ∀ G hi, G.Stands hi → Lays act G fun _ H => G.Moves hi H

theorem Climbs.proceeds (h : Climbs act) : Proceeds act := fun G hi hG => h G hi hG.sound hG.here

theorem Proceeds.bind (h : Proceeds act) (hf : ∀ a, Proceeds (f a)) : Proceeds (act >>= f) :=
  fun G hi hG => (h G hi hG).bind fun a H hH => (hf a H hi (hG.moves hH)).imp fun _ _ hK => hH.trans hK

theorem proceeds_pure : Proceeds (pure a : Lower α) := climbs_pure.proceeds

theorem proceeds_inScope (h : Proceeds act) : Proceeds (inScope act) :=
  (keepsFlow_scopes ([] :: ·)).climbs.proceeds.bind fun _ => h.bind fun _ =>
    (keepsFlow_scopes List.tail).climbs.proceeds.bind fun _ => proceeds_pure

theorem lays_inTargets {t : JumpTargets} (hG : G.Stands hi) (hleave : G.Beyond hi t.breakTo)
    (hagain : ∀ c, t.continueTo = some c → G.Beyond hi c)
    (h : (G.withTargets (t :: G.state.targets)).Stands hi →
      Lays act (G.withTargets (t :: G.state.targets))
        fun _ H => (G.withTargets (t :: G.state.targets)).Moves hi H) :
    Lays (inTargets t act) G fun _ H => G.Moves hi H := by
  have hin : (G.withTargets (t :: G.state.targets)).Stands hi := by
    refine ⟨hG.sound.withTargets _, hG.here, hG.late, fun t' ht' => ?_, fun t' ht' => ?_⟩
    · rcases mem_cons.1 ht' with rfl | ht'
      · exact hleave.withTargets
      · exact (hG.leave t' ht').withTargets
    · rcases mem_cons.1 ht' with rfl | ht'
      · exact fun c hc => (hagain c hc).withTargets
      · exact fun c hc => (hG.again t' ht' c hc).withTargets
  have hopen : Lays (modify fun s => { s with targets := t :: s.targets } : Lower PUnit) G
      fun _ H => H = G.withTargets (t :: G.state.targets) := fun _ s' hrun => by
    cases hrun
    exact ⟨_, rfl, rfl⟩
  refine hopen.bind fun _ H hH => ?_
  subst hH
  refine (h hin).bind fun a H hH => ?_
  have hclose : Lays (modify fun s => { s with targets := s.targets.tail } : Lower PUnit) H
      fun _ K => K = H.withTargets H.state.targets.tail := fun _ s' hrun => by
    cases hrun
    exact ⟨_, rfl, rfl⟩
  refine hclose.bind fun _ K hK => lays_pure ?_
  subst hK
  refine ⟨⟨hH.sound.withTargets _, fun hb => ?_, fun hb => hH.head hb, ?_⟩, hH.le, hH.lt, hH.late⟩
  · exact (hH.at_mono hb.withTargets).withTargets
  · show H.state.targets.tail = G.state.targets
    rw [hH.targets]
    rfl

/-- The block behind a statement: building goes on there. -/
theorem lays_leave (hG : G.Within y H) (hle : G.here ≤ y) (hhi : y < hi) (hb : H.At b y) :
    Lays (setCurrent (some b)) H fun _ K => G.Moves hi K := by
  refine (lays_enter hG.sound hb).imp fun _ K hK => ?_
  exact ⟨hG.toExtends.trans hK.toExtends, hle.trans hK.here.ge, hK.here.trans_lt hhi,
    ((hK.late.trans_lt hG.late).le.trans hK.here.ge).trans (le_max_right _ _)⟩

/-! ### Declarations -/

theorem climbs_mapM {g : γ → Lower β} (xs : List γ) (h : ∀ x ∈ xs, Climbs (g x)) :
    Climbs (xs.mapM g) := by
  induction xs with
  | nil => exact climbs_pure
  | cons x xs ih =>
    obtain ⟨hx, hxs⟩ := forall_mem_cons.1 h
    rw [mapM_cons]
    exact hx.bind fun _ => (ih hxs).bind fun _ => climbs_pure

theorem climbs_lowerInitExpr (t : CType) (e : Expr) (path : List InitStep) :
    Climbs (lowerInitExpr t e path) := by
  unfold lowerInitExpr
  split
  · exact climbs_mapM _ fun _ _ => (climbs_addExpr _ _ _).bind fun _ => climbs_pure
  · refine climbs_ite climbs_fail ((lower_climbs _).value.bind fun v => ?_)
    exact (climbs_convert v t).bind fun _ => climbs_pure

mutual

theorem climbs_lowerInit (item : Initializer) (t : CType) (path : List InitStep) :
    Climbs (lowerInit item t path) := by
  unfold lowerInit
  match item with
  | .expr e => exact climbs_lowerInitExpr t e path
  | .list _ items =>
    cases t with
    | array element size =>
      refine climbs_get_bind fun s => ?_
      dsimp only
      split
      · exact climbs_lowerInitSlots items _ path
      · exact climbs_pure
    | struct name =>
      refine climbs_get_bind fun s => ?_
      dsimp only
      split
      · exact climbs_lowerInitSlots items _ path
      · exact climbs_fail
    | void | char | int | pointer => exact climbs_lowerInitFirst items _ path

theorem climbs_lowerInitSlots (items : List Initializer) (slots : List (CType × InitStep))
    (path : List InitStep) : Climbs (lowerInitSlots items slots path) := by
  unfold lowerInitSlots
  match items, slots with
  | item :: items, (t, step) :: slots =>
    exact (climbs_lowerInit item t _).bind fun _ =>
      (climbs_lowerInitSlots items slots path).bind fun _ => climbs_pure
  | [], _ | _ :: _, [] => exact climbs_pure

theorem climbs_lowerInitFirst (items : List Initializer) (t : CType) (path : List InitStep) :
    Climbs (lowerInitFirst items t path) := by
  unfold lowerInitFirst
  match items with
  | item :: _ => exact climbs_lowerInit item t path
  | [] => exact climbs_pure

end

theorem climbs_lowerDecl (d : VarDecl) : Climbs (lowerDecl d) := by
  unfold lowerDecl
  dsimp only
  refine (keepsFlow_requireComplete _ _).climbs.bind fun _ => ?_
  refine (keepsFlow_declareVar _ _ _ _).climbs.bind fun v => climbs_ite climbs_pure ?_
  match d.init with
  | none => exact climbs_pushElement _
  | some (.expr e) =>
    dsimp only
    split
    · exact (climbs_lowerInitExpr _ e []).bind fun _ => climbs_pushElement _
    · exact (lower_climbs e).value.bind fun e => (climbs_convert e _).bind fun _ => climbs_pushElement _
  | some (.list l items) =>
    exact (climbs_lowerInit (.list l items) _ []).bind fun _ => climbs_pushElement _

theorem climbs_forM {g : γ → Lower PUnit} (xs : List γ) (h : ∀ x ∈ xs, Climbs (g x)) :
    Climbs (xs.forM g) := by
  induction xs with
  | nil => exact climbs_pure
  | cons x xs ih =>
    obtain ⟨hx, hxs⟩ := forall_mem_cons.1 h
    exact hx.bind fun _ => ih hxs

/-! ### Effects, conditions and returns -/

theorem climbs_lowerEffect (e : Expr) : Climbs (lowerEffect e) :=
  (lower_climbs e).value.bind fun _ => climbs_markRoot

theorem climbs_optionalEffect (e : Option Expr) : Climbs (e.forM lowerEffect) := by
  cases e with
  | none => exact climbs_pure
  | some e => exact climbs_lowerEffect e

theorem climbs_lowerReturn (l : Location) (value : Option Expr) : Climbs (lowerReturn l value) := by
  have hrest (v : Option ExprId) : Climbs (do
      pushElement (.return v l)
      jump ⟨1⟩ .return) := (climbs_pushElement _).bind fun _ G hi hG hhi =>
    (lays_jump hG (.inl rfl)).imp fun _ H hH => hH.moves hhi
  refine climbs_get_bind fun s => ?_
  cases value with
  | none => exact hrest none
  | some e =>
    refine (lower_climbs e).value.bind fun v => ?_
    dsimp only
    split
    · exact hrest none
    · exact (climbs_convert v _).bind fun w => hrest (some w)

theorem lays_lowerForCondition (l : Location) (cond : Option Expr) {body exit : BlockId}
    (hG : G.Sound) (hhi : G.here < hi) (hbody : G.Beyond hi body) (hexit : G.Beyond hi exit) :
    Lays (lowerForCondition l cond body exit) G fun _ H => G.Moves hi H := by
  match cond with
  | some c => exact (lower_climbs c).branch _ hG hhi hbody hexit
  | none =>
    refine (climbs_addExpr _ _ _ G hi hG hhi).bind fun e H hH => ?_
    refine (lays_terminate hH.sound fun c hc => ?_).imp fun _ K hK => hH.trans (hK.moves hH.lt)
    have hc' : c = body ∨ c = exit := by simpa [Terminator.successors] using hc
    rcases hc' with rfl | rfl
    · exact (hbody.extends hH.toExtends).onward hH.lt
    · exact (hexit.extends hH.toExtends).onward hH.lt

end Lower

/-! ### Labels -/

namespace Chart

variable {G : Chart} {name : String} {info : LabelInfo} {l : Location} {x : ℚ}

/-- The chart with one more label, which is not yet set. -/
def named (G : Chart) (name : String) (l : Location) : Chart :=
  { G.opened ⊤ with state :=
    { G.state.opened with labels := G.state.labels ++ [(name, ⟨⟨G.room⟩, false, l⟩)] } }

theorem stays_named (hG : G.Sound) (name : String) (l : Location) : G.Stays (G.named name l) := by
  have hopened := Extends.opened hG ⊤
  -- the block of the new label is not the block of any other
  have hold : ∀ y ∈ G.state.labels, y.2.block ≠ ⟨G.room⟩ := fun y hy heq => by
    have hlt := (hG.label y hy).1
    rw [heq] at hlt
    exact hlt.false
  refine ⟨⟨⟨hopened.sound.current, hopened.sound.edge, fun y hy => ?_, fun y hy y' hy' h => ?_⟩,
    fun hb => ⟨(hopened.at_mono hb).lt_room, (hopened.at_mono hb).place_eq⟩, hopened.head, rfl⟩, rfl, rfl⟩
  · rcases mem_append.1 hy with hy | hy
    · exact hopened.sound.label y hy
    · rw [mem_singleton.1 hy]
      exact ⟨(Nat.lt_succ_self G.room).trans_eq (room_opened (w := ⊤)).symm, fun _ => place_opened_new⟩
  · rcases mem_append.1 hy with hy | hy <;> rcases mem_append.1 hy' with hy' | hy'
    · exact hG.apart y hy y' hy' h
    · rw [mem_singleton.1 hy'] at h
      exact absurd h (hold y hy)
    · rw [mem_singleton.1 hy] at h
      exact absurd h.symm (hold y' hy')
    · rw [mem_singleton.1 hy, mem_singleton.1 hy']

/-- The chart where a label is set at a place. -/
def settled (G : Chart) (name : String) (b : BlockId) (x : ℚ) : Chart where
  state := { G.state with labels := G.state.labels.map fun (n, i) =>
    if n = name then (n, { i with isDefined := true }) else (n, i) }
  place := Function.update G.place b x
  here := G.here
  late := G.late

theorem mem_settled {b : BlockId} {y : String × LabelInfo}
    (hy : y ∈ (G.settled name b x).state.labels) : ∃ z ∈ G.state.labels, y.1 = z.1 ∧
      y.2.block = z.2.block ∧ (y.2.isDefined = false → z.1 ≠ name ∧ z.2.isDefined = false) := by
  obtain ⟨⟨n, i⟩, hz, rfl⟩ := mem_map.1 hy
  refine ⟨(n, i), hz, ?_⟩
  dsimp only
  split
  · exact ⟨rfl, rfl, fun h => nomatch h⟩
  · next hne => exact ⟨rfl, rfl, fun h => ⟨hne, h⟩⟩

/-- A label may be set above the place where building stands and above all jumps to it. -/
theorem stays_settled (hG : G.Sound) (hmem : (name, info) ∈ G.state.labels)
    (hinfo : info.isDefined = false) (hlate : G.late < x) :
    G.Stays (G.settled name info.block x) ∧ (G.settled name info.block x).At info.block x := by
  obtain ⟨hlt, htop⟩ := hG.label _ hmem
  replace htop : G.place info.block = ⊤ := htop hinfo
  have hself : (G.settled name info.block x).place info.block = x := Function.update_self ..
  have hother {b : BlockId} (hb : G.place b ≠ ⊤) : (G.settled name info.block x).place b = G.place b :=
    Function.update_of_ne (fun heq => hb ((congrArg G.place heq).trans htop)) _ _
  refine ⟨⟨⟨⟨fun b hb => ?_, fun b c hbc => ?_, fun y hy => ?_, fun y hy y' hy' h => ?_⟩,
    fun {b z} hb => ?_, id, rfl⟩, rfl, rfl⟩, hlt, hself⟩
  · obtain ⟨hlt, hle⟩ := hG.current b hb
    exact ⟨hlt, (hother (ne_top_of_le_ne_top WithTop.coe_ne_top hle)).trans_le hle⟩
  · refine (hG.edge b c hbc).imp_right fun h => h.imp_right fun ⟨hc, habove, hjump⟩ => ⟨hc, ?_⟩
    rw [hother habove.ne_top]
    by_cases hcb : c = info.block
    · -- the jumps to the label come from below its new place
      subst hcb
      rw [hself]
      exact ⟨(hjump htop).trans_lt (WithTop.coe_lt_coe.2 hlate), fun _ => hjump htop⟩
    · have hsame : (G.settled name info.block x).place c = G.place c := Function.update_of_ne hcb _ _
      rw [hsame]
      exact ⟨habove, hjump⟩
  · obtain ⟨z, hz, -, hblock, hopen⟩ := mem_settled hy
    obtain ⟨hlt, htop⟩ := hG.label z hz
    refine ⟨hblock ▸ hlt, fun hdef => ?_⟩
    obtain ⟨hne, hdef⟩ := hopen hdef
    rw [hblock]
    refine (Function.update_of_ne (fun heq => hne ?_) _ _).trans (htop hdef)
    exact hG.apart z hz _ hmem heq
  · obtain ⟨z, hz, hname, hblock, -⟩ := mem_settled hy
    obtain ⟨z', hz', hname', hblock', -⟩ := mem_settled hy'
    rw [hname, hname']
    exact hG.apart z hz z' hz' (by rw [← hblock, ← hblock', h])
  · refine ⟨hb.lt_room, (hother ?_).trans hb.place_eq⟩
    rw [hb.place_eq]
    exact WithTop.coe_ne_top

/-- Jumps to labels that are not yet set may come from here. -/
theorem Sound.later (hG : G.Sound) (h : G.late ≤ x) : ({ G with late := x } : Chart).Sound where
  current := hG.current
  edge b c hbc := (hG.edge b c hbc).imp_right fun h' => h'.imp_right fun ⟨hc, habove, hjump⟩ =>
    ⟨hc, habove, fun htop => (hjump htop).trans (WithTop.coe_le_coe.2 h)⟩
  label := hG.label
  apart := hG.apart

end Chart

namespace Lower

variable {G : Chart} {x hi : ℚ}

theorem lays_labelBlock (hG : G.Sound) (name : String) (l : Location) :
    Lays (labelBlock name l) G fun b H => G.Stays H ∧
      ∃ info, H.state.labels.lookup name = some info ∧ info.block = b := by
  refine lays_get_bind ?_
  split
  · next info hinfo => exact lays_pure ⟨.refl hG, info, hinfo, rfl⟩
  · next hnone =>
    intro b s hact
    cases hact
    refine ⟨G.named name l, rfl, stays_named hG name l, ⟨⟨G.room⟩, false, l⟩, ?_, rfl⟩
    have hnone' : G.state.labels.lookup name = none := hnone
    simp only [named, lookup_append, hnone', Option.none_or, lookup_cons, beq_self_eq_true]

/-- A jump back leads to the head of a loop, and a jump forward to a place that is not yet known. -/
theorem climbs_lowerGoto (l : Location) (label : String) : Climbs (lowerGoto l label) := by
  intro G hi hG hhi
  refine (lays_labelBlock hG label l).bind fun target H ⟨hH, info, hinfo, hblock⟩ => ?_
  subst hblock
  have hmem : (label, info) ∈ H.state.labels := Draft.mem_of_lookup hinfo
  have hhere : H.here < hi := hH.here.trans_lt hhi
  refine lays_get_bind ?_
  rw [hinfo]
  dsimp only
  split
  · refine (lays_markLoopHead hH.sound (hH.sound.label _ hmem).1).bind fun _ K ⟨hK, hhead⟩ => ?_
    exact (lays_jump hK.sound (.inr (.inl hhead))).imp fun _ L hL => ((hH.trans hK).trans hL).moves hhi
  · next hdef =>
    obtain ⟨hlt, htop⟩ := hH.sound.label _ hmem
    replace htop : H.place info.block = ⊤ := htop (Bool.eq_false_iff.2 hdef)
    -- from now on jumps to labels may come from here
    let K : Chart := { H with late := max H.late H.here }
    have hK : K.Sound := hH.sound.later (le_max_left _ _)
    have honward : K.Onward K.here info.block := by
      refine .inr (.inr ⟨hlt, ?_, fun _ => WithTop.coe_le_coe.2 (le_max_right _ _)⟩)
      show (H.here : WithTop ℚ) < H.place info.block
      rw [htop]
      exact WithTop.coe_lt_top _
    have hmoves : H.Moves hi K :=
      ⟨⟨hK, fun hb => ⟨hb.lt_room, hb.place_eq⟩, id, rfl⟩, le_rfl, hhere, le_rfl⟩
    exact Lays.imp (G := K) (lays_jump hK honward) fun _ L hL =>
      hH.then_moves (hmoves.trans (hL.moves hmoves.lt))

theorem proceeds_lowerLabel (l : Location) (name : String) : Proceeds (lowerLabel l name) := by
  intro G hi hG
  refine (lays_labelBlock hG.sound name l).bind fun target H ⟨hH, info, hinfo, hblock⟩ => ?_
  subst hblock
  have hmem : (name, info) ∈ H.state.labels := Draft.mem_of_lookup hinfo
  obtain ⟨x, hx, hlate, hxhi⟩ := (hG.stays hH).exists_place
  refine lays_get_bind ?_
  rw [hinfo]
  dsimp only
  split
  · exact lays_fail
  · next hdef =>
    obtain ⟨hset, hat⟩ := stays_settled hH.sound hmem (Bool.eq_false_iff.2 hdef) hlate
    refine Lays.bind (?_ : Lays _ H fun _ K => K = H.settled name info.block x) fun _ K hK => ?_
    · intro _ s' hrun
      cases hrun
      exact ⟨_, rfl, rfl⟩
    subst hK
    have hto : (H.settled name info.block x).here < x := hx
    refine (lays_jumpIfOpen hset.sound ((hat.beyond le_rfl).onward hto)).bind fun _ K hK => ?_
    have hwithin : H.Within x K := ⟨hset.toExtends.trans hK.toExtends, hK.late.trans_lt hlate⟩
    exact (lays_leave hwithin hx.le hxhi (hK.at_mono hat)).imp fun _ L hL => hH.then_moves hL

end Lower

/-! ### Cases -/

/-- Blocks at higher and higher places below the bound. The place is that of the first block, or the
bound if there is none. -/
inductive Chart.Ladder (G : Chart) (hi : ℚ) : ℚ → List BlockId → Prop where
  | nil : G.Ladder hi hi []
  | cons {x y : ℚ} {b : BlockId} {blocks : List BlockId} : G.At b x → x < y → G.Ladder hi y blocks →
    G.Ladder hi x (b :: blocks)

namespace Chart.Ladder

variable {G H : Chart} {x hi : ℚ} {b : BlockId} {blocks : List BlockId}

theorem le (h : G.Ladder hi x blocks) : x ≤ hi := by
  induction h with
  | nil => exact le_rfl
  | cons _ hxy _ ih => exact hxy.le.trans ih

theorem mono (h : G.Ladder hi x blocks) (hext : G.Extends H) : H.Ladder hi x blocks := by
  induction h with
  | nil => exact .nil
  | cons hb hxy _ ih => exact .cons (hext.at_mono hb) hxy ih

theorem withTargets {targets : List JumpTargets} (h : G.Ladder hi x blocks) :
    (G.withTargets targets).Ladder hi x blocks := by
  induction h with
  | nil => exact .nil
  | cons hb hxy _ ih => exact .cons hb.withTargets hxy ih

theorem beyond (h : G.Ladder hi x blocks) (hb : b ∈ blocks) : G.Beyond x b := by
  induction h with
  | nil => cases hb
  | cons hat hxy _ ih =>
    rcases mem_cons.1 hb with rfl | hb
    · exact hat.beyond le_rfl
    · exact (ih hb).mono hxy.le

end Chart.Ladder

namespace Lower

variable {G H : Chart} {x y hi : ℚ} {β : Type}

/-- The blocks of the cases are opened at higher and higher places, and the switch leads to them. -/
theorem lays_openCases (cases : List SwitchCase) {lo : ℚ} (hG : G.Sound) (hlo : lo < hi) :
    Lays (openCases cases) G fun r H => G.Stays H ∧
      (∃ x, lo < x ∧ H.Ladder hi x r.1) ∧ (∀ t ∈ r.2.1, t.block ∈ r.1) ∧
      ∀ d, r.2.2 = some d → d.1 ∈ r.1 := by
  induction cases generalizing G lo with
  | nil => exact lays_pure ⟨.refl hG, ⟨hi, hlo, .nil⟩, by simp, by simp⟩
  | cons first rest ih =>
    obtain ⟨l, value, body⟩ := first
    obtain ⟨m, hm, hmhi⟩ := exists_between hlo
    refine (lays_openAt hG m).bind fun b H ⟨hH, hb⟩ => ?_
    have hmem : ∀ {c : BlockId} {bs : List BlockId}, c ∈ bs → c ∈ b :: bs := fun hc =>
      mem_cons_of_mem b hc
    split
    · split
      · exact lays_fail
      · refine (ih hH.sound hmhi).bind fun q K ⟨hK, ⟨y, hy, hladder⟩, htargets, hdefault⟩ => ?_
        refine lays_pure ⟨hH.trans hK, ⟨m, hm, .cons (hK.at_mono hb) hy hladder⟩, fun t ht => ?_,
          fun d hd => hmem (hdefault d hd)⟩
        rcases mem_cons.1 ht with rfl | ht
        · exact mem_cons_self
        · exact hmem (htargets t ht)
    · refine (ih hH.sound hmhi).bind fun q K ⟨hK, ⟨y, hy, hladder⟩, htargets, hdefault⟩ => ?_
      refine lays_pure ⟨hH.trans hK, ⟨m, hm, .cons (hK.at_mono hb) hy hladder⟩,
        fun t ht => hmem (htargets t ht), fun d hd => ?_⟩
      rcases Option.or_eq_some_iff.1 hd with hd | ⟨-, hd⟩
      · exact hmem (hdefault d hd)
      · cases hd
        exact mem_cons_self

/-- What the head of a switch leaves: the block behind it, and below it the blocks of the cases. -/
structure Heads (hi : ℚ) (G : Chart) (r : BlockId × List BlockId) (H : Chart) : Prop where
  moves : G.Moves hi H
  ladder : ∃ x y, H.here < x ∧ H.late < x ∧ H.Ladder y x r.2 ∧ H.At r.1 y ∧ y < hi

theorem lays_lowerSwitchHead (l : Location) (cond : Expr) (cases : List SwitchCase)
    (hG : G.Stands hi) : Lays (lowerSwitchHead l cond cases) G (Heads hi G) := by
  obtain ⟨m, hm, hlate, hmhi⟩ := hG.exists_place
  obtain ⟨z, hmz, hzhi⟩ := exists_between hmhi
  refine ((lower_climbs cond).value G m hG.sound hm).bind fun v G1 hG1 => ?_
  refine ((keepsFlow_typeOf v).lays hG1.sound).bind fun t G2 hG2 => ?_
  split
  · exact lays_fail
  refine (climbs_convert v .int G2 m hG2.sound (hG2.here.trans_lt hG1.lt)).bind fun w G3 hG3 => ?_
  have hmoves : G.Moves m G3 := (hG1.trans (hG2.moves hG1.lt)).trans hG3
  refine (lays_openAt hmoves.sound z).bind fun exit G4 ⟨hG4, hexit⟩ => ?_
  refine (lays_openCases cases hG4.sound hmz).bind fun r H hr => ?_
  obtain ⟨blocks, targets, default⟩ := r
  obtain ⟨hH, ⟨x, hx, hladder⟩, htargets, hdefault⟩ := hr
  have hstays := hG4.trans hH
  have hhere : H.here < x := (hstays.here.trans_lt hmoves.lt).trans hx
  refine (lays_terminate hH.sound fun b hb => ?_).bind fun _ K hK => lays_pure ⟨?_, ?_⟩
  · -- the blocks of the cases are higher than the head, and so is the block behind the switch
    have hbeyond : H.Beyond x b := by
      rcases mem_append.1 hb with hb | hb
      · obtain ⟨t, ht, rfl⟩ := mem_map.1 hb
        exact hladder.beyond (htargets t ht)
      · rw [mem_singleton.1 hb]
        cases default with
        | none => exact (hH.at_mono hexit).beyond hladder.le
        | some d => exact hladder.beyond (hdefault d rfl)
    exact hbeyond.onward hhere
  · have hall := hmoves.trans ((hstays.trans hK).moves hmoves.lt)
    exact ⟨hall.toExtends, hall.le, hall.lt.trans hmhi, hall.late⟩
  · refine ⟨x, z, hK.here.trans_lt hhere, ?_, hladder.mono hK.toExtends,
      hK.at_mono (hH.at_mono hexit), hzhi⟩
    exact ((hK.late.trans hstays.late).trans_lt (hmoves.late_lt hlate)).trans hx

/-! ### Statements -/

theorem proceeds_break (l : Location) : Proceeds (do
    match (← get).targets.head? with
    | some t => jump t.breakTo .break
    | none => fail (.misplacedJump "break") l) := fun G hi hG => by
  refine lays_get_bind ?_
  split
  · next t ht =>
    exact (lays_jump hG.sound ((hG.leave t (mem_of_head? ht)).onward hG.here)).imp
      fun _ _ hH => hH.moves hG.here
  · exact lays_fail

theorem proceeds_continue (l : Location) : Proceeds (do
    match (← get).targets.findSome? (·.continueTo) with
    | some target => jump target .continue
    | none => fail (.misplacedJump "continue") l) := fun G hi hG => by
  refine lays_get_bind ?_
  split
  · next c hc =>
    obtain ⟨t, ht, hc⟩ := exists_of_findSome?_eq_some hc
    exact (lays_jump hG.sound ((hG.again t ht c hc).onward hG.here)).imp fun _ _ hH => hH.moves hG.here
  · exact lays_fail

/-- A part of a statement is built in a block of its own; where it ends, it goes on to another block. -/
theorem lays_part {z : ℚ} {block next : BlockId} {part : Lower Unit} {rest : Lower β}
    {post : β → Chart → Prop} (hG : G.Stands hi) (hA : G.Within y H) (hblock : H.At block x)
    (hxz : x < z) (hyz : y ≤ z) (hzhi : z ≤ hi) (hnext : H.Beyond z next)
    (hpart : ∀ K, H.Extends K → K.Stands z → Lays part K fun _ L => K.Moves z L)
    (hrest : ∀ K, H.Extends K → G.Within z K → Lays rest K post) :
    Lays (do
      setCurrent (some block)
      part
      jumpIfOpen next
      rest) H post := by
  refine (lays_enter hA.sound hblock).bind fun _ K hK => ?_
  have hA' : G.Within z K := ⟨hA.toExtends.trans hK.toExtends, (hK.late.trans_lt hA.late).trans_le hyz⟩
  have hstands : K.Stands z := hG.within hA' (hK.here.trans_lt hxz) hzhi
  refine (hpart K hK.toExtends hstands).bind fun _ L hL => ?_
  have hext := hK.toExtends.trans hL.toExtends
  refine (lays_jumpIfOpen hL.sound ((hnext.extends hext).onward hL.lt)).bind fun _ M hM => ?_
  exact hrest M (hext.trans hM.toExtends) ((hA'.moves hL le_rfl).stays hM)

/-- A condition is built in a block of its own. -/
theorem lays_condition {w : ℚ} {head yes no : BlockId} {cond : Lower Unit} {rest : Lower β}
    {post : β → Chart → Prop} (hA : G.Within y H) (hhead : H.At head w) (hwx : w < x) (hxy : x ≤ y)
    (hyes : H.Beyond x yes) (hno : H.Beyond x no)
    (hcond : ∀ K : Chart, K.Sound → K.here < x → K.Beyond x yes → K.Beyond x no →
      Lays cond K fun _ L => K.Moves x L) (hrest : ∀ K, H.Extends K → G.Within y K → Lays rest K post) :
    Lays (do
      setCurrent (some head)
      cond
      rest) H post := by
  refine (lays_enter hA.sound hhead).bind fun _ K hK => ?_
  refine (hcond K hK.sound (hK.here.trans_lt hwx) (hyes.extends hK.toExtends)
    (hno.extends hK.toExtends)).bind fun _ L hL => ?_
  exact hrest L (hK.toExtends.trans hL.toExtends) ((hA.enters hK).moves hL hxy)

mutual

/-- **Building a statement goes on to higher places.** -/
theorem proceeds_lowerStmt (st : Stmt) : Proceeds (lowerStmt st) := by
  unfold lowerStmt
  match st with
  | .empty _ => exact proceeds_pure
  | .expr _ e => exact (climbs_lowerEffect e).proceeds
  | .decl _ decls => exact (climbs_forM decls fun d _ => climbs_lowerDecl d).proceeds
  | .block _ body => exact proceeds_inScope (proceeds_lowerStmts body)
  | .ifThen _ c yes no =>
    intro G hi hG
    obtain ⟨x, hx, hlate, hxhi⟩ := hG.exists_place
    obtain ⟨y, hxy, hyhi⟩ := exists_between hxhi
    have hrest {H : Chart} {yesBlock noBlock next : BlockId} (hH : G.Stays H)
        (hyes : H.At yesBlock x) (hno : no.isSome = true → H.At noBlock x)
        (hno' : H.Beyond x noBlock) (hnext : H.At next y) : Lays (do
          (lower c).branch yesBlock noBlock .if
          setCurrent (some yesBlock)
          lowerStmt yes
          jumpIfOpen next
          lowerElse no noBlock next
          setCurrent (some next)) H fun _ L => G.Moves hi L := by
      have hH' := hG.stays hH
      have hhere : H.here < x := hH.here.trans_lt hx
      refine ((lower_climbs c).branch .if hH.sound hhere (hyes.beyond le_rfl) hno').bind
        fun _ K hK => ?_
      have hA : H.Within x K := ⟨hK.toExtends, hK.late_lt (hH.late.trans_lt hlate)⟩
      refine lays_part hH' hA (hK.at_mono hyes) hxy hxy.le hyhi.le ((hK.at_mono hnext).beyond le_rfl)
        (fun L _ hL => proceeds_lowerStmt yes L y hL) fun L hL hA => ?_
      have hext := hK.toExtends.trans hL
      refine (lays_lowerElse no hH' hA (fun h => hext.at_mono (hno h)) hxy hyhi.le
        (hext.at_mono hnext)).bind fun _ M hM => ?_
      exact (lays_leave hM (hhere.trans hxy).le hyhi (hM.at_mono hnext)).imp
        fun _ _ h => hH.then_moves h
    refine (lays_openAt hG.sound x).bind fun yesBlock G1 ⟨hG1, hyes⟩ => ?_
    refine (lays_openAt hG1.sound y).bind fun next G2 ⟨hG2, hnext⟩ => ?_
    have hyes2 := hG2.at_mono hyes
    cases no with
    | none => exact hrest (hG1.trans hG2) hyes2 (fun h => nomatch h) (hnext.beyond hxy.le) hnext
    | some no =>
      refine (lays_openAt hG2.sound x).bind fun noBlock G3 ⟨hG3, hno⟩ => ?_
      exact hrest ((hG1.trans hG2).trans hG3) (hG3.at_mono hyes2) (fun _ => hno) (hno.beyond le_rfl)
        (hG3.at_mono hnext)
  | .whileDo _ c body =>
    intro G hi hG
    obtain ⟨w, hw, hlate, hwhi⟩ := hG.exists_place
    obtain ⟨x, hwx, hxhi⟩ := exists_between hwhi
    obtain ⟨y, hxy, hyhi⟩ := exists_between hxhi
    refine (lays_openAt hG.sound w).bind fun head G1 ⟨hG1, hhead⟩ => ?_
    refine (lays_openAt hG1.sound x).bind fun bodyBlock G2 ⟨hG2, hbody⟩ => ?_
    refine (lays_openAt hG2.sound y).bind fun exit G3 ⟨hG3, hexit⟩ => ?_
    replace hhead := hG3.at_mono (hG2.at_mono hhead)
    refine (lays_markLoopHead hG3.sound hhead.lt_room).bind fun _ H ⟨hH, hmark⟩ => ?_
    have hopened : G.Stays H := ((hG1.trans hG2).trans hG3).trans hH
    replace hhead := hH.at_mono hhead
    replace hbody := hH.at_mono (hG3.at_mono hbody)
    replace hexit := hH.at_mono hexit
    have hstands := hG.stays hopened
    refine (lays_jump hH.sound (.inr (.inl hmark))).bind fun _ K hK => ?_
    have hA : H.Within y K := ⟨hK.toExtends, (hK.late.trans hopened.late).trans_lt
      (hlate.trans (hwx.trans hxy))⟩
    refine lays_condition hA (hK.at_mono hhead) hwx hxy.le ((hK.at_mono hbody).beyond le_rfl)
      ((hK.at_mono hexit).beyond hxy.le) (fun L => (lower_climbs c).branch _) fun L hL hA => ?_
    refine lays_part hstands hA (hA.at_mono hbody) hxy le_rfl hyhi.le (.inr (.inl (hA.head hmark)))
      (fun M hM hstands => ?_) fun M hM hA => ?_
    · refine lays_inTargets hstands ((hM.at_mono (hA.at_mono hexit)).beyond le_rfl) (fun c hc => ?_)
        (proceeds_lowerStmt body _ y)
      cases hc
      exact .inr (.inl (hM.head (hA.head hmark)))
    · exact (lays_leave hA ((hopened.here.trans_lt hw).trans (hwx.trans hxy)).le hyhi
        (hA.at_mono hexit)).imp fun _ _ h => hopened.then_moves h
  | .doWhile _ body c =>
    intro G hi hG
    obtain ⟨w, hw, hlate, hwhi⟩ := hG.exists_place
    obtain ⟨x, hwx, hxhi⟩ := exists_between hwhi
    obtain ⟨y, hxy, hyhi⟩ := exists_between hxhi
    refine (lays_openAt hG.sound x).bind fun bodyBlock G1 ⟨hG1, hbody⟩ => ?_
    -- the condition is built last, but its place is below that of the body
    refine (lays_openAt hG1.sound w).bind fun head G2 ⟨hG2, hhead⟩ => ?_
    refine (lays_openAt hG2.sound y).bind fun exit G3 ⟨hG3, hexit⟩ => ?_
    replace hhead := hG3.at_mono hhead
    refine (lays_markLoopHead hG3.sound hhead.lt_room).bind fun _ H ⟨hH, hmark⟩ => ?_
    have hopened : G.Stays H := ((hG1.trans hG2).trans hG3).trans hH
    replace hhead := hH.at_mono hhead
    replace hbody := hH.at_mono (hG3.at_mono (hG2.at_mono hbody))
    replace hexit := hH.at_mono hexit
    have hstands := hG.stays hopened
    have hhere : H.here < x := (hopened.here.trans_lt hw).trans hwx
    refine (lays_jump hH.sound ((hbody.beyond le_rfl).onward hhere)).bind fun _ K hK => ?_
    have hA : H.Within y K := ⟨hK.toExtends, (hK.late.trans hopened.late).trans_lt
      (hlate.trans (hwx.trans hxy))⟩
    refine lays_part hstands hA (hA.at_mono hbody) hxy le_rfl hyhi.le (.inr (.inl (hA.head hmark)))
      (fun L hL hstands => ?_) fun L hL hA => ?_
    · refine lays_inTargets hstands ((hL.at_mono (hA.at_mono hexit)).beyond le_rfl) (fun c hc => ?_)
        (proceeds_lowerStmt body _ y)
      cases hc
      exact .inr (.inl (hL.head (hA.head hmark)))
    refine lays_condition hA (hA.at_mono hhead) hwx hxy.le ((hA.at_mono hbody).beyond le_rfl)
      ((hA.at_mono hexit).beyond hxy.le) (fun M => (lower_climbs c).branch _) fun M hM hA => ?_
    exact (lays_leave hA (hhere.trans hxy).le hyhi (hA.at_mono hexit)).imp
      fun _ _ h => hopened.then_moves h
  | .forDo l init c step body =>
    refine proceeds_inScope ((proceeds_lowerOptional init).bind fun _ G hi hG => ?_)
    obtain ⟨w, hw, hlate, hwhi⟩ := hG.exists_place
    obtain ⟨x, hwx, hxhi⟩ := exists_between hwhi
    obtain ⟨z, hxz, hzhi⟩ := exists_between hxhi
    obtain ⟨y, hzy, hyhi⟩ := exists_between hzhi
    refine (lays_openAt hG.sound w).bind fun head G1 ⟨hG1, hhead⟩ => ?_
    refine (lays_openAt hG1.sound x).bind fun bodyBlock G2 ⟨hG2, hbody⟩ => ?_
    refine (lays_openAt hG2.sound z).bind fun stepBlock G3 ⟨hG3, hstep⟩ => ?_
    refine (lays_openAt hG3.sound y).bind fun exit G4 ⟨hG4, hexit⟩ => ?_
    replace hhead := hG4.at_mono (hG3.at_mono (hG2.at_mono hhead))
    refine (lays_markLoopHead hG4.sound hhead.lt_room).bind fun _ H ⟨hH, hmark⟩ => ?_
    have hopened : G.Stays H := (((hG1.trans hG2).trans hG3).trans hG4).trans hH
    replace hhead := hH.at_mono hhead
    replace hbody := hH.at_mono (hG4.at_mono (hG3.at_mono hbody))
    replace hstep := hH.at_mono (hG4.at_mono hstep)
    replace hexit := hH.at_mono hexit
    have hstands := hG.stays hopened
    have hhere : H.here < z := (hopened.here.trans_lt hw).trans (hwx.trans hxz)
    refine (lays_jump hH.sound (.inr (.inl hmark))).bind fun _ K hK => ?_
    have hA : H.Within z K := ⟨hK.toExtends, (hK.late.trans hopened.late).trans_lt
      (hlate.trans (hwx.trans hxz))⟩
    refine lays_condition hA (hK.at_mono hhead) hwx hxz.le ((hK.at_mono hbody).beyond le_rfl)
      ((hK.at_mono hexit).beyond (hxz.trans hzy).le)
      (fun L hL hhere => lays_lowerForCondition l c hL hhere) fun L hL hA => ?_
    refine lays_part hstands hA (hA.at_mono hbody) hxz le_rfl hzhi.le
      ((hA.at_mono hstep).beyond le_rfl) (fun M hM hstands => ?_) fun M hM hA => ?_
    · refine lays_inTargets hstands ((hM.at_mono (hA.at_mono hexit)).beyond hzy.le) (fun c hc => ?_)
        (proceeds_lowerStmt body _ z)
      cases hc
      exact (hM.at_mono (hA.at_mono hstep)).beyond le_rfl
    refine (lays_enter hA.sound (hA.at_mono hstep)).bind fun _ N hN => ?_
    have hA' : H.Within y N := ⟨hA.toExtends.trans hN.toExtends, (hN.late.trans_lt hA.late).trans hzy⟩
    refine (climbs_optionalEffect step N y hN.sound (hN.here.trans_lt hzy)).bind fun _ N1 hN1 => ?_
    replace hA' := hA'.moves hN1 le_rfl
    refine (lays_jump hN1.sound (.inr (.inl (hA'.head hmark)))).bind fun _ N2 hN2 => ?_
    replace hA' := hA'.stays hN2
    exact (lays_leave hA' (hhere.trans hzy).le hyhi (hA'.at_mono hexit)).imp
      fun _ _ h => hopened.then_moves h
  | .switch l c cases =>
    intro G hi hG
    refine (lays_lowerSwitchHead l c cases hG).bind fun r H hH => ?_
    obtain ⟨x, y, hx, hlate, hladder, hexit, hyhi⟩ := hH.ladder
    have hbelow : H.Within y H := ⟨.refl hH.moves.sound, hlate.trans_le hladder.le⟩
    have hstands := (hG.moves hH.moves).within hbelow (hx.trans_le hladder.le) hyhi.le
    refine (lays_inTargets hstands (hexit.beyond le_rfl) (fun c hc => by cases hc) fun hin =>
      lays_lowerCases cases r.2 hin hladder.withTargets hx hlate).bind fun _ K hK => ?_
    have hexit' := hK.at_mono hexit
    refine (lays_jumpIfOpen hK.sound ((hexit'.beyond le_rfl).onward hK.lt)).bind fun _ L hL => ?_
    refine (lays_leave ((hbelow.moves hK le_rfl).stays hL) (hx.trans_le hladder.le).le hyhi
      (hL.at_mono hexit')).imp fun _ _ h => hH.moves.trans h
  | .break l => exact proceeds_break l
  | .continue l => exact proceeds_continue l
  | .return l value => exact (climbs_lowerReturn l value).proceeds
  | .goto l label => exact (climbs_lowerGoto l label).proceeds
  | .label l name => exact proceeds_lowerLabel l name

theorem proceeds_lowerStmts (body : List Stmt) : Proceeds (lowerStmts body) := by
  unfold lowerStmts
  match body with
  | [] => exact proceeds_pure
  | st :: rest => exact (proceeds_lowerStmt st).bind fun _ => proceeds_lowerStmts rest

theorem proceeds_lowerOptional (st : Option Stmt) : Proceeds (lowerOptional st) := by
  unfold lowerOptional
  match st with
  | some st => exact proceeds_lowerStmt st
  | none => exact proceeds_pure

theorem lays_lowerElse (no : Option Stmt) {G H : Chart} {noBlock next : BlockId} {x y hi : ℚ}
    (hG : G.Stands hi) (hA : G.Within y H) (hno : no.isSome = true → H.At noBlock x) (hxy : x < y)
    (hyhi : y ≤ hi) (hnext : H.At next y) :
    Lays (lowerElse no noBlock next) H fun _ K => G.Within y K := by
  unfold lowerElse
  match no with
  | some st =>
    have hpart : Lays (do
        setCurrent (some noBlock)
        lowerStmt st
        jumpIfOpen next
        pure ()) H fun _ K => G.Within y K :=
      lays_part hG hA (hno rfl) hxy le_rfl hyhi (hnext.beyond le_rfl)
        (fun K _ hK => proceeds_lowerStmt st K y hK) fun K _ hK => lays_pure hK
    simpa only [bind_pure_unit] using hpart
  | none => exact lays_pure hA

theorem lays_lowerCases (cases : List (Location × Option Expr × List Stmt)) (blocks : List BlockId)
    {G : Chart} {x hi : ℚ} (hG : G.Stands hi) (hladder : G.Ladder hi x blocks) (hhere : G.here < x)
    (hlate : G.late < x) : Lays (lowerCases cases blocks) G fun _ H => G.Moves hi H := by
  unfold lowerCases
  match cases, blocks with
  | (_, _, body) :: cases, b :: blocks =>
    cases hladder with | @cons _ z _ _ hat hxz hladder =>
    refine (lays_jumpIfOpen hG.sound ((hat.beyond le_rfl).onward hhere)).bind fun _ H hH => ?_
    refine (lays_enter hH.sound (hH.at_mono hat)).bind fun _ K hK => ?_
    have hext := hH.toExtends.trans hK.toExtends
    have hA : G.Within z K := ⟨hext, (hK.late.trans hH.late).trans_lt (hlate.trans hxz)⟩
    have hstands := hG.within hA (hK.here.trans_lt hxz) hladder.le
    refine (proceeds_lowerStmts body K z hstands).bind fun _ L hL => ?_
    have hlate' := hL.late_lt hstands.late
    have hL' : L.Stands hi := hG.within ⟨hext.trans hL.toExtends, hlate'.trans_le hladder.le⟩
      (hL.lt.trans_le hladder.le) le_rfl
    refine (lays_lowerCases cases blocks hL' (hladder.mono (hext.trans hL.toExtends)) hL.lt
      hlate').imp fun _ M hM => ?_
    exact hH.then_moves (hK.then_moves (hH.here.trans_lt hhere).le (hL.trans hM))
  | [], _ | _ :: _, [] => exact lays_pure (.refl hG.sound (hhere.trans_le hladder.le))

end

end Lower

end PathScout

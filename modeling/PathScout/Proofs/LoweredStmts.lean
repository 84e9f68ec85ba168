import PathScout.Proofs.DraftNames

/-!
# Built statements

Building a statement leaves everything alone that was built before, apart from the current block and
the blocks of labels that were not met yet.

* `Draft.Layout`: the blocks that a statement asked for, and those of them that were not begun yet.
* `sends_lowerDecl`: declarations, with the parts that a list sets.
* `sends_lowerStmt`: every statement.
-/

namespace PathScout

open Lower List

namespace Draft

/-- A statement asked for some blocks, at whose start nothing is at hand; some of them were not begun
yet. -/
structure Layout (d₀ : Draft) (blocks fresh : List BlockId) (d : Draft) : Prop
    extends Builds d₀ d where
  idle : ∀ b ∈ blocks, d.Idle b
  parked : ∀ b ∈ fresh, d.Parked b ∅ ∧ d₀.room ≤ b.index
  nodup : fresh.Nodup

variable {d₀ d d' : Draft} {blocks fresh fresh' : List BlockId} {b : BlockId}

theorem Sound.idle_exit (hd : d.Sound) : d.Idle ⟨1⟩ := by
  obtain ⟨block, hb, -⟩ := hd.exit
  exact ⟨lt_room_of_block? hb, hd.finish⟩

theorem Layout.refl (hd : d.Sound) : Layout d [] [] d := ⟨.refl hd, by simp, by simp, .nil⟩

/-- Building more does not change the layout. -/
theorem Layout.builds (h : Layout d₀ blocks fresh d) (h' : Builds d d') :
    Layout d₀ blocks fresh d' where
  toBuilds := h.toBuilds.trans h'
  idle b hb := h'.idle (h.idle b hb)
  parked b hb := ⟨(h.parked b hb).1.extends h'.toExtends, (h.parked b hb).2⟩
  nodup := h.nodup

theorem Layout.sublist (h : Layout d₀ blocks fresh d) (hs : fresh'.Sublist fresh) :
    Layout d₀ blocks fresh' d :=
  { h with
    parked := fun b hb => h.parked b (hs.subset hb)
    nodup := h.nodup.sublist hs }

/-- Something was built before the blocks were asked for. -/
theorem Layout.after {d1 : Draft} (h : Layout d1 blocks fresh d) (h1 : Builds d₀ d1) :
    Layout d₀ blocks fresh d :=
  ⟨h1.trans h.toBuilds, h.idle, fun b hb =>
    ⟨(h.parked b hb).1, h1.room_le.trans (h.parked b hb).2⟩, h.nodup⟩

/-- One more block is asked for. -/
theorem Layout.opened (h : Layout d₀ blocks fresh d) (ho : Opens d ∅ b d') :
    Layout d₀ (b :: blocks) (b :: fresh) d' := by
  have hb := h.builds (ho.grows d.size).builds
  have hidle : d'.Idle b := ⟨ho.reserved.lt_room, ho.reserved.entry⟩
  refine { hb with idle := ?_, parked := ?_, nodup := ?_ }
  · intro c hc
    rcases mem_cons.1 hc with rfl | hc
    · exact hidle
    · exact hb.idle c hc
  · intro c hc
    rcases mem_cons.1 hc with rfl | hc
    · exact ⟨ho.reserved.toParked, ho.index_eq ▸ h.room_le⟩
    · exact hb.parked c hc
  · refine nodup_cons.2 ⟨fun hmem => ?_, h.nodup⟩
    exact (h.parked b hmem).1.lt_room.ne ho.index_eq

/-- A block that was asked for is begun. -/
theorem Layout.enter {before after : List BlockId} (h : Layout d₀ blocks (before ++ b :: after) d) :
    Layout d₀ blocks (before ++ after) (d.goneTo (some b)) := by
  obtain ⟨hb, hroom⟩ := h.parked b (by simp)
  have hnodup : (b :: (before ++ after)).Nodup := perm_middle.nodup_iff.1 h.nodup
  obtain ⟨hnot, hrest⟩ := nodup_cons.1 hnodup
  have hext : Extends d₀.size d₀ (d.goneTo (some b)) := h.toExtends.goneTo (.inr (.inl hroom))
  refine ⟨⟨hext, h.sound.goneTo hb⟩, h.idle, fun c hc => ?_, hrest⟩
  have hne : b ≠ c := fun heq => hnot (heq ▸ hc)
  have hc' : c ∈ before ++ b :: after := by
    rcases mem_append.1 hc with hc | hc
    · exact mem_append_left _ hc
    · exact mem_append_right _ (mem_cons_of_mem _ hc)
  exact ⟨(h.parked c hc').1.goneTo hne, (h.parked c hc').2⟩

theorem Layout.withTargets (h : Layout d₀ blocks fresh d) {ts : List JumpTargets}
    (hts : ∀ t ∈ ts, d.Idle t.breakTo ∧ ∀ b ∈ t.continueTo, d.Idle b) :
    Layout (d₀.withTargets ts) blocks fresh (d.withTargets ts) where
  toExtends := h.toExtends.withTargets ts
  sound := h.sound.withTargets hts
  idle := h.idle
  parked b hb := ⟨{ (h.parked b hb).1 with }, (h.parked b hb).2⟩
  nodup := h.nodup

end Draft

namespace Lower

variable {t : JumpTargets}

open Draft

variable {d₀ d : Draft} {blocks fresh : List BlockId} {α : Type} {act : Lower α} {b : BlockId}

/-! ### Blocks of statements -/

theorem sends_layOut (h : Layout d₀ blocks fresh d) :
    Sends d newBlock fun b d' => Layout d₀ (b :: blocks) (b :: fresh) d' ∧ d'.now = d.now ∧
      d'.state.current = d.state.current ∧ d'.program = d.program := by
  refine .imp (sends_newBlock ∅) ?_
  rintro b d' ⟨rfl, rfl⟩
  have ho := opens_opened h.sound ∅
  exact ⟨h.opened ho, ho.now_eq, rfl, rfl⟩

theorem sends_enter (before after : List BlockId) (h : Layout d₀ blocks (before ++ b :: after) d) :
    Sends d (setCurrent (some b)) fun _ d' => Layout d₀ blocks (before ++ after) d' := by
  refine .imp (sends_setCurrent (some b)) ?_
  rintro _ _ rfl
  exact h.enter

/-- Something is built between two blocks. -/
theorem sends_then {β : Type} {f : α → Lower β} {Q : β → Draft → Prop}
    (h : Layout d₀ blocks fresh d) (hact : Sends d act fun _ d' => Builds d d')
    (hf : ∀ a d', Layout d₀ blocks fresh d' → Sends d' (f a) Q) : Sends d (act >>= f) Q :=
  Sends.bind hact fun a d' h' => hf a d' (h.builds h')

theorem sends_jumpTo (kind : JumpKind) (hd : d.Sound) (hb : d.Idle b) :
    Sends d (jump b kind) fun _ d' => Builds d d' := by
  refine .imp (sends_jump kind hd hb.1 ?_) fun _ d' h => ⟨h.2.2 _ _ (.refl _ d), h.1⟩
  rw [hb.2]
  exact Set.empty_subset _

theorem sends_jumpIfOpen (hd : d.Sound) (hb : d.Idle b) :
    Sends d (jumpIfOpen b) fun _ d' => Builds d d' := by
  refine .get_bind ?_
  split
  · exact sends_jumpTo .fallthrough hd hb
  · exact .pure (.refl hd)

theorem sends_branch {x : Lowered} {yes no : BlockId} (hx : x.Sound) (kind : BranchKind)
    (hd : d.Sound) (hyes : d.Idle yes) (hno : d.Idle no) :
    Sends d (x.branch yes no kind) fun _ d' => Builds d d' := by
  refine .imp (hx.branch d yes no kind hd hyes.1 hno.1 ?_ ?_) fun _ _ h => h.builds
  · rw [hyes.2]
    exact Set.empty_subset _
  · rw [hno.2]
    exact Set.empty_subset _

/-- A loop or a switch is entered. -/
theorem sends_openTargets (h : Layout d₀ blocks fresh d) (hbreak : t.breakTo ∈ blocks)
    (hcontinue : ∀ b ∈ t.continueTo, b ∈ blocks) :
    Sends d (modify fun s : Lowering => { s with targets := t :: s.targets } : Lower Unit) fun _ d' =>
      d' = d.withTargets (t :: d.state.targets) ∧
        Layout (d₀.withTargets (t :: d.state.targets)) blocks fresh d' := by
  intro u s hs
  cases hs
  refine ⟨_, rfl, rfl, h.withTargets fun t' ht' => ?_⟩
  rcases mem_cons.1 ht' with rfl | ht'
  · exact ⟨h.idle _ hbreak, fun b hb => h.idle b (hcontinue b hb)⟩
  · exact h.sound.targets t' ht'

/-- Building inside a loop or a switch. -/
theorem sends_inTargets {fresh' : List BlockId} (h : Layout d₀ blocks fresh d)
    (hbreak : t.breakTo ∈ blocks) (hcontinue : ∀ b ∈ t.continueTo, b ∈ blocks)
    (hact : ∀ d1 d2 : Draft, Layout d1 blocks fresh d2 →
      Sends d2 act fun _ d' => Layout d1 blocks fresh' d') :
    Sends d (inTargets t act) fun _ d' => Layout d₀ blocks fresh' d' := by
  refine .bind (sends_openTargets h hbreak hcontinue) ?_
  rintro _ _ ⟨rfl, h1⟩
  refine .bind (hact _ _ h1) fun a d2 h2 => ?_
  intro u s hs
  cases hs
  have htargets : d2.state.targets.tail = d₀.state.targets := by
    have h' : d2.state.targets = t :: d.state.targets := h2.targets
    rw [h', tail_cons, h.targets]
  have hlayout := h2.withTargets (fun t' (ht' : t' ∈ d2.state.targets.tail) =>
    h2.sound.targets t' (mem_of_mem_tail ht'))
  rw [htargets] at hlayout
  exact ⟨d2.withTargets d2.state.targets.tail, rfl, by rw [htargets]; exact hlayout⟩

end Lower

/-! ### Lists of initial values -/

namespace Draft

/-- Some local variable is no `int`. -/
def Mixed (d : Draft) : Prop := ∃ v ∈ d.state.locals, (d.program.var v).type ≠ .int

/-- The values of some parts are ready. -/
def Holds (d : Draft) (n : Nat) (entries : List InitEntry) : Prop :=
  ∀ entry ∈ entries, d.Ready n entry.value ∧ (d.expr entry.value).op.isPlace = false

/-- The values of the parts of an object of some type at `path` were built. -/
structure Inits (d : Draft) (type : CType) (path : List InitStep) (entries : List InitEntry)
    (d' : Draft) : Prop where
  grows : Grows d.size d d'
  holds : d'.Holds d.size entries
  whole : type = .int → ∀ entry ∈ entries, entry.path = path

variable {d d' : Draft} {n m : Nat} {entries : List InitEntry}

theorem Mixed.below (h : d.Mixed) (hd : d.Sound) (hb : Below d d') : d'.Mixed := by
  obtain ⟨v, hv, htype⟩ := h
  exact ⟨v, hb.locals v hv, by rwa [hb.var_eq v (hd.locals v hv).1]⟩

theorem Holds.grows (h : d.Holds n entries) (hd : d.Sound) (hg : Grows d.size d d') :
    d'.Holds n entries := by
  intro entry hentry
  obtain ⟨hready, hplace⟩ := h entry hentry
  exact ⟨hready.grows hd hg, by rwa [hg.expr_eq _ (hready.lt_size hd)]⟩

theorem Holds.mono (h : d.Holds n entries) (hm : m ≤ n) : d.Holds m entries := fun entry hentry =>
  ⟨(h entry hentry).1.mono hm, (h entry hentry).2⟩

end Draft

namespace Lower

variable {v : VarId} {type : CType} {l : Location} {d₀ : Draft}

open Draft

variable {d : Draft}

/-- A character of a text, as a part of an array. -/
theorem sends_addChar (span : Span) (path : List InitStep) (part : Nat × Nat) (hd : d.Sound)
    (hmixed : d.Mixed) :
    Sends d (do
      let v ← addExpr (.int part.1) .char span
      return (⟨path ++ [.element part.2], v⟩ : InitEntry)) fun entry d' =>
        Grows d.size d d' ∧ d'.Holds d.size [entry] := by
  refine .bind (sends_addOver (.refl _ hd) (by simp [Operation.operands]) (.inr hmixed)
    (by simp)) ?_
  rintro v d' ⟨h, hexpr⟩
  refine .pure ⟨h.grows, fun entry hentry => ?_⟩
  rw [mem_singleton.1 hentry]
  exact ⟨h.ready, by rw [hexpr]; rfl⟩

theorem sends_addChars (span : Span) (path : List InitStep) (parts : List (Nat × Nat))
    (hd : d.Sound) (hmixed : d.Mixed) :
    Sends d (parts.mapM fun part => do
      let v ← addExpr (.int part.1) .char span
      return (⟨path ++ [.element part.2], v⟩ : InitEntry)) fun entries d' =>
        Grows d.size d d' ∧ d'.Holds d.size entries := by
  induction parts generalizing d with
  | nil => exact .pure ⟨.refl _ hd, by simp [Holds]⟩
  | cons part parts ih =>
    rw [mapM_cons]
    refine .bind (sends_addChar span path part hd hmixed) ?_
    rintro entry d1 ⟨h1, hentry⟩
    refine .bind (ih h1.sound (hmixed.below hd h1.toBelow)) ?_
    rintro entries d2 ⟨h2, hentries⟩
    refine .pure ⟨h1.trans (h2.mono h1.size_le), fun x hx => ?_⟩
    rcases mem_cons.1 hx with rfl | hx
    · exact hentry.grows h1.sound h2 x mem_cons_self
    · exact hentries.mono h1.size_le x hx

/-- The value of a part. -/
theorem sends_initValue (type : CType) (e : Expr) (path : List InitStep) (hd : d.Sound) : Sends d (do
      if type.isArray then fail (.invalidOperands .arrayFromExpr) e.location
      else
        let v ← convert (← (lower e).value) type
        return [⟨path, v⟩]) fun entries d' => Inits d type path entries d' := by
  split
  · exact sends_fail _ _
  refine .bind ((lower_sound e).value hd) ?_
  rintro v d1 ⟨h1, hplace⟩
  refine .bind (sends_convert h1.grows.sound h1.grows.size_le h1.ready type) ?_
  rintro w d2 ⟨hconv, -, hplace2, -⟩
  refine .pure ⟨h1.grows.trans hconv.grows, fun entry hentry => ?_, fun _ entry hentry => ?_⟩
  · rw [mem_singleton.1 hentry]
    exact ⟨hconv.ready, hplace2 hplace⟩
  · rw [mem_singleton.1 hentry]

theorem sends_lowerInitExpr (type : CType) (e : Expr) (path : List InitStep) (hd : d.Sound)
    (hmixed : type ≠ .int → d.Mixed) :
    Sends d (lowerInitExpr type e path) fun entries d' => Inits d type path entries d' := by
  unfold lowerInitExpr
  split
  · next span s helement =>
    have hne : type ≠ .int := by
      rintro rfl
      cases helement
    refine .imp (sends_addChars span path _ hd (hmixed hne)) ?_
    rintro entries d' ⟨hg, hholds⟩
    exact ⟨hg, hholds, fun h => absurd h hne⟩
  · exact sends_initValue type _ path hd

mutual

/-- Building what sets a part leaves all values that it takes ready. -/
theorem sends_lowerInit (item : Initializer) (type : CType) (path : List InitStep) {d : Draft}
    (hd : d.Sound) (hmixed : type ≠ .int → d.Mixed) :
    Sends d (lowerInit item type path) fun entries d' => Inits d type path entries d' := by
  unfold lowerInit
  match item with
  | .expr e => exact sends_lowerInitExpr type e path hd hmixed
  | .list _ items =>
    -- the parts of an aggregate, one after the other
    have hslots : ∀ slots, type ≠ .int → Sends d (lowerInitSlots items slots path)
        fun entries d' => Inits d type path entries d' := fun slots hne =>
      Sends.imp (sends_lowerInitSlots items slots path hd (hmixed hne)) fun entries d' h =>
        ⟨h.1, h.2, fun heq => absurd heq hne⟩
    dsimp only
    split
    · refine .get_bind ?_
      split
      · exact hslots _ (by simp)
      · exact .pure ⟨.refl _ hd, by simp [Holds], by simp⟩
    · refine .get_bind ?_
      split
      · exact hslots _ (by simp)
      · exact sends_fail _ _
    · exact sends_lowerInitFirst items type path hd hmixed

/-- Building what sets the parts of an aggregate leaves all values ready. -/
theorem sends_lowerInitSlots (items : List Initializer) (slots : List (CType × InitStep))
    (path : List InitStep) {d : Draft} (hd : d.Sound) (hmixed : d.Mixed) :
    Sends d (lowerInitSlots items slots path) fun entries d' =>
      Grows d.size d d' ∧ d'.Holds d.size entries := by
  unfold lowerInitSlots
  match items, slots with
  | item :: items, (type, step) :: slots =>
    refine .bind (sends_lowerInit item type (path ++ [step]) hd fun _ => hmixed) fun first d1 h1 => ?_
    have hg1 := h1.grows
    refine .bind (sends_lowerInitSlots items slots path hg1.sound (hmixed.below hd hg1.toBelow)) ?_
    rintro more d2 ⟨h2, hmore⟩
    refine .pure ⟨hg1.trans (h2.mono hg1.size_le), fun entry hentry => ?_⟩
    rcases mem_append.1 hentry with hentry | hentry
    · exact h1.holds.grows hg1.sound h2 entry hentry
    · exact hmore.mono hg1.size_le entry hentry
  | [], _ | _ :: _, [] => exact .pure ⟨.refl _ hd, by simp [Holds]⟩

/-- A scalar takes the first value of a list. -/
theorem sends_lowerInitFirst (items : List Initializer) (type : CType) (path : List InitStep)
    {d : Draft} (hd : d.Sound) (hmixed : type ≠ .int → d.Mixed) :
    Sends d (lowerInitFirst items type path) fun entries d' => Inits d type path entries d' := by
  unfold lowerInitFirst
  match items with
  | item :: _ => exact sends_lowerInit item type path hd hmixed
  | [] => exact .pure ⟨.refl _ hd, by simp [Holds], by simp⟩

end

/-! ### Declarations -/

theorem sends_pushDecl {init : Option DeclInit} (hg : Grows d₀.size d₀ d) (hv : v ∈ d.state.locals)
    (htype : (d.program.var v).type = type) (hready : ∀ x ∈ Element.operands d.program (.decl v init l),
      d.Ready d₀.size x ∧ (d.expr x).op.isPlace = false)
    (hpath : ∀ entries, init = some (.list entries) → type = .int →
      ∀ entry ∈ entries, entry.path = []) :
    Sends d (pushElement (.decl v init l)) fun _ d' => Builds d₀ d' := by
  refine .imp (sends_pushElement hg.sound (fun x hx => (hready x hx).1.held)
    (fun x hx => .inl (hready x hx).1.evaluated)
    ⟨hv, fun x hx => (hready x hx).2, fun entries hinit hint => hpath entries hinit (htype ▸ hint)⟩
    (by simp)) ?_
  rintro _ d' ⟨hd', -, -, -, -, hext⟩
  exact ⟨hext _ _ hg.toExtends (by simp), hd'⟩

/-- A list that a variable starts with. -/
theorem sends_declList {act : Lower (List InitEntry)} (hd : d.Sound) (hv : v ∈ d.state.locals)
    (htype : (d.program.var v).type = type)
    (hact : Sends d act fun entries d' => Inits d type [] entries d') :
    Sends d (do
      let entries ← act
      let init ← pure (some (DeclInit.list entries))
      pushElement (.decl v init l)) fun _ d' => Builds d d' := by
  refine .bind hact fun entries d1 h => .pure_bind ?_
  refine sends_pushDecl h.grows (h.grows.locals v hv)
    ((congrArg Variable.type (h.grows.var_eq v (hd.locals v hv).1)).trans htype) (fun x hx => ?_) ?_
  · obtain ⟨entry, hentry, rfl⟩ := mem_map.1 hx
    exact h.holds entry hentry
  · rintro _ ⟨rfl⟩ hint
    exact h.whole hint

/-- What a variable starts with, and the step that declares it. -/
theorem sends_declInit (init : Option Initializer) (l : Location) (hd : d.Sound)
    (hv : v ∈ d.state.locals) (htype : (d.program.var v).type = type) :
    Sends d (do
      let init ← match init with
        | none => pure none
        | some (.expr e) =>
          if type.isArray then do pure (some (DeclInit.list (← lowerInitExpr type e [])))
          else do pure (some (DeclInit.expr (← convert (← (lower e).value) type)))
        | some (.list l items) => do pure (some (DeclInit.list (← lowerInit (.list l items) type [])))
      pushElement (.decl v init l)) fun _ d' => Builds d d' := by
  have hmixed : type ≠ .int → d.Mixed := fun hne => ⟨v, hv, by rwa [htype]⟩
  split
  · refine .pure_bind ?_
    exact sends_pushDecl (.refl _ hd) hv htype (by simp [Element.operands]) (by simp)
  · split
    · exact sends_declList hd hv htype (sends_lowerInitExpr type _ [] hd hmixed)
    · refine .bind ((lower_sound _).value hd) ?_
      rintro w d1 ⟨h1, hplace⟩
      refine .bind (sends_convert h1.grows.sound h1.grows.size_le h1.ready type) ?_
      rintro w d2 ⟨hconv, -, hplace2, -⟩
      refine .pure_bind ?_
      have hg := h1.grows.trans hconv.grows
      refine sends_pushDecl hg (hg.locals v hv)
        ((congrArg Variable.type (hg.var_eq v (hd.locals v hv).1)).trans htype) ?_ (by simp)
      intro x hx
      cases mem_singleton.1 hx
      exact ⟨hconv.ready, hplace2 hplace⟩
  · exact sends_declList hd hv htype (sends_lowerInit _ type [] hd hmixed)

/-- A local variable. -/
theorem sends_lowerDecl (decl : VarDecl) (hd : d.Sound) :
    Sends d (lowerDecl decl) fun _ d' => Builds d d' := by
  unfold lowerDecl
  dsimp only
  generalize completeArray decl.type decl.init = type
  refine .bind (sends_requireComplete type decl.location) ?_
  rintro _ d rfl
  refine .bind (sends_declareVar decl.name type _ decl.location) ?_
  rintro v _ ⟨rfl, rfl⟩
  split
  · exact .pure (hd.grows_declared (.inr (.inl rfl))).builds
  · have hg := hd.grows_declared (x := ⟨decl.name, type, .local, some d.state.function, decl.location⟩)
      (.inl rfl)
    exact .imp (sends_declInit decl.init decl.location hg.sound
      (mem_locals_declared_self fun i => by simp) (congrArg Variable.type var_declared_self))
      fun _ d' h => hg.builds.trans h

/-! ### Simple statements -/

theorem sends_lowerEffect (e : Expr) (hd : d.Sound) :
    Sends d (lowerEffect e) fun _ d' => Builds d d' := by
  refine .bind ((lower_sound e).value hd) ?_
  rintro v d1 ⟨h1, -⟩
  exact .imp (sends_markRoot h1.grows.sound) fun _ _ h => h1.grows.builds.trans h

/-- The step that returns a value, and the jump to the exit. -/
theorem sends_pushReturn {value : Option ExprId} (l : Location) (hg : Grows d₀.size d₀ d)
    (hready : ∀ x ∈ value, d.Ready d₀.size x ∧ (d.expr x).op.isPlace = false) :
    Sends d (do
      pushElement (.return value l)
      jump ⟨1⟩ .return) fun _ d' => Builds d₀ d' := by
  have hmem : ∀ x, x ∈ Element.operands d.program (.return value l) → x ∈ value := fun x hx => by
    simpa [Element.operands] using hx
  refine .bind (sends_pushElement hg.sound (fun x hx => (hready x (hmem x hx)).1.held)
    (fun x hx => .inl (hready x (hmem x hx)).1.evaluated) (fun x hx => (hready x hx).2) (by simp)) ?_
  rintro _ d1 ⟨hd1, -, -, -, -, hext⟩
  have h1 : Builds d₀ d1 := ⟨hext _ _ hg.toExtends (by simp), hd1⟩
  exact .imp (sends_jumpTo .return hd1 hd1.idle_exit) fun _ _ h => h1.trans h

theorem sends_lowerReturn (l : Location) (value : Option Expr) (hd : d.Sound) :
    Sends d (lowerReturn l value) fun _ d' => Builds d d' := by
  refine .get_bind ?_
  dsimp only
  split
  · exact .pure_bind (sends_pushReturn l (.refl _ hd) (by simp))
  · refine .bind ((lower_sound _).value hd) ?_
    rintro v d1 ⟨h1, hplace⟩
    split
    · exact .pure_bind (sends_pushReturn l h1.grows (by simp))
    · refine .bind (sends_convert h1.grows.sound h1.grows.size_le h1.ready _) ?_
      rintro w d2 ⟨hconv, -, hplace2, -⟩
      refine .pure_bind (sends_pushReturn l (h1.grows.trans hconv.grows) fun x hx => ?_)
      cases hx
      exact ⟨hconv.ready, hplace2 hplace⟩

theorem sends_lowerGoto (l : Location) (label : String) (hd : d.Sound) :
    Sends d (lowerGoto l label) fun _ d' => Builds d d' := by
  refine .bind (sends_labelBlock hd label l) ?_
  rintro target d1 ⟨h1, info, hinfo, rfl⟩
  have hidle : d1.Idle info.block := (h1 0).sound.label _ (mem_of_lookup hinfo)
  refine .get_bind ?_
  rw [hinfo]
  dsimp only
  split
  · refine .bind (sends_markLoopHead (h1 0).sound info.block) fun _ d2 h2 => ?_
    exact .imp (sends_jumpTo .goto (h2 0).sound ((h2 0).idle hidle)) fun _ _ h =>
      ((h1 _).builds.trans (h2 _).builds).trans h
  · exact .imp (sends_jumpTo .goto (h1 0).sound hidle) fun _ _ h => (h1 _).builds.trans h

/-- A label that was not met yet becomes the current block. -/
theorem sends_lowerLabel (l : Location) (name : String) (hd : d.Sound) :
    Sends d (lowerLabel l name) fun _ d' => Builds d d' := by
  refine .bind (sends_labelBlock hd name l) ?_
  rintro target d1 ⟨h1, info, hinfo, rfl⟩
  have hd1 := (h1 0).sound
  have hmem : (name, info) ∈ d1.state.labels := mem_of_lookup hinfo
  refine .get_bind ?_
  rw [hinfo]
  dsimp only
  split
  · exact sends_fail _ _
  next hdef =>
  have hpending : d1.Pending info.block := ⟨(name, info), hmem, by simpa using hdef, rfl⟩
  obtain ⟨hcur, block, hb, hnone, hempty⟩ := hd1.pending _ hpending
  refine .bind (show Sends d1 _ fun _ d' => d' = d1.met name from ?_) ?_
  · intro u s hs
    cases hs
    exact ⟨_, rfl, rfl⟩
  rintro _ _ rfl
  have hparked : (d1.met name).Parked info.block (d1.held info.block) :=
    ⟨⟨block, hb, hnone⟩, rfl, hcur, hd1.not_pending_met hmem⟩
  refine .bind (sends_jumpIfOpen (hd1.met name) (hd1.label _ hmem)) fun _ d2 h2 => ?_
  refine .imp (sends_setCurrent (some info.block)) ?_
  rintro _ _ rfl
  have hext : Extends d1.size d1 d2 := (extends_met d1.size d1 name).trans h2.toExtends
  exact (h1 d.size).builds.trans
    ⟨hext.goneTo (.inr (.inr hpending)), h2.sound.goneTo (hparked.extends h2.toExtends)⟩

theorem sends_lowerForCondition {body exit : BlockId} (l : Location) (cond : Option Expr)
    (hd : d.Sound) (hbody : d.Idle body) (hexit : d.Idle exit) :
    Sends d (lowerForCondition l cond body exit) fun _ d' => Builds d d' := by
  match cond with
  | some c => exact sends_branch (lower_sound c) _ hd hbody hexit
  | none =>
    refine .bind (sends_addOver (.refl _ hd) (by simp [Operation.operands]) (.inl rfl)
      (by simp)) ?_
    rintro always d1 ⟨h1, hexpr⟩
    have hbody1 := h1.grows.idle hbody
    have hexit1 := h1.grows.idle hexit
    refine .imp (sends_terminate h1.grows.sound (fun x hx => ?_) (fun b hb => ?_) (by simp))
      fun _ d' h => ⟨h.2.2 _ _ h1.grows.toExtends, h.1⟩
    · cases mem_singleton.1 hx
      exact ⟨h1.ready.held, by rw [hexpr]; rfl, h1.latest⟩
    · have hb' : b = body ∨ b = exit := by simpa [Terminator.successors] using hb
      rcases hb' with rfl | rfl
      · exact ⟨hbody1.1, hbody1.2 ▸ Set.empty_subset _⟩
      · exact ⟨hexit1.1, hexit1.2 ▸ Set.empty_subset _⟩

/-! ### Cases -/

/-- The blocks of the cases of a switch. -/
theorem sends_openCases (cases : List SwitchCase) {blocks fresh : List BlockId}
    (h : Layout d₀ blocks fresh d) :
    Sends d (openCases cases) fun r d' =>
      Layout d₀ (r.1.reverse ++ blocks) (r.1.reverse ++ fresh) d' ∧ (∀ t ∈ r.2.1, t.block ∈ r.1) ∧
        (∀ t ∈ r.2.2, t.1 ∈ r.1) ∧ d'.now = d.now ∧ d'.state.current = d.state.current ∧
        d'.program = d.program := by
  induction cases generalizing d blocks fresh with
  | nil => exact .pure ⟨h, by simp, by simp, rfl, rfl, rfl⟩
  | cons c rest ih =>
    obtain ⟨location, value, body⟩ := c
    refine .bind (sends_layOut h) ?_
    rintro b d1 ⟨h1, hnow1, hcur1, hprogram1⟩
    have hmem : ∀ {c : BlockId} {bs : List BlockId}, c ∈ bs → c ∈ b :: bs := fun hc =>
      mem_cons_of_mem b hc
    split
    · split
      · exact sends_fail _ _
      · refine .bind (ih h1) ?_
        rintro ⟨bs, targets, default⟩ d2 ⟨h2, htargets, hdefault, hnow2, hcur2, hprogram2⟩
        refine .pure ⟨by simpa using h2, fun t ht => ?_, fun t ht => hmem (hdefault t ht),
          hnow2.trans hnow1, hcur2.trans hcur1, hprogram2.trans hprogram1⟩
        rcases mem_cons.1 ht with rfl | ht
        · exact mem_cons_self
        · exact hmem (htargets t ht)
    · refine .bind (ih h1) ?_
      rintro ⟨bs, targets, default⟩ d2 ⟨h2, htargets, hdefault, hnow2, hcur2, hprogram2⟩
      refine .pure ⟨by simpa using h2, fun t ht => hmem (htargets t ht), fun t ht => ?_,
        hnow2.trans hnow1, hcur2.trans hcur1, hprogram2.trans hprogram1⟩
      rcases Option.or_eq_some_iff.1 ht with ht | ⟨-, ht⟩
      · exact hmem (hdefault t ht)
      · cases ht
        exact mem_cons_self

/-- The head of a switch. -/
theorem sends_lowerSwitchHead (l : Location) (cond : Expr) (cases : List SwitchCase) (hd : d.Sound) :
    Sends d (lowerSwitchHead l cond cases) fun r d' =>
      Layout d (r.2.reverse ++ [r.1]) (r.2.reverse ++ [r.1]) d' := by
  refine .bind ((lower_sound cond).value hd) ?_
  rintro v d1 ⟨h1, hplace⟩
  refine .typeOf_bind ?_
  split
  · exact sends_fail _ _
  refine .bind (sends_convert h1.grows.sound h1.grows.size_le h1.ready .int) ?_
  rintro w d2 ⟨hconv, -, hplace2, -⟩
  have hg2 := h1.grows.trans hconv.grows
  refine .bind (sends_layOut (Layout.refl hg2.sound)) ?_
  rintro exit d3 ⟨h3, hnow3, hcur3, hprogram3⟩
  refine .bind (sends_openCases cases h3) ?_
  rintro ⟨blocks, targets, default⟩ d4 ⟨h4, htargets, hdefault, hnow4, hcur4, hprogram4⟩
  have hmem : ∀ b, b ∈ blocks ∨ b = exit → d4.Idle b := fun b hb => h4.idle b (by simpa using hb)
  refine .bind (sends_terminate h4.sound (fun x hx => ?_) (fun b hb => ?_) (by simp)) ?_
  · cases mem_singleton.1 hx
    obtain ⟨c, hc, heval⟩ := hconv.latest h1.latest
    refine ⟨?_, ?_, c, hcur4.trans (hcur3.trans hc), h4.evaluatedIn c _ heval⟩
    · rw [hnow4, hnow3]
      exact hconv.ready.held
    · rw [expr, hprogram4, hprogram3]
      exact hplace2 hplace
  · have hidle : d4.Idle b := by
      rcases mem_append.1 hb with hb | hb
      · obtain ⟨t, ht, rfl⟩ := mem_map.1 hb
        exact hmem _ (.inl (htargets t ht))
      · rw [mem_singleton.1 hb]
        cases default with
        | none => exact hmem _ (.inr rfl)
        | some t => exact hmem _ (.inl (hdefault t rfl))
    exact ⟨hidle.1, hidle.2 ▸ Set.empty_subset _⟩
  · rintro _ d5 ⟨hd5, -, hext⟩
    exact .pure ((h4.builds ⟨hext _ _ (.refl _ d4), hd5⟩).after hg2.builds)

/-! ### Statements -/

theorem sends_forM {α : Type} {f : α → Lower Unit} (xs : List α)
    (hf : ∀ (x : α) (d : Draft), d.Sound → Sends d (f x) fun _ d' => Builds d d') (hd : d.Sound) :
    Sends d (xs.forM f) fun _ d' => Builds d d' := by
  induction xs generalizing d with
  | nil => exact .pure (.refl hd)
  | cons x xs ih =>
    exact .bind (hf x d hd) fun _ d1 h1 => .imp (ih h1.sound) fun _ _ h => h1.trans h

theorem sends_optionalEffect (e : Option Expr) (hd : d.Sound) :
    Sends d (e.forM lowerEffect) fun _ d' => Builds d d' := by
  cases e with
  | none => exact .pure (.refl hd)
  | some e => exact sends_lowerEffect e hd

mutual

/-- **Building a statement is right.** -/
theorem sends_lowerStmt (s : Stmt) {d : Draft} (hd : d.Sound) :
    Sends d (lowerStmt s) fun _ d' => Builds d d' := by
  unfold lowerStmt
  match s with
  | .empty _ => exact .pure (.refl hd)
  | .expr _ e => exact sends_lowerEffect e hd
  | .decl _ decls => exact sends_forM decls (fun decl d hd => sends_lowerDecl decl hd) hd
  | .block _ body => exact sends_inScope hd fun d1 hd1 => sends_lowerStmts body hd1
  | .ifThen _ cond yes no =>
    refine .bind (sends_layOut (.refl hd)) ?_
    rintro yesBlock d1 ⟨h1, -⟩
    refine .bind (sends_layOut h1) ?_
    rintro next d2 ⟨h2, -⟩
    match no with
    | some no =>
      refine .bind (sends_layOut h2) ?_
      rintro noBlock d3 ⟨h3, -⟩
      refine sends_then h3 (sends_branch (lower_sound cond) _ h3.sound (h3.idle _ (by simp))
        (h3.idle _ (by simp))) fun _ d4 h4 => ?_
      refine .bind (sends_enter [noBlock, next] [] h4) fun _ d5 h5 => ?_
      refine sends_then h5 (sends_lowerStmt yes h5.sound) fun _ d6 h6 => ?_
      refine sends_then h6 (sends_jumpIfOpen h6.sound (h6.idle _ (by simp))) fun _ d7 h7 => ?_
      refine .bind (sends_lowerElse (some no) [next] (by simp) h7) fun _ d8 h8 => ?_
      exact .imp (sends_enter [] [] h8) fun _ _ h => h.toBuilds
    | none =>
      refine .pure_bind ?_
      refine sends_then h2 (sends_branch (lower_sound cond) _ h2.sound (h2.idle _ (by simp))
        (h2.idle _ (by simp))) fun _ d4 h4 => ?_
      refine .bind (sends_enter [next] [] h4) fun _ d5 h5 => ?_
      refine sends_then h5 (sends_lowerStmt yes h5.sound) fun _ d6 h6 => ?_
      refine sends_then h6 (sends_jumpIfOpen h6.sound (h6.idle _ (by simp))) fun _ d7 h7 => ?_
      refine .bind (sends_lowerElse none [next] (by simp) h7) fun _ d8 h8 => ?_
      exact .imp (sends_enter [] [] h8) fun _ _ h => h.toBuilds
  | .whileDo _ cond body =>
    refine .bind (sends_layOut (.refl hd)) ?_
    rintro head d1 ⟨h1, -⟩
    refine .bind (sends_layOut h1) ?_
    rintro bodyBlock d2 ⟨h2, -⟩
    refine .bind (sends_layOut h2) ?_
    rintro exit d3 ⟨h3, -⟩
    refine .bind (sends_markLoopHead h3.sound head) fun _ d4 hg => ?_
    have h4 := h3.builds (hg _).builds
    refine sends_then h4 (sends_jumpTo _ h4.sound (h4.idle head (by simp))) fun _ d5 h5 => ?_
    refine .bind (sends_enter [exit, bodyBlock] [] h5) fun _ d6 h6 => ?_
    refine sends_then h6 (sends_branch (lower_sound cond) _ h6.sound (h6.idle _ (by simp))
      (h6.idle _ (by simp))) fun _ d7 h7 => ?_
    refine .bind (sends_enter [exit] [] h7) fun _ d8 h8 => ?_
    refine .bind (sends_inTargets h8 (by simp) (by simp) fun d d' h =>
      Sends.imp (sends_lowerStmt body h.sound) fun _ _ h' => h.builds h') fun _ d9 h9 => ?_
    refine sends_then h9 (sends_jumpIfOpen h9.sound (h9.idle head (by simp))) fun _ d10 h10 => ?_
    exact .imp (sends_enter [] [] h10) fun _ _ h => h.toBuilds
  | .doWhile _ body cond =>
    refine .bind (sends_layOut (.refl hd)) ?_
    rintro bodyBlock d1 ⟨h1, -⟩
    refine .bind (sends_layOut h1) ?_
    rintro condBlock d2 ⟨h2, -⟩
    refine .bind (sends_layOut h2) ?_
    rintro exit d3 ⟨h3, -⟩
    refine .bind (sends_markLoopHead h3.sound condBlock) fun _ d4 hg => ?_
    have h4 := h3.builds (hg _).builds
    refine sends_then h4 (sends_jumpTo _ h4.sound (h4.idle bodyBlock (by simp))) fun _ d5 h5 => ?_
    refine .bind (sends_enter [exit, condBlock] [] h5) fun _ d6 h6 => ?_
    refine .bind (sends_inTargets h6 (by simp) (by simp) fun d d' h =>
      Sends.imp (sends_lowerStmt body h.sound) fun _ _ h' => h.builds h') fun _ d7 h7 => ?_
    refine sends_then h7 (sends_jumpIfOpen h7.sound (h7.idle condBlock (by simp))) fun _ d8 h8 => ?_
    refine .bind (sends_enter [exit] [] h8) fun _ d9 h9 => ?_
    refine sends_then h9 (sends_branch (lower_sound cond) _ h9.sound (h9.idle _ (by simp))
      (h9.idle _ (by simp))) fun _ d10 h10 => ?_
    exact .imp (sends_enter [] [] h10) fun _ _ h => h.toBuilds
  | .forDo location init cond step body =>
    refine sends_inScope hd fun d₀ hd0 => ?_
    refine .bind (sends_lowerOptional init hd0) fun _ d h => ?_
    refine .bind (sends_layOut ((Layout.refl h.sound).after h)) ?_
    rintro head d1 ⟨h1, -⟩
    refine .bind (sends_layOut h1) ?_
    rintro bodyBlock d2 ⟨h2, -⟩
    refine .bind (sends_layOut h2) ?_
    rintro stepBlock d3 ⟨h3, -⟩
    refine .bind (sends_layOut h3) ?_
    rintro exit d4 ⟨h4, -⟩
    refine .bind (sends_markLoopHead h4.sound head) fun _ d5 hg => ?_
    have h5 := h4.builds (hg _).builds
    refine sends_then h5 (sends_jumpTo _ h5.sound (h5.idle head (by simp))) fun _ d6 h6 => ?_
    refine .bind (sends_enter [exit, stepBlock, bodyBlock] [] h6) fun _ d7 h7 => ?_
    refine sends_then h7 (sends_lowerForCondition location cond h7.sound
      (h7.idle _ (by simp)) (h7.idle _ (by simp))) fun _ d8 h8 => ?_
    refine .bind (sends_enter [exit, stepBlock] [] h8) fun _ d9 h9 => ?_
    refine .bind (sends_inTargets h9 (by simp) (by simp) fun d d' h =>
      Sends.imp (sends_lowerStmt body h.sound) fun _ _ h' => h.builds h') fun _ d10 h10 => ?_
    refine sends_then h10 (sends_jumpIfOpen h10.sound (h10.idle stepBlock (by simp)))
      fun _ d11 h11 => ?_
    refine .bind (sends_enter [exit] [] h11) fun _ d12 h12 => ?_
    refine sends_then h12 (sends_optionalEffect step h12.sound) fun _ d13 h13 => ?_
    refine sends_then h13 (sends_jumpTo _ h13.sound (h13.idle head (by simp))) fun _ d14 h14 => ?_
    exact .imp (sends_enter [] [] h14) fun _ _ h => h.toBuilds
  | .switch location cond cases =>
    refine .bind (sends_lowerSwitchHead location cond cases hd) ?_
    rintro ⟨exit, blocks⟩ d1 h1
    refine .bind (sends_inTargets h1 (by simp) (by simp) fun d d' h =>
      sends_lowerCases cases blocks (fun b hb => by simp [hb]) h) fun _ d2 h2 => ?_
    refine sends_then h2 (sends_jumpIfOpen h2.sound (h2.idle exit (by simp))) fun _ d3 h3 => ?_
    exact .imp (sends_enter [] [] h3) fun _ _ h => h.toBuilds
  | .break location =>
    refine .get_bind ?_
    split
    · next t ht =>
      exact sends_jumpTo .break hd (hd.targets t (mem_of_head? ht)).1
    · exact sends_fail _ _
  | .continue location =>
    refine .get_bind ?_
    split
    · next target htarget =>
      obtain ⟨t, ht, hcontinue⟩ := exists_of_findSome?_eq_some htarget
      exact sends_jumpTo .continue hd ((hd.targets t ht).2 _ hcontinue)
    · exact sends_fail _ _
  | .return location value => exact sends_lowerReturn location value hd
  | .goto location label => exact sends_lowerGoto location label hd
  | .label location name => exact sends_lowerLabel location name hd

/-- Building statements one after the other is right. -/
theorem sends_lowerStmts (body : List Stmt) {d : Draft} (hd : d.Sound) :
    Sends d (lowerStmts body) fun _ d' => Builds d d' := by
  unfold lowerStmts
  match body with
  | [] => exact .pure (.refl hd)
  | s :: rest =>
    exact .bind (sends_lowerStmt s hd) fun _ d1 h1 =>
      Sends.imp (sends_lowerStmts rest h1.sound) fun _ _ h => h1.trans h

theorem sends_lowerOptional (s : Option Stmt) {d : Draft} (hd : d.Sound) :
    Sends d (lowerOptional s) fun _ d' => Builds d d' := by
  unfold lowerOptional
  match s with
  | some s => exact sends_lowerStmt s hd
  | none => exact .pure (.refl hd)

/-- The other way of an `if` begins its block, if it has one of its own. -/
theorem sends_lowerElse (no : Option Stmt) {noBlock next : BlockId} {d₀ d : Draft}
    {blocks : List BlockId} (rest : List BlockId) (hnext : next ∈ blocks)
    (h : Layout d₀ blocks (if no.isSome then noBlock :: rest else rest) d) :
    Sends d (lowerElse no noBlock next) fun _ d' => Layout d₀ blocks rest d' := by
  unfold lowerElse
  match no with
  | some s =>
    refine .bind (sends_enter [] rest h) fun _ d1 h1 => ?_
    refine sends_then h1 (sends_lowerStmt s h1.sound) fun _ d2 h2 => ?_
    exact .imp (sends_jumpIfOpen h2.sound (h2.idle next hnext)) fun _ _ h => h2.builds h
  | none => exact .pure h

/-- The cases of a switch begin their blocks, one after the other. -/
theorem sends_lowerCases (cases : List (Location × Option Expr × List Stmt))
    (opened : List BlockId) {d₀ d : Draft} {blocks rest : List BlockId}
    (hopened : ∀ b ∈ opened, b ∈ blocks) (h : Layout d₀ blocks (opened.reverse ++ rest) d) :
    Sends d (lowerCases cases opened) fun _ d' => Layout d₀ blocks rest d' := by
  unfold lowerCases
  match cases, opened with
  | (_, _, body) :: cases, b :: opened =>
    have hb : b ∈ blocks := hopened b mem_cons_self
    refine sends_then h (sends_jumpIfOpen h.sound (h.idle b hb)) fun _ d1 h1 => ?_
    rw [reverse_cons, append_assoc, singleton_append] at h1
    refine .bind (sends_enter opened.reverse rest h1) fun _ d2 h2 => ?_
    refine sends_then h2 (sends_lowerStmts body h2.sound) fun _ d3 h3 => ?_
    exact sends_lowerCases cases opened (fun c hc => hopened c (mem_cons_of_mem _ hc)) h3
  | [], _ | _ :: _, [] => exact .pure (h.sublist (sublist_append_right _ _))

end

end Lower

end PathScout

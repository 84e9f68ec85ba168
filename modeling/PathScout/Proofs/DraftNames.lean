import PathScout.Proofs.LoweredExprs

/-!
# Names, labels and marks of drafts

What declaring a variable, opening a scope, entering a loop, meeting a label and marking a block do to
a draft.

* `Draft.Builds`: what building a statement does.
* `Lower.sends_declareVar`, `Lower.sends_inScope`: variables and the scopes of their names.
* `Lower.sends_labelBlock`, `Lower.sends_enterLabel`: labels.
* `Lower.sends_markRoot`, `Lower.sends_markLoopHead`: marks.
-/

namespace PathScout

open Lower Array List

namespace Draft

variable {d d' d'' : Draft} {n : Nat} {b c : BlockId} {e : ExprId} {v : VarId}
  {entry : String × LabelInfo} {block : OpenBlock}

/-- More was built. -/
structure Builds (d d' : Draft) : Prop extends Extends d.size d d' where
  sound : d'.Sound

theorem Builds.refl (hd : d.Sound) : Builds d d := ⟨.refl _ d, hd⟩

theorem Builds.trans (h : Builds d d') (h' : Builds d' d'') : Builds d d'' :=
  ⟨h.toExtends.trans (h'.toExtends.mono h.size_le), h'.sound⟩

theorem Grows.builds (h : Grows d.size d d') : Builds d d' := ⟨h.toExtends, h.sound⟩

theorem Closes.builds (h : Closes d.size d d') : Builds d d' := ⟨h.toExtends, h.sound⟩

/-! ### Variables -/

/-- The draft with one more variable, whose name is known in the innermost scope. -/
def declared (d : Draft) (x : Variable) : Draft where
  state := { d.state with
    program := { d.program with vars := d.program.vars.push x }
    scopes := match d.state.scopes with
      | scope :: outer => ((x.name, ⟨d.program.vars.size⟩) :: scope) :: outer
      | [] => []
    locals := match x.kind with
      | .param _ => d.state.locals
      | _ => d.state.locals.push ⟨d.program.vars.size⟩ }
  entry := d.entry

variable {x : Variable}

theorem var_declared_self : (d.declared x).program.var ⟨d.program.vars.size⟩ = x := by
  simp only [Program.var, declared, getElem?_push]
  rfl

theorem var_declared_of_lt (h : v.index < d.program.vars.size) :
    (d.declared x).program.var v = d.program.var v := by
  simp only [Program.var, declared, getElem?_push, if_neg h.ne]

theorem vars_size_declared : (d.declared x).program.vars.size = d.program.vars.size + 1 := size_push ..

theorem mem_locals_declared (h : v ∈ (d.declared x).state.locals) :
    v ∈ d.state.locals ∨ v = ⟨d.program.vars.size⟩ ∧ ∀ i, x.kind ≠ .param i := by
  simp only [declared] at h
  split at h
  · exact .inl h
  · next hkind => exact (mem_push.1 h).imp_right fun h => ⟨h, hkind⟩

theorem mem_locals_declared_self (h : ∀ i, x.kind ≠ .param i) :
    ⟨d.program.vars.size⟩ ∈ (d.declared x).state.locals := by
  simp only [declared]
  exact mem_push_self

theorem below_declared (d : Draft) (x : Variable) : Below d (d.declared x) :=
  { Below.refl d with
    vars_le := vars_size_declared.ge.trans' (Nat.le_succ _)
    var_eq := fun v hv => var_declared_of_lt hv
    announces := { Program.Announces.refl d.program with }
    locals := by
      intro v hv
      simp only [declared]
      split
      · exact hv
      · exact mem_push_of_mem _ hv }

theorem Sound.declared (hd : d.Sound)
    (hx : x.kind = .local ∨ x.kind = .staticLocal ∨ ∃ i, x.kind = .param i) :
    (d.declared x).Sound := by
  have hbelow := below_declared d x
  have hsize := vars_size_declared (d := d) (x := x)
  refine { hd with
    block := fun b block hb => hbelow.blockSound hd (lt_room_of_block? hb) (hd.block b block hb)
    scopes := ?_
    globals := fun y hy => (hd.globals y hy).trans_le hbelow.vars_le
    locals := ?_ }
  · intro names hnames y hy
    simp only [Draft.declared] at hnames
    split at hnames
    · next scope outer hscopes =>
      have hlt : ∀ names ∈ scope :: outer, ∀ y ∈ names, y.2.index < (d.declared x).program.vars.size :=
        fun names hnames y hy => (hd.scopes names (hscopes ▸ hnames) y hy).trans_le hbelow.vars_le
      rcases mem_cons.1 hnames with rfl | hnames
      · rcases mem_cons.1 hy with rfl | hy
        · rw [hsize]
          exact Nat.lt_succ_self _
        · exact hlt scope mem_cons_self y hy
      · exact hlt names (mem_cons_of_mem _ hnames) y hy
    · cases hnames
  · intro v hv
    rcases mem_locals_declared hv with hv | ⟨rfl, hkind⟩
    · obtain ⟨hlt, hkind⟩ := hd.locals v hv
      rw [hbelow.var_eq v hlt]
      exact ⟨hlt.trans_le hbelow.vars_le, hkind⟩
    · rw [var_declared_self, hsize]
      refine ⟨Nat.lt_succ_self _, ?_⟩
      rcases hx with hx | hx | ⟨i, hx⟩
      · exact .inl hx
      · exact .inr hx
      · exact absurd hx (hkind i)

theorem Sound.grows_declared (hd : d.Sound)
    (hx : x.kind = .local ∨ x.kind = .staticLocal ∨ ∃ i, x.kind = .param i) :
    Grows d.size d (d.declared x) :=
  ⟨{ Extends.refl d.size d with toBelow := below_declared d x }, hd.declared hx, subset_rfl⟩

/-! ### Scopes and jump targets -/

/-- The draft with other scopes. -/
def withScopes (d : Draft) (scopes : List Names) : Draft := ⟨{ d.state with scopes := scopes }, d.entry⟩

theorem Sound.withScopes (hd : d.Sound) {scopes : List Names}
    (h : ∀ names ∈ scopes, ∀ x ∈ names, x.2.index < d.program.vars.size) :
    (d.withScopes scopes).Sound :=
  have hbelow : Below d (d.withScopes scopes) := { Below.refl d with }
  { hd with
    block := fun _ block hb => hbelow.blockSound hd (lt_room_of_block? hb) (hd.block _ block hb)
    scopes := h }

/-- The draft with other jump targets. -/
def withTargets (d : Draft) (targets : List JumpTargets) : Draft :=
  ⟨{ d.state with targets := targets }, d.entry⟩

variable {ts : List JumpTargets}

theorem Sound.withTargets (hd : d.Sound)
    (h : ∀ t ∈ ts, d.Idle t.breakTo ∧ ∀ b ∈ t.continueTo, d.Idle b) : (d.withTargets ts).Sound :=
  have hbelow : Below d (d.withTargets ts) := { Below.refl d with }
  { hd with
    block := fun _ block hb => hbelow.blockSound hd (lt_room_of_block? hb) (hd.block _ block hb)
    targets := h }

/-- What is built with the same targets on both sides is built with any targets. -/
theorem Extends.withTargets (h : Extends n d d') (ts : List JumpTargets) :
    Extends n (d.withTargets ts) (d'.withTargets ts) :=
  { h with
    toBelow := { h.toBelow with }
    targets := rfl }

/-! ### Labels -/

/-- The draft with a block for a label that was not met yet. -/
def named (d : Draft) (name : String) (l : Location) : Draft where
  state := { (d.opened ∅).state with
    labels := d.state.labels ++ [(name, ⟨⟨d.room⟩, false, l⟩)] }
  entry := (d.opened ∅).entry

variable {name : String} {l : Location}

theorem mem_labels_named : entry ∈ (d.named name l).state.labels ↔
      entry ∈ d.state.labels ∨ entry = (name, ⟨⟨d.room⟩, false, l⟩) := by
  simp only [named, List.mem_append, List.mem_singleton]

theorem Pending.of_named (h : (d.named name l).Pending b) : d.Pending b ∨ b = ⟨d.room⟩ := by
  obtain ⟨entry, hmem, hdef, hb⟩ := h
  rcases mem_labels_named.1 hmem with hmem | rfl
  · exact .inl ⟨entry, hmem, hdef, hb⟩
  · exact .inr hb.symm

theorem Sound.named (hd : d.Sound) : (d.named name l).Sound := by
  have ho : (d.opened ∅).Sound := hd.opened ∅
  have hroom : (d.opened ∅).room = d.room + 1 := size_push ..
  have hold : ∀ entry ∈ d.state.labels, entry.2.block.index ≠ d.room := fun entry hmem =>
    (hd.label entry hmem).1.ne
  have hbelow : Below (d.opened ∅) (d.named name l) := { Below.refl (d.opened ∅) with }
  refine { ho with
    block := fun _ block hb => hbelow.blockSound ho (lt_room_of_block? hb) (ho.block _ block hb)
    label := ?_, labels := ?_, pending := ?_ }
  · intro entry hmem
    rcases mem_labels_named.1 hmem with hmem | rfl
    · exact ho.label entry hmem
    · exact ⟨hroom ▸ Nat.lt_succ_self _, entry_opened_self⟩
  · intro entry hmem entry' hmem' heq
    rcases mem_labels_named.1 hmem with hmem | rfl <;> rcases mem_labels_named.1 hmem' with hmem' | rfl
    · exact hd.labels entry hmem entry' hmem' heq
    · exact absurd (congrArg BlockId.index heq) (hold entry hmem)
    · exact absurd (congrArg BlockId.index heq).symm (hold entry' hmem')
    · rfl
  · intro b hb
    rcases hb.of_named with hb | rfl
    · exact ho.pending b hb
    · obtain ⟨block, hblock, hnone⟩ := (parked_opened hd ∅).block
      refine ⟨(parked_opened hd ∅).idle, {}, ?_, rfl, rfl⟩
      change (d.opened ∅).block? _ = _
      rw [block?_opened, if_pos rfl]

theorem Sound.grows_named (hd : d.Sound) (n : Nat) : Grows n d (d.named name l) := by
  have h : Extends n d (d.opened ∅) := extends_opened n d ∅
  refine ⟨{ h with toBelow := { h.toBelow with }, pending := ?_ }, hd.named, (now_opened hd ∅).ge⟩
  intro b hb
  exact hb.of_named.imp_right fun heq => (congrArg BlockId.index heq).ge

/-- The draft in which a label was met. -/
def met (d : Draft) (name : String) : Draft :=
  ⟨{ d.state with
      labels := d.state.labels.map fun (n, i) =>
        if n = name then (n, { i with isDefined := true }) else (n, i) }, d.entry⟩

theorem of_mem_labels_met (h : entry ∈ (d.met name).state.labels) :
    ∃ old ∈ d.state.labels, entry.1 = old.1 ∧ entry.2.block = old.2.block ∧
      (entry.2.isDefined = false → old.2.isDefined = false ∧ old.1 ≠ name) := by
  obtain ⟨old, hmem, rfl⟩ := mem_map.1 h
  refine ⟨old, hmem, ?_⟩
  dsimp only
  split
  · exact ⟨rfl, rfl, fun h => by cases h⟩
  · next hne => exact ⟨rfl, rfl, fun h => ⟨h, hne⟩⟩

theorem Pending.of_met (h : (d.met name).Pending b) : d.Pending b := by
  obtain ⟨entry, hmem, hdef, rfl⟩ := h
  obtain ⟨old, hold, -, hblock, hor⟩ := of_mem_labels_met hmem
  exact ⟨old, hold, (hor hdef).1, hblock.symm⟩

/-- The block of a label that was met is not waiting any more. -/
theorem Sound.not_pending_met (hd : d.Sound) {info : LabelInfo} (h : (name, info) ∈ d.state.labels) :
    ¬ (d.met name).Pending info.block := by
  rintro ⟨entry, hmem, hdef, hb⟩
  obtain ⟨old, hold, -, hblock, hor⟩ := of_mem_labels_met hmem
  exact (hor hdef).2 (hd.labels old hold (name, info) h (hblock.symm.trans hb))

theorem Sound.met (hd : d.Sound) (name : String) : (d.met name).Sound := by
  have hbelow : Below d (d.met name) := { Below.refl d with }
  refine { hd with
    block := fun _ block hb => hbelow.blockSound hd (lt_room_of_block? hb) (hd.block _ block hb)
    label := ?_, labels := ?_, pending := fun b hb => hd.pending b hb.of_met }
  · intro entry hmem
    obtain ⟨old, hold, -, hblock, -⟩ := of_mem_labels_met hmem
    exact hblock ▸ hd.label old hold
  · intro entry hmem entry' hmem' heq
    obtain ⟨old, hold, hname, hblock, -⟩ := of_mem_labels_met hmem
    obtain ⟨old', hold', hname', hblock', -⟩ := of_mem_labels_met hmem'
    rw [hname, hname']
    exact hd.labels old hold old' hold' (hblock ▸ hblock' ▸ heq)

theorem extends_met (n : Nat) (d : Draft) (name : String) : Extends n d (d.met name) :=
  { Extends.refl n d with
    toBelow := { Below.refl d with }
    pending := fun _ hb => .inl hb.of_met }

/-! ### Marks -/

variable {f : OpenBlock → OpenBlock}

theorem BlockSound.congr {block' : OpenBlock} (h : d.BlockSound b block)
    (hels : block'.elements = block.elements) (hterm : block'.terminator = block.terminator) :
    d.BlockSound b block' := by
  obtain ⟨els, term, loopHead⟩ := block
  obtain ⟨els', term', loopHead'⟩ := block'
  cases hels
  cases hterm
  exact { h with }

/-- A change of a block that is not about its steps and its end changes nothing else. -/
theorem Sound.grows_marked (hd : d.Sound) (n : Nat) (b : BlockId)
    (hels : ∀ block, (f block).elements = block.elements)
    (hterm : ∀ block, (f block).terminator = block.terminator) :
    Grows n d (d.changed b f d.state.current) := by
  have hkeep : d.KeepsSteps b f := fun block e r _ hel => ⟨r, by rwa [hels]⟩
  have hbelow : Below d (d.changed b f d.state.current) := below_changed hkeep
  -- every block has the steps and the end that it had
  have hfrom : ∀ c block', (d.changed b f d.state.current).block? c = some block' →
      ∃ block, d.block? c = some block ∧ block'.elements = block.elements ∧
        block'.terminator = block.terminator := by
    intro c block' hc
    rw [block?_changed] at hc
    split at hc
    · obtain ⟨block, hblock, rfl⟩ := Option.map_eq_some_iff.1 hc
      exact ⟨block, hblock, hels block, hterm block⟩
    · exact ⟨block', hc, rfl, rfl⟩
  have hto : ∀ c block, d.block? c = some block →
      ∃ block', (d.changed b f d.state.current).block? c = some block' ∧
        block'.elements = block.elements ∧ block'.terminator = block.terminator := by
    intro c block hc
    rw [block?_changed]
    split
    · exact ⟨f block, by rw [hc]; rfl, hels block, hterm block⟩
    · exact ⟨block, hc, rfl, rfl⟩
  have hsound : (d.changed b f d.state.current).Sound := by
    refine { hd with
      exit := ?_, current := ?_, block := ?_, unique := ?_, targets := ?_, label := ?_, pending := ?_ }
    · obtain ⟨block, hb, hempty, hexit⟩ := hd.exit
      obtain ⟨block', hb', hels', hterm'⟩ := hto _ block hb
      exact ⟨block', hb', hels'.trans hempty, hterm'.trans hexit⟩
    · intro c hc
      obtain ⟨block, hb, hnone⟩ := hd.current c hc
      obtain ⟨block', hb', -, hterm'⟩ := hto c block hb
      exact ⟨block', hb', hterm'.trans hnone⟩
    · intro c block' hc
      obtain ⟨block, hb, hels', hterm'⟩ := hfrom c block' hc
      exact (hbelow.blockSound hd (lt_room_of_block? hb) (hd.block c block hb)).congr hels' hterm'
    · intro c c' block block' i i' e r r' hc hc' hi hi'
      obtain ⟨old, hold, hels', -⟩ := hfrom c block hc
      obtain ⟨old', hold', hels'', -⟩ := hfrom c' block' hc'
      exact hd.unique c c' old old' i i' e r r' hold hold' (hels' ▸ hi) (hels'' ▸ hi')
    · intro t ht
      exact ⟨hbelow.idle (hd.targets t ht).1, fun c hc => hbelow.idle ((hd.targets t ht).2 c hc)⟩
    · intro entry hmem
      exact hbelow.idle (hd.label entry hmem)
    · intro c hc
      obtain ⟨hidle, block, hb, hnone, hempty⟩ := hd.pending c hc
      obtain ⟨block', hb', hels', hterm'⟩ := hto c block hb
      exact ⟨hidle, block', hb', hterm'.trans hnone, hels'.trans hempty⟩
  refine ⟨{ Extends.refl n d with toBelow := hbelow, frame := ?_, evaluated_new := ?_ }, hsound, ?_⟩
  · intro c block hc _ _
    exact hto c block hc
  · rintro e ⟨c, block', root, hc, hel⟩
    obtain ⟨block, hb, hels', -⟩ := hfrom c block' hc
    exact .inl ⟨c, block, root, hb, hels' ▸ hel⟩
  · cases hcur : d.state.current with
    | none =>
      rw [now, hcur]
      exact Set.empty_subset _
    | some c =>
      obtain ⟨block, hb, -⟩ := hd.current c hcur
      obtain ⟨block', hb', hels', -⟩ := hto c block hb
      have hcur' : (d.changed b f d.state.current).state.current = some c := hcur
      rw [← hcur, now_eq hcur', now_eq hcur, held_eq hb', held_eq hb, hels']
      exact subset_rfl

/-- A block whose last step is marked has the same steps apart from the mark. -/
theorem markRoot_eq (block : OpenBlock) : OpenBlock.markRoot block = block ∨
    ∃ before e r, block.elements = Array.push before (.expr e r) ∧
      OpenBlock.markRoot block = { block with elements := before.push (.expr e true) } := by
  unfold OpenBlock.markRoot
  split
  · next e r h =>
    obtain ⟨before, hbefore⟩ := back?_eq_some_iff.1 h
    exact .inr ⟨before, e, r, hbefore, by rw [hbefore, pop_push]⟩
  · exact .inl rfl

theorem getElem?_markRoot {i : Nat} {r : Bool}
    (h : (OpenBlock.markRoot block).elements[i]? = some (.expr e r)) :
    ∃ r', block.elements[i]? = some (.expr e r') := by
  rcases markRoot_eq block with heq | ⟨before, e', r', hels, heq⟩
  · exact ⟨r, by rwa [heq] at h⟩
  · rw [heq, getElem?_push] at h
    simp only [hels, getElem?_push]
    split at h
    · next hi =>
      cases h
      exact ⟨r', if_pos hi⟩
    · next hi => exact ⟨r, (if_neg hi).trans h⟩

theorem keepsSteps_markRoot : d.KeepsSteps b OpenBlock.markRoot := by
  intro block e r _ hel
  rcases markRoot_eq block with heq | ⟨before, e', r', hels, heq⟩
  · exact ⟨r, by rwa [heq]⟩
  · rw [hels] at hel
    rw [heq]
    rcases mem_push.1 hel with hel | heq'
    · exact ⟨r, mem_push_of_mem _ hel⟩
    · cases heq'
      exact ⟨true, mem_push_self⟩

theorem BlockSound.markRoot (h : d.BlockSound b block) (hnone : block.terminator = none) :
    d.BlockSound b (OpenBlock.markRoot block) := by
  rcases markRoot_eq block with heq | ⟨before, e, r, hels, heq⟩
  · rwa [heq]
  have hlast : Element.expr e r ∈ block.elements := hels ▸ mem_push_self
  have hbefore : ∀ el ∈ before, el ∈ block.elements := fun el hel => hels ▸ mem_push_of_mem _ hel
  rw [heq]
  refine ⟨?_, ?_, ?_, ?_, ?_, ?_⟩
  · have hs := h.supplied
    rw [hels, toList_push, supplied_concat] at hs
    rw [toList_push, supplied_concat]
    exact hs
  · intro el hel
    rcases mem_push.1 hel with hel | rfl
    · exact h.evaluated el (hbefore el hel)
    · exact h.evaluated (.expr e r) hlast
  · intro el hel
    rcases mem_push.1 hel with hel | rfl
    · exact h.typed el (hbefore el hel)
    · exact h.typed (.expr e r) hlast
  · simp [hnone]
  · simp [hnone]
  · simp [hnone]

theorem Sound.builds_markRoot (hd : d.Sound) (hcur : d.state.current = some b) :
    Builds d (d.changed b OpenBlock.markRoot (some b)) := by
  obtain ⟨block, hb, hnone⟩ := hd.current b hcur
  have hnone' : (OpenBlock.markRoot block).terminator = none := by
    rcases markRoot_eq block with heq | ⟨before, e, r, -, heq⟩ <;> rw [heq] <;> exact hnone
  have hbelow : Below d (d.changed b OpenBlock.markRoot (some b)) := below_changed keepsSteps_markRoot
  have hold := hbelow.blockSound hd (lt_room_of_block? hb) (hd.block b block hb)
  refine ⟨(Extends.refl d.size d).changed hcur (.inl rfl) keepsSteps_markRoot ?_,
    hd.changed hcur hb (.inl ⟨rfl, hnone'⟩) keepsSteps_markRoot (hold.markRoot hnone) ?_ ?_⟩
  · intro block' e r hb' hel
    obtain ⟨i, hi⟩ := getElem?_of_mem hel
    obtain ⟨r', hr'⟩ := getElem?_markRoot hi
    exact .inl ⟨b, block', r', hb', mem_of_getElem? hr'⟩
  · intro i i' e r r' hi hi'
    obtain ⟨s, hs⟩ := getElem?_markRoot hi
    obtain ⟨s', hs'⟩ := getElem?_markRoot hi'
    exact (hd.unique b b block block i i' e s s' hb hb hs hs').2
  · intro e r hel _
    obtain ⟨i, hi⟩ := getElem?_of_mem hel
    obtain ⟨r', hr'⟩ := getElem?_markRoot hi
    exact ⟨block, r', hb, mem_of_getElem? hr'⟩

end Draft

namespace Lower

open Draft

variable {d : Draft} {α : Type} {act : Lower α} {b : BlockId}

/-! ### What the actions do -/

theorem sends_markRoot (hd : d.Sound) : Sends d markRoot fun _ d' => Builds d d' := by
  refine .get_bind ?_
  split
  · next b hcur =>
    intro u s hact
    cases hact
    exact ⟨d.changed b OpenBlock.markRoot (some b), changed_state hcur, hd.builds_markRoot hcur⟩
  · exact .pure (.refl hd)

theorem sends_markLoopHead (hd : d.Sound) (b : BlockId) :
    Sends d (markLoopHead b) fun _ d' => ∀ n, Grows n d d' := by
  intro u s hact
  cases hact
  exact ⟨d.changed b _ d.state.current, rfl, fun n => hd.grows_marked n b (fun _ => rfl) fun _ => rfl⟩

theorem sends_declareVar (name : String) (type : CType) (kind : VarKind) (l : Location) :
    Sends d (declareVar name type kind l) fun v d' =>
      d' = d.declared ⟨name, type, kind, some d.state.function, l⟩ ∧ v = ⟨d.program.vars.size⟩ := by
  refine .get_bind ?_
  dsimp only
  split
  · exact sends_fail _ _
  · intro v s hact
    cases hact
    exact ⟨d.declared ⟨name, type, kind, some d.state.function, l⟩, rfl, rfl, rfl⟩

/-- A scope is opened. -/
theorem sends_openScope (hd : d.Sound) :
    Sends d (modify fun s : Lowering => { s with scopes := [] :: s.scopes } : Lower Unit) fun _ d' =>
      d' = d.withScopes ([] :: d.state.scopes) ∧ d'.Sound := by
  intro u s h
  cases h
  refine ⟨d.withScopes ([] :: d.state.scopes), rfl, rfl, hd.withScopes fun names hnames x hx => ?_⟩
  rcases mem_cons.1 hnames with rfl | hnames
  · cases hx
  · exact hd.scopes names hnames x hx

/-- Building in a scope of its own. -/
theorem sends_inScope (hd : d.Sound)
    (hact : ∀ d1 : Draft, d1.Sound → Sends d1 act fun _ d' => Builds d1 d') :
    Sends d (inScope act) fun _ d' => Builds d d' := by
  refine .bind (sends_openScope hd) ?_
  rintro _ _ ⟨rfl, hd1⟩
  refine .bind (hact _ hd1) fun a d2 h2 => ?_
  intro u s h
  cases h
  refine ⟨d2.withScopes d2.state.scopes.tail, rfl,
    { h2.toExtends with toBelow := { h2.toBelow with } }, h2.sound.withScopes fun names hnames => ?_⟩
  exact h2.sound.scopes names (mem_of_mem_tail hnames)

/-- The block of a label. -/
theorem sends_labelBlock (hd : d.Sound) (name : String) (l : Location) :
    Sends d (labelBlock name l) fun b d' => (∀ n, Grows n d d') ∧
      ∃ info, d'.state.labels.lookup name = some info ∧ info.block = b := by
  refine .get_bind ?_
  split
  · next info hinfo => exact .pure ⟨fun n => .refl n hd, info, hinfo, rfl⟩
  · next hnone =>
    intro b s hact
    cases hact
    refine ⟨d.named name l, rfl, fun n => hd.grows_named n, ⟨⟨d.room⟩, false, l⟩, ?_, rfl⟩
    have hnone' : d.state.labels.lookup name = none := hnone
    simp only [named, lookup_append, hnone', Option.none_or, lookup_cons, beq_self_eq_true]

end Lower

end PathScout

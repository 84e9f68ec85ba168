import PathScout.Proofs.CodeWalks

/-!
# Places for blocks

While a function is built, every block gets a place, a rational number, so that building always goes
on to higher places and an edge leads to a higher place, to the exit, or to a block that is marked as
the head of a loop. Blocks for which there is no number between two others do not occur: a block that
is needed later is put between the place where building stands and the place where it has to end.

A label that is used before it is set has no place yet; its block is above all others. When it is set, it
gets a place above all jumps to it.

* `Chart`: a function that is being built, with the places of its blocks.
* `Chart.Onward`: an edge to a block does not lead back. `Chart.Sound`: no edge does.
* `Chart.Moves`: building went on to higher places below a bound.
* `Lower.Climbs`: an action that always does so.
-/

namespace PathScout

open Lower Lowering

namespace Lowering

variable {s s' : Lowering} {b c : BlockId} {f : OpenBlock → OpenBlock} {t : Terminator}

/-- The end of a block leads to the other block. -/
def LeadsTo (s : Lowering) (b c : BlockId) : Prop :=
  ∃ block t, s.block? b = some block ∧ block.terminator = some t ∧ c ∈ t.successors

/-- The block is there, and is marked as the head of a loop. -/
def IsHead (s : Lowering) (b : BlockId) : Prop :=
  ∃ block, s.block? b = some block ∧ block.loopHead = true

/-- Blocks, labels and jump targets are the same. -/
structure SameFlow (s s' : Lowering) : Prop where
  blocks : s'.blocks = s.blocks
  current : s'.current = s.current
  labels : s'.labels = s.labels
  targets : s'.targets = s.targets

theorem SameFlow.refl (s : Lowering) : s.SameFlow s := ⟨rfl, rfl, rfl, rfl⟩

theorem SameFlow.block?_eq (h : s.SameFlow s') (b : BlockId) : s'.block? b = s.block? b := by
  rw [block?, h.blocks, block?]

theorem SameFlow.leadsTo_iff (h : s.SameFlow s') : s'.LeadsTo b c ↔ s.LeadsTo b c := by
  simp only [LeadsTo, h.block?_eq]

theorem SameFlow.isHead_iff (h : s.SameFlow s') : s'.IsHead b ↔ s.IsHead b := by
  simp only [IsHead, h.block?_eq]

theorem LeadsTo.lt_room (h : s.LeadsTo b c) : b.index < s.room := by
  obtain ⟨block, t, hb, -⟩ := h
  exact lt_room_of_block? hb

/-- A block of the larger function is new or was there before. -/
theorem block?_opened (b : BlockId) :
    s.opened.block? b = if b = ⟨s.room⟩ then some {} else s.block? b := by
  rw [block?, opened, Array.getElem?_push]
  have hiff : b.index = s.blocks.size ↔ b = ⟨s.room⟩ := by
    cases b
    exact BlockId.mk.injEq .. ▸ Iff.rfl
  simp only [hiff]
  rfl

theorem leadsTo_opened : s.opened.LeadsTo b c ↔ s.LeadsTo b c := by
  constructor
  · rintro ⟨block, t, hb, ht, hc⟩
    rw [block?_opened] at hb
    split at hb
    · cases hb
      cases ht
    · exact ⟨block, t, hb, ht, hc⟩
  · rintro ⟨block, t, hb, ht, hc⟩
    exact ⟨block, t, (block?_opened_of_lt (lt_room_of_block? hb)).trans hb, ht, hc⟩

theorem isHead_opened : s.opened.IsHead b ↔ s.IsHead b := by
  constructor
  · rintro ⟨block, hb, hhead⟩
    rw [block?_opened] at hb
    split at hb
    · cases hb
      cases hhead
    · exact ⟨block, hb, hhead⟩
  · rintro ⟨block, hb, hhead⟩
    exact ⟨block, (block?_opened_of_lt (lt_room_of_block? hb)).trans hb, hhead⟩

/-- What leads on from a block after one block was changed. -/
theorem leadsTo_changed {x y : BlockId} (h : (s.changed b f).LeadsTo x y) :
    s.LeadsTo x y ∨ x = b ∧ ∃ block t, s.block? b = some block ∧
      (f block).terminator = some t ∧ y ∈ t.successors := by
  obtain ⟨block, t, hx, ht, hy⟩ := h
  by_cases heq : x = b
  · subst heq
    rw [block?_changed_self] at hx
    obtain ⟨old, hold, rfl⟩ := Option.map_eq_some_iff.1 hx
    exact .inr ⟨rfl, old, t, hold, ht, hy⟩
  · rw [block?_changed_of_ne heq] at hx
    exact .inl ⟨block, t, hx, ht, hy⟩

theorem IsHead.changed (hf : ∀ block, block.loopHead = true → (f block).loopHead = true)
    (h : s.IsHead c) : (s.changed b f).IsHead c := by
  obtain ⟨block, hc, hhead⟩ := h
  by_cases heq : c = b
  · subst heq
    exact ⟨f block, by rw [block?_changed_self, hc]; rfl, hf block hhead⟩
  · exact ⟨block, (block?_changed_of_ne heq).trans hc, hhead⟩

end Lowering

/-- A function that is being built, with places for its blocks. Building stands at `here`; no jump to
a label that is not yet set comes from above `late`. -/
structure Chart where
  state : Lowering
  place : BlockId → WithTop ℚ
  here : ℚ
  late : ℚ

namespace Chart

variable {G H K : Chart} {b c : BlockId} {x y hi : ℚ} {w : WithTop ℚ} {s : Lowering}

/-- The number of blocks so far. -/
abbrev room (G : Chart) : Nat := G.state.room

/-- An edge from a place to the block does not lead back: the block is the exit, the head of a loop,
or higher. -/
def Onward (G : Chart) (w : WithTop ℚ) (c : BlockId) : Prop :=
  c = ⟨1⟩ ∨ G.state.IsHead c ∨ c.index < G.room ∧ w < G.place c ∧ (G.place c = ⊤ → w ≤ G.late)

/-- No edge leads back, and the blocks of labels that are not yet set are above all others. -/
structure Sound (G : Chart) : Prop where
  current : ∀ b, G.state.current = some b → b.index < G.room ∧ G.place b ≤ G.here
  edge : ∀ b c, G.state.LeadsTo b c → G.Onward (G.place b) c
  label : ∀ l ∈ G.state.labels, l.2.block.index < G.room ∧
    (l.2.isDefined = false → G.place l.2.block = ⊤)
  apart : ∀ l ∈ G.state.labels, ∀ l' ∈ G.state.labels, l.2.block = l'.2.block → l.1 = l'.1

/-- The block is there and has the place. -/
structure At (G : Chart) (b : BlockId) (x : ℚ) : Prop where
  lt_room : b.index < G.room
  place_eq : G.place b = x

/-- An edge from below `x` to the block does not lead back. -/
def Beyond (G : Chart) (x : ℚ) (b : BlockId) : Prop :=
  b = ⟨1⟩ ∨ G.state.IsHead b ∨ ∃ y, x ≤ y ∧ G.At b y

/-- Something was added, and what has a place keeps it. -/
structure Extends (G H : Chart) : Prop where
  sound : H.Sound
  at_mono : ∀ {b x}, G.At b x → H.At b x
  head : ∀ {b}, G.state.IsHead b → H.state.IsHead b
  targets : H.state.targets = G.state.targets

/-- Building went on to higher places below the bound. -/
structure Moves (hi : ℚ) (G H : Chart) : Prop extends G.Extends H where
  le : G.here ≤ H.here
  lt : H.here < hi
  late : H.late ≤ max G.late H.here

/-- Something was added, and building stands at the place. -/
structure Enters (x : ℚ) (G H : Chart) : Prop extends G.Extends H where
  here : H.here = x
  late : H.late = G.late

/-- Something was added where building stands. -/
structure Stays (G H : Chart) : Prop extends G.Extends H where
  here : H.here = G.here
  late : H.late = G.late

/-- Something was added up to the place, though building may stand at a lower place now. -/
structure Around (x : ℚ) (G H : Chart) : Prop extends G.Extends H where
  late : H.late ≤ max G.late x

theorem At.beyond (h : G.At b y) (hxy : x ≤ y) : G.Beyond x b := .inr (.inr ⟨y, hxy, h⟩)

theorem Sound.at_current (hG : G.Sound) (hb : G.state.current = some b) : ∃ y ≤ G.here, G.At b y := by
  obtain ⟨hlt, hle⟩ := hG.current b hb
  obtain ⟨y, hy⟩ := WithTop.ne_top_iff_exists.1 (ne_top_of_le_ne_top WithTop.coe_ne_top hle)
  rw [← hy] at hle
  exact ⟨y, WithTop.coe_le_coe.1 hle, hlt, hy.symm⟩

theorem Beyond.mono (h : G.Beyond y b) (hxy : x ≤ y) : G.Beyond x b :=
  h.imp_right fun h => h.imp_right fun ⟨z, hz, hb⟩ => ⟨z, hxy.trans hz, hb⟩

theorem Beyond.extends (h : G.Beyond x b) (hext : G.Extends H) : H.Beyond x b :=
  h.imp_right fun h => h.imp hext.head fun ⟨y, hxy, hb⟩ => ⟨y, hxy, hext.at_mono hb⟩

theorem Beyond.onward (h : G.Beyond x b) (hyx : y < x) : G.Onward y b := by
  rcases h with h | h | ⟨z, hxz, hb⟩
  · exact .inl h
  · exact .inr (.inl h)
  · refine .inr (.inr ⟨hb.lt_room, ?_, fun htop => ?_⟩)
    · rw [hb.place_eq]
      exact WithTop.coe_lt_coe.2 (hyx.trans_le hxz)
    · rw [hb.place_eq] at htop
      exact absurd htop WithTop.coe_ne_top

theorem Extends.refl (h : G.Sound) : G.Extends G := ⟨h, id, id, rfl⟩

theorem Extends.trans (h : G.Extends H) (h' : H.Extends K) : G.Extends K :=
  ⟨h'.sound, h'.at_mono ∘ h.at_mono, h'.head ∘ h.head, h'.targets.trans h.targets⟩

theorem Moves.refl (h : G.Sound) (hhi : G.here < hi) : G.Moves hi G :=
  ⟨.refl h, le_rfl, hhi, le_max_left _ _⟩

theorem Moves.trans (h : G.Moves x H) (h' : H.Moves hi K) : G.Moves hi K where
  toExtends := h.toExtends.trans h'.toExtends
  le := h.le.trans h'.le
  lt := h'.lt
  late := h'.late.trans (max_le (h.late.trans (max_le_max_left _ h'.le)) (le_max_right _ _))

theorem Stays.refl (h : G.Sound) : G.Stays G := ⟨.refl h, rfl, rfl⟩

theorem Stays.trans (h : G.Stays H) (h' : H.Stays K) : G.Stays K :=
  ⟨h.toExtends.trans h'.toExtends, h'.here.trans h.here, h'.late.trans h.late⟩

theorem Stays.moves (h : G.Stays H) (hhi : G.here < hi) : G.Moves hi H :=
  ⟨h.toExtends, h.here.ge, h.here.trans_lt hhi, h.late.trans_le (le_max_left _ _)⟩

theorem Stays.then_moves (h : G.Stays H) (h' : H.Moves hi K) : G.Moves hi K where
  toExtends := h.toExtends.trans h'.toExtends
  le := h.here.symm.trans_le h'.le
  lt := h'.lt
  late := h'.late.trans_eq (by rw [h.late])

theorem Enters.then_moves (h : G.Enters x H) (hle : G.here ≤ x) (h' : H.Moves hi K) : G.Moves hi K where
  toExtends := h.toExtends.trans h'.toExtends
  le := hle.trans (h.here.symm.trans_le h'.le)
  lt := h'.lt
  late := h'.late.trans_eq (by rw [h.late])

theorem Around.refl (h : G.Sound) : G.Around x G := ⟨.refl h, le_max_left _ _⟩

theorem Around.stays (h : G.Around x H) (h' : H.Stays K) : G.Around x K :=
  ⟨h.toExtends.trans h'.toExtends, h'.late.trans_le h.late⟩

theorem Around.enters (h : G.Around x H) (h' : H.Enters y K) : G.Around x K :=
  ⟨h.toExtends.trans h'.toExtends, h'.late.trans_le h.late⟩

theorem Around.moves (h : G.Around x H) (h' : H.Moves hi K) (hhi : hi ≤ x) : G.Around x K :=
  ⟨h.toExtends.trans h'.toExtends, h'.late.trans
    (max_le h.late ((h'.lt.le.trans hhi).trans (le_max_right _ _)))⟩

/-- What was added around a place counts as a move to it. -/
theorem Around.then_moves (h : G.Around x H) (h' : H.Moves hi K) (hx : x ≤ H.here)
    (hle : G.here ≤ H.here) : G.Moves hi K where
  toExtends := h.toExtends.trans h'.toExtends
  le := hle.trans h'.le
  lt := h'.lt
  late := h'.late.trans (max_le (h.late.trans (max_le_max_left _ (hx.trans h'.le))) (le_max_right _ _))

/-! ### Charts that differ in one thing -/

/-- The chart at another state of the same blocks. -/
def withState (G : Chart) (s : Lowering) : Chart := { G with state := s }

/-- The chart with one more block. -/
def opened (G : Chart) (w : WithTop ℚ) : Chart :=
  { G with state := G.state.opened, place := Function.update G.place ⟨G.room⟩ w }

/-- The chart with another current block, at a place. -/
def goneTo (G : Chart) (cur : Option BlockId) (x : ℚ) : Chart :=
  { G with state := G.state.goneTo cur, here := x }

/-- The chart with one block changed. -/
def changed (G : Chart) (b : BlockId) (f : OpenBlock → OpenBlock) : Chart :=
  { G with state := G.state.changed b f }

theorem onward_withState (h : G.state.SameFlow s) : (G.withState s).Onward w c ↔ G.Onward w c := by
  simp only [Onward, withState, h.isHead_iff, room, Lowering.room, h.blocks]

theorem Sound.withState (hG : G.Sound) (h : G.state.SameFlow s) : (G.withState s).Sound where
  current b hb := by
    have hold := hG.current b (h.current ▸ hb)
    exact ⟨by simpa only [room, Lowering.room, Chart.withState, h.blocks] using hold.1, hold.2⟩
  edge b c hbc := (onward_withState h).2 (hG.edge b c (h.leadsTo_iff.1 hbc))
  label l hl := by
    have hold := hG.label l (h.labels ▸ hl)
    exact ⟨by simpa only [room, Lowering.room, Chart.withState, h.blocks] using hold.1, hold.2⟩
  apart l hl l' hl' := hG.apart l (h.labels ▸ hl) l' (h.labels ▸ hl')

theorem Extends.withState (hG : G.Sound) (h : G.state.SameFlow s) : G.Extends (G.withState s) where
  sound := hG.withState h
  at_mono hb := ⟨by simpa only [room, Lowering.room, Chart.withState, h.blocks] using hb.lt_room,
    hb.place_eq⟩
  head := h.isHead_iff.2
  targets := h.targets

theorem place_opened_of_lt (h : b.index < G.room) : (G.opened w).place b = G.place b := by
  refine Function.update_of_ne ?_ _ _
  rintro rfl
  exact h.false

theorem place_opened_new : (G.opened w).place ⟨G.room⟩ = w := Function.update_self ..

theorem room_opened : (G.opened w).room = G.room + 1 := Lowering.room_opened

theorem lt_room_opened (h : b.index < G.room) : b.index < (G.opened w).room :=
  (Nat.lt_succ_of_lt h).trans_eq room_opened.symm

theorem Onward.opened {v : WithTop ℚ} (h : G.Onward v c) : (G.opened w).Onward v c := by
  rcases h with h | h | ⟨hlt, h⟩
  · exact .inl h
  · exact .inr (.inl (isHead_opened.2 h))
  · exact .inr (.inr ⟨lt_room_opened hlt, by rwa [place_opened_of_lt hlt]⟩)

theorem Sound.opened (hG : G.Sound) (w : WithTop ℚ) : (G.opened w).Sound where
  current b hb := by
    obtain ⟨hlt, hle⟩ := hG.current b hb
    exact ⟨lt_room_opened hlt, (place_opened_of_lt hlt).trans_le hle⟩
  edge b c hbc := by
    have hold := leadsTo_opened.1 hbc
    rw [place_opened_of_lt hold.lt_room]
    exact (hG.edge b c hold).opened
  label l hl := by
    obtain ⟨hlt, htop⟩ := hG.label l hl
    exact ⟨lt_room_opened hlt, fun h => (place_opened_of_lt hlt).trans (htop h)⟩
  apart := hG.apart

theorem Extends.opened (hG : G.Sound) (w : WithTop ℚ) : G.Extends (G.opened w) where
  sound := hG.opened w
  at_mono hb := ⟨lt_room_opened hb.lt_room, (place_opened_of_lt hb.lt_room).trans hb.place_eq⟩
  head := isHead_opened.2
  targets := rfl

theorem at_opened : (G.opened x).At ⟨G.room⟩ x :=
  ⟨(Nat.lt_succ_self G.room).trans_eq room_opened.symm, place_opened_new⟩

theorem Extends.goneTo {cur : Option BlockId} (hG : G.Sound)
    (h : ∀ b, cur = some b → b.index < G.room ∧ G.place b ≤ x) : G.Extends (G.goneTo cur x) where
  sound := ⟨h, hG.edge, hG.label, hG.apart⟩
  at_mono hb := ⟨hb.lt_room, hb.place_eq⟩
  head := id
  targets := rfl

variable {f : OpenBlock → OpenBlock}

/-- A block may be changed if no edge comes up that leads back. -/
theorem Extends.changed (hG : G.Sound)
    (hhead : ∀ block, block.loopHead = true → (f block).loopHead = true)
    (hedge : ∀ block t, G.state.block? b = some block → (f block).terminator = some t →
      block.terminator = some t ∨ ∀ c ∈ t.successors, G.Onward (G.place b) c) :
    G.Extends (G.changed b f) := by
  have hroom : (G.changed b f).room = G.room := room_changed
  have hmono : ∀ {w c}, G.Onward w c → (G.changed b f).Onward w c := fun h =>
    h.imp_right fun h => h.imp (·.changed hhead) fun h => ⟨h.1.trans_eq hroom.symm, h.2⟩
  refine ⟨⟨fun c hc => ?_, fun c c' hc => ?_, fun l hl => ?_, hG.apart⟩, fun hc => ?_, ?_, rfl⟩
  · exact ⟨(hG.current c hc).1.trans_eq hroom.symm, (hG.current c hc).2⟩
  · refine hmono ?_
    rcases leadsTo_changed hc with hold | ⟨rfl, block, t, hb, ht, hc'⟩
    · exact hG.edge c c' hold
    · rcases hedge block t hb ht with hsame | hnew
      · exact hG.edge c c' ⟨block, t, hb, hsame, hc'⟩
      · exact hnew c' hc'
  · exact ⟨(hG.label l hl).1.trans_eq hroom.symm, (hG.label l hl).2⟩
  · exact ⟨hc.lt_room.trans_eq hroom.symm, hc.place_eq⟩
  · exact (·.changed hhead)

end Chart

/-! ### Actions -/

namespace Lower

variable {cause : SemanticCause} {l : Location} {cur : Option BlockId}

open Chart

variable {α β : Type} {act : Lower α} {f : α → Lower β} {G H : Chart} {a : α} {b : BlockId}
  {x hi : ℚ} {post post' : α → Chart → Prop} {post₂ : β → Chart → Prop}

/-- Where the action succeeds, there are places for the blocks afterwards that satisfy the condition. -/
def Lays (act : Lower α) (G : Chart) (post : α → Chart → Prop) : Prop :=
  ∀ a s', act G.state = .ok (a, s') → ∃ H : Chart, H.state = s' ∧ post a H

theorem Lays.bind (h : Lays act G post) (hf : ∀ a H, post a H → Lays (f a) H post₂) :
    Lays (act >>= f) G post₂ := fun b s' hrun => by
  obtain ⟨a, s1, hact, hrest⟩ := bind_eq_ok.1 hrun
  obtain ⟨H, rfl, hpost⟩ := h a s1 hact
  exact hf a H hpost b s' hrest

/-- Two actions that are known together are followed by others. -/
theorem Lays.bind_assoc {γ : Type} {g : β → Lower γ} {post3 : γ → Chart → Prop}
    (h : Lays (act >>= f) G post₂) (hg : ∀ b H, post₂ b H → Lays (g b) H post3) :
    Lays (act >>= fun a => f a >>= g) G post3 := by
  rw [← LawfulMonad.bind_assoc]
  exact h.bind hg

theorem Lays.imp (h : Lays act G post) (himp : ∀ a H, post a H → post' a H) : Lays act G post' :=
  fun a s' hrun => by
    obtain ⟨H, hH, hpost⟩ := h a s' hrun
    exact ⟨H, hH, himp a H hpost⟩

theorem lays_pure (h : post a G) : Lays (pure a) G post := fun _ _ hrun => by
  cases hrun
  exact ⟨G, rfl, h⟩

theorem lays_fail : Lays (fail cause l : Lower α) G post := fun _ _ hrun => nomatch hrun

theorem lays_get_bind {g : Lowering → Lower α} (h : Lays (g G.state) G post) :
    Lays (get >>= g) G post := h

/-- Wherever it starts below a bound, the action goes on to higher places below it. -/
def Climbs (act : Lower α) : Prop :=
  ∀ G hi, G.Sound → G.here < hi → Lays act G fun _ H => G.Moves hi H

/-- The action leaves blocks, labels and jump targets alone. -/
def KeepsFlow (act : Lower α) : Prop := ∀ s a s', act s = .ok (a, s') → s.SameFlow s'

theorem KeepsFlow.lays (h : KeepsFlow act) (hG : G.Sound) : Lays act G fun _ H => G.Stays H :=
  fun a s' hrun => ⟨G.withState s', rfl, .withState hG (h _ a s' hrun), rfl, rfl⟩

theorem KeepsFlow.climbs (h : KeepsFlow act) : Climbs act := fun _ _ hG hhi =>
  (h.lays hG).imp fun _ _ hH => hH.moves hhi

theorem Climbs.bind (h : Climbs act) (hf : ∀ a, Climbs (f a)) : Climbs (act >>= f) :=
  fun G hi hG hhi => (h G hi hG hhi).bind fun a H hH =>
    (hf a H hi hH.sound hH.lt).imp fun _ _ hK => hH.trans hK

theorem climbs_pure : Climbs (pure a : Lower α) := fun _ _ hG hhi => lays_pure (.refl hG hhi)

theorem climbs_fail : Climbs (fail cause l : Lower α) := fun _ _ _ _ => lays_fail

theorem climbs_get_bind {g : Lowering → Lower α} (h : ∀ s, Climbs (g s)) :
    Climbs (get >>= g) := fun G hi hG hhi => lays_get_bind (h G.state G hi hG hhi)

theorem climbs_ite {p : Prop} [Decidable p] {act' : Lower α} (h : Climbs act)
    (h' : Climbs act') : Climbs (if p then act else act') := by
  split
  · exact h
  · exact h'

/-! ### Actions on blocks -/

theorem lays_newBlock (w : WithTop ℚ) :
    Lays newBlock G fun b H => H = G.opened w ∧ b = ⟨G.room⟩ := fun b s' hrun => by
  cases hrun
  exact ⟨G.opened w, rfl, rfl, rfl⟩

/-- A block that is opened for later, at a place of one's choice. -/
theorem lays_openAt (hG : G.Sound) (x : ℚ) : Lays newBlock G fun b H => G.Stays H ∧ H.At b x :=
  (lays_newBlock x).imp fun b H h => by
    obtain ⟨rfl, rfl⟩ := h
    exact ⟨⟨.opened hG x, rfl, rfl⟩, at_opened⟩

theorem lays_setCurrent (hG : G.Sound) (h : ∀ b, cur = some b → b.index < G.room ∧ G.place b ≤ x) :
    Lays (setCurrent cur) G fun _ H => G.Enters x H := fun _ s' hrun => by
  cases hrun
  exact ⟨G.goneTo cur x, rfl, .goneTo hG h, rfl, rfl⟩

theorem lays_enter (hG : G.Sound) (hb : G.At b x) :
    Lays (setCurrent (some b)) G fun _ H => G.Enters x H :=
  lays_setCurrent hG fun c hc => by
    cases hc
    exact ⟨hb.lt_room, hb.place_eq.le⟩

/-- Building goes on in a block that may have been the current one before. -/
theorem lays_resume (hG : G.Sound) (h : ∀ b, cur = some b → ∃ y ≤ x, G.At b y) :
    Lays (setCurrent cur) G fun _ H => G.Enters x H :=
  lays_setCurrent hG fun b hb => by
    obtain ⟨y, hy, hat⟩ := h b hb
    exact ⟨hat.lt_room, hat.place_eq.trans_le (WithTop.coe_le_coe.2 hy)⟩

/-- There is a current block afterwards, and all edges from here are as good as before. -/
structure Chart.Ensured (G : Chart) (b : BlockId) (H : Chart) : Prop extends G.Stays H where
  current : H.state.current = some b
  onward : ∀ {w c}, G.Onward w c → H.Onward w c

theorem lays_ensureCurrent (hG : G.Sound) : Lays ensureCurrent G (Chart.Ensured G) := by
  refine lays_get_bind ?_
  cases hcur : G.state.current with
  | some b => exact lays_pure ⟨.refl hG, hcur, id⟩
  | none =>
    refine (lays_newBlock G.here).bind fun b H hH => ?_
    obtain ⟨rfl, rfl⟩ := hH
    have hnew : (G.opened G.here).At ⟨G.room⟩ G.here := at_opened
    refine fun b s' hrun => ?_
    cases hrun
    refine ⟨(G.opened G.here).goneTo (some ⟨G.room⟩) G.here, rfl, ⟨?_, rfl, rfl⟩, rfl, Onward.opened⟩
    refine (Extends.opened hG _).trans (.goneTo (hG.opened _) fun c hc => ?_)
    cases hc
    exact ⟨hnew.lt_room, hnew.place_eq.le⟩

/-- A change of a block that keeps its end and its mark. -/
theorem lays_changePlain {f : OpenBlock → OpenBlock} (hG : G.Sound)
    (hf : ∀ block, (f block).terminator = block.terminator ∧ (f block).loopHead = block.loopHead) :
    Lays (changeBlock b f) G fun _ H => G.Stays H := fun _ s' hrun => by
  cases hrun
  exact ⟨G.changed b f, rfl, .changed hG (fun block h => (hf block).2.trans h)
    (fun block t _ ht => .inl ((hf block).1.symm.trans ht)), rfl, rfl⟩

theorem climbs_pushElement (el : Element) : Climbs (pushElement el) := fun G hi hG hhi => by
  refine (lays_ensureCurrent hG).bind fun b H hH => ?_
  have hchange : Lays (changeBlock b fun block =>
      { block with elements := block.elements.push el }) H fun _ K => H.Stays K :=
    lays_changePlain hH.sound fun _ => ⟨rfl, rfl⟩
  exact hchange.imp fun _ K hK => (hH.toStays.trans hK).moves hhi

/-- A block ends with edges that do not lead back. -/
theorem lays_terminate {t : Terminator} (hG : G.Sound) (h : ∀ c ∈ t.successors, G.Onward G.here c) :
    Lays (terminate t) G fun _ H => G.Stays H := by
  refine (lays_ensureCurrent hG).bind fun b H hH => ?_
  obtain ⟨-, hplace⟩ := hH.sound.current b hH.current
  have hedge : ∀ c ∈ t.successors, H.Onward (H.place b) c := fun c hc => by
    rw [hH.here] at hplace
    exact (hH.onward (h c hc)).imp_right fun h => h.imp_right fun ⟨hlt, habove, hlate⟩ =>
      ⟨hlt, hplace.trans_lt habove, fun htop => hplace.trans (hlate htop)⟩
  have hchange : Lays (changeBlock b fun block => { block with terminator := some t }) H
      fun _ K => H.Stays K := fun _ s' hrun => by
    cases hrun
    refine ⟨H.changed b _, rfl, .changed hH.sound (fun _ h => h) (fun block t' _ ht' => ?_), rfl, rfl⟩
    cases ht'
    exact .inr hedge
  refine hchange.bind fun _ K hK => ?_
  have hnone : ∀ c, none = some c → c.index < K.room ∧ K.place c ≤ G.here := fun _ hc => nomatch hc
  refine (lays_setCurrent hK.sound hnone).imp fun _ L hL => ?_
  exact (hH.toStays.trans hK).trans ⟨hL.toExtends, hL.here.trans (hK.here.trans hH.here).symm, hL.late⟩

theorem lays_jump {kind : JumpKind} (hG : G.Sound) (h : G.Onward G.here b) :
    Lays (jump b kind) G fun _ H => G.Stays H :=
  lays_terminate hG fun c hc => by
    rw [Terminator.successors, List.mem_singleton] at hc
    exact hc ▸ h

theorem lays_jumpIfOpen (hG : G.Sound) (h : G.Onward G.here b) :
    Lays (jumpIfOpen b) G fun _ H => G.Stays H := by
  refine lays_get_bind ?_
  split
  · exact lays_jump hG h
  · exact lays_pure (.refl hG)

theorem lays_markLoopHead (hG : G.Sound) (hb : b.index < G.room) :
    Lays (markLoopHead b) G fun _ H => G.Stays H ∧ H.state.IsHead b := fun _ s' hrun => by
  cases hrun
  refine ⟨G.changed b fun block => { block with loopHead := true }, rfl, ⟨.changed hG (fun _ _ => rfl)
    (fun block t _ ht => .inl ht), rfl, rfl⟩, ?_⟩
  obtain ⟨block, hblock⟩ := exists_block?_of_lt hb
  refine ⟨{ block with loopHead := true }, ?_, rfl⟩
  show (G.state.changed b _).block? b = _
  rw [block?_changed_self, hblock]
  rfl

theorem markRoot_plain (block : OpenBlock) : (OpenBlock.markRoot block).terminator = block.terminator ∧
    (OpenBlock.markRoot block).loopHead = block.loopHead := by
  unfold OpenBlock.markRoot
  split <;> exact ⟨rfl, rfl⟩

theorem climbs_markRoot : Climbs markRoot := fun G hi hG hhi => by
  refine lays_get_bind ?_
  split
  · exact (lays_changePlain hG markRoot_plain).imp fun _ K hK => hK.moves hhi
  · exact lays_pure (.refl hG hhi)

/-! ### Actions that leave blocks alone -/

theorem keepsFlow_addDetached (op : Operation) (t : CType) (span : Span) :
    KeepsFlow (addDetached op t span) := fun _ _ _ hrun => by
  cases hrun
  exact ⟨rfl, rfl, rfl, rfl⟩

theorem keepsFlow_exprOf (e : ExprId) : KeepsFlow (exprOf e) := fun _ _ _ hrun => by
  cases hrun
  exact .refl _

theorem keepsFlow_typeOf (e : ExprId) : KeepsFlow (typeOf e) := fun _ _ _ hrun => by
  cases hrun
  exact .refl _

theorem keepsFlow_requireComplete (t : CType) (l : Location) : KeepsFlow (requireComplete t l) :=
  fun s _ _ hrun => by
    obtain ⟨p, s1, hget, hrun⟩ := bind_eq_ok.1 hrun
    cases hget
    cases hcheck : checkComplete s.program t l with
    | error e =>
      rw [hcheck] at hrun
      cases hrun
    | ok u =>
      rw [hcheck] at hrun
      cases hrun
      exact .refl _

theorem keepsFlow_declareVar (name : String) (t : CType) (kind : VarKind) (l : Location) :
    KeepsFlow (declareVar name t kind l) := fun s v s' hrun => by
  obtain ⟨s0, s1, hget, hrun⟩ := bind_eq_ok.1 hrun
  cases hget
  split at hrun
  · cases hrun
  · cases hrun
    exact ⟨rfl, rfl, rfl, rfl⟩

theorem keepsFlow_resolveFunction (name : String) (l : Location) :
    KeepsFlow (resolveFunction name l) := fun s f s' hrun => by
  obtain ⟨s0, s1, hget, hrun⟩ := bind_eq_ok.1 hrun
  cases hget
  cases hnamed : s.program.functionNamed? name with
  | some g =>
    simp only [hnamed] at hrun
    cases hrun
    exact .refl _
  | none =>
    simp only [hnamed] at hrun
    cases hrun
    exact ⟨rfl, rfl, rfl, rfl⟩

theorem keepsFlow_scopes (g : List Names → List Names) :
    KeepsFlow (modify fun s : Lowering => { s with scopes := g s.scopes } : Lower PUnit) :=
  fun _ _ _ hrun => by
    cases hrun
    exact ⟨rfl, rfl, rfl, rfl⟩

end Lower

end PathScout

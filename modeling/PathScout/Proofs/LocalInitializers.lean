import PathScout.Proofs.LoweredUnits
import PathScout.Proofs.StatedValues

/-!
# Local variables start with what the text states

The list of a local variable is flattened to entries, one for each scalar that it sets. A declaration
forgets what the variable held, sets all of it to zero, and then writes the entries one after the other.
So a scalar with entries holds what the last one says, and the others are zero.

* `InitEntry.Sets`, `Initializer.Silent`: what entries set, and what they leave out.
* `Initializer.Braced.flattens`: flattening a braced initialiser, by induction on it.
* `State.writeEntries_spec`: writing entries.
* `VarDecl.runs_declared`: building and evaluating a declaration.
-/

namespace PathScout

open Catalog Naming List OrderedMap

variable {t : CType} {s : Lowering} {decl : VarDecl} {init : Initializer}

open Lower

/-! ### Entries -/

/-- The entry sets a part below `path` of an object of type `t` to the value `v`, as the initialiser
states. -/
def InitEntry.Sets (p : Program) (t : CType) (init : Initializer) (path : List InitStep) (c : Catalog)
    (v : Value) (entry : InitEntry) : Prop :=
  ∃ rel, entry.path = path ++ rel ∧ (∃ w u, Stated.Is c u v w) ∧
    ∀ u, p.Leaf t rel u → (init.start rel).Is c u v

/-- Scalars without an entry start with zero. -/
def Initializer.Silent (p : Program) (t : CType) (init : Initializer) (path : List InitStep)
    (entries : List InitEntry) : Prop :=
  ∀ rel u, p.Leaf t rel u → (∀ entry ∈ entries, entry.path ≠ path ++ rel) →
    init.start rel = .number 0

/-- The code gives the entries values that they set. -/
structure Lowering.Lists (s s' : Lowering) (entries : List InitEntry)
    (sets : Catalog → Value → InitEntry → Prop) : Prop where
  lt {entry : InitEntry} : entry ∈ entries → entry.value.index < s'.program.exprs.size
  brings : s.Brings s' fun f u c => ∀ entry ∈ entries, sets c (u.value f entry.value) entry

/-- The initialiser can be flattened wherever it is built. -/
def Initializer.Flattens (p : Program) (t : CType) (init : Initializer) : Prop :=
  ∀ (s : Lowering) (path : List InitStep), s.Placed → s.program.structs = p.structs →
    ∃ entries s', lowerInit init t path s = .ok (entries, s') ∧
      s.Lists s' entries (InitEntry.Sets p t init path) ∧ init.Silent p t path entries

section

variable {s s' s'' : Lowering} {p : Program} {t : CType} {init : Initializer} {path : List InitStep}
  {entry : InitEntry} {entries more : List InitEntry} {c d : Catalog} {v : Value}
  {sets sets' : Catalog → Value → InitEntry → Prop} {content : String} {b : Nat × Nat}
  {items : List Initializer} {slots : List (CType × InitStep)}

theorem InitEntry.Sets.mono (h : entry.Sets p t init path c v) (hcd : c ≤ d) :
    entry.Sets p t init path d v := by
  obtain ⟨rel, hpath, ⟨w, u, hw⟩, hset⟩ := h
  exact ⟨rel, hpath, ⟨w, u, hw.mono hcd⟩, fun u hu => (hset u hu).mono hcd⟩

theorem Initializer.Silent.mono (h : init.Silent p t path entries) (hsub : entries ⊆ more) :
    init.Silent p t path more :=
  fun rel u hu hnone => h rel u hu fun entry he => hnone entry (hsub he)

namespace Lowering

theorem Lists.nil (h : s.Placed) : s.Lists s [] sets where
  lt he := (not_mem_nil he).elim
  brings := (Brings.refl h).imp fun _ _ _ _ _ _ he => (not_mem_nil he).elim

theorem Lists.imp (h : s.Lists s' entries sets)
    (himp : ∀ entry ∈ entries, ∀ c v, sets c v entry → sets' c v entry) : s.Lists s' entries sets' :=
  ⟨h.lt, h.brings.imp fun _ _ _ _ hsets entry he => himp entry he _ _ (hsets entry he)⟩

/-- Entries that are built one after the other. -/
theorem Lists.append (h : s.Lists s' entries sets) (h' : s'.Lists s'' more sets)
    (hmono : ∀ {entry c d v}, c ≤ d → sets c v entry → sets d v entry) :
    s.Lists s'' (entries ++ more) sets where
  lt he := by
    obtain ⟨_, hemits⟩ := h'.brings.emits
    rcases mem_append.1 he with he | he
    · exact (h.lt he).trans_le hemits.size_le
    · exact h'.lt he
  brings := by
    refine (h.brings.trans h'.brings fun f t u c d hcd hsame hsets entry he => ?_).imp
      fun f u c _ ⟨hfirst, hmore⟩ entry he => ?_
    · rw [hsame.value fun _ => h.lt he]
      exact hmono hcd (hsets entry he)
    · exact (mem_append.1 he).elim (hfirst entry) (hmore entry)

/-- One value is one entry. -/
theorem Gives.lists {x : ExprId} {P : Catalog → Value → Prop} (h : s.Gives x s' t P)
    (hsets : ∀ c v, P c v → sets c v ⟨path, x⟩) : s.Lists s' [⟨path, x⟩] sets where
  lt he := mem_singleton.1 he ▸ h.lt
  brings := h.brings.imp fun _ _ _ _ hP _ he => mem_singleton.1 he ▸ hsets _ _ hP

end Lowering

/-! ### Flattening -/

open Lowering

/-- A scalar has one entry. -/
theorem Expr.Initial.flattens {e : Expr} (h : e.Initial t) : (Initializer.expr e).Flattens p t := by
  intro s path hs _
  have ht := h.isScalar
  obtain ⟨y, s1, x, s', hvalue, hconvert, hgives⟩ := h.exists_gives hs
  refine ⟨[⟨path, x⟩], s', ?_, hgives.lists fun c v hv => ⟨[], (append_nil path).symm, ⟨_, _, hv⟩,
    fun u hu => ?_⟩, fun rel u hu hnone => absurd ?_ (hnone _ mem_cons_self)⟩
  · have helement : t.element? = none := by cases t <;> first | rfl | cases ht
    rw [lowerInit, lowerInitExpr.eq_def, helement]
    have hrest : (if t.isArray = true then fail (.invalidOperands .arrayFromExpr) e.location
        else do
          let v ← convert (← (lower e).value) t
          return [⟨path, v⟩] : Lower (List InitEntry)) s = .ok ([⟨path, x⟩], s') := by
      rw [CType.isArray_of_isScalar ht]
      exact bind_eq_ok.2 ⟨y, s1, hvalue, bind_eq_ok.2 ⟨x, s', hconvert, rfl⟩⟩
    cases e <;> exact hrest
  · obtain ⟨-, rfl⟩ := hu.eq_of_isScalar ht
    exact hv
  · obtain ⟨rfl, -⟩ := hu.eq_of_isScalar ht
    exact (append_nil path).symm

/-- The bytes of a text are built one after the other. -/
theorem Lowering.exists_lists_bytes (span : Span) (path : List InitStep) (bytes : List (Nat × Nat))
    (s : Lowering) (hs : s.Placed) :
    ∃ entries s', (bytes.mapM fun b => do
        let v ← addExpr (.int b.1) .char span
        return ⟨path ++ [.element b.2], v⟩ : Lower (List InitEntry)) s = .ok (entries, s') ∧
      s.Lists s' entries (fun _ v entry => ∃ b ∈ bytes, entry.path = path ++ [.element b.2] ∧
        v = .ofInt b.1 .char) ∧
      ∀ b ∈ bytes, ∃ entry ∈ entries, entry.path = path ++ [.element b.2] := by
  induction bytes generalizing s with
  | nil => exact ⟨[], s, rfl, .nil hs, fun b hb => (not_mem_nil hb).elim⟩
  | cons b bytes ih =>
    obtain ⟨s1, hadd, hgives⟩ := (Brings.refl hs).gives (P := fun _ v => v = .ofInt b.1 .char)
      (.int b.1) .char span rfl rfl fun f u c hx _ _ => by
        refine ⟨trivial, _, c, ?_, id, rfl⟩
        simp only [State.evaluate?, bind_apply, query_apply, hx]
        rfl
    obtain ⟨_, hemits⟩ := hgives.brings.emits
    obtain ⟨entries, s', hrun, hlists, hall⟩ := ih s1 hemits.placed
    refine ⟨⟨path ++ [.element b.2], _⟩ :: entries, s', ?_, (hgives.lists fun c v hv => ?_).append
      (hlists.imp fun entry _ c v h => h.imp fun b' h => ⟨mem_cons_of_mem b h.1, h.2⟩)
      fun _ h => h, fun b' hb' => ?_⟩
    · rw [mapM_cons]
      exact bind_eq_ok.2 ⟨_, s1, bind_eq_ok.2 ⟨_, s1, hadd, rfl⟩, bind_eq_ok.2 ⟨entries, s', hrun, rfl⟩⟩
    · exact ⟨b, mem_cons_self, rfl, hv⟩
    · rcases mem_cons.1 hb' with rfl | hb'
      · exact ⟨_, mem_cons_self, rfl⟩
      · obtain ⟨entry, he, hpath⟩ := hall b' hb'
        exact ⟨entry, mem_cons_of_mem _ he, hpath⟩

/-- The bytes of a text, with their positions. -/
theorem mem_bytesOf :
    b ∈ bytesOf content ↔ (content.toUTF8.toList[b.2]?).map UInt8.toNat = some b.1 := by
  rw [bytesOf, mem_zipIdx_iff_getElem?, getElem?_map]

/-- A character of an array starts with its byte of the text. -/
theorem Initializer.start_text {span : Span} (h : b ∈ bytesOf content) :
    (Initializer.expr (.string span content)).start [.element b.2] = .number b.1 := by
  obtain ⟨byte, hbyte, hb⟩ := Option.map_eq_some_iff.1 (mem_bytesOf.1 h)
  rw [start, stated?, hbyte, ← hb]
  rfl

/-- The scalars of an array of characters. -/
theorem Program.Leaf.of_chars {size : Option Nat} {rel : List InitStep} {u : CType}
    (h : p.Leaf (.array .char size) rel u) : ∃ i, rel = [.element i] ∧ i < size.getD 0 ∧ u = .char := by
  cases h with
  | scalar h => cases h
  | part hstep hrest =>
    cases hstep with
    | element hn =>
      obtain ⟨rfl, rfl⟩ := hrest.eq_of_isScalar rfl
      exact ⟨_, rfl, hn, rfl⟩

/-- A text has an entry for each of its bytes but zero. -/
theorem Initializer.flattens_text (size : Option Nat) (span : Span) (content : String) :
    (Initializer.expr (.string span content)).Flattens p (.array .char size) := by
  intro s path hs _
  obtain ⟨entries, s', hrun, hlists, hall⟩ :=
    exists_lists_bytes span path ((bytesOf content).filter (·.1 != 0)) s hs
  refine ⟨entries, s', by rw [lowerInit]; exact hrun, hlists.imp fun entry _ c v ⟨b, hb, hpath, hv⟩ => ?_,
    fun rel u hu hnone => ?_⟩
  · refine ⟨_, hpath, ⟨.number b.1, .char, hv⟩, fun u hu => ?_⟩
    obtain ⟨i, -, -, rfl⟩ := hu.of_chars
    rw [start_text (mem_of_mem_filter hb)]
    exact hv
  · obtain ⟨i, rfl, -, -⟩ := hu.of_chars
    rw [start, stated?]
    cases hbyte : content.toUTF8.toList[i]? with
    | none => rfl
    | some byte =>
      -- a byte without an entry is zero
      have hmem : (byte.toNat, i) ∈ bytesOf content := mem_bytesOf.2 (by rw [hbyte]; rfl)
      by_cases hzero : byte.toNat = 0
      · rw [Option.map_some, hzero]
        rfl
      · obtain ⟨entry, he, hpath⟩ := hall _ (mem_filter.2 ⟨hmem, bne_iff_ne.2 hzero⟩)
        exact absurd hpath (hnone entry he)

/-- The items of a list are flattened one after the other, each for its part. -/
theorem Lowering.exists_lists_slots
    (h : ∀ (i : Nat) item slot, items[i]? = some item → slots[i]? = some slot → item.Flattens p slot.1)
    (s : Lowering) (path : List InitStep) (hs : s.Placed) (hstructs : s.program.structs = p.structs) :
    ∃ entries s', lowerInitSlots items slots path s = .ok (entries, s') ∧
      s.Lists s' entries (fun c v entry => ∃ (i : Nat) (item : Initializer) (slot : CType × InitStep),
        items[i]? = some item ∧ slots[i]? = some slot ∧
          entry.Sets p slot.1 item (path ++ [slot.2]) c v) ∧
      ∀ (i : Nat) item slot, items[i]? = some item → slots[i]? = some slot →
        item.Silent p slot.1 (path ++ [slot.2]) entries := by
  induction items generalizing slots s with
  | nil => exact ⟨[], s, by rw [lowerInitSlots.eq_def]; rfl, .nil hs, fun i item slot hi => nomatch hi⟩
  | cons item items ih =>
    cases slots with
    | nil =>
      exact ⟨[], s, by rw [lowerInitSlots.eq_def]; rfl, .nil hs, fun i item slot _ hslot => nomatch hslot⟩
    | cons slot slots =>
      obtain ⟨first, s1, hfirst, hlists, hsilent⟩ :=
        h 0 item slot rfl rfl s (path ++ [slot.2]) hs hstructs
      obtain ⟨_, hemits⟩ := hlists.brings.emits
      obtain ⟨more, s', hmore, hlists', hsilent'⟩ := ih (fun i => h (i + 1)) s1 hemits.placed
        (hemits.structs.trans hstructs)
      refine ⟨first ++ more, s', ?_, (hlists.imp fun _ _ _ _ hsets => ?_).append
        (hlists'.imp fun _ _ _ _ ⟨i, hsets⟩ => ⟨i + 1, hsets⟩) ?_, fun i item' slot' hitem hslot => ?_⟩
      · obtain ⟨type, step⟩ := slot
        rw [lowerInitSlots]
        exact bind_eq_ok.2 ⟨first, s1, hfirst, bind_eq_ok.2 ⟨more, s', hmore, rfl⟩⟩
      · exact ⟨0, item, slot, rfl, rfl, hsets⟩
      · rintro _ _ _ _ hcd ⟨i, item', slot', hitem, hslot, hsets⟩
        exact ⟨i, item', slot', hitem, hslot, hsets.mono hcd⟩
      · cases i with
        | zero =>
          cases hitem
          cases hslot
          exact hsilent.mono (subset_append_left _ _)
        | succ i => exact (hsilent' i item' slot' hitem hslot).mono (subset_append_right _ _)

/-- A list of an object with parts is flattened part by part. -/
theorem Initializer.flattens_list {l : Location} (ht : t.isScalar = false)
    (hslots : initSlots p t items.length = some slots)
    (h : ∀ (i : Nat) item slot, items[i]? = some item → slots[i]? = some slot → item.Flattens p slot.1) :
    (Initializer.list l items).Flattens p t := by
  intro s path hs hstructs
  obtain ⟨entries, s', hrun, hlists, hsilent⟩ := exists_lists_slots h s path hs hstructs
  refine ⟨entries, s', ?_, hlists.imp fun entry _ c v h => ?_, fun rel u hu hnone => ?_⟩
  · cases t with
    | array | struct =>
      rw [lowerInit]
      refine bind_eq_ok.2 ⟨s, s, rfl, ?_⟩
      rw [initSlots_of_structs hstructs, hslots]
      exact hrun
    | _ => cases hslots
  · obtain ⟨i, item, slot, hitem, hslot, tail, hpath, hstated, hset⟩ := h
    refine ⟨slot.2 :: tail, by rw [hpath, append_assoc]; rfl, hstated, fun u hu => ?_⟩
    obtain ⟨hposition, htype⟩ := initSlots_sound hslots hslot
    cases hu with
    | part _ hrest =>
      rw [start_cons (hposition ▸ hitem)]
      exact hset u (htype ▸ hrest)
  · cases hu with
    | scalar hscalar => cases ht.symm.trans hscalar
    | @part _ _ step tail hstep hrest =>
      cases hitem : items[step.position]? with
      | none =>
        rw [start, stated?_cons, hitem]
        rfl
      | some item =>
        have hslot := initSlots_complete hslots hstep (List.getElem?_eq_some_iff.1 hitem).1
        rw [start_cons hitem]
        refine hsilent _ item _ hitem hslot tail u hrest fun entry he => ?_
        rw [append_assoc]
        exact hnone entry he

/-- **Flattening.** Every braced initialiser of a type is flattened to entries that set what it states,
and what they leave out starts with zero. -/
theorem Initializer.Braced.flattens (h : init.Braced p t) : init.Flattens p t := by
  induction h with
  | scalar he => exact he.flattens
  | @braces t l items ht _ ih =>
    intro s path hs hstructs
    have hmatch : lowerInit (.list l items) t path s = lowerInitFirst items t path s := by
      cases t with
      | array | struct => cases ht
      | _ => rw [lowerInit.eq_def]
    rw [hmatch]
    cases items with
    | nil =>
      refine ⟨[], s, by rw [lowerInitFirst]; rfl, .nil hs, fun rel u hu _ => ?_⟩
      obtain ⟨rfl, -⟩ := hu.eq_of_isScalar ht
      rfl
    | cons item items =>
      obtain ⟨entries, s', hrun, hlists, hsilent⟩ := ih item rfl s path hs hstructs
      -- a list in the place of a scalar states what its first item states
      have hstart {rel : List InitStep} {u : CType} (hu : p.Leaf t rel u) :
          (Initializer.list l (item :: items)).start rel = item.start rel := by
        obtain ⟨rfl, -⟩ := hu.eq_of_isScalar ht
        rw [start, start, stated?, firstStated?]
      refine ⟨entries, s', by rw [lowerInitFirst]; exact hrun, hlists.imp fun entry _ c v hsets => ?_,
        fun rel u hu hnone => (hstart hu).trans (hsilent rel u hu hnone)⟩
      obtain ⟨rel, hpath, hstated, hset⟩ := hsets
      exact ⟨rel, hpath, hstated, fun u hu => hstart hu ▸ hset u hu⟩
  | @text size span content => exact flattens_text size span content
  | @array t size l items _ ih =>
    refine flattens_list rfl rfl fun i item slot hitem hslot => ?_
    obtain ⟨_, -, rfl⟩ := mem_map.1 (mem_of_getElem? hslot)
    exact ih item (mem_of_getElem? hitem)
  | @struct name owner l items hname _ ih =>
    refine flattens_list rfl (by rw [initSlots, hname]; rfl) fun i item slot hitem hslot => ?_
    rw [getElem?_map, getElem?_zipIdx] at hslot
    obtain ⟨_, hzip, rfl⟩ := Option.map_eq_some_iff.1 hslot
    obtain ⟨field, hfield, rfl⟩ := Option.map_eq_some_iff.1 hzip
    exact ih i item field hitem hfield

end

/-! ### Writing entries -/

/-- A path from one object leads to one part. -/
theorem Catalog.Route.unique {c : Catalog} {r q q' : RegionId} {path : List InitStep}
    (h : c.Route r t path q) (h' : c.Route r t path q') : q = q' :=
  congrArg Prod.fst (h.partAt_eq.symm.trans h'.partAt_eq)

namespace State

variable {c d : Catalog} {f : FrameId} {s : State} {r q : RegionId} {t : CType} {rel : List InitStep}
  {entries : List InitEntry}

/-- Writes entries one after the other. -/
def writeEntries (s : State) (f : FrameId) (r : RegionId) (t : CType) (entries : List InitEntry) :
    Naming State :=
  entries.foldlM (fun s entry => do
    let part ← partAt r t entry.path
    s.write .region part (s.value f entry.value)) s

/-- **Writing entries.** The part at a path holds the value of the last entry for it, or what it held
before if there is none. Values for all parts of a region stay as they are. -/
theorem writeEntries_spec (hc : c.WellFormed) (hr : c.Has r)
    (hwhole : ∀ entry ∈ entries, ∀ type, Store.setsWhole (s.value f entry.value) type = false) :
    let out := s.writeEntries f r t entries c
    c ≤ out.2 ∧ out.2.WellFormed ∧ (∀ m, out.1.store.default? m = s.store.default? m) ∧
      ∀ d, out.2 ≤ d → d.WellFormed → ∀ rel q, d.Route r t rel q →
        ((∀ entry ∈ entries, entry.path ≠ rel) → out.1.store.direct? q = s.store.direct? q) ∧
        ((∃ entry ∈ entries, entry.path = rel) → ∃ entry ∈ entries, entry.path = rel ∧
          out.1.store.direct? q = some (s.value f entry.value)) := by
  induction entries generalizing c s with
  | nil =>
    exact ⟨le_rfl, hc, fun _ => rfl, fun d _ _ rel q _ =>
      ⟨fun _ => rfl, fun h => h.elim fun _ he => (not_mem_nil he.1).elim⟩⟩
  | cons entry entries ih =>
    intro out
    obtain ⟨hwell, hgrows, hroute⟩ := route_partAt hc hr t entry.path
    generalize hpart : partAt r t entry.path c = part at hwell hgrows hroute
    obtain ⟨q0, c1⟩ := part
    let s1 : State := { s with store := ⟨s.store.bindings.insert (.direct q0) (s.value f entry.value)⟩ }
    have hstep : out = s1.writeEntries f r t entries c1 := by
      show (List.foldlM _ s (entry :: entries) : Naming State) c = _
      rw [foldlM_cons, bind_apply, bind_apply, hpart]
      show (s.bind .region c1 (.region q0) (s.value f entry.value)).writeEntries f r t entries c1 = _
      rw [bind, StorePolicy.bind, Store.bind_eq_insert (hwhole entry mem_cons_self _)]
    obtain ⟨hle, hwell', hdefault, hdirect⟩ := ih (s := s1) hwell (hr.mono hgrows)
      fun e he => hwhole e (mem_cons_of_mem _ he)
    rw [← hstep] at hle hwell' hdefault hdirect
    refine ⟨hgrows.trans hle, hwell', fun m => (hdefault m).trans ?_, fun d hd hdwell rel q hq => ?_⟩
    · exact get?_insert_of_ne (BindingKey.direct_ne_default q0 m).symm
    obtain ⟨hnone, hsome⟩ := hdirect d hd hdwell rel q hq
    have hroute' : d.Route r t entry.path q0 := hroute.mono (hle.trans hd)
    refine ⟨fun hne => ?_, fun hex => ?_⟩
    · rw [hnone fun e he => hne e (mem_cons_of_mem _ he)]
      refine get?_insert_of_ne fun heq => hne entry mem_cons_self ?_
      obtain rfl : q = q0 := congrArg BindingKey.region heq
      exact hroute'.path_eq hdwell hq
    · -- later entries for the same part win
      by_cases hlater : ∃ e ∈ entries, e.path = rel
      · obtain ⟨e, he, hpath, hvalue⟩ := hsome hlater
        exact ⟨e, mem_cons_of_mem _ he, hpath, hvalue⟩
      · obtain ⟨e, he, hpath⟩ := hex
        rcases mem_cons.1 he with rfl | he
        · obtain rfl : q = q0 := hq.unique (hpath ▸ hroute')
          refine ⟨e, mem_cons_self, hpath, ?_⟩
          rw [hnone fun e' he' heq => hlater ⟨e', he', heq⟩]
          exact get?_insert_self
        · exact absurd ⟨e, he, hpath⟩ hlater

/-- After a list is written to an object, all its scalars hold what is stated. -/
theorem shows_writeList {p : Program} {init : Initializer} (hc : c.WellFormed) (hr : c.Has r)
    (hparent : (c.region r).parent? ≠ none) (hkeys : s.store.KeysNamedIn c)
    (hsets : ∀ entry ∈ entries, entry.Sets p t init [] c (s.value f entry.value))
    (hsilent : init.Silent p t [] entries) :
    let out := s.writeList .region f r t entries c
    c ≤ out.2 ∧ out.2.WellFormed ∧ ∀ d, out.2 ≤ d → d.WellFormed → ∀ path u q, p.Leaf t path u →
      d.Route r t path q → out.1.store.Shows d r q u (init.start path) := by
  intro out
  let zeroed := (s.kill c r).bindDefault .region r (.int 0)
  obtain ⟨hgrows, hwell, hdefault, hdirect⟩ : let out := zeroed.writeEntries f r t entries c
      c ≤ out.2 ∧ out.2.WellFormed ∧ (∀ m, out.1.store.default? m = zeroed.store.default? m) ∧ _ :=
    writeEntries_spec hc hr fun entry he type => by
      obtain ⟨_, -, ⟨w, u, hw⟩, -⟩ := hsets entry he
      exact hw.setsWhole_eq type
  refine ⟨hgrows, hwell, fun d hd hdwell path u q hleaf hq => ?_⟩
  have hcd : c ≤ d := hgrows.trans hd
  -- at first, the object has one binding only
  have hzero {k : BindingKey} (hk : r ∈ d.chain k.region) :
      zeroed.store.bindings.get? k = if k = .default r then some (.int 0) else none := by
    show (insert (s.store.kill c r).bindings (.default r) (.int 0)).get? k = _
    rw [get?_insert, Store.get?_kill]
    refine if_congr Iff.rfl rfl ?_
    split
    · rfl
    · next hnot =>
      cases hget : s.store.bindings.get? k with
      | none => rfl
      | some w => exact absurd (chain_mono hcd (hkeys k w hget) ▸ hk) hnot
  obtain ⟨hnone, hsome⟩ := hdirect d hd hdwell path q hq
  by_cases hex : ∃ entry ∈ entries, entry.path = path
  · obtain ⟨entry, he, hpath, hvalue⟩ := hsome hex
    obtain ⟨rel, hrel, -, hset⟩ := hsets entry he
    obtain rfl : rel = path := hrel.symm.trans hpath
    exact .inl ⟨_, hvalue, (hset u hleaf).mono hcd⟩
  · have hne : ∀ entry ∈ entries, entry.path ≠ path := fun entry he heq => hex ⟨entry, he, heq⟩
    have hmem := hq.start_mem_chain hdwell
    have hlayers := mem_layers_of_mem_chain hdwell hmem (by rwa [region_mono hcd hr])
    refine .inr ⟨hsilent path u hleaf hne, ?_, r, hlayers, mem_chain_self, ?_, fun m _ hm hmne => ?_⟩
    · exact (hnone hne).trans ((hzero hmem).trans (if_neg (BindingKey.direct_ne_default _ _)))
    · exact (hdefault r).trans ((hzero mem_chain_self).trans (if_pos rfl))
    · exact (hdefault m).trans ((hzero hm).trans (if_neg fun h => hmne (congrArg BindingKey.region h)))

end State

/-! ### Evaluating a declaration -/

namespace Exploring

variable {o : Options} {f : FrameId} {c : Catalog} {s : State} {v : VarId} {location : Location}
  {t : CType} {init : Initializer} {p : Program}

/-- A declaration with a list sets the variable to what is stated. -/
theorem runs_declList {entries : List InitEntry} (ho : o.store = .region) (hc : c.WellFormed)
    (hkeys : s.store.KeysNamedIn c) (htype : (c.program.var v).type = t)
    (hleaf : ∀ path u, c.program.Leaf t path u → p.Leaf t path u)
    (hsets : ∀ entry ∈ entries, entry.Sets p t init [] c (s.value f entry.value))
    (hsilent : init.Silent p t [] entries) :
    Runs o f [.decl v (some (.list entries)) location] c s fun s' c' => s'.ReadsAs c' v f t init := by
  refine runs_of_pass (fun checker _ _ _ => by cases checker <;> rfl) fun spot e n hf hcat hs => ?_
  have hvar := isVar_var v f c
  have hgrows := grows_var v f c
  have hwell := wellFormed_var hc v f
  have hrun : evalElement o spot n (.decl v (some (.list entries)) location) e =
      let out := s.writeList .region f (var v f c).1 t entries (var v f c).2
      .ok (some ⟨n, out.1, none⟩, { e with catalog := out.2 }) := by
    show evalDecl o spot n v (some (.list entries)) location e = _
    unfold evalDecl
    simp only [stateOf, query_bind, naming_bind, hs, hf, hcat, hgrows.program, htype, ho]
    rfl
  generalize var v f c = named at hvar hgrows hwell hrun
  obtain ⟨r, c1⟩ := named
  obtain ⟨hle, hwell', hshows⟩ := State.shows_writeList hwell hvar.has hvar.parent?_ne_none
    (fun k w hk => (hkeys k w hk).mono hgrows) (fun entry he => (hsets entry he).mono hgrows) hsilent
  refine ⟨_, _, hrun, ⟨hcat ▸ hgrows.trans hle, id, rfl, rfl, rfl⟩, rfl, _, rfl, ?_⟩
  refine State.readsAs_of_shows hwell' fun d hd hdwell r' hr' path u q hu => ?_
  obtain rfl := hr'.unique (hvar.mono (hle.trans hd))
  exact hshows d hd hdwell path u q (hleaf path u (by rwa [(hgrows.trans hle).program] at hu))

/-- Checkers have nothing to say to a write of a stated value to a local variable. -/
theorem check_write_pass {r : RegionId} {value : Value} {w : Stated} {u : CType} {span : Span}
    {scene : Scene} (hr : c.IsVar f v r) (hc : c.WellFormed) (hkind : (c.program.var v).kind = .local)
    (hvalue : w.Is c u value) (checker : Checker) :
    checker.check (.write (.pointer r) value span) scene c = (.pass, c) := by
  cases checker with
  | undefinedValue =>
    show (if value.isUndefined then _ else _ : Naming Verdict) c = _
    rw [hvalue.isUndefined_eq]
    rfl
  | malloc =>
    have hstack : c.hasStackStorage r = true := by
      rw [Catalog.hasStackStorage, Catalog.stackFrame?, hr.space_eq hc, hkind]
      rfl
    show (if c.hasStackStorage r then Verdict.pass else _, c) = _
    rw [hstack]
    rfl
  | _ => rfl

/-- A declaration with an expression sets a scalar variable to what is stated. -/
theorem runs_declExpr {x : ExprId} (ho : o.store = .region) (hc : c.WellFormed)
    (htype : (c.program.var v).type = t) (hkind : (c.program.var v).kind = .local)
    (ht : t.isScalar = true) (hvalue : (init.start []).Is c t (s.value f x)) :
    Runs o f [.decl v (some (.expr x)) location] c s fun s' c' => s'.ReadsAs c' v f t init := by
  refine runs_of_pass (fun checker _ _ _ => by cases checker <;> rfl) fun spot e n hf hcat hs => ?_
  have hvar := isVar_var v f c
  have hgrows := grows_var v f c
  have hwell := wellFormed_var hc v f
  -- the value is written in a catalog that has the variable
  have hdecl {m : NodeId} {state : State} {e' : Exploration}
      (hstore : store o spot n (.pointer (var v f c).1) (s.value f x)
        ⟨location, (c.program.expr x).span.last⟩ { e with catalog := (var v f c).2 } =
          .ok (some (m, state), e')) :
      evalElement o spot n (.decl v (some (.expr x)) location) e = .ok (some ⟨m, state, none⟩, e') := by
    show evalDecl o spot n v (some (.expr x)) location e = _
    unfold evalDecl
    simp only [stateOf, query_bind, naming_bind, hs, hf, hcat, hgrows.program, htype]
    cases t <;> first | exact bind_eq_ok.2 ⟨some (m, state), e', hstore, rfl⟩ | cases ht
  generalize var v f c = named at hvar hgrows hwell hdecl
  obtain ⟨r, c1⟩ := named
  have hvalue' := hvalue.mono hgrows
  have hask : ∀ span, ask o spot n (.write (.pointer r) (s.value f x) span) { e with catalog := c1 } =
      .ok (some n, { e with catalog := c1 }) := fun span =>
    ask_of_pass fun checker _ _ _ => check_write_pass hvar hwell (by rwa [hgrows.program]) hvalue' checker
  let after : State := { s with store := ⟨s.store.bindings.insert (.direct r) (s.value f x)⟩ }
  have hwrite : s.write .region r (s.value f x) c1 = (after, c1) := by
    show (s.bind .region c1 (.region r) (s.value f x), c1) = _
    rw [State.bind, StorePolicy.bind, Store.bind_eq_insert (hvalue.setsWhole_eq _)]
  have hrun : evalElement o spot n (.decl v (some (.expr x)) location) e =
      .ok (some ⟨n, after, none⟩, { e with catalog := c1 }) := by
    refine hdecl (bind_eq_ok.2 ⟨some n, _, hask _, ?_⟩)
    simp only [stateOf, query_bind, hs, ho]
    show Except.ok (some (n, (s.write .region r (s.value f x) c1).1),
      { e with catalog := (s.write .region r (s.value f x) c1).2 }) = _
    rw [hwrite]
  refine ⟨_, _, hrun, ⟨hcat ▸ hgrows, id, rfl, rfl, rfl⟩, rfl, _, rfl, ?_⟩
  refine State.readsAs_of_shows hwell fun d hd _ r' hr' path u q hu hq => ?_
  obtain rfl := hr'.unique (hvar.mono hd)
  obtain ⟨rfl, rfl⟩ := hu.eq_of_isScalar ht
  cases hq with
  | here _ => exact .inl ⟨_, get?_insert_self, hvalue'.mono hd⟩

end Exploring

/-! ### Declarations -/

/-- One more local variable is known. -/
def Lowering.withLocal (s : Lowering) (name : String) (t : CType) (location : Location) : Lowering :=
  { s with
    program := { s.program with
      vars := s.program.vars.push ⟨name, t, .local, some s.function, location⟩ }
    scopes := match s.scopes with
      | scope :: outer => ((name, ⟨s.program.vars.size⟩) :: scope) :: outer
      | [] => []
    locals := s.locals.push ⟨s.program.vars.size⟩ }

/-- A local variable is declared unless its name is taken. -/
theorem Lower.declareVar_local {name : String} (t : CType) (location : Location)
    (hfree : name.isEmpty = true ∨ (s.scopes.headD []).lookup name = none) :
    declareVar name t .local location s = .ok (⟨s.program.vars.size⟩, s.withLocal name t location) := by
  have htaken : (!name.isEmpty && ((s.scopes.headD []).lookup name).isSome) = false := by
    rcases hfree with h | h
    · rw [h]
      rfl
    · rw [h]
      exact Bool.and_false _
  refine bind_eq_ok.2 ⟨s, s, rfl, ?_⟩
  dsimp only
  rw [htaken, if_neg Bool.false_ne_true]
  rfl

/-- A declaration adds nothing to the code by itself. -/
theorem Lowering.emits_withLocal (hs : s.Placed) (name : String) (t : CType) (location : Location) :
    s.Emits [] (s.withLocal name t location) where
  code := (append_nil _).symm
  placed := hs
  current := .inl rfl
  room_le := le_rfl
  apart _ _ _ := rfl
  size_le := le_rfl
  expr_eq _ _ := rfl
  var_eq v hv := by
    rw [Program.var, Program.var, Lowering.withLocal, Array.getElem?_push_lt hv,
      Array.getElem?_eq_getElem hv]
  vars_le := (Nat.le_succ _).trans_eq (Array.size_push ..).symm
  structs := rfl

/-- Builds what a local variable of type `t` starts with. -/
def Initializer.lowerFor (t : CType) : Initializer → Lower DeclInit
  | .expr e =>
    if t.isArray then do return .list (← lowerInitExpr t e [])
    else do return .expr (← convert (← (lower e).value) t)
  | .list l items => do return .list (← lowerInit (.list l items) t [])

/-- A declaration with an initialiser. -/
theorem lowerDecl_of_init (hstatic : decl.isStatic = false) (hinit : decl.init = some init)
    (ht : completeArray decl.type (some init) = t) : lowerDecl decl = (do
      requireComplete t decl.location
      let v ← declareVar decl.name t .local decl.location
      let value ← init.lowerFor t
      pushElement (.decl v (some value) decl.location)) := by
  rw [lowerDecl, hinit, ht, hstatic]
  refine bind_congr fun _ => bind_congr fun v => ?_
  rw [if_neg Bool.false_ne_true]
  cases init with
  | expr e =>
    rw [Initializer.lowerFor]
    dsimp only
    split <;> simp only [bind_assoc, pure_bind]
  | list l items => simp only [Initializer.lowerFor, bind_assoc, pure_bind]

/-- The initialiser is built, and a declaration after its code sets a variable to what it states. -/
def Initializer.SetsUp (s : Lowering) (t : CType) (init : Initializer) : Prop :=
  ∃ value steps s', init.lowerFor t s = .ok (value, s') ∧ s.Emits steps s' ∧
    ∀ (v : VarId) (location : Location) (o : Options) (f : FrameId) (c : Catalog) (σ : State),
      o.store = .region → c.WellFormed → s'.program.Keeps c.program →
      c.program.structs = s'.program.structs → (c.program.var v).type = t →
      (c.program.var v).kind = .local → σ.store.KeysNamedIn c →
      Exploring.Runs o f (steps ++ [.decl v (some value) location]) c σ fun σ' c' =>
        σ'.ReadsAs c' v f t init

section

variable {s : Lowering} {t : CType} {init : Initializer} {e : Expr}

theorem Initializer.Flattens.setsUp (h : init.Flattens s.program t) (hs : s.Placed)
    (hlower : init.lowerFor t = do return .list (← lowerInit init t [])) : init.SetsUp s t := by
  obtain ⟨entries, s', hrun, hlists, hsilent⟩ := h s [] hs rfl
  obtain ⟨steps, hemits, hruns⟩ := hlists.brings
  refine ⟨.list entries, steps, s', hlower ▸ bind_eq_ok.2 ⟨entries, s', hrun, rfl⟩, hemits, ?_⟩
  intro v location o f c σ ho hc hkeeps hstructs htype _ hkeys
  refine (hruns o f c σ fun x _ hx => hkeeps.expr_eq x hx).append fun σ' d hcd ⟨hsame, hwell, hsets⟩ => ?_
  refine Exploring.runs_declList ho (hwell hc) ?_ (by rw [hcd.program, htype]) (fun path u hu => ?_)
    hsets hsilent
  · rw [hsame.store]
    exact fun k w hk => (hkeys k w hk).mono hcd
  · exact hu.of_structs (by rw [hcd.program, hstructs, hemits.structs])

theorem Expr.Initial.setsUp (h : e.Initial t) (hs : s.Placed) : (Initializer.expr e).SetsUp s t := by
  obtain ⟨y, s1, x, s', hvalue, hconvert, hgives⟩ := h.exists_gives hs
  obtain ⟨steps, hemits, hruns⟩ := hgives.brings
  refine ⟨.expr x, steps, s', ?_, hemits, fun v location o f c σ ho hc hkeeps _ htype hkind _ => ?_⟩
  · rw [Initializer.lowerFor, CType.isArray_of_isScalar h.isScalar, if_neg Bool.false_ne_true]
    exact bind_eq_ok.2 ⟨y, s1, hvalue, bind_eq_ok.2 ⟨x, s', hconvert, rfl⟩⟩
  · refine (hruns o f c σ fun x _ hx => hkeeps.expr_eq x hx).append fun σ' d hcd hbrought => ?_
    obtain ⟨-, hwell, hx⟩ := hbrought
    exact Exploring.runs_declExpr ho (hwell hc) (by rw [hcd.program, htype]) (by rw [hcd.program, hkind])
      h.isScalar hx

theorem Initializer.Braced.setsUp (h : init.Braced s.program t) (hs : s.Placed) : init.SetsUp s t := by
  cases h with
  | scalar he => exact he.setsUp hs
  | text => exact (flattens_text _ _ _).setsUp hs (by rw [lowerInit, lowerFor]; rfl)
  | braces ht hitem => exact (Braced.braces ht hitem).flattens.setsUp hs (by rw [lowerFor])
  | array hitems => exact (Braced.array hitems).flattens.setsUp hs (by rw [lowerFor])
  | struct hname hitems => exact (Braced.struct hname hitems).flattens.setsUp hs (by rw [lowerFor])

end

open Lowering in
/-- **A local variable starts with what is stated.** Wherever a local variable with a braced initialiser is
declared, its declaration is built, and adds some steps. From any state in which what is bound has numbers,
a path goes on after these steps, whatever was bound to the variable before, and then every scalar of the
variable reads as the initialiser states. -/
theorem VarDecl.runs_declared (hstatic : decl.isStatic = false) (hinit : decl.init = some init)
    (ht : completeArray decl.type (some init) = t) (hbraced : init.Braced s.program t)
    (hcomplete : checkComplete s.program t decl.location = .ok ())
    (hfree : decl.name.isEmpty = true ∨ (s.scopes.headD []).lookup decl.name = none) (hs : s.Placed) :
    ∃ v steps s', lowerDecl decl s = .ok ((), s') ∧ s.Emits steps s' ∧
      s'.program.var v = ⟨decl.name, t, .local, some s.function, decl.location⟩ ∧
      ∀ (o : Options) (f : FrameId) (c : Catalog) (σ : State), o.store = .region → c.WellFormed →
        s'.program.Keeps c.program → c.program.structs = s'.program.structs → σ.store.KeysNamedIn c →
        Exploring.Runs o f steps c σ fun σ' c' => σ'.ReadsAs c' v f t init := by
  let s1 := s.withLocal decl.name t decl.location
  let v : VarId := ⟨s.program.vars.size⟩
  have hemits1 : s.Emits [] s1 := emits_withLocal hs decl.name t decl.location
  have hlt : v.index < s1.program.vars.size := (Nat.lt_succ_self _).trans_eq (Array.size_push ..).symm
  have hvar : s1.program.var v = ⟨decl.name, t, .local, some s.function, decl.location⟩ := by
    show (s.program.vars.push _)[s.program.vars.size]?.getD default = _
    rw [Array.getElem?_push_size, Option.getD_some]
  obtain ⟨value, steps, s2, hvalue, hemits2, hruns⟩ :=
    (hbraced.of_structs hemits1.structs : init.Braced s1.program t).setsUp hemits1.placed
  obtain ⟨s', hpush, hemits', hprogram⟩ :=
    emits_pushElement hemits2.placed (.decl v (some value) decl.location)
  have hvar' : s'.program.var v = ⟨decl.name, t, .local, some s.function, decl.location⟩ := by
    rw [hprogram, hemits2.var_eq v hlt, hvar]
  refine ⟨v, _, s', ?_, (hemits1.trans hemits2).trans hemits', hvar',
    fun o f c σ ho hc hkeeps hstructs hkeys => ?_⟩
  · rw [lowerDecl_of_init hstatic hinit ht]
    refine bind_eq_ok.2 ⟨(), s, ?_, bind_eq_ok.2 ⟨v, s1, declareVar_local t decl.location hfree,
      bind_eq_ok.2 ⟨value, s2, hvalue, hpush⟩⟩⟩
    show (liftM (checkComplete s.program t decl.location) : Lower Unit) s = _
    rw [hcomplete]
    rfl
  · have hkept : c.program.var v = _ := (hkeeps.var_eq v
      (by rw [hprogram]; exact hlt.trans_le hemits2.vars_le)).trans hvar'
    exact hruns v decl.location o f c σ ho hc (hprogram ▸ hkeeps) (by rw [hstructs, hprogram])
      (by rw [hkept]) (by rw [hkept]) hkeys

end PathScout

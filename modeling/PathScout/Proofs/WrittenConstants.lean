import PathScout.Proofs.StatedValues

/-!
# What a constant sets in memory

A constant is written to a region by recursion on it. A list sets its whole region to zero and then the
parts of it one after the other; nothing that is written in one part is seen in another one.

* `State.Changes`: memory differs in some regions only. `State.changes_writeConst`: where it differs after
  a constant was written.
* `Catalog.step_eq_of_mem_chain`: nothing lies in two parts of one object.
* `State.partOf?_spec`: the part at a position.
* `ConstInit.Sets`: writing a constant sets what is stated. `ConstInit.sets_list`: lists, part by part.
-/

namespace PathScout

open Catalog Naming List OrderedMap

/-! ### Where memory changes -/

/-- Memory differs at most in bindings of some regions, and the catalog may have grown. -/
structure State.Changes (inside : Catalog → RegionId → Prop) (s : State) (c : Catalog)
    (out : State × Catalog) : Prop where
  le : c ≤ out.2
  wellFormed : out.2.WellFormed
  get?_eq {d : Catalog} : out.2 ≤ d → d.WellFormed → ∀ k : BindingKey, ¬ inside d k.region →
    out.1.store.bindings.get? k = s.store.bindings.get? k

/-- The region is a part of an object of type `t` at the position `i` or one of the next, less than `n` of
them, or lies in one. -/
def Catalog.InParts (r : RegionId) (t : CType) (i n : Nat) (c : Catalog) (m : RegionId) : Prop :=
  ∃ (q : RegionId) (step : InitStep), c.region q = step.regionIn t r ∧ i ≤ step.position ∧
    step.position < i + n ∧ q ∈ c.chain m

section

variable {c d : Catalog} {s : State} {out out' : State × Catalog} {r q q' m : RegionId} {t : CType}
  {step step' : InitStep} {i n : Nat} {inside inside' : Catalog → RegionId → Prop}

namespace State

theorem Changes.refl (hc : c.WellFormed) : s.Changes inside c (s, c) := ⟨le_rfl, hc, fun _ _ _ _ => rfl⟩

theorem Changes.imp (h : s.Changes inside c out)
    (himp : ∀ d m, out.2 ≤ d → d.WellFormed → inside d m → inside' d m) : s.Changes inside' c out :=
  ⟨h.le, h.wellFormed, fun hd hwell k hk => h.get?_eq hd hwell k fun hin => hk (himp _ _ hd hwell hin)⟩

theorem Changes.trans (h : s.Changes inside c out) (h' : out.1.Changes inside out.2 out') :
    s.Changes inside c out' :=
  ⟨h.le.trans h'.le, h'.wellFormed, fun hd hwell k hk =>
    (h'.get?_eq hd hwell k hk).trans (h.get?_eq (h'.le.trans hd) hwell k hk)⟩

/-- The catalog may grow before. -/
theorem Changes.grow (h : s.Changes inside d out) (hcd : c ≤ d) : s.Changes inside c out :=
  ⟨hcd.trans h.le, h.wellFormed, h.get?_eq⟩

theorem changes_write (hc : c.WellFormed) (v : Value) :
    s.Changes (fun d m => r ∈ d.chain m) c (s.write .region r v c) :=
  ⟨le_rfl, hc, fun hd _ _ hk => Store.get?_bind_of_not_mem fun hr => hk (mem_chain_mono hd hr)⟩

theorem changes_bindDefault (hc : c.WellFormed) (v : Value) :
    s.Changes (fun d m => r ∈ d.chain m) c (s.bindDefault .region r v, c) := by
  refine ⟨le_rfl, hc, fun _ _ k hk => get?_insert_of_ne fun heq => hk ?_⟩
  rw [heq]
  exact mem_chain_self

end State

namespace Catalog

/-- A part of an object lies in it. -/
theorem mem_chain_part (hc : c.WellFormed) (hq : c.region q = step.regionIn t r) (hm : q ∈ c.chain m) :
    r ∈ c.chain m := by
  refine mem_chain_trans hm ?_
  rw [chain_of_some (p := r) (by rw [hc.enclosing?_eq, hq, step.parent?_regionIn])]
  exact mem_cons_of_mem _ mem_chain_self

/-- Nothing lies in two parts of one object. -/
theorem step_eq_of_mem_chain (hc : c.WellFormed) (hq : c.region q = step.regionIn t r)
    (hq' : c.region q' = step'.regionIn t r) (hm : q ∈ c.chain m) (hm' : q' ∈ c.chain m) :
    step = step' := by
  have hparent : (c.region q).parent? = some r := by rw [hq, step.parent?_regionIn]
  have hparent' : (c.region q').parent? = some r := by rw [hq', step'.parent?_regionIn]
  obtain rfl := eq_of_mem_chain_of_parent? hc hparent hparent' hm hm'
  exact InitStep.regionIn_injective (hq.symm.trans hq')

end Catalog

namespace State

/-- The part at a position is the one that a step leads to, unless there are no parts from there on. -/
theorem partOf?_spec (r : RegionId) (t : CType) (i : Nat) (c : Catalog) :
    (partOf? r t i c = (none, c) ∧ ∀ step : InitStep, step.InBounds c.program t → step.position < i) ∨
      ∃ step : InitStep, step.position = i ∧ partOf? r t i c =
        (some ((region (step.regionIn t r) c).1, step.typeIn c.program t),
          (region (step.regionIn t r) c).2) ∧
        ∀ step' : InitStep, step'.InBounds c.program t → step'.position = i → step' = step := by
  cases t with
  | array element size =>
    refine .inr ⟨.element i, rfl, rfl, fun step' hstep hi => ?_⟩
    cases hstep with
    | element => exact congrArg InitStep.element hi
  | struct name =>
    cases hname : c.program.structNamed? name with
    | none =>
      refine .inl ⟨by simp [partOf?, hname], fun step hstep => ?_⟩
      cases hstep with
      | field hs _ => cases hname.symm.trans hs
    | some owner =>
      cases hfield : (c.program.struct owner).fields[i]? with
      | none =>
        refine .inl ⟨by simp [partOf?, hname, hfield], fun step hstep => ?_⟩
        cases hstep with
        | @field _ f hs hf =>
          obtain rfl : f.owner = owner := Option.some.inj (hs.symm.trans hname)
          exact hf.trans_le (getElem?_eq_none_iff.1 hfield)
      | some info =>
        have htype : (c.program.field ⟨owner, i⟩).type = info.type := by simp [Program.field, hfield]
        refine .inr ⟨.field ⟨owner, i⟩, rfl, ?_, fun step' hstep hi => ?_⟩
        · simp only [partOf?, bind_apply, query_apply, pure_apply, hname, hfield,
            InitStep.regionIn, InitStep.typeIn, htype]
        · cases hstep with
          | @field _ f hs hf =>
            obtain rfl : f.owner = owner := Option.some.inj (hs.symm.trans hname)
            obtain rfl : f.index = i := hi
            rfl
  | _ => exact .inl ⟨rfl, fun step hstep => by cases hstep⟩

/-- A text in the place of a pointer is named, and its first character is pointed to. -/
theorem writeConst_string (e : ExprId) (c : Catalog) : ∃ base space first d, c ≤ d ∧
    (c.WellFormed → d.WellFormed) ∧ d.region base = .string e space ∧
      d.region first = .element .char (.known 0) base ∧
      ∀ (s : State) (r : RegionId) (t : CType), t.isPointer = true →
        writeConst .region s r t (.string e) c = s.write .region r (.pointer first) d := by
  obtain ⟨space, hbase, -⟩ := region_inSpace (.globals .immutable) (.string e) c
  have hgrows : c ≤ (string e c).2 := (grows_space _ c).trans (grows_region _ _)
  have hwell (hc : c.WellFormed) : (string e c).2.WellFormed :=
    wellFormed_inSpace hc _ fun _ => rfl
  have hhas : (string e c).2.Has (string e c).1 := has_region _ _
  have hrun (s : State) (r : RegionId) (t : CType) (ht : t.isPointer = true) :
      writeConst .region s r t (.string e) c = (do
        let text ← string e
        let first ← region (.element .char (.known 0) text)
        s.write .region r (.pointer first) : Naming State) c := by
    rw [writeConst, if_pos ht]
  change (string e c).2.region (string e c).1 = _ at hbase
  generalize hnamed : string e c = named at hbase hgrows hwell hhas
  obtain ⟨base, c1⟩ := named
  have hgrows' := grows_region (.element .char (.known 0) base) c1
  refine ⟨base, space, _, _, hgrows.trans hgrows', fun hc => ?_,
    (region_mono hgrows' hhas).trans hbase, region_region _ _, fun s r t ht => ?_⟩
  · exact wellFormed_regionIn (hwell hc) hhas (.array .char none) (.element 0)
  · rw [hrun s r t ht, bind_apply, hnamed]
    rfl

mutual

/-- Writing a constant changes its region only. -/
theorem changes_writeConst {c : Catalog} {s : State} {r : RegionId} (hc : c.WellFormed) (hr : c.Has r)
    (t : CType) : (value : ConstInit) →
    s.Changes (fun d m => r ∈ d.chain m) c (writeConst .region s r t value c)
  | .int n | .null => changes_write hc _
  | .string e => by
    by_cases ht : t.isPointer = true
    · obtain ⟨_, _, _, d, hcd, hwell, -, -, hrun⟩ := writeConst_string e c
      rw [hrun s r t ht]
      exact (changes_write (hwell hc) _).grow hcd
    · rw [writeConst, if_neg ht]
      exact .refl hc
  | .list items =>
    (changes_bindDefault hc (.int 0)).trans ((changes_writeConsts hc hr t 0 items).imp
      fun _ _ _ hd ⟨_, _, hq, _, _, hm⟩ => mem_chain_part hd hq hm)

/-- Writing the parts of an object from a position on changes these parts only. -/
theorem changes_writeConsts {c : Catalog} {s : State} {r : RegionId} (hc : c.WellFormed) (hr : c.Has r)
    (t : CType) (i : Nat) : (items : List ConstInit) →
    s.Changes (Catalog.InParts r t i items.length) c (writeConsts .region s r t i items c)
  | [] => .refl hc
  | item :: rest => by
    unfold writeConsts
    rw [bind_apply]
    rcases partOf?_spec r t i c with ⟨hnone, -⟩ | ⟨step, hi, hsome, -⟩
    · rw [hnone]
      exact .refl hc
    · rw [hsome]
      have hgrows := grows_region (step.regionIn t r) c
      have hwell := wellFormed_regionIn hc hr t step
      have hregion := region_region (step.regionIn t r) c
      have hhas := has_region (step.regionIn t r) c
      generalize region (step.regionIn t r) c = named at hgrows hwell hregion hhas ⊢
      obtain ⟨q, c1⟩ := named
      dsimp only
      rw [bind_apply]
      have hitem := changes_writeConst (s := s) hwell hhas (step.typeIn c.program t) item
      have hrest := changes_writeConsts (s := (writeConst .region s q (step.typeIn c.program t) item c1).1)
        hitem.wellFormed ((hr.mono hgrows).mono hitem.le) t (i + 1) rest
      refine ((hitem.imp fun d m hd _ hm => ?_).trans (hrest.imp ?_)).grow hgrows
      · refine ⟨q, step, ?_, hi.ge, ?_, hm⟩
        · rw [region_mono (hitem.le.trans hd) hhas, hregion]
        · rw [hi, length_cons]
          omega
      · rintro d m - - ⟨q', step', hq', hlo, hhi, hm⟩
        rw [length_cons]
        exact ⟨q', step', hq', by omega, by omega, hm⟩

end

end State

end

/-! ### What constants set -/

/-- Nothing is bound in the region. -/
def Store.Clear (s : Store) (c : Catalog) (r : RegionId) : Prop :=
  ∀ d, c ≤ d → d.WellFormed → ∀ k : BindingKey, r ∈ d.chain k.region → s.bindings.get? k = none

/-- Writing the constant to a region in which nothing is bound makes every scalar hold what is stated of
it. -/
def ConstInit.Sets (p : Program) (t : CType) (value : ConstInit) (start : List InitStep → Stated) : Prop :=
  ∀ (c : Catalog) (s : State) (r : RegionId), c.program = p → c.WellFormed → c.Has r →
    (c.region r).parent? ≠ none → s.store.Clear c r →
    ∀ d, (State.writeConst .region s r t value c).2 ≤ d → d.WellFormed →
      ∀ path u q, p.Leaf t path u → d.Route r t path q →
        (State.writeConst .region s r t value c).1.store.Shows d r q u (start path)

section

variable {p : Program} {t : CType} {c : Catalog} {s : State} {r : RegionId} {value : ConstInit}
  {start : List InitStep → Stated}

theorem ConstInit.Sets.congr {start' : List InitStep → Stated} (h : value.Sets p t start)
    (hstart : ∀ path u, p.Leaf t path u → start' path = start path) :
    value.Sets p t start' := fun c s r hp hc hr hparent hclear d hd hdwell path u q hu hq =>
  hstart path u hu ▸ h c s r hp hc hr hparent hclear d hd hdwell path u q hu hq

/-- A value that is written to a scalar. -/
theorem ConstInit.sets_scalar (ht : t.isScalar = true)
    (h : ∀ (c : Catalog) (s : State) (r : RegionId), c.program = p → ∃ v d,
      State.writeConst .region s r t value c = s.write .region r v d ∧ (start []).Is d t v) :
    value.Sets p t start := by
  intro c s r hp _ _ _ _ d hd _ path u q hu hq
  obtain ⟨v, c1, hwrite, hv⟩ := h c s r hp
  rw [hwrite] at hd ⊢
  obtain ⟨rfl, rfl⟩ := hu.eq_of_isScalar ht
  cases hq with
  | here _ =>
    refine .inl ⟨v, ?_, hv.mono hd⟩
    show (Store.bind s.store c1 (.region r) v).direct? r = some v
    rw [Store.bind_eq_insert (hv.setsWhole_eq _)]
    exact get?_insert_self

/-- Parts that are written one after the other hold what is stated of them: what is written later is
written elsewhere. -/
theorem State.shows_writeConsts {items : List ConstInit} {i : Nat}
    (start : InitStep → List InitStep → Stated) (hp : c.program = p) (hc : c.WellFormed) (hr : c.Has r)
    (hclear : ∀ d, c ≤ d → d.WellFormed → ∀ (q : RegionId) (step : InitStep) (k : BindingKey),
      d.region q = step.regionIn t r → i ≤ step.position → q ∈ d.chain k.region →
        s.store.bindings.get? k = none)
    (hsets : ∀ (j : Nat) (value : ConstInit) (step : InitStep), items[j]? = some value →
      step.InBounds p t → step.position = i + j → value.Sets p (step.typeIn p t) (start step)) :
    let out := writeConsts .region s r t i items c
    ∀ d, out.2 ≤ d → d.WellFormed → ∀ (j : Nat) (step : InitStep), j < items.length →
      step.InBounds p t → step.position = i + j → ∀ q path u m, d.region q = step.regionIn t r →
        p.Leaf (step.typeIn p t) path u → d.Route q (step.typeIn p t) path m →
          out.1.store.Shows d q m u (start step path) := by
  induction items generalizing c s i with
  | nil => exact fun d _ _ j _ hj => nomatch hj
  | cons item rest ih =>
    intro out d hd hdwell j step hj hstep hposition q path u m hq hu hm
    rcases partOf?_spec r t i c with ⟨-, hnone⟩ | ⟨first, hfirst, hsome, honly⟩
    · have := hnone step (hp ▸ hstep)
      omega
    have hgrows := grows_region (first.regionIn t r) c
    have hwell := wellFormed_regionIn hc hr t first
    have hregion := region_region (first.regionIn t r) c
    have hhas := has_region (first.regionIn t r) c
    generalize hnamed : region (first.regionIn t r) c = named at hgrows hwell hregion hhas
    obtain ⟨q0, c1⟩ := named
    rw [hnamed, hp] at hsome
    let written := writeConst .region s q0 (first.typeIn p t) item c1
    have hout : out = writeConsts .region written.1 r t (i + 1) rest written.2 := by
      show writeConsts .region s r t i (item :: rest) c = _
      rw [writeConsts, bind_apply, hsome]
      rfl
    have hitem : s.Changes (fun d m => q0 ∈ d.chain m) c1 written := changes_writeConst hwell hhas _ item
    have hrest : written.1.Changes (Catalog.InParts r t (i + 1) rest.length) written.2 out :=
      hout ▸ changes_writeConsts hitem.wellFormed ((hr.mono hgrows).mono hitem.le) t (i + 1) rest
    have hq0 {e : Catalog} (he : c1 ≤ e) : e.region q0 = first.regionIn t r :=
      (region_mono he hhas).trans hregion
    cases j with
    | zero =>
      obtain rfl : step = first := honly step (hp ▸ hstep) hposition
      have hle : written.2 ≤ d := hrest.le.trans hd
      obtain rfl : q = q0 := eq_of_region_eq (hq.trans (hq0 (hitem.le.trans hle)).symm)
        (has_of_isPart (by rw [hq, step.isPart_regionIn])) (hhas.mono (hitem.le.trans hle))
      have hparent : (c1.region q).parent? ≠ none := by
        rw [hregion, step.parent?_regionIn]
        exact Option.some_ne_none r
      have hshows := hsets 0 item step rfl hstep hposition c1 s q (hgrows.program.trans hp) hwell hhas
        hparent (fun e he hewell k hk => hclear e (hgrows.trans he) hewell q step k (hq0 he) hfirst.ge hk)
        d hle hdwell path u m hu hm
      refine hshows.congr (hm.start_mem_chain hdwell) fun k hk => hrest.get?_eq hd hdwell k ?_
      rintro ⟨q', step', hq', hlo, -, hk'⟩
      have := step_eq_of_mem_chain hdwell hq hq' hk hk'
      rw [← this] at hlo
      omega
    | succ j =>
      rw [hout] at hd ⊢
      refine ih ((hgrows.trans hitem.le).program.trans hp) hitem.wellFormed
        ((hr.mono hgrows).mono hitem.le) (fun e he hewell q' step' k hq' hlo hk => ?_)
        (fun j value step' hvalue hstep' hposition' => ?_) d hd hdwell j step
        (Nat.lt_of_succ_lt_succ hj) hstep (by omega) q path u m hq hu hm
      · -- what was written so far lies in another part
        have hle : c1 ≤ e := hitem.le.trans he
        rw [hitem.get?_eq he hewell k fun hk' => ?_]
        · exact hclear e (hgrows.trans hle) hewell q' step' k hq' (by omega) hk
        · have := step_eq_of_mem_chain hewell (hq0 hle) hq' hk' hk
          rw [← this] at hlo
          omega
      · exact hsets (j + 1) value step' hvalue hstep' (by omega)

/-- **Lists.** A list sets the parts of its object to what its items set, and the others to zero. -/
theorem ConstInit.sets_list {items : List ConstInit} (ht : t.isScalar = false)
    (hsets : ∀ (j : Nat) (value : ConstInit) (step : InitStep), items[j]? = some value →
      step.InBounds p t → step.position = j →
        value.Sets p (step.typeIn p t) fun path => start (step :: path))
    (hrest : ∀ (step : InitStep) (path : List InitStep), step.InBounds p t →
      items.length ≤ step.position → start (step :: path) = .number 0) :
    (ConstInit.list items).Sets p t start := by
  intro c s r hp hc hr hparent hclear d hd hdwell path u q hu hq
  let zeroed := s.bindDefault .region r (.int 0)
  have hzero {k : BindingKey} (hk : k ≠ .default r) :
      zeroed.store.bindings.get? k = s.store.bindings.get? k := get?_insert_of_ne hk
  have hwrites : zeroed.Changes (Catalog.InParts r t 0 items.length) c
      (State.writeConst .region s r t (.list items) c) := State.changes_writeConsts hc hr t 0 items
  have hchanges : c ≤ d := hwrites.le.trans hd
  cases hu with
  | scalar hscalar => cases ht.symm.trans hscalar
  | @part _ _ step path hstep hu =>
    cases hq with
    | @step _ q0 _ _ _ _ hr' hq0 hregion hq =>
      rw [hchanges.program, hp] at hq
      have hin0 := hq.start_mem_chain hdwell
      have hin : r ∈ d.chain q := mem_chain_part hdwell hregion hin0
      by_cases hlt : step.position < items.length
      · refine (State.shows_writeConsts (s := zeroed) (fun step path => start (step :: path)) hp hc hr
          (fun e he hewell q' step' k hq' _ hk => ?_) (fun j value step' hvalue hstep' hj => ?_) d hd hdwell
          step.position step hlt hstep (Nat.zero_add _).symm q0 path u q hregion hu hq).within ?_
        · have hkr := mem_chain_part hewell hq' hk
          rw [hzero fun heq => ?_]
          · exact hclear e he hewell k hkr
          · -- the object does not lie in its own part
            have hbelow : q' ∈ e.chain r := by
              rw [heq] at hk
              exact hk
            have := index_le_of_mem_chain hbelow
            have := hewell.older (by rw [hq', step'.parent?_regionIn] : (e.region q').parent? = some r)
            omega
        · exact hsets j value step' hvalue hstep' (hj.trans (Nat.zero_add j))
        · exact mem_chain_part hdwell hregion mem_chain_self
      · -- a part that is not listed holds what its object holds
        have hkept {m : RegionId} (hm : m ∈ d.chain q) {k : BindingKey} (hk : k.region = m) :
            (State.writeConst .region s r t (.list items) c).1.store.bindings.get? k =
              zeroed.store.bindings.get? k := by
          refine hwrites.get?_eq hd hdwell k ?_
          rintro ⟨q', step', hq', -, hhi, hk'⟩
          rw [hk] at hk'
          have := step_eq_of_mem_chain hdwell hregion hq' hin0 (mem_chain_trans hm hk')
          rw [← this] at hhi
          omega
        have hlayers := mem_layers_of_mem_chain hdwell hin (by rwa [region_mono hchanges hr])
        refine .inr ⟨hrest step path hstep (Nat.le_of_not_lt hlt), ?_, r, hlayers, mem_chain_self,
          ?_, fun m hm hmr hne => ?_⟩
        · exact (hkept mem_chain_self rfl).trans ((hzero (BindingKey.direct_ne_default _ _)).trans
            (hclear d hchanges hdwell _ hin))
        · exact (hkept hin rfl).trans get?_insert_self
        · exact (hkept (mem_chain_of_mem_layers hm) rfl).trans
            ((hzero fun heq => hne (congrArg BindingKey.region heq)).trans
              (hclear d hchanges hdwell _ hmr))

end

end PathScout

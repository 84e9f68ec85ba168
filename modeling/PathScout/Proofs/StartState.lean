import PathScout.Proofs.ScalarMemory

/-!
# Memory at the start

Before the first step, memory holds at most the values that global variables start with. Nothing of
this lies in a variable of the function.

* `Study.Foreign`: a region that is not one of the variables of the function, nor a part of one.
* `Study.Outset`: what memory is like at the start.
* `Study.outset_ofGlobals`: the global variables of a program.
-/

namespace PathScout.Study

open Catalog Naming List OrderedMap

variable {k : Study} {c d : Catalog} {P : Symbol → Prop} {s : State} {σ : Store} {r q : RegionId}
  {v : Value} {x : Region}

/-- The region lies in a global variable. -/
def Foreign (k : Study) (c : Catalog) (r : RegionId) : Prop :=
  c.Has r ∧ ∃ g p, c.region (c.base r) = .var g p ∧ (k.program.var g).hasGlobalStorage = true

/-- Only global variables hold something, and nothing points to a memory space or into a frame. -/
structure Outset (k : Study) (c : Catalog) (σ : Store) : Prop where
  foreign {b : BindingKey × Value} : b ∈ σ.bindings.entries → k.Foreign c b.1.region
  pointer {b : BindingKey × Value} {q : RegionId} : b ∈ σ.bindings.entries →
    b.2.region? = some q → Outside c q

theorem Foreign.mono (h : k.Foreign c r) (hc : k.Regular c) (hcd : c ≤ d) : k.Foreign d r := by
  obtain ⟨hr, g, p, hg, hstorage⟩ := h
  refine ⟨hr.mono hcd, g, p, ?_, hstorage⟩
  rw [base_mono hcd hr, region_mono hcd (hr.base hc.wellFormed), hg]

theorem Outset.mono (h : k.Outset c σ) (hc : k.Regular c) (hcd : c ≤ d) : k.Outset d σ where
  foreign hb := (h.foreign hb).mono hc hcd
  pointer hb hq := (h.pointer hb hq).mono hc.wellFormed hcd

/-- A variable of the function is not global. -/
theorem not_foreign {x : VarId} (hx : x ∈ k.vars) (hr : c.IsVar topFrame x r) : ¬ k.Foreign c r := by
  rintro ⟨-, g, p, hg, hstorage⟩
  rw [hr.base_eq] at hg
  obtain ⟨p', hp'⟩ := hr.region_eq
  cases hp'.symm.trans hg
  rcases mem_append.1 hx with hparam | hlocal
  · obtain ⟨i, hi⟩ := k.isScalar.isParam x hparam
    rw [Variable.hasGlobalStorage, hi] at hstorage
    cases hstorage
  · rw [Variable.hasGlobalStorage, k.isScalar.isLocal x hlocal] at hstorage
    cases hstorage

/-- Nothing is bound to a variable of the function. -/
theorem Outset.get?_eq_none {x : VarId} (h : k.Outset c σ) (hx : x ∈ k.vars)
    (hr : c.IsVar topFrame x r) (kind : BindingKind) : σ.bindings.get? ⟨r, kind⟩ = none := by
  by_contra hsome
  obtain ⟨v, hv⟩ := Option.ne_none_iff_exists'.1 hsome
  exact not_foreign hx hr (h.foreign (mem_of_lookup_eq hv))

theorem Outset.tame (h : k.Outset c σ) : k.Tame c P { store := σ } where
  env := ⟨fun hv => (nomatch hv), fun hv => (nomatch hv), fun hv => (nomatch hv)⟩
  store :=
    { direct := fun hx hr hv => nomatch (h.get?_eq_none hx hr .direct).symm.trans hv
      default := fun hx hr hv => nomatch (h.get?_eq_none hx hr .default).symm.trans hv
      key := fun hb => (h.foreign hb).1
      pointer := h.pointer }
  constraints _ _ hx := nomatch hx
  heap := rfl

/-! ### Writing global variables -/

theorem Outset.insert (h : k.Outset c σ) {b : BindingKey} (hb : k.Foreign c b.region)
    (hv : ∀ q, v.region? = some q → Outside c q) : k.Outset c ⟨σ.bindings.insert b v⟩ where
  foreign he := by
    rcases mem_of_mem_put he with rfl | he
    · exact hb
    · exact h.foreign he
  pointer {e q} he hq := by
    rcases mem_of_mem_put he with rfl | he
    · exact hv q hq
    · exact h.pointer he hq

/-- The value is written to its region as it is, and points to an object if it points anywhere. -/
structure Writable (c : Catalog) (v : Value) : Prop where
  setsWhole (t : Option CType) : Store.setsWhole v t = false
  pointer {q : RegionId} : v.region? = some q → Outside c q

theorem Outset.bind (h : k.Outset c σ) (p : StorePolicy) (hr : k.Foreign c r)
    (hv : Writable c v) : k.Outset c (p.bind σ c (.region r) v) := by
  cases p with
  | region =>
    rw [show StorePolicy.bind .region σ c (.region r) v = _ from Store.bind_eq_insert (hv.setsWhole _)]
    exact h.insert hr fun q hq => hv.pointer hq
  | flat =>
    show k.Outset c (if _ then _ else _)
    split
    · exact h.insert hr fun q hq => hv.pointer hq
    · exact h

theorem Outset.bindDefault (h : k.Outset c σ) (p : StorePolicy) (hr : k.Foreign c r) :
    k.Outset c (p.bindDefault σ r (.int 0)) := by
  cases p with
  | region => exact h.insert hr fun q hq => nomatch hq
  | flat => exact h

theorem Regular.region (hc : k.Regular c) (hx : Naming.Placed c x) :
    k.Regular (region x c).2 where
  program := (grows_region x c).program.trans hc.program
  wellFormed := wellFormed_region hc.wellFormed hx
  arithmetic := hc.arithmetic.of_symbols_eq (grows_region x c) rfl

/-- A part of a region lies in the same object. -/
theorem base_part (hc : k.Regular c) (hr : c.Has r) (hpart : x.isPart = true)
    (hparent : x.parent? = some r) :
    k.Regular (region x c).2 ∧ (region x c).2.Has (region x c).1 ∧
      (region x c).2.base (region x c).1 = c.base r := by
  have hplaced : Naming.Placed c x := by
    refine ⟨fun hp => ?_, fun hobject => ?_⟩
    · cases hparent.symm.trans hp
      exact hr
    · rw [hpart] at hobject
      cases hobject
  have hc' := hc.region hplaced
  refine ⟨hc', has_region x c, ?_⟩
  have hx := region_region x c
  rw [base_of_part hc'.wellFormed (by rw [hx]; exact hpart)
    (by rw [hc'.wellFormed.enclosing?_eq, hx]; exact hparent)]
  exact base_mono (grows_region x c) hr

theorem Foreign.part (h : k.Foreign c r) (hc : k.Regular c) (hpart : x.isPart = true)
    (hparent : x.parent? = some r) :
    k.Regular (region x c).2 ∧ k.Foreign (region x c).2 (region x c).1 := by
  obtain ⟨hr, g, p, hg, hstorage⟩ := h
  obtain ⟨hc', hhas, hbase⟩ := base_part hc hr hpart hparent
  refine ⟨hc', hhas, g, p, ?_, hstorage⟩
  rw [hbase, region_mono (grows_region x c) (hr.base hc.wellFormed), hg]

/-- What an action that sets global variables leaves. -/
structure Begins (k : Study) (c : Catalog) (out : State × Catalog) : Prop where
  le : c ≤ out.2
  regular : k.Regular out.2
  state : ∃ σ, out.1 = { store := σ } ∧ k.Outset out.2 σ

theorem begins_write (hc : k.Regular c) (hσ : k.Outset c σ) (p : StorePolicy) (hr : k.Foreign c r)
    (hv : Writable c v) : k.Begins c (State.write { store := σ } p r v c) :=
  ⟨le_rfl, hc, _, rfl, hσ.bind p hr hv⟩

theorem writable_ofInt (n : Int) (t : CType) : Writable c (.ofInt n t) := by
  unfold Value.ofInt
  split <;> exact ⟨fun _ => rfl, fun hq => nomatch hq⟩

/-- What naming a part of a global variable leaves. -/
structure Divides (k : Study) (c : Catalog) (out : Option (RegionId × CType) × Catalog) : Prop where
  le : c ≤ out.2
  regular : k.Regular out.2
  foreign {p : RegionId × CType} : out.1 = some p → k.Foreign out.2 p.1

theorem divides_region (hc : k.Regular c) (hr : k.Foreign c r) (type : CType) (hpart : x.isPart = true)
    (hparent : x.parent? = some r) :
    k.Divides c (some ((region x c).1, type), (region x c).2) := by
  obtain ⟨hc', hforeign⟩ := hr.part hc hpart hparent
  refine ⟨grows_region x c, hc', ?_⟩
  rintro p ⟨⟩
  exact hforeign

theorem divides_none (hc : k.Regular c) : k.Divides c (none, c) := ⟨le_rfl, hc, fun hp => nomatch hp⟩

theorem divides_partOf? (hc : k.Regular c) (hr : k.Foreign c r) (t : CType) (i : Nat) :
    k.Divides c (State.partOf? r t i c) := by
  cases t with
  | array element size => exact divides_region hc hr element rfl rfl
  | struct name =>
    unfold State.partOf?
    simp only [bind_apply, query_apply]
    cases c.program.structNamed? name with
    | none => exact divides_none hc
    | some owner =>
      dsimp only
      cases (c.program.struct owner).fields[i]? with
      | none => exact divides_none hc
      | some info => exact divides_region hc hr info.type rfl rfl
  | _ => exact divides_none hc

theorem begins_writeString (hc : k.Regular c) (hσ : k.Outset c σ) (p : StorePolicy)
    (hr : k.Foreign c r) (e : ExprId) :
    k.Begins c ((do
      let text ← string e
      State.write { store := σ } p r
        (.pointer (← region (.element .char (.known 0) text))) : Naming State) c) := by
  have hle : c ≤ (string e c).2 := (grows_space _).bind (fun _ => grows_region _) c
  have hc1 : k.Regular (string e c).2 :=
    ⟨hle.program.trans hc.program, wellFormed_inSpace hc.wellFormed _ fun _ => rfl,
      hc.arithmetic.of_symbols_eq hle rfl⟩
  have htext : (string e c).2.Has (string e c).1 := has_region _ _
  have hstring : ∃ q, (string e c).2.region (string e c).1 = .string e q ∧
      (string e c).2.region q = .space (.globals .immutable) :=
    region_inSpace _ _ c
  rw [bind_apply, bind_apply]
  generalize string e c = text at *
  obtain ⟨q, hq, hspace⟩ := hstring
  obtain ⟨hc2, hpart, hbase⟩ := base_part (x := .element .char (.known 0) text.1) hc1 htext rfl rfl
  have hle2 := grows_region (.element .char (.known 0) text.1) text.2
  have hwrite := begins_write (v := .pointer _) hc2 ((hσ.mono hc hle).mono hc1 hle2) p
    ((hr.mono hc hle).mono hc1 hle2) ⟨fun _ => rfl, fun hq' => by
      cases hq'
      have hbase' := hbase.trans (base_of_not_part (by rw [hq]; rfl))
      refine ⟨hpart, ?_, ?_⟩
      · rw [hbase', region_mono hle2 htext, hq]
        exact fun h => nomatch h
      · rw [Catalog.stackFrame?, ← space_base hc2.wellFormed, hbase', space_mono hle2 htext,
          space_of_parent? hc1.wellFormed (by rw [hq]; rfl) hspace]⟩
  exact ⟨(hle.trans hle2).trans hwrite.le, hwrite.regular, hwrite.state⟩

mutual

theorem begins_writeConst {c : Catalog} {σ : Store} {r : RegionId} (p : StorePolicy) (hc : k.Regular c)
    (hσ : k.Outset c σ) (hr : k.Foreign c r) (t : CType) :
    (init : ConstInit) → k.Begins c (State.writeConst p { store := σ } r t init c)
  | .int n => begins_write hc hσ p hr (writable_ofInt n t)
  | .null => begins_write hc hσ p hr ⟨fun _ => rfl, fun hq => nomatch hq⟩
  | .string e => by
    unfold State.writeConst
    rw [ite_apply]
    split
    · exact begins_writeString hc hσ p hr e
    · exact ⟨le_rfl, hc, σ, rfl, hσ⟩
  | .list items => begins_writeConsts p hc (hσ.bindDefault p hr) hr t 0 items

theorem begins_writeConsts {c : Catalog} {σ : Store} {r : RegionId} (p : StorePolicy) (hc : k.Regular c)
    (hσ : k.Outset c σ) (hr : k.Foreign c r) (t : CType) (i : Nat) :
    (items : List ConstInit) → k.Begins c (State.writeConsts p { store := σ } r t i items c)
  | [] => ⟨le_rfl, hc, σ, rfl, hσ⟩
  | item :: rest => by
    have hdivides := divides_partOf? hc hr t i
    unfold State.writeConsts
    rw [bind_apply]
    generalize State.partOf? r t i c = out at hdivides ⊢
    obtain ⟨part?, d⟩ := out
    cases part? with
    | none => exact ⟨hdivides.le, hdivides.regular, σ, rfl, hσ.mono hc hdivides.le⟩
    | some part =>
      have hitem := begins_writeConst p hdivides.regular (hσ.mono hc hdivides.le)
        (hdivides.foreign rfl) part.2 item
      dsimp only
      rw [bind_apply]
      generalize State.writeConst p _ part.1 part.2 item d = out at hitem ⊢
      obtain ⟨s', d'⟩ := out
      obtain ⟨τ, rfl, hτ⟩ := hitem.state
      have hrest := begins_writeConsts p hitem.regular hτ
        ((hr.mono hc hdivides.le).mono hdivides.regular hitem.le) t (i + 1) rest
      exact ⟨(hdivides.le.trans hitem.le).trans hrest.le, hrest.regular, hrest.state⟩

end

/-- Sets a global variable to what it starts with. -/
def setGlobal (k : Study) (p : StorePolicy) (s : State) (g : GlobalInit) : Naming State := do
  let r ← var g.var topFrame
  match g.value with
  | none => return s.bindDefault p r (.int 0)
  | some init => State.writeConst p s r (k.program.var g.var).type init

theorem begins_setGlobal (p : StorePolicy) (hc : k.Regular c) (hσ : k.Outset c σ) {g : GlobalInit}
    (hg : (k.program.var g.var).hasGlobalStorage = true) :
    k.Begins c (k.setGlobal p { store := σ } g c) := by
  have hle := grows_var g.var topFrame c
  have hvar := isVar_var g.var topFrame c
  have hc' := hc.var g.var topFrame
  have hforeign : k.Foreign (var g.var topFrame c).2 (var g.var topFrame c).1 := by
    obtain ⟨q, hq⟩ := hvar.region_eq
    exact ⟨hvar.has, g.var, q, by rw [hvar.base_eq, hq], hg⟩
  unfold setGlobal
  rw [bind_apply]
  cases g.value with
  | none => exact ⟨hle, hc', _, rfl, (hσ.mono hc hle).bindDefault p hforeign⟩
  | some init =>
    have hinit := begins_writeConst p hc' (hσ.mono hc hle) hforeign (k.program.var g.var).type init
    exact ⟨hle.trans hinit.le, hinit.regular, hinit.state⟩

theorem begins_setGlobals (p : StorePolicy) {gs : List GlobalInit} (hc : k.Regular c)
    (hσ : k.Outset c σ) (hgs : ∀ g ∈ gs, (k.program.var g.var).hasGlobalStorage = true) :
    k.Begins c (gs.foldlM (k.setGlobal p) { store := σ } c) := by
  induction gs generalizing c σ with
  | nil => exact ⟨le_rfl, hc, σ, rfl, hσ⟩
  | cons g gs ih =>
    have hg := begins_setGlobal p hc hσ (hgs g mem_cons_self)
    rw [foldlM_cons, bind_apply]
    obtain ⟨τ, hs, hτ⟩ := hg.state
    rw [hs]
    have hrest := ih hg.regular hτ fun g' hg' => hgs g' (mem_cons_of_mem _ hg')
    exact ⟨hg.le.trans hrest.le, hrest.regular, hrest.state⟩

/-- **The state at the start.** Global variables are no variables of the function. -/
theorem begins_ofGlobals (p : StorePolicy) (hc : k.Regular c) :
    k.Begins c (State.ofGlobals p topFrame c) := by
  have hnone : k.Outset c {} := ⟨fun hb => (nomatch hb), fun hb => (nomatch hb)⟩
  unfold State.ofGlobals
  rw [bind_apply, query_apply, hc.program]
  exact begins_setGlobals p hc hnone k.isScalar.isGlobal

end PathScout.Study

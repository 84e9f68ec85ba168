import PathScout.Proofs.LocalInitializers
import PathScout.Proofs.MarkLaws
import PathScout.Proofs.ScopedBodies
import PathScout.Proofs.WrittenConstants

/-!
# Global variables start with what the text states

What a global variable starts with is computed when the program is built, and written into memory before
the function `main` starts. Different variables have nothing in common, so each of them keeps what its own
constant sets.

* `Initializer.Computes`: the constant of the initialiser sets what it states.
  `Initializer.Braced.computes`: so does the constant of every braced one.
* `State.shows_setGlobals`: all global variables, one after the other.
* `Program.ofUnit_setIn`: each declaration with an initialiser sets a variable of its name.
* `VarDecl.reads_stated`: initialisers of local and of global variables, the whole way from the text.
-/

namespace PathScout

open Checked ConstInit Naming List Bool

/-! ### The constant of an initialiser -/

/-- The constant that is computed for the initialiser sets what it states, in every program that has its
texts. -/
def Initializer.Computes (p : Program) (t : CType) (init : Initializer) : Prop :=
  ∀ (q q' : Program) (value : ConstInit), constInit q t init = .ok (q', value) →
    q.structs = p.structs → q'.Keeps p → value.Sets p t init.start

section

variable {p q q' : Program} {t : CType} {init : Initializer} {value : ConstInit}
  {items : List Initializer} {types : List CType}

/-- Texts are all that a constant adds to the program. -/
theorem constInit_keepsProgram (h : constInit q t init = .ok (q', value)) :
    q.Keeps q' ∧ q'.structs = q.structs ∧ q'.globals = q.globals := by
  refine constInit_keeps (P := fun q' => q.Keeps q' ∧ q'.structs = q.structs ∧ q'.globals = q.globals)
    (fun q1 span s ⟨hkeeps, hsame⟩ => ?_) init ⟨.refl q, rfl, rfl⟩ h
  refine ⟨hkeeps.trans ⟨?_, fun e he => ?_, le_rfl, fun _ _ => rfl⟩, hsame⟩
  · exact (Nat.le_succ _).trans_eq (Array.size_push ..).symm
  · rw [Program.expr, Program.expr, Array.getElem?_push_lt he, Array.getElem?_eq_getElem he]

/-- The constants of the items of a list, each from a program in between. -/
theorem constInits_spec {values : List ConstInit} (h : constInits q types items = .ok (q', values)) :
    values.length = min items.length types.length ∧ q.Keeps q' ∧ q'.structs = q.structs ∧
      ∀ (i : Nat) (value : ConstInit), values[i]? = some value → ∃ item type q1 q2,
        items[i]? = some item ∧ types[i]? = some type ∧ constInit q1 type item = .ok (q2, value) ∧
          q1.structs = q.structs ∧ q2.Keeps q' := by
  induction items generalizing q types values with
  | nil =>
    rw [constInits.eq_def] at h
    cases h
    exact ⟨(Nat.zero_min _).symm, .refl _, rfl, fun i value hi => nomatch hi⟩
  | cons item items ih =>
    cases types with
    | nil =>
      rw [constInits.eq_def] at h
      cases h
      exact ⟨(Nat.min_zero _).symm, .refl _, rfl, fun i value hi => nomatch hi⟩
    | cons type types =>
      rw [constInits] at h
      obtain ⟨⟨q1, first⟩, hfirst, h⟩ := bind_eq_ok.1 h
      obtain ⟨⟨q2, more⟩, hmore, h⟩ := bind_eq_ok.1 h
      cases h
      obtain ⟨hkeeps, hstructs, -⟩ := constInit_keepsProgram hfirst
      obtain ⟨hlength, hkeeps', hstructs', hall⟩ := ih hmore
      refine ⟨?_, hkeeps.trans hkeeps', hstructs'.trans hstructs, fun i value hi => ?_⟩
      · rw [length_cons, length_cons, length_cons, hlength, Nat.add_min_add_right]
      · cases i with
        | zero =>
          cases hi
          exact ⟨item, type, q, q1, rfl, rfl, hfirst, rfl, hkeeps'⟩
        | succ i =>
          obtain ⟨item', type', r1, r2, hitem, htype, hvalue, hr, hrkeeps⟩ := hall i value hi
          exact ⟨item', type', r1, r2, hitem, htype, hvalue, hr.trans hstructs, hrkeeps⟩

/-- The constant of a list of an object with parts. -/
theorem Initializer.computes_list {l : Location} (ht : t.isScalar = false)
    (htypes : partTypes p t l items.length = .ok (some types))
    (hreach : ∀ step : InitStep, step.InBounds p t → step.position < items.length →
      types[step.position]? = some (step.typeIn p t))
    (hitems : ∀ (i : Nat) item type, items[i]? = some item → types[i]? = some type → item.Computes p type)
    :
    (Initializer.list l items).Computes p t := by
  intro q q' value h hstructs hkeeps
  have htypes' : partTypes q t l items.length = .ok (some types) := by
    rw [← htypes]
    cases t with
    | struct name =>
      rw [partTypes, partTypes, Program.structNamed?_of_structs hstructs,
        funext (Program.struct_of_structs hstructs)]
    | _ => rfl
  rw [constInit] at h
  obtain ⟨_, hsome, h⟩ := bind_eq_ok.1 h
  cases htypes'.symm.trans hsome
  obtain ⟨⟨q1, values⟩, hvalues, h⟩ := bind_eq_ok.1 h
  cases h
  obtain ⟨hlength, -, -, hall⟩ := constInits_spec hvalues
  refine sets_list ht (fun j value step hvalue hstep hj => ?_) fun step path hstep hlast => ?_
  · obtain ⟨item, type, r1, r2, hitem, htype, hconst, hr, hr'⟩ := hall j value hvalue
    subst hj
    have hlt := (List.getElem?_eq_some_iff.1 hitem).1
    obtain rfl := Option.some.inj (htype.symm.trans (hreach step hstep hlt))
    rw [show (fun path => (Initializer.list l items).start (step :: path)) = item.start from
      funext (start_cons hitem)]
    exact hitems _ item _ hitem htype r1 r2 value hconst (hr.trans hstructs) (hr'.trans hkeeps)
  · -- the list is not longer than the position
    have hnone : items[step.position]? = none := by
      refine getElem?_eq_none_iff.2 (Nat.le_of_not_lt fun hlt => ?_)
      have := (List.getElem?_eq_some_iff.1 (hreach step hstep hlt)).1
      omega
    rw [start, stated?_cons, hnone]
    rfl

/-- A scalar. -/
theorem Expr.Initial.computes {e : Expr} (h : e.Initial t) : (Initializer.expr e).Computes p t := by
  intro q q' value hconst hstructs hkeeps
  have ht := h.isScalar
  rw [constInit] at hconst
  cases h with
  | @number t e n hint hlit =>
    have hconstant {m : Int} (hm : e.constant? = some m) : m = n := by
      cases hlit with
      | int | char => exact (Option.some.inj hm).symm
      | negInt | negChar => exact (Word.ofInt?_eq_some hm).symm
    have hnumber : constInitExpr.number q t e = .ok (q', value) := by cases hlit <;> exact hconst
    have hpointer : t.isPointer = false := by cases t <;> first | rfl | cases hint
    have hstart : (Initializer.expr e).start [] = .number n := by cases hlit <;> rfl
    unfold constInitExpr.number at hnumber
    split at hnumber
    · next m hm =>
      obtain rfl := hconstant hm
      rw [hpointer, if_neg fun h => Bool.false_ne_true h.2] at hnumber
      cases hnumber
      exact sets_scalar ht fun c s r _ => ⟨.ofInt m t, c, rfl, by rw [hstart]; rfl⟩
    · cases hnumber
  | zero | null =>
    cases hconst
    exact sets_scalar rfl fun c s r _ => ⟨.null, c, rfl, rfl⟩
  | @text span content =>
    cases hconst
    refine sets_scalar rfl fun c s r hp => ?_
    let e : ExprId := ⟨q.exprs.size⟩
    obtain ⟨base, space, first, d, hcd, -, hbase, hfirst, hrun⟩ := State.writeConst_string e c
    refine ⟨.pointer first, d, hrun s r _ rfl, rfl, first, base, e, space, rfl, hfirst, hbase, ?_⟩
    rw [hcd.program, hp, hkeeps.expr_eq e ((Nat.lt_succ_self _).trans_eq (Array.size_push ..).symm),
      Program.expr, Array.getElem?_push_size]
    rfl

/-- A text for an array of characters. -/
theorem Initializer.computes_text (size : Option Nat) (span : Span) (content : String) :
    (Initializer.expr (.string span content)).Computes p (.array .char size) := by
  intro q q' value hconst _ _
  rw [constInit] at hconst
  cases hconst
  refine sets_list rfl (fun j value step hvalue hstep hj => ?_) fun step path hstep hlast => ?_
  · rw [getElem?_map] at hvalue
    obtain ⟨b, hb, rfl⟩ := Option.map_eq_some_iff.1 hvalue
    obtain ⟨_, -, hb'⟩ := Option.map_eq_some_iff.1 (getElem?_zipIdx ▸ hb)
    cases hstep with
    | @element _ _ n hn =>
      obtain rfl : b.2 = n := by
        rw [← hb', Nat.zero_add]
        exact hj.symm
      exact sets_scalar rfl fun c s r _ => ⟨.ofInt b.1 .char, c, rfl, by
        rw [start_text (mem_of_getElem? hb)]
        rfl⟩
  · cases hstep with
    | @element _ _ n hn =>
      have hnone : content.toUTF8.toList[n]? = none := by
        rw [length_map, bytesOf, length_zipIdx, length_map] at hlast
        exact getElem?_eq_none_iff.2 hlast
      cases path with
      | nil =>
        rw [start, stated?, hnone]
        rfl
      | cons => rfl

/-- **Constants.** The constant of every braced initialiser sets what the initialiser states. -/
theorem Initializer.Braced.computes (h : init.Braced p t) : init.Computes p t := by
  induction h with
  | scalar he => exact he.computes
  | @braces t l items ht _ ih =>
    intro q q' value hconst hstructs hkeeps
    have htypes : partTypes q t l items.length = .ok none := by
      cases t <;> first | rfl | cases ht
    rw [constInit] at hconst
    obtain ⟨_, hnone, hconst⟩ := bind_eq_ok.1 hconst
    cases htypes.symm.trans hnone
    cases items with
    | nil =>
      cases hconst
      exact sets_scalar ht fun c s r _ => ⟨.ofInt 0 t, c, rfl, rfl⟩
    | cons item items =>
      refine (ih item rfl q q' value hconst hstructs hkeeps).congr fun path u hu => ?_
      obtain ⟨rfl, -⟩ := hu.eq_of_isScalar ht
      rw [start, start, stated?, firstStated?]
  | text => exact computes_text _ _ _
  | @array t size l items _ ih =>
    refine computes_list rfl rfl (fun step hstep hlt => ?_) fun i item type hitem htype => ?_
    · cases hstep with
      | element => exact getElem?_replicate_of_lt hlt
    · obtain rfl := eq_of_mem_replicate (mem_of_getElem? htype)
      exact ih item (mem_of_getElem? hitem)
  | @struct name owner l items hname _ ih =>
    refine computes_list rfl (by rw [partTypes, hname]) (fun step hstep hlt => ?_)
      fun i item type hitem htype => ?_
    · cases hstep with
      | @field _ f hs hf =>
        obtain rfl : f.owner = owner := Option.some.inj (hs.symm.trans hname)
        show ((p.struct f.owner).fields.map (·.type))[f.index]? = some (p.field f).type
        rw [getElem?_map, Program.field, getElem?_eq_getElem hf]
        rfl
    · rw [getElem?_map] at htype
      obtain ⟨field, hfield, rfl⟩ := Option.map_eq_some_iff.1 htype
      exact ih i item field hitem hfield

end

/-! ### All global variables -/

namespace State

/-- Sets a global variable to what it starts with. -/
def setGlobal (p : Program) (f : FrameId) (s : State) (g : GlobalInit) : Naming State := do
  let r ← var g.var f
  match g.value with
  | none => return s.bindDefault .region r (.int 0)
  | some value => writeConst .region s r (p.var g.var).type value

theorem ofGlobals_apply (f : FrameId) (c : Catalog) :
    ofGlobals .region f c = (c.program.globals.foldlM (setGlobal c.program f) {} : Naming State) c := rfl

/-- Something lies in one of the variables. -/
def InVars (vars : List VarId) (f : FrameId) (c : Catalog) (m : RegionId) : Prop :=
  ∃ v ∈ vars, ∃ r, c.IsVar f v r ∧ r ∈ c.chain m

variable {p : Program} {f : FrameId} {c : Catalog} {s : State} {g : GlobalInit} {gs : List GlobalInit}

theorem changes_setGlobal (hc : c.WellFormed) : s.Changes (InVars [g.var] f) c (setGlobal p f s g c) := by
  have hvar := Catalog.isVar_var g.var f c
  have hgrows := grows_var g.var f c
  have hwell := wellFormed_var hc g.var f
  unfold setGlobal
  rw [bind_apply]
  generalize var g.var f c = named at hvar hgrows hwell ⊢
  obtain ⟨r, c1⟩ := named
  have hin {out : State × Catalog} (h : s.Changes (fun d m => r ∈ d.chain m) c1 out) :
      s.Changes (InVars [g.var] f) c out :=
    (h.imp fun d m hd _ hm =>
      ⟨g.var, mem_singleton_self _, r, hvar.mono (h.le.trans hd), hm⟩).grow hgrows
  cases g.value with
  | none => exact hin (changes_bindDefault hwell _)
  | some value => exact hin (changes_writeConst hwell hvar.has _ value)

theorem changes_setGlobals (hc : c.WellFormed) :
    s.Changes (InVars (gs.map (·.var)) f) c ((gs.foldlM (setGlobal p f) s : Naming State) c) := by
  induction gs generalizing c s with
  | nil => exact .refl hc
  | cons g gs ih =>
    rw [foldlM_cons, bind_apply]
    have hg := changes_setGlobal (p := p) (f := f) (s := s) (g := g) hc
    refine (hg.imp fun d m _ _ ⟨v, hv, hm⟩ => ?_).trans
      ((ih hg.wellFormed).imp fun d m _ _ ⟨v, hv, hm⟩ => ⟨v, mem_cons_of_mem _ hv, hm⟩)
    exact ⟨v, mem_singleton.1 hv ▸ mem_cons_self, hm⟩

/-- Different variables have nothing in common. -/
theorem not_inVars {vars : List VarId} {v : VarId} {r m : RegionId} (hc : c.WellFormed)
    (hr : c.IsVar f v r) (hm : r ∈ c.chain m) (hv : v ∉ vars) : ¬ InVars vars f c m := by
  rintro ⟨w, hw, q, hq, hqm⟩
  have heq : q = r := by
    rcases Catalog.mem_chain_total hqm hm with h | h
    · exact (hr.mem_chain_iff hq hc).1 h
    · exact ((hq.mem_chain_iff hr hc).1 h).symm
  subst heq
  exact hv (hr.var_eq hq ▸ hw)

/-- **Global variables one after the other.** Each of them holds what its constant sets, if all of them
are different and nothing was bound to them before. -/
theorem shows_setGlobals {value : ConstInit} {start : List InitStep → Stated} (hp : c.program = p)
    (hc : c.WellFormed) (hnodup : (gs.map (·.var)).Nodup)
    (hclear : ∀ d, c ≤ d → d.WellFormed → ∀ k : BindingKey, InVars (gs.map (·.var)) f d k.region →
      s.store.bindings.get? k = none)
    (hg : g ∈ gs) (hvalue : g.value = some value) (hsets : value.Sets p (p.var g.var).type start) :
    let out := (gs.foldlM (setGlobal p f) s : Naming State) c
    ∀ d, out.2 ≤ d → d.WellFormed → ∀ r, d.IsVar f g.var r → ∀ path u q,
      p.Leaf (p.var g.var).type path u → d.Route r (p.var g.var).type path q →
        out.1.store.Shows d r q u (start path) := by
  induction gs generalizing c s with
  | nil => cases hg
  | cons first gs ih =>
    intro out d hd hdwell r hr path u q hu hq
    obtain ⟨hnot, hnodup'⟩ := nodup_cons.1 hnodup
    have hfirst := changes_setGlobal (p := p) (f := f) (s := s) (g := first) hc
    have hout : out = (gs.foldlM (setGlobal p f) (setGlobal p f s first c).1 : Naming State)
        (setGlobal p f s first c).2 := by
      show (List.foldlM _ s (first :: gs) : Naming State) c = _
      rw [foldlM_cons, bind_apply]
    have hrest : (setGlobal p f s first c).1.Changes (InVars (gs.map (·.var)) f)
        (setGlobal p f s first c).2 out := hout ▸ changes_setGlobals hfirst.wellFormed
    rcases mem_cons.1 hg with rfl | hg
    · have hshows : (setGlobal p f s g c).1.store.Shows d r q u (start path) := by
        have hle : (setGlobal p f s g c).2 ≤ d := hrest.le.trans hd
        have hvar := Catalog.isVar_var g.var f c
        have hgrows := grows_var g.var f c
        have hwell := wellFormed_var hc g.var f
        have hset : setGlobal p f s g c = writeConst .region s (var g.var f c).1 (p.var g.var).type
            value (var g.var f c).2 := by
          unfold setGlobal
          rw [bind_apply, hvalue]
        rw [hset] at hle ⊢
        generalize var g.var f c = named at hvar hgrows hwell hle ⊢
        obtain ⟨r1, c1⟩ := named
        have hle1 : c1 ≤ d := (changes_writeConst hwell hvar.has _ value).le.trans hle
        obtain rfl : r = r1 := hr.unique (hvar.mono hle1)
        refine hsets c1 s r (hgrows.program.trans hp) hwell hvar.has hvar.parent?_ne_none
          (fun e he hewell k hk => ?_) d hle hdwell path u q hu hq
        exact hclear e (hgrows.trans he) hewell k ⟨g.var, mem_cons_self, r, hvar.mono he, hk⟩
      exact hshows.congr (hq.start_mem_chain hdwell) fun k hk =>
        hrest.get?_eq hd hdwell k (not_inVars hdwell hr hk hnot)
    · rw [hout] at hd ⊢
      refine ih (hfirst.le.program.trans hp) hfirst.wellFormed hnodup' (fun e he hewell k hk => ?_) hg
        d hd hdwell r hr path u q hu hq
      obtain ⟨v, hv, r', hr', hm⟩ := hk
      rw [hfirst.get?_eq he hewell k (not_inVars hewell hr' hm fun heq => ?_)]
      · exact hclear e (hfirst.le.trans he) hewell k ⟨v, mem_cons_of_mem _ hv, r', hr', hm⟩
      · obtain rfl := mem_singleton.1 heq
        exact hnot hv

end State

/-! ### Declarations at the top of a text -/

/-- The variable that is made for a declaration at the top of a text. -/
def VarDecl.variable (d : VarDecl) : Variable :=
  ⟨d.name, completeArray d.type d.init, .global d.isStatic, none, d.location⟩

/-- Each variable starts with one thing and is the one that its name stands for, and names stand for variables
that are made for declarations of this name. -/
structure TopLevel.Distinct (items : List Item) (t : TopLevel) : Prop where
  nodup : (t.program.globals.map (·.var)).Nodup
  known : ∀ g ∈ t.program.globals, t.globals.lookup (t.program.var g.var).name = some g.var
  declared : ∀ x ∈ t.globals, ∃ d, .global d ∈ items ∧ d.name = x.1 ∧ t.program.var x.2 = d.variable

/-- What is declared and set so far stays. -/
structure Program.KeepsInit (p p' : Program) : Prop extends p.Keeps p' where
  structs : p'.structs = p.structs
  initial : ∀ g ∈ p.globals, g.value.isSome = true → g ∈ p'.globals

/-- The variable that was made for a declaration of the name starts with the constant that was computed for
the initialiser. -/
def VarDecl.SetIn (d : VarDecl) (items : List Item) (p : Program) (init : Initializer) : Prop :=
  ∃ v q q' value d', ⟨v, some value⟩ ∈ p.globals ∧ v.index < p.vars.size ∧
    (.global d' ∈ items ∧ d'.name = d.name ∧ p.var v = d'.variable) ∧
    constInit q (completeArray d.type (some init)) init = .ok (q', value) ∧
      q.structs = p.structs ∧ q'.Keeps p

section

variable {p p' p'' q : Program} {t t' : TopLevel} {d : VarDecl} {init : Initializer} {v : VarId}
  {g : GlobalInit} {gs : List GlobalInit} {value : Option ConstInit} {items done : List Item}

/-- What the variables start with is no matter of the texts and the variables. -/
theorem Program.keeps_globals (p : Program) (gs : List GlobalInit) : p.Keeps { p with globals := gs } :=
  ⟨le_rfl, fun _ _ => rfl, le_rfl, fun _ _ => rfl⟩

theorem Program.KeepsInit.refl (p : Program) : p.KeepsInit p := ⟨.refl _, rfl, fun _ hg _ => hg⟩

theorem Program.KeepsInit.trans (h : p.KeepsInit p') (h' : p'.KeepsInit p'') : p.KeepsInit p'' :=
  ⟨h.toKeeps.trans h'.toKeeps, h'.structs.trans h.structs,
    fun g hg hsome => h'.initial g (h.initial g hg hsome) hsome⟩

theorem VarDecl.SetIn.mono (h : d.SetIn items p init) (hp : p.KeepsInit p') : d.SetIn items p' init := by
  obtain ⟨v, q, q', value, d', hmem, hlt, ⟨hd, hname, hvar⟩, hconst, hstructs, hkeeps⟩ := h
  exact ⟨v, q, q', value, d', hp.initial _ hmem rfl, hlt.trans_le hp.vars_le,
    ⟨hd, hname, (hp.var_eq v hlt).trans hvar⟩, hconst, hstructs.trans hp.structs.symm,
    hkeeps.trans hp.toKeeps⟩

theorem nodup_setInit (h : (gs.map (·.var)).Nodup) : ((setInit gs v value).map (·.var)).Nodup := by
  unfold setInit
  split
  · have hvar : ((·.var) ∘ fun g : GlobalInit => if g.var = v then { g with value := value } else g) =
        (·.var) := funext fun g => by
      dsimp only [Function.comp]
      split <;> rfl
    rwa [map_map, hvar]
  · next hnone =>
    rw [map_append, map_singleton]
    refine nodup_append.2 ⟨h, nodup_singleton v, fun w hw w' hw' heq => hnone ?_⟩
    obtain ⟨g, hg, rfl⟩ := mem_map.1 hw
    exact any_eq_true.2 ⟨g, hg, beq_iff_eq.2 (heq.trans (mem_singleton.1 hw'))⟩

theorem mem_setInit_self (gs : List GlobalInit) (v : VarId) (value : Option ConstInit) :
    ⟨v, value⟩ ∈ setInit gs v value := by
  unfold setInit
  split
  · next hsome =>
    obtain ⟨g, hg, hv⟩ := any_eq_true.1 hsome
    obtain rfl := beq_iff_eq.1 hv
    exact mem_map.2 ⟨g, hg, if_pos rfl⟩
  · exact mem_append_right _ (mem_singleton_self _)

theorem mem_setInit_of_ne (hg : g ∈ gs) (hne : g.var ≠ v) : g ∈ setInit gs v value := by
  unfold setInit
  split
  · exact mem_map.2 ⟨g, hg, if_neg hne⟩
  · exact mem_append_left _ hg

/-- A variable that starts with nothing yet is set to a constant, which may add texts. -/
theorem TopLevel.Distinct.set (h : t.Distinct items) (ht : t.Plain) (value : Option ConstInit)
    {globals : List GlobalInit} (hq : t.program.Keeps q) (hstructs : q.structs = t.program.structs)
    (hglobals : globals = t.program.globals) (hnone : hasInit t.program v = false)
    (hv : t.globals.lookup (t.program.var v).name = some v) :
    let t' : TopLevel := { t with program := { q with globals := setInit globals v value } }
    t.program.KeepsInit t'.program ∧ t'.Distinct items ∧ ⟨v, value⟩ ∈ t'.program.globals := by
  subst hglobals
  have hvar {w : VarId} (hw : w.index < t.program.vars.size) : q.var w = t.program.var w := hq.var_eq w hw
  refine ⟨⟨hq.trans (q.keeps_globals _), hstructs, fun g hg hsome => ?_⟩,
    ⟨nodup_setInit h.nodup, fun g hg => ?_, fun x hx => ?_⟩, mem_setInit_self _ _ _⟩
  · refine mem_setInit_of_ne hg fun hv => false_ne_true (hnone.symm.trans ?_)
    exact any_eq_true.2 ⟨g, hg, by rw [hv, beq_self_eq_true, hsome]; rfl⟩
  · show t.globals.lookup (q.var g.var).name = some g.var
    rcases mem_setInit hg with heq | ⟨g', hg', heq⟩
    · rw [heq, hvar (ht.names _ (Draft.mem_of_lookup hv)).1, hv]
    · rw [← heq, hvar (ht.initial g' hg').1, h.known g' hg']
  · obtain ⟨d, hd, hname, hx'⟩ := h.declared x hx
    exact ⟨d, hd, hname, (hvar (ht.names x hx).1).trans hx'⟩

/-- One more variable is known. -/
theorem TopLevel.Distinct.addVar (h : t.Distinct items) (ht : t.Plain) (hd : .global d ∈ items)
    (hnew : t.globals.lookup d.name = none) :
    let t' : TopLevel := { t with
      program := { t.program with vars := t.program.vars.push d.variable }
      globals := (d.name, ⟨t.program.vars.size⟩) :: t.globals }
    t.program.KeepsInit t'.program ∧ t'.Distinct items ∧
      t'.program.var ⟨t.program.vars.size⟩ = d.variable := by
  have hold {v : VarId} (hv : v.index < t.program.vars.size) :
      Program.var { t.program with vars := t.program.vars.push d.variable } v = t.program.var v := by
    rw [Program.var, Program.var, Array.getElem?_push_lt hv, Array.getElem?_eq_getElem hv]
  have hself : Program.var { t.program with vars := t.program.vars.push d.variable }
      ⟨t.program.vars.size⟩ = d.variable := by
    rw [Program.var, Array.getElem?_push_size, Option.getD_some]
  refine ⟨⟨⟨le_rfl, fun _ _ => rfl, (Nat.le_succ _).trans_eq (Array.size_push ..).symm, fun _ => hold⟩, rfl,
    fun _ hg _ => hg⟩, ⟨h.nodup, fun g hg => ?_, fun y hy => ?_⟩, hself⟩
  · have hknown := h.known g hg
    have hne : ((t.program.var g.var).name == d.name) = false := beq_false_of_ne fun heq => by
      cases (heq ▸ hknown).symm.trans hnew
    rw [hold (ht.initial g hg).1, lookup_cons, hne, hknown]
  · rcases mem_cons.1 hy with rfl | hy
    · exact ⟨d, hd, rfl, hself⟩
    · obtain ⟨d', hd', hname, hvar⟩ := h.declared y hy
      exact ⟨d', hd', hname, (hold (ht.names y hy).1).trans hvar⟩

/-- **Declaring a global variable.** A declaration with an initialiser sets a variable of its name to the
constant of the initialiser. -/
theorem declareGlobal_sets (ht : t.Plain) (hd : t.Distinct items) (hitem : .global d ∈ items)
    (h : declareGlobal t d = .ok t') :
    t.program.KeepsInit t'.program ∧ t'.Distinct items ∧
      ∀ init, d.init = some init → d.SetIn items t'.program init := by
  unfold declareGlobal at h
  obtain ⟨-, -, h⟩ := bind_eq_ok.1 h
  split at h
  · next hinit =>
    cases h
    exact ⟨.refl _, hd, fun init hsome => nomatch hinit.symm.trans hsome⟩
  · next v init hv hinit =>
    split at h
    · cases h
    · next hnone =>
      obtain ⟨⟨q, value⟩, hq, h⟩ := bind_eq_ok.1 h
      cases h
      obtain ⟨hkeeps, hstructs, hglobals⟩ := constInit_keepsProgram hq
      have hknown := Draft.mem_of_lookup hv
      have hlt := (ht.names _ hknown).1
      obtain ⟨d', hd', hname, hvar⟩ := hd.declared _ hknown
      have hself : t.globals.lookup (t.program.var v).name = some v := by
        rw [hvar, VarDecl.variable, hname, hv]
      obtain ⟨hkeeps', hdistinct, hmem⟩ := hd.set ht (some value) hkeeps hstructs hglobals
        (eq_false_iff.2 hnone) hself
      refine ⟨hkeeps', hdistinct, fun init' hsome => ?_⟩
      cases hinit.symm.trans hsome
      exact ⟨v, t.program, q, value, d', hmem, hlt.trans_le hkeeps'.vars_le,
        ⟨hd', hname, (hkeeps'.var_eq v hlt).trans hvar⟩, hinit ▸ hq, hstructs.symm, q.keeps_globals _⟩
  · next hv =>
    obtain ⟨hkeeps1, hdistinct1, hself⟩ := hd.addVar ht hitem hv
    have hplain1 := ht.addVar (x := d.variable) rfl
    have hlt : t.program.vars.size < (t.program.vars.push d.variable).size :=
      (Nat.lt_succ_self _).trans_eq (Array.size_push ..).symm
    have hlookup : List.lookup d.variable.name ((d.name, (⟨t.program.vars.size⟩ : VarId)) :: t.globals) =
        some ⟨t.program.vars.size⟩ := lookup_cons_self
    have hfresh : hasInit t.program ⟨t.program.vars.size⟩ = false := by
      refine eq_false_iff.2 fun hset => ?_
      obtain ⟨g, hg, hv⟩ := any_eq_true.1 hset
      have hvar := beq_iff_eq.1 (and_eq_true_iff.1 hv).1
      exact absurd (ht.initial g hg).1 (by rw [hvar]; exact lt_irrefl _)
    dsimp only at h
    split at h
    · next init hinit =>
      obtain ⟨⟨q, value⟩, hq, h⟩ := bind_eq_ok.1 h
      cases h
      obtain ⟨hkeeps, hstructs, hglobals⟩ := constInit_keepsProgram hq
      obtain ⟨hkeeps', hdistinct, hmem⟩ := hdistinct1.set hplain1 (some value) hkeeps hstructs hglobals
        hfresh (hself.symm ▸ hlookup)
      refine ⟨hkeeps1.trans hkeeps', hdistinct, fun init' hsome => ?_⟩
      cases hinit.symm.trans hsome
      exact ⟨_, _, q, value, d, hmem, hlt.trans_le hkeeps'.vars_le,
        ⟨hitem, rfl, (hkeeps'.var_eq _ hlt).trans hself⟩, hinit ▸ hq, hstructs.symm, q.keeps_globals _⟩
    · next hinit =>
      cases h
      obtain ⟨hkeeps', hdistinct, -⟩ := hdistinct1.set hplain1 none (.refl _) rfl rfl hfresh
        (hself.symm ▸ hlookup)
      exact ⟨hkeeps1.trans hkeeps', hdistinct, fun init hsome => nomatch hinit.symm.trans hsome⟩

theorem declareFunction_keepsInit {d : FunctionDecl} (hd : t.Distinct items)
    (h : declareFunction t d = .ok t') : t.program.KeepsInit t'.program ∧ t'.Distinct items := by
  unfold declareFunction at h
  dsimp only at h
  split at h
  · split at h
    · cases h
    · cases h
      exact ⟨⟨⟨le_rfl, fun _ _ => rfl, le_rfl, fun _ _ => rfl⟩, rfl, fun _ hg _ => hg⟩, hd.nodup, hd.known,
        hd.declared⟩
  · cases h
    exact ⟨⟨⟨le_rfl, fun _ _ => rfl, le_rfl, fun _ _ => rfl⟩, rfl, fun _ hg _ => hg⟩, hd.nodup, hd.known,
      hd.declared⟩

/-- Every global variable with an initialiser is set, once all declarations are read. -/
theorem declareItems_sets (ht : t.Plain) (hd : t.Distinct items) (hdone : done ⊆ items)
    (h : done.foldlM declareItem t = .ok t') :
    t.program.KeepsInit t'.program ∧ t'.Distinct items ∧
      ∀ d init, .global d ∈ done → d.init = some init → d.SetIn items t'.program init := by
  induction done generalizing t with
  | nil =>
    cases h
    exact ⟨.refl _, hd, fun _ _ hmem => nomatch hmem⟩
  | cons item done ih =>
    rw [foldlM_cons] at h
    obtain ⟨t1, h1, h⟩ := bind_eq_ok.1 h
    obtain ⟨hkeeps, hdistinct, hset⟩ : t.program.KeepsInit t1.program ∧ t1.Distinct items ∧
        ∀ d init, item = .global d → d.init = some init → d.SetIn items t1.program init := by
      cases item with
      | struct =>
        cases h1
        exact ⟨.refl _, hd, fun _ _ heq => nomatch heq⟩
      | global d =>
        obtain ⟨hkeeps, hdistinct, hset⟩ := declareGlobal_sets ht hd (hdone mem_cons_self) h1
        exact ⟨hkeeps, hdistinct, fun d' init heq => Item.global.inj heq ▸ hset init⟩
      | function d =>
        obtain ⟨hkeeps, hdistinct⟩ := declareFunction_keepsInit hd h1
        exact ⟨hkeeps, hdistinct, fun _ _ heq => nomatch heq⟩
    obtain ⟨hkeeps', hdistinct', hset'⟩ :=
      ih (declareItem_plain item ht h1) hdistinct (fun _ hx => hdone (mem_cons_of_mem _ hx)) h
    refine ⟨hkeeps.trans hkeeps', hdistinct', fun d init hmem hinit => ?_⟩
    rcases mem_cons.1 hmem with heq | hmem
    · exact (hset d init heq.symm hinit).mono hkeeps'
    · exact hset' d init hmem hinit

/-- Building bodies changes nothing of that. -/
theorem lowerDefinition_keepsInit {globals : Names} {d : FunctionDecl} (hp : p.Built globals)
    (h : lowerDefinition globals p d = .ok p') : p.KeepsInit p' ∧ p'.globals = p.globals := by
  unfold lowerDefinition at h
  split at h
  · next body f hbody hf =>
    have hkeeps := (lowerFunction_built d body hp h).2
    obtain ⟨⟨vs, s⟩, hrun, h⟩ := bind_eq_ok.1 h
    obtain ⟨draft, rfl, hd, -⟩ := Lower.sends_lowerBody d body hp.linear hp.names hrun
    dsimp only at h
    split at h
    · cases h
    · cases h
      exact ⟨⟨hkeeps, hd.structs, fun g hg _ => hd.initial.symm ▸ hg⟩, hd.initial⟩
  · cases h
    exact ⟨.refl p, rfl⟩

/-- **Programs.** In the program of a text each variable starts with one thing, variables that start with
something have different names, and every global variable with an initialiser is set. -/
theorem Program.ofUnit_setIn {u : SourceUnit} {file : String} (h : ofUnit u file = .ok p) :
    (p.globals.map (·.var)).Nodup ∧
      (∀ g ∈ p.globals, ∀ g' ∈ p.globals, (p.var g.var).name = (p.var g'.var).name → g.var = g'.var) ∧
      ∀ d init, .global d ∈ u.items → d.init = some init → d.SetIn u.items p init := by
  obtain ⟨q, hq, h⟩ := bind_eq_ok.1 h
  obtain ⟨t, ht, h⟩ := bind_eq_ok.1 h
  -- before the items there are structures only
  have hempty : q.globals = [] := foldlM_keeps (P := fun q : Program => q.globals = [])
    (fun d q q' hq h => by
      unfold declareStruct at h
      split at h
      · cases h
      · cases h
        exact hq) _ rfl hq
  have hstart : TopLevel.Distinct u.items ⟨q, [], []⟩ :=
    ⟨by rw [hempty]; exact nodup_nil, fun g hg => (not_mem_nil (hempty ▸ hg)).elim, fun _ hx => nomatch hx⟩
  have hplain := declareItems_plain hq ht
  obtain ⟨-, hdistinct, hset⟩ := declareItems_sets (declareStructs_plain hq) hstart (Subset.refl _) ht
  obtain ⟨-, hkeeps, hglobals⟩ := foldlM_keeps
    (P := fun p' : Program => p'.Built t.globals ∧ t.program.KeepsInit p' ∧ p'.globals = t.program.globals)
    (fun d p p' ⟨hp, hkeeps, hglobals⟩ hd => by
      obtain ⟨hkeeps', hglobals'⟩ := lowerDefinition_keepsInit hp hd
      exact ⟨lowerDefinition_built d hp hd, hkeeps.trans hkeeps', hglobals'.trans hglobals⟩)
    _ ⟨hplain.built, .refl _, rfl⟩ h
  refine ⟨hglobals ▸ hdistinct.nodup, fun g hg g' hg' heq => ?_,
    fun d init hd hinit => (hset d init hd hinit).mono hkeeps⟩
  rw [hglobals] at hg hg'
  rw [hkeeps.var_eq _ (hplain.initial g hg).1, hkeeps.var_eq _ (hplain.initial g' hg').1] at heq
  exact Option.some.inj ((hdistinct.known g hg).symm.trans (heq ▸ hdistinct.known g' hg'))

end

/-! ### The start of the program -/

section

variable {d : VarDecl} {init : Initializer} {t : CType}

/-- **Initialisers.** Let a variable be declared with a fully braced initialiser of its type.
* As a local variable: wherever the declaration is built, it adds some steps to the code. From any state in
  which what is bound has numbers, whatever was bound to the variable, a path goes on after these steps.
* As a global variable: one variable of the name starts with something, which was made for a declaration of
  the name at the top of the text, with this type, and an exploration of `main` starts.
Then every scalar of the variable reads as the initialiser states: as the number, wrapped to the type of the
scalar, as a pointer to the first character of the text, or as zero if the scalar is not mentioned. -/
theorem VarDecl.reads_stated (hinit : d.init = some init) (ht : completeArray d.type (some init) = t) :
    (∀ s : Lowering, s.Placed → d.isStatic = false → init.Braced s.program t →
      Lower.checkComplete s.program t d.location = .ok () →
      d.name.isEmpty = true ∨ (s.scopes.headD []).lookup d.name = none →
      ∃ v steps s', lowerDecl d s = .ok ((), s') ∧ s.Emits steps s' ∧
        s'.program.var v = ⟨d.name, t, .local, some s.function, d.location⟩ ∧
        ∀ (o : Options) (f : FrameId) (c : Catalog) (σ : State), o.store = .region → c.WellFormed →
          s'.program.Keeps c.program → c.program.structs = s'.program.structs → σ.store.KeysNamedIn c →
          Exploring.Runs o f steps c σ fun σ' c' => σ'.ReadsAs c' v f t init) ∧
    ∀ (u : SourceUnit) (file : String) (p : Program), Program.ofUnit u file = .ok p →
      .global d ∈ u.items → init.Braced p t →
      ∃ v value d', ⟨v, some value⟩ ∈ p.globals ∧
        (∀ g ∈ p.globals, (p.var g.var).name = d.name → g.var = v) ∧
        (.global d' ∈ u.items ∧ d'.name = d.name ∧ p.var v = d'.variable) ∧ ((p.var v).type = t →
          ∀ (o : Options) (main : FunctionId), o.store = .region → (p.function main).name = "main" →
            ∀ n x, (Exploration.start o p main).graph.node? n = some x →
              x.state.ReadsAs (Exploration.start o p main).catalog v topFrame t init) := by
  refine ⟨fun _ hs hstatic hbraced hcomplete hfree =>
    runs_declared hstatic hinit ht hbraced hcomplete hfree hs, fun u file p h hd hbraced => ?_⟩
  obtain ⟨hnodup, hsole, hset⟩ := Program.ofUnit_setIn h
  obtain ⟨v, q, q', value, d', hmem, -, hvar, hconst, hstructs, hkeeps⟩ := hset d init hd hinit
  refine ⟨v, value, d', hmem, fun g hg hname => hsole g hg _ hmem ?_, hvar,
    fun htype o main ho hmain n x hx => ?_⟩
  · rw [hname, hvar.2.2]
    exact hvar.2.1.symm
  obtain ⟨root, -, hroot⟩ := Exploration.start_spec o p main
  obtain ⟨-, rfl⟩ := (hroot n x).1 hx
  have hwell : (Catalog.ofProgram p).WellFormed := (Catalog.ordered_ofProgram p).wellFormed
  have hopening : Exploration.opening o p main =
      (p.globals.foldlM (State.setGlobal p topFrame) {} : Naming State) (.ofProgram p) := by
    rw [Exploration.opening, if_pos hmain, ho, State.ofGlobals_apply]
    rfl
  have hchanges : State.Changes _ {} (.ofProgram p) (Exploration.opening o p main) :=
    hopening ▸ State.changes_setGlobals hwell
  have hsets : value.Sets p (p.var v).type init.start := by
    rw [htype]
    exact hbraced.computes q q' value (ht ▸ hconst) hstructs hkeeps
  have hshows : ∀ e, (Exploration.opening o p main).2 ≤ e → e.WellFormed → ∀ r, e.IsVar topFrame v r →
      ∀ path w m, p.Leaf (p.var v).type path w → e.Route r (p.var v).type path m →
        (Exploration.opening o p main).1.store.Shows e r m w (init.start path) := by
    rw [hopening]
    exact State.shows_setGlobals (c := .ofProgram p) (s := {}) (g := ⟨v, some value⟩) rfl hwell hnodup
      (fun _ _ _ _ _ => rfl) hmem rfl hsets
  rw [htype] at hshows
  have hprogram : (Exploration.start o p main).catalog.program = p := hchanges.le.program
  refine State.readsAs_of_shows hchanges.wellFormed fun e he hewell r hr path w m hw hm => ?_
  exact hshows e he hewell r hr path w m (hprogram ▸ hw) hm

end

section

/-- The initialiser `{"ab", "cd", {-1}}`. -/
def labelInit : Initializer :=
  .list default [.expr (.string default "ab"), .expr (.string default "cd"),
    .list default [.expr (.unary default .neg (.int default 1))]]

/-- The declaration `struct S x = {"ab", "cd", {-1}};`. -/
def labelDecl : VarDecl := ⟨"x", .struct "S", some labelInit, false, default⟩

/-- The types of the fields of `struct S { char name[4]; char *text; int n[2]; };`. -/
def labelTypes : List CType := [.array .char (some 4), .pointer .char, .array .int (some 2)]

/-- The structure, the variable and a function `main`. -/
def labelUnit : SourceUnit where
  items := [
    .struct ⟨"S", labelTypes.map fun type => ⟨"", type, default⟩, default⟩,
    .global labelDecl,
    .function
      { name := "main"
        returns := .int
        params := []
        variadic := false
        body := some []
        location := default
        last := default }]
  expansions := []

/-- A state of building that knows the structure. -/
def labelLowering : Lowering where
  program := { file := "a.c", structs := #[⟨"S", labelTypes.map fun type => ⟨"", type⟩, default⟩] }
  globals := []
  function := ⟨0⟩
  returns := .int

theorem braced_labelInit {p : Program} (hname : p.structNamed? "S" = some ⟨0⟩)
    (htypes : (p.struct ⟨0⟩).fields.map (·.type) = labelTypes) : labelInit.Braced p (.struct "S") := by
  refine .struct hname fun i item field hitem hfield => ?_
  have htype : labelTypes[i]? = some field.type := by
    rw [← htypes, getElem?_map, hfield]
    rfl
  match i with
  | 0 =>
    cases hitem
    exact Option.some.inj htype ▸ .text
  | 1 =>
    cases hitem
    exact Option.some.inj htype ▸ .scalar .text
  | 2 =>
    cases hitem
    exact Option.some.inj htype ▸ .array fun item hmem =>
      mem_singleton.1 hmem ▸ .scalar (.number rfl .negInt)
  | _ + 3 => cases hitem

/-- A structure with an array of characters, a text and an array of numbers, as a local variable and as a
global one. -/
theorem VarDecl.reads_stated_label :
    (labelDecl.init = some labelInit ∧ completeArray labelDecl.type (some labelInit) = .struct "S") ∧
    (labelInit.start [.field ⟨⟨0⟩, 0⟩, .element 1] = .number 98 ∧
      labelInit.start [.field ⟨⟨0⟩, 0⟩, .element 3] = .number 0 ∧
      labelInit.start [.field ⟨⟨0⟩, 1⟩] = .text "cd" ∧
      labelInit.start [.field ⟨⟨0⟩, 2⟩, .element 0] = .number (-1)) ∧
    (labelLowering.Placed ∧ labelDecl.isStatic = false ∧
      labelInit.Braced labelLowering.program (.struct "S") ∧
      ∃ v steps s', lowerDecl labelDecl labelLowering = .ok ((), s') ∧ labelLowering.Emits steps s' ∧
        s'.program.var v = ⟨"x", .struct "S", .local, some ⟨0⟩, default⟩ ∧
        ∀ (o : Options) (f : FrameId) (c : Catalog) (σ : State), o.store = .region → c.WellFormed →
          s'.program.Keeps c.program → c.program.structs = s'.program.structs → σ.store.KeysNamedIn c →
          Exploring.Runs o f steps c σ fun σ' c' => σ'.ReadsAs c' v f (.struct "S") labelInit) ∧
    ∃ p, Program.ofUnit labelUnit "a.c" = .ok p ∧ labelInit.Braced p (.struct "S") ∧
      ∃ v value, ⟨v, some value⟩ ∈ p.globals ∧ p.var v = labelDecl.variable ∧
        (p.function ⟨0⟩).name = "main" ∧ ∀ o : Options, o.store = .region →
          ∀ n x, (Exploration.start o p ⟨0⟩).graph.node? n = some x →
            x.state.ReadsAs (Exploration.start o p ⟨0⟩).catalog v topFrame (.struct "S") labelInit := by
  obtain ⟨hlocal, hglobal⟩ := VarDecl.reads_stated (d := labelDecl) (t := .struct "S") rfl rfl
  have hplaced : labelLowering.Placed := fun _ hb => nomatch hb
  have hname : labelLowering.program.structNamed? "S" = some ⟨0⟩ := by decide +kernel
  have hbraced : labelInit.Braced labelLowering.program (.struct "S") := braced_labelInit hname rfl
  have hcomplete : Lower.checkComplete labelLowering.program (.struct "S") default = .ok () := by
    rw [Lower.checkComplete, hname]
    rfl
  refine ⟨⟨rfl, rfl⟩, by decide +kernel, ⟨hplaced, rfl, hbraced,
    hlocal labelLowering hplaced rfl hbraced hcomplete (.inr rfl)⟩, ?_⟩
  have hfacts : (Program.ofUnit labelUnit "a.c").toOption.any (fun p => decide
      (p.structNamed? "S" = some ⟨0⟩ ∧ (p.struct ⟨0⟩).fields.map (·.type) = labelTypes ∧
        (p.function ⟨0⟩).name = "main")) = true := by decide +kernel
  obtain ⟨p, hu, hfacts⟩ := exists_ok_of_any hfacts
  obtain ⟨hname, htypes, hmain⟩ := of_decide_eq_true hfacts
  have hbraced := braced_labelInit hname htypes
  obtain ⟨v, value, d', hmem, -, ⟨hd, -, hvar⟩, hreads⟩ := hglobal labelUnit "a.c" p hu
    (mem_cons_of_mem _ mem_cons_self) hbraced
  -- there is no other declaration at the top
  obtain rfl : d' = labelDecl := by simpa [labelUnit] using hd
  exact ⟨p, hu, hbraced, v, value, hmem, hvar, hmain,
    fun o ho => hreads (congrArg Variable.type hvar) o ⟨0⟩ ho hmain⟩

end

end PathScout

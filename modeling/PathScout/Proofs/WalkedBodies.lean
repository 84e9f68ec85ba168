import PathScout.Proofs.LoweredUnits
import PathScout.Proofs.WalkedLoops

/-!
# Walks through function bodies

The walk through the graph of a function does what the text of its body says. It starts at the entry,
where the code of the body starts, and it is over at the exit, where the body ends or returns to.

* `Terrain.Walks`: a walk does what a course says, up to its end or up to where it is cut off.
* `leads_lowerBody`: the code of a body that has no `goto`.
* `Program.Builds`: building bodies leaves the functions of other names alone.
* `Program.ofUnit_walks`: the graphs of a built program.
-/

namespace PathScout

open Lower List

/-! ### Walks from the entry -/

/-- The walk from the entry of the function, after some steps. -/
def Terrain.walk (T : Terrain) (n : Nat) : Walker := T.step^[n] { block := T.graph.entry }

/-- The walk does all that a course says, in its order, and nothing else, and no value waits then. Where
the course ends, the walk has come to the exit and is over; where the course was cut off, the oracle was
asked as often as loops were allowed to turn. -/
inductive Terrain.Walks (T : Terrain) (turns : Nat) : Ending × Course → Prop where
  | over {e : Ending} {c : Course} (n : Nat) : e = .normal ∨ e = .return →
    (∀ m, n ≤ m → (T.walk m).block = T.graph.exit ∧ T.Does (T.walk m) c []) → Walks T turns (e, c)
  | cutOff {c : Course} (n : Nat) : turns ≤ c.asked → T.Does (T.walk n) c [] →
    Walks T turns (.unfinished, c)

section

variable {T : Terrain} {turns : Nat} {s : Lowering} {globals : Names} {p : Program}
  {f : FunctionId} {d : FunctionDecl} {body : List Stmt}

theorem traces_mapM {α β : Type} {act : α → Lower β}
    (h : ∀ a, Traces T (act a) (pure () : Following Unit) fun _ => Lowering.Here) (as : List α) :
    Traces T (as.mapM act) (pure () : Following Unit) fun _ => Lowering.Here := by
  induction as with
  | nil => exact traces_pure
  | cons a as ih =>
    rw [mapM_cons]
    exact (h a).then fun b => ih.then fun bs => traces_pure

theorem traces_declareParams (params : List Param) :
    Traces T (declareParams params) (pure () : Following Unit) fun _ => Lowering.Here :=
  traces_mapM (fun ⟨param, i⟩ => (traces_requireComplete param.type param.location).then fun _ =>
    traces_declareVar _ param.type (.param i) param.location) _

theorem tidy_begun : (Draft.begun globals p f d.returns).state.Tidy where
  current b hb := by
    cases hb
    exact ⟨{}, rfl, rfl⟩
  labels l hl := nomatch hl

/-- **The code of a body** leads from the entry to the exit, if the course of the body ends. -/
theorem leads_lowerBody (turns : Nat) {vs : List VarId} (hs : everyOf Stmt.isStructured body = true)
    (h : lowerBody d body
      { program := p, globals := globals, function := f, returns := d.returns } = .ok (vs, s)) :
    (Draft.begun globals p f d.returns).state.Adds s ∧ (T.Covers s →
      T.Carries (fun w => w.Starts ⟨0⟩) (followAll T.oracle T.program turns body) (s.EndsIn ⟨1⟩)) := by
  have h : (do
      let params ← declareParams d.params
      lowerStmts body
      jumpIfOpen ⟨1⟩
      return params : Lower (List VarId)) (Draft.begun globals p f d.returns).state = .ok (vs, s) := h
  obtain ⟨vs', s1, hparams, h⟩ := bind_eq_ok.1 h
  obtain ⟨_, s2, hbody, h⟩ := bind_eq_ok.1 h
  obtain ⟨_, s3, hjump, hlast⟩ := bind_eq_ok.1 h
  cases hlast
  have hparams := traces_declareParams (T := T) d.params _ _ s1 tidy_begun hparams
  have htraces : Lower.Traces T (lowerStmts body) (followAll T.oracle T.program turns body)
      fun e s' => s'.Ends e := lowerStmts_traces body hs
  have hbody := htraces s1 _ s2 hparams.tidy hbody
  obtain ⟨hadds, -, hcarries⟩ := carries_jumpIfOpen hbody hjump
  refine ⟨hparams.toAdds.trans hadds, fun hcovers => ?_⟩
  have hstart := (hparams.carries (hcovers.of_grows hadds.toGrows)).then (hcarries hcovers)
  exact hstart.imp (fun w hw => ⟨congrArg some hw.1.symm, {}, by rw [hw.1]; rfl, hw.2⟩) fun _ _ => id

end

/-! ### Graphs of bodies -/

/-- The graph that was built for a body. -/
def Lowering.graph (s : Lowering) : FlowGraph := ⟨s.blocks.map OpenBlock.close, ⟨0⟩, ⟨1⟩⟩

section

variable {T : Terrain} {turns : Nat} {s : Lowering} {globals : Names} {p : Program}
  {f : FunctionId} {d : FunctionDecl} {body : List Stmt}

theorem covers_graph (hgraph : T.graph = s.graph)
    (hexprs : ∀ e : ExprId, e.index < s.program.exprs.size → T.program.expr e = s.program.expr e)
    (hstructs : T.program.structs = s.program.structs) (hreturns : T.returns = s.returns) :
    T.Covers s where
  expr_eq := hexprs
  structs := hstructs
  returns := hreturns
  block b block hb := by
    refine ⟨block.close, ?_, fun i el hel => ⟨el, hel, rfl⟩, fun t ht => ⟨?_, rfl⟩⟩
    · rw [hgraph, FlowGraph.block?, Lowering.graph, Array.getElem?_map]
      exact congrArg (Option.map OpenBlock.close) hb
    · rw [OpenBlock.close, ht]
      rfl

/-- At the exit a walk is over. -/
theorem step_exit (hbegun : (Draft.begun globals p f d.returns).state.Adds s) (hcovers : T.Covers s)
    {w : Walker} (hw : w.Starts ⟨1⟩) : T.step w = w := by
  obtain ⟨block, hblock, hbegins⟩ := hbegun.block ⟨1⟩ { terminator := some .exit } rfl
  obtain ⟨hend, hsize⟩ := hbegins.ended .exit rfl
  exact hcovers.step_of_terminator (hw.1 ▸ hblock) (hw.2.trans hsize.symm) hend

/-- **The walk through the graph of a body** does what the body says. -/
theorem walks_of_lowerBody {vs : List VarId} (hs : everyOf Stmt.isStructured body = true)
    (h : lowerBody d body
      { program := p, globals := globals, function := f, returns := d.returns } = .ok (vs, s))
    (hcovers : T.Covers s) (hgraph : T.graph = s.graph) :
    T.Walks turns (followAll T.oracle T.program turns body {}) := by
  obtain ⟨hbegun, hcarries⟩ := leads_lowerBody (T := T) turns hs h
  obtain ⟨w, ⟨n, hn⟩, hdoes, hend⟩ := hcarries hcovers [] { block := T.graph.entry } {}
    ⟨congrArg FlowGraph.entry hgraph, rfl⟩ ⟨.nil, rfl⟩
  have hn : T.walk n = w := hn
  have htargets : s.targets = [] := hbegun.targets
  have hover : w.Starts ⟨1⟩ → ∀ m, n ≤ m → (T.walk m).block = T.graph.exit ∧
      T.Does (T.walk m) (followAll T.oracle T.program turns body {}).2 [] := fun hw m hm => by
    have hstay : T.walk m = w := by
      obtain ⟨k, rfl⟩ := Nat.exists_eq_add_of_le' hm
      rw [Terrain.walk, Function.iterate_add_apply]
      exact (congrArg _ hn).trans (Function.iterate_fixed (step_exit hbegun hcovers hw) k)
    rw [hstay, hgraph]
    exact ⟨hw.1, hdoes⟩
  have hpersists : Persists turns (followAll T.oracle T.program turns body) := persists_followAll body
  have hcut := (hpersists {}).2
  generalize followAll T.oracle T.program turns body {} = r at hdoes hend hover hcut
  obtain ⟨e, c⟩ := r
  cases e with
  | normal => exact .over n (.inl rfl) (hover hend)
  | «return» => exact .over n (.inr rfl) (hover hend)
  | unfinished => exact .cutOff n ((Nat.zero_add turns).ge.trans (hcut rfl)) (hn ▸ hdoes)
  | «break» =>
    obtain ⟨t, ht, -⟩ := hend
    rw [htargets] at ht
    cases ht
  | «continue» =>
    obtain ⟨b, hb, -⟩ := hend
    rw [htargets] at hb
    cases hb

end

/-! ### Functions of a program -/

namespace Program

/-- The program has a function of the name. -/
def Has (p : Program) (name : String) : Prop :=
  ∃ f : FunctionId, f.index < p.functions.size ∧ (p.function f).name = name

variable {p p' p'' : Program} {f : FunctionId} {name : String}

theorem of_functionNamed? (h : p.functionNamed? name = some f) :
    f.index < p.functions.size ∧ (p.function f).name = name := by
  obtain ⟨i, hi, rfl⟩ := Option.map_eq_some_iff.1 h
  obtain ⟨hlt, hname, -⟩ := Array.findIdx?_eq_some_iff_getElem.1 hi
  refine ⟨hlt, ?_⟩
  rw [function, Array.getElem?_eq_getElem hlt]
  exact beq_iff_eq.1 hname

theorem Has.functionNamed? (h : p.Has name) : ∃ f, p.functionNamed? name = some f := by
  obtain ⟨g, hlt, hname⟩ := h
  cases hi : p.functions.findIdx? fun f => f.name == name with
  | some i => exact ⟨⟨i⟩, congrArg (Option.map FunctionId.mk) hi⟩
  | none =>
    have hne := Array.findIdx?_eq_none_iff.1 hi _ (Array.getElem_mem hlt)
    rw [function, Array.getElem?_eq_getElem hlt] at hname
    exact absurd (beq_iff_eq.2 hname) (Bool.eq_false_iff.1 hne)

/-- Bodies of functions were built. -/
structure Builds (p p' : Program) : Prop extends p.Keeps p' where
  structs : p'.structs = p.structs
  functions_le : p.functions.size ≤ p'.functions.size
  name_eq : ∀ f : FunctionId, f.index < p.functions.size → (p'.function f).name = (p.function f).name

theorem Builds.refl (p : Program) : p.Builds p := ⟨.refl p, rfl, le_rfl, fun _ _ => rfl⟩

theorem Builds.trans (h : p.Builds p') (h' : p'.Builds p'') : p.Builds p'' where
  toKeeps := h.toKeeps.trans h'.toKeeps
  structs := h'.structs.trans h.structs
  functions_le := h.functions_le.trans h'.functions_le
  name_eq f hf := (h'.name_eq f (hf.trans_le h.functions_le)).trans (h.name_eq f hf)

theorem Has.builds (h : p.Has name) (hp : p.Builds p') : p'.Has name := by
  obtain ⟨f, hlt, hname⟩ := h
  exact ⟨f, hlt.trans_le hp.functions_le, (hp.name_eq f hlt).trans hname⟩

end Program

section

variable {p p' : Program} {f g : FunctionId} {globals : Names} {d : FunctionDecl} {body : List Stmt}

/-- What building the body of a function does to the program. -/
theorem lowerFunction_builds (hp : p.Built globals) (h : lowerFunction globals p f d body = .ok p') :
    p.Builds p' ∧ ∀ g, g ≠ f → g.index < p.functions.size → p'.function g = p.function g := by
  obtain ⟨⟨vs, s⟩, hrun, h'⟩ := Checked.bind_eq_ok.1 h
  obtain ⟨draft, rfl, hd, -⟩ := sends_lowerBody d body hp.linear hp.names hrun
  have hannounces : p.Announces draft.program := hd.announces
  dsimp only at h'
  split at h'
  · cases h'
  · cases h'
    refine ⟨⟨(lowerFunction_built d body hp h).2, hd.structs, ?_, fun g hg => ?_⟩, fun g hne hg => ?_⟩
    · exact hannounces.size_le.trans (Array.size_modify ..).ge
    · have hname := congrArg Function.name (hannounces.function_eq g hg)
      rw [function_modify]
      split <;> exact hname
    · rw [function_modify, if_neg fun hf => hne (by cases f; cases g; exact congrArg _ hf.1.symm)]
      exact hannounces.function_eq g hg

/-- What building the body of a function, if it has one, does to the program. -/
theorem lowerDefinition_builds (hp : p.Built globals) (h : lowerDefinition globals p d = .ok p') :
    p.Builds p' ∧ ∀ g : FunctionId, g.index < p.functions.size →
      (d.body.isSome = true → (p.function g).name ≠ d.name) → p'.function g = p.function g := by
  unfold lowerDefinition at h
  split at h
  · next body f hbody hf =>
    obtain ⟨hbuilds, hother⟩ := lowerFunction_builds hp h
    refine ⟨hbuilds, fun g hg hne => hother g ?_ hg⟩
    rintro rfl
    exact hne (by rw [hbody]; rfl) (Program.of_functionNamed? hf).2
  · cases h
    exact ⟨.refl p, fun _ _ _ => rfl⟩

/-- Building further bodies leaves a function alone that has another name. -/
theorem lowerDefinitions_builds (ds : List FunctionDecl) (hp : p.Built globals)
    (h : ds.foldlM (lowerDefinition globals) p = .ok p') :
    p'.Built globals ∧ p.Builds p' ∧ ∀ g : FunctionId, g.index < p.functions.size →
      (∀ d ∈ ds, d.body.isSome = true → (p.function g).name ≠ d.name) →
        p'.function g = p.function g := by
  induction ds generalizing p with
  | nil =>
    cases h
    exact ⟨hp, .refl _, fun _ _ _ => rfl⟩
  | cons d ds ih =>
    rw [foldlM_cons] at h
    obtain ⟨p1, h1, h⟩ := Checked.bind_eq_ok.1 h
    obtain ⟨hbuilds, hother⟩ := lowerDefinition_builds hp h1
    obtain ⟨hp', hbuilds', hother'⟩ := ih (lowerDefinition_built d hp h1) h
    refine ⟨hp', hbuilds.trans hbuilds', fun g hg hne => ?_⟩
    have hg1 := hother g hg (hne d mem_cons_self)
    rw [hother' g (hg.trans_le hbuilds.functions_le) fun d' hd' => ?_, hg1]
    rw [hg1]
    exact hne d' (mem_cons_of_mem _ hd')

end

/-! ### Names at the top of a text -/

/-- The functions that have a body so far are functions of the program, and each has only one. -/
structure TopLevel.Named (t : TopLevel) : Prop where
  nodup : t.withBody.Nodup
  has : ∀ name ∈ t.withBody, t.program.Has name

/-- Functions were declared, one after the other. -/
structure TopLevel.Declares (t t' : TopLevel) (ds : List FunctionDecl) : Prop where
  named : t'.Named
  has : ∀ name, t.program.Has name → t'.program.Has name
  has_of_mem : ∀ d ∈ ds, t'.program.Has d.name
  withBody : t'.withBody = ((ds.filter (·.body.isSome)).map (·.name)).reverse ++ t.withBody

section

variable {t t' : TopLevel} {d : FunctionDecl} {ds : List FunctionDecl}

theorem TopLevel.Declares.refl (h : t.Named) : t.Declares t [] :=
  ⟨h, fun _ => id, fun _ hd => (nomatch hd), rfl⟩

theorem TopLevel.Declares.trans {t'' : TopLevel} {ds' : List FunctionDecl} (h : t.Declares t' ds)
    (h' : t'.Declares t'' ds') : t.Declares t'' (ds ++ ds') where
  named := h'.named
  has name hn := h'.has name (h.has name hn)
  has_of_mem d hd := by
    rcases mem_append.1 hd with hd | hd
    · exact h'.has _ (h.has_of_mem d hd)
    · exact h'.has_of_mem d hd
  withBody := by
    rw [h'.withBody, h.withBody, filter_append, map_append, reverse_append, append_assoc]

/-- Functions of other names, or with other types, are functions of the same names. -/
theorem has_of_functions_eq {p q : Program} (h : q.functions = p.functions) {name : String}
    (hn : p.Has name) : q.Has name := by
  obtain ⟨f, hlt, hname⟩ := hn
  exact ⟨f, by rwa [h], by rw [Program.function, h]; exact hname⟩

theorem Program.AddsLeaves.functions_eq {p q : Program} (h : p.AddsLeaves q) :
    q.functions = p.functions := by
  rw [h.eq]

theorem declareGlobal_functions {d : VarDecl} (h : declareGlobal t d = .ok t') :
    t'.program.functions = t.program.functions ∧ t'.withBody = t.withBody := by
  unfold declareGlobal at h
  obtain ⟨-, -, h⟩ := Checked.bind_eq_ok.1 h
  split at h
  · cases h
    exact ⟨rfl, rfl⟩
  · next v init hv hinit =>
    split at h
    · cases h
    · obtain ⟨⟨q, value⟩, hq, h⟩ := Checked.bind_eq_ok.1 h
      cases h
      exact ⟨(constInit_addsLeaves init hq).functions_eq, rfl⟩
  · next init hv =>
    dsimp only at h
    split at h
    · next init hinit =>
      obtain ⟨⟨q, value⟩, hq, h⟩ := Checked.bind_eq_ok.1 h
      cases h
      exact ⟨(constInit_addsLeaves init hq).functions_eq, rfl⟩
    · cases h
      exact ⟨rfl, rfl⟩

/-- What declaring a function does: it is a function of the program then, and it had no body before
if it gets one. -/
theorem declareFunction_has (ht : t.Named) (h : declareFunction t d = .ok t') :
    (∀ name, t.program.Has name → t'.program.Has name) ∧ t'.program.Has d.name ∧
      t'.withBody = (if d.body.isSome then d.name :: t.withBody else t.withBody) ∧
      (d.body.isSome = true → d.name ∉ t.withBody) := by
  unfold declareFunction at h
  dsimp only at h
  split at h
  · next f hf =>
    split at h
    · cases h
    · next hnew =>
      cases h
      have hkeeps : ∀ name, t.program.Has name → Program.Has { t.program with
          functions := t.program.functions.modify f.index fun g =>
            { g with
              location := if d.body.isSome then d.location else g.location
              last := if d.body.isSome then d.last else g.last
              returns := d.returns
              paramTypes := d.params.map (·.type)
              variadic := d.variadic } } name := by
        rintro name ⟨g, hlt, hname⟩
        refine ⟨g, by rwa [Array.size_modify], ?_⟩
        rw [function_modify]
        split <;> exact hname
      refine ⟨hkeeps, hkeeps _ ⟨f, Program.of_functionNamed? hf⟩, rfl, fun hsome hmem => hnew ?_⟩
      rw [hsome, contains_iff_mem.2 hmem]
      rfl
  · next hf =>
    cases h
    have hself : ∀ name, t.program.Has name ∨ name = d.name → Program.Has { t.program with
        functions := t.program.functions.push
          ⟨d.name, d.returns, d.params.map (·.type), [], d.variadic, none, d.location, d.last⟩ }
        name := by
      rintro name (⟨g, hlt, hname⟩ | rfl)
      · refine ⟨g, hlt.trans (by rw [Array.size_push]; exact Nat.lt_succ_self _), ?_⟩
        rw [Program.function, Array.getElem?_push, if_neg hlt.ne]
        exact hname
      · refine ⟨⟨t.program.functions.size⟩, by rw [Array.size_push]; exact Nat.lt_succ_self _, ?_⟩
        rw [Program.function, Array.getElem?_push, if_pos rfl]
        rfl
    refine ⟨fun name hn => hself name (.inl hn), hself _ (.inr rfl), rfl, fun _ hmem => ?_⟩
    obtain ⟨f, hf'⟩ := (ht.has _ hmem).functionNamed?
    cases hf.symm.trans hf'

theorem declareFunction_declares (ht : t.Named) (h : declareFunction t d = .ok t') :
    t.Declares t' [d] := by
  obtain ⟨hkeeps, hself, hbodies, hnew⟩ := declareFunction_has ht h
  have hbodies' : t'.withBody = (([d].filter (·.body.isSome)).map (·.name)).reverse ++ t.withBody := by
    rw [hbodies, filter_singleton]
    cases d.body.isSome <;> rfl
  refine ⟨⟨?_, fun name hn => ?_⟩, hkeeps, fun d' hd' => mem_singleton.1 hd' ▸ hself, hbodies'⟩
  · rw [hbodies]
    split
    · next hsome => exact nodup_cons.2 ⟨hnew hsome, ht.nodup⟩
    · exact ht.nodup
  · rw [hbodies] at hn
    split at hn
    · rcases mem_cons.1 hn with rfl | hn
      · exact hself
      · exact hkeeps name (ht.has name hn)
    · exact hkeeps name (ht.has name hn)

/-- The functions that a text declares, from its items. -/
theorem declareItems_declares (items : List Item) (xs : List Expansion) (ht : t.Named)
    (h : items.foldlM declareItem t = .ok t') : t.Declares t' (SourceUnit.functions ⟨items, xs⟩) := by
  induction items generalizing t with
  | nil =>
    cases h
    exact .refl ht
  | cons item items ih =>
    rw [foldlM_cons] at h
    obtain ⟨t1, h1, hrest⟩ := Checked.bind_eq_ok.1 h
    cases item with
    | struct d =>
      cases h1
      exact ih ht hrest
    | global d =>
      obtain ⟨hfunctions, hbodies⟩ := declareGlobal_functions h1
      have hkeeps : ∀ name, t.program.Has name → t1.program.Has name := fun _ =>
        has_of_functions_eq hfunctions
      have ht1 : t1.Named := ⟨hbodies ▸ ht.nodup, fun name hn => hkeeps name (ht.has name (hbodies ▸ hn))⟩
      have hmore := ih ht1 hrest
      exact ⟨hmore.named, fun name hn => hmore.has name (hkeeps name hn), hmore.has_of_mem,
        hmore.withBody.trans (by rw [hbodies]; rfl)⟩
    | function d =>
      have hfirst := declareFunction_declares ht h1
      exact hfirst.trans (ih hfirst.named hrest)

end

/-! ### Walks through built functions -/

namespace Program

variable {p p' : Program} {f : FunctionId} {name : String}

theorem Builds.functionNamed? (h : p.Builds p') (hf : p.functionNamed? name = some f) :
    p'.functionNamed? name = some f := by
  obtain ⟨i, hi, rfl⟩ := Option.map_eq_some_iff.1 hf
  obtain ⟨hlt, hname, hfirst⟩ := Array.findIdx?_eq_some_iff_getElem.1 hi
  have hsame : ∀ j (hj : j < p.functions.size), ∃ hj' : j < p'.functions.size,
      p'.functions[j].name = p.functions[j].name := fun j hj => by
    have hj' := hj.trans_le h.functions_le
    refine ⟨hj', ?_⟩
    have hn := h.name_eq ⟨j⟩ hj
    rw [function, function, Array.getElem?_eq_getElem hj, Array.getElem?_eq_getElem hj'] at hn
    exact hn
  refine congrArg (Option.map FunctionId.mk) (Array.findIdx?_eq_some_iff_getElem.2 ?_)
  obtain ⟨hlt', hname'⟩ := hsame i hlt
  refine ⟨hlt', by rw [hname']; exact hname, fun j hj => ?_⟩
  obtain ⟨_, hname'⟩ := hsame j (hj.trans hlt)
  rw [hname']
  exact hfirst j hj

end Program

section

variable {p p' : Program} {f : FunctionId} {globals : Names} {d : FunctionDecl} {body : List Stmt}
  {file : String} {u : SourceUnit}

/-- The body that a function gets does what its text says, in every larger program. -/
theorem lowerFunction_walks (hp : p.Built globals) (hf : f.index < p.functions.size)
    (hs : everyOf Stmt.isStructured body = true) (h : lowerFunction globals p f d body = .ok p') :
    ∃ out, (p'.function f).body = some out ∧ ∀ q : Program, p'.Builds q → ∀ ω turns,
      (Terrain.mk q out.graph ω d.returns).Walks turns (followAll ω q turns body {}) := by
  obtain ⟨⟨vs, s⟩, hrun, h⟩ := Checked.bind_eq_ok.1 h
  obtain ⟨draft, rfl, hd, -⟩ := sends_lowerBody d body hp.linear hp.names hrun
  have hannounces : p.Announces draft.program := hd.announces
  dsimp only at h
  split at h
  · cases h
  · cases h
    refine ⟨⟨draft.state.graph, draft.state.locals.toList, .compute ⟨draft.state.program.exprs,
      fun v => !(draft.state.program.var v).hasGlobalStorage⟩ draft.state.graph⟩, ?_,
      fun q hq ω turns => ?_⟩
    · rw [function_modify, if_pos ⟨rfl, hf.trans_le hannounces.size_le⟩]
      rfl
    · refine walks_of_lowerBody hs hrun ?_ rfl
      let T : Terrain := ⟨q, draft.state.graph, ω, d.returns⟩
      exact covers_graph rfl hq.expr_eq hq.structs (leads_lowerBody (T := T) turns hs hrun).1.returns.symm

/-- **The walk through the graph of a function** does what the text of its body says, whatever the
oracle answers: for every function of a source unit whose body has no `goto` and no switch with two
default cases. -/
theorem Program.ofUnit_walks (h : Program.ofUnit u file = .ok p) (hd : d ∈ u.functions)
    (hbody : d.body = some body) (hs : everyOf Stmt.isStructured body = true) :
    ∃ f out, p.functionNamed? d.name = some f ∧ (p.function f).body = some out ∧
      ∀ ω turns, (Terrain.mk p out.graph ω d.returns).Walks turns (followAll ω p turns body {}) := by
  obtain ⟨q, hq, h⟩ := Checked.bind_eq_ok.1 h
  obtain ⟨t, ht, h⟩ := Checked.bind_eq_ok.1 h
  have hbuilt := (declareItems_plain hq ht).built
  have hnamed : TopLevel.Named ⟨q, [], []⟩ := ⟨.nil, fun _ hn => nomatch hn⟩
  have hdeclares := declareItems_declares u.items u.expansions hnamed ht
  obtain ⟨before, after, hsplit⟩ := append_of_mem hd
  have hsplit' : SourceUnit.functions ⟨u.items, u.expansions⟩ = before ++ d :: after := hsplit
  -- no other function with a body has the same name
  have hother : ∀ d' ∈ after, d'.body.isSome = true → d.name ≠ d'.name := fun d' hd' hsome heq => by
    have hnodup := hdeclares.named.nodup
    rw [hdeclares.withBody, append_nil, nodup_reverse, hsplit', filter_append,
      filter_cons_of_pos (by rw [hbody]; rfl), map_append, map_cons] at hnodup
    refine (nodup_cons.1 (nodup_append.1 hnodup).2.1).1 ?_
    exact mem_map.2 ⟨d', mem_filter.2 ⟨hd', hsome⟩, heq.symm⟩
  rw [hsplit, foldlM_append] at h
  obtain ⟨p₁, h₁, h⟩ := Checked.bind_eq_ok.1 h
  rw [foldlM_cons] at h
  obtain ⟨p₂, h₂, h₃⟩ := Checked.bind_eq_ok.1 h
  obtain ⟨hbuilt₁, hbuilds₁, -⟩ := lowerDefinitions_builds before hbuilt h₁
  obtain ⟨f, hf⟩ := ((hdeclares.has_of_mem d hd).builds hbuilds₁).functionNamed?
  obtain ⟨hlt, hname⟩ := Program.of_functionNamed? hf
  obtain ⟨hbuilds₂, -⟩ := lowerDefinition_builds hbuilt₁ h₂
  obtain ⟨-, hbuilds₃, hsame⟩ := lowerDefinitions_builds after (lowerDefinition_built d hbuilt₁ h₂) h₃
  unfold lowerDefinition at h₂
  rw [hbody, hf] at h₂
  obtain ⟨out, hout, hwalks⟩ := lowerFunction_walks hbuilt₁ hlt hs h₂
  refine ⟨f, out, hbuilds₃.functionNamed? (hbuilds₂.functionNamed? hf), ?_, hwalks p hbuilds₃⟩
  rw [hsame f (hlt.trans_le hbuilds₂.functions_le) fun d' hd' hsome => ?_, hout]
  rw [hbuilds₂.name_eq f hlt, hname]
  exact hother d' hd' hsome

/-- The body of `void f(int n) { for (; n && 1; n) { switch (n) { case 0: continue; default: n;
case 1: break; } return; } }`. -/
def fallingBody : List Stmt :=
  let l : Location := ⟨1, 1⟩
  let n : Expr := .ident (.point l) "n"
  let number (value : Int) : Expr := .int (.point l) value
  [.forDo l none (some (.logical (.point l) .and n (number 1))) (some n) (.block l
    [.switch l n [(l, some (number 0), [.continue l]), (l, none, [.expr l n]),
      (l, some (number 1), [.break l])], .return l none])]

/-- The unit with the function of this body. -/
def fallingUnit : SourceUnit := .single .void [("n", .int)] fallingBody

/-- A loop around a switch whose cases continue the loop, fall through and break. -/
theorem Program.ofUnit_walks_falling : ∃ p, Program.ofUnit fallingUnit "a.c" = .ok p ∧
    everyOf Stmt.isStructured fallingBody = true ∧ ∃ d ∈ fallingUnit.functions,
      d.body = some fallingBody ∧ ∃ f out, p.functionNamed? d.name = some f ∧
        (p.function f).body = some out ∧ ∀ ω turns,
          (Terrain.mk p out.graph ω d.returns).Walks turns (followAll ω p turns fallingBody {}) := by
  have hbuilt : (Program.ofUnit fallingUnit "a.c").toOption.any (fun _ => true) = true := by
    decide +kernel
  have hs : everyOf Stmt.isStructured fallingBody = true := by decide
  obtain ⟨p, hu, -⟩ := exists_ok_of_any hbuilt
  exact ⟨p, hu, hs, _, mem_cons_self, rfl, ofUnit_walks hu mem_cons_self rfl hs⟩

end

end PathScout

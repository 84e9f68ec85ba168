import PathScout.Proofs.ScalarPaths

/-!
# Steps of a block and runs

Evaluating a step of a block in a state that stands for a configuration gives a state that stands
for the configuration after the step. The variables that are needed before the step are those that
are live before it.

* `Study.before`: what is live before a step, with `Study.mem_before`, `Study.mem_before_of_name`.
* `Study.Evaluates`: what it means that the evaluation of a step follows every run.
* `Study.evaluates_evalElement`: it does.
-/

namespace PathScout

open Exploring Naming

namespace Study

variable {k : Study} {e e' : Exploration} {c d z : Catalog} {P : Symbol → Prop} {s : State} {n : NodeId}
  {el : Element} {live : VarSet} {a place : ExprId} {x : VarId} {spot : Spot} {root : Bool}
  {r : Option Outcome}

/-! ### Live variables -/

/-- The variable is in the set. -/
def Live (live : VarSet) (x : VarId) : Prop := x.index ∈ live

/-- What is live before a step. -/
def before (k : Study) (el : Element) (live : VarSet) : VarSet :=
  Liveness.beforeElement k.program.scope k.assigned el live

/-- The step sets the variable without reading it. -/
def Overwrites (k : Study) (x : VarId) : Element → Prop
  | .expr a _ => ∃ place value, (k.program.expr a).op = .assign place value ∧
      (k.program.expr place).op = .var x
  | .decl y .. => y = x
  | _ => False

theorem expr_op_of_op? {op : Operation} (h : k.program.scope.op? a = some op) :
    (k.program.expr a).op = op := by
  obtain ⟨t, ht, hop⟩ := Option.map_eq_some_iff.1 h
  replace ht : k.program.exprs[a.index]? = some t := ht
  rw [Program.expr, ht]
  exact hop

theorem expr_op_of_named? (h : k.program.scope.named? a = some x) : (k.program.expr a).op = .var x := by
  unfold Liveness.Scope.named? at h
  split at h
  · next v t sp hv =>
    cases h
    replace hv : k.program.exprs[a.index]? = some ⟨.var x, t, sp⟩ := hv
    rw [Program.expr, hv]
    rfl
  · cases h

/-- What is live after a step is live before it, unless the step sets it. -/
theorem mem_before (hx : Live live x) (h : ¬ k.Overwrites x el) : Live (k.before el live) x := by
  have herase : ∀ {v : VarId}, v ≠ x → Live (VarSet.erase v.index live) x := fun hv =>
    VarSet.mem_erase.2 ⟨hx, fun he => hv (congrArg VarId.mk he).symm⟩
  cases el with
  | merge | «return» => exact hx
  | decl y init location => exact herase h
  | expr a root =>
    unfold before Liveness.beforeElement
    dsimp only
    split
    · next place value hop =>
      split
      · next v hv =>
        refine herase fun hvx => h ⟨place, value, expr_op_of_op? hop, ?_⟩
        exact hvx ▸ expr_op_of_named? hv
      · exact hx
    · split
      · exact VarSet.mem_insert.2 (.inr hx)
      · exact hx
    · exact hx

theorem not_overwrites (h : ∀ place value, (k.program.expr a).op ≠ .assign place value) :
    ¬ k.Overwrites x (.expr a root) := by
  rintro ⟨place, value, hop, -⟩
  exact h place value hop

/-- A variable is live before its name, if this is one that is read. -/
theorem mem_before_of_name (hop : (k.program.expr a).op = .var x) (hx : x ∈ k.vars)
    (ha : a ∉ k.assigned) : Live (k.before (.expr a root) live) x := by
  have hop? : k.program.scope.op? a = some (.var x) := by
    unfold Program.expr at hop
    cases ht : k.program.exprs[a.index]? with
    | none =>
      rw [ht] at hop
      cases hop
    | some t =>
      rw [ht] at hop
      exact Option.map_eq_some_iff.2 ⟨t, ht, hop⟩
  have htracked : k.program.scope.isTracked x = true := by
    show (!(k.program.var x).hasGlobalStorage) = true
    rcases List.mem_append.1 hx with hp | hl
    · obtain ⟨i, hi⟩ := k.isScalar.isParam x hp
      rw [Variable.hasGlobalStorage, hi]
      rfl
    · rw [Variable.hasGlobalStorage, k.isScalar.isLocal x hl]
      rfl
  have hassigned : k.assigned.contains a = false := by simpa using ha
  unfold before Liveness.beforeElement
  simp only [hop?, htracked, hassigned, Bool.not_false, Bool.and_self, if_true]
  exact VarSet.mem_insert.2 (.inl rfl)

/-! ### Evaluating a step -/

/-- The evaluation of a step in a state follows every run that does the step. -/
structure Evaluates (k : Study) (P : Symbol → Prop) (live : VarSet) (e : Exploration) (s : State)
    (el : Element) (r : Option Outcome) (e' : Exploration) : Prop where
  evolves : k.Evolves e e'
  tame {o : Outcome} : r = some o → o.call = none ∧ k.Tame e'.catalog P o.state
  keeps {z : Catalog} {κ κ' : Config} {α : Assignment} : e'.catalog ≤ z →
    k.Agrees z (Live (k.before el live)) s κ α → κ.act? k.program k.blank el = some κ' →
    ∃ o, r = some o ∧ k.Agrees z (Live live) o.state κ' α

/-- The place that the name of a variable stands for is one that can be accessed. -/
theorem meets_access (hs : k.Tame c P s) (hplace : k.program.IsName k.vars place) :
    k.Meets c P (.access (s.value topFrame place) place) := by
  obtain ⟨-, y, -, hop⟩ := hplace
  rcases hs.value_name hop with hu | ⟨r, hr, hv⟩
  · exact .inl hu
  · exact .inr ⟨y, r, hr, hv⟩

theorem read_eq (s : State) (location : Value) (e : Exploration) :
    read k.options s location .int e = .ok ((k.fetch s location e.catalog).1,
      { e with catalog := (k.fetch s location e.catalog).2 }) := by
  unfold Exploring.read fetch
  cases location.loc? with
  | none => rfl
  | some l => rfl

/-- A path that ends at an access to a variable stands for no run. -/
theorem Asks.evaluates_none {location : Value}
    (h : k.Asks P e s (.access location place) none e') : k.Evaluates P live e s el none e' :=
  ⟨h.evolves, fun ho => (nomatch ho), fun hz hagrees _ => absurd trivial (h.none_spec hz hagrees)⟩

/-- A path that goes on after an access to a variable can read it. -/
theorem Asks.fetches (h : k.Asks P e s (.access (s.value topFrame place) place) (some n) e')
    (he : k.Ready e) (hs : k.Tame e.catalog P s) (hP : ∀ r, P (.regionValue r .int))
    (hname : k.program.IsName k.vars place) :
    ∃ m, HasState e' n { s with constraints := m } ∧ k.Tame e'.catalog P { s with constraints := m } ∧
      (∀ {z live κ α}, e'.catalog ≤ z → k.Agrees z live s κ α →
        k.Agrees z live { s with constraints := m } κ α) ∧
      k.Fetches e'.catalog P { s with constraints := m } place
        (k.fetch { s with constraints := m } (s.value topFrame place) e'.catalog) := by
  obtain ⟨m, hstate, hs', hkeep⟩ := h.some_spec he hs
  exact ⟨m, hstate, hs', fun hz ha => hkeep hz ha trivial,
    fetches_fetch h.evolves.ready.regular hs' hP hname⟩

theorem evaluates_load (h : k.Ready e) (hn : HasState e n s) (hs : k.Tame e.catalog P s)
    (hP : ∀ r, P (.regionValue r .int)) (hspot : spot.frame = topFrame)
    (hop : (k.program.expr a).op = .load place) (ha : k.program.ScalarExpr k.vars k.assigned a)
    (hrun : evalLoad k.options spot n a place e = .ok (r, e')) :
    k.Evaluates P live e s (.expr a root) r e' := by
  obtain ⟨htype, hscalar⟩ := ha
  simp only [hop] at hscalar
  obtain ⟨hname, hread⟩ := hscalar
  have hnumeric : k.IsNumeric a := fun y hy => by cases hop.symm.trans hy
  unfold evalLoad stateOf ask Spot.before at hrun
  rw [query_bind, hn.state_eq, hspot] at hrun
  obtain ⟨r', d, hask, hrest⟩ := bind_eq_ok.1 hrun
  have hasks := asks_consult h hn hs hP (meets_access hs hname) hask
  cases r' with
  | none =>
    obtain ⟨rfl, rfl⟩ := pure_eq_ok.1 hrest
    exact hasks.evaluates_none
  | some n' =>
    obtain ⟨m, hstate, hs', hkeep, hfetch⟩ := hasks.fetches h hs hP hname
    have hd := hasks.evolves.ready
    simp only [query_bind, hstate.state_eq, hd.regular.program, htype] at hrest
    obtain ⟨v, d', hv, hlast⟩ := bind_eq_ok.1 hrest
    rw [read_eq] at hv
    cases hv
    obtain ⟨rfl, rfl⟩ := pure_eq_ok.1 hlast
    refine ⟨hasks.evolves.trans (evolves_naming hd hfetch.le hfetch.regular), ?_, ?_⟩
    · rintro o ⟨⟩
      exact ⟨rfl, (hs'.mono hd.regular hfetch.le).bindNumber hnumeric hfetch.plain⟩
    · intro z κ κ' α hz hagrees hact
      obtain ⟨y, i, hy, hi, rfl⟩ := Config.evaluate?_load hact hop
      have hagrees' := hkeep (hfetch.le.trans hz) hagrees
      refine ⟨_, rfl, hspot ▸ hagrees'.setInt (hfetch.denotes hz hagrees' hy hi hread)
        (hagrees'.varDomain hi) fun w hw => mem_before hw (not_overwrites fun _ _ hop' => ?_)⟩
      cases hop.symm.trans hop'

section

variable {v : Value} {i : Int}

theorem evaluate?_int (hc : c.program = k.program) (hop : (k.program.expr a).op = .int i)
    (htype : (k.program.expr a).type = .int) :
    s.evaluate? topFrame a c = (some (.ofInt i .int), c) := by
  simp only [State.evaluate?, bind_apply, query_apply, hc, hop, htype, pure_apply]

theorem evaluate?_var (hc : c.program = k.program) (hop : (k.program.expr a).op = .var x) :
    s.evaluate? topFrame a c = (some (.pointer (var x topFrame c).1), (var x topFrame c).2) := by
  simp only [State.evaluate?, bind_apply, query_apply, hc, hop, pure_apply]

theorem evaluate?_unary {op : ValueOp} {b : ExprId} (hc : c.program = k.program)
    (hop : (k.program.expr a).op = .unary op b) (htype : (k.program.expr a).type = .int) :
    s.evaluate? topFrame a c = (some (unary op (s.value topFrame b) .int c).1,
      (unary op (s.value topFrame b) .int c).2) := by
  simp only [State.evaluate?, bind_apply, query_apply, hc, hop, htype, pure_apply]

theorem evaluate?_binary {op : BinaryOp} {l r : ExprId} (hc : c.program = k.program)
    (hop : (k.program.expr a).op = .binary op l r) (htype : (k.program.expr a).type = .int)
    (hl : (k.program.expr l).type = .int) :
    s.evaluate? topFrame a c = (some (binary op (s.value topFrame l) (s.value topFrame r) .int c).1,
      (binary op (s.value topFrame l) (s.value topFrame r) .int c).2) := by
  have hpointer : ¬ (op = .sub ∧ CType.int.isPointer = true ∧ (k.program.expr r).type.isPointer = true) := by
    rintro ⟨-, hp, -⟩
    cases hp
  simp only [State.evaluate?, bind_apply, query_apply, hc, hop, htype, hl, ite_apply,
    if_neg hpointer, pure_apply]

/-- An expression that is no access to a place has a value that depends on those of its operands. -/
theorem evalExpr_eq_ok (h : k.Ready e) (hn : HasState e n s) (hspot : spot.frame = topFrame)
    (hv : s.evaluate? topFrame a e.catalog = (some v, c))
    (hrun : evalExpr k.options spot n a e = .ok (r, e')) :
    r = some ⟨n, s.bindExpr topFrame a v, none⟩ ∧ e' = { e with catalog := c } := by
  have hc := h.regular.program
  unfold evalExpr stateOf at hrun
  rw [query_bind, hc] at hrun
  cases hop : (k.program.expr a).op with
  | load | assign | compound | incDec | call =>
    simp only [State.evaluate?, bind_apply, query_apply, hc, hop, pure_apply] at hv
    cases hv
  | _ =>
    simp only [hop, query_bind, hn.state_eq, naming_bind, hspot, hv] at hrun
    exact ⟨(pure_eq_ok.1 hrun).1.symm, (pure_eq_ok.1 hrun).2.symm⟩

/-- A joined expression was set on the way. -/
theorem evalExpr_join (h : k.Ready e) (hn : HasState e n s) (hop : (k.program.expr a).op = .join)
    (hrun : evalExpr k.options spot n a e = .ok (r, e')) : r = some ⟨n, s, none⟩ ∧ e' = e := by
  unfold evalExpr stateOf at hrun
  simp only [query_bind, h.regular.program, hop, hn.state_eq, naming_bind, State.evaluate?, bind_apply,
    query_apply, pure_apply] at hrun
  exact ⟨(pure_eq_ok.1 hrun).1.symm, (pure_eq_ok.1 hrun).2.symm⟩

/-- What declaring a scalar variable comes to, once its region is named: it is forgotten, or it gets the
values of a list or of an expression. -/
theorem evalDecl_cases {v : VarId} {init : Option DeclInit} {location : Location} (h : k.Ready e)
    (hn : HasState e n s) (hs : k.Tame e.catalog P s) (hspot : spot.frame = topFrame) (hv : v ∈ k.vars)
    (hrun : evalDecl k.options spot n v init location e = .ok (r, e')) :
    ∃ q c, e.catalog ≤ c ∧ k.Regular c ∧ c.IsVar topFrame v q ∧ k.Tame c P s ∧
      k.Evolves e { e with catalog := c } ∧
      ((init = none ∧ r = some ⟨n, s.kill c q, none⟩ ∧ e' = { e with catalog := c }) ∨
        (∃ entries, init = some (.list entries) ∧
          r = some ⟨n, (s.writeList k.options.store topFrame q .int entries c).1, none⟩ ∧
          e' = { e with catalog := (s.writeList k.options.store topFrame q .int entries c).2 }) ∨
        ∃ a r', init = some (.expr a) ∧ r = r'.map (fun o => ⟨o.1, o.2, none⟩) ∧
          store k.options spot n (.pointer q) (s.value topFrame a)
            ⟨location, (k.program.expr a).span.last⟩ { e with catalog := c } = .ok (r', e')) := by
  have hle := grows_var v topFrame e.catalog
  have hc := h.regular.var v topFrame
  unfold evalDecl stateOf at hrun
  simp only [query_bind, hn.state_eq, hspot, naming_bind] at hrun
  refine ⟨_, _, hle, hc, Catalog.isVar_var v topFrame e.catalog, hs.mono h.regular hle,
    evolves_naming h hle hc, ?_⟩
  rw [hc.program, k.isScalar_type hv] at hrun
  match init with
  | none =>
    obtain ⟨rfl, rfl⟩ := pure_eq_ok.1 hrun
    exact .inl ⟨rfl, rfl, rfl⟩
  | some (.list entries) =>
    obtain ⟨rfl, rfl⟩ := pure_eq_ok.1 hrun
    exact .inr (.inl ⟨entries, rfl, rfl, rfl⟩)
  | some (.expr a) =>
    obtain ⟨r', d, hstore, hlast⟩ := bind_eq_ok.1 hrun
    refine .inr (.inr ⟨a, r', rfl, ?_⟩)
    cases r' <;>
    · obtain ⟨rfl, rfl⟩ := pure_eq_ok.1 hlast
      exact ⟨rfl, hstore⟩

end

/-- An expression whose value depends on those of its operands. -/
theorem evaluates_value {v : Value} (h : k.Ready e) (hle : e.catalog ≤ c) (hc : k.Regular c)
    (htame : k.Tame c P (s.bindExpr topFrame a v))
    (hkeep : ∀ {z κ κ' α}, c ≤ z → k.Agrees z (Live (k.before (.expr a root) live)) s κ α →
      κ.evaluate? k.program a = some κ' →
      k.Agrees z (Live live) (s.bindExpr topFrame a v) κ' α) :
    k.Evaluates P live e s (.expr a root) (some ⟨n, s.bindExpr topFrame a v, none⟩)
      { e with catalog := c } where
  evolves := evolves_naming h hle hc
  tame ho := by
    cases ho
    exact ⟨rfl, htame⟩
  keeps hz hagrees hact := ⟨_, rfl, hkeep hz hagrees hact⟩

/-- A number that an operator computes. -/
theorem evaluates_number {out : Value × Catalog} {result : Assignment → Int → Prop} (h : k.Ready e)
    (hs : k.Tame e.catalog P s) (hnumeric : k.IsNumeric a)
    (hassign : ∀ place value, (k.program.expr a).op ≠ .assign place value)
    (hout : Computes e.catalog P out result)
    (hrun : ∀ {z live κ κ' α}, e.catalog ≤ z → k.Agrees z live s κ α →
      κ.evaluate? k.program a = some κ' →
      ∃ i, κ' = κ.setExpr a (.int i) ∧ result α i ∧ i ∈ CType.int.domain) :
    k.Evaluates P live e s (.expr a root) (some ⟨n, s.bindExpr topFrame a out.1, none⟩)
      { e with catalog := out.2 } := by
  refine evaluates_value h hout.le (h.regular.of_computes hout)
    ((hs.mono h.regular hout.le).bindNumber hnumeric hout.plain) ?_
  intro z κ κ' α hz hagrees hact
  obtain ⟨i, rfl, hi, hdomain⟩ := hrun (hout.le.trans hz) hagrees hact
  exact hagrees.setInt ((hout.denotes hi).mono hout.plain hz) hdomain fun w hw =>
    mem_before hw (not_overwrites hassign)

/-! ### Assignments -/

/-- The place that an assignment writes to. -/
def target? : Operation → Option ExprId
  | .assign place _ | .compound _ place _ | .incDec place _ _ => some place
  | _ => none

/-- What an assignment stores and what its own value is: numbers, which stand for those of a run. -/
structure Updates (k : Study) (c : Catalog) (P : Symbol → Prop) (s : State) (a place : ExprId)
    (old : Value) (out : (Value × Value) × Catalog) : Prop where
  le : c ≤ out.2
  regular : k.Regular out.2
  plain : out.1.1.Plain out.2 P ∧ out.1.2.Plain out.2 P
  denotes {z : Catalog} {live : VarId → Prop} {κ κ' : Config} {α : Assignment} : out.2 ≤ z →
    k.Agrees z live s κ α →
    (∀ y i, place ∉ k.assigned → κ.place? place = some y → κ.vars y = some i →
      old.Denotes z α i) →
    κ.evaluate? k.program a = some κ' →
    ∃ y i j, κ.place? place = some y ∧ κ' = (κ.setVar y (some i)).setExpr a (.int j) ∧
      (out.1.1.Denotes z α i ∧ i ∈ CType.int.domain) ∧ out.1.2.Denotes z α j ∧
      j ∈ CType.int.domain

theorem updates_updated {old : Value} (hc : k.Regular c) (hs : k.Tame c P s)
    (hold : old.Plain c P) (ha : k.program.ScalarExpr k.vars k.assigned a)
    (htarget : target? (k.program.expr a).op = some place) :
    k.Updates c P s a place old (s.updated topFrame (k.program.expr a) old c) := by
  obtain ⟨htype, ha⟩ := ha
  unfold State.updated
  rw [htype]
  cases hop : (k.program.expr a).op with
  | assign place' value =>
    simp only [hop] at ha htarget ⊢
    cases htarget
    have hplain := hs.plain_value ha.2.2
    refine ⟨le_rfl, hc, ⟨hplain, hplain⟩, fun {z live κ κ' α} _ hagrees _ hact => ?_⟩
    obtain ⟨y, i, hy, hi, rfl⟩ := Config.evaluate?_assign hact hop
    exact ⟨y, i, i, hy, rfl, hagrees.value_int hi, hagrees.value_int hi⟩
  | compound op place' value =>
    simp only [hop] at ha htarget ⊢
    cases htarget
    have hvalue := hs.plain_value ha.2.2.2
    have hcomp := computes_binary hc.arithmetic op hold hvalue
    refine ⟨hcomp.le, hc.of_computes hcomp, ⟨hcomp.plain, hcomp.plain⟩,
      fun {z live κ κ' α} hz hagrees hreads hact => ?_⟩
    obtain ⟨y, i, b, j, hy, hi, hb, hj, rfl⟩ := Config.evaluate?_compound hact hop
    have hcz := hcomp.le.trans hz
    have hden := (hcomp.denotes ⟨i, b, (hreads y i ha.2.1 hy hi).of_le hold hcz,
      (hagrees.value_int hb).1.of_le hvalue hcz, hj⟩).mono hcomp.plain hz
    have hdomain := mem_domain_of_foldInts rfl hj
    exact ⟨y, j, j, hy, rfl, ⟨hden, hdomain⟩, hden, hdomain⟩
  | incDec place' increment first =>
    simp only [hop] at ha htarget ⊢
    cases htarget
    have hone : (Value.ofInt 1 .int).Plain c P := trivial
    have hcomp := computes_binary hc.arithmetic (if increment then .add else .sub) hold hone
    refine ⟨hcomp.le, hc.of_computes hcomp, ⟨hcomp.plain, ?_⟩,
      fun {z live κ κ' α} hz hagrees hreads hact => ?_⟩
    · cases first with
      | true => exact hcomp.plain
      | false => exact hold.mono hcomp.le
    · obtain ⟨y, i, j, hy, hi, hj, rfl⟩ := Config.evaluate?_incDec hact hop
      have hcz := hcomp.le.trans hz
      have hi' := hreads y i ha.2 hy hi
      have hden := (hcomp.denotes ⟨i, 1, hi'.of_le hold hcz,
        show CType.int.wrap 1 = 1 by decide, hj⟩).mono hcomp.plain hz
      have hdomain := mem_domain_of_foldInts rfl hj
      refine ⟨y, j, _, hy, rfl, ⟨hden, hdomain⟩, ?_⟩
      cases first with
      | true => exact ⟨hden, hdomain⟩
      | false => exact ⟨hi', hagrees.varDomain hi⟩
  | _ =>
    rw [hop] at htarget
    cases htarget

/-- The name that a run evaluated to a place is the name of its variable. -/
theorem var_eq_of_place? {live : VarId → Prop} {κ : Config} {α : Assignment} {y : VarId}
    (hs : k.Tame c P s) (hcz : c ≤ z) (hagrees : k.Agrees z live s κ α)
    (hop : (k.program.expr place).op = .var x) (hy : κ.place? place = some y) :
    y = x ∧ ∃ r, c.IsVar topFrame x r ∧ s.value topFrame place = .pointer r := by
  obtain ⟨-, -, q, hq, hv⟩ := hagrees.value_place hy
  rcases hs.value_name hop with hu | ⟨r, hr, hv'⟩
  · cases hu.symm.trans hv
  · cases hv.symm.trans hv'
    exact ⟨hq.var_eq (hr.mono hcz), q, hr, hv'⟩

/-- Writing a number to a place that stands for a variable. -/
structure Writes (k : Study) (P : Symbol → Prop) (live : VarSet) (e : Exploration) (s : State)
    (location value : Value) (x : VarId) (r : Option (NodeId × State)) (e' : Exploration) :
    Prop where
  evolves : k.Evolves e e'
  tame {o : NodeId × State} : r = some o → k.Tame e'.catalog P o.2
  keeps {z : Catalog} {live' : VarId → Prop} {κ : Config} {α : Assignment} {i : Int} :
    e'.catalog ≤ z → k.Agrees z live' s κ α → value.Denotes z α i → i ∈ CType.int.domain →
    location ≠ .unknown → (∀ y, y ≠ x → Live live y → live' y) →
    ∃ o, r = some o ∧ k.Agrees z (Live live) o.2 (κ.setVar x (some i)) α

theorem writes_store {location value : Value} {span : Span} (h : k.Ready e) (hn : HasState e n s)
    (hs : k.Tame e.catalog P s) (hP : ∀ r, P (.regionValue r .int)) (hspot : spot.frame = topFrame)
    (hx : x ∈ k.vars)
    (hlocation : location = .unknown ∨ ∃ r, e.catalog.IsVar topFrame x r ∧ location = .pointer r)
    (hvalue : value.Plain e.catalog P) {r : Option (NodeId × State)}
    (hrun : store k.options spot n location value span e = .ok (r, e')) :
    k.Writes P live e s location value x r e' := by
  unfold store ask Spot.before at hrun
  rw [hspot] at hrun
  obtain ⟨r', d, hask, hrest⟩ := bind_eq_ok.1 hrun
  have hmeets : k.Meets e.catalog P (.write location value span) := hvalue
  have hasks := asks_consult h hn hs hP hmeets hask
  cases r' with
  | none =>
    obtain ⟨rfl, rfl⟩ := pure_eq_ok.1 hrest
    exact ⟨hasks.evolves, fun ho => (nomatch ho), fun hz hagrees hd _ _ _ =>
      absurd ⟨_, hd⟩ (hasks.none_spec hz hagrees)⟩
  | some n' =>
    obtain ⟨m, hstate, hs', hkeep⟩ := hasks.some_spec h hs
    have hd := hasks.evolves.ready
    simp only [stateOf, query_bind, hstate.state_eq] at hrest
    rcases hlocation with rfl | ⟨q, hq, rfl⟩
    · obtain ⟨rfl, rfl⟩ := pure_eq_ok.1 hrest
      refine ⟨hasks.evolves, ?_, fun _ _ _ _ hne _ => absurd rfl hne⟩
      rintro o ⟨⟩
      exact hs'
    · have hregion : (Value.pointer q).region? = some q := rfl
      simp only [hregion, naming_bind] at hrest
      obtain ⟨rfl, rfl⟩ := pure_eq_ok.1 hrest
      have hq' := hq.mono hasks.evolves.le
      have hvalue' := hvalue.mono hasks.evolves.le
      refine ⟨hasks.evolves, ?_, ?_⟩
      · rintro o ⟨⟩
        exact hs'.write hd.regular hx hq' hvalue'
      · intro z live' κ α i hz hagrees hden hdomain _ hlive
        have hagrees' := hkeep hz hagrees ⟨i, hden⟩
        exact ⟨_, rfl, hagrees'.write hd.regular hx hz hq' hvalue' hden hdomain hlive⟩

section

variable (h : k.Ready e) (hn : HasState e n s) (hs : k.Tame e.catalog P s)
  (hP : ∀ r, P (.regionValue r .int)) (hspot : spot.frame = topFrame)
include h hn hs hP hspot

theorem evaluates_store (ha : k.program.ScalarExpr k.vars k.assigned a)
    (htarget : target? (k.program.expr a).op = some place) (hname : k.program.IsName k.vars place)
    (hrun : evalStore k.options spot n a place e = .ok (r, e')) :
    k.Evaluates P live e s (.expr a root) r e' := by
  obtain ⟨hplace, x, hx, hop⟩ := id hname
  have hnumeric : k.IsNumeric a := fun y hy => by
    rw [hy] at htarget
    cases htarget
  unfold evalStore stateOf ask Spot.before at hrun
  simp only [query_bind, hn.state_eq, hspot, h.regular.program] at hrun
  obtain ⟨r', d, hask, hrest⟩ := bind_eq_ok.1 hrun
  have hasks := asks_consult h hn hs hP (meets_access hs hname) hask
  cases r' with
  | none =>
    obtain ⟨rfl, rfl⟩ := pure_eq_ok.1 hrest
    exact hasks.evaluates_none
  | some n' =>
    obtain ⟨m, hstate, hs', hkeep, hfetch⟩ := hasks.fetches h hs hP hname
    have hd := hasks.evolves.ready
    simp only [query_bind, hstate.state_eq, hplace] at hrest
    obtain ⟨v, d', hv, hrest'⟩ := bind_eq_ok.1 hrest
    rw [read_eq] at hv
    generalize k.fetch { s with constraints := m } (s.value topFrame place) d.catalog = old at hfetch hv
    cases hv
    have hread := evolves_naming hd hfetch.le hfetch.regular
    have hs1 := hs.mono h.regular (hasks.evolves.le.trans hfetch.le)
    have hup := updates_updated hfetch.regular hs1 hfetch.plain ha htarget
    rw [naming_bind] at hrest'
    dsimp only at hrest'
    generalize s.updated topFrame (k.program.expr a) old.1 old.2 = new at hup hrest'
    have hupdate := evolves_naming hread.ready hup.le hup.regular
    obtain ⟨r'', d', hstore, hlast⟩ := bind_eq_ok.1 hrest'
    have hlocation : s.value topFrame place = .unknown ∨ ∃ q, new.2.IsVar topFrame x q ∧
        s.value topFrame place = .pointer q :=
      (hs1.value_name hop).imp_right fun ⟨q, hq, hv⟩ => ⟨q, hq.mono hup.le, hv⟩
    have hs2 := (hs'.mono hd.regular hfetch.le).mono hfetch.regular hup.le
    have hwrites : k.Writes P live _ _ _ _ _ _ _ := writes_store hupdate.ready
      ((hstate.mono hread).mono hupdate) hs2 hP hspot hx hlocation hup.plain.1 hstore
    have hevolves := ((hasks.evolves.trans hread).trans hupdate).trans hwrites.evolves
    -- what a run does
    have hfollow : ∀ {z κ κ' α}, d'.catalog ≤ z →
        k.Agrees z (Live (k.before (.expr a root) live)) s κ α →
        κ.evaluate? k.program a = some κ' → ∃ o, r'' = some o ∧
          k.Agrees z (Live live) (o.2.bindExpr topFrame a new.1.2) κ' α := by
      intro z κ κ' α hz hagrees hact
      have hz2 := hwrites.evolves.le.trans hz
      have hz1 := hup.le.trans hz2
      have hagrees' := hkeep (hfetch.le.trans hz1) hagrees
      obtain ⟨y, i, j, hy, rfl, ⟨hstored, hi⟩, hresult, hj⟩ := hup.denotes hz2 hagrees
        (fun y i hna hy hi => hfetch.denotes hz1 hagrees' hy hi hna) hact
      obtain ⟨rfl, q, -, hq⟩ := var_eq_of_place? hs1 hz1 hagrees hop hy
      obtain ⟨o, ho, hagrees''⟩ := hwrites.keeps hz hagrees' hstored hi
        (by rw [hq]; exact nofun) fun w hw hlive => mem_before hlive (by
          rintro ⟨place', value, hop', hname'⟩
          rw [hop'] at htarget
          cases htarget
          cases hname'.symm.trans hop
          exact hw rfl)
      exact ⟨o, ho, hagrees''.setInt hresult hj fun w hw => hw⟩
    cases r'' with
    | none =>
      obtain ⟨rfl, rfl⟩ := pure_eq_ok.1 hlast
      refine ⟨hevolves, fun ho => (nomatch ho), fun hz hagrees hact => ?_⟩
      obtain ⟨o, ho, -⟩ := hfollow hz hagrees hact
      cases ho
    | some o =>
      obtain ⟨rfl, rfl⟩ := pure_eq_ok.1 hlast
      refine ⟨hevolves, ?_, fun hz hagrees hact => ?_⟩
      · rintro _ ⟨⟩
        exact ⟨rfl, (hwrites.tame rfl).bindNumber hnumeric (hup.plain.2.mono hwrites.evolves.le)⟩
      · obtain ⟨_, ⟨⟩, hagrees'⟩ := hfollow hz hagrees hact
        exact ⟨_, rfl, hagrees'⟩

theorem evaluates_evalExpr (ha : k.program.ScalarExpr k.vars k.assigned a)
    (hrun : evalExpr k.options spot n a e = .ok (r, e')) :
    k.Evaluates P live e s (.expr a root) r e' := by
  have hc := h.regular
  obtain ⟨htype, hscalar⟩ := id ha
  cases hop : (k.program.expr a).op with
  | load place =>
    unfold evalExpr at hrun
    simp only [query_bind, hc.program, hop] at hrun
    exact evaluates_load h hn hs hP hspot hop ha hrun
  | int i =>
    obtain ⟨rfl, rfl⟩ := evalExpr_eq_ok h hn hspot (evaluate?_int hc.program hop htype) hrun
    have hcomp : Computes e.catalog P (.int (CType.int.wrap i), e.catalog)
      fun _ m => CType.int.wrap i = m := computes_of_eq hc.arithmetic trivial id
    refine evaluates_number h hs (fun y hy => by cases hop.symm.trans hy)
      (fun _ _ hy => by cases hop.symm.trans hy) hcomp ?_
    intro z live κ κ' α _ _ hact
    simp only [Config.evaluate?, hop, Option.some.injEq] at hact
    exact ⟨_, hact.symm, rfl, wrap_int_mem_domain i⟩
  | var v =>
    simp only [hop] at hscalar
    obtain ⟨rfl, rfl⟩ := evalExpr_eq_ok h hn hspot (evaluate?_var hc.program hop) hrun
    have hle := grows_var v topFrame e.catalog
    have hvar := Catalog.isVar_var v topFrame e.catalog
    refine evaluates_value h hle (hc.var v topFrame) ((hs.mono hc hle).bindName hop hvar) ?_
    intro z κ κ' α hz hagrees hact
    simp only [Config.evaluate?, hop, Option.some.injEq] at hact
    subst hact
    refine hagrees.setExpr ⟨hscalar, _, hvar.mono hz, rfl⟩ fun y hy => ?_
    rcases hy with hlive | ⟨b, hb, hread⟩
    · exact .inl (mem_before hlive (not_overwrites fun _ _ hy => by cases hop.symm.trans hy))
    · simp only [Config.setExpr] at hb
      split at hb
      · next hba =>
        -- the name itself: the variable is live before it, if it is read
        cases hb
        subst hba
        exact .inl (mem_before_of_name hop hscalar hread)
      · exact .inr ⟨b, hb, hread⟩
  | unary op b =>
    simp only [hop] at hscalar
    obtain ⟨rfl, rfl⟩ := evalExpr_eq_ok h hn hspot (evaluate?_unary hc.program hop htype) hrun
    have hplain := hs.plain_value hscalar.2
    refine evaluates_number h hs (fun y hy => by cases hop.symm.trans hy)
      (fun _ _ hy => by cases hop.symm.trans hy) (computes_unary hc.arithmetic op hplain) ?_
    intro z live κ κ' α hz hagrees hact
    obtain ⟨i, j, hi, hj, rfl⟩ := Config.evaluate?_unary hact hop
    exact ⟨j, rfl, ⟨i, (hagrees.value_int hi).1.of_le hplain hz, hj⟩, mem_domain_of_foldUnary hj⟩
  | binary op l r =>
    simp only [hop] at hscalar
    obtain ⟨hl, hr⟩ := hscalar
    obtain ⟨rfl, rfl⟩ := evalExpr_eq_ok h hn hspot (evaluate?_binary hc.program hop htype hl.1) hrun
    have hpl := hs.plain_value hl.2
    have hpr := hs.plain_value hr.2
    refine evaluates_number h hs (fun y hy => by cases hop.symm.trans hy)
      (fun _ _ hy => by cases hop.symm.trans hy) (computes_binary hc.arithmetic op hpl hpr) ?_
    intro z live κ κ' α hz hagrees hact
    obtain ⟨i, j, m, hi, hj, hm, rfl⟩ := Config.evaluate?_binary hact hop
    exact ⟨m, rfl, ⟨i, j, (hagrees.value_int hi).1.of_le hpl hz,
      (hagrees.value_int hj).1.of_le hpr hz, hm⟩, mem_domain_of_foldInts rfl hm⟩
  | join =>
    obtain ⟨rfl, rfl⟩ := evalExpr_join h hn hop hrun
    refine ⟨.refl h, ?_, fun {z κ κ' α} _ hagrees hact => ⟨_, rfl, ?_⟩⟩
    · rintro o ⟨⟩
      exact ⟨rfl, hs⟩
    · replace hact : κ.evaluate? k.program a = some κ' := hact
      simp only [Config.evaluate?, hop, Option.some.injEq] at hact
      subst hact
      exact hagrees.mono fun y hy =>
        mem_before hy (not_overwrites fun _ _ hy => by cases hop.symm.trans hy)
  | assign place value | compound op place value | incDec place increment first =>
    unfold evalExpr at hrun
    simp only [query_bind, hc.program, hop] at hrun hscalar
    exact evaluates_store h hn hs hP hspot ha (by rw [hop]; rfl) hscalar.1 hrun
  | _ => simp only [hop] at hscalar

/-! ### Declarations and returns -/

theorem evaluates_evalDecl {v : VarId} {init : Option DeclInit} {location : Location}
    (hel : k.program.ScalarElement k.vars k.assigned (.decl v init location))
    (hrun : evalDecl k.options spot n v init location e = .ok (r, e')) :
    k.Evaluates P live e s (.decl v init location) r e' := by
  obtain ⟨hv, hinit⟩ := hel
  have hlive : ∀ y, y ≠ v → Live live y → Live (k.before (.decl v init location) live) y :=
    fun y hy hl => mem_before hl hy.symm
  obtain ⟨q, c, -, hc, hvar, hs', hnaming, ⟨rfl, rfl, rfl⟩ | ⟨entries, rfl, rfl, rfl⟩ |
    ⟨a, r', rfl, rfl, hstore⟩⟩ := evalDecl_cases h hn hs hspot hv hrun
  · refine ⟨hnaming, ?_, fun {z κ κ' α} hz hagrees hact => ⟨_, rfl, ?_⟩⟩
    · rintro o ⟨⟩
      exact ⟨rfl, { hs' with store := hs'.store.kill q }⟩
    · cases hact
      exact hagrees.kill hc hs' hz hvar hlive
  · obtain ⟨hout, htame, -⟩ := writeList_spec (z := c) hc hv hvar hs' hinit hlive
    refine ⟨hnaming.trans (evolves_naming hnaming.ready hout.ge (hout.symm ▸ hc)), ?_,
      fun {z κ κ' α} hz hagrees hact => ⟨_, rfl, ?_⟩⟩
    · rintro o ⟨⟩
      exact ⟨rfl, hout.symm ▸ htame⟩
    · obtain ⟨-, -, hkeep⟩ := writeList_spec (z := z) hc hv hvar hs' hinit hlive
      exact hkeep κ κ' α (hout.ge.trans hz) hagrees hact
  · have hwrites : k.Writes P live _ _ _ _ _ _ _ := writes_store hnaming.ready
      (hn.mono hnaming) hs' hP hspot hv (.inr ⟨q, hvar, rfl⟩) (hs'.plain_value hinit.2) hstore
    have hfollow : ∀ {z κ κ' α}, e'.catalog ≤ z →
        k.Agrees z (Live (k.before (.decl v (some (.expr a)) location) live)) s κ α →
        κ.act? k.program k.blank (.decl v (some (.expr a)) location) = some κ' →
        ∃ o, r' = some o ∧ k.Agrees z (Live live) o.2 κ' α := by
      intro z κ κ' α hz hagrees hact
      obtain ⟨i, hi, hκ'⟩ := Option.bind_eq_some_iff.1 hact
      cases hκ'
      obtain ⟨hden, hdomain⟩ := hagrees.value_int hi
      exact hwrites.keeps hz hagrees hden hdomain nofun hlive
    refine ⟨hnaming.trans hwrites.evolves, ?_, fun hz hagrees hact => ?_⟩
    · rintro _ ho
      obtain ⟨o, rfl, rfl⟩ := Option.map_eq_some_iff.1 ho
      exact ⟨rfl, hwrites.tame rfl⟩
    · obtain ⟨o, rfl, hagrees'⟩ := hfollow hz hagrees hact
      exact ⟨_, rfl, hagrees'⟩

/-- **Evaluating a step follows every run that does the step.** -/
theorem evaluates_evalElement (hel : k.program.ScalarElement k.vars k.assigned el)
    (hrun : evalElement k.options spot n el e = .ok (r, e')) :
    k.Evaluates P live e s el r e' := by
  cases el with
  | expr a root => exact evaluates_evalExpr h hn hs hP hspot hel hrun
  | decl v init location => exact evaluates_evalDecl h hn hs hP hspot hel hrun
  | merge target value =>
    obtain ⟨⟨htype, hnumeric⟩, hvalue⟩ := hel
    unfold evalElement stateOf at hrun
    simp only [query_bind, hn.state_eq, hspot, h.regular.program, htype] at hrun
    obtain ⟨rfl, rfl⟩ := pure_eq_ok.1 hrun
    refine ⟨.refl h, ?_, fun {z κ κ' α} hz hagrees hact => ⟨_, rfl, ?_⟩⟩
    · rintro o ⟨⟩
      refine ⟨rfl, hs.bindNumber hnumeric ?_⟩
      cases value with
      | int i => trivial
      | expr a => exact hs.plain_value hvalue.2
    · have hlive : ∀ y, Live live y → Live (k.before (.merge target value) live) y := fun y hy => hy
      cases value with
      | int i =>
        cases hact
        exact hagrees.setInt (show CType.int.wrap i = _ from rfl) (wrap_int_mem_domain i) hlive
      | expr a =>
        obtain ⟨i, hi, hκ'⟩ := Option.bind_eq_some_iff.1 hact
        cases hκ'
        obtain ⟨hden, hdomain⟩ := hagrees.value_int hi
        exact hagrees.setInt hden hdomain hlive
  | «return» value location =>
    unfold evalElement stateOf at hrun
    simp only [query_bind, hn.state_eq, hspot] at hrun
    cases value with
    | none =>
      obtain ⟨rfl, rfl⟩ := pure_eq_ok.1 hrun
      refine ⟨.refl h, ?_, fun {z κ κ' α} hz hagrees hact => ⟨_, rfl, ?_⟩⟩
      · rintro o ⟨⟩
        exact ⟨rfl, hs⟩
      · cases hact
        exact hagrees
    | some a =>
      obtain ⟨rfl, rfl⟩ := pure_eq_ok.1 hrun
      refine ⟨.refl h, ?_, fun {z κ κ' α} hz hagrees hact => ⟨_, rfl, ?_⟩⟩
      · rintro o ⟨⟩
        exact ⟨rfl, hs.bindResult (hs.plain_value (hel a rfl).2)⟩
      · obtain ⟨i, hi, hκ'⟩ := Option.bind_eq_some_iff.1 hact
        cases hκ'
        exact hagrees.setResult (hagrees.value_int hi).1 fun y hy => hy

end

end Study

end PathScout

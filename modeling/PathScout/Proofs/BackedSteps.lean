import PathScout.Proofs.BackedStates

/-!
# Steps of a block in states that are backed

Evaluating a step in a state that is backed by runs gives a state that is backed by the same runs
after the step. A finding on the way is shown by one of the runs before the step.

* `Study.Performs`: what the evaluation of a step must be like.
* `Study.performs_evalExpr`, `Study.performs_evalDecl`: expressions and declarations.
* `Study.performs_evalElement`: all steps are like this.
-/

namespace PathScout.Study

open Exploring Naming

variable {k : Study} {e e' : Exploration} {c z : Catalog} {P : Symbol → Prop} {s : State} {n : NodeId}
  {el : Element} {live : VarSet} {a place : ExprId} {x : VarId} {spot : Spot} {root : Bool} {κ : Machine}
  {α : Assignment} {R : Machine → Prop} {n? : Option Int} {kind : PointKind} {v : Value}
  {r : Option Outcome}

/-- Evaluating a step leaves an exploration of which all findings occur, and a state that is backed
by the runs that did the step. -/
structure Performs (k : Study) (z : Catalog) (live : VarSet) (R : Machine → Prop) (el : Element)
    (r : Option Outcome) (e' : Exploration) : Prop where
  sure : k.Sure z e'
  backed {o : Outcome} : r = some o →
    k.Backed z (Live live) o.state fun κ' => ∃ κ, R κ ∧ κ.perform k.program k.blank el = κ'

/-- What a step shows in one of the runs is a finding of the exploration. -/
def Discloses (k : Study) (R : Machine → Prop) (el : Element) (kind : PointKind) : Prop :=
  ∀ {κ f}, R κ → κ.Shows k.program f el → k.Found f kind

/-- What is live after an expression is live before it, if it assigns to nothing. -/
theorem live_before (hassign : ∀ place value, (k.program.expr a).op ≠ .assign place value) (x : VarId)
    (hx : Live live x) : Live (k.before (.expr a root) live) x :=
  mem_before hx (not_overwrites hassign)

/-! ### Values -/

/-- An expression whose value is a number or undefined. -/
theorem Backed.number (h : k.Backed z (Live (k.before (.expr a root) live)) s R)
    (hnumeric : k.IsNumeric a) (hassign : ∀ place value, (k.program.expr a).op ≠ .assign place value)
    (hvalue : ∀ κ α, k.Mirrors z (Live (k.before (.expr a root) live)) s.env s.store κ α →
      ∃ n?, κ.evaluate k.program a = κ.setExpr a (.ofInt? n?) ∧ Expresses z α v n?) :
    k.Backed z (Live live) (s.bindExpr topFrame a v) fun κ' =>
      ∃ κ, R κ ∧ κ.perform k.program k.blank (.expr a root) = κ' := by
  refine h.map rfl fun κ α _ hmirrors => ?_
  obtain ⟨n?, heval, hexpresses⟩ := hvalue κ α hmirrors
  show k.Mirrors z _ _ _ (κ.evaluate k.program a) α
  rw [heval]
  exact hmirrors.setNumber hnumeric hexpresses (live_before hassign)

theorem performs_load (hsure : k.Sure z e) (h : k.Ready e) (hn : HasState e n s)
    (hs : k.Tame e.catalog P s) (hP : ∀ r, P (.regionValue r .int)) (hspot : spot.frame = topFrame)
    (hop : (k.program.expr a).op = .load place) (ha : k.program.ScalarExpr k.vars k.assigned a)
    (hback : k.Backed z (Live (k.before (.expr a root) live)) s R)
    (hrun : evalLoad k.options spot n a place e = .ok (r, e')) (hz : Within z e') :
    k.Performs z live R (.expr a root) r e' := by
  obtain ⟨htype, hscalar⟩ := ha
  simp only [hop] at hscalar
  obtain ⟨hname, hread⟩ := hscalar
  have hnumeric : k.IsNumeric a := fun y hy => by cases hop.symm.trans hy
  have hmeets := meets_access hs hname
  unfold evalLoad stateOf ask Spot.before at hrun
  rw [query_bind, hn.state_eq, hspot] at hrun
  -- looking at the place finds nothing
  obtain ⟨d, hd, ⟨hrest, hsure'⟩ | ⟨n', m, hrest, hstate, hs', hgoes⟩⟩ :=
    hsure.consult h hn hs hP hmeets hback (fun _ _ hflaw => hflaw.elim) hrun
  · obtain ⟨rfl, rfl⟩ := pure_eq_ok.1 hrest
    exact ⟨hsure' hz, nofun⟩
  · have hfetch := fetches_fetch hd.ready.regular hs' hP hname
    simp only [query_bind, hstate.state_eq, hd.ready.regular.program, htype] at hrest
    obtain ⟨v, d', hv, hlast⟩ := bind_eq_ok.1 hrest
    rw [read_eq] at hv
    cases hv
    obtain ⟨rfl, rfl⟩ := pure_eq_ok.1 hlast
    obtain ⟨hsure', hback'⟩ := hgoes (hz.of_evolves (evolves_naming hd.ready hfetch.le hfetch.regular))
    refine ⟨hsure'.naming _, ?_⟩
    rintro o ⟨⟩
    refine hback'.number hnumeric (fun _ _ hop' => by cases hop.symm.trans hop') fun κ α hmirrors => ?_
    refine ⟨κ.held? place, by simp only [Machine.evaluate, hop], ?_⟩
    exact Mirrors.fetch (s := { s with constraints := m }) hmirrors hd.ready.regular hs' hP hname
      hread hz.le

/-! ### Storing -/

/-- The state after a value is written to a place. -/
def written (k : Study) (s : State) (location value : Value) (c : Catalog) : State :=
  match location.region? with
  | some r => (s.write k.options.store r value c).1
  | none => s

/-- Writing a value. The runs are those before the value is written. -/
theorem sure_store {location value : Value} {span : Span} {live : VarId → Prop} (hsure : k.Sure z e)
    (h : k.Ready e) (hn : HasState e n s) (hs : k.Tame e.catalog P s)
    (hP : ∀ r, P (.regionValue r .int)) (hspot : spot.frame = topFrame)
    (hvalue : value.Plain e.catalog P) (hback : k.Backed z live s R)
    (hflaw : ∀ {κ α f}, R κ → k.Mirrors z live s.env s.store κ α →
      k.Flaw κ f (.write location value span) → k.Found f (.before spot.block spot.index))
    {r : Option (NodeId × State)}
    (hrun : store k.options spot n location value span e = .ok (r, e'))
    (hz : Within z e') :
    k.Sure z e' ∧ ∀ o, r = some o → ∃ m, k.Tame e'.catalog P { s with constraints := m } ∧
      k.Ready e' ∧ e.catalog ≤ e'.catalog ∧ k.Backed z live { s with constraints := m } R ∧
      o.2 = { k.written s location value e'.catalog with constraints := m } := by
  unfold store ask Spot.before at hrun
  rw [hspot] at hrun
  have hmeets : k.Meets e.catalog P (.write location value span) := hvalue
  obtain ⟨d, hd, ⟨hrest, hsure'⟩ | ⟨n', m, hrest, hstate, hs', hgoes⟩⟩ :=
    hsure.consult h hn hs hP hmeets hback hflaw hrun
  · obtain ⟨rfl, rfl⟩ := pure_eq_ok.1 hrest
    exact ⟨hsure' hz, nofun⟩
  · simp only [stateOf, query_bind, hstate.state_eq] at hrest
    have hsame : e' = d ∧ ∀ o, r = some o →
        o.2 = { k.written s location value d.catalog with constraints := m } := by
      unfold written
      cases hregion : location.region? with
      | none =>
        simp only [hregion] at hrest
        obtain ⟨rfl, rfl⟩ := pure_eq_ok.1 hrest
        refine ⟨rfl, ?_⟩
        rintro o ⟨⟩
        rfl
      | some q =>
        simp only [hregion, naming_bind] at hrest
        obtain ⟨rfl, rfl⟩ := pure_eq_ok.1 hrest
        refine ⟨rfl, ?_⟩
        rintro o ⟨⟩
        rfl
    obtain ⟨rfl, hstored⟩ := hsame
    obtain ⟨hsure', hback'⟩ := hgoes hz
    exact ⟨hsure', fun o ho => ⟨m, hs', hd.ready, hd.le, hback', hstored o ho⟩⟩

/-- What an assignment does in a run. -/
theorem evaluate_store (htarget : target? (k.program.expr a).op = some place) (κ : Machine) :
    κ.evaluate k.program a = (κ.put k.program place (κ.stored? (k.program.expr a).op)).setExpr a
      (.ofInt? (κ.assigned? (k.program.expr a).op)) := by
  unfold Machine.evaluate
  cases hop : (k.program.expr a).op with
  | assign | compound | incDec =>
    rw [hop] at htarget
    cases htarget
    rfl
  | _ =>
    rw [hop] at htarget
    cases htarget

/-- A run that assigns an undefined value. -/
theorem storesGarbage (htarget : target? (k.program.expr a).op = some place)
    (hstored : κ.stored? (k.program.expr a).op = none) : κ.StoresGarbage k.program a := by
  unfold Machine.StoresGarbage
  cases hop : (k.program.expr a).op with
  | assign | compound | incDec =>
    rw [hop] at hstored
    exact hstored
  | _ =>
    rw [hop] at htarget
    cases htarget

/-- What stands for no number if it is undefined. -/
theorem Expresses.eq_none (h : Expresses z α v n?) (hv : v.isUndefined = true) : n? = none := by
  by_contra hsome
  obtain ⟨n, hn⟩ := Option.ne_none_iff_exists'.1 hsome
  cases (h n hn).2.isUndefined_eq.symm.trans hv

theorem env_written (s : State) (location value : Value) (c : Catalog) :
    (k.written s location value c).env = s.env := by
  unfold written
  cases location.region? with
  | none => rfl
  | some r => rfl

/-- Ranges do not matter for what is written. -/
theorem written_withConstraints (s : State) (m : Constraints) (location value : Value) (c : Catalog) :
    k.written { s with constraints := m } location value c =
      { k.written s location value c with constraints := m } := by
  unfold written
  cases location.region? with
  | none => rfl
  | some r => rfl

/-- The state after an assignment. -/
theorem Backed.store {m : Constraints} {stored result : Value}
    (h : k.Backed z (Live (k.before (.expr a root) live)) { s with constraints := m } R)
    (hc : k.Regular c) (hs : k.Tame c P s) (hcz : c ≤ z) (hstored : stored.Plain c P)
    (htarget : target? (k.program.expr a).op = some place) (hname : k.program.IsName k.vars place)
    (hexpresses : ∀ κ α, k.Mirrors z (Live (k.before (.expr a root) live)) s.env s.store κ α →
      Expresses z α stored (κ.stored? (k.program.expr a).op) ∧
        Expresses z α result (κ.assigned? (k.program.expr a).op)) :
    k.Backed z (Live live) (({ k.written s (s.value topFrame place) stored c with
        constraints := m } : State).bindExpr topFrame a result) fun κ' =>
      ∃ κ, R κ ∧ κ.perform k.program k.blank (.expr a root) = κ' := by
  obtain ⟨-, x, hx, hop⟩ := hname
  have hnumeric : k.IsNumeric a := fun y hy => by
    rw [hy] at htarget
    cases htarget
  -- the variable that is assigned to need not be live before
  have hlive : ∀ y, y ≠ x → Live live y → Live (k.before (.expr a root) live) y := by
    intro y hy hlive
    refine mem_before hlive ?_
    rintro ⟨place', value, hop', hname'⟩
    rw [hop'] at htarget
    cases htarget
    cases hname'.symm.trans hop
    exact hy rfl
  refine h.map rfl fun κ α _ hmirrors => ?_
  obtain ⟨hexpressed, hresult⟩ := hexpresses κ α hmirrors
  have hput := Mirrors.put (s := s) hmirrors hc hs hcz hx hop hstored hexpressed hlive
  show k.Mirrors z _ ((k.written _ _ _ _).env.insert _ _) _ (κ.evaluate k.program a) α
  rw [evaluate_store htarget, env_written]
  exact hput.setNumber hnumeric hresult fun y hy => hy

theorem performs_store (hsure : k.Sure z e) (h : k.Ready e) (hn : HasState e n s)
    (hs : k.Tame e.catalog P s) (hP : ∀ r, P (.regionValue r .int)) (hspot : spot.frame = topFrame)
    (ha : k.program.ScalarExpr k.vars k.assigned a)
    (htarget : target? (k.program.expr a).op = some place) (hname : k.program.IsName k.vars place)
    (hback : k.Backed z (Live (k.before (.expr a root) live)) s R)
    (hdiscloses : k.Discloses R (.expr a root) (.before spot.block spot.index))
    (hrun : evalStore k.options spot n a place e = .ok (r, e')) (hz : Within z e') :
    k.Performs z live R (.expr a root) r e' := by
  obtain ⟨hplace, x, hx, hop⟩ := id hname
  have hnumeric : k.IsNumeric a := fun y hy => by
    rw [hy] at htarget
    cases htarget
  have hmeets := meets_access hs hname
  unfold evalStore stateOf ask Spot.before at hrun
  simp only [query_bind, hn.state_eq, hspot, h.regular.program] at hrun
  obtain ⟨d, hd, ⟨hrest, hsure'⟩ | ⟨n', m, hrest, hstate, hs', hgoes⟩⟩ :=
    hsure.consult h hn hs hP hmeets hback (fun _ _ hflaw => hflaw.elim) hrun
  · obtain ⟨rfl, rfl⟩ := pure_eq_ok.1 hrest
    exact ⟨hsure' hz, nofun⟩
  · have hfetch : k.Fetches d.catalog P { s with constraints := m } place
      (k.fetch { s with constraints := m } (s.value topFrame place) d.catalog) :=
      fetches_fetch hd.ready.regular hs' hP hname
    simp only [query_bind, hstate.state_eq, hplace] at hrest
    obtain ⟨v, d', hv, hrest'⟩ := bind_eq_ok.1 hrest
    rw [read_eq] at hv
    have hreads : (k.fetch { s with constraints := m } (s.value topFrame place) d.catalog).2 ≤ z →
        place ∉ k.assigned → ∀ κ α, k.Mirrors z (Live (k.before (.expr a root) live)) s.env s.store κ α →
        Expresses z α (k.fetch { s with constraints := m } (s.value topFrame place) d.catalog).1
          (κ.held? place) := fun hcz hread κ α hmirrors =>
      Mirrors.fetch (s := { s with constraints := m }) hmirrors hd.ready.regular hs' hP hname hread hcz
    generalize k.fetch { s with constraints := m } (s.value topFrame place) d.catalog = old
      at hfetch hv hreads
    cases hv
    have hread := evolves_naming hd.ready hfetch.le hfetch.regular
    have hs1 := hs.mono h.regular (hd.le.trans hfetch.le)
    have hup := updates_updated hfetch.regular hs1 hfetch.plain ha htarget
    have hexpresses : (s.updated topFrame (k.program.expr a) old.1 old.2).2 ≤ z → ∀ κ α,
        k.Mirrors z (Live (k.before (.expr a root) live)) s.env s.store κ α →
        Expresses z α (s.updated topFrame (k.program.expr a) old.1 old.2).1.1
          (κ.stored? (k.program.expr a).op) ∧
        Expresses z α (s.updated topFrame (k.program.expr a) old.1 old.2).1.2
          (κ.assigned? (k.program.expr a).op) := fun hcz κ α hmirrors =>
      hmirrors.updated hfetch.regular hs1 hfetch.plain ha htarget
        (fun hna => hreads (hup.le.trans hcz) hna κ α hmirrors) hcz
    rw [naming_bind] at hrest'
    dsimp only at hrest'
    generalize s.updated topFrame (k.program.expr a) old.1 old.2 = new at hup hrest' hexpresses
    have hupdate := evolves_naming hread.ready hup.le hup.regular
    obtain ⟨r'', d', hstore, hlast⟩ := bind_eq_ok.1 hrest'
    have hlocation : s.value topFrame place = .unknown ∨ ∃ q, new.2.IsVar topFrame x q ∧
        s.value topFrame place = .pointer q :=
      (hs1.value_name hop).imp_right fun ⟨q, hq, hv⟩ => ⟨q, hq.mono hup.le, hv⟩
    have hs2 := (hs'.mono hd.ready.regular hfetch.le).mono hfetch.regular hup.le
    have hstate2 := (hstate.mono hread).mono hupdate
    have hwrites : k.Writes P live _ _ _ _ _ _ _ :=
      writes_store hupdate.ready hstate2 hs2 hP hspot hx hlocation hup.plain.1 hstore
    have hsame : e' = d' := by
      cases r'' <;> exact (pure_eq_ok.1 hlast).2.symm ▸ rfl
    subst hsame
    have hz2 := hz.of_evolves hwrites.evolves
    have hz1 := hz2.of_evolves hupdate
    obtain ⟨hsure1, hback1⟩ := hgoes (hz1.of_evolves hread)
    obtain ⟨hsure2, hstored⟩ := sure_store ((hsure1.naming _).naming _) hupdate.ready hstate2 hs2 hP
      hspot hup.plain.1 hback1 (fun {κ α f} hκ hmirrors hflaw => by
        -- an undefined value is written: then it is undefined in the run
        obtain ⟨hlocation, htype, hundefined⟩ := hflaw
        have hnone := ((hexpresses hz2.le κ α hmirrors).1).eq_none hundefined
        exact hdiscloses hκ ⟨hlocation, .inr (.inr ⟨htype, storesGarbage htarget hnone⟩)⟩) hstore hz
    refine ⟨hsure2, ?_⟩
    cases r'' with
    | none =>
      obtain ⟨rfl, -⟩ := pure_eq_ok.1 hlast
      exact nofun
    | some o =>
      obtain ⟨rfl, -⟩ := pure_eq_ok.1 hlast
      rintro _ ⟨⟩
      obtain ⟨m', htame, hready, hle, hback2, hout⟩ := hstored _ rfl
      rw [hout, written_withConstraints]
      refine Backed.store (s := s) hback2 hready.regular
        ((hs1.mono hfetch.regular hup.le).mono hup.regular hle) hz.le (hup.plain.1.mono hle)
        htarget hname (hexpresses hz2.le)

/-! ### Expressions -/

/-- The place that the name of a variable is evaluated to. -/
theorem Backed.name {r : RegionId} (h : k.Backed z (Live (k.before (.expr a root) live)) s R)
    (hop : (k.program.expr a).op = .var x) (hx : x ∈ k.vars) (hr : z.IsVar topFrame x r) :
    k.Backed z (Live live) (s.bindExpr topFrame a (.pointer r)) fun κ' =>
      ∃ κ, R κ ∧ κ.perform k.program k.blank (.expr a root) = κ' := by
  have hassign : ∀ place value, (k.program.expr a).op ≠ .assign place value := fun _ _ hop' =>
    by cases hop.symm.trans hop'
  refine h.map rfl fun κ α _ hmirrors => ?_
  have heval : κ.evaluate k.program a = κ.setExpr a (.place x) := by simp only [Machine.evaluate, hop]
  show k.Mirrors z _ _ _ (κ.evaluate k.program a) α
  rw [heval]
  refine hmirrors.setExpr nofun ?_ (fun y hy => ?_) fun y hy => ?_
  · rintro y ⟨⟩
    exact ⟨hx, r, hr, rfl⟩
  · cases hop.symm.trans hy
    rfl
  · rcases hy with hlive | ⟨b, hb, hread⟩
    · exact .inl (live_before hassign y hlive)
    · simp only [Machine.setExpr] at hb
      split at hb
      · next hba =>
        -- the name itself: the variable is live before it, if it is read
        cases hb
        subst hba
        exact .inl (mem_before_of_name hop hx hread)
      · exact .inr ⟨b, hb, hread⟩

theorem performs_evalExpr (hsure : k.Sure z e) (h : k.Ready e) (hn : HasState e n s)
    (hs : k.Tame e.catalog P s) (hP : ∀ r, P (.regionValue r .int)) (hspot : spot.frame = topFrame)
    (ha : k.program.ScalarExpr k.vars k.assigned a)
    (hback : k.Backed z (Live (k.before (.expr a root) live)) s R)
    (hdiscloses : k.Discloses R (.expr a root) (.before spot.block spot.index))
    (hrun : evalExpr k.options spot n a e = .ok (r, e')) (hz : Within z e') :
    k.Performs z live R (.expr a root) r e' := by
  have hc := h.regular
  obtain ⟨htype, hscalar⟩ := id ha
  cases hop : (k.program.expr a).op with
  | load place =>
    unfold evalExpr at hrun
    simp only [query_bind, hc.program, hop] at hrun
    exact performs_load hsure h hn hs hP hspot hop ha hback hrun hz
  | int i =>
    obtain ⟨rfl, rfl⟩ := evalExpr_eq_ok h hn hspot (evaluate?_int hc.program hop htype) hrun
    refine ⟨hsure.naming _, ?_⟩
    rintro o ⟨⟩
    refine hback.number (fun y hy => by cases hop.symm.trans hy) (fun _ _ hy => by cases hop.symm.trans hy)
      fun κ α _ => ⟨some (CType.int.wrap i), by simp only [Machine.evaluate, hop, Operand.ofInt?], ?_⟩
    rintro m ⟨⟩
    exact ⟨wrap_int_mem_domain i, rfl⟩
  | var v =>
    simp only [hop] at hscalar
    obtain ⟨rfl, rfl⟩ := evalExpr_eq_ok h hn hspot (evaluate?_var hc.program hop) hrun
    refine ⟨hsure.naming _, ?_⟩
    rintro o ⟨⟩
    exact hback.name hop hscalar ((Catalog.isVar_var v topFrame e.catalog).mono hz.le)
  | unary op b =>
    simp only [hop] at hscalar
    obtain ⟨rfl, rfl⟩ := evalExpr_eq_ok h hn hspot (evaluate?_unary hc.program hop htype) hrun
    refine ⟨hsure.naming _, ?_⟩
    rintro o ⟨⟩
    refine hback.number (fun y hy => by cases hop.symm.trans hy) (fun _ _ hy => by cases hop.symm.trans hy)
      fun κ α hmirrors => ⟨Machine.unary? op (κ.int? b), by simp only [Machine.evaluate, hop], ?_⟩
    exact hmirrors.value_int.unary hc.arithmetic (hs.plain_value hscalar.2) op hz.le
  | binary op l r =>
    simp only [hop] at hscalar
    obtain ⟨hl, hr⟩ := hscalar
    obtain ⟨rfl, rfl⟩ := evalExpr_eq_ok h hn hspot (evaluate?_binary hc.program hop htype hl.1) hrun
    refine ⟨hsure.naming _, ?_⟩
    rintro o ⟨⟩
    refine hback.number (fun y hy => by cases hop.symm.trans hy) (fun _ _ hy => by cases hop.symm.trans hy)
      fun κ α hmirrors =>
        ⟨Machine.binary? op (κ.int? l) (κ.int? r), by simp only [Machine.evaluate, hop], ?_⟩
    exact hmirrors.value_int.binary hmirrors.value_int hc.arithmetic (hs.plain_value hl.2)
      (hs.plain_value hr.2) op hz.le
  | join =>
    obtain ⟨rfl, rfl⟩ := evalExpr_join h hn hop hrun
    refine ⟨hsure, ?_⟩
    rintro o ⟨⟩
    refine hback.map rfl fun κ α _ hmirrors => ?_
    have heval : κ.evaluate k.program a = κ := by simp only [Machine.evaluate, hop]
    show k.Mirrors z _ _ _ (κ.evaluate k.program a) α
    rw [heval]
    exact hmirrors.mono (live_before fun _ _ hy => by cases hop.symm.trans hy)
  | assign place value | compound op place value | incDec place increment first =>
    unfold evalExpr at hrun
    simp only [query_bind, hc.program, hop] at hrun hscalar
    exact performs_store hsure h hn hs hP hspot ha (by rw [hop]; rfl) hscalar.1 hback hdiscloses hrun hz
  | _ => simp only [hop] at hscalar

/-! ### Declarations and returns -/

/-- Writing the entries of a list leaves the ranges as they are. -/
theorem constraints_writeList (s : State) (p : StorePolicy) (f : FrameId) (r : RegionId) (t : CType)
    (entries : List InitEntry) :
    (s.writeList p f r t entries).Always fun t => t.constraints = s.constraints := by
  have hzeroed : (s.zeroed p r).Always fun t => t.constraints = s.constraints :=
    always_query fun _ => rfl
  refine hzeroed.bind fun t ht => always_foldlM ht fun t _ ht => ?_
  exact always_bind fun _ => always_query fun _ => ht

section

variable (hsure : k.Sure z e) (h : k.Ready e) (hn : HasState e n s) (hs : k.Tame e.catalog P s)
  (hP : ∀ r, P (.regionValue r .int)) (hspot : spot.frame = topFrame)
include hsure h hn hs hP hspot

theorem performs_evalDecl {v : VarId} {init : Option DeclInit} {location : Location}
    (hel : k.program.ScalarElement k.vars k.assigned (.decl v init location))
    (hback : k.Backed z (Live (k.before (.decl v init location) live)) s R)
    (hdiscloses : k.Discloses R (.decl v init location) (.before spot.block spot.index))
    (hrun : evalDecl k.options spot n v init location e = .ok (r, e')) (hz : Within z e') :
    k.Performs z live R (.decl v init location) r e' := by
  obtain ⟨hv, hinit⟩ := hel
  have hlive : ∀ y, y ≠ v → Live live y → Live (k.before (.decl v init location) live) y :=
    fun y hy hl => mem_before hl hy.symm
  obtain ⟨q, c, -, hc, hvar, hs', hnaming, ⟨rfl, rfl, rfl⟩ | ⟨entries, rfl, rfl, rfl⟩ |
    ⟨a, r', rfl, rfl, hstore⟩⟩ := evalDecl_cases h hn hs hspot hv hrun
  · refine ⟨hsure.naming c, ?_⟩
    rintro o ⟨⟩
    exact hback.map rfl fun κ α _ hmirrors => hmirrors.kill hc hs' hz.le hvar hlive
  · refine ⟨hsure.naming _, ?_⟩
    rintro o ⟨⟩
    obtain ⟨hout, -, -⟩ := writeList_spec (z := c) hc hv hvar hs' hinit hlive
    have henv := (s.keeps_writeList k.options.store topFrame q .int entries c).env
    refine hback.map (constraints_writeList s _ _ _ _ _ c) fun κ α _ hmirrors => ?_
    show k.Mirrors z _ (s.writeList k.options.store topFrame q .int entries c).1.env _ _ α
    rw [henv]
    exact hmirrors.writeList hc hs' (hout ▸ hz.le) hv hvar hinit hlive
  · obtain ⟨hsure', hstored⟩ := sure_store (hsure.naming c) hnaming.ready (hn.mono hnaming) hs' hP hspot
      (hs'.plain_value hinit.2) hback (fun {κ α f} hκ hmirrors hflaw =>
        hdiscloses hκ ⟨hflaw.1, hflaw.2.1, hmirrors.undefined_of_isUndefined hflaw.2.2⟩) hstore hz
    refine ⟨hsure', fun {_} ho => ?_⟩
    obtain ⟨o, rfl, rfl⟩ := Option.map_eq_some_iff.1 ho
    obtain ⟨m, -, hready, hle, hback', hout⟩ := hstored _ rfl
    rw [hout]
    refine hback'.map rfl fun κ α _ hmirrors => ?_
    exact Mirrors.write (s := s) hmirrors hready.regular hv hz.le (hvar.mono hle)
      ((hs'.plain_value hinit.2).mono hle) (hmirrors.value_int (s := s)) hlive

/-- **Evaluating a step in a state that is backed by runs gives one that is backed by the same runs
after the step, and what is found on the way occurs.** -/
theorem performs_evalElement (hel : k.program.ScalarElement k.vars k.assigned el)
    (hback : k.Backed z (Live (k.before el live)) s R)
    (hdiscloses : k.Discloses R el (.before spot.block spot.index))
    (hrun : evalElement k.options spot n el e = .ok (r, e')) (hz : Within z e') :
    k.Performs z live R el r e' := by
  cases el with
  | expr a root => exact performs_evalExpr hsure h hn hs hP hspot hel hback hdiscloses hrun hz
  | decl v init location => exact performs_evalDecl hsure h hn hs hP hspot hel hback hdiscloses hrun hz
  | merge target value =>
    obtain ⟨⟨htype, hnumeric⟩, hvalue⟩ := hel
    unfold evalElement stateOf at hrun
    simp only [query_bind, hn.state_eq, hspot, h.regular.program, htype] at hrun
    obtain ⟨rfl, rfl⟩ := pure_eq_ok.1 hrun
    refine ⟨hsure, ?_⟩
    rintro o ⟨⟩
    refine hback.map rfl fun κ α _ hmirrors => ?_
    cases value with
    | int i =>
      have hexpresses : Expresses z α (.ofInt i .int) (some (CType.int.wrap i)) := by
        rintro m ⟨⟩
        exact ⟨wrap_int_mem_domain i, rfl⟩
      exact hmirrors.setNumber hnumeric hexpresses fun y hy => hy
    | expr a => exact hmirrors.setNumber hnumeric hmirrors.value_int fun y hy => hy
  | «return» value location =>
    unfold evalElement stateOf at hrun
    simp only [query_bind, hn.state_eq, hspot] at hrun
    cases value with
    | none =>
      obtain ⟨rfl, rfl⟩ := pure_eq_ok.1 hrun
      refine ⟨hsure, ?_⟩
      rintro o ⟨⟩
      exact hback.map rfl fun κ α _ hmirrors => hmirrors
    | some a =>
      obtain ⟨rfl, rfl⟩ := pure_eq_ok.1 hrun
      refine ⟨hsure, ?_⟩
      rintro o ⟨⟩
      exact hback.map rfl fun κ α _ hmirrors => hmirrors.insertResult

end

end PathScout.Study

import PathScout.Proofs.BackedBlocks
import PathScout.Proofs.ExplorationSoundness
import PathScout.Proofs.MarkLaws

/-!
# Findings are real

If the exploration of a scalar function does not forget what loops change, and constrains atoms only,
then everything that it finds occurs: for some arguments, a run comes to the place and does there what
the finding is about. A run may go on with undefined values, so what it does may be to use one.

* `Study.Sure.enterBlock`, `Study.Sure.dispatch`: entering a block, continuing a pending node.
* `Study.Sure.search`: the search.
* `explore_occurs`: every finding of an exploration occurs.
-/

namespace PathScout

open Exploring List OrderedMap Bool

/-!
## Ranges that are given up

When a block is entered, the ranges of symbols are dropped that nothing leads to any more. This could
let in runs that were ruled out before. It does not: a symbol that is dropped is part of no value that
is still needed, so it can get a number in its old range without changing any of them.

* `Marks.Sustains`: all symbols that a value is made of are marked.
* `Study.Upholds`: what is still needed is marked, down to the symbols that it is made of.
* `Study.liveMarks_upholds`: the marks when a block is entered.
* `Study.Backed.removeDead`: a state that is backed is so without what is dead.
-/

/-! ### Symbols that values are made of -/

namespace Catalog

variable {c : Catalog} {P Q : Symbol → Prop} {x : SymbolId}

/-- Symbols that operations are made of are found among the dependencies. -/
theorem Over.of_dependencies (h : c.Over P x) (hP : ∀ a, P a → a.isAtomic = true → a.operands = [])
    (hQ : ∀ y ∈ c.dependencies x, c.HasSymbol y → Q (c.symbol y)) : c.Over Q x := by
  have hlayered : c.LayeredOn (c.Over P) := by
    intro y hy w hw
    cases hy with
    | atom _ hatomic _ hPy =>
      rw [hP _ hPy hatomic] at hw
      cases hw
    | operation _ _ _ hlt hover => exact ⟨hover w hw, hlt w hw⟩
  obtain ⟨hself, hdeps⟩ := dependencies_spec hlayered h
  have hall : ∀ {y}, c.Over P y → y ∈ c.dependencies x → c.Over Q y := by
    intro y hy
    induction hy with
    | atom hsymbol hatomic htype _ =>
      intro hmem
      exact .atom hsymbol hatomic htype (hQ _ hmem hsymbol)
    | operation hsymbol hatomic htype hlt _ ih =>
      intro hmem
      exact .operation hsymbol hatomic htype hlt fun w hw => ih w hw ((hdeps _ hmem).2 w hw)
  exact hall h hself

end Catalog

namespace Marks

variable {c d : Catalog} {m m' : Marks} {v : Value} {P : Symbol → Prop}

/-- All symbols that the value is made of are marked, if it is a symbol. -/
def Sustains (m : Marks) (c : Catalog) (v : Value) : Prop :=
  ∀ x, v = .symbol x → ∀ y ∈ c.dependencies x, y ∈ m.symbols

/-- The symbol is one that is marked. -/
def Names (m : Marks) (c : Catalog) (a : Symbol) : Prop :=
  ∃ y ∈ m.symbols, c.HasSymbol y ∧ c.symbol y = a

theorem Sustains.within (h : m.Sustains c v) (hm : m.Within m') : m'.Sustains c v :=
  fun x hx y hy => hm.symbols y (h x hx y hy)

theorem sustains_markValue (m : Marks) (c : Catalog) (v : Value) : (markValue c m v).Sustains c v := by
  rintro x rfl y hy
  rw [markValue, markSymbol, mem_append, mem_filter]
  by_cases hmem : y ∈ m.symbols
  · exact .inr hmem
  · refine .inl ⟨hy, ?_⟩
    simpa using hmem

theorem sustains_foldl {κ : Type} {es : List (κ × Value)} {entry : κ × Value} (h : entry ∈ es)
    (m : Marks) : (es.foldl (fun m e => markValue c m e.2) m).Sustains c entry.2 := by
  induction es generalizing m with
  | nil => cases h
  | cons e es ih =>
    rcases mem_cons.1 h with rfl | h
    · exact (sustains_markValue m c entry.2).within (within_foldl _ c es)
    · exact ih h _

/-- What live objects hold is marked in the end. -/
theorem sustains_follow {pending : List (BindingKey × Value)} {entry : BindingKey × Value}
    (h : entry ∈ pending) (hlive : (follow c m pending).isLiveRegion c entry.1.region = true) :
    (follow c m pending).Sustains c entry.2 := by
  fun_induction follow c m pending with
  | case1 m pending _ ih =>
    by_cases hnow : m.isLiveRegion c entry.1.region = true
    · have hmem : entry ∈ m.liveBindings c pending := mem_filter.2 ⟨h, hnow⟩
      exact (sustains_foldl hmem m).within (within_follow _ c _)
    · refine ih (mem_filter.2 ⟨h, ?_⟩) hlive
      simpa using hnow
  | case2 m pending hsame =>
    -- nothing that is pending is live, or there would be another round
    refine absurd ?_ hsame
    refine length_filter_lt_length_iff_exists.2 ⟨entry, h, ?_⟩
    simpa using hlive

theorem Sustains.plain (h : m.Sustains c v) (hv : v.Plain c P)
    (hP : ∀ a, P a → a.isAtomic = true → a.operands = []) : v.Plain c (m.Names c) := by
  cases v with
  | symbol x => exact Catalog.Over.of_dependencies hv hP fun y hy hsymbol => ⟨y, h x rfl y hy, hsymbol, rfl⟩
  | int | undefined | unknown => trivial
  | loc | locAsInt | snapshot => cases hv

theorem Names.mono {a : Symbol} (h : m.Names c a) (hcd : c ≤ d) : m.Names d a := by
  obtain ⟨y, hy, hsymbol, rfl⟩ := h
  exact ⟨y, hy, hsymbol.mono hcd, Catalog.symbol_mono hcd hsymbol⟩

end Marks

namespace Study

variable {k : Study} {c d z : Catalog} {P : Symbol → Prop} {s : State} {m : Marks} {κ : Machine}
  {α β : Assignment} {live : VarId → Prop} {R : Machine → Prop} {e e' : Exploration} {b : BlockId}

/-! ### What is still needed -/

/-- All that is still needed is marked, and so are the symbols that it is made of. -/
structure Upholds (k : Study) (c : Catalog) (live : VarId → Prop) (s : State) (m : Marks) : Prop
    extends k.Marked c live s.env m where
  value {key : EnvKey} {v : Value} : s.env.get? key = some v → m.Sustains c v
  binding {b : BindingKey} {v : Value} : s.store.bindings.get? b = some v →
    m.isLiveRegion c b.region = true → m.Sustains c v

theorem liveMarks_upholds (h : k.Ready e)
    (hrun : liveMarks s [topFrame] (some b) e = .ok (m, e')) :
    k.Upholds e'.catalog (Live (k.liveIn b)) s m := by
  obtain ⟨-, hmarked⟩ := liveMarks_spec h hrun
  unfold liveMarks at hrun
  rw [query_bind] at hrun
  obtain ⟨m0, hm⟩ : ∃ m0 : Marks, m = m0.markReachable e'.catalog s.store s.env := by
    cases hrun
    exact ⟨_, rfl⟩
  refine ⟨hmarked, fun {key v} hv => ?_, fun {b v} hv hlive => ?_⟩
  · subst hm
    have hmem := mem_of_lookup_eq hv
    exact (Marks.sustains_foldl hmem m0).within (Marks.within_follow _ _ _)
  · subst hm
    have hmem := mem_of_lookup_eq hv
    exact Marks.sustains_follow hmem hlive

/-- Ranges do not matter for what is needed. -/
theorem Upholds.withConstraints (h : k.Upholds c live s m) (ranges : Constraints) :
    k.Upholds c live { s with constraints := ranges } m := ⟨h.toMarked, h.value, h.binding⟩

/-! ### Giving up ranges -/

/-- A run that the state mirrors under an assignment is mirrored, without what is dead, under every
assignment that agrees on the marked symbols and on what live regions held at first. -/
theorem Mirrors.removeDead (h : k.Mirrors z live s.env s.store κ α) (hm : k.Upholds c live s m)
    (henv : k.TameEnv c P s.env) (hstore : k.TameStore c P s.store) (hcd : c ≤ d) (hdz : d ≤ z)
    (hP : ∀ a, P a → a.isAtomic = true → a.operands = [])
    (hnamed : ∀ a, m.Names z a → α.value a = β.value a)
    (hheld : ∀ r, d.base r = r → r ∈ m.regions →
      α.value (.regionValue r .int) = β.value (.regionValue r .int)) :
    k.Mirrors z live (s.removeDead d m).env (s.removeDead d m).store κ β := by
  have hcz := hcd.trans hdz
  have hdenotes : ∀ {v n}, m.Sustains c v → v.Plain c P → v.Denotes z α n → v.Denotes z β n :=
    fun hv hplain hn => by
      have hnames := (hv.plain hplain hP).mono hcz
      exact hn.congr hnames fun a ha => hnamed a (ha.mono hcz)
  refine ⟨fun {e n} he => ?_, h.place, h.evaluated, h.name, fun {x n r} hx hn hneed hr => ?_, h.domain⟩
  · obtain ⟨hdomain, v, hv, hden⟩ := h.int he
    have hnumeric : k.IsNumeric e := fun x hop => by cases h.name hop he
    exact ⟨hdomain, v, hv, hdenotes (hm.value hv) (henv.number hv hnumeric) hden⟩
  · -- the region of the variable is marked, so its bindings are kept
    obtain ⟨hrc, hmem⟩ : c.IsVar topFrame x r ∧ r ∈ m.regions := by
      rcases hneed with hlive | ⟨e, he, -⟩
      · obtain ⟨q, hq, hmem⟩ := hm.live hx hlive
        obtain rfl := hr.unique (hq.mono hcz)
        exact ⟨hq, hmem⟩
      · obtain ⟨-, q, hq, hv⟩ := h.place he
        obtain rfl := hr.unique hq
        obtain ⟨y, hy⟩ := henv.isVar_of_pointer hv
        obtain rfl := hr.var_eq (hy.mono hcz)
        exact ⟨hy, hm.pointer hy hv⟩
    have hbase : d.base r = r := (hrc.mono hcd).base_eq
    have hlive : m.isLiveRegion d r = true := Marks.isLiveRegion_of_mem (hbase.symm ▸ hmem)
    have hlive' : m.isLiveRegion c r = true :=
      Marks.isLiveRegion_of_mem (show c.base r ∈ _ from hrc.base_eq.symm ▸ hmem)
    have hkeep : ∀ kind, (s.removeDead d m).store.bindings.get? ⟨r, kind⟩ =
        s.store.bindings.get? ⟨r, kind⟩ := fun kind =>
      (get?_filter fun b : BindingKey => m.isLiveRegion d b.region).trans (if_pos hlive)
    have hkeeps : k.Keeps z s.store β x r n := by
      have hold := h.var hx hn hneed hr
      unfold Keeps at hold ⊢
      split at hold
      · next v hv =>
        exact hdenotes (hm.binding (b := .direct r) hv hlive') (hstore.direct hx hrc hv) hold
      · exact hold
      · exact ⟨hold.1, (hheld r hbase hmem).symm.trans hold.2⟩
    exact hkeeps.congr (hkeep .direct) (hkeep .default)

/-- **Giving up the ranges of dead symbols lets in no run.** -/
theorem Backed.removeDead (h : k.Backed z live s R) (hm : k.Upholds c live s m)
    (henv : k.TameEnv c P s.env) (hstore : k.TameStore c P s.store)
    (hranges : TameConstraints d P s.constraints) (hcd : c ≤ d) (hdz : d ≤ z)
    (hatomic : Atomic z s.constraints) (hP : ∀ a, P a → a.isAtomic = true → a.operands = []) :
    k.Backed z live (s.removeDead d m) R := by
  have hget : ∀ x, (s.removeDead d m).constraints.get? x =
      if m.isLiveSymbol d x = true then s.constraints.get? x else none := fun x =>
    get?_filter fun x : SymbolId => m.isLiveSymbol d x
  refine ⟨fun x rs hx => ?_, fun {α} hα => ?_⟩
  · rw [hget] at hx
    split at hx
    · exact h.filled x rs hx
    · cases hx
  · -- dead symbols get numbers in their old ranges
    obtain ⟨β, hβ, hsame⟩ := exists_satisfies (hranges.mono hdz) h.filled hatomic
      (fun x => m.isLiveSymbol d x = false) α fun x rs hx hlive =>
        hα x rs ((hget x).trans ((if_pos (not_eq_false _ ▸ hlive)).trans hx))
    obtain ⟨κ, hκ, hmirrors⟩ := h.run hβ
    refine ⟨κ, hκ, hmirrors.removeDead hm henv hstore hcd hdz hP (fun a ha => hsame a ?_)
      fun r hbase hmem => hsame _ ?_⟩
    · obtain ⟨y, hy, hsymbol, rfl⟩ := ha
      intro x rs hx heq
      have hx' := ((hranges x rs hx).1.mono hdz).hasSymbol.get?
      obtain rfl : x = y := congrArg SymbolId.mk (Interned.get?_inj hx' (heq ▸ hsymbol.get?))
      rw [Marks.isLiveSymbol_of_mem hy]
      exact nofun
    · intro x rs hx heq
      have hd := (hranges x rs hx).1.hasSymbol
      rw [Catalog.symbol_mono hdz hd] at heq
      have hlive : m.isLiveSymbol d x = true := by
        rw [Marks.isLiveSymbol, heq]
        refine or_eq_true_iff.2 (.inr ?_)
        show m.isLiveRegionBy d _ r = true
        rw [Marks.isLiveRegionBy, contains_iff_mem.2 (hbase.symm ▸ hmem)]
        rfl
      rw [hlive]
      exact nofun

end Study

/-! ## Findings are real -/

namespace Study

variable {k : Study} {e e' : Exploration} {z : Catalog} {s : State} {n pred : NodeId} {b : BlockId}
  {V : Visits} {p : Pending} {x : PathNode} {location : Location} {σ : Store}

/-! ### Entering a block -/

/-- A path that is given up is noted, and nothing else changes. -/
theorem Sure.noteCoverage {kind : CoverageKind} (hsure : k.Sure z e)
    (hrun : noteCoverage topFrame kind location e = .ok ((), e')) : k.Sure z e' := by
  obtain rfl := congrArg Prod.snd (Except.ok.inj hrun)
  dsimp only
  split
  · exact hsure
  · split
    · exact hsure
    · exact ⟨hsure.real, hsure.found⟩

theorem Sure.enterBlock (hsink : k.options.loopExhaustion = .sink) (hsure : k.Sure z e)
    (h : k.Ready e) (hpred : HasState e pred s) (hs : k.Tame e.catalog (k.Stale V) s)
    (hback : k.Entering z b s)
    (hrun : enterBlock k.options pred b topFrame V e = .ok ((), e')) (hz : Within z e') :
    k.Sure z e' := by
  have hP : ∀ r, k.Stale V (.regionValue r .int) := fun r => trivial
  obtain ⟨location, hnote⟩ | ⟨block, marks, d1, -, hmarks, hrest1⟩ := enterBlock_cases h hpred hrun
  · have hsure1 := hsure.arrived (x := ⟨⟨.entrance b, topFrame, none⟩, s, true⟩) pred fun hx =>
      by cases hx
    exact hsure1.noteCoverage hnote
  · obtain ⟨hd1, -⟩ := liveMarks_spec h hmarks
    have hupholds := liveMarks_upholds h hmarks
    have hsure1 : k.Sure z d1 := by
      unfold liveMarks at hmarks
      rw [query_bind] at hmarks
      cases hmarks
      exact hsure.naming _
    have hs1 := hs.mono h.regular hd1.le
    have hmeets : k.Meets d1.catalog (k.Stale V) (.dead marks) := trivial
    obtain ⟨d2, hd2, ⟨hrest2, hsure2⟩ | ⟨n, ranges, hrest2, hstate, hs2, hgoes⟩⟩ :=
      hsure1.consult hd1.ready (hpred.mono hd1) hs1 hP hmeets hback (fun _ _ hflaw => hflaw.elim) hrest1
    · obtain ⟨-, rfl⟩ := pure_eq_ok.1 hrest2
      exact hsure2 hz
    · have hwiden : ¬ (V.count topFrame b + 1 = k.options.maxBlockVisits ∧ block.loopHead = true ∧
          k.options.loopExhaustion = .widen) := by
        rintro ⟨-, -, hwiden⟩
        cases hsink.symm.trans hwiden
      dsimp only [stateOf] at hrest2
      rw [query_bind, hstate.state_eq, ite_apply, if_neg hwiden] at hrest2
      replace hrest2 : (do
          let state ← query fun e =>
            State.removeDead { s with constraints := ranges } e.catalog marks
          Exploring.advance n ⟨.entrance b, topFrame, none⟩ state (V.enter topFrame b) :
          Exploring Unit) d2 = .ok ((), e') := hrest2
      rw [query_bind] at hrest2
      have hs3 := (hs2.removeDead d2.catalog marks).imp fun a ha => Stale.enter ha b
      obtain ⟨hadvance, -⟩ := evolves_advance hd2.ready rfl hs3 hrest2
      have hz2 := hz.of_evolves hadvance
      obtain ⟨hsure2, hback'⟩ := hgoes hz2
      have hentered :
          k.Entering z b (State.removeDead { s with constraints := ranges } d2.catalog marks) :=
        hback'.removeDead (hupholds.withConstraints ranges) hs1.env hs1.store hs2.constraints
          hd2.le hz2.le (hz2.of_state hstate) fun a => Stale.operands_eq_nil
      have hreal : k.Real z ⟨⟨.entrance b, topFrame, none⟩,
        State.removeDead { s with constraints := ranges } d2.catalog marks, false⟩ := hentered
      exact hsure2.advance hreal hrest2

/-! ### Continuing a pending node -/

theorem Sure.leaveFrame (hsure : k.Sure z e) (h : k.Ready e) (hn : HasState e n s)
    (hs : k.Tame e.catalog (k.Stale V) s) (hback : k.Backed z (fun _ => False) s fun _ => True)
    (hrun : leaveFrame k.options n topFrame V e = .ok ((), e')) (hz : Within z e') :
    k.Sure z e' := by
  have hP : ∀ r, k.Stale V (.regionValue r .int) := fun r => trivial
  unfold Exploring.leaveFrame Exploring.stateOf at hrun
  rw [query_bind, query_bind, hn.state_eq, h.frame] at hrun
  obtain ⟨marks, d, hmarks, hrest⟩ := bind_eq_ok.1 hrun
  have hmeets : k.Meets e.catalog (k.Stale V) (.dead marks) := trivial
  cases hmarks
  obtain ⟨d, -, ⟨hlast, hsure'⟩ | ⟨n', m, hlast, -, -, hgoes⟩⟩ :=
    hsure.consult h hn hs hP hmeets hback (fun _ _ hflaw => hflaw.elim) hrest
  · obtain ⟨-, rfl⟩ := pure_eq_ok.1 hlast
    exact hsure' hz
  · obtain ⟨-, rfl⟩ := pure_eq_ok.1 hlast
    exact (hgoes hz).1

/-- **Continuing a pending node that is backed.** -/
theorem Sure.dispatch (hsink : k.options.loopExhaustion = .sink) (hsure : k.Sure z e)
    (h : k.Ready e) (hw : k.Waiting e p x)
    (hrun : dispatch k.options p e = .ok ((), e')) (hz : Within z e') : k.Sure z e' := by
  have hn : HasState e p.node x.state := ⟨x, hw.node, rfl⟩
  have hkind := hw.kind
  have hreal := hsure.real hw.node hw.resumed
  unfold Exploring.dispatch at hrun
  rw [query_bind, PathGraph.point_eq hw.node, hw.frame] at hrun
  unfold Real at hreal
  cases hpoint : x.point.kind with
  | entry =>
    simp only [hpoint] at hrun hreal
    obtain ⟨body, d, hbody, hrest⟩ := bind_eq_ok.1 hrun
    rw [bodyOf_eq h] at hbody
    cases hbody
    exact hsure.enterBlock hsink h hn hw.tame hreal hrest hz
  | edge source target =>
    simp only [hpoint] at hrun hreal
    exact hsure.enterBlock hsink h hn hw.tame hreal hrun hz
  | entrance b =>
    simp only [hpoint, stateOf, query_bind, hn.state_eq] at hrun hreal
    refine hsure.continueBlock h hn hw.tame (fun block hb => ?_) hrun hz
    exact hreal.mono fun x hx => live_of_liveFrom_zero hb hx
  | after b i =>
    simp only [hpoint] at hrun hreal
    exact hsure.afterElement h hn hw.tame hreal hrun hz
  | finish =>
    simp only [hpoint] at hrun hreal
    exact hsure.leaveFrame h hn hw.tame hreal hrun hz
  | before | exit | callEnter | callExit =>
    rw [hpoint] at hkind
    cases hkind

/-! ### The search -/

/-- **All nodes of a search are backed, and all that it finds occurs.** -/
theorem Sure.search {steps : Nat} (hsink : k.options.loopExhaustion = .sink) (hsure : k.Sure z e)
    (h : k.Searching e) (hbudget : k.options.maxNodes + e.worklist.pending.length ≤ steps + e.graph.size)
    (hrun : search k.options topFrame location steps e = .ok ((), e')) (hz : Within z e') :
    k.Sure z e' := by
  induction steps generalizing e with
  | zero =>
    cases hrun
    exact hsure
  | succ steps ih =>
    obtain ⟨-, rfl⟩ | ⟨p, rest, hpending, hnext⟩ := search_cases hrun
    · exact hsure
    have hsure' : k.Sure z { e with worklist := { e.worklist with pending := rest } } :=
      ⟨hsure.real, hsure.found⟩
    obtain ⟨d, hnote, rfl⟩ | ⟨hsize, d, hdispatch, hsearch⟩ := hnext
    · have hnoted := hsure'.noteCoverage hnote
      exact ⟨hnoted.real, hnoted.found⟩
    · have hready : k.Ready { e with worklist := { e.worklist with pending := rest } } :=
        ⟨h.ready.regular, h.ready.frame⟩
      obtain ⟨hd, -, -, hslack⟩ := h.step hpending hdispatch
      rw [hpending, length_cons] at hslack hbudget
      have hrestSteps : 0 < steps := by omega
      have hrestBudget : k.options.maxNodes + d.worklist.pending.length ≤ steps + d.graph.size := by
        omega
      -- what is found later is not less
      obtain ⟨-, hle, hnode, -⟩ := search_spec hd hrestSteps hrestBudget hsearch
      have hzd : Within z d := ⟨hle.trans hz.le, fun hn => hz.atomic (hnode hn)⟩
      obtain ⟨x, hw⟩ := h.waiting (hpending ▸ mem_cons_self)
      have hdone := hsure'.dispatch hsink hready
        ⟨hw.node, hw.resumed, hw.kind, hw.frame, hw.tame⟩ hdispatch hzd
      exact ih hdone hd hrestBudget hsearch

/-! ### The start -/

open Classical in
/-- The argument for a parameter: what its region holds at first. -/
noncomputable def argument (z : Catalog) (α : Assignment) (x : VarId) : Int :=
  if h : ∃ r, z.IsVar topFrame x r then α.value (.regionValue h.choose .int) else 0

theorem argument_eq {α : Assignment} {x : VarId} {r : RegionId} (h : z.IsVar topFrame x r) :
    argument z α x = α.value (.regionValue r .int) := by
  have hex : ∃ r, z.IsVar topFrame x r := ⟨r, h⟩
  rw [argument, dif_pos hex, hex.choose_spec.unique h]

theorem argument_mem_domain (z : Catalog) (α : Assignment) (x : VarId) :
    argument z α x ∈ CType.int.domain := by
  unfold argument
  split
  · exact α.mem_domain _
  · exact CType.zero_mem_domain _

/-- A variable that has a value at the start is a parameter, and has its argument. -/
theorem mem_of_start_map {params : List VarId} {g : VarId → Int} {x : VarId} {m : Int}
    (h : (Machine.start params (params.map g)).vars x = some m) : x ∈ params ∧ m = g x := by
  obtain ⟨l, r, hzip, -⟩ := lookup_eq_some_iff.1 h
  have hmem : (x, m) ∈ params.zip (params.map g) := by
    rw [hzip]
    simp
  obtain ⟨i, hi, hpair⟩ := mem_iff_getElem.1 hmem
  rw [getElem_zip, Prod.mk.injEq, getElem_map] at hpair
  refine ⟨hpair.1 ▸ getElem_mem _, ?_⟩
  rw [← hpair.2, hpair.1]

/-- The state at the start is backed by the starts of runs. -/
theorem backed_start {c : Catalog} {live : VarId → Prop} (hσ : k.Outset c σ) (hc : k.Regular c)
    (hcz : c ≤ z) : k.Backed z live { store := σ } (k.Run k.body.graph.entry 0) := by
  refine ⟨fun x rs hx => (by cases hx), fun {α} _ => ?_⟩
  let params := (k.program.function k.function).params
  have hdomain : ∀ m ∈ params.map (argument z α), m ∈ CType.int.domain := by
    intro m hm
    obtain ⟨x, -, rfl⟩ := mem_map.1 hm
    exact argument_mem_domain z α x
  refine ⟨.start params (params.map (argument z α)),
    ⟨params.map (argument z α), length_map _, hdomain, .entry⟩, nofun, nofun, nofun, nofun, ?_, ?_⟩
  · intro x m r hx hm _ hr
    obtain ⟨hparam, rfl⟩ := mem_of_start_map hm
    -- nothing is bound in the region of a variable
    have hnone : ∀ kind, σ.bindings.get? ⟨r, kind⟩ = none := fun kind => by
      by_contra hsome
      obtain ⟨v, hv⟩ := Option.ne_none_iff_exists'.1 hsome
      have hforeign := hσ.foreign (mem_of_lookup_eq hv)
      exact not_foreign hx (hr.of_le hcz hc.wellFormed hforeign.1) hforeign
    unfold Keeps
    rw [show σ.direct? r = none from hnone .direct, show σ.default? r = none from hnone .default]
    exact ⟨hparam, (argument_eq hr).symm⟩
  · intro x m hm
    obtain ⟨-, rfl⟩ := mem_of_start_map hm
    exact argument_mem_domain z α x

theorem sure_start (hstate : (Exploration.opening k.options k.program k.function).1 = { store := σ })
    (hσ : k.Outset k.start.catalog σ) (hz : k.start.catalog ≤ z) : k.Sure z k.start := by
  have hroot : Exploration.root k.options k.program k.function =
      ⟨⟨.entry, topFrame, none⟩, { store := σ }, false⟩ := by
    rw [Exploration.root, hstate]
  obtain ⟨n, -, hnode⟩ := Exploration.start_spec k.options k.program k.function
  rw [hroot] at hnode
  refine ⟨fun {m x} hm _ => ?_, fun hrc => by cases hrc⟩
  obtain ⟨-, rfl⟩ := (hnode m x).1 hm
  exact backed_start hσ k.exists_opening.1 hz

end Study

/-! ### All findings -/

variable {u : SourceUnit} {file : String} {p : Program} {f : FunctionId} {body : FunctionBody}
  {o : Options} {e : Exploration} {g : FlowGraph} {blank blank' : Option Int} {κ start : Machine}
  {b : BlockId} {i : Nat}

/-- A finding occurs in a run in which a variable that is declared with an empty list holds what the
store has for it. -/
theorem occurs_blank (hp : Program.ofUnit u file = .ok p) (hf : p.ScalarFunction f body)
    (hsink : o.loopExhaustion = .sink) (hrun : explore o p f = .ok e)
    (hatomic : ∀ n x, e.graph.node? n = some x → Study.Atomic e.catalog x.state.constraints)
    {rc : ReportClass} {r : BugReport} (hrc : rc ∈ e.reports) (hr : r ∈ rc.reports) :
    ∃ x, e.graph.node? r.node = some x ∧ x.point.frame = topFrame ∧
      Occurs p f body.graph o.store.blank r.finding x.point.kind := by
  let k : Study := ⟨o, p, f, body, hf.isScalar hp⟩
  have hsearch : search o topFrame (p.function f).location o.maxNodes k.start =
    .ok ((), e) := (Exploration.explore_eq_ok hf.body_eq).1 hrun
  obtain ⟨-, σ, hstate, hσ⟩ := k.exists_opening
  obtain ⟨hsearching, hlength, -⟩ := k.searching_start hstate hσ
  have hbudget : k.options.maxNodes + k.start.worklist.pending.length ≤
      o.maxNodes + k.start.graph.size := by
    show o.maxNodes + _ ≤ o.maxNodes + _
    omega
  have hle : k.start.catalog ≤ e.catalog := by
    rcases Nat.eq_zero_or_pos o.maxNodes with hzero | hpos
    · rw [hzero] at hsearch
      cases hsearch
      exact le_rfl
    · exact (Study.search_spec hsearching hpos hbudget hsearch).2.1
  have hz : Study.Within e.catalog e := ⟨le_rfl, fun {n x} hn => hatomic n x hn⟩
  have hsure : k.Sure e.catalog e :=
    (Study.sure_start hstate hσ hle).search hsink hsearching hbudget hsearch hz
  exact hsure.found hrc hr

/-- The step does not declare a variable with an empty list. -/
def Element.IsFilled : Element → Prop
  | .decl _ (some (.list entries)) _ => entries ≠ []
  | _ => True

/-- No variable is declared with an empty list. -/
def FlowGraph.NoEmptyList (g : FlowGraph) : Prop :=
  ∀ block ∈ g.blocks, ∀ el ∈ block.elements, el.IsFilled

/-- What a variable holds before the entries of a list are set does not matter if there are any. -/
theorem Machine.perform_blank {el : Element} (hel : el.IsFilled) :
    κ.perform p blank el = κ.perform p blank' el := by
  have hset : ∀ v n n', ((κ.setVar v n).setVar v n' : Machine) = κ.setVar v n' := by
    intro v n n'
    unfold Machine.setVar
    congr
    funext w
    dsimp only
    split <;> rfl
  cases el with
  | decl v init location =>
    cases init with
    | none => rfl
    | some init =>
      cases init with
      | expr e => rfl
      | list entries =>
        cases entries with
        | nil => exact absurd rfl hel
        | cons entry rest =>
          have hfirst : ∀ n, (κ.setVar v n).setVar v ((κ.setVar v n).int? entry.value) =
              κ.setVar v (κ.int? entry.value) := fun n => hset v n _
          unfold Machine.perform
          simp only [foldl_cons, hfirst]
  | merge target value => cases value <;> rfl
  | expr | «return» => rfl

theorem Arrives.of_noEmptyList (hg : g.NoEmptyList) (h : Arrives p g blank start b i κ) :
    Arrives p g blank' start b i κ := by
  induction h with
  | entry => exact .entry
  | step _ hb hel ih =>
    have hfilled := hg _ (Array.mem_of_getElem? hb) _ (Array.mem_of_getElem? hel)
    rw [Machine.perform_blank hfilled]
    exact .step ih hb hel
  | jump _ hb hnone hgoes ih => exact .jump ih hb hnone hgoes

theorem Occurs.of_noEmptyList {finding : Finding} {kind : PointKind} (hg : g.NoEmptyList)
    (h : Occurs p f g blank finding kind) : Occurs p f g blank' finding kind := by
  obtain ⟨args, hlength, hargs, hoccurs⟩ := h
  refine ⟨args, hlength, hargs, ?_⟩
  cases kind with
  | before b i =>
    obtain ⟨block, el, κ, hb, hel, harrives, hshows⟩ := hoccurs
    exact ⟨block, el, κ, hb, hel, harrives.of_noEmptyList hg, hshows⟩
  | exit b =>
    obtain ⟨block, κ, hb, harrives, hgarbage⟩ := hoccurs
    exact ⟨block, κ, hb, harrives.of_noEmptyList hg, hgarbage⟩
  | _ => exact hoccurs

/-- **Every finding occurs**, if the exploration of a scalar function does not forget what loops change
and constrains atoms only: for some arguments, a run comes to the place of the finding and does there
what it says. The store that is flat takes a variable declared with an empty list for one that is not
set. -/
theorem explore_occurs (hp : Program.ofUnit u file = .ok p) (hf : p.ScalarFunction f body)
    (hsink : o.loopExhaustion = .sink) (hlists : o.store = .region ∨ body.graph.NoEmptyList)
    (hrun : explore o p f = .ok e)
    (hatomic : ∀ n x, e.graph.node? n = some x → ∀ y rs, x.state.constraints.get? y = some rs →
      (e.catalog.symbol y).isAtomic = true)
    {rc : ReportClass} {r : BugReport} (hrc : rc ∈ e.reports) (hr : r ∈ rc.reports) :
    ∃ x, e.graph.node? r.node = some x ∧ x.point.frame = topFrame ∧
      Occurs p f body.graph (some 0) r.finding x.point.kind := by
  obtain ⟨x, hx, hframe, hoccurs⟩ := occurs_blank hp hf hsink hrun hatomic hrc hr
  refine ⟨x, hx, hframe, ?_⟩
  rcases hlists with hregion | hfilled
  · rwa [hregion] at hoccurs
  · exact hoccurs.of_noEmptyList hfilled

/-- The unit `int f(int x) { return 1 / ((x << 40) * 0); }`. -/
def shiftUnit : SourceUnit :=
  let span : Span := .point ⟨1, 1⟩
  let shift : Expr := .binary span .shl (.ident span "x") (.int span 40)
  let product : Expr := .binary span .mul shift (.int span 0)
  .single .int [("x", .int)] [.return ⟨1, 1⟩ (some (.binary span .div (.int span 1) product))]

/-- The function begins with the steps that compute `1 / ((x << 40) * 0)` for its parameter. -/
def Shifts (p : Program) (body : FunctionBody) : Prop :=
  (p.function ⟨0⟩).name ≠ "main" ∧ (p.function ⟨0⟩).params = [⟨0⟩] ∧
    (List.range 8).map (fun i => (p.expr ⟨i⟩).op) =
      [.int 1, .var ⟨0⟩, .load ⟨1⟩, .int 40, .binary .shl ⟨2⟩ ⟨3⟩, .int 0, .binary .mul ⟨4⟩ ⟨5⟩,
        .binary .div ⟨0⟩ ⟨6⟩] ∧
    (∀ i < 8, (p.expr ⟨i⟩).type = .int) ∧
    (body.graph.block? body.graph.entry).any fun block =>
      decide (∀ i < 8, block.elements[i]? = some (.expr ⟨i⟩ false))

instance (p : Program) (body : FunctionBody) : Decidable (Shifts p body) :=
  inferInstanceAs (Decidable (_ ∧ _))

theorem Shifts.op_eq (h : Shifts p body) :
    (p.expr ⟨0⟩).op = .int 1 ∧ (p.expr ⟨1⟩).op = .var ⟨0⟩ ∧ (p.expr ⟨2⟩).op = .load ⟨1⟩ ∧
      (p.expr ⟨3⟩).op = .int 40 ∧ (p.expr ⟨4⟩).op = .binary .shl ⟨2⟩ ⟨3⟩ ∧
      (p.expr ⟨5⟩).op = .int 0 ∧ (p.expr ⟨6⟩).op = .binary .mul ⟨4⟩ ⟨5⟩ ∧
      (p.expr ⟨7⟩).op = .binary .div ⟨0⟩ ⟨6⟩ := by
  simpa [range_succ] using h.2.2.1

theorem Shifts.exists_block (h : Shifts p body) : ∃ block, body.graph.block? body.graph.entry = some block ∧
    ∀ i < 8, block.elements[i]? = some (.expr ⟨i⟩ false) := by
  obtain ⟨block, hb, hsteps⟩ := (Option.any_eq_true _ _).1 h.2.2.2.2
  exact ⟨block, hb, of_decide_eq_true hsteps⟩

/-- Divisions are looked at, and paths that are in a loop for too long are given up. -/
def shiftOptions : Options := { loopExhaustion := .sink, checkers := [.divideZero] }

/-- The exploration of the function assumes nothing and finds a division by zero. -/
theorem exists_explored_shift : ∃ p body e y, Program.ofUnit shiftUnit "a.c" = .ok p ∧
    p.ScalarFunction ⟨0⟩ body ∧ Shifts p body ∧ explore shiftOptions p ⟨0⟩ = .ok e ∧
    (∀ n x, e.graph.node? n = some x → ∀ y rs, x.state.constraints.get? y = some rs →
      (e.catalog.symbol y).isAtomic = true) ∧
    ∃ rc ∈ e.reports, ∃ r ∈ rc.reports, r.finding.type = Division.zeroType ∧
      e.graph.node? r.node = some y ∧ y.point.kind = .before body.graph.entry 7 := by
  have hcheck : (Program.ofUnit shiftUnit "a.c").toOption.any (fun p =>
      (p.function ⟨0⟩).body.any fun body => (explore shiftOptions p ⟨0⟩).toOption.any fun e => decide
        (p.isScalarBody ⟨0⟩ body = true ∧ Shifts p body ∧
          (∀ x ∈ e.graph.nodes.items.toList, x.state.constraints = {}) ∧
          ∃ rc ∈ e.reports, ∃ r ∈ rc.reports, r.finding.type = Division.zeroType ∧
            (e.graph.node? r.node).any (·.point.kind = .before body.graph.entry 7))) = true := by
    decide +kernel
  obtain ⟨p, hu, hcheck⟩ := exists_ok_of_any hcheck
  obtain ⟨body, hbody, hcheck⟩ := (Option.any_eq_true _ _).1 hcheck
  obtain ⟨e, hrun, hcheck⟩ := exists_ok_of_any hcheck
  obtain ⟨hscalar, hshifts, hfree, rc, hrc, r, hr, htype, hplace⟩ := of_decide_eq_true hcheck
  obtain ⟨y, hy, hkind⟩ := (Option.any_eq_true _ _).1 hplace
  refine ⟨p, body, e, y, hu, Program.scalarFunction_of_isScalarBody hbody hscalar, hshifts, hrun,
    fun n x hx y rs hrs => ?_, rc, hrc, r, hr, htype, hy, of_decide_eq_true hkind⟩
  rw [hfree x (Array.mem_toList_iff.2 (Array.mem_of_getElem? hx))] at hrs
  cases hrs

/-- The division by zero in `1 / ((x << 40) * 0)`. -/
theorem explore_occurs_shift : ∃ p body e rc r x, Program.ofUnit shiftUnit "a.c" = .ok p ∧
    p.ScalarFunction ⟨0⟩ body ∧ explore shiftOptions p ⟨0⟩ = .ok e ∧
    (∀ n x, e.graph.node? n = some x → ∀ y rs, x.state.constraints.get? y = some rs →
      (e.catalog.symbol y).isAtomic = true) ∧
    rc ∈ e.reports ∧ r ∈ rc.reports ∧ e.graph.node? r.node = some x ∧ x.point.frame = topFrame ∧
    Occurs p ⟨0⟩ body.graph (some 0) r.finding x.point.kind := by
  obtain ⟨p, body, e, y, hu, hf, -, hrun, hatomic, rc, hrc, r, hr, -⟩ := exists_explored_shift
  obtain ⟨x, hx, hframe, hoccurs⟩ := explore_occurs hu hf rfl (.inl rfl) hrun hatomic hrc hr
  exact ⟨p, body, e, rc, r, x, hu, hf, hrun, hatomic, hrc, hr, hx, hframe, hoccurs⟩

/-- In a run of the function, the shift is undefined, and so is the product. -/
theorem Shifts.exprs_of_arrives (h : Shifts p body) (harrives : Arrives p body.graph blank start b i κ)
    (hb : b = body.graph.entry) (hi : i ≤ 7) :
    (4 ≤ i → κ.exprs ⟨3⟩ = some (.int 40)) ∧ (5 ≤ i → κ.exprs ⟨4⟩ = some .undefined) ∧
      (7 ≤ i → κ.exprs ⟨6⟩ = some .undefined) := by
  obtain ⟨op0, op1, op2, op3, op4, op5, op6, op7⟩ := h.op_eq
  obtain ⟨block, hblock, hsteps⟩ := h.exists_block
  induction harrives with
  | entry => omega
  | jump => omega
  | @step b block' i el κ _ hb' hel ih =>
    obtain rfl := hb
    cases hblock.symm.trans hb'
    cases (hsteps i (by omega)).symm.trans hel
    obtain ⟨h3, h4, h6⟩ := ih rfl (by omega)
    have hperform : Machine.settle (.expr ⟨i⟩ false) (κ.perform p blank (.expr ⟨i⟩ false)) =
      κ.evaluate p ⟨i⟩ := rfl
    rw [hperform]
    have hamount : CType.int.wrap 40 = 40 := by decide
    have hshift : ∀ n, Machine.binary? .shl n (some 40) = none := by
      intro n
      cases n <;> rfl
    have hproduct : ∀ n, Machine.binary? .mul none n = none := fun _ => rfl
    have h3' : 4 ≤ i → κ.int? ⟨3⟩ = some 40 := fun hle => by rw [Machine.int?, h3 hle]
    have h4' : 5 ≤ i → κ.int? ⟨4⟩ = none := fun hle => by rw [Machine.int?, h4 hle]
    have hlt : i < 7 := hi
    clear hel ih hperform
    interval_cases i <;> simp [Machine.evaluate, Machine.setExpr, Operand.ofInt?, *]

/-- **A division that is not by zero.** An undefined value times zero counts as zero, so the
exploration finds a division by zero where no run divides by the number zero. -/
theorem exists_undefined_divisor : ∃ p body e rc r x, Program.ofUnit shiftUnit "a.c" = .ok p ∧
    p.ScalarFunction ⟨0⟩ body ∧ shiftOptions.loopExhaustion = .sink ∧
    explore shiftOptions p ⟨0⟩ = .ok e ∧
    (∀ n x, e.graph.node? n = some x → ∀ y rs, x.state.constraints.get? y = some rs →
      (e.catalog.symbol y).isAtomic = true) ∧
    rc ∈ e.reports ∧ r ∈ rc.reports ∧ r.finding.type = Division.zeroType ∧
    e.graph.node? r.node = some x ∧ x.point.kind = .before body.graph.entry 7 ∧
    (body.graph.block? body.graph.entry).bind (·.elements[7]?) = some (.expr ⟨7⟩ false) ∧
    Division.divisor? p ⟨7⟩ = some ⟨6⟩ ∧
    ∀ args κ, Arrives p body.graph (some 0) (.start (p.function ⟨0⟩).params args)
      body.graph.entry 7 κ → κ.exprs ⟨6⟩ ≠ some (.int 0) := by
  obtain ⟨p, body, e, y, hu, hf, hshifts, hrun, hatomic, rc, hrc, r, hr, htype, hy, hkind⟩ :=
    exists_explored_shift
  obtain ⟨-, -, -, -, -, -, -, op₇⟩ := hshifts.op_eq
  obtain ⟨block, hblock, hsteps⟩ := hshifts.exists_block
  refine ⟨p, body, e, rc, r, y, hu, hf, rfl, hrun, hatomic, hrc, hr, htype, hy, hkind, ?_, ?_, ?_⟩
  · rw [hblock]
    exact hsteps 7 (by omega)
  · rw [Division.divisor?, op₇]
    rfl
  · intro args κ harrives hzero
    have hundefined := (hshifts.exprs_of_arrives harrives rfl le_rfl).2.2 le_rfl
    cases hundefined.symm.trans hzero

end PathScout

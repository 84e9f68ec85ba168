import PathScout.Proofs.KnownSymbols
import PathScout.Proofs.QuietActions

/-!
# Ways out of a block

A block that ends in a branch or in a switch is left on every way that is possible, each with what is
then known of the condition. Each way has its own values of the condition, and every number is a value
of exactly one of them. So of the valuations that satisfy the constraints before, each satisfies those
on exactly one way, the one that its value of the condition takes.

* `Terminator.exits`: the ways out of a block, each with the values that take it.
* `Terminator.existsUnique_exit`: every value takes exactly one way.
* `Exploring.switchStates_exact`: the states on the ways of a switch.
* `Exploring.Emits`: what following edges adds to the graph.
* `Exploring.branchOut_partitions`: leaving a block.
-/

namespace PathScout

open Constraints List Naming

/-! ### Values that take a way -/

/-- A way out of a block: where it leads, and which values of the condition take it. -/
structure Exit where
  target : BlockId
  takes : Int → Prop

namespace Terminator

variable {cond : ExprId}

/-- The condition that decides between the ways. -/
def condition? : Terminator → Option ExprId
  | .branch cond .. | .switch cond .. => some cond
  | .goto .. | .exit => none

/-- The ways that a condition decides between: both of a branch, or the cases and the default of a
switch on a value of type `int`. -/
def exits : Terminator → List Exit
  | .branch _ yes no _ _ => [⟨yes, (· ≠ 0)⟩, ⟨no, (· = 0)⟩]
  | .switch _ cases default _ _ =>
    cases.map (fun a => ⟨a.block, (· = CType.int.wrap a.value)⟩) ++
      [⟨default, fun n => ∀ a ∈ cases, n ≠ CType.int.wrap a.value⟩]
  | .goto .. | .exit => []

/-- A switch is on a value of type `int`, and no two of its cases are the same number there. -/
def Separates (p : Program) : Terminator → Prop
  | .switch cond cases _ _ _ => (p.expr cond).type = .int ∧
    cases.Pairwise fun a b => ¬ (2 ^ 32 : Int) ∣ a.value - b.value
  | .goto .. | .branch .. | .exit => True

theorem wrap_int_ne {a b : Int} (h : ¬ (2 ^ 32 : Int) ∣ a - b) :
    CType.int.wrap a ≠ CType.int.wrap b := fun he => by
  have := dvd_sub (dvd_typeWrap_sub .int b) (dvd_typeWrap_sub .int a)
  rw [he, sub_sub_sub_cancel_left] at this
  exact h this

/-- The ways of a switch are the cases, and then the default. -/
theorem getElem?_exits_switch {cases : List CaseTarget} {default : BlockId}
    {defaultLocation : Option Location} {location : Location} {i : Nat} {exit : Exit} :
    (switch cond cases default defaultLocation location).exits[i]? = some exit ↔
      (∃ a, cases[i]? = some a ∧ exit = ⟨a.block, (· = CType.int.wrap a.value)⟩) ∨
        i = cases.length ∧ exit = ⟨default, fun n => ∀ a ∈ cases, n ≠ CType.int.wrap a.value⟩ := by
  rw [exits]
  rcases lt_trichotomy i cases.length with hi | rfl | hi
  · rw [getElem?_append_left (by simpa using hi), getElem?_map, Option.map_eq_some_iff]
    simp [hi.ne, eq_comm]
  · simp [eq_comm]
  · rw [getElem?_append_right (by simpa using hi.le),
      getElem?_eq_none (l := [_]) (by simp; omega), getElem?_eq_none hi.le]
    simp [hi.ne']

/-- **Every value of the condition takes exactly one way.** -/
theorem existsUnique_exit {p : Program} {t : Terminator} (ht : t.condition? = some cond)
    (h : t.Separates p) (n : Int) :
    ∃! i : Nat, ∃ exit : Exit, t.exits[i]? = some exit ∧ exit.takes n := by
  cases t with
  | goto | exit => cases ht
  | branch _ yes no kind location =>
    by_cases hn : n = 0
    · refine ⟨1, ⟨_, rfl, hn⟩, ?_⟩
      rintro (_ | _ | i) ⟨exit, hexit, htakes⟩ <;> cases hexit
      · exact absurd hn htakes
      · rfl
    · refine ⟨0, ⟨_, rfl, hn⟩, ?_⟩
      rintro (_ | _ | i) ⟨exit, hexit, htakes⟩ <;> cases hexit
      · rfl
      · exact absurd htakes hn
  | switch _ cases default defaultLocation location =>
    by_cases hmatch : ∃ a ∈ cases, n = CType.int.wrap a.value
    · obtain ⟨a, ha, hn⟩ := hmatch
      obtain ⟨i, hi⟩ := getElem?_of_mem ha
      refine ⟨i, ⟨_, getElem?_exits_switch.2 (.inl ⟨a, hi, rfl⟩), hn⟩, ?_⟩
      rintro j ⟨exit, hexit, htakes⟩
      rcases getElem?_exits_switch.1 hexit with ⟨b, hj, rfl⟩ | ⟨-, rfl⟩
      · -- two cases that are the same number are one
        obtain ⟨hli, rfl⟩ := List.getElem?_eq_some_iff.1 hi
        obtain ⟨hlj, rfl⟩ := List.getElem?_eq_some_iff.1 hj
        have hpairs := pairwise_iff_getElem.1 h.2
        have heq := hn.symm.trans htakes
        rcases lt_trichotomy i j with hij | hij | hij
        · exact absurd heq (wrap_int_ne (hpairs i j hli hlj hij))
        · exact hij.symm
        · exact absurd heq.symm (wrap_int_ne (hpairs j i hlj hli hij))
      · exact absurd hn (htakes a ha)
    · push Not at hmatch
      refine ⟨cases.length, ⟨_, getElem?_exits_switch.2 (.inr ⟨rfl, rfl⟩), hmatch⟩, ?_⟩
      rintro j ⟨exit, hexit, htakes⟩
      rcases getElem?_exits_switch.1 hexit with ⟨a, hj, rfl⟩ | ⟨hj, -⟩
      · exact absurd htakes (hmatch a (mem_of_getElem? hj))
      · exact hj

end Terminator

/-! ### Numbers as conditions -/

namespace Value

variable {c d : Catalog} {v : Value}

/-- The value is a number, or a symbol of the catalog that is made of sums that fit. -/
def FittingNumber (c : Catalog) : Value → Prop
  | .int _ => True
  | .symbol s => c.HasSymbol s ∧ c.Fits s
  | _ => False

/-- The number that a value is under a valuation. -/
def number (ν : Valuation c) : Value → Int
  | .int n => n
  | .symbol s => ν.value s
  | _ => 0

section

variable (h : v.FittingNumber c)
include h

theorem FittingNumber.mono (hcd : c ≤ d) : v.FittingNumber d := by
  cases v with
  | int => trivial
  | symbol s => exact ⟨h.1.mono hcd, h.2.mono h.1 hcd⟩
  | _ => cases h

theorem FittingNumber.isCondition : v.isCondition = true := by
  cases v with
  | int | symbol => rfl
  | _ => cases h

theorem FittingNumber.fits : v.Fits c := by
  cases v with
  | int => trivial
  | symbol s => exact h.2
  | _ => cases h

theorem FittingNumber.truth?_eq (ν : Valuation c) : v.truth? ν = some (decide (v.number ν ≠ 0)) := by
  cases v with
  | int | symbol => rfl
  | _ => cases h

theorem FittingNumber.known : (v.isUnknown || v.isUndefined) = false := by
  cases v with
  | int | symbol => rfl
  | _ => cases h

/-- An assumption about a number says the same in a larger catalog. -/
theorem FittingNumber.assume_mono (hcd : c ≤ d) (m : Constraints) (truth : Bool) :
    m.assume d v truth = m.assume c v truth := by
  cases v with
  | int => rfl
  | symbol => exact assumeSymbol_mono hcd h.1 truth
  | _ => cases h

end

end Value

/-- To ask whether a number equals a constant gives a number that is one or zero. -/
theorem Naming.binary_eq_spec {c : Catalog} {v : Value} (hv : v.FittingNumber c) (k : Int) :
    c ≤ (binary .eq v (.int k) .int c).2 ∧
      (binary .eq v (.int k) .int c).1.FittingNumber (binary .eq v (.int k) .int c).2 ∧
      ∀ d, (binary .eq v (.int k) .int c).2 ≤ d → ∀ ν : Valuation d,
        ((binary .eq v (.int k) .int c).1.number ν ≠ 0 ↔ v.number ν = k) := by
  cases v with
  | int n =>
    have hfold : foldInts .eq n k .int = .int (Word.ofBool (BinaryOp.eq.holds n k)) :=
      foldInts_comparison rfl rfl n k
    show c ≤ c ∧ (foldInts .eq n k .int).FittingNumber c ∧ ∀ d, c ≤ d → ∀ ν : Valuation d,
      ((foldInts .eq n k .int).number ν ≠ 0 ↔ n = k)
    rw [hfold]
    refine ⟨le_rfl, trivial, fun d _ ν => ?_⟩
    by_cases h : n = k <;> simp [Value.number, BinaryOp.holds, Word.ofBool, h]
  | symbol s =>
    rw [binary_eq_const]
    have hcd := grows_symbol (.symInt s .eq k .int) c
    have hhas : (symbol (.symInt s .eq k .int) c).2.HasSymbol (symbol (.symInt s .eq k .int) c).1 :=
      Interned.lt_size_of_get? (get?_symbol ..)
    have he := symbol_symbol (.symInt s .eq k .int) c
    refine ⟨hcd, ⟨hhas, (hv.2.mono hv.1 hcd).compare he rfl⟩, fun d hd ν => ?_⟩
    have hvalue := ν.compare ((Catalog.symbol_mono hd hhas).trans he) rfl
    simp only [Value.number]
    rw [hvalue]
    by_cases h : ν.value s = k <;> simp [BinaryOp.holds, Word.ofBool, h]
  | _ => cases hv

/-! ### States on the ways -/

/-- A path goes on, in a state whose constraints the valuation satisfies. -/
def Valuation.Allows {c : Catalog} (ν : Valuation c) (way : Option State) : Prop :=
  ∃ t, way = some t ∧ t.constraints.Holds ν

/-- A path that goes on knows more about symbols, in normal form, and all else as before. -/
def State.Remains (s : State) (way : Option State) : Prop :=
  ∀ t, way = some t → t.constraints.Normal ∧ ∃ m, t = { s with constraints := m }

section

variable {c d : Catalog} {s t : State} {v : Value} {truth : Bool}

theorem State.remains_self (hs : s.constraints.Normal) : s.Remains (some s) := by
  rintro _ ⟨⟩
  exact ⟨hs, s.constraints, rfl⟩

theorem State.Remains.assume (h : s.Remains (some t)) (hv : v.FittingNumber c) :
    s.Remains (t.assume c v truth) := by
  obtain ⟨hnormal, m, ht⟩ := h t rfl
  rintro u hu
  obtain ⟨m', hm', rfl⟩ := Option.map_eq_some_iff.1 hu
  have hdecides := decides_assume_of_fits hnormal hv.isCondition hv.fits truth
  exact ⟨hdecides.normal hm', m', by rw [ht]⟩

/-- The valuations that an assumption about a number keeps, in any larger catalog. -/
theorem Valuation.allows_assume (hm : t.constraints.Normal) (hv : v.FittingNumber c) (hcd : c ≤ d)
    (ν : Valuation d) : ν.Allows (t.assume c v truth) ↔
      t.constraints.Holds ν ∧ decide (v.number ν ≠ 0) = truth := by
  have hd := hv.mono hcd
  have hdecides := decides_assume_of_fits hm hd.isCondition hd.fits truth
  have htruth : v.truth? ν = some truth ↔ decide (v.number ν ≠ 0) = truth := by
    rw [hd.truth?_eq, Option.some.injEq]
  rw [State.assume, ← hv.assume_mono hcd, ← htruth]
  constructor
  · rintro ⟨u, hu, hν⟩
    obtain ⟨m', hm', rfl⟩ := Option.map_eq_some_iff.1 hu
    exact (hdecides.exact hm' ν).1 hν
  · rintro ⟨hν, hb⟩
    cases hm' : t.constraints.assume d v truth with
    | none => exact absurd hb (hdecides.impossible hm' ν hν)
    | some m' => exact ⟨_, rfl, (hdecides.exact hm' ν).2 ⟨hν, hb⟩⟩

/-- A path that goes on with a state allows what the constraints of the state allow. -/
theorem Valuation.allows_some (ν : Valuation c) : ν.Allows (some t) ↔ t.constraints.Holds ν :=
  ⟨fun ⟨_, ht, hν⟩ => Option.some.inj ht ▸ hν, fun hν => ⟨t, rfl, hν⟩⟩

/-- The valuations that are left when a number is assumed to be zero, where a path goes on. -/
theorem Valuation.allows_bind_assume {rest : Option State} (hrest : s.Remains rest)
    (hv : v.FittingNumber c) (hcd : c ≤ d) (ν : Valuation d) :
    ν.Allows (rest.bind fun r => r.assume c v false) ↔ ν.Allows rest ∧ ¬ v.number ν ≠ 0 := by
  cases rest with
  | none =>
    have hnone : ¬ ν.Allows none := fun ⟨_, ht, _⟩ => nomatch ht
    exact iff_of_false hnone fun h => hnone h.1
  | some r =>
    rw [Option.bind_some, ν.allows_assume (hrest r rfl).1 hv hcd, decide_eq_false_iff_not,
      ν.allows_some]

end

namespace Exploring

/-- The states on the ways of a switch: each case goes on with the valuations that give the value its
constant, and the rest with those that give it none of the constants. -/
structure Switched (s : State) (v : Value) (cases : List CaseTarget) (rest : Option State)
    (c : Catalog) (ways : List (CaseTarget × Option State))
    (out : (List (BlockId × State) × Option State) × Catalog) : Prop where
  le : c ≤ out.2
  cases_eq : ways.map Prod.fst = cases
  ways_eq : out.1.1 = ways.filterMap fun w => w.2.map (w.1.block, ·)
  remains {w : CaseTarget × Option State} : w ∈ ways → s.Remains w.2
  remains_rest : s.Remains out.1.2
  allows {d : Catalog} {w : CaseTarget × Option State} : out.2 ≤ d → w ∈ ways → ∀ ν : Valuation d,
    ν.Allows w.2 ↔ s.constraints.Holds ν ∧ v.number ν = CType.int.wrap w.1.value
  allows_rest {d : Catalog} : out.2 ≤ d → ∀ ν : Valuation d, ν.Allows out.1.2 ↔
    ν.Allows rest ∧ ∀ a ∈ cases, v.number ν ≠ CType.int.wrap a.value

variable {c : Catalog} {s : State} {v : Value}

/-- **The states of a switch.** Every case is assumed from the state before, and its negation from what
the cases before it have left. -/
theorem switchStates_exact (cases : List CaseTarget) {rest : Option State} (hv : v.FittingNumber c)
    (hs : s.constraints.Normal) (hrest : s.Remains rest) :
    ∃ ways, Switched s v cases rest c ways (switchStates s v .int cases rest c) := by
  induction cases generalizing c rest with
  | nil =>
    exact ⟨[],
      { le := le_rfl
        cases_eq := rfl
        ways_eq := rfl
        remains := fun hw => nomatch hw
        remains_rest := hrest
        allows := fun _ hw => nomatch hw
        allows_rest := fun _ ν => ⟨fun h => ⟨h, fun a ha => nomatch ha⟩, And.left⟩ }⟩
  | cons target more ih =>
    obtain ⟨hle, hmatched, hnumber⟩ := binary_eq_spec hv (CType.int.wrap target.value)
    have hstep : switchStates s v .int (target :: more) rest c =
        let matched := binary .eq v (.int (CType.int.wrap target.value)) .int c
        let out := switchStates s v .int more (rest.bind fun r => r.assume matched.2 matched.1 false)
          matched.2
        ((((s.assume matched.2 matched.1 true).map (target.block, ·)).toList ++ out.1.1, out.1.2),
          out.2) := congrFun (if_neg (by rw [hv.known]; decide)) c
    rw [hstep]
    dsimp only
    generalize binary .eq v (.int (CType.int.wrap target.value)) .int c = matched
      at hle hmatched hnumber ⊢
    have hno : s.Remains (rest.bind fun r => r.assume matched.2 matched.1 false) := by
      cases rest with
      | none => exact fun t ht => nomatch ht
      | some r => exact hrest.assume hmatched
    obtain ⟨ways, hways⟩ := ih (hv.mono hle) hno
    generalize switchStates s v .int more _ matched.2 = out at hways ⊢
    refine ⟨(target, s.assume matched.2 matched.1 true) :: ways,
      { le := hle.trans hways.le
        cases_eq := by rw [map_cons, hways.cases_eq]
        ways_eq := ?_
        remains := fun {w} hw => ?_
        remains_rest := hways.remains_rest
        allows := fun {d w} hd hw ν => ?_
        allows_rest := fun {d} hd ν => ?_ }⟩
    · rw [hways.ways_eq]
      cases s.assume matched.2 matched.1 true <;> rfl
    · rcases List.mem_cons.1 hw with rfl | hw
      · exact (State.remains_self hs).assume hmatched
      · exact hways.remains hw
    · rcases List.mem_cons.1 hw with rfl | hw
      · rw [ν.allows_assume hs hmatched (hways.le.trans hd), decide_eq_true_eq,
          hnumber d (hways.le.trans hd) ν]
      · exact hways.allows hd hw ν
    · -- the rest holds of what was left before and does not match, and matches none of the others
      rw [hways.allows_rest hd ν, ν.allows_bind_assume hrest hmatched (hways.le.trans hd),
        hnumber d (hways.le.trans hd) ν, and_assoc, forall_mem_cons]

/-! ### Following the ways -/

/-- The graph has a node at the edge to each of the targets, in its state, and else what it had. -/
structure Emits (f : FrameId) (b : BlockId) (targets : List (BlockId × State)) (g g' : PathGraph) :
    Prop where
  keeps {m : NodeId} {x : PathNode} : g.node? m = some x → g'.node? m = some x
  emits {w : BlockId × State} : w ∈ targets →
    ∃ m, g'.node? m = some ⟨⟨.edge b w.1, f, none⟩, w.2, false⟩
  only {m : NodeId} {x : PathNode} : g'.node? m = some x →
    g.node? m = some x ∨ ∃ w ∈ targets, x = ⟨⟨.edge b w.1, f, none⟩, w.2, false⟩

theorem Emits.nil (f : FrameId) (b : BlockId) (g : PathGraph) : Emits f b [] g g where
  keeps := id
  emits hw := nomatch hw
  only hx := .inl hx

theorem Emits.append {f : FrameId} {b : BlockId} {ws ws' : List (BlockId × State)}
    {g g' g'' : PathGraph} (h : Emits f b ws g g') (h' : Emits f b ws' g' g'') :
    Emits f b (ws ++ ws') g g'' where
  keeps hx := h'.keeps (h.keeps hx)
  emits hw := by
    rcases List.mem_append.1 hw with hw | hw
    · obtain ⟨m, hm⟩ := h.emits hw
      exact ⟨m, h'.keeps hm⟩
    · exact h'.emits hw
  only hx := by
    rcases h'.only hx with hx | ⟨w, hw, rfl⟩
    · rcases h.only hx with hx | ⟨w, hw, rfl⟩
      · exact .inl hx
      · exact .inr ⟨w, mem_append_left _ hw, rfl⟩
    · exact .inr ⟨w, mem_append_right _ hw, rfl⟩

variable {f : FrameId} {b : BlockId} {n : NodeId} {V : Visits} {d : Exploration}

theorem ends_followEdge (target : BlockId) (t : State) :
    (followEdge f V n b target t).Ends d fun _ d' =>
      d'.catalog = d.catalog ∧ Emits f b [(target, t)] d.graph d'.graph := by
  have harrived : Emits f b [(target, t)] d.graph
      (arrived d n ⟨⟨.edge b target, f, none⟩, t, false⟩).graph :=
    { keeps := node?_arrived_of_node?
      emits := fun hw => by
        obtain rfl := mem_singleton.1 hw
        exact ⟨_, node?_arrived d n _⟩
      only := fun hx => by
        rcases node?_of_arrived hx with hx | ⟨-, rfl, -⟩
        · exact .inl hx
        · exact .inr ⟨(target, t), mem_singleton_self _, rfl⟩ }
  refine ⟨(), _, advance_eq n ⟨.edge b target, f, none⟩ t V d, ?_⟩
  split <;> exact ⟨rfl, harrived⟩

theorem ends_followEdges (ws : List (BlockId × State)) :
    (ws.forM fun (target, t) => followEdge f V n b target t : Exploring Unit).Ends d fun _ d' =>
      d'.catalog = d.catalog ∧ Emits f b ws d.graph d'.graph := by
  induction ws generalizing d with
  | nil => exact ends_pure ⟨rfl, .nil f b d.graph⟩
  | cons w ws ih =>
    refine (ends_followEdge w.1 w.2).bind fun _ d1 ⟨hcatalog, hw⟩ => ih.imp fun _ d2 h => ?_
    exact ⟨h.1.trans hcatalog, hw.append h.2⟩

theorem ends_followWay (target : BlockId) (way : Option State) :
    (way.forM (followEdge f V n b target)).Ends d fun _ d' => d'.catalog = d.catalog ∧
      Emits f b (way.map (target, ·)).toList d.graph d'.graph := by
  cases way with
  | none => exact ends_pure ⟨rfl, .nil f b d.graph⟩
  | some t => exact ends_followEdge target t

end Exploring

/-! ### Leaving a block -/

/-- No checker has anything to say to a condition that is not undefined. -/
theorem Checker.check_condition (checker : Checker) {cond : ExprId} {scene : Scene}
    (h : (scene.value cond).isUndefined = false) (c : Catalog) :
    checker.check (.condition cond) scene c = (.pass, c) := by
  cases checker with
  | undefinedValue =>
    show (if (scene.value cond).isUndefined = true then _ else _ : Naming Verdict) c = _
    rw [ite_apply, if_neg (by rw [h]; decide)]
    rfl
  | _ => rfl

namespace Exploring

variable {o : Options} {f : FrameId} {n : NodeId} {e : Exploration} {s : State} {cond : ExprId}
  {c : Catalog} {v : Value} {location : Location} {cases : List CaseTarget}
  {ways : List (CaseTarget × Option State)} {out : (List (BlockId × State) × Option State) × Catalog}

theorem consult_condition {point : Point} (hf : point.frame = f) (hs : e.graph.state n = s)
    (h : (s.value f cond).isUndefined = false) (visits : Nat) :
    consult o n point visits (.condition cond) e = .ok (some n, e) := by
  unfold consult
  generalize o.checkers = checkers
  induction checkers with
  | nil => rfl
  | cons checker rest ih =>
    unfold consultAll sceneAt
    rw [query_bind, naming_bind, checker.check_condition (by rw [Scene.value, hs, ← hf] at *; exact h)]
    exact ih

/-- The edges that are followed: the ways on which a path goes on. -/
def followed (ways : List (Exit × Option State)) : List (BlockId × State) :=
  ways.filterMap fun w => w.2.map (w.1.target, ·)

/-- The ways that a path takes out of a block, where the condition has a value: on each it keeps the
valuations that give the condition a value that takes this way, and nothing changes but what is known
of symbols. -/
structure Parts (c : Catalog) (s : State) (v : Value) (exits : List Exit)
    (ways : List (Exit × Option State)) : Prop where
  exits_eq : ways.map Prod.fst = exits
  remains {w : Exit × Option State} : w ∈ ways → s.Remains w.2
  allows {w : Exit × Option State} : w ∈ ways → ∀ ν : Valuation c,
    ν.Allows w.2 ↔ s.constraints.Holds ν ∧ w.1.takes (v.number ν)

/-- A branch has its two ways. -/
theorem parts_branch {yes no : BlockId} {kind : BranchKind} (hv : v.FittingNumber c)
    (hs : s.constraints.Normal) :
    Parts c s v (Terminator.branch cond yes no kind location).exits
      [(⟨yes, (· ≠ 0)⟩, s.assume c v true), (⟨no, (· = 0)⟩, s.assume c v false)] where
  exits_eq := rfl
  remains hw := by
    simp only [List.mem_cons, not_mem_nil, or_false] at hw
    rcases hw with rfl | rfl <;> exact (State.remains_self hs).assume hv
  allows hw ν := by
    simp only [List.mem_cons, not_mem_nil, or_false] at hw
    rcases hw with rfl | rfl
    · rw [ν.allows_assume hs hv le_rfl, decide_eq_true_eq]
    · rw [ν.allows_assume hs hv le_rfl, decide_eq_false_iff_not, not_not]

/-- The edges of a branch. -/
theorem followed_branch (yes no : Exit) (taken other : Option State) :
    followed [(yes, taken), (no, other)] =
      (taken.map (yes.target, ·)).toList ++ (other.map (no.target, ·)).toList := by
  cases taken <;> cases other <;> rfl

/-- A switch has the ways of its cases, and then what is left of them. -/
theorem Switched.parts {default : BlockId} {defaultLocation : Option Location}
    (h : Switched s v cases (some s) c ways out) :
    Parts out.2 s v (Terminator.switch cond cases default defaultLocation location).exits
      (ways.map (fun w => (⟨w.1.block, (· = CType.int.wrap w.1.value)⟩, w.2)) ++
        [(⟨default, fun n => ∀ a ∈ cases, n ≠ CType.int.wrap a.value⟩, out.1.2)]) where
  exits_eq := by
    rw [map_append, map_map, Terminator.exits, ← h.cases_eq, map_map]
    rfl
  remains hw := by
    rcases List.mem_append.1 hw with hw | hw
    · obtain ⟨w', hw', rfl⟩ := mem_map.1 hw
      exact h.remains hw'
    · obtain rfl := mem_singleton.1 hw
      exact h.remains_rest
  allows hw ν := by
    rcases List.mem_append.1 hw with hw | hw
    · obtain ⟨w', hw', rfl⟩ := mem_map.1 hw
      exact h.allows le_rfl hw' ν
    · obtain rfl := mem_singleton.1 hw
      rw [h.allows_rest le_rfl ν, ν.allows_some]

/-- The edges of a switch. -/
theorem Switched.followed_eq {default : BlockId} (h : Switched s v cases (some s) c ways out) :
    followed (ways.map (fun w => (⟨w.1.block, (· = CType.int.wrap w.1.value)⟩, w.2)) ++
        [(⟨default, fun n => ∀ a ∈ cases, n ≠ CType.int.wrap a.value⟩, out.1.2)]) =
      out.1.1 ++ (out.1.2.map (default, ·)).toList := by
  rw [followed, filterMap_append, filterMap_map, h.ways_eq]
  congr 1

/-- Exactly one way is open to a valuation. -/
theorem Parts.existsUnique {p : Program} {t : Terminator} {ways : List (Exit × Option State)}
    (h : Parts c s v t.exits ways) (ht : t.condition? = some cond) (hp : t.Separates p) {ν : Valuation c}
    (hν : s.constraints.Holds ν) : ∃! i : Nat, ∃ w, ways[i]? = some w ∧ ν.Allows w.2 := by
  obtain ⟨i, ⟨exit, hexit, htakes⟩, hunique⟩ := t.existsUnique_exit ht hp (v.number ν)
  rw [← h.exits_eq, getElem?_map, Option.map_eq_some_iff] at hexit
  obtain ⟨w, hw, rfl⟩ := hexit
  refine ⟨i, ⟨w, hw, (h.allows (mem_of_getElem? hw) ν).2 ⟨hν, htakes⟩⟩, ?_⟩
  rintro j ⟨w', hw', hallows⟩
  refine hunique j ⟨w'.1, ?_, ((h.allows (mem_of_getElem? hw') ν).1 hallows).2⟩
  rw [← h.exits_eq, getElem?_map, hw']
  rfl

section

variable {pred : NodeId} {b : BlockId} {V : Visits} {block : Block} {d : Exploration}
  {location : Location}

variable (hblock : blockOf f b e = .ok (block, e)) (hsettle : settle pred ⟨.exit b, f, none⟩ s e = .ok (n, d))
  (hstate : d.graph.state n = s)
  (hconsult : consult o n ⟨.exit b, f, none⟩ (V.count f b) (.condition cond) d = .ok (some n, d))
include hblock hsettle hstate hconsult

/-- Leaving a block that ends in a branch, where no checker acts: its two ways are followed. -/
theorem branchOut_of_branch {yes no : BlockId} {kind : BranchKind}
    (hterminator : block.terminator = .branch cond yes no kind location) :
    branchOut o pred s b f V e = (do
      (branchStates d.catalog s (s.value f cond)).1.forM (followEdge f V n b yes)
      (branchStates d.catalog s (s.value f cond)).2.forM (followEdge f V n b no)) d := by
  rw [branchOut, bind_of_ok hblock, hterminator]
  dsimp only
  rw [bind_of_ok hsettle, bind_of_ok hconsult]
  dsimp only
  rw [stateOf, query_bind, query_bind, hstate]

/-- Leaving a block that ends in a switch, where no checker acts: the cases are followed, and then what
is left of them. -/
theorem branchOut_of_switch {cases : List CaseTarget} {default : BlockId}
    {defaultLocation : Option Location}
    (hterminator : block.terminator = .switch cond cases default defaultLocation location) :
    branchOut o pred s b f V e = (do
      let (ways, rest) ← naming (switchStates s (s.value f cond) (d.catalog.program.expr cond).type
        cases (some s))
      ways.forM fun (target, t) => followEdge f V n b target t
      rest.forM (followEdge f V n b default)) d := by
  rw [branchOut, bind_of_ok hblock, hterminator]
  dsimp only
  rw [bind_of_ok hsettle, bind_of_ok hconsult]
  dsimp only
  rw [stateOf, query_bind, query_bind, hstate]

end

/-- **Leaving a block partitions the valuations.** A block ends in a branch, or in a switch that tells
its cases apart, and the condition is a number. Then an edge is added for every way on which the path
goes on, and no other; each differs from the state before in what is known of symbols only, and its
constraints hold of the valuations that satisfied those before and give the condition a value that
takes the way. Every valuation that satisfied the constraints before satisfies those on exactly one
of the ways. -/
theorem branchOut_partitions (pred : NodeId) {b : BlockId} {V : Visits} {block : Block}
    (hblock : blockOf f b e = .ok (block, e)) (hcond : block.terminator.condition? = some cond)
    (hseparates : block.terminator.Separates e.catalog.program)
    (hv : (s.value f cond).FittingNumber e.catalog) (hs : s.constraints.Normal) :
    ∃ n d e' ways, settle pred ⟨.exit b, f, none⟩ s e = .ok (n, d) ∧ d.graph.state n = s ∧
      branchOut o pred s b f V e = .ok ((), e') ∧ e.catalog ≤ e'.catalog ∧
      Emits f b (followed ways) d.graph e'.graph ∧
      Parts e'.catalog s (s.value f cond) block.terminator.exits ways ∧
      ∀ ν : Valuation e'.catalog, s.constraints.Holds ν →
        ∃! i : Nat, ∃ w, ways[i]? = some w ∧ ν.Allows w.2 := by
  obtain ⟨n, d, hsettle, -, hcatalog, -, hstate⟩ :
    (settle pred ⟨.exit b, f, none⟩ s).Ends e (Settled e s) := ends_settle_state s
  have hdefined : (s.value f cond).isUndefined = false := (Bool.or_eq_false_iff.1 hv.known).2
  have hconsult : consult o n ⟨.exit b, f, none⟩ (V.count f b) (.condition cond) d = .ok (some n, d) :=
    consult_condition rfl hstate hdefined _
  suffices h : ∃ e' ways, branchOut o pred s b f V e = .ok ((), e') ∧ e.catalog ≤ e'.catalog ∧
      Emits f b (followed ways) d.graph e'.graph ∧
      Parts e'.catalog s (s.value f cond) block.terminator.exits ways by
    obtain ⟨e', ways, hrun, hle, hemits, hparts⟩ := h
    exact ⟨n, d, e', ways, hsettle, hstate, hrun, hle, hemits, hparts, fun ν hν =>
      hparts.existsUnique hcond hseparates hν⟩
  cases hterminator : block.terminator with
  | goto | exit =>
    rw [hterminator] at hcond
    cases hcond
  | branch cond' yes no kind location =>
    obtain rfl : cond' = cond := by simpa [hterminator, Terminator.condition?] using hcond
    have hstates : branchStates d.catalog s (s.value f cond') =
        (s.assume e.catalog (s.value f cond') true, s.assume e.catalog (s.value f cond') false) := by
      rw [branchStates, if_neg (by rw [hv.known]; decide), hcatalog]
    obtain ⟨_, d₁, htaken, hcatalog₁, hemits₁⟩ := ends_followWay (f := f) (b := b) (n := n) (V := V)
      (d := d) yes (s.assume e.catalog (s.value f cond') true)
    obtain ⟨_, e', hother, hcatalog₂, hemits₂⟩ := ends_followWay (f := f) (b := b) (n := n) (V := V)
      (d := d₁) no (s.assume e.catalog (s.value f cond') false)
    have hsame : e'.catalog = e.catalog := (hcatalog₂.trans hcatalog₁).trans hcatalog
    have hparts : Parts e.catalog s (s.value f cond')
        (Terminator.branch cond' yes no kind location).exits _ := parts_branch hv hs
    rw [← hsame] at hparts
    refine ⟨e', _, ?_, hsame.ge, ?_, hparts⟩
    · rw [branchOut_of_branch hblock hsettle hstate hconsult hterminator, hstates, bind_of_ok htaken]
      exact hother
    · rw [followed_branch, hsame]
      exact hemits₁.append hemits₂
  | switch cond' cases default defaultLocation location =>
    obtain rfl : cond' = cond := by simpa [hterminator, Terminator.condition?] using hcond
    have htype : (d.catalog.program.expr cond').type = .int := by
      rw [hterminator] at hseparates
      rw [hcatalog]
      exact hseparates.1
    obtain ⟨ways, hways⟩ := switchStates_exact cases hv hs (State.remains_self hs)
    generalize hout : switchStates s (s.value f cond') .int cases (some s) e.catalog = out at hways
    obtain ⟨_, d₁, hcases, hcatalog₁, hemits₁⟩ := ends_followEdges (f := f) (b := b) (n := n) (V := V)
      (d := { d with catalog := out.2 }) out.1.1
    obtain ⟨_, e', hdefault, hcatalog₂, hemits₂⟩ := ends_followWay (f := f) (b := b) (n := n) (V := V)
      (d := d₁) default out.1.2
    have hsame : e'.catalog = out.2 := hcatalog₂.trans hcatalog₁
    refine ⟨e', _, ?_, hways.le.trans hsame.ge, ?_, hsame ▸ hways.parts⟩
    · rw [branchOut_of_switch hblock hsettle hstate hconsult hterminator, htype, naming_bind, hcatalog,
        hout]
      exact bind_eq_ok.2 ⟨_, d₁, hcases, hdefault⟩
    · rw [hways.followed_eq]
      exact hemits₁.append hemits₂

/-- The function `void f(void) { switch (x + 1) { case 1: ... case 2: ... default: ... } }`. -/
def switchProgram : Program where
  file := ""
  exprs := #[⟨default, .int, default⟩]
  vars := #[]
  functions := #[{ (default : Function) with
    name := "f"
    body := some ⟨⟨#[⟨#[], .switch ⟨0⟩ [⟨1, ⟨1⟩, default⟩, ⟨2, ⟨2⟩, default⟩] ⟨3⟩ none default, false⟩],
      ⟨0⟩, ⟨3⟩⟩, [], ⟨#[], []⟩⟩ }]

/-- An exploration in which `x` and `x + 1` are symbols. -/
def switchExploration : Exploration where
  catalog := { Constraints.sumCatalog with program := switchProgram }
  frames := (Frames.top ∅ ⟨0⟩).2
  worklist := { order := .depthFirst }

/-- The condition is `x + 1`, where `x` is not zero. -/
def switchState : State where
  env := ⟨[(.expr topFrame ⟨0⟩, .symbol ⟨1⟩)]⟩
  constraints := Constraints.nonzero

theorem blockOf_switchExploration : blockOf topFrame ⟨0⟩ switchExploration =
    .ok (⟨#[], .switch ⟨0⟩ [⟨1, ⟨1⟩, default⟩, ⟨2, ⟨2⟩, default⟩] ⟨3⟩ none default, false⟩,
      switchExploration) := rfl

/-- The switch on `x + 1` is left on three ways, one of them for each value of `x` but zero. -/
theorem branchOut_partitions_switch : ∃ block, blockOf topFrame ⟨0⟩ switchExploration =
    .ok (block, switchExploration) ∧ block.terminator.condition? = some ⟨0⟩ ∧
    block.terminator.Separates switchExploration.catalog.program ∧
    (switchState.value topFrame ⟨0⟩).FittingNumber switchExploration.catalog ∧
    switchState.constraints.Normal ∧
    ∃ e' ways, branchOut { checkers := [.nullDereference] } ⟨0⟩ switchState ⟨0⟩ topFrame {}
        switchExploration = .ok ((), e') ∧
      (ways : List (Exit × Option State)).map (·.1.target) = [⟨1⟩, ⟨2⟩, ⟨3⟩] ∧
      ∀ ν : Valuation e'.catalog, switchState.constraints.Holds ν →
        ∃! i : Nat, ∃ w, ways[i]? = some w ∧ ν.Allows w.2 := by
  have hfits : switchExploration.catalog.SumsFit := sumsFit_sumCatalog
  have hnumber : (switchState.value topFrame ⟨0⟩).FittingNumber switchExploration.catalog :=
    ⟨show 1 < Constraints.sumCatalog.symbols.size by decide, hfits.fits ⟨1⟩⟩
  have hseparates : (Terminator.switch ⟨0⟩ [⟨1, ⟨1⟩, default⟩, ⟨2, ⟨2⟩, default⟩] ⟨3⟩ none
      default).Separates switchExploration.catalog.program := ⟨rfl, by simp⟩
  obtain ⟨-, -, e', ways, -, -, hrun, -, -, hparts, hunique⟩ :=
    branchOut_partitions (o := { checkers := [.nullDereference] }) (V := {}) ⟨0⟩
      blockOf_switchExploration rfl hseparates hnumber normal_nonzero
  refine ⟨_, blockOf_switchExploration, rfl, hseparates, hnumber, normal_nonzero, e', ways,
    hrun, ?_, hunique⟩
  have htargets := congrArg (List.map Exit.target) hparts.exits_eq
  rw [map_map] at htargets
  exact htargets

end Exploring

end PathScout

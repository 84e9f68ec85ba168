import PathScout.Proofs.ScalarLowering
import PathScout.Proofs.ScalarSearch

/-!
# Explorations lose no run

If the exploration of a scalar function is complete, it covers every run of the function: for all
arguments, the run ends at a node of the exploration, in a state that stands for the end of the run.

* `Study.Continues.finishes`: a run from a node that leads on ends at a node.
* `Study.searching_started`: the invariant of the search holds at the start.
* `Exploration.Covers`: the exploration has a node that stands for the end of a run.
* `explore_covers`: a complete exploration covers every run.
-/

namespace PathScout

namespace Study

variable {k : Study} {z : Catalog} {s : State} {κ out : Config} {α : Assignment} {b : BlockId}
  {i : Nat} {σ : Store} {n : Int} {args : List Int}

/-! ### Runs between nodes -/

/-- All nodes that a path has to be continued from lead on. -/
def Complete (k : Study) (z : Catalog) (g : PathGraph) : Prop :=
  ∀ {n x}, g.node? n = some x → x.isResumed = true → k.Served z g x

/-- Both assignments give the same values to what variables hold at first. -/
def SameArguments (α β : Assignment) : Prop :=
  ∀ q t, β.value (.regionValue q t) = α.value (.regionValue q t)

theorem SameArguments.refl (α : Assignment) : SameArguments α α := fun _ _ => rfl

theorem SameArguments.trans {β γ : Assignment} (h : SameArguments α β) (h' : SameArguments β γ) :
    SameArguments α γ := fun q t => (h' q t).trans (h q t)

/-- A node at which a block is continued stands for the configuration: the block is entered, or a
step of it was done. -/
inductive Continues (k : Study) (z : Catalog) (g : PathGraph) (b : BlockId) (α : Assignment) :
    Nat → Config → Prop where
  | entrance {κ : Config} : k.Reached z g (.entrance b) (k.liveIn b) κ α → Continues k z g b α 0 κ
  | after {i : Nat} {block : Block} {el : Element} {κ : Config} :
    k.body.graph.block? b = some block → block.elements[i]? = some el →
    k.Reached z g (.after b i) (k.liveFrom block (i + 1)) κ α →
    Continues k z g b α (i + 1) (κ.settle el)

variable {g : PathGraph} {block : Block}

/-- **One step of a run.** -/
theorem Continues.step (h : k.Continues z g b α i κ) (hg : k.Complete z g)
    (hb : k.body.graph.block? b = some block) :
    (∀ el κ', block.elements[i]? = some el → κ.act? k.program k.blank el = some κ' →
      k.Reached z g (.after b i) (k.liveFrom block (i + 1)) κ' α) ∧
      (block.elements[i]? = none → k.Leaves z g b block.terminator κ α) := by
  cases h with
  | entrance hreached =>
    obtain ⟨n, s, hn, hagrees⟩ := hreached
    have hserved : k.Proceeds z g b 0 s := hg hn rfl
    exact hserved hb (hagrees.mono fun x hx => live_of_liveFrom_zero hb hx)
  | after hb' hel hreached =>
    cases hb.symm.trans hb'
    obtain ⟨n, s, hn, hagrees⟩ := hreached
    have hserved : k.Proceeds z g b _ (k.settled b _ s) := hg hn rfl
    exact hserved hb (hagrees.settled hb hel)

/-- **A run ends at a node.** -/
theorem Continues.finishes (hrun : Halts k.program k.body.graph k.blank b i κ out)
    (h : k.Continues z g b α i κ) (hg : k.Complete z g) :
    ∃ β, SameArguments α β ∧ k.Reached z g .finish [] out β := by
  induction hrun generalizing α with
  | step hb hel hact _ ih =>
    obtain ⟨hstep, -⟩ := h.step hg hb
    exact ih (.after hb hel (hstep _ _ hel hact))
  | jump hb hnone hnext _ ih =>
    obtain ⟨-, hleave⟩ := h.step hg hb
    obtain ⟨n, s, hn, hagrees⟩ := (hleave hnone).1 _ hnext
    have hserved : k.Enters z g _ s := hg hn rfl
    obtain ⟨β, hβ, hreached⟩ := hserved hagrees
    obtain ⟨γ, hγ, hfinish⟩ := ih (.entrance hreached)
    exact ⟨γ, SameArguments.trans hβ hγ, hfinish⟩
  | exit hb hnone hexit =>
    obtain ⟨-, hleave⟩ := h.step hg hb
    exact ⟨α, .refl α, (hleave hnone).2 hexit⟩

/-! ### The start -/

/-- A catalog without regions and symbols. -/
theorem regular_ofProgram (k : Study) : k.Regular (.ofProgram k.program) where
  program := rfl
  wellFormed := ⟨fun hp => (nomatch hp), fun _ hp => (nomatch hp)⟩
  arithmetic := Catalog.arithmetic_ofProgram k.program

/-- The exploration of the function before the first pending node is continued. -/
def start (k : Study) : Exploration := .start k.options k.program k.function

/-- At the start, memory holds what global variables start with, if that. -/
theorem exists_opening (k : Study) : k.Regular k.start.catalog ∧
    ∃ σ, (Exploration.opening k.options k.program k.function).1 = { store := σ } ∧
      k.Outset k.start.catalog σ := by
  show k.Regular (Exploration.opening _ _ _).2 ∧ ∃ σ, _ ∧ k.Outset (Exploration.opening _ _ _).2 σ
  unfold Exploration.opening
  split
  · have hbegins := begins_ofGlobals k.options.store k.regular_ofProgram
    exact ⟨hbegins.regular, hbegins.state⟩
  · exact ⟨k.regular_ofProgram, {}, rfl, fun hb => (nomatch hb), fun hb => (nomatch hb)⟩

/-- The node at the entry of the function is pending, and no other. -/
theorem searching_start (k : Study)
    (hstate : (Exploration.opening k.options k.program k.function).1 = { store := σ })
    (hσ : k.Outset k.start.catalog σ) :
    k.Searching k.start ∧ k.start.worklist.pending.length ≤ k.start.graph.size ∧
      ∃ n, k.start.graph.node? n = some ⟨⟨.entry, topFrame, none⟩, { store := σ }, false⟩ := by
  have hroot : Exploration.root k.options k.program k.function =
      ⟨⟨.entry, topFrame, none⟩, { store := σ }, false⟩ := by
    rw [Exploration.root, hstate]
  obtain ⟨n, hpending, hnode⟩ := Exploration.start_spec k.options k.program k.function
  rw [hroot] at hnode
  have hn := (hnode n _).2 ⟨rfl, rfl⟩
  refine ⟨⟨⟨k.exists_opening.1, (Frames.top_empty k.function).2⟩, fun {q} hq => ?_,
    fun {m y} hm _ => ?_⟩, ?_, n, hn⟩
  · cases List.mem_singleton.1 (hpending ▸ hq)
    exact ⟨_, hn, rfl, rfl, rfl, hσ.tame⟩
  · obtain ⟨rfl, -⟩ := (hnode m y).1 hm
    exact .inl ⟨_, hpending ▸ List.mem_singleton_self _, rfl⟩
  · show (Exploration.start _ _ _).worklist.pending.length ≤ _
    rw [hpending]
    exact Nat.lt_of_le_of_lt (Nat.zero_le _) (Interned.lt_size_of_get? hn)

/-! ### The arguments -/

open Classical in
/-- The assignment that gives what variables hold at first the values that they have in a run. -/
noncomputable def atStart (z : Catalog) (κ : Config)
    (hκ : ∀ {x n}, κ.vars x = some n → n ∈ CType.int.domain) : Assignment where
  value a := if h : ∃ n r, a = .regionValue r .int ∧ HasVar z κ r n then h.choose else 0
  mem_domain a := by
    split
    · next h =>
      obtain ⟨r, rfl, x, -, hn⟩ := h.choose_spec
      exact hκ hn
    · exact CType.zero_mem_domain _

theorem value_atStart {hκ : ∀ {x n}, κ.vars x = some n → n ∈ CType.int.domain} {r : RegionId}
    (h : HasVar z κ r n) : (atStart z κ hκ).value (.regionValue r .int) = n := by
  have hex : ∃ n q, Symbol.regionValue r .int = .regionValue q .int ∧ HasVar z κ q n := ⟨n, r, rfl, h⟩
  refine (dif_pos hex).trans ?_
  obtain ⟨q, hq, hchosen⟩ := hex.choose_spec
  cases hq
  exact hchosen.unique h

theorem mem_of_start {params : List VarId} {x : VarId} (h : (Config.start params args).vars x = some n) :
    x ∈ params ∧ n ∈ args := by
  obtain ⟨l, r, hzip, -⟩ := List.lookup_eq_some_iff.1 h
  exact List.of_mem_zip (show (x, n) ∈ params.zip args by rw [hzip]; simp)

/-- The state at the start stands for the start of every run. -/
theorem agrees_start {c : Catalog} {live : VarId → Prop} (hσ : k.Outset c σ) (hc : k.Regular c)
    (hcz : c ≤ z)
    (hargs : ∀ {x n}, (Config.start (k.program.function k.function).params args).vars x = some n →
      n ∈ CType.int.domain) :
    k.Agrees z live { store := σ } (Config.start (k.program.function k.function).params args)
      (atStart z _ hargs) where
  int h := nomatch h
  place h := nomatch h
  result h := nomatch h
  noResult _ := rfl
  var {x n r} hx hn _ hr := by
    have hnone : ∀ kind, σ.bindings.get? ⟨r, kind⟩ = none := fun kind => by
      by_contra hsome
      obtain ⟨v, hv⟩ := Option.ne_none_iff_exists'.1 hsome
      have hforeign := hσ.foreign (OrderedMap.mem_of_lookup_eq hv)
      exact not_foreign hx (hr.of_le hcz hc.wellFormed hforeign.1) hforeign
    unfold Keeps
    rw [show σ.direct? r = none from hnone .direct, show σ.default? r = none from hnone .default]
    exact ⟨(mem_of_start hn).1, value_atStart ⟨x, hr, hn⟩⟩
  range h := nomatch h
  intDomain h := nomatch h
  varDomain := hargs

end Study

/-! ### Every run is covered -/

/-- The exploration has a node at the end of the function that stands for the end of the run: for
some numbers, with the arguments as the first values of the parameters, all ranges of its state hold
and its state returns what the run returns. -/
def Exploration.Covers (e : Exploration) (start out : Config) : Prop :=
  ∃ n s α, e.graph.node? n = some ⟨⟨.finish, topFrame, none⟩, s, false⟩ ∧
    (∀ x r m, start.vars x = some m → e.catalog.IsVar topFrame x r →
      α.value (.regionValue r .int) = m) ∧
    (∀ x rs, s.constraints.get? x = some rs → e.catalog.eval α x ∈ rs) ∧
    (∀ m, out.result = some m → ∃ v, s.result? topFrame = some v ∧ v.Denotes e.catalog α m) ∧
    (out.result = none → s.result? topFrame = none)

variable {u : SourceUnit} {file : String} {p : Program} {f : FunctionId} {body : FunctionBody}
  {o : Options} {e : Exploration} {args : List Int} {out : Config}

/-- **A complete exploration covers every run.** -/
theorem explore_covers (hp : Program.ofUnit u file = .ok p) (hf : p.ScalarFunction f body)
    (hnodes : 0 < o.maxNodes) (hrun : explore o p f = .ok e) (hcoverage : e.coverage = [])
    (hargs : ∀ n ∈ args, n ∈ CType.int.domain)
    (hhalts : Halts p body.graph o.store.blank body.graph.entry 0
      (Config.start (p.function f).params args) out) :
    e.Covers (Config.start (p.function f).params args) out := by
  let k : Study := ⟨o, p, f, body, hf.isScalar hp⟩
  have hdomain : ∀ {x n}, (Config.start (p.function f).params args).vars x = some n →
      n ∈ CType.int.domain := fun h => hargs _ (Study.mem_of_start h).2
  have hsearch := (Exploration.explore_eq_ok hf.body_eq).1 hrun
  obtain ⟨hregular₀, σ, hstate, hσ⟩ := k.exists_opening
  obtain ⟨hsearching, hlength, n, hn⟩ := k.searching_start hstate hσ
  obtain ⟨hregular, hle, hnode, hserved⟩ := Study.search_spec hsearching hnodes (by
    show o.maxNodes + _ ≤ o.maxNodes + _
    omega) hsearch
  have hcomplete : k.Complete e.catalog e.graph := hserved hcoverage
  have henters : k.Enters e.catalog e.graph body.graph.entry { store := σ } :=
    hcomplete (hnode hn) rfl
  obtain ⟨β, hβ, hreached⟩ := henters (Study.agrees_start hσ hregular₀ hle hdomain)
  obtain ⟨γ, hγ, m, s, hm, hagrees⟩ := Study.Continues.finishes hhalts (.entrance hreached) hcomplete
  have hsame := Study.SameArguments.trans hβ hγ
  exact ⟨m, s, γ, hm, fun x r i hx hr => (hsame r .int).trans (Study.value_atStart ⟨x, hr, hx⟩),
    fun x rs hx => hagrees.range hx, fun i hi => hagrees.result hi, hagrees.noResult⟩

/-! ### A threshold -/

/-- The unit `int f(int n) { if (n == 40) return 1; return 0; }`. -/
def thresholdUnit : SourceUnit :=
  let span : Span := .point ⟨1, 1⟩
  let test : Expr := .binary span .eq (.ident span "n") (.int span 40)
  .single .int [("n", .int)]
    [.ifThen ⟨1, 1⟩ test (.return ⟨1, 1⟩ (some (.int span 1))) none, .return ⟨1, 1⟩ (some (.int span 0))]

/-- The run for the argument 40 is covered. -/
theorem explore_covers_threshold : ∃ p body o e out,
    Program.ofUnit thresholdUnit "a.c" = .ok p ∧ p.ScalarFunction ⟨0⟩ body ∧ 0 < o.maxNodes ∧
      explore o p ⟨0⟩ = .ok e ∧ e.coverage = [] ∧ (∀ n ∈ [(40 : Int)], n ∈ CType.int.domain) ∧
      Halts p body.graph o.store.blank body.graph.entry 0
        (Config.start (p.function ⟨0⟩).params [40]) out ∧ out.result = some 1 ∧
      e.Covers (Config.start (p.function ⟨0⟩).params [40]) out := by
  have hcheck : (Program.ofUnit thresholdUnit "a.c").toOption.any (fun p =>
      (p.function ⟨0⟩).body.any fun body => p.isScalarBody ⟨0⟩ body &&
        ((explore { checkers := Checker.all } p ⟨0⟩).toOption.any fun e => e.coverage = []) &&
        (Config.run? p body.graph (some 0) 20 body.graph.entry 0
          (Config.start (p.function ⟨0⟩).params [40])).any (·.result = some 1)) = true := by
    decide +kernel
  obtain ⟨p, hu, hcheck⟩ := exists_ok_of_any hcheck
  obtain ⟨body, hbody, hcheck⟩ := (Option.any_eq_true _ _).1 hcheck
  simp only [Bool.and_eq_true] at hcheck
  obtain ⟨⟨hbodyScalar, hexplored⟩, hran⟩ := hcheck
  have hscalar := Program.scalarFunction_of_isScalarBody hbody hbodyScalar
  obtain ⟨e, hexplore, hcoverage⟩ := exists_ok_of_any hexplored
  obtain ⟨out, hout, hresult⟩ := (Option.any_eq_true _ _).1 hran
  have hnodes : 0 < ({ checkers := Checker.all } : Options).maxNodes := by decide
  have hargs : ∀ n ∈ [(40 : Int)], n ∈ CType.int.domain := by
    intro n hn
    cases List.mem_singleton.1 hn
    decide
  exact ⟨p, body, { checkers := Checker.all }, e, out, hu, hscalar, hnodes, hexplore,
    of_decide_eq_true hcoverage, hargs, .of_run? hout, of_decide_eq_true hresult,
    explore_covers hu hscalar hnodes hexplore (of_decide_eq_true hcoverage) hargs (.of_run? hout)⟩

end PathScout

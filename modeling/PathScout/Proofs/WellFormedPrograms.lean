import PathScout.Proofs.LoweredUnits

/-!
# Well-formed programs

The flow graphs of a built program have one entry and one exit and lead nowhere else, and on every walk
from the entry all values are at hand where they are needed. No expression is evaluated in two places.

* `FlowGraph.WellFormed`: what holds of each graph.
* `Program.ofUnit_wellFormed`: it holds of all graphs of a built program.
-/

namespace PathScout

/-- The graph starts with its first block and ends with one empty block, all ways lead to blocks of
the graph, and what a step or the end of a block needs is at hand on every walk to it. -/
structure FlowGraph.WellFormed (p : Program) (g : FlowGraph) : Prop where
  entry : g.entry = ⟨0⟩ ∧ ∃ block, g.block? g.entry = some block
  exit : ∃ block, g.block? g.exit = some block ∧ block.elements = #[] ∧ block.terminator = .exit
  exit_unique : ∀ b block, g.block? b = some block → block.terminator = .exit → b = g.exit
  successor : ∀ b block, g.block? b = some block → ∀ t ∈ block.terminator.successors,
    ∃ target, g.block? t = some target
  atHand : ∀ steps b i block, g.Walk steps b i → g.block? b = some block →
    (∀ el, block.elements[i]? = some el → ∀ x ∈ el.operands p, AtHand p steps x) ∧
      (block.elements[i]? = none → ∀ x ∈ block.terminator.operands, AtHand p steps x)

/-- No expression is evaluated by two steps of the program. -/
def Program.EvaluatesOnce (p : Program) : Prop :=
  ∀ (f f' : FunctionId) (body body' : FunctionBody) (b b' : BlockId) (block block' : Block)
    (i i' : Nat) (e : ExprId) (r r' : Bool),
    (p.function f).body = some body → (p.function f').body = some body' →
    body.graph.block? b = some block → body'.graph.block? b' = some block' →
    block.elements[i]? = some (.expr e r) → block'.elements[i']? = some (.expr e r') →
    f = f' ∧ b = b' ∧ i = i'

namespace Draft

variable {d : Draft} {p : Program}

theorem exists_block?_graph {b : BlockId} (h : b.index < d.room) :
    ∃ block, d.graph.block? b = some block := by
  rw [block?_graph, block?, Array.getElem?_eq_getElem h]
  exact ⟨_, rfl⟩

theorem Sound.wellFormed (hd : d.Sound) (hp : d.program.Keeps p) : d.graph.WellFormed p where
  entry := ⟨rfl, exists_block?_graph (Nat.zero_lt_one.trans hd.idle_exit.1)⟩
  exit := by
    obtain ⟨block, hb, hempty, hexit⟩ := hd.exit
    refine ⟨block.close, ?_, hempty, by rw [OpenBlock.close, hexit]; rfl⟩
    change d.graph.block? ⟨1⟩ = _
    rw [block?_graph, hb]
    rfl
  exit_unique b block hb hexit := by
    obtain ⟨source, hsource, rfl⟩ := exists_of_block?_graph hb
    rcases close_terminator source with h | ⟨-, h⟩
    · exact (hd.block b source hsource).exit (h.trans (congrArg some hexit))
    · cases h.symm.trans hexit
  successor b block hb t ht := exists_block?_graph (hd.successor_graph hb ht).1
  atHand steps b i block hwalk hb := (hd.certified hp).atHand hwalk hb

end Draft

variable {u : SourceUnit} {file : String} {p : Program}

theorem Program.Built.evaluatesOnce {globals : Names} (hp : p.Built globals) : p.EvaluatesOnce := by
  intro f f' body body' b b' block block' i i' e r r' hf hf' hb hb' hi hi'
  have hsame : f = f' := hp.apart f f' body body' e hf hf'
    ⟨b, block, r, hb, Array.mem_of_getElem? hi⟩ ⟨b', block', r', hb', Array.mem_of_getElem? hi'⟩
  subst hsame
  cases hf.symm.trans hf'
  obtain ⟨d, hd⟩ := hp.body f body hf
  rw [hd.graph_eq] at hb hb'
  obtain ⟨source, hsource, rfl⟩ := Draft.exists_of_block?_graph hb
  obtain ⟨source', hsource', rfl⟩ := Draft.exists_of_block?_graph hb'
  exact ⟨rfl, hd.sound.unique b b' source source' i i' e r r' hsource hsource' hi hi'⟩

theorem Program.Built.wellFormed {globals : Names} {f : FunctionId} {body : FunctionBody}
    (hp : p.Built globals) (hf : (p.function f).body = some body) : body.graph.WellFormed p := by
  obtain ⟨d, hd⟩ := hp.body f body hf
  rw [hd.graph_eq]
  exact hd.sound.wellFormed hd.keeps

/-- **Every graph of a built program is well formed, and no expression is evaluated twice.** -/
theorem Program.ofUnit_wellFormed (h : Program.ofUnit u file = .ok p) :
    (∀ f body, (p.function f).body = some body → body.graph.WellFormed p) ∧ p.EvaluatesOnce := by
  obtain ⟨globals, hp⟩ := Program.ofUnit_built h
  exact ⟨fun f body hf => hp.wellFormed hf, hp.evaluatesOnce⟩

/-- The unit `int f(int n) { while (n && 1) return n ? n : 1; }`. -/
def branchingUnit : SourceUnit :=
  let span : Span := .point ⟨1, 1⟩
  let n : Expr := .ident span "n"
  let one : Expr := .int span 1
  .single .int [("n", .int)]
    [.whileDo ⟨1, 1⟩ (.logical span .and n one) (.return ⟨1, 1⟩ (some (.conditional span n n one)))]

theorem exists_branching : ∃ p body, Program.ofUnit branchingUnit "a.c" = .ok p ∧
    (p.function ⟨0⟩).body = some body := by
  have hbody : (Program.ofUnit branchingUnit "a.c").toOption.any
      (fun p => (p.function ⟨0⟩).body.isSome) = true := by decide +kernel
  obtain ⟨p, hu, hbody⟩ := exists_ok_of_any hbody
  obtain ⟨body, hf⟩ := Option.isSome_iff_exists.1 hbody
  exact ⟨p, body, hu, hf⟩

/-- A loop with a joined condition and a joined result. -/
theorem Program.ofUnit_wellFormed_branching : ∃ p, Program.ofUnit branchingUnit "a.c" = .ok p ∧
    (∃ body, (p.function ⟨0⟩).body = some body) ∧
      (∀ f body, (p.function f).body = some body → body.graph.WellFormed p) ∧ p.EvaluatesOnce := by
  obtain ⟨p, body, hu, hf⟩ := exists_branching
  exact ⟨p, hu, ⟨body, hf⟩, Program.ofUnit_wellFormed hu⟩

end PathScout

import PathScout.Proofs.PlacedStmts
import PathScout.Proofs.WalkedBodies
import PathScout.Proofs.WellFormedPrograms

/-!
# Every cycle passes the head of a loop

The places of the blocks of a function show that its graph has no cycle but through the heads of
loops: all other edges lead to a higher place, or to the exit, from which no edge leads on. This holds for
any nesting of loops and switches, for jumps into and out of loops, and for jumps back and forth.

* `FlowGraph.Climbs`: the blocks of a graph have such places.
* `Lower.lays_lowerBody`: building a body gives places to its blocks.
* `Program.ofUnit_cycle_passes_head`: every cycle of a built program passes a block that is marked.
-/

namespace PathScout

open Lower List Option Checked

/-! ### Cycles of a graph -/

namespace FlowGraph

variable {g : FlowGraph} {b c : BlockId} {rest : List BlockId}

/-- The end of a block leads to the other block. -/
def Edge (g : FlowGraph) (b c : BlockId) : Prop :=
  ∃ block, g.block? b = some block ∧ c ∈ block.terminator.successors

instance (g : FlowGraph) (b c : BlockId) : Decidable (g.Edge b c) :=
  decidable_of_iff (∃ block ∈ g.block? b, c ∈ block.terminator.successors) (by
    simp only [Edge, mem_def])

/-- The block is marked as the head of a loop. -/
def IsHead (g : FlowGraph) (b : BlockId) : Prop :=
  ∃ block, g.block? b = some block ∧ block.loopHead = true

/-- The blocks have places so that no edge leads back, but to the head of a loop. -/
def Climbs (g : FlowGraph) : Prop :=
  ∃ place : BlockId → WithTop ℚ, ∀ b c, g.Edge b c → c = g.exit ∨ g.IsHead c ∨ place b < place c

theorem edge_of_chain {walk : List BlockId} (h : List.IsChain g.Edge (walk ++ [c])) (hb : b ∈ walk) :
    ∃ target, g.Edge b target := by
  induction walk with
  | nil => cases hb
  | cons x walk ih =>
    cases walk with
    | nil =>
      rw [mem_singleton.1 hb]
      exact ⟨c, (isChain_cons_cons.1 h).1⟩
    | cons y walk =>
      obtain ⟨hxy, htail⟩ := isChain_cons_cons.1 h
      rcases mem_cons.1 hb with rfl | hb
      · exact ⟨y, hxy⟩
      · exact ih htail hb

/-- If no edge leads on from the exit, then a cycle passes the head of a loop. -/
theorem Climbs.exists_head (hg : g.Climbs) (hexit : ∀ c, ¬ g.Edge g.exit c)
    (hcycle : List.IsChain g.Edge (b :: rest ++ [b])) : ∃ c ∈ b :: rest, g.IsHead c := by
  obtain ⟨place, hplace⟩ := hg
  by_contra hnone
  push Not at hnone
  -- without heads, every edge of the cycle would lead to a higher place
  have hup : List.IsChain (fun x y => place x < place y) (b :: rest ++ [b]) := by
    refine hcycle.imp_of_mem_imp fun x y _ hy hxy => ?_
    have hy' : y ∈ b :: rest := by
      rcases mem_append.1 hy with hy | hy
      · exact hy
      · rw [mem_singleton.1 hy]
        exact mem_cons_self
    rcases hplace x y hxy with rfl | hhead | hlt
    · obtain ⟨target, htarget⟩ := edge_of_chain hcycle hy'
      exact absurd htarget (hexit target)
    · exact absurd hhead (hnone y hy')
    · exact hlt
  have hpairwise := isChain_iff_pairwise.1 hup
  exact (rel_of_pairwise_cons hpairwise (mem_append_right rest mem_cons_self)).false

end FlowGraph

/-! ### Bodies -/

namespace Chart

/-- A function whose entry and exit were opened. -/
def begun (globals : Names) (p : Program) (f : FunctionId) (returns : CType) : Chart where
  state := (Draft.begun globals p f returns).state
  place := fun _ => 0
  here := 0
  late := 0

variable {globals : Names} {p : Program} {f : FunctionId} {returns : CType} {G : Chart}

theorem stands_begun : (begun globals p f returns).Stands 1 where
  sound := by
    refine ⟨fun b hb => ?_, fun b c hbc => ?_, fun l hl => ?_, fun l hl => ?_⟩
    · cases hb
      exact ⟨Nat.zero_lt_two, le_rfl⟩
    · obtain ⟨block, t, hb, ht, hc⟩ := hbc
      rcases (Draft.of_block?_begun hb).2 with ⟨-, hnone⟩ | ⟨-, hexit⟩
      · cases hnone.symm.trans ht
      · cases hexit.symm.trans ht
        cases hc
    · cases hl
    · cases hl
  here := zero_lt_one
  late := zero_lt_one
  leave t ht := by cases ht
  again t ht := by cases ht

/-- The places of the blocks are places in the graph; a block without an end leads to the exit. -/
theorem Sound.climbs (hG : G.Sound) : G.state.graph.Climbs := by
  have hclosed (b : BlockId) : G.state.graph.block? b = (G.state.block? b).map OpenBlock.close := by
    simp only [FlowGraph.block?, Lowering.graph, Lowering.block?, Array.getElem?_map]
  refine ⟨G.place, fun b c hbc => ?_⟩
  obtain ⟨block, hb, hc⟩ := hbc
  rw [hclosed] at hb
  obtain ⟨source, hsource, rfl⟩ := map_eq_some_iff.1 hb
  rcases Draft.close_terminator source with ht | ⟨-, ht⟩
  · rcases hG.edge b c ⟨source, _, hsource, ht, hc⟩ with h | ⟨target, htarget, hhead⟩ | ⟨-, h, -⟩
    · exact .inl h
    · exact .inr (.inl ⟨target.close, by rw [hclosed, htarget]; rfl, hhead⟩)
    · exact .inr (.inr h)
  · rw [ht, Terminator.successors, mem_singleton] at hc
    exact .inl hc

end Chart

namespace Lower

theorem climbs_declareParams (params : List Param) : Climbs (declareParams params) :=
  climbs_mapM _ fun _ _ => (keepsFlow_requireComplete _ _).climbs.bind fun _ =>
    (keepsFlow_declareVar _ _ _ _).climbs

/-- **Building a body** gives places to its blocks. -/
theorem lays_lowerBody (d : FunctionDecl) (body : List Stmt) {globals : Names} {p : Program}
    {f : FunctionId} {vs : List VarId} {s : Lowering}
    (h : lowerBody d body { program := p, globals := globals, function := f, returns := d.returns } =
      .ok (vs, s)) : s.graph.Climbs := by
  have hrest : Lays (do
      let params ← declareParams d.params
      lowerStmts body
      jumpIfOpen ⟨1⟩
      return params) (.begun globals p f d.returns) fun _ H => H.Sound := by
    have hstands : (Chart.begun globals p f d.returns).Stands 1 := Chart.stands_begun
    refine ((climbs_declareParams d.params).proceeds _ 1 hstands).bind fun vs G hG => ?_
    refine (proceeds_lowerStmts body G 1 (hstands.moves hG)).bind fun _ H hH => ?_
    exact (lays_jumpIfOpen hH.sound (.inl rfl)).bind fun _ K hK => lays_pure hK.sound
  obtain ⟨G, rfl, hG⟩ := hrest vs s h
  exact hG.climbs

end Lower

/-! ### Programs -/

/-- The blocks of every body have places so that no edge leads back, but to the head of a loop. -/
def Program.Climbs (p : Program) : Prop :=
  ∀ f body, (p.function f).body = some body → body.graph.Climbs

section

variable {p p' : Program} {globals : Names} {d : FunctionDecl} {f : FunctionId} {u : SourceUnit}
  {file : String} {body : FunctionBody} {b : BlockId} {rest : List BlockId}

theorem lowerFunction_climbs {stmts : List Stmt} (hp : p.Built globals) (hclimbs : p.Climbs)
    (h : lowerFunction globals p f d stmts = .ok p') : p'.Climbs := by
  obtain ⟨⟨vs, s⟩, hrun, h⟩ := bind_eq_ok.1 h
  have hgraph := lays_lowerBody d stmts hrun
  obtain ⟨draft, hdraft, hd, -⟩ := sends_lowerBody d stmts hp.linear hp.names hrun
  have hannounces : p.Announces s.program := hdraft ▸ hd.announces
  dsimp only at h
  split at h
  · cases h
  · cases h
    intro g out hg
    rw [function_modify] at hg
    split at hg
    · cases hg
      exact hgraph
    · -- the function was there before, for one that was only announced has no body
      have hlt : g.index < p.functions.size := by
        by_contra hge
        rw [hannounces.body_eq_none g (not_lt.1 hge)] at hg
        cases hg
      rw [hannounces.function_eq g hlt] at hg
      exact hclimbs g out hg

theorem lowerDefinition_climbs (hp : p.Built globals) (hclimbs : p.Climbs)
    (h : lowerDefinition globals p d = .ok p') : p'.Climbs := by
  unfold lowerDefinition at h
  split at h
  · exact lowerFunction_climbs hp hclimbs h
  · cases h
    exact hclimbs

theorem Program.ofUnit_climbs (h : Program.ofUnit u file = .ok p) : p.Climbs := by
  obtain ⟨q, hq, h⟩ := bind_eq_ok.1 h
  obtain ⟨t, ht, h⟩ := bind_eq_ok.1 h
  have hplain := declareItems_plain hq ht
  have hstart : t.program.Climbs := fun f body hbody => by
    rw [hplain.body f] at hbody
    cases hbody
  exact (foldlM_keeps (P := fun p : Program => p.Built t.globals ∧ p.Climbs)
    (fun d p p' hp h => ⟨lowerDefinition_built d hp.1 h, lowerDefinition_climbs hp.1 hp.2 h⟩) _
    ⟨hplain.built, hstart⟩ h).2

/-- **Every cycle passes the head of a loop.** Whatever a body is made of, going around in its graph
leads through a block that is marked as the head of a loop, where the loop may be widened. -/
theorem Program.ofUnit_cycle_passes_head (h : Program.ofUnit u file = .ok p)
    (hbody : (p.function f).body = some body)
    (hcycle : List.IsChain body.graph.Edge (b :: rest ++ [b])) :
    ∃ c ∈ b :: rest, ∃ block, body.graph.block? c = some block ∧ block.loopHead = true := by
  obtain ⟨globals, hp⟩ := Program.ofUnit_built h
  refine (Program.ofUnit_climbs h f body hbody).exists_head (fun c hc => ?_) hcycle
  obtain ⟨block, hb, hc⟩ := hc
  obtain ⟨exit, hexit, -, hend⟩ := (hp.wellFormed hbody).exit
  cases hexit.symm.trans hb
  rw [hend] at hc
  cases hc

end

/-- The unit `int f(int n) { again: do { if (n) goto again; } while (n); return n; }`. -/
def jumpingUnit : SourceUnit :=
  let l : Location := ⟨1, 1⟩
  let n : Expr := .ident (.point l) "n"
  .single .int [("n", .int)]
    [.label l "again", .doWhile l (.block l [.ifThen l n (.goto l "again") none]) n, .return l (some n)]

/-- The loop of the unit, and the way out of it and back to the label before it. -/
def jumpingCycles : List (BlockId × List BlockId) :=
  [(⟨3⟩, [⟨7⟩, ⟨4⟩]), (⟨2⟩, [⟨3⟩, ⟨6⟩])]

theorem exists_jumping : ∃ p body, Program.ofUnit jumpingUnit "a.c" = .ok p ∧
    (p.function ⟨0⟩).body = some body ∧
      ∀ x ∈ jumpingCycles, List.IsChain body.graph.Edge (x.1 :: x.2 ++ [x.1]) := by
  have hbuilt : (Program.ofUnit jumpingUnit "a.c").toOption.any (fun p =>
      (p.function ⟨0⟩).body.any fun body => jumpingCycles.all fun x =>
        decide (List.IsChain body.graph.Edge (x.1 :: x.2 ++ [x.1]))) = true := by decide +kernel
  obtain ⟨p, hu, hbuilt⟩ := exists_ok_of_any hbuilt
  obtain ⟨body, hbody, hcycles⟩ := (any_eq_true _ _).1 hbuilt
  exact ⟨p, body, hu, hbody, fun x hx => of_decide_eq_true (all_eq_true.1 hcycles x hx)⟩

theorem Program.ofUnit_cycle_passes_head_jumping : ∃ p body,
    Program.ofUnit jumpingUnit "a.c" = .ok p ∧ (p.function ⟨0⟩).body = some body ∧
      ∀ x ∈ jumpingCycles, ∃ c ∈ x.1 :: x.2, ∃ block, body.graph.block? c = some block ∧
        block.loopHead = true := by
  obtain ⟨p, body, hp, hbody, hcycles⟩ := exists_jumping
  exact ⟨p, body, hp, hbody, fun x hx => Program.ofUnit_cycle_passes_head hp hbody (hcycles x hx)⟩

end PathScout

import PathScout.Proofs.RecordedSteps
import PathScout.Proofs.ShortestPaths

/-!
# The shape of the graph of an exploration

Whatever the options are, and whether an exploration goes through all paths or stops before, its graph
has no node twice, its steps can be read in both directions, all its nodes are reached from the one node
that nothing leads to, and nothing follows a sink. So every report can be told along a path from there.

* `PathGraph.Rooted`: the shape.
* `Exploration.Records.rooted`: the graph of an exploration has it.
* `Exploration.Records.exists_path`: a path to every node is found, from the root.
* `Exploration.graph_rooted`: both, and that no report is told by its place alone.
-/

namespace PathScout

open PathGraph List

namespace PathGraph

variable {g : PathGraph} {n r : NodeId}

/-- The shape of a graph of paths that all start at one node: no node is there twice, a step is recorded
once where it starts and once where it leads, the root is the only entry of a function and the only
node that nothing leads to, every node is reached from it, and nothing follows a sink. -/
structure Rooted (g : PathGraph) (r : NodeId) : Prop where
  unique {a b : NodeId} {x : PathNode} : g.node? a = some x → g.node? b = some x → a = b
  mem_succs {a b : NodeId} : b ∈ g.succs a ↔ a ∈ g.preds b
  nodup (n : NodeId) : (g.succs n).Nodup ∧ (g.preds n).Nodup
  irrefl (n : NodeId) : n ∉ g.succs n
  roots : g.roots = [r]
  entry {n : NodeId} {x : PathNode} : g.node? n = some x → (x.point.kind = .entry ↔ n = r)
  first {n : NodeId} : n ∈ g.ids → (g.preds n = [] ↔ n = r)
  reach {n : NodeId} : n ∈ g.ids → Relation.ReflTransGen (fun a b => b ∈ g.succs a) r n
  sink {n : NodeId} {x : PathNode} : g.node? n = some x → x.sink = true → g.succs n = []

theorem mem_ids : n ∈ g.ids ↔ n.index < g.size := by
  unfold ids
  rw [mem_map]
  constructor
  · rintro ⟨i, hi, rfl⟩
    exact mem_range.1 hi
  · exact fun h => ⟨n.index, mem_range.2 h, rfl⟩

end PathGraph

namespace Exploration

variable {p : Program} {o : Options} {f : FunctionId} {e : Exploration} {x : PathNode} {n : NodeId}

/-- The first node is the only one that nothing leads to. -/
theorem Records.preds_eq_nil (h : e.Records p o x) (hx : x.point.kind = .entry)
    (hn : n.index < e.graph.size) : e.graph.preds n = [] ↔ n = ⟨0⟩ := by
  constructor
  · intro hnil
    by_contra hne
    obtain ⟨m, hm⟩ := h.tracks.exists_pred hn hne
    rw [hnil] at hm
    exact absurd hm not_mem_nil
  · rintro rfl
    refine eq_nil_iff_forall_not_mem.2 fun m hm => ?_
    obtain ⟨y, hy⟩ := exists_node? (h.tracks.linked.exists_nodes hm).1
    exact (h.tracks.step hm hy h.tracks.root).edge.kind_ne_entry hx

/-- **The graph has the shape.** -/
theorem Records.rooted (h : e.Records p o x) (hx : x.point.kind = .entry) : e.graph.Rooted ⟨0⟩ where
  unique := node?_inj
  mem_succs := h.tracks.linked.mem_succs
  nodup n := ⟨h.tracks.linked.nodup_succs n, h.tracks.linked.nodup_preds n⟩
  irrefl n hn := h.tracks.linked.irrefl n (h.tracks.linked.mem_succs.1 hn)
  roots := h.tracks.roots
  entry := by
    intro n y hy
    constructor
    · intro hkind
      by_contra hne
      obtain ⟨m, hm⟩ := h.tracks.exists_pred (lt_size hy) hne
      obtain ⟨z, hz⟩ := exists_node? (h.tracks.linked.exists_nodes hm).1
      exact (h.tracks.step hm hz hy).edge.kind_ne_entry hkind
    · rintro rfl
      cases h.tracks.root.symm.trans hy
      exact hx
  first hn := h.preds_eq_nil hx (mem_ids.1 hn)
  reach hn := by
    refine Relation.ReflTransGen.mono (fun a b hab => ?_) _ _ (h.tracks.reach (mem_ids.1 hn))
    exact h.tracks.linked.mem_succs.2 hab
  sink := by
    intro n y hy hsink
    refine eq_nil_iff_forall_not_mem.2 fun m hm => ?_
    have hm' := h.tracks.linked.mem_succs.1 hm
    obtain ⟨z, hz⟩ := exists_node? (h.tracks.linked.exists_nodes hm').2
    exact Bool.false_ne_true ((h.tracks.step hm' hy hz).continues.symm.trans hsink)

/-- A path to every node is found, from the root. -/
theorem Records.exists_path (h : e.Records p o x) (hx : x.point.kind = .entry)
    (hn : n.index < e.graph.size) : ∃ path, e.graph.shortestPath? n = some path ∧
      path.head? = some ⟨0⟩ ∧ path.getLast? = some n ∧ e.graph.Walks path := by
  have hzero : (⟨0⟩ : NodeId).index < e.graph.size := lt_size h.tracks.root
  obtain ⟨path, hpath, hwalks, hlast, r, rest, rfl, hr⟩ := h.tracks.linked.exists_shortestPath? hn
    (h.tracks.reach hn) ((h.preds_eq_nil hx hzero).2 rfl)
  refine ⟨r :: rest, hpath, ?_, hlast, hwalks⟩
  have hlt : r.index < e.graph.size := by
    cases rest with
    | nil =>
      cases hlast
      exact hn
    | cons m rest => exact (h.tracks.linked.exists_nodes (isChain_cons_cons.1 hwalks).1).1
  rw [head?_cons, (h.preds_eq_nil hx hlt).1 hr]

/-- The report that an issue is told by, and its path. -/
theorem closest?_eq_some {g : PathGraph} {reports : List BugReport} {r : BugReport}
    {path : Option (List NodeId)} (h : closest? g reports = some (r, path)) :
    r ∈ reports ∧ path = g.shortestPath? r.node := by
  rw [closest?_eq_argmin] at h
  obtain ⟨s, hs, heq⟩ := Option.map_eq_some_iff.1 h
  cases heq
  exact ⟨argmin_mem hs, rfl⟩

/-- **The graph that an exploration leaves**, at its end or before, has one root, from which every report
is told: a shortest path to its node is found, and starts there. -/
theorem graph_rooted (h : Reached o p f e) :
    ∃ r, e.graph.Rooted r ∧ e.graph.point r = ⟨.entry, topFrame, none⟩ ∧
      (∀ k ∈ e.reports, ∀ b ∈ k.reports, ∃ path, e.graph.shortestPath? b.node = some path ∧
        path.head? = some r ∧ path.getLast? = some b.node ∧
          path.IsChain fun m n => n ∈ e.graph.succs m) ∧
      ∀ scheme, ∀ d ∈ e.diagnostics scheme, ∃ k ∈ e.reports, ∃ b ∈ k.reports, ∃ path,
        e.graph.shortestPath? b.node = some path ∧ d = e.diagnostic scheme b (some path) := by
  have hrecords := h.records
  have hpath : ∀ k ∈ e.reports, ∀ b ∈ k.reports, ∃ path, e.graph.shortestPath? b.node = some path ∧
      path.head? = some ⟨0⟩ ∧ path.getLast? = some b.node ∧
        path.IsChain fun m n => n ∈ e.graph.succs m := fun k hk b hb => by
    obtain ⟨y, hy⟩ := hrecords.reported hk hb
    obtain ⟨path, hpath, hhead, hlast, hwalks⟩ :=
      hrecords.exists_path rfl (lt_size hy)
    exact ⟨path, hpath, hhead, hlast, hwalks.imp fun _ _ hab => hrecords.tracks.linked.mem_succs.2 hab⟩
  refine ⟨⟨0⟩, hrecords.rooted rfl, point_eq hrecords.tracks.root, hpath,
    fun scheme d hd => ?_⟩
  obtain ⟨k, hk, hsome⟩ := mem_filterMap.1 hd
  obtain ⟨⟨b, path⟩, hclosest, rfl⟩ := Option.map_eq_some_iff.1 hsome
  obtain ⟨hmem, rfl⟩ := closest?_eq_some hclosest
  obtain ⟨path, hpath, -⟩ := hpath k hk b hmem
  exact ⟨k, hk, b, hmem, path, hpath, by rw [hpath]⟩

/-- A loop with a joined condition, all paths of which are gone through. -/
theorem graph_rooted_branching : ∃ p e o n, Program.ofUnit branchingUnit "a.c" = .ok p ∧
    o.checkers = Checker.all ∧ Exploring.Steps o n (start o p ⟨0⟩) e ∧ e.worklist.pending = [] ∧
      Reached o p ⟨0⟩ e ∧ ∃ r, e.graph.Rooted r ∧ e.graph.point r = ⟨.entry, topFrame, none⟩ := by
  obtain ⟨p, body, hu, hf⟩ := exists_branching
  obtain ⟨globals, hp⟩ := Program.ofUnit_built hu
  let o : Options := { checkers := Checker.all }
  obtain ⟨n, e, hsteps, hend, -⟩ := exists_explore (o := o) hp.closed hf
  obtain ⟨r, hr, hpoint, -⟩ := graph_rooted (.steps hsteps)
  exact ⟨p, e, o, n, hu, rfl, hsteps, hend, .steps hsteps, r, hr, hpoint⟩

end Exploration

end PathScout

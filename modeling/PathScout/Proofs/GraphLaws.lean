import PathScout.Proofs.ExplorationLaws

/-!
# Graphs that record paths

A graph of paths starts with one node and grows by steps from nodes that it has. Whatever relation
the steps satisfy, the graph keeps them in a form that can be read in both directions, and every node
can be reached from the first one.

* `PathGraph.preds_addEdge`, `PathGraph.succs_addEdge`: what a further step changes.
* `PathGraph.Linked`: steps are recorded in both directions, once each.
* `PathGraph.Tracks`: the graph records steps that satisfy a relation, from a first node on.
* `PathGraph.Tracks.arrive`: one more step.
* `PathGraph.Tracks.exists_pred`: something leads to every node but the first one.
-/

namespace PathScout

open List

namespace PathGraph

variable {g : PathGraph} {x y root : PathNode} {n m a b : NodeId} {R R' : PathNode → PathNode → Prop}

/-- Nodes with the same content are the same node. -/
theorem node?_inj (ha : g.node? a = some x) (hb : g.node? b = some x) : a = b :=
  congrArg NodeId.mk (Interned.get?_inj ha hb)

theorem lt_size (h : g.node? n = some x) : n.index < g.size := Interned.lt_size_of_get? h

theorem exists_node? (h : n.index < g.size) : ∃ x, g.node? n = some x :=
  ⟨_, Array.getElem?_eq_getElem h⟩

/-! ### Adding nodes and steps -/

/-- Nothing leads to or from a node that is new. -/
theorem links_of_add (h : (g.add x).1.2 = true) :
    (g.add x).2.incoming = g.incoming.push [] ∧ (g.add x).2.outgoing = g.outgoing.push [] := by
  obtain ⟨nodes, incoming, outgoing, roots⟩ := g
  unfold add at h ⊢
  dsimp only at h ⊢
  split at h
  · cases h
  · next hne =>
    rw [if_neg hne]
    exact ⟨rfl, rfl⟩

@[simp] theorem roots_add (g : PathGraph) (x : PathNode) : (g.add x).2.roots = g.roots := by
  unfold add
  dsimp only
  split <;> rfl

/-- A node that is not new changes nothing. -/
theorem add_of_old (h : (g.add x).1.2 = false) : (g.add x).2 = g := by
  rcases add_cases g x with ⟨n, -, hadd⟩ | ⟨hadd, -, -⟩
  · rw [hadd]
  · rw [hadd] at h
    cases h

theorem getD_push_nil {α : Type} (a : Array (List α)) (i : Nat) :
    (a.push [])[i]?.getD [] = a[i]?.getD [] := by
  rw [Array.getElem?_push]
  split
  · next hi => rw [hi, Array.getElem?_eq_none le_rfl]; rfl
  · rfl

@[simp] theorem preds_add (g : PathGraph) (x : PathNode) (n : NodeId) :
    (g.add x).2.preds n = g.preds n := by
  cases h : (g.add x).1.2 with
  | false => rw [add_of_old h]
  | true =>
    rw [preds, (links_of_add h).1]
    exact getD_push_nil _ _

@[simp] theorem succs_add (g : PathGraph) (x : PathNode) (n : NodeId) :
    (g.add x).2.succs n = g.succs n := by
  cases h : (g.add x).1.2 with
  | false => rw [add_of_old h]
  | true =>
    rw [succs, (links_of_add h).2]
    exact getD_push_nil _ _

theorem getD_modify {α : Type} (xs : Array (List α)) (y : α) {i : Nat} (hi : i < xs.size) (j : Nat) :
    (xs.modify i (· ++ [y]))[j]?.getD [] = xs[j]?.getD [] ++ if j = i then [y] else [] := by
  rw [Array.getElem?_modify]
  by_cases h : i = j
  · subst h
    rw [if_pos rfl, if_pos rfl, Array.getElem?_eq_getElem hi]
    rfl
  · rw [if_neg h, if_neg (Ne.symm h), append_nil]

/-- A step is recorded where it leads. -/
theorem preds_addEdge (hne : a ≠ b) (hnew : a ∉ g.preds b) (hb : b.index < g.incoming.size) :
    (g.addEdge a b).preds n = g.preds n ++ if n = b then [a] else [] := by
  unfold addEdge
  rw [if_neg (not_or.2 ⟨hne, hnew⟩)]
  refine (getD_modify _ _ hb _).trans ?_
  rcases n with ⟨n⟩
  rcases b with ⟨b⟩
  simp only [preds, NodeId.mk.injEq]

/-- A step is recorded where it starts. -/
theorem succs_addEdge (hne : a ≠ b) (hnew : a ∉ g.preds b) (ha : a.index < g.outgoing.size) :
    (g.addEdge a b).succs n = g.succs n ++ if n = a then [b] else [] := by
  unfold addEdge
  rw [if_neg (not_or.2 ⟨hne, hnew⟩)]
  refine (getD_modify _ _ ha _).trans ?_
  rcases n with ⟨n⟩
  rcases a with ⟨a⟩
  simp only [succs, NodeId.mk.injEq]

theorem addEdge_of_known (h : a = b ∨ a ∈ g.preds b) : g.addEdge a b = g := by
  unfold addEdge
  rw [if_pos h]

@[simp] theorem roots_addEdge (g : PathGraph) (a b : NodeId) : (g.addEdge a b).roots = g.roots := by
  unfold addEdge
  split <;> rfl

/-! ### Links -/

/-- Steps are recorded in both directions, between nodes that exist, without repetition, and none from
a node to itself. -/
structure Linked (g : PathGraph) : Prop where
  incoming : g.incoming.size = g.size
  outgoing : g.outgoing.size = g.size
  mem_succs {a b : NodeId} : b ∈ g.succs a ↔ a ∈ g.preds b
  nodup_preds (n : NodeId) : (g.preds n).Nodup
  nodup_succs (n : NodeId) : (g.succs n).Nodup
  irrefl (n : NodeId) : n ∉ g.preds n
  exists_nodes {a b : NodeId} : a ∈ g.preds b → a.index < g.size ∧ b.index < g.size

namespace Linked

/-- Nothing is recorded at first. -/
theorem empty : Linked {} where
  incoming := rfl
  outgoing := rfl
  mem_succs := ⟨fun h => absurd h not_mem_nil, fun h => absurd h not_mem_nil⟩
  nodup_preds _ := nodup_nil
  nodup_succs _ := nodup_nil
  irrefl _ := not_mem_nil
  exists_nodes h := absurd h not_mem_nil

theorem add (h : g.Linked) (x : PathNode) : (g.add x).2.Linked := by
  have hsize : g.size ≤ (g.add x).2.size := by
    rw [size_add]
    exact Nat.le_add_right _ _
  have hsizes : (g.add x).2.incoming.size = (g.add x).2.size ∧
      (g.add x).2.outgoing.size = (g.add x).2.size := by
    cases hnew : (g.add x).1.2 with
    | false => rw [add_of_old hnew]; exact ⟨h.incoming, h.outgoing⟩
    | true =>
      have hlinks := links_of_add hnew
      rw [size_add, hnew, hlinks.1, hlinks.2, Array.size_push, Array.size_push, h.incoming, h.outgoing]
      exact ⟨rfl, rfl⟩
  refine ⟨hsizes.1, hsizes.2, ?_, ?_, ?_, ?_, ?_⟩
  · simp only [succs_add, preds_add, h.mem_succs, implies_true]
  · simpa only [preds_add] using h.nodup_preds
  · simpa only [succs_add] using h.nodup_succs
  · simpa only [preds_add] using h.irrefl
  · intro a b hab
    rw [preds_add] at hab
    exact ⟨(h.exists_nodes hab).1.trans_le hsize, (h.exists_nodes hab).2.trans_le hsize⟩

/-- What leads to a node after a further step. -/
theorem mem_preds_addEdge (h : g.Linked) (hb : b.index < g.size) :
    m ∈ (g.addEdge a b).preds n ↔ m ∈ g.preds n ∨ m = a ∧ n = b ∧ a ≠ b := by
  by_cases hknown : a = b ∨ a ∈ g.preds b
  · rw [addEdge_of_known hknown]
    refine ⟨.inl, ?_⟩
    rintro (hm | ⟨rfl, rfl, hne⟩)
    · exact hm
    · exact hknown.resolve_left hne
  · obtain ⟨hne, hnew⟩ := not_or.1 hknown
    rw [preds_addEdge hne hnew (h.incoming ▸ hb), mem_append]
    split
    · next heq => simp only [mem_singleton, heq, ne_eq, hne, not_false_eq_true, and_true]
    · next hneq => simp only [not_mem_nil, hneq, false_and, and_false]

/-- What a node leads to after a further step. -/
theorem mem_succs_addEdge (h : g.Linked) (ha : a.index < g.size) :
    n ∈ (g.addEdge a b).succs m ↔ n ∈ g.succs m ∨ m = a ∧ n = b ∧ a ≠ b := by
  by_cases hknown : a = b ∨ a ∈ g.preds b
  · rw [addEdge_of_known hknown]
    refine ⟨.inl, ?_⟩
    rintro (hm | ⟨rfl, rfl, hne⟩)
    · exact hm
    · exact h.mem_succs.2 (hknown.resolve_left hne)
  · obtain ⟨hne, hnew⟩ := not_or.1 hknown
    rw [succs_addEdge hne hnew (h.outgoing ▸ ha), mem_append]
    split
    · next heq => simp only [mem_singleton, heq, true_and, ne_eq, hne, not_false_eq_true, and_true]
    · next hneq => simp only [not_mem_nil, hneq, false_and]

theorem addEdge (h : g.Linked) (ha : a.index < g.size) (hb : b.index < g.size) :
    (g.addEdge a b).Linked := by
  have hsize : (g.addEdge a b).size = g.size := size_addEdge g a b
  by_cases hknown : a = b ∨ a ∈ g.preds b
  · rwa [addEdge_of_known hknown]
  obtain ⟨hne, hnew⟩ := not_or.1 hknown
  refine ⟨?_, ?_, ?_, fun n => ?_, fun n => ?_, fun n hn => ?_, fun hmn => ?_⟩
  · rw [hsize, ← h.incoming, PathGraph.addEdge, if_neg hknown]
    exact Array.size_modify
  · rw [hsize, ← h.outgoing, PathGraph.addEdge, if_neg hknown]
    exact Array.size_modify
  · intro m n
    rw [h.mem_preds_addEdge hb, h.mem_succs_addEdge ha, h.mem_succs]
  · rw [preds_addEdge hne hnew (h.incoming ▸ hb)]
    refine nodup_append'.2 ⟨h.nodup_preds n, ?_, ?_⟩
    · split
      · exact nodup_singleton a
      · exact nodup_nil
    · split
      · next heq => exact disjoint_singleton.2 (heq ▸ hnew)
      · exact disjoint_nil_right _
  · rw [succs_addEdge hne hnew (h.outgoing ▸ ha)]
    refine nodup_append'.2 ⟨h.nodup_succs n, ?_, ?_⟩
    · split
      · exact nodup_singleton b
      · exact nodup_nil
    · split
      · next heq => exact disjoint_singleton.2 fun hmem => hnew (h.mem_succs.1 (heq ▸ hmem))
      · exact disjoint_nil_right _
  · rcases (h.mem_preds_addEdge hb).1 hn with hn | ⟨rfl, heq, hne'⟩
    · exact h.irrefl n hn
    · exact hne' heq
  · rw [hsize]
    rcases (h.mem_preds_addEdge hb).1 hmn with hmn | ⟨rfl, rfl, -⟩
    · exact h.exists_nodes hmn
    · exact ⟨ha, hb⟩

end Linked

/-! ### Recorded steps -/

/-- The graph records steps that satisfy the relation, and starts with the node. -/
structure Tracks (R : PathNode → PathNode → Prop) (root : PathNode) (g : PathGraph) : Prop where
  linked : g.Linked
  step {a b : NodeId} {x y : PathNode} : a ∈ g.preds b → g.node? a = some x → g.node? b = some y →
    R x y
  root : g.node? ⟨0⟩ = some root
  roots : g.roots = [⟨0⟩]
  reach {n : NodeId} : n.index < g.size → Relation.ReflTransGen (fun a b => a ∈ g.preds b) ⟨0⟩ n

namespace Tracks

theorem mono (h : g.Tracks R root) (hR : ∀ x y, R x y → R' x y) : g.Tracks R' root :=
  { h with step := fun hab hx hy => hR _ _ (h.step hab hx hy) }

/-- The graph with one node only. -/
theorem single (R : PathNode → PathNode → Prop) (x : PathNode) :
    ((PathGraph.add {} x).2.addRoot (PathGraph.add {} x).1.1).Tracks R x := by
  have hnew : (PathGraph.add {} x).1 = (⟨0⟩, true) := by
    rcases add_cases {} x with ⟨n, hn, -⟩ | ⟨hadd, -, -⟩
    · cases hn
    · exact hadd
  have hroots : (PathGraph.add {} x).2.addRoot ⟨0⟩ =
      { (PathGraph.add {} x).2 with roots := [⟨0⟩] } := by
    unfold addRoot
    rw [roots_add]
    rfl
  have hlinked := Linked.empty.add x
  have hsize : (PathGraph.add {} x).2.size = 1 := by
    rw [size_add, hnew]
    rfl
  rw [hnew, hroots]
  refine ⟨⟨hlinked.incoming, hlinked.outgoing, hlinked.mem_succs, hlinked.nodup_preds,
    hlinked.nodup_succs, hlinked.irrefl, hlinked.exists_nodes⟩, ?_, ?_, rfl, ?_⟩
  · intro a b _ _ hab
    exact absurd (preds_add {} x b ▸ hab) not_mem_nil
  · have hnode := node?_add {} x
    rw [hnew] at hnode
    exact hnode
  · intro n hn
    obtain rfl : n = ⟨0⟩ := congrArg NodeId.mk (Nat.lt_one_iff.1 (hsize ▸ hn))
    exact .refl

/-- **One more step**, to a node that is there or to a new one. -/
theorem arrive (h : g.Tracks R root) (hx : g.node? a = some x) (hxy : R x y) :
    ((g.add y).2.addEdge a (g.add y).1.1).Tracks R root := by
  have hx' : (g.add y).2.node? a = some x := node?_add_of_node? hx
  have hy := node?_add g y
  have hlinked := h.linked.add y
  have hmem : ∀ {m n}, m ∈ ((g.add y).2.addEdge a (g.add y).1.1).preds n ↔
      m ∈ g.preds n ∨ m = a ∧ n = (g.add y).1.1 ∧ a ≠ (g.add y).1.1 := by
    intro m n
    rw [hlinked.mem_preds_addEdge (lt_size hy), preds_add]
  have hgrow : ∀ {m}, m.index < g.size → Relation.ReflTransGen
      (fun c d => c ∈ ((g.add y).2.addEdge a (g.add y).1.1).preds d) ⟨0⟩ m := fun hm =>
    Relation.ReflTransGen.mono (fun _ _ hcd => hmem.2 (.inl hcd)) _ _ (h.reach hm)
  refine ⟨hlinked.addEdge (lt_size hx') (lt_size hy), ?_, ?_, ?_, ?_⟩
  · intro m n u v hmn hu hv
    rw [node?_addEdge] at hu hv
    rcases hmem.1 hmn with hmn | ⟨rfl, rfl, -⟩
    · -- both ends of an old step are old nodes
      obtain ⟨hm, hn⟩ := h.linked.exists_nodes hmn
      obtain ⟨u', hu'⟩ := exists_node? hm
      obtain ⟨v', hv'⟩ := exists_node? hn
      cases (node?_add_of_node? hu').symm.trans hu
      cases (node?_add_of_node? hv').symm.trans hv
      exact h.step hmn hu' hv'
    · cases hx'.symm.trans hu
      cases hy.symm.trans hv
      exact hxy
  · rw [node?_addEdge]
    exact node?_add_of_node? h.root
  · rw [roots_addEdge, roots_add]
    exact h.roots
  · intro n hn
    obtain ⟨z, hz⟩ := exists_node? hn
    rw [node?_addEdge] at hz
    rcases node?_of_add hz with hz | ⟨rfl, -, -⟩
    · exact hgrow (lt_size hz)
    · by_cases hne : a = (g.add y).1.1
      · exact hne ▸ hgrow (lt_size hx)
      · exact (hgrow (lt_size hx)).tail (hmem.2 (.inr ⟨rfl, rfl, hne⟩))

/-- Something leads to every node but the first one. -/
theorem exists_pred (h : g.Tracks R root) (hn : n.index < g.size) (hne : n ≠ ⟨0⟩) :
    ∃ m, m ∈ g.preds n := by
  rcases (h.reach hn).cases_tail with heq | ⟨m, -, hm⟩
  · exact absurd heq hne
  · exact ⟨m, hm⟩

end Tracks

end PathGraph

end PathScout

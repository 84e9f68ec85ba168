import PathScout.Proofs.GraphLaws
import PathScout.Report.ShortestPath

/-!
# Going back from a node

The search for a path goes back from a node, breadth first, also where steps lead in a circle. Nodes are
met in the order of their distance from the goal, and every node is met once, so the search has enough
steps, and the first node it finds that nothing leads to is a nearest one.

* `PathGraph.Walks`: each node of a list leads to the next one. `PathGraph.Starts`: a way from a node that
  nothing leads to.
* `PathGraph.Searching`: what the search knows of the nodes that it met.
* `PathGraph.Searching.meet`, `PathGraph.Searching.turn`: a node is met, and all that lead to one were met.
* `PathGraph.Searching.exists_outcome`: how the search ends.
* `PathGraph.Searching.exists_way`: the way from a node that was met, as long as the node is deep.
* `PathGraph.Searching.depth_le`: no way from a node that nothing leads to is shorter than the one found.
* `PathGraph.Linked.shortestPath?_cases`: what is found, and that it does not depend on the steps.
* `PathGraph.Built.shortestPath?_correct`: shortest paths in any graph.
-/

namespace PathScout

open List

namespace PathGraph

variable {g : PathGraph} {n m p r goal : NodeId} {path other done waiting queue ps : List NodeId}
  {next : Std.HashMap NodeId NodeId} {depth : NodeId → Nat}

/-- Each node of the list leads to the next one. -/
def Walks (g : PathGraph) (path : List NodeId) : Prop := path.IsChain fun a b => a ∈ g.preds b

/-- The list is a way from a node that nothing leads to. -/
structure Starts (g : PathGraph) (goal : NodeId) (path : List NodeId) : Prop where
  walks : g.Walks path
  last : path.getLast? = some goal
  first : ∃ r rest, path = r :: rest ∧ g.preds r = []

theorem Walks.reaches (h : g.Walks (r :: path)) (hlast : (r :: path).getLast? = some goal) :
    Relation.ReflTransGen (fun a b => a ∈ g.preds b) r goal := by
  induction path generalizing r with
  | nil =>
    cases hlast
    exact .refl
  | cons m path ih =>
    obtain ⟨hm, hrest⟩ := isChain_cons_cons.1 h
    rw [getLast?_cons_cons] at hlast
    exact .head hm (ih hrest hlast)

/-! ### What the search knows -/

/-- What the search knows. It went back from some of the nodes that it met, and the others wait; no node
was met twice. Each but the goal has a next node, which is one step nearer to the goal. Those that wait
stand in the order of their depth, and none that was met is deeper than the step behind them. All nodes
that lead to one that the search went back from were met. -/
structure Searching (g : PathGraph) (goal : NodeId) (depth : NodeId → Nat) (done waiting : List NodeId)
    (next : Std.HashMap NodeId NodeId) : Prop where
  nodup : (done ++ waiting).Nodup
  exists_nodes {n : NodeId} : n ∈ done ++ waiting → n.index < g.size
  mem_goal : goal ∈ done ++ waiting
  mem_next {n : NodeId} : n ∈ next ↔ n ∈ done ++ waiting ∧ n ≠ goal
  next_spec {n m : NodeId} : next[n]? = some m →
    n ∈ g.preds m ∧ m ∈ done ++ waiting ∧ depth n = depth m + 1
  depth_goal : depth goal = 0
  depth_lt {n : NodeId} : n ∈ done ++ waiting → depth n < (done ++ waiting).length
  sorted : waiting.Pairwise fun n m => depth n ≤ depth m
  span {n m : NodeId} : n ∈ done ++ waiting → m ∈ waiting → depth n ≤ depth m + 1
  closed {n : NodeId} : n ∈ done → g.preds n ≠ [] ∧
    ∀ p ∈ g.preds n, p ∈ done ++ waiting ∧ depth p ≤ depth n + 1

/-- The search begins with the goal. -/
theorem searching_goal (h : goal.index < g.size) : g.Searching goal (fun _ => 0) [] [goal] ∅ where
  nodup := nodup_singleton goal
  exists_nodes hn := mem_singleton.1 hn ▸ h
  mem_goal := mem_singleton_self goal
  mem_next {n} := by
    refine ⟨fun hn => absurd hn Std.HashMap.not_mem_empty, fun hn => ?_⟩
    exact absurd (mem_singleton.1 hn.1) hn.2
  next_spec hn := by
    rw [Std.HashMap.getElem?_empty] at hn
    cases hn
  depth_goal := rfl
  depth_lt _ := Nat.one_pos
  sorted := pairwise_singleton _ _
  span _ _ := Nat.zero_le _
  closed hn := absurd hn not_mem_nil

namespace Searching

/-- The one whose turn it is has the least depth of those that wait. -/
theorem depth_le_of_mem (h : g.Searching goal depth done (n :: queue) next) (hm : m ∈ n :: queue) :
    depth n ≤ depth m := by
  rcases mem_cons.1 hm with rfl | hm
  · exact le_rfl
  · exact rel_of_pairwise_cons h.sorted hm

section

variable (hg : g.Linked) (h : g.Searching goal depth done (n :: queue) next)
include hg h

/-- A new node joins those that wait, one step deeper than the one that it leads to. -/
theorem joined (hp : p ∈ g.preds n) (hnew : p ∉ done ++ n :: queue) :
    g.Searching goal (Function.update depth p (depth n + 1)) done (n :: (queue ++ [p]))
      (next.insert p n) := by
  have hall : done ++ n :: (queue ++ [p]) = (done ++ n :: queue) ++ [p] :=
    (append_assoc done (n :: queue) [p]).symm
  have hmem {m : NodeId} : m ∈ done ++ n :: (queue ++ [p]) ↔ m ∈ done ++ n :: queue ∨ m = p := by
    rw [hall, mem_append, mem_singleton]
  have hn : n ∈ done ++ n :: queue := mem_append_right _ mem_cons_self
  have hgoal : p ≠ goal := fun heq => hnew (heq ▸ h.mem_goal)
  let depth' : NodeId → Nat := Function.update depth p (depth n + 1)
  have hself : depth' p = depth n + 1 := Function.update_self ..
  have hold {m : NodeId} (hm : m ∈ done ++ n :: queue) : depth' m = depth m :=
    Function.update_of_ne (fun heq : m = p => hnew (heq ▸ hm)) ..
  have hwaits {m : NodeId} (hm : m ∈ n :: queue) : depth' m = depth m := hold (mem_append_right _ hm)
  refine
    { nodup := ?nodup, exists_nodes := ?exists_nodes, mem_goal := hmem.2 (.inl h.mem_goal)
      mem_next := ?mem_next, next_spec := ?next_spec, depth_goal := (hold h.mem_goal).trans h.depth_goal
      depth_lt := ?depth_lt, sorted := ?sorted, span := ?span, closed := ?closed }
  case nodup =>
    rw [hall]
    exact nodup_append'.2 ⟨h.nodup, nodup_singleton p, disjoint_singleton.2 hnew⟩
  case exists_nodes =>
    intro m hm
    rcases hmem.1 hm with hm | rfl
    · exact h.exists_nodes hm
    · exact (hg.exists_nodes hp).1
  case mem_next =>
    intro m
    rw [Std.HashMap.mem_insert, beq_iff_eq, h.mem_next, hmem]
    constructor
    · rintro (rfl | ⟨hm, hne⟩)
      · exact ⟨.inr rfl, hgoal⟩
      · exact ⟨.inl hm, hne⟩
    · rintro ⟨hm | rfl, hne⟩
      · exact .inr ⟨hm, hne⟩
      · exact .inl rfl
  case next_spec =>
    intro m k hk
    rw [Std.HashMap.getElem?_insert] at hk
    split at hk
    · next heq =>
      cases beq_iff_eq.1 heq
      cases hk
      exact ⟨hp, hmem.2 (.inl hn), hself.trans (congrArg (· + 1) (hold hn).symm)⟩
    · obtain ⟨hpred, hmet, hdepth⟩ := h.next_spec hk
      have hm : m ∈ done ++ n :: queue := (h.mem_next.1 (Std.HashMap.mem_iff_isSome_getElem?.2
        (by rw [hk]; rfl))).1
      exact ⟨hpred, hmem.2 (.inl hmet), (hold hm).trans (hdepth.trans (congrArg (· + 1) (hold hmet).symm))⟩
  case depth_lt =>
    intro m hm
    rw [hall, length_append, length_singleton]
    rcases hmem.1 hm with hm | rfl
    · exact (hold hm).trans_lt ((h.depth_lt hm).trans (Nat.lt_succ_self _))
    · exact hself.trans_lt (Nat.succ_lt_succ (h.depth_lt hn))
  case sorted =>
    rw [← cons_append]
    refine pairwise_append.2 ⟨?_, pairwise_singleton _ _, fun m hm k hk => ?_⟩
    · exact h.sorted.imp_of_mem fun hm hk hle => (hwaits hm).trans_le (hle.trans_eq (hwaits hk).symm)
    · cases mem_singleton.1 hk
      exact (hwaits hm).trans_le
        ((h.span (mem_append_right _ hm) mem_cons_self).trans_eq hself.symm)
  case span =>
    intro m k hm hk
    rw [← cons_append] at hk
    have hdepth : depth' m ≤ depth n + 1 := by
      rcases hmem.1 hm with hm | rfl
      · exact (hold hm).trans_le (h.span hm mem_cons_self)
      · exact hself.le
    have hleast : depth n ≤ depth' k := by
      rcases mem_append.1 hk with hk | hk
      · exact (h.depth_le_of_mem hk).trans_eq (hwaits hk).symm
      · cases mem_singleton.1 hk
        exact (Nat.le_succ _).trans_eq hself.symm
    exact hdepth.trans (Nat.succ_le_succ hleast)
  case closed =>
    intro m hm
    obtain ⟨hne, hpreds⟩ := h.closed hm
    refine ⟨hne, fun k hk => ?_⟩
    obtain ⟨hmet, hdepth⟩ := hpreds k hk
    refine ⟨hmem.2 (.inl hmet), (hold hmet).trans_le (hdepth.trans_eq ?_)⟩
    rw [← hold (mem_append_left _ hm)]

/-- **A node is met** that leads to the one whose turn it is. -/
theorem meet (hp : p ∈ g.preds n) :
    ∃ depth', g.Searching goal depth' done (n :: (BackSearch.meet goal n ⟨next, queue⟩ p).queue)
        (BackSearch.meet goal n ⟨next, queue⟩ p).next ∧
      p ∈ done ++ n :: (BackSearch.meet goal n ⟨next, queue⟩ p).queue ∧
      ∀ m ∈ done ++ n :: queue, m ∈ done ++ n :: (BackSearch.meet goal n ⟨next, queue⟩ p).queue := by
  by_cases hmet : p = goal ∨ p ∈ next
  · have hsame : BackSearch.meet goal n ⟨next, queue⟩ p = ⟨next, queue⟩ := if_pos hmet
    rw [hsame]
    refine ⟨depth, h, ?_, fun _ => id⟩
    rcases hmet with rfl | hmem
    · exact h.mem_goal
    · exact (h.mem_next.1 hmem).1
  · have hmeet : BackSearch.meet goal n ⟨next, queue⟩ p = ⟨next.insert p n, queue ++ [p]⟩ := if_neg hmet
    obtain ⟨hgoal, hnext⟩ := not_or.1 hmet
    have hnew : p ∉ done ++ n :: queue := fun hmem => hnext (h.mem_next.2 ⟨hmem, hgoal⟩)
    have hall : done ++ n :: (queue ++ [p]) = (done ++ n :: queue) ++ [p] :=
      (append_assoc done (n :: queue) [p]).symm
    rw [hmeet]
    refine ⟨_, h.joined hg hp hnew, ?_, fun m hm => ?_⟩
    · rw [hall]
      exact mem_append_right _ (mem_singleton_self p)
    · rw [hall]
      exact mem_append_left _ hm

/-- All nodes are met that lead to the one whose turn it is. -/
theorem meets (hps : ∀ p ∈ ps, p ∈ g.preds n) : ∃ depth', g.Searching goal depth' done
        (n :: (ps.foldl (BackSearch.meet goal n) ⟨next, queue⟩).queue)
        (ps.foldl (BackSearch.meet goal n) ⟨next, queue⟩).next ∧
      ∀ m, m ∈ ps ∨ m ∈ done ++ n :: queue →
        m ∈ done ++ n :: (ps.foldl (BackSearch.meet goal n) ⟨next, queue⟩).queue := by
  induction ps generalizing depth queue next with
  | nil => exact ⟨depth, h, fun m hm => hm.resolve_left not_mem_nil⟩
  | cons p ps ih =>
    rw [forall_mem_cons] at hps
    obtain ⟨depth1, h1, hp, hmono⟩ := h.meet hg hps.1
    obtain ⟨depth2, h2, hrest⟩ := ih h1 hps.2
    refine ⟨depth2, h2, fun m hm => hrest m ?_⟩
    rcases hm with hm | hm
    · rcases mem_cons.1 hm with rfl | hm
      · exact .inr hp
      · exact .inl hm
    · exact .inr (hmono m hm)

end

/-- **A turn ends**: the search went back from one more node. -/
theorem turn (h : g.Searching goal depth done (n :: queue) next) (hne : g.preds n ≠ [])
    (hpreds : ∀ p ∈ g.preds n, p ∈ done ++ n :: queue) :
    g.Searching goal depth (done ++ [n]) queue next := by
  have hall : (done ++ [n]) ++ queue = done ++ n :: queue := by rw [append_assoc, singleton_append]
  refine ⟨hall ▸ h.nodup, hall ▸ h.exists_nodes, hall ▸ h.mem_goal, hall ▸ h.mem_next, ?_, h.depth_goal,
    hall ▸ h.depth_lt, (pairwise_cons.1 h.sorted).2, fun hm hk => ?_, fun hm => ?_⟩
  · rw [hall]
    exact h.next_spec
  · exact h.span (hall ▸ hm) (mem_cons_of_mem n hk)
  · rw [hall]
    rcases mem_append.1 hm with hm | hm
    · exact h.closed hm
    · cases mem_singleton.1 hm
      exact ⟨hne, fun p hp => ⟨hpreds p hp, h.span (hpreds p hp) mem_cons_self⟩⟩

/-- The search met no more nodes than there are. -/
theorem length_le (h : g.Searching goal depth done waiting next) :
    (done ++ waiting).length ≤ g.size := by
  have hsub : ((done ++ waiting).map (·.index)).toFinset ⊆ Finset.range g.size := by
    intro i hi
    obtain ⟨n, hn, rfl⟩ := mem_map.1 (mem_toFinset.1 hi)
    exact Finset.mem_range.2 (h.exists_nodes hn)
  have hnodup : ((done ++ waiting).map (·.index)).Nodup :=
    h.nodup.map fun a b hab => by
      cases a
      cases b
      exact congrArg NodeId.mk hab
  have hcard := Finset.card_le_card hsub
  rw [toFinset_card_of_nodup hnodup, Finset.card_range, length_map] at hcard
  exact hcard

/-! ### How the search ends -/

/-- The search is over: it has come to a node that nothing leads to, or none waits any more. -/
def Outcome (g : PathGraph) (goal : NodeId) : Option (NodeId × Std.HashMap NodeId NodeId) → Prop
  | some (r, next) => g.preds r = [] ∧ ∃ depth done queue, g.Searching goal depth done (r :: queue) next
  | none => ∃ depth done next, g.Searching goal depth done [] next

/-- **The search ends**, and not because of its steps: with more of them it ends in the same way. -/
theorem exists_outcome (hg : g.Linked) (h : g.Searching goal depth done queue next) :
    ∃ out, Outcome g goal out ∧ ∀ steps, g.size < done.length + steps →
      g.searchBack goal steps ⟨next, queue⟩ = some out := by
  obtain ⟨left, hleft⟩ : ∃ left, g.size < done.length + left := ⟨g.size + 1, by omega⟩
  -- the invariant bounds the nodes that the search went back from
  have hsteps {done queue : List NodeId} {depth : NodeId → Nat} {next : Std.HashMap NodeId NodeId}
      (h : g.Searching goal depth done queue next) : done.length ≤ g.size := by
    have hle := h.length_le
    rw [length_append] at hle
    exact (Nat.le_add_right _ _).trans hle
  induction left generalizing depth done queue next with
  | zero => exact absurd hleft (Nat.not_lt.2 (hsteps h))
  | succ left ih =>
    have hpos {steps : Nat} (hs : g.size < done.length + steps) : ∃ k, steps = k + 1 :=
      Nat.exists_eq_succ_of_ne_zero fun hzero => by
        have := hsteps h
        omega
    cases queue with
    | nil =>
      refine ⟨none, ⟨depth, done, next, h⟩, fun steps hs => ?_⟩
      obtain ⟨k, rfl⟩ := hpos hs
      rfl
    | cons n queue =>
      cases hpreds : g.preds n with
      | nil =>
        refine ⟨some (n, next), ⟨hpreds, depth, done, queue, h⟩, fun steps hs => ?_⟩
        obtain ⟨k, rfl⟩ := hpos hs
        rw [PathGraph.searchBack, hpreds]
      | cons m rest =>
        obtain ⟨depth1, h1, hmet⟩ := h.meets hg fun p (hp : p ∈ g.preds n) => hp
        have hturn := h1.turn (hpreds ▸ cons_ne_nil m rest) fun p hp => hmet p (.inl hp)
        obtain ⟨out, hout, hrun⟩ := ih hturn (by rw [length_append, length_singleton]; omega)
        refine ⟨out, hout, fun steps hs => ?_⟩
        obtain ⟨k, rfl⟩ := hpos hs
        have hend := hrun k (by rw [length_append, length_singleton]; omega)
        rw [hpreds] at hend
        rw [PathGraph.searchBack, hpreds]
        exact hend

/-- All nodes from which the goal is reached were met, if none waits any more, and something leads to
them. -/
theorem preds_ne_nil (h : g.Searching goal depth done [] next)
    (hr : Relation.ReflTransGen (fun a b => a ∈ g.preds b) r goal) : g.preds r ≠ [] := by
  have hdone {m : NodeId} (hm : m ∈ done ++ []) : m ∈ done := by rwa [append_nil] at hm
  suffices hmem : r ∈ done from (h.closed hmem).1
  induction hr using Relation.ReflTransGen.head_induction_on with
  | refl => exact hdone h.mem_goal
  | head hab _ hb => exact hdone ((h.closed hb).2 _ hab).1

/-! ### The way that is found -/

section

variable (h : g.Searching goal depth done waiting next)
include h

theorem exists_next (hm : m ∈ done ++ waiting) (hne : m ≠ goal) : ∃ k, next[m]? = some k :=
  Option.isSome_iff_exists.1 (Std.HashMap.mem_iff_isSome_getElem?.1 (h.mem_next.2 ⟨hm, hne⟩))

theorem getElem?_next_goal : next[goal]? = none :=
  Std.HashMap.getElem?_eq_none fun hmem => (h.mem_next.1 hmem).2 rfl

/-- Only the goal is not deep. -/
theorem eq_goal_of_depth (hm : m ∈ done ++ waiting) (hdepth : depth m = 0) : m = goal := by
  by_contra hne
  obtain ⟨k, hk⟩ := h.exists_next hm hne
  have := (h.next_spec hk).2.2
  omega

/-- **The way from a node that was met** leads to the goal in as many steps as the node is deep, and is
found whenever so many steps are allowed. -/
theorem exists_way (hm : m ∈ done ++ waiting) :
    ∃ way, (∀ steps, depth m ≤ steps → BackSearch.follow next steps m = way) ∧
      way.head? = some m ∧ way.getLast? = some goal ∧ g.Walks way ∧ way.length = depth m + 1 ∧
      (∀ k ∈ way, depth k ≤ depth m) ∧ way.Pairwise fun a b => depth b < depth a := by
  induction hd : depth m generalizing m with
  | zero =>
    obtain rfl : m = goal := h.eq_goal_of_depth hm hd
    refine ⟨[m], fun steps _ => ?_, rfl, rfl, isChain_singleton _, rfl, fun k hk => ?_,
      pairwise_singleton _ _⟩
    · cases steps with
      | zero => rfl
      | succ steps => rw [BackSearch.follow, h.getElem?_next_goal]
    · cases mem_singleton.1 hk
      exact hd.le
  | succ d ih =>
    have hne : m ≠ goal := by
      rintro rfl
      rw [h.depth_goal] at hd
      cases hd
    obtain ⟨k, hk⟩ := h.exists_next hm hne
    obtain ⟨hpred, hmet, hdepth⟩ := h.next_spec hk
    obtain ⟨way, hfollow, hhead, hlast, hwalks, hlength, hle, hfalls⟩ := ih hmet (by omega)
    obtain ⟨rest, rfl⟩ : ∃ rest, way = k :: rest := head?_eq_some_iff.1 hhead
    refine ⟨m :: k :: rest, fun steps hsteps => ?_, rfl, ?_, isChain_cons_cons.2 ⟨hpred, hwalks⟩, ?_,
      fun a ha => ?_, pairwise_cons.2 ⟨fun a ha => ?_, hfalls⟩⟩
    · obtain ⟨steps, rfl⟩ := Nat.exists_eq_succ_of_ne_zero (n := steps) (by omega)
      rw [BackSearch.follow, hk]
      exact congrArg (m :: ·) (hfollow steps (by omega))
    · rw [getLast?_cons_cons, hlast]
    · rw [length_cons, hlength]
    · rcases mem_cons.1 ha with rfl | ha
      · exact hd.le
      · exact (hle a ha).trans (Nat.le_succ d)
    · have := hle a ha
      omega

end

/-- Along another way, from its end, the search went back from all nodes up to one that waits. -/
theorem depth_le_or_mem (h : g.Searching goal depth done (m :: queue) next) (hwalks : g.Walks (r :: path))
    (hlast : (r :: path).getLast? = some goal) :
    depth m + 1 ≤ (r :: path).length ∨ r ∈ done ∧ depth r + 1 ≤ (r :: path).length := by
  have hmet {k : NodeId} {count : Nat} (hk : k ∈ done ++ m :: queue) (hle : depth k + 1 ≤ count) :
      depth m + 1 ≤ count ∨ k ∈ done ∧ depth k + 1 ≤ count := by
    rcases mem_append.1 hk with hk | hk
    · exact .inr ⟨hk, hle⟩
    · exact .inl ((Nat.succ_le_succ (h.depth_le_of_mem hk)).trans hle)
  induction path generalizing r with
  | nil =>
    obtain rfl : r = goal := Option.some.inj hlast
    exact hmet h.mem_goal (by rw [h.depth_goal]; rfl)
  | cons a path ih =>
    obtain ⟨hr, hwalks⟩ := isChain_cons_cons.1 hwalks
    rw [getLast?_cons_cons] at hlast
    rw [length_cons]
    rcases ih hwalks hlast with hle | ⟨ha, hle⟩
    · exact .inl (hle.trans (Nat.le_succ _))
    · obtain ⟨hrmet, hdepth⟩ := (h.closed ha).2 r hr
      exact hmet hrmet (by omega)

/-- **No way is shorter**: a node that nothing leads to is at least as deep as the first of those that
wait. -/
theorem depth_le (h : g.Searching goal depth done (m :: queue) next) (hother : g.Starts goal other) :
    depth m + 1 ≤ other.length := by
  obtain ⟨r, path, rfl, hfirst⟩ := hother.first
  rcases h.depth_le_or_mem hother.walks hother.last with hle | ⟨hr, -⟩
  · exact hle
  · exact absurd hfirst (h.closed hr).1

end Searching

/-! ### Shortest paths -/

/-- **What is found**, as soon as there are more steps than nodes: a shortest path from a node that nothing
leads to, which comes to no node twice, or nothing, if no such node reaches the goal. -/
theorem Linked.shortestPath?_cases (hg : g.Linked) (hgoal : goal.index < g.size) :
    (∃ out, ∀ steps, g.size < steps → g.searchBack goal steps { queue := [goal] } = some out) ∧
    ((∃ path, (∀ steps, g.size < steps → g.pathWithin? steps goal = some path) ∧ g.Starts goal path ∧
      path.Nodup ∧ ∀ other, g.Starts goal other → path.length ≤ other.length) ∨
    (∀ steps, g.size < steps → g.pathWithin? steps goal = none) ∧
      ∀ r, Relation.ReflTransGen (fun a b => a ∈ g.preds b) r goal → g.preds r ≠ []) := by
  obtain ⟨out, hout, hrun⟩ := (searching_goal hgoal).exists_outcome hg
  replace hrun {steps : Nat} (hs : g.size < steps) : g.searchBack goal steps { queue := [goal] } = some out :=
    hrun steps (by rwa [length_nil, Nat.zero_add])
  refine ⟨⟨out, fun steps => hrun⟩, ?_⟩
  rcases out with _ | ⟨r, next⟩
  · obtain ⟨depth, done, next, h⟩ := hout
    refine .inr ⟨fun steps hs => ?_, fun r hr => h.preds_ne_nil hr⟩
    rw [pathWithin?, hrun hs]
    rfl
  · obtain ⟨hfirst, depth, done, queue, h⟩ := hout
    have hr : r ∈ done ++ r :: queue := mem_append_right _ mem_cons_self
    obtain ⟨way, hfollow, hhead, hlast, hwalks, hlength, -, hfalls⟩ := h.exists_way hr
    obtain ⟨rest, rfl⟩ : ∃ rest, way = r :: rest := head?_eq_some_iff.1 hhead
    refine .inl ⟨r :: rest, fun steps hs => ?_, ⟨hwalks, hlast, r, rest, rfl, hfirst⟩,
      hfalls.imp fun hlt heq => hlt.ne (congrArg depth heq.symm), fun other hother => ?_⟩
    · have hdepth : depth r ≤ steps := ((h.depth_lt hr).trans_le h.length_le).le.trans hs.le
      rw [pathWithin?, hrun hs]
      show (if (BackSearch.follow next steps r).getLast? = some goal then
        some (BackSearch.follow next steps r) else none) = _
      rw [hfollow steps hdepth, if_pos hlast]
    · exact hlength.le.trans (h.depth_le hother)

/-- **A path is found** to every node that is reached from one that nothing leads to, and it starts at
such a node. -/
theorem Linked.exists_shortestPath? {r : NodeId} (hg : g.Linked) (hgoal : goal.index < g.size)
    (hr : Relation.ReflTransGen (fun a b => a ∈ g.preds b) r goal) (hfirst : g.preds r = []) :
    ∃ path, g.shortestPath? goal = some path ∧ g.Starts goal path := by
  rcases (hg.shortestPath?_cases hgoal).2 with ⟨path, hpath, hstarts, -⟩ | ⟨-, hnone⟩
  · exact ⟨path, hpath _ (Nat.lt_succ_self _), hstarts⟩
  · exact absurd hfirst (hnone r hr)

/-! ### Nodes in a row -/

/-- Each node leads to the next one, and there are no other steps. -/
def IsRow (g : PathGraph) : Prop :=
  g.incoming.toList = (range g.size).map fun i => if i = 0 then [] else [⟨i - 1⟩]

instance : Decidable g.IsRow := inferInstanceAs (Decidable (_ = _))

theorem IsRow.mem_preds (h : g.IsRow) : m ∈ g.preds n ↔ n.index < g.size ∧ n.index = m.index + 1 := by
  obtain ⟨i⟩ := m
  obtain ⟨j⟩ := n
  rw [preds, ← Array.getElem?_toList, h, getElem?_map]
  rcases lt_or_ge j g.size with hj | hj
  · rw [getElem?_range hj]
    cases j <;> simp [hj, eq_comm]
  · rw [getElem?_eq_none (by simpa using hj)]
    simp [hj.not_gt]

theorem IsRow.eq_of_walks (h : g.IsRow) {i : Nat} (hwalks : g.Walks (⟨i⟩ :: path)) :
    ⟨i⟩ :: path = (range' i (path.length + 1)).map NodeId.mk := by
  induction path generalizing i with
  | nil => rfl
  | cons m path ih =>
    obtain ⟨hm, hrest⟩ := isChain_cons_cons.1 hwalks
    obtain rfl : m = ⟨i + 1⟩ := congrArg NodeId.mk (h.mem_preds.1 hm).2
    exact congrArg (⟨i⟩ :: ·) (ih hrest)

/-- In a row, the path to a node goes through all nodes before it. -/
theorem Linked.shortestPath?_of_isRow (hg : g.Linked) (h : g.IsRow) {i : Nat} (hi : i < g.size) :
    g.shortestPath? ⟨i⟩ = some ((range (i + 1)).map NodeId.mk) := by
  have hfirst {r : NodeId} (hr : r.index < g.size) : g.preds r = [] ↔ r = ⟨0⟩ := by
    rw [eq_nil_iff_forall_not_mem]
    refine ⟨fun hnone => ?_, ?_⟩
    · obtain ⟨_ | j⟩ := r
      · rfl
      · exact absurd (h.mem_preds.2 ⟨hr, rfl⟩) (hnone ⟨j⟩)
    · rintro rfl m hm
      cases (h.mem_preds.1 hm).2
  have hreach : ∀ j ≤ i, Relation.ReflTransGen (fun a b => a ∈ g.preds b) ⟨0⟩ ⟨j⟩ := fun j => by
    induction j with
    | zero => exact fun _ => .refl
    | succ j ih => exact fun hj => (ih (by omega)).tail (h.mem_preds.2 ⟨by dsimp only; omega, rfl⟩)
  obtain ⟨path, hpath, hwalks, hlast, r, rest, rfl, hr⟩ :=
    hg.exists_shortestPath? hi (hreach i le_rfl) ((hfirst (by dsimp only; omega)).2 rfl)
  have hlt : r.index < g.size := by
    cases rest with
    | nil => cases hlast; exact hi
    | cons m rest => exact (hg.exists_nodes (isChain_cons_cons.1 hwalks).1).1
  cases (hfirst hlt).1 hr
  have heq := h.eq_of_walks hwalks
  rw [heq, range'_concat, map_append, getLast?_append] at hlast
  simp at hlast
  rw [hpath, heq, hlast, range_eq_range']
/-! ### Any graph -/

/-- The graphs that are made by asking for nodes, by recording steps between nodes that exist, and by making
nodes roots. Steps may lead in a circle. -/
inductive Built : PathGraph → Prop where
  | empty : Built {}
  | add {g : PathGraph} (x : PathNode) : g.Built → (g.add x).2.Built
  | addEdge {g : PathGraph} {a b : NodeId} : g.Built → a.index < g.size → b.index < g.size →
    (g.addEdge a b).Built
  | addRoot {g : PathGraph} (n : NodeId) : g.Built → (g.addRoot n).Built

theorem Linked.addRoot (h : g.Linked) (n : NodeId) : (g.addRoot n).Linked := by
  unfold PathGraph.addRoot
  split
  · exact h
  · exact ⟨h.incoming, h.outgoing, h.mem_succs, h.nodup_preds, h.nodup_succs, h.irrefl, h.exists_nodes⟩

theorem Built.linked (h : g.Built) : g.Linked := by
  induction h with
  | empty => exact .empty
  | add x _ ih => exact ih.add x
  | addEdge _ ha hb ih => exact ih.addEdge ha hb
  | addRoot n _ ih => exact ih.addRoot n

/-- **Shortest paths**, whatever the graph: a path is found exactly if a node that nothing leads to reaches
the goal. It leads from such a node along the steps of the graph to the goal and comes to no node twice, and
no path from such a node has fewer nodes. The search ends, however many steps beyond the number of nodes it
may take. -/
theorem Built.shortestPath?_correct (hg : g.Built) (hn : n.index < g.size) :
    ((∃ path, g.shortestPath? n = some path) ↔
      ∃ r, g.preds r = [] ∧ Relation.ReflTransGen (fun a b => a ∈ g.preds b) r n) ∧
    (∀ path, g.shortestPath? n = some path →
      g.Starts n path ∧ path.Nodup ∧ ∀ other, g.Starts n other → path.length ≤ other.length) ∧
    ∃ out, ∀ steps, g.size < steps → g.searchBack n steps { queue := [n] } = some out ∧
      g.pathWithin? steps n = g.shortestPath? n := by
  have hlast : g.size < g.size + 1 := Nat.lt_succ_self _
  obtain ⟨⟨out, hout⟩, ⟨path, hpath, hstarts, hnodup, hshortest⟩ | ⟨hnone, hpreds⟩⟩ :=
    hg.linked.shortestPath?_cases hn
  · have hfound : g.shortestPath? n = some path := hpath _ hlast
    obtain ⟨r, rest, rfl, hfirst⟩ := hstarts.first
    refine ⟨⟨fun _ => ⟨r, hfirst, hstarts.walks.reaches hstarts.last⟩, fun _ => ⟨_, hfound⟩⟩,
      fun path' hpath' => ?_, out, fun steps hs => ⟨hout steps hs, (hpath steps hs).trans hfound.symm⟩⟩
    cases hfound.symm.trans hpath'
    exact ⟨hstarts, hnodup, hshortest⟩
  · have hnot : g.shortestPath? n = none := hnone _ hlast
    refine ⟨⟨fun ⟨path, hpath⟩ => ?_, fun ⟨r, hfirst, hr⟩ => absurd hfirst (hpreds r hr)⟩,
      fun path hpath => ?_, out, fun steps hs => ⟨hout steps hs, (hnone steps hs).trans hnot.symm⟩⟩
    · cases hnot.symm.trans hpath
    · cases hnot.symm.trans hpath

/-- Three nodes that no step leads to. -/
def apart : PathGraph :=
  let node (b : Nat) : PathNode := ⟨⟨.entrance ⟨b⟩, ⟨0⟩, none⟩, {}, false⟩
  (((PathGraph.add {} (node 0)).2.add (node 1)).2.add (node 2)).2

/-- The nodes in a row. -/
def row : PathGraph := (apart.addEdge ⟨0⟩ ⟨1⟩).addEdge ⟨1⟩ ⟨2⟩

theorem built_row : row.Built :=
  .addEdge (.addEdge (.add _ (.add _ (.add _ .empty))) (by decide +kernel) (by decide +kernel))
    (by decide +kernel) (by decide +kernel)

/-- The first node leads to the second one, which leads to the third one and is reached from it. -/
def circle : PathGraph := row.addEdge ⟨2⟩ ⟨1⟩

theorem built_circle : circle.Built := built_row.addEdge (by decide +kernel) (by decide +kernel)

/-- A path is found also to a node that leads back to itself. -/
theorem shortestPath?_circle :
    circle.Built ∧ (⟨2⟩ : NodeId).index < circle.size ∧ ⟨2⟩ ∈ circle.preds ⟨1⟩ ∧ ⟨1⟩ ∈ circle.preds ⟨2⟩ ∧
      ∃ path, circle.shortestPath? ⟨2⟩ = some path ∧ path.length ≤ 3 := by
  have hsize : (⟨2⟩ : NodeId).index < circle.size := by decide +kernel
  have h01 : (⟨0⟩ : NodeId) ∈ circle.preds ⟨1⟩ := by decide +kernel
  have h12 : (⟨1⟩ : NodeId) ∈ circle.preds ⟨2⟩ := by decide +kernel
  have h21 : (⟨2⟩ : NodeId) ∈ circle.preds ⟨1⟩ := by decide +kernel
  have hfirst : circle.preds ⟨0⟩ = [] := by decide +kernel
  obtain ⟨hfound, hshortest, -⟩ := built_circle.shortestPath?_correct hsize
  obtain ⟨path, hpath⟩ := hfound.2 ⟨_, hfirst, .head h01 (.single h12)⟩
  have hstarts : circle.Starts ⟨2⟩ [⟨0⟩, ⟨1⟩, ⟨2⟩] :=
    ⟨isChain_cons_cons.2 ⟨h01, isChain_cons_cons.2 ⟨h12, isChain_singleton _⟩⟩, rfl, _, _, rfl,
      hfirst⟩
  exact ⟨built_circle, hsize, h21, h12, path, hpath,
    (hshortest path hpath).2.2 _ hstarts⟩

end PathGraph

end PathScout

import PathScout.Exploration.Step
import PathScout.Proofs.CatalogLaws
import PathScout.Proofs.MapLaws

/-!
# Steps of an exploration

What the elementary actions do, and how a sequence of them that succeeds is taken apart.

* `Exploring.bind_eq_ok`: a sequence succeeds if each of its parts does.
* `PathGraph.node?_add`, `PathGraph.node?_of_add`: a graph with one more node.
* `Exploring.arrive_eq_ok`, `Exploring.settle_eq_ok`, `Exploring.advance_eq_ok`: steps of a path.
-/

namespace PathScout

open PathGraph List Exploring Array

/-! ### Graphs -/

namespace PathGraph

variable {g : PathGraph} {x y : PathNode} {n m : NodeId}

/-- Adding a node that is there changes nothing; otherwise it becomes the last one. -/
theorem add_cases (g : PathGraph) (x : PathNode) :
    (∃ n, g.node? n = some x ∧ g.add x = ((n, false), g)) ∨
      (g.add x).1 = (⟨g.size⟩, true) ∧ (g.add x).2.size = g.size + 1 ∧
        ∀ m, (g.add x).2.node? m = if m.index = g.size then some x else g.node? m := by
  obtain ⟨nodes, incoming, outgoing, roots⟩ := g
  by_cases h : ∃ i, nodes.get? i = some x
  · obtain ⟨i, hi⟩ := h
    refine .inl ⟨⟨i⟩, hi, ?_⟩
    simp only [add, Interned.intern_of_get? hi, if_true]
  · have hnone : nodes.index[x]? = none := by
      cases hi : nodes.index[x]? with
      | none => rfl
      | some i => exact absurd ⟨i, (nodes.index_iff x i).1 hi⟩ h
    have hintern : nodes.intern x = (nodes.items.size, nodes.push x hnone) := by
      unfold Interned.intern
      split
      · next i hi => cases hnone.symm.trans ((nodes.find?_eq x).symm.trans hi)
      · rfl
    have hsize : (nodes.push x hnone).size = nodes.size + 1 := size_push ..
    have hadd : add ⟨nodes, incoming, outgoing, roots⟩ x = ((⟨nodes.size⟩, true),
        ⟨nodes.push x hnone, incoming.push [], outgoing.push [], roots⟩) := by
      simp only [add, hintern, hsize, Nat.add_eq_left, Nat.one_ne_zero, if_false]
      rfl
    rw [hadd]
    exact .inr ⟨rfl, hsize, fun m => Interned.get?_push hnone⟩

theorem node?_add (g : PathGraph) (x : PathNode) : (g.add x).2.node? (g.add x).1.1 = some x := by
  rcases add_cases g x with ⟨n, hn, hadd⟩ | ⟨hadd, -, hnode⟩
  · rw [hadd]
    exact hn
  · rw [hadd, hnode, if_pos rfl]

theorem node?_add_of_node? (h : g.node? n = some y) : (g.add x).2.node? n = some y := by
  rcases add_cases g x with ⟨m, -, hadd⟩ | ⟨-, -, hnode⟩
  · rw [hadd]
    exact h
  · have hlt : n.index < g.size := Interned.lt_size_of_get? h
    rw [hnode, if_neg hlt.ne]
    exact h

theorem node?_of_add (h : (g.add x).2.node? n = some y) :
    g.node? n = some y ∨ n = (g.add x).1.1 ∧ y = x ∧ (g.add x).1.2 = true := by
  rcases add_cases g x with ⟨m, -, hadd⟩ | ⟨hadd, -, hnode⟩
  · rw [hadd] at h
    exact .inl h
  · rw [hnode] at h
    split at h
    · next hn =>
      rw [hadd]
      exact .inr ⟨congrArg NodeId.mk hn, (Option.some.inj h).symm, rfl⟩
    · exact .inl h

/-- The number of nodes grows exactly if the node is new. -/
theorem size_add (g : PathGraph) (x : PathNode) :
    (g.add x).2.size = g.size + if (g.add x).1.2 then 1 else 0 := by
  rcases add_cases g x with ⟨m, -, hadd⟩ | ⟨hadd, hsize, -⟩
  · rw [hadd]
    rfl
  · rw [hadd, hsize]
    rfl

theorem state_eq (h : g.node? n = some x) : g.state n = x.state := by
  rw [state, h]
  rfl

theorem point_eq (h : g.node? n = some x) : g.point n = x.point := by
  rw [point, h]
  rfl

@[simp] theorem nodes_addEdge (g : PathGraph) (n m : NodeId) : (g.addEdge n m).nodes = g.nodes := by
  unfold addEdge
  split <;> rfl

theorem size_addEdge (g : PathGraph) (n m : NodeId) : (g.addEdge n m).size = g.size :=
  congrArg Interned.size (nodes_addEdge g n m)

theorem node?_addEdge (g : PathGraph) (n m a : NodeId) : (g.addEdge n m).node? a = g.node? a := by
  rw [node?, nodes_addEdge]
  rfl

@[simp] theorem nodes_addRoot (g : PathGraph) (n : NodeId) : (g.addRoot n).nodes = g.nodes := by
  unfold addRoot
  split <;> rfl

end PathGraph

/-! ### Actions -/

namespace Exploring

variable {α β : Type} {e e' : Exploration} {a : α} {b : β} {pred n : NodeId} {x y : PathNode}

/-- A sequence of actions succeeds if both do. -/
theorem bind_eq_ok {x : Exploring α} {f : α → Exploring β} :
    (x >>= f) e = .ok (b, e') ↔ ∃ a d, x e = .ok (a, d) ∧ f a d = .ok (b, e') := by
  show Except.bind (x e) (fun p => f p.1 p.2) = _ ↔ _
  cases x e with
  | error err =>
    constructor
    · intro h
      cases h
    · rintro ⟨a, d, h, -⟩
      cases h
  | ok p =>
    constructor
    · intro h
      exact ⟨p.1, p.2, rfl, h⟩
    · rintro ⟨a, d, h, h'⟩
      cases h
      exact h'

/-- An action goes on where the one before has succeeded. -/
theorem bind_of_ok {x : Exploring α} {f : α → Exploring β} (h : x e = .ok (a, e')) :
    (x >>= f) e = f a e' := by
  show Except.bind (x e) (fun p => f p.1 p.2) = _
  rw [h]
  rfl

@[simp] theorem query_bind (f : Exploration → α) (g : α → Exploring β) (e : Exploration) :
    (query f >>= g) e = g (f e) e := rfl

@[simp] theorem naming_bind (x : Naming α) (g : α → Exploring β) (e : Exploration) :
    (naming x >>= g) e = g (x e.catalog).1 { e with catalog := (x e.catalog).2 } := rfl

@[simp] theorem onFrames_bind (f : Frames → α × Frames) (g : α → Exploring β) (e : Exploration) :
    (onFrames f >>= g) e = g (f e.frames).1 { e with frames := (f e.frames).2 } := rfl

theorem pure_eq_ok {b : α} : (pure a : Exploring α) e = .ok (b, e') ↔ a = b ∧ e = e' := by
  show Except.ok (a, e) = Except.ok (b, e') ↔ _
  rw [Except.ok.injEq, Prod.mk.injEq]

theorem ite_apply {p : Prop} [Decidable p] (x y : Exploring α) (e : Exploration) :
    (if p then x else y : Exploring α) e = if p then x e else y e := by
  split <;> rfl

/-- The exploration after a step to a node. -/
def arrived (e : Exploration) (pred : NodeId) (x : PathNode) : Exploration :=
  { e with graph := (e.graph.add x).2.addEdge pred (e.graph.add x).1.1 }

/-- The node of a step, whether it is new or not. -/
theorem node?_arrived (e : Exploration) (pred : NodeId) (x : PathNode) :
    (arrived e pred x).graph.node? (e.graph.add x).1.1 = some x :=
  (node?_addEdge ..).trans (node?_add e.graph x)

theorem node?_arrived_of_node? (h : e.graph.node? n = some y) :
    (arrived e pred x).graph.node? n = some y :=
  (node?_addEdge ..).trans (node?_add_of_node? h)

theorem node?_of_arrived (h : (arrived e pred x).graph.node? n = some y) :
    e.graph.node? n = some y ∨ n = (e.graph.add x).1.1 ∧ y = x ∧ (e.graph.add x).1.2 = true :=
  node?_of_add ((node?_addEdge ..).symm.trans h)

theorem size_arrived (e : Exploration) (pred : NodeId) (x : PathNode) :
    (arrived e pred x).graph.size = e.graph.size + if (e.graph.add x).1.2 then 1 else 0 := by
  rw [← size_add]
  exact congrArg Interned.size (nodes_addEdge ..)

theorem arrive_eq_ok {a : NodeId × Bool} :
    arrive pred x e = .ok (a, e') ↔ (e.graph.add x).1 = a ∧ arrived e pred x = e' := by
  show Except.ok ((e.graph.add x).1, arrived e pred x) = Except.ok (a, e') ↔ _
  rw [Except.ok.injEq, Prod.mk.injEq]

/-- The exploration with one more pending node. -/
def queued (e : Exploration) (n : NodeId) (visits : Visits) : Exploration :=
  { e with worklist := e.worklist.push ⟨n, visits⟩ }

theorem advance_eq (pred : NodeId) (point : Point) (s : State) (visits : Visits) (e : Exploration) :
    advance pred point s visits e = .ok ((), if (e.graph.add ⟨point, s, false⟩).1.2 then
        queued (arrived e pred ⟨point, s, false⟩) (e.graph.add ⟨point, s, false⟩).1.1 visits
      else arrived e pred ⟨point, s, false⟩) := by
  show (if (e.graph.add ⟨point, s, false⟩).1.2 = true then queue _ visits else pure ()) _ = _
  rw [ite_apply]
  split <;> rfl

end Exploring

/-! ### Pending nodes -/

namespace Worklist

variable {w : Worklist} {p : Pending}

theorem mem_push {q : Pending} : q ∈ (w.push p).pending ↔ q = p ∨ q ∈ w.pending := by
  unfold push
  split
  · exact List.mem_cons
  · simp only [List.mem_append, List.mem_singleton]
    exact or_comm

theorem length_push (w : Worklist) (p : Pending) :
    (w.push p).pending.length = w.pending.length + 1 := by
  unfold push
  split
  · rfl
  · exact length_append

theorem pending_of_pop? {w' : Worklist} (h : w.pop? = some (p, w')) : w.pending = p :: w'.pending := by
  unfold pop? at h
  split at h
  · cases h
  · next hcons =>
    cases h
    exact hcons

theorem pop?_eq_none : w.pop? = none ↔ w.pending = [] := by
  unfold pop?
  split
  · next hnil => exact ⟨fun _ => hnil, fun _ => rfl⟩
  · next hcons => exact ⟨fun h => (nomatch h), fun h => nomatch hcons.symm.trans h⟩

end Worklist

namespace Visits

theorem count_enter_self (v : Visits) (f : FrameId) (b : BlockId) :
    (v.enter f b).count f b = v.count f b + 1 := by
  rw [count, enter, FingerprintMap.get?_insert, if_pos rfl]
  rfl

theorem count_enter_of_ne {v : Visits} {f g : FrameId} {b a : BlockId} (h : ¬(g = f ∧ a = b)) :
    (v.enter f b).count g a = v.count g a := by
  rw [count, count, enter, FingerprintMap.get?_insert, if_neg]
  intro heq
  cases heq
  exact h ⟨rfl, rfl⟩

theorem count_le_enter (v : Visits) (f g : FrameId) (b a : BlockId) :
    v.count g a ≤ (v.enter f b).count g a := by
  by_cases h : g = f ∧ a = b
  · rw [h.1, h.2, count_enter_self]
    exact Nat.le_succ _
  · rw [count_enter_of_ne h]

end Visits

/-! ### The start -/

/-- The frame of the function that an exploration starts with. -/
def topFrame : FrameId := ⟨0⟩

/-- The first frame has the number zero. -/
theorem Frames.top_empty (f : FunctionId) : (Frames.top ∅ f).1 = topFrame ∧
    Frames.frame? (Frames.top ∅ f).2 topFrame = some ⟨none, f, none, 0⟩ := ⟨rfl, rfl⟩

/-- There is no other frame then. -/
theorem Frames.eq_of_frame?_top_empty {f : FunctionId} {g : FrameId} {x : Frame}
    (h : (Frames.top ∅ f).2.frame? g = some x) : x = ⟨none, f, none, 0⟩ := by
  have hx : (#[⟨none, f, none, 0⟩] : Array Frame)[g.index]? = some x := h
  exact mem_singleton.1 (mem_of_getElem? hx)

namespace Exploration

/-- The memory that an exploration starts with, and the catalog: the program starts with the function
`main`, and nothing is known where any other function starts. -/
def opening (o : Options) (p : Program) (f : FunctionId) : State × Catalog :=
  if (p.function f).name = "main" then State.ofGlobals o.store topFrame (.ofProgram p)
  else ({}, .ofProgram p)

/-- The node that an exploration starts with. -/
def root (o : Options) (p : Program) (f : FunctionId) : PathNode :=
  ⟨⟨.entry, topFrame, none⟩, (opening o p f).1, false⟩

/-- The exploration of a function before the first pending node is continued. -/
def start (o : Options) (p : Program) (f : FunctionId) : Exploration where
  catalog := (opening o p f).2
  frames := (Frames.top ∅ f).2
  graph := (PathGraph.add {} (root o p f)).2.addRoot (PathGraph.add {} (root o p f)).1.1
  worklist := Worklist.push ⟨o.searchOrder, []⟩ ⟨(PathGraph.add {} (root o p f)).1.1, {}⟩

variable {o : Options} {p : Program} {f : FunctionId}

/-- There is one node at the start, and it is pending. -/
theorem start_spec (o : Options) (p : Program) (f : FunctionId) :
    ∃ n, (start o p f).worklist.pending = [⟨n, {}⟩] ∧
      ∀ m x, (start o p f).graph.node? m = some x ↔ m = n ∧ x = root o p f := by
  refine ⟨(PathGraph.add {} (root o p f)).1.1, ?_, fun m x => ?_⟩
  · unfold start Worklist.push
    split <;> rfl
  · have hadd : (start o p f).graph.node? m = (PathGraph.add {} (root o p f)).2.node? m := by
      show ((PathGraph.add {} (root o p f)).2.addRoot _).nodes.get? m.index = _
      rw [nodes_addRoot]
      rfl
    rw [hadd]
    constructor
    · intro hm
      rcases node?_of_add hm with hm | ⟨hm, hx, -⟩
      · cases hm
      · exact ⟨hm, hx⟩
    · rintro ⟨rfl, rfl⟩
      exact node?_add ..

/-- An exploration is a search from the start. -/
theorem explore_eq_ok {body : FunctionBody} {e : Exploration}
    (hbody : (p.function f).body = some body) : explore o p f = .ok e ↔
      search o topFrame (p.function f).location o.maxNodes (start o p f) = .ok ((), e) := by
  suffices h : explore o p f = (·.2) <$> search o topFrame (p.function f).location
      o.maxNodes (start o p f) by
    rw [h]
    cases search o topFrame (p.function f).location o.maxNodes (start o p f) with
    | error err => exact ⟨fun h => (nomatch h), fun h => (nomatch h)⟩
    | ok out => exact ⟨fun h => by cases h; rfl, fun h => by cases h; rfl⟩
  have hisNone : (p.function f).body.isNone = false := by
    rw [hbody]
    rfl
  unfold explore
  show _ <$> Exploring.followAll o f _ = _
  unfold Exploring.followAll
  rw [query_bind, show Catalog.program _ = p from rfl, hisNone, if_neg (by simp)]
  dsimp only
  rw [onFrames_bind, (Frames.top_empty f).1, ite_apply]
  unfold start root opening
  split
  · rw [naming_bind]
    rfl
  · rfl

end Exploration

end PathScout

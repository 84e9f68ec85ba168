import PathScout.Proofs.CheckerTurns
import PathScout.Proofs.GraphInvariants

/-!
# Paths go forward, except round loops

Every point of a path has a place. Places are compared like words: first the steps of the calls that
wait, outermost first, then the block, then how far the path came in it, then whose turn it is. A block
is later than another one if fewer blocks can be reached from it. So only one kind of edge can lead to a
place that is not later: the one that comes out of a block edge from where a loop is closed. All other
edges together have no cycle, and every cycle of the graph goes round a loop of a function.

* `Frames.Goes`, `Frames.Closes`: steps between the blocks of a function, and those that close a loop.
* `Frames.behind`: how many blocks a path in a block has left behind for good.
* `Frames.place`: where a point is. `Edge.place_lt`: edges lead to later places.
* `Exploration.acyclic_off_loops`: a graph without the block edges that close a loop has no cycle.
-/

namespace PathScout

open Relation PathGraph List

namespace Frames

variable {callee : FunctionId} {site : CallSite} {depth : Nat} {q q' : Point}

section

variable (p : Program) (fs : Frames)

/-- The function in the frame goes from one block to another. -/
def Goes (f : FrameId) (b target : BlockId) : Prop :=
  ∃ block, HasBlock p fs f b block ∧ target ∈ block.terminator.successors

/-- A loop is closed: after the step from one block to another the function may come back to the
first one. -/
def Closes (f : FrameId) (b target : BlockId) : Prop :=
  Goes p fs f b target ∧ ReflTransGen (Goes p fs f) target b

/-- The blocks of the function in the frame. -/
def blocksOf (f : FrameId) : Set BlockId := {b | ∃ block, HasBlock p fs f b block}

/-- The blocks to which the function does not come back from a block. -/
def left (f : FrameId) (b : BlockId) : Set BlockId :=
  {c ∈ blocksOf p fs f | ¬ ReflTransGen (Goes p fs f) b c}

/-- How many blocks a path in a block has left behind for good. -/
noncomputable def behind (f : FrameId) (b : BlockId) : Nat := (left p fs f b).ncard

end

variable {p : Program} {o : Options} {fs : Frames} {f g : FrameId} {b t : BlockId}

theorem finite_blocksOf : (blocksOf p fs f).Finite := by
  rcases (blocksOf p fs f).eq_empty_or_nonempty with hempty | ⟨b, block, body, hruns, -⟩
  · rw [hempty]
    exact Set.finite_empty
  · refine Set.Finite.subset (Set.Finite.preimage (f := BlockId.index) ?_
      (Set.finite_lt_nat body.graph.blocks.size)) fun c hc => ?_
    · rintro ⟨i⟩ - ⟨j⟩ - (rfl : i = j)
      rfl
    · obtain ⟨block', body', hruns', hc⟩ := hc
      obtain rfl := hruns.unique hruns'
      exact (Array.getElem?_eq_some_iff.1 hc).1

theorem behind_le : behind p fs f b ≤ (blocksOf p fs f).ncard :=
  Set.ncard_le_ncard (Set.sep_subset _ _) finite_blocksOf

/-- A step that closes no loop leaves a block behind. -/
theorem behind_lt (hgoes : Goes p fs f b t) (hclose : ¬ Closes p fs f b t) :
    behind p fs f b < behind p fs f t := by
  refine Set.ncard_lt_ncard ?_ (finite_blocksOf.subset (Set.sep_subset _ _))
  have hsub : left p fs f b ⊆ left p fs f t := fun c hc => ⟨hc.1, fun h => hc.2 (.head hgoes h)⟩
  obtain ⟨block, hblock, -⟩ := id hgoes
  exact (Set.ssubset_iff_of_subset hsub).2
    ⟨b, ⟨⟨block, hblock⟩, fun h => hclose ⟨hgoes, h⟩⟩, fun hb => hb.2 .refl⟩

/-! ### Places -/

section

variable (p : Program) (o : Options) (fs : Frames)

/-- The last part of a place: the block, how far the path came in it, and whose turn it is. The end of a
function comes after all blocks. -/
noncomputable def slot (f : FrameId) (kind : PointKind) (turn : Nat) : List Nat :=
  match kind with
  | .entry => [0, 0, 0, turn]
  | .entrance b => [behind p fs f b + 1, 0, 0, turn]
  | .before b i => [behind p fs f b + 1, 0, 4 * i + 1, turn]
  | .callEnter site _ => [behind p fs f site.block + 1, 0, 4 * site.index + 2, turn]
  | .after b i => [behind p fs f b + 1, 0, 4 * i + 3, turn]
  | .exit b => [behind p fs f b + 1, 1, 0, turn]
  | .edge b _ => [behind p fs f b + 1, 1, 1, turn]
  | .finish => [(blocksOf p fs f).ncard + 2, 0, 0, turn]
  | .callExit _ => [(blocksOf p fs f).ncard + 2, 0, 1, turn]

/-- The step of the call that entered a frame. -/
noncomputable def callSlot (g : FrameId) : List (List Nat) :=
  match fs.frame? g with
  | some ⟨some f, callee, some site, _⟩ => [slot p fs f (.callEnter site callee) 0]
  | _ => []

/-- The steps of the calls that wait for a frame, outermost first. -/
noncomputable def callSlots (f : FrameId) : List (List Nat) :=
  (ancestors fs f).reverse.flatMap (callSlot p fs)

open Classical in
/-- Whose turn it is. The end of a call that was followed comes after what checkers say about it; after
a call that was not followed it is the other way round. -/
noncomputable def turnAt (q : Point) : Nat :=
  match q.tag, q.kind with
  | none, .after b i => if Skips p o fs q.frame b i then 0 else 4
  | _, _ => q.turn

/-- Where a point is. -/
noncomputable def place (q : Point) : List (List Nat) :=
  callSlots p fs q.frame ++ [slot p fs q.frame q.kind (turnAt p o fs q)]

end

theorem callSlots_called (hs : fs.Stacked p o)
    (hg : fs.frame? g = some ⟨some f, callee, some site, depth⟩) :
    callSlots p fs g = callSlots p fs f ++ [slot p fs f (.callEnter site callee) 0] := by
  have hcall : callSlot p fs g = [slot p fs f (.callEnter site callee) 0] := by rw [callSlot, hg]
  rw [callSlots, hs.ancestors_called hg rfl, reverse_cons, flatMap_append, ← callSlots,
    flatMap_singleton, hcall]

/-! ### Later places -/

theorem lt_slot {a b c d a' b' c' d' : Nat}
    (h : a < a' ∨ a = a' ∧ (b < b' ∨ b = b' ∧ (c < c' ∨ c = c' ∧ d < d'))) :
    [a, b, c, d] < [a', b', c', d'] := by
  simp only [cons_lt_cons_iff]
  omega

/-- Places in one frame are compared by their last parts. -/
theorem place_lt (hframe : q'.frame = q.frame)
    (h : slot p fs q.frame q.kind (turnAt p o fs q) < slot p fs q.frame q'.kind (turnAt p o fs q')) :
    place p o fs q < place p o fs q' := by
  unfold place
  rw [hframe]
  exact append_left_lt (cons_lt_cons_iff.2 (.inl h))

/-- The path stays where it is, and it is a later turn. -/
theorem place_lt_of_turn (hkind : q'.kind = q.kind) (hframe : q'.frame = q.frame)
    (h : turnAt p o fs q < turnAt p o fs q') : place p o fs q < place p o fs q' := by
  refine place_lt hframe ?_
  rw [hkind]
  cases q.kind <;> exact lt_slot (by omega)

/-- A function is entered. -/
theorem place_lt_of_enter (hs : fs.Stacked p o)
    (hg : fs.frame? g = some ⟨some f, callee, some site, depth⟩) (hq : q.frame = g) :
    place p o fs ⟨.callEnter site callee, f, none⟩ < place p o fs q := by
  unfold place
  rw [hq, callSlots_called hs hg, append_assoc]
  exact append_left_lt (cons_lt_cons_iff.2 (.inr ⟨rfl, nil_lt_cons _ _⟩))

/-- A function is left. -/
theorem place_lt_of_leave (tag : Option Checker) (hs : fs.Stacked p o)
    (hg : fs.frame? g = some ⟨some f, callee, some site, depth⟩) (hq : q.frame = g) :
    place p o fs q < place p o fs ⟨.after site.block site.index, f, tag⟩ := by
  unfold place
  rw [hq, callSlots_called hs hg, append_assoc]
  dsimp only
  exact append_left_lt (cons_lt_cons_iff.2 (.inl (lt_slot (by omega))))

theorem turnAt_eq (h : q.tag = none → ∀ b i, q.kind = .after b i → Skips p o fs q.frame b i) :
    turnAt p o fs q = q.turn := by
  obtain ⟨kind, f, tag⟩ := q
  unfold turnAt
  split
  · next htag hkind =>
    cases htag
    cases hkind
    rw [if_pos (h rfl _ _ rfl)]
    rfl
  · rfl

theorem turnAt_le (h : q.tag ≠ none) : turnAt p o fs q ≤ 3 := by
  rw [turnAt_eq fun hnone => absurd hnone h]
  obtain ⟨kind, f, tag⟩ := q
  cases tag with
  | none => exact absurd rfl h
  | some checker =>
    show checker.turn ≤ 3
    cases checker <;> decide

end Frames

/-! ### Edges -/

section

variable {p : Program} {o : Options} {fs : Frames} {x y : PathNode} {q q' z : Point} {f : FrameId}
  {b t : BlockId} {i : Nat}

open Frames

/-- A path to a block edge takes a step between blocks. -/
theorem Edge.goes (h : Edge p o fs x y) (hkind : y.point.kind = .edge b t) :
    Goes p fs y.point.frame b t := by
  have hasked : ∀ {kind : PointKind}, kind.Asked → kind ≠ .edge b t := fun h heq => by
    rw [heq] at h
    exact h
  cases h with
  | tell hlooks _ _ => exact absurd hkind (hasked hlooks.asked.1)
  | pause _ hheads _ _ => exact absurd hkind (hasked hheads.asked.1)
  | leave _ hblock htarget _ =>
    cases hkind
    exact ⟨_, hblock, htarget⟩
  | _ => cases hkind

/-- A path does not come back to a block edge that closes a loop. -/
def Point.Forward (p : Program) (fs : Frames) (q : Point) : Prop :=
  ∀ b t, q.kind = .edge b t → Goes p fs q.frame b t ∧ ¬ Closes p fs q.frame b t

/-- A block is entered. -/
theorem Leads.place_lt (h : Leads p fs q f b) (hs : fs.Stacked p o) (hpends : q.Pends p o fs)
    (hforward : q.Forward p fs) (hkind : q'.kind = .entrance b) (hframe : q'.frame = f) :
    place p o fs q < place p o fs q' := by
  cases h with
  | entry _ =>
    refine Frames.place_lt hframe ?_
    rw [hkind]
    exact lt_slot (by omega)
  | edge =>
    refine Frames.place_lt hframe ?_
    obtain ⟨hgoes, hclose⟩ := hforward _ _ rfl
    have := behind_lt hgoes hclose
    rw [hkind]
    exact lt_slot (by omega)
  | call hg _ =>
    obtain rfl := hpends.tag.resolve_right fun ⟨_, _, h, _⟩ => nomatch h
    exact place_lt_of_enter hs hg hframe

/-- A path goes on to a later step of a block, or to its end. -/
theorem Point.Before.place_lt (h : q.Before f b i) (hframe : q'.frame = f)
    (hkind : (∃ j, i ≤ j ∧ (q'.kind = .before b j ∨ q'.kind = .after b j ∨
      ∃ site callee, q'.kind = .callEnter site callee ∧ site.block = b ∧ site.index = j)) ∨
      q'.kind = .exit b ∨ (∃ t, q'.kind = .edge b t) ∨ q'.kind = .finish) :
    place p o fs q < place p o fs q' := by
  have hbehind : behind p fs f b ≤ (blocksOf p fs f).ncard := behind_le
  cases h with
  | entrance | after =>
    refine Frames.place_lt hframe ?_
    dsimp only
    rcases hkind with ⟨j, hj, h | h | ⟨site, callee, h, rfl, rfl⟩⟩ | h | ⟨t, h⟩ | h <;> rw [h] <;>
      exact lt_slot (by omega)

/-- The path comes to a later place, or checkers look at it where it is. -/
theorem Heads.place_lt_or (h : Heads p o fs q q') (hs : fs.Stacked p o) (hpends : q.Pends p o fs)
    (hforward : q.Forward p fs) (hkind : z.kind = q'.kind) (hframe : z.frame = q'.frame) :
    place p o fs q < place p o fs z ∨ q = q' ∧ (q.kind = .finish ∨
      ∃ b i, q.kind = .after b i ∧ Skips p o fs q.frame b i) := by
  cases h with
  | entrance hleads => exact .inl (hleads.place_lt hs hpends hforward hkind hframe)
  | before hbefore _ _ => exact .inl (hbefore.place_lt hframe (.inl ⟨_, le_rfl, .inl hkind⟩))
  | exit hbefore _ _ => exact .inl (hbefore.place_lt hframe (.inr (.inl hkind)))
  | finish hbefore _ _ _ => exact .inl (hbefore.place_lt hframe (.inr (.inr (.inr hkind))))
  | @leave f b _ _ _ =>
    refine .inl (Frames.place_lt hframe ?_)
    have hbehind : behind p fs f b ≤ (blocksOf p fs f).ncard := behind_le
    rw [hkind]
    dsimp only
    exact lt_slot (by omega)
  | ended _ _ => exact .inr ⟨rfl, .inl rfl⟩
  | @back f g _ site _ hg =>
    obtain ⟨kind, _, tag⟩ := z
    cases hkind
    cases hframe
    exact .inl (place_lt_of_leave tag hs hg rfl)
  | skipped hskips => exact .inr ⟨rfl, .inr ⟨_, _, rfl, hskips⟩⟩

section

variable (h : Looks p o fs q q') (hs : fs.Stacked p o) (hforward : q.Forward p fs)
include h hs hforward

theorem Looks.place_lt_or (hkind : z.kind = q'.kind) (hframe : z.frame = q'.frame) :
    place p o fs q < place p o fs z ∨ q.kind = q'.kind ∧ q.frame = q'.frame ∧ (q.tag = none →
      (∀ b, q.kind ≠ .entrance b) ∧ ∀ b i, q.kind = .after b i → Skips p o fs q.frame b i) := by
  cases h with
  | heads hpends hheads =>
    refine (hheads.place_lt_or hs hpends hforward hkind hframe).imp_right ?_
    rintro ⟨rfl, hfinish | ⟨b, i, hafter, hskips⟩⟩
    · refine ⟨rfl, rfl, fun _ => ⟨fun b h => ?_, fun b i h => ?_⟩⟩ <;> cases hfinish.symm.trans h
    · refine ⟨rfl, rfl, fun _ => ⟨fun b h => ?_, fun b i h => ?_⟩⟩ <;> cases hafter.symm.trans h
      exact hskips
  | told _ => exact .inr ⟨rfl, rfl, fun h => nomatch h⟩
  | before | exit => exact .inr ⟨rfl, rfl, fun _ => ⟨fun _ h => (nomatch h), fun _ _ h => nomatch h⟩⟩

/-- Where checkers look at a path is not before where it is. -/
theorem Looks.place_le :
    ∃ z : Point, z.kind = q'.kind ∧ z.frame = q'.frame ∧ place p o fs q ≤ place p o fs z := by
  rcases h.place_lt_or hs hforward rfl rfl with hlt | ⟨hkind, hframe, -⟩
  · exact ⟨q', rfl, rfl, hlt.le⟩
  · exact ⟨q, hkind, hframe, le_rfl⟩

/-- A checker speaks, or the end of a function is reached. -/
theorem Looks.place_lt_of_rises {s t : State} {sink : Bool} (hkind : z.kind = q'.kind)
    (hframe : z.frame = q'.frame) (hz : z.tag ≠ none ∨ z.kind = .finish)
    (hrises : PathNode.Rises ⟨q, s, sink⟩ ⟨z, t, false⟩) : place p o fs q < place p o fs z := by
  rcases h.place_lt_or hs hforward hkind hframe with hlt | ⟨hk, hf, hnone⟩
  · exact hlt
  · refine place_lt_of_turn (hkind.trans hk.symm) (hframe.trans hf.symm) ?_
    rw [turnAt_eq fun htag => (hnone htag).2, turnAt_eq fun htag b i h => ?_]
    · exact hrises rfl hz (hk.trans hkind.symm) (hf.trans hframe.symm)
    · rcases hz with hz | hz
      · exact absurd htag hz
      · cases hz.symm.trans h

end

/-- **Edges lead to later places**, but for those that come out of a block edge that closes a loop and
those where a path is given up. -/
theorem Edge.place_lt (h : Edge p o fs x y) (hs : fs.Stacked p o) (hrises : x.Rises y)
    (hforward : x.point.Forward p fs) (hsink : y.sink = false) :
    place p o fs x.point < place p o fs y.point := by
  cases h with
  | tell hlooks _ _ | evaluate hlooks =>
    cases hsink
    exact hlooks.place_lt_of_rises hs hforward rfl rfl (.inl fun h => nomatch h) hrises
  | finish hlooks => exact hlooks.place_lt_of_rises hs hforward rfl rfl (.inr rfl) hrises
  | pause hpends hheads hkind _ =>
    refine (hheads.place_lt_or hs hpends hforward rfl rfl).resolve_right ?_
    rintro ⟨heq, hq⟩
    rw [heq] at hq
    rcases hkind with ⟨b, i, hkind⟩ | ⟨b, hkind⟩ <;> rw [hkind] at hq <;>
      rcases hq with h | ⟨_, _, h, -⟩ <;> cases h
  | step hlooks _ _ _ | call hlooks _ _ | leave hlooks _ _ _ =>
    obtain ⟨z, hkind, hframe, hle⟩ := hlooks.place_le hs hforward
    refine hle.trans_lt (Frames.place_lt hframe.symm ?_)
    rw [hkind]
    exact lt_slot (by omega)
  | giveUp => cases hsink
  | enter hlooks _ =>
    rcases hlooks.place_lt_or hs hforward rfl rfl with hlt | ⟨hkind, hframe, hnone⟩
    · exact hlt
    · refine place_lt_of_turn hkind.symm hframe.symm ?_
      have hle : turnAt p o fs x.point ≤ 3 := turnAt_le fun htag => (hnone htag).1 _ hkind
      exact Nat.lt_of_le_of_lt hle (Nat.lt_succ_self 3)
  | giveBack _ hpoint =>
    rw [hpoint]
    exact Frames.place_lt rfl (lt_slot (by omega))
  | @resume f g _ site _ _ hg hpoint _ =>
    rcases hpoint with hpoint | ⟨checker, hpoint⟩ <;> rw [hpoint]
    · exact place_lt_of_leave none hs hg rfl
    · -- the function was entered, so nobody speaks after the path went on behind the call
      refine place_lt_of_turn rfl rfl ?_
      have hle : turnAt p o fs ⟨.after site.block site.index, f, some checker⟩ ≤ 3 :=
        turnAt_le fun h => nomatch h
      have hfour : turnAt p o fs ⟨.after site.block site.index, f, none⟩ = 4 := if_neg (hs.not_skips hg)
      exact (hle.trans_lt (Nat.lt_succ_self 3)).trans_eq hfour.symm

end

/-! ### Cycles -/

namespace Exploration

variable {p : Program} {o : Options} {f : FunctionId} {e : Exploration} {root x : PathNode}
  {n m : NodeId}

/-- The path at the node takes a step between blocks that closes a loop. -/
def ClosesLoop (p : Program) (e : Exploration) (n : NodeId) : Prop :=
  ∃ b t, (e.graph.point n).kind = .edge b t ∧ Frames.Closes p e.frames (e.graph.point n).frame b t

/-- A step that closes no loop. -/
def StepsOn (p : Program) (e : Exploration) (n m : NodeId) : Prop :=
  m ∈ e.graph.succs n ∧ ¬ e.ClosesLoop p m

section

variable (h : e.Records p o root) (hroot : root.point.kind = .entry)
include h hroot

/-- Where a path takes a step between blocks, the blocks follow each other. -/
theorem Records.forward (hx : e.graph.node? n = some x) (hn : ¬ e.ClosesLoop p n) :
    x.point.Forward p e.frames := by
  intro b t hkind
  refine ⟨?_, fun hcloses => hn ⟨b, t, ?_⟩⟩
  · rcases (h.tracks.reach (lt_size hx)).cases_tail with rfl | ⟨m, -, hm⟩
    · cases h.tracks.root.symm.trans hx
      cases hroot.symm.trans hkind
    · obtain ⟨z, hz⟩ := exists_node? (h.tracks.linked.exists_nodes hm).1
      exact (h.tracks.step hm hz hx).edge.goes hkind
  · rw [point_eq hx]
    exact ⟨hkind, hcloses⟩

/-- One step leads to a later place, unless the path is given up there. -/
theorem Records.place_lt {y : PathNode} (hrises : e.graph.Tracks PathNode.Rises root)
    (hnm : m ∈ e.graph.succs n) (hn : ¬ e.ClosesLoop p n) (hx : e.graph.node? n = some x)
    (hy : e.graph.node? m = some y) (hsink : y.sink = false) :
    Frames.place p o e.frames x.point < Frames.place p o e.frames y.point := by
  have hpred := h.tracks.linked.mem_succs.1 hnm
  exact (h.tracks.step hpred hx hy).edge.place_lt h.stacked (hrises.step hpred hx hy)
    (h.forward hroot hx hn) hsink

/-- So do several steps. -/
theorem Records.place_lt_of_stepsOn (hrises : e.graph.Tracks PathNode.Rises root)
    (hn : ¬ e.ClosesLoop p n) (hx : e.graph.node? n = some x) (hnm : TransGen (e.StepsOn p) n m) :
    ¬ e.ClosesLoop p m ∧ ∀ y, e.graph.node? m = some y → y.sink = false →
      Frames.place p o e.frames x.point < Frames.place p o e.frames y.point := by
  induction hnm with
  | single hstep => exact ⟨hstep.2, fun y hy => h.place_lt hroot hrises hstep.1 hn hx hy⟩
  | @tail b c _ hstep ih =>
    refine ⟨hstep.2, fun y hy hsink => ?_⟩
    have hpred := h.tracks.linked.mem_succs.1 hstep.1
    obtain ⟨z, hz⟩ := exists_node? (h.tracks.linked.exists_nodes hpred).1
    exact (ih.2 z hz (h.tracks.step hpred hz hy).continues).trans
      (h.place_lt hroot hrises hstep.1 ih.1 hz hy hsink)

end

/-- **Paths go forward, except round loops.** If no checker is asked twice, the graph that an exploration
leaves has no cycle without a block edge from where the function may come back to the block it left. -/
theorem acyclic_off_loops (h : Reached o p f e) (ho : o.checkers.Nodup) (n : NodeId) :
    ¬ TransGen (e.StepsOn p) n n := by
  intro hcycle
  have hrecords := h.records
  obtain ⟨m, hstep, -⟩ := TransGen.head'_iff.1 hcycle
  obtain ⟨k, -, hlast⟩ := TransGen.tail'_iff.1 hcycle
  have hpred := hrecords.tracks.linked.mem_succs.1 hstep.1
  obtain ⟨hn, hm⟩ := hrecords.tracks.linked.exists_nodes hpred
  obtain ⟨x, hx⟩ := exists_node? hn
  obtain ⟨y, hy⟩ := exists_node? hm
  exact lt_irrefl _ ((hrecords.place_lt_of_stepsOn rfl (h.rises ho) hlast.2 hx hcycle).2 x hx
    (hrecords.tracks.step hpred hx hy).continues)

/-- A loop with a joined condition, all paths of which are gone through. -/
theorem acyclic_off_loops_branching : ∃ p e o n, Program.ofUnit branchingUnit "a.c" = .ok p ∧
    o.checkers = Checker.all ∧ Exploring.Steps o n (start o p ⟨0⟩) e ∧ e.worklist.pending = [] ∧
      Reached o p ⟨0⟩ e ∧ o.checkers.Nodup ∧ ∀ n, ¬ TransGen (e.StepsOn p) n n := by
  obtain ⟨p, body, hu, hf⟩ := exists_branching
  obtain ⟨globals, hp⟩ := Program.ofUnit_built hu
  let o : Options := { checkers := Checker.all }
  obtain ⟨n, e, hsteps, hend, -⟩ := exists_explore (o := o) hp.closed hf
  have hnodup : o.checkers.Nodup := by decide
  exact ⟨p, e, o, n, hu, rfl, hsteps, hend, .steps hsteps, hnodup,
    acyclic_off_loops (.steps hsteps) hnodup⟩

end Exploration

end PathScout

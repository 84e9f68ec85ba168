import PathScout.Proofs.ExplorationSoundness
import PathScout.Proofs.StackDiscipline
import PathScout.Proofs.ToldPaths

/-!
# Diagnostics tell one path

The diagnostic of a report tells the shortest path to its node, whatever the options of the exploration
are. Read from its start, it has a call for every call that the path enters, a jump for every edge between
blocks, and what was reported at its end. The calls without an end are those that wait for the end of the
path.

* `Exploration.leaves_controlPiece?`: the schemes differ in jumps that say nothing.
* `Story.calls`, `Story.filterMap_call?_pieces`: the calls that are met when a story is read.
* `Story.Tells.jumps_eq`, `Story.Tells.stands`: the jumps, and the calls that are open at its end.
* `Exploration.Faithful`: what a diagnostic has to do with its path.
* `Exploration.diagnostic_faithful`: every diagnostic of an exploration is faithful.
-/

namespace PathScout

open PathGraph PathPiece ToldStep List Option

variable {α β : Type} {d : Nat} {e : Exploration} {scheme : PathScheme} {n : NodeId} {p : Program}
  {o : Options} {fs : Frames}

/-! ### Jumps -/

/-- There is a jump or none, whatever the scheme is, but one that says nothing may be left out. -/
def Leaves (x : PathScheme → Option PathPiece) : Prop :=
  (∀ scheme, x scheme = none) ∨ ∃ edges message, ∀ scheme,
    x scheme = if message.isEmpty && scheme = .minimal then none else some (.control edges message)

namespace Leaves

theorem bind {α : Type} {x : PathScheme → α → Option PathPiece} (a? : Option α)
    (h : ∀ a, Leaves fun scheme => x scheme a) : Leaves fun scheme => a? >>= x scheme := by
  cases a? with
  | none => exact .inl fun _ => rfl
  | some a => exact h a

variable {x : PathScheme → Option PathPiece}

theorem eq_control {scheme : PathScheme} {q : PathPiece} (h : Leaves x) (hq : x scheme = some q) :
    ∃ edges message, q = .control edges message := by
  rcases h with hnone | ⟨edges, message, heq⟩
  · cases (hnone scheme).symm.trans hq
  · rw [heq] at hq
    split at hq
    · cases hq
    · exact ⟨edges, message, (some.inj hq).symm⟩

/-- The jumps of the one scheme are those of the other one that say something. -/
theorem minimal_eq (h : Leaves x) : x .minimal = (x .extensive).filter (·.message?.isSome) := by
  rcases h with hnone | ⟨edges, message, heq⟩
  · rw [hnone, hnone]
    rfl
  · rw [heq, heq]
    cases hmessage : message.isEmpty <;> simp [Option.filter, PathPiece.message?, hmessage]

end Leaves

namespace Exploration

variable {e : Exploration} {n : NodeId} {b target : BlockId}

theorem leaves_controlPiece? (e : Exploration) (n : NodeId) : Leaves (e.controlPiece? · n) := by
  unfold controlPiece?
  dsimp only
  split
  · exact .bind _ fun function => .bind _ fun body => .bind _ fun source => .bind _ fun block =>
      .bind _ fun message => .inr ⟨_, message, fun scheme => rfl⟩
  · exact .inl fun _ => rfl

theorem controlPiece?_of_kind {scheme : PathScheme}
    (h : ∀ b target, (e.graph.point n).kind ≠ .edge b target) : e.controlPiece? scheme n = none := by
  unfold controlPiece?
  dsimp only
  split
  · next hkind => exact absurd hkind (h _ _)
  · rfl

/-- Every end of a block that leads to another block says something, or has nothing to say. -/
theorem exists_jumpMessage? {t : Terminator} (h : t ≠ .exit) (target : BlockId) (line : Nat) :
    ∃ message, jumpMessage? t target line = some message := by
  unfold jumpMessage?
  cases t with
  | branch => exact ⟨_, rfl⟩
  | switch =>
    dsimp only
    split
    · exact ⟨_, rfl⟩
    · split
      · split <;> exact ⟨_, rfl⟩
      · exact ⟨_, rfl⟩
  | goto _ kind => cases kind <;> exact ⟨_, rfl⟩
  | exit => exact absurd rfl h

/-- An edge between blocks of a function is a jump. -/
theorem exists_controlPiece? {block next : Block} (hkind : (e.graph.point n).kind = .edge b target)
    (hblock : Frames.HasBlock e.program e.frames (e.graph.point n).frame b block)
    (hnext : Frames.HasBlock e.program e.frames (e.graph.point n).frame target next)
    (hexit : block.terminator ≠ .exit) : ∃ q, e.controlPiece? .extensive n = some q := by
  obtain ⟨body, ⟨x, hx, hbody⟩, hb⟩ := hblock
  obtain ⟨body', ⟨x', hx', hbody'⟩, ht⟩ := hnext
  cases hx.symm.trans hx'
  cases hbody.symm.trans hbody'
  have hfunction : e.program.functionIn? e.frames (e.graph.point n).frame =
      some (e.program.function x.function) := by
    rw [Program.functionIn?, hx, map_some]
  unfold controlPiece?
  simp only [hkind, hfunction, hbody, hb, ht, bind_eq_bind, bind_some]
  obtain ⟨message, hmessage⟩ := exists_jumpMessage? hexit target _
  rw [hmessage]
  exact ⟨_, if_neg (by simp)⟩

variable {scheme : PathScheme} {s : ToldStep} {c g : FrameId} {site : CallSite} {callee : FunctionId}

/-- A call is entered without a jump. -/
theorem Enters.controlPiece?_eq (h : e.Enters s c g site callee) :
    e.controlPiece? scheme s.succ = none := by
  obtain ⟨b, hb⟩ := h.entrance
  exact controlPiece?_of_kind fun _ _ => hb ▸ nofun

/-- A call ends without a jump. -/
theorem Returns.controlPiece?_eq (h : e.Returns s g c site) : e.controlPiece? scheme s.succ = none :=
  controlPiece?_of_kind fun _ _ => h.after ▸ nofun

end Exploration

/-! ### Calls -/

namespace Exploration

variable {e : Exploration} {n : NodeId} {s : ToldStep} {c g : FrameId} {site : CallSite}
  {callee : FunctionId}

/-- Where the call is made that is entered at a node. -/
def enteredAt? (e : Exploration) (n : NodeId) : Option Location :=
  match (e.graph.point n).kind with
  | .callEnter site _ => some (e.program.expr site.expr).location
  | _ => none

/-- The end of a call at a node, as it is told. -/
def exit? (e : Exploration) (n : NodeId) : Option EventPiece :=
  match (e.graph.point n).kind with
  | .callExit site => some (e.exitEvent n site)
  | _ => none

/-- Where the call is made that entered a frame. -/
def calledAt? (e : Exploration) (f : FrameId) : Option Location :=
  ((e.frames.frame? f).bind (·.site)).map fun site => (e.program.expr site.expr).location

theorem enteredAt?_of_kind (h : ∀ site callee, (e.graph.point n).kind ≠ .callEnter site callee) :
    e.enteredAt? n = none := by
  unfold enteredAt?
  split
  · next hkind => exact absurd hkind (h _ _)
  · rfl

theorem exit?_of_kind (h : ∀ site, (e.graph.point n).kind ≠ .callExit site) : e.exit? n = none := by
  unfold exit?
  split
  · next hkind => exact absurd hkind (h _)
  · rfl

theorem Enters.enteredAt?_eq (h : e.Enters s c g site callee) :
    e.enteredAt? s.pred = some (e.program.expr site.expr).location := by
  rw [enteredAt?, h.start]

theorem Returns.enteredAt?_eq (h : e.Returns s g c site) : e.enteredAt? s.pred = none :=
  enteredAt?_of_kind fun _ _ => h.stop ▸ nofun

theorem Enters.exit?_eq (h : e.Enters s c g site callee) : e.exit? s.pred = none :=
  exit?_of_kind fun _ => h.start ▸ nofun

theorem Returns.exit?_eq (h : e.Returns s g c site) : e.exit? s.pred = some (e.exitEvent s.pred site) := by
  rw [exit?, h.stop]

theorem Enters.calledAt?_eq (h : e.Enters s c g site callee) :
    e.calledAt? (e.graph.point s.succ).frame = some (e.program.expr site.expr).location := by
  obtain ⟨depth, hcalled⟩ := h.called
  rw [calledAt?, h.target, hcalled]
  rfl

end Exploration

/-! ### Reading a story -/

theorem filterMap_cons_toList (x : α → Option β) (a : α) (as : List α) :
    (a :: as).filterMap x = (x a).toList ++ as.filterMap x := by
  rw [filterMap_cons]
  cases x a <;> rfl

theorem PathPiece.readIn_piece (c : CallShape) (path ps : List PathPiece) :
    readIn d (c.piece path :: ps) = .call d c :: (c.enter.toList.map (.event d) ++
      c.within.toList.map (.event (d + 1)) ++ readIn (d + 1) path ++
        c.exit.toList.map (.event (d + 1)) ++ readIn d ps) := by
  rw [readIn, CallShape.piece, read, cons_append]

theorem PathPiece.readIn_controlPiece? (ps : List PathPiece) :
    readIn d ((e.controlPiece? scheme n).toList ++ ps) =
      (e.controlPiece? scheme n).toList.map .jump ++ readIn d ps := by
  cases hpiece : e.controlPiece? scheme n with
  | none => rfl
  | some q =>
    obtain ⟨edges, message, rfl⟩ := (e.leaves_controlPiece? n).eq_control hpiece
    rfl

theorem ToldStep.readIn_told (s : ToldStep) (ps : List PathPiece) : PathPiece.readIn d (s.told ++ ps) =
      s.events.reverse.map (Met.event d) ++ PathPiece.readIn d ps := by
  rw [readIn_append, ToldStep.told]
  congr 1
  induction s.events.reverse with
  | nil => rfl
  | cons x xs ih => rw [map_cons, PathPiece.readIn, PathPiece.read, ih, map_cons, singleton_append]

theorem ToldStep.ungroupIn_told (s : ToldStep) : PathPiece.ungroupIn s.told = s.told := by
  unfold told
  induction s.events.reverse with
  | nil => rfl
  | cons x xs ih => rw [map_cons, PathPiece.ungroupIn, PathPiece.ungroup, ih]; rfl

theorem PathPiece.ungroupIn_controlPiece? :
    ungroupIn (e.controlPiece? scheme n).toList = (e.controlPiece? scheme n).toList := by
  cases hpiece : e.controlPiece? scheme n with
  | none => rfl
  | some q =>
    obtain ⟨edges, message, rfl⟩ := (e.leaves_controlPiece? n).eq_control hpiece
    rfl

namespace Met

theorem filterMap_jump?_events (d : Nat) (xs : List EventPiece) :
    (xs.map (Met.event d)).filterMap jump? = [] :=
  filterMap_eq_nil_iff.2 fun m hm => by
    obtain ⟨x, -, rfl⟩ := mem_map.1 hm
    rfl

theorem filterMap_call?_events (d : Nat) (xs : List EventPiece) :
    (xs.map (Met.event d)).filterMap call? = [] :=
  filterMap_eq_nil_iff.2 fun m hm => by
    obtain ⟨x, -, rfl⟩ := mem_map.1 hm
    rfl

theorem filterMap_jump?_jumps (qs : List PathPiece) : (qs.map Met.jump).filterMap jump? = qs := by
  rw [filterMap_map]
  exact filterMap_some

theorem filterMap_call?_jumps (qs : List PathPiece) : (qs.map Met.jump).filterMap call? = [] :=
  filterMap_eq_nil_iff.2 fun m hm => by
    obtain ⟨x, -, rfl⟩ := mem_map.1 hm
    rfl

end Met

namespace Story

variable {e : Exploration} {scheme : PathScheme} {last : List PathPiece} {d : Nat} {f t : FrameId}
  {goal : Option FrameId} {story : Story} {p : Program} {o : Options}

/-- The calls of a story with the number of calls around them, outer ones before inner ones. -/
def calls (e : Exploration) (d : Nat) : Story → List (Nat × CallShape)
  | done => []
  | step _ rest => rest.calls e d
  | call site callee enter body exit rest =>
    (d, e.callShape site callee enter (some (e.exitEvent exit.pred site))) ::
      (body.calls e (d + 1) ++ rest.calls e d)
  | opened site callee enter body => (d, e.callShape site callee enter none) :: body.calls e (d + 1)

attribute [local simp] pieces steps calls openFrames

/-- The calls that are met when a story is read. -/
theorem filterMap_call?_pieces (hlast : ∀ d, (PathPiece.readIn d last).filterMap Met.call? = []) :
    (PathPiece.readIn d (story.pieces e scheme last)).filterMap Met.call? = story.calls e d := by
  induction story generalizing d last with
  | done => exact hlast d
  | step s rest ih =>
    rw [pieces, readIn_told, readIn_controlPiece?, filterMap_append,
      filterMap_append, Met.filterMap_call?_events, Met.filterMap_call?_jumps, ih hlast]
    rfl
  | call site callee enter body exit rest ihb ihr =>
    have hbody : (PathPiece.readIn (d + 1) (body.pieces e scheme [])).filterMap Met.call? =
        body.calls e (d + 1) := ihb fun _ => rfl
    rw [pieces, readIn_piece, filterMap_cons]
    simp only [Met.call?, filterMap_append, Met.filterMap_call?_events, readIn_told,
      hbody, ihr hlast, nil_append, append_nil]
    rfl
  | opened site callee enter body ih =>
    rw [pieces, readIn_piece, filterMap_cons]
    simp only [Met.call?, filterMap_append, Met.filterMap_call?_events, readIn_told,
      ih hlast, nil_append, append_nil, PathPiece.readIn]
    rfl

/-- What is told at the end of the path is met last, within the calls that are open there. -/
theorem exists_readIn_pieces (e : Exploration) (scheme : PathScheme) (last : List PathPiece) (d : Nat)
    (story : Story) : ∃ before, PathPiece.readIn d (story.pieces e scheme last) =
    before ++ PathPiece.readIn (d + (story.openFrames e).length) last := by
  induction story generalizing d with
  | done => exact ⟨[], rfl⟩
  | step s rest ih =>
    obtain ⟨before, hrest⟩ := ih d
    rw [pieces, readIn_told, readIn_controlPiece?, hrest, ← append_assoc, ← append_assoc]
    exact ⟨_, rfl⟩
  | call site callee enter body exit rest ihb ihr =>
    obtain ⟨before, hrest⟩ := ihr d
    rw [pieces, readIn_piece, readIn_told exit, hrest, ← append_assoc, ← append_assoc, ← cons_append]
    exact ⟨_, rfl⟩
  | opened site callee enter body ih =>
    obtain ⟨before, hbody⟩ := ih (d + 1)
    rw [pieces, readIn_piece, readIn_told, hbody, openFrames, length_cons,
      Nat.add_assoc, Nat.add_comm 1]
    refine ⟨.call d (e.callShape site callee enter none) ::
      ((e.callShape site callee enter none).enter.toList.map (.event d) ++
        (e.callShape site callee enter none).within.toList.map (.event (d + 1)) ++
          (enter.events.reverse.map (.event (d + 1)) ++ before)), ?_⟩
    simp only [Exploration.callShape, toList_none, map_nil, PathPiece.readIn,
      append_nil, cons_append, append_assoc]

/-- A story has no uses of defined names. -/
theorem ungroupIn_pieces : PathPiece.ungroupIn (story.pieces e scheme last) =
    story.pieces e scheme (PathPiece.ungroupIn last) := by
  have hcall (c : CallShape) (path ps : List PathPiece) : PathPiece.ungroupIn (c.piece path :: ps) =
      c.piece (PathPiece.ungroupIn path) :: PathPiece.ungroupIn ps := by
    rw [PathPiece.ungroupIn, CallShape.piece, PathPiece.ungroup]
    rfl
  induction story generalizing last with
  | done => rfl
  | step s rest ih =>
    rw [pieces, ungroupIn_append, s.ungroupIn_told, ungroupIn_append, ungroupIn_controlPiece?, ih]
    rfl
  | call site callee enter body exit rest ihb ihr =>
    rw [pieces, hcall, ungroupIn_append, enter.ungroupIn_told, ihb,
      ungroupIn_append, exit.ungroupIn_told, ihr]
    rfl
  | opened site callee enter body ih =>
    rw [pieces, hcall, ungroupIn_append, enter.ungroupIn_told, ih]
    rfl

/-- **The jumps** of a story are those of its steps. -/
theorem Tells.jumps_eq (h : story.Tells e f goal)
    (hlast : ∀ d, (PathPiece.readIn d last).filterMap Met.jump? = []) :
    (PathPiece.readIn d (story.pieces e scheme last)).filterMap Met.jump? =
      story.steps.filterMap fun s => e.controlPiece? scheme s.2 := by
  induction h generalizing d last with
  | finished | reached => exact hlast d
  | step _ _ _ _ _ ih =>
    rw [pieces, readIn_told, readIn_controlPiece?, filterMap_append,
      filterMap_append, Met.filterMap_jump?_events, Met.filterMap_jump?_jumps, ih hlast, steps,
      filterMap_cons_toList]
    rfl
  | @call c g _ site callee enter exit body rest henters _ hreturns _ ihb ihr =>
    have hbody : (PathPiece.readIn (d + 1) (body.pieces e scheme [])).filterMap Met.jump? =
        body.steps.filterMap fun s => e.controlPiece? scheme s.2 := ihb fun _ => rfl
    rw [pieces, readIn_piece, steps]
    simp only [filterMap_cons_toList, Met.jump?, filterMap_append, Met.filterMap_jump?_events,
      readIn_told, pair_snd, henters.controlPiece?_eq, hreturns.controlPiece?_eq,
      hbody, ihr hlast, toList_none, nil_append, append_nil]
  | opened henters _ ih =>
    rw [pieces, readIn_piece, steps]
    simp only [filterMap_cons_toList, Met.jump?, filterMap_append, Met.filterMap_jump?_events,
      readIn_told, pair_snd, henters.controlPiece?_eq, ih hlast,
      toList_none, nil_append, append_nil, PathPiece.readIn]

/-! ### Calls and frames -/

/-- The calls of a story are told with their start. -/
theorem isSome_of_mem_calls {c : Nat × CallShape} (h : c ∈ story.calls e d) :
    c.2.enter.isSome = true ∧ c.2.within.isSome = true := by
  induction story generalizing d with
  | done => cases h
  | step s rest ih => exact ih h
  | call site callee enter body exit rest ihb ihr =>
    rcases mem_cons.1 h with rfl | h
    · exact ⟨rfl, rfl⟩
    · exact (mem_append.1 h).elim ihb ihr
  | opened site callee enter body ih =>
    rcases mem_cons.1 h with rfl | h
    · exact ⟨rfl, rfl⟩
    · exact ih h

/-- There is one call for each that the steps enter, in the same order. -/
theorem Tells.sites_eq (h : story.Tells e f goal) :
    (story.calls e d).map (·.2.site) = story.steps.filterMap fun s => e.enteredAt? s.1 := by
  induction h generalizing d with
  | finished | reached => rfl
  | step _ _ henter _ _ ih =>
    rw [calls, ih, steps, filterMap_cons_toList, pair_fst, Exploration.enteredAt?_of_kind henter]
    rfl
  | call henters _ hreturns _ ihb ihr =>
    rw [calls, steps, map_cons, map_append, ihb, ihr, filterMap_cons_toList,
      pair_fst, henters.enteredAt?_eq, filterMap_append, filterMap_cons_toList,
      pair_fst, hreturns.enteredAt?_eq]
    rfl
  | opened henters _ ih =>
    rw [calls, steps, map_cons, ih, filterMap_cons_toList, pair_fst, henters.enteredAt?_eq]
    rfl

/-- There is one end of a call for each at which the steps return. -/
theorem Tells.exits_perm (h : story.Tells e f goal) :
    ((story.calls e d).filterMap (·.2.exit)).Perm (story.steps.filterMap fun s => e.exit? s.1) := by
  induction h generalizing d with
  | finished | reached => exact .refl _
  | step _ _ _ hexit _ ih =>
    rw [calls, steps, filterMap_cons_toList, pair_fst, Exploration.exit?_of_kind hexit]
    exact ih
  | call henters _ hreturns _ ihb ihr =>
    rw [calls, steps, filterMap_cons_toList, filterMap_append, filterMap_cons_toList,
      pair_fst, henters.exit?_eq, filterMap_append, filterMap_cons_toList,
      pair_fst, hreturns.exit?_eq]
    exact ((ihb.append ihr).cons _).trans perm_middle.symm
  | opened henters _ ih =>
    rw [calls, steps, filterMap_cons_toList, filterMap_cons_toList, pair_fst, henters.exit?_eq]
    exact ih

/-- A called function that is over has no open calls. -/
theorem Tells.openFrames_eq_nil (h : story.Tells e f none) : story.openFrames e = [] := by
  generalize hgoal : (none : Option FrameId) = goal at h
  induction h with
  | finished => rfl
  | reached => cases hgoal
  | step _ _ _ _ _ ih => exact ih hgoal
  | call _ _ _ _ _ ihr => exact ihr hgoal
  | opened => cases hgoal

/-- The calls without an end are those that entered the open frames, each inside the one before. -/
theorem Tells.opens_eq (h : story.Tells e f goal) :
    ((story.calls e d).filter (·.2.exit.isNone)).map (fun c => (some c.2.site, c.1)) =
      ((story.openFrames e).map e.calledAt?).zipIdx d := by
  induction h generalizing d with
  | finished | reached => rfl
  | step _ _ _ _ _ ih => exact ih
  | call _ hbody _ _ ihb ihr =>
    rw [calls, filter_cons_of_neg (by simp [Exploration.callShape]), filter_append,
      map_append, ihb, ihr, hbody.openFrames_eq_nil]
    rfl
  | opened henters _ ih =>
    rw [calls, filter_cons_of_pos rfl, map_cons, ih, openFrames, map_cons,
      zipIdx_cons, henters.calledAt?_eq]
    rfl

/-- **The open calls** are those that wait for the end of the path, which ends as many frames below its
start. -/
theorem Tells.stands (h : story.Tells e f (some t)) (hs : e.frames.Stacked p o) :
    Frames.ancestors e.frames t = (story.openFrames e).reverse ++ Frames.ancestors e.frames f ∧
      e.frames.depth t = e.frames.depth f + (story.openFrames e).length := by
  generalize hgoal : some t = goal at h
  induction h with
  | finished => cases hgoal
  | reached =>
    cases hgoal
    exact ⟨rfl, rfl⟩
  | step _ _ _ _ _ ih => exact ih hgoal
  | call _ _ _ _ _ ihr => exact ihr hgoal
  | opened henters _ ih =>
    obtain ⟨depth, hcalled⟩ := henters.called
    obtain ⟨hancestors, hdepth⟩ := ih hgoal
    refine ⟨?_, ?_⟩
    · rw [hancestors, hs.ancestors_called hcalled rfl, openFrames, henters.target, reverse_cons,
        append_assoc]
      rfl
    · rw [hdepth, hs.depth_called hcalled, openFrames, length_cons]
      omega

end Story

/-- Nothing waits for the first frame. -/
theorem Frames.Stacked.top_eq (hs : fs.Stacked p o) :
    fs.depth topFrame = 0 ∧ ancestors fs topFrame = [topFrame] := by
  cases hx : fs.frame? topFrame with
  | none => exact ⟨by rw [depth, hx]; rfl, ancestors_eq_singleton (by rw [caller?, hx]; rfl)⟩
  | some x =>
    cases hs _ x hx with
    | top => exact ⟨depth_eq hx, ancestors_top hx rfl⟩
    | called hlt => exact absurd hlt (Nat.not_lt_zero _)

/-! ### Paths -/

theorem map_fst_zip_tail (path : List NodeId) : (path.zip path.tail).map (·.1) = path.dropLast := by
  induction path with
  | nil => rfl
  | cons n way ih =>
    cases way with
    | nil => rfl
    | cons m way => exact congrArg (n :: ·) ih

/-- Where something is found exactly at the elements that satisfy a test, it is found at each of them. -/
theorem map_some_filterMap {x : α → Option β} {test : α → Bool} {as : List α}
    (h : ∀ a, (x a).isSome = test a) : (as.filterMap x).map some = (as.filter test).map x := by
  induction as with
  | nil => rfl
  | cons a as ih =>
    have ha := h a
    cases hx : x a with
    | none =>
      rw [hx] at ha
      rw [filterMap_cons_none hx, filter_cons_of_neg (by rw [← ha]; nofun), ih]
    | some b =>
      rw [hx] at ha
      rw [filterMap_cons_some hx, filter_cons_of_pos ha.symm, map_cons, map_cons, ih, hx]

/-- A block is left for one of those to which it leads. -/
theorem Edge.exists_block {x y : PathNode} {b target : BlockId} (h : Edge p o fs x y)
    (hkind : y.point.kind = .edge b target) :
    ∃ block, Frames.HasBlock p fs y.point.frame b block ∧ target ∈ block.terminator.successors := by
  have hasked : ∀ {kind : PointKind}, kind.Asked → kind ≠ .edge b target := fun hasked heq => by
    rw [heq] at hasked
    exact hasked
  cases h with
  | tell hlooks => exact absurd hkind (hasked hlooks.asked.1)
  | pause _ hheads => exact absurd hkind (hasked hheads.asked.1)
  | leave _ hblock htarget =>
    cases hkind
    exact ⟨_, hblock, htarget⟩
  | _ => cases hkind

namespace Exploration

variable {p : Program} {o : Options} {f : FunctionId} {e : Exploration} {n : NodeId}

/-- Does a path leave a block for another one at the node? -/
def isEdge (e : Exploration) (n : NodeId) : Bool :=
  match (e.graph.point n).kind with
  | .edge .. => true
  | _ => false

/-- There is a jump at every edge between blocks, and nowhere else. -/
theorem Records.isSome_controlPiece? (h : e.Records p o (root o p f)) (hp : p.Closed) (n : NodeId) :
    (e.controlPiece? .extensive n).isSome = e.isEdge n := by
  unfold isEdge
  split
  · next b target hkind =>
    suffices hsome : ∃ q, e.controlPiece? .extensive n = some q by
      obtain ⟨q, hq⟩ := hsome
      rw [hq]
      rfl
    cases hnode : e.graph.node? n with
    | none =>
      rw [PathGraph.point, hnode] at hkind
      cases hkind
    | some y =>
      have hpoint := point_eq hnode
      have hne : n ≠ ⟨0⟩ := fun heq => by
        cases h.tracks.root.symm.trans (heq ▸ hnode)
        rw [hpoint] at hkind
        cases hkind
      obtain ⟨m, hm⟩ := h.tracks.exists_pred (lt_size hnode) hne
      obtain ⟨x, hx⟩ := exists_node? (h.tracks.linked.exists_nodes hm).1
      obtain ⟨block, hblock, htarget⟩ := (h.tracks.step hm hx hnode).edge.exists_block (hpoint ▸ hkind)
      obtain ⟨body, hruns, hb⟩ := id hblock
      obtain ⟨z, hz, hbody⟩ := id hruns
      obtain ⟨next, hnext⟩ := (hp _ body hbody).2 b block hb target htarget
      rw [← hpoint, ← h.program] at hblock hruns
      exact exists_controlPiece? hkind hblock ⟨body, hruns, hnext⟩ fun heq => by
        rw [heq] at htarget
        cases htarget
  · next hkind =>
    rw [controlPiece?_of_kind hkind]
    rfl

end Exploration

/-! ### Diagnostics -/

/-- What is told at the end of a path to the defect. -/
def Finding.event (x : Finding) : EventPiece := ⟨x.location, x.description, x.spans⟩

namespace Exploration

variable {u : SourceUnit} {file : String} {p : Program} {o : Options} {f : FunctionId}
  {e : Exploration} {scheme : PathScheme} {r : BugReport} {path : List NodeId} {story : Story}

/-- The diagnostics of a report, of either scheme, tell the path to its node. -/
structure Faithful (e : Exploration) (r : BugReport) (path : List NodeId) : Prop where
  /-- The pieces are the path with its calls nested. A call that is over was entered and left in one frame
  of its own, and the others wait for the frame of the report. -/
  story (scheme : PathScheme) : ∃ story : Story,
    story.Tells e topFrame (some (e.graph.point r.node).frame) ∧ story.steps = path.zip path.tail ∧
      PathPiece.ungroupIn (e.diagnostic scheme r (some path)).path =
        story.pieces e scheme [.event r.finding.event]
  /-- All calls are told with their start. -/
  start (scheme : PathScheme) : ∀ c ∈ (e.diagnostic scheme r (some path)).calls,
    c.2.enter.isSome = true ∧ c.2.within.isSome = true
  /-- There is one call for each that the path enters before its end. -/
  calls (scheme : PathScheme) : (e.diagnostic scheme r (some path)).calls.map (·.2.site) =
    path.dropLast.filterMap e.enteredAt?
  /-- The ends of calls are those that the path comes to before its end. -/
  exits (scheme : PathScheme) :
    ((e.diagnostic scheme r (some path)).calls.filterMap (·.2.exit)).Perm (path.dropLast.filterMap e.exit?)
  /-- The calls without an end are those that wait for the report, each inside the one before. -/
  waiting (scheme : PathScheme) : ((e.diagnostic scheme r (some path)).calls.filter
      (·.2.exit.isNone)).map (fun c => (some c.2.site, c.1)) =
    ((Frames.ancestors e.frames (e.graph.point r.node).frame).reverse.tail.map e.calledAt?).zipIdx
  /-- There are as many of them as the frame of the report is deep. -/
  depth (scheme : PathScheme) : ((e.diagnostic scheme r (some path)).calls.filter
    (·.2.exit.isNone)).length = e.frames.depth (e.graph.point r.node).frame
  /-- There is one jump for each edge between blocks. -/
  jumps : (e.diagnostic .extensive r (some path)).jumps.map some =
    (path.filter e.isEdge).map (e.controlPiece? .extensive)
  /-- Those that say something are told in either scheme. -/
  minimal : (e.diagnostic .minimal r (some path)).jumps =
    (e.diagnostic .extensive r (some path)).jumps.filter (·.message?.isSome)
  /-- The report itself comes last, inside the calls that wait for it. -/
  last (scheme : PathScheme) : (e.diagnostic scheme r (some path)).events.getLast? =
    some (e.frames.depth (e.graph.point r.node).frame, r.finding.event)

/-- The path to a report is told as a story of it. -/
structure Recounts (e : Exploration) (scheme : PathScheme) (r : BugReport) (path : List NodeId)
    (story : Story) : Prop where
  tells : story.Tells e topFrame (some (e.graph.point r.node).frame)
  steps : story.steps = path.zip path.tail
  pieces : e.tell scheme r.finding path = story.pieces e scheme [.event r.finding.event]

namespace Recounts

section

variable (h : e.Recounts scheme r path story)
include h

/-- Gathering pieces at uses of defined names changes nothing of what is read. -/
theorem reading_eq : (e.diagnostic scheme r (some path)).reading =
      PathPiece.readIn 0 (story.pieces e scheme [.event r.finding.event]) := by
  show PathPiece.readIn 0 (groupExpansions e.program.expansions _) = _
  rw [← readIn_ungroupIn, ungroupIn_groupExpansions, readIn_ungroupIn, h.pieces]

theorem ungroupIn_eq : PathPiece.ungroupIn (e.diagnostic scheme r (some path)).path =
      story.pieces e scheme [.event r.finding.event] := by
  show PathPiece.ungroupIn (groupExpansions e.program.expansions _) = _
  rw [ungroupIn_groupExpansions, h.pieces, Story.ungroupIn_pieces]
  rfl

theorem calls_eq : (e.diagnostic scheme r (some path)).calls = story.calls e 0 := by
  rw [Diagnostic.calls, h.reading_eq, Story.filterMap_call?_pieces fun _ => rfl]

/-- The jumps of a diagnostic are those of the nodes after the first one. -/
theorem jumps_eq :
    (e.diagnostic scheme r (some path)).jumps = path.tail.filterMap (e.controlPiece? scheme) := by
  have hsnd : (path.zip path.tail).map (·.2) = path.tail := map_snd_zip (by rw [length_tail]; omega)
  rw [Diagnostic.jumps, h.reading_eq, h.tells.jumps_eq fun _ => rfl, h.steps]
  conv_rhs => rw [← hsnd, filterMap_map]
  rfl

/-- A list that goes over the first nodes of the steps goes over all nodes but the last one. -/
theorem filterMap_fst {α : Type} {x : NodeId → Option α} :
    (story.steps.filterMap fun s => x s.1) = path.dropLast.filterMap x := by
  rw [h.steps, ← map_fst_zip_tail, filterMap_map]
  rfl

/-- The open calls are those that wait for the report. -/
theorem openFrames_eq (hs : e.frames.Stacked p o) :
    (Frames.ancestors e.frames (e.graph.point r.node).frame).reverse.tail = story.openFrames e := by
  rw [(h.tells.stands hs).1, hs.top_eq.2, reverse_append, reverse_reverse]
  rfl

/-- As many calls are open as the frame of the report is deep. -/
theorem depth_eq (hs : e.frames.Stacked p o) :
    e.frames.depth (e.graph.point r.node).frame = (story.openFrames e).length := by
  rw [(h.tells.stands hs).2, hs.top_eq.1, Nat.zero_add]

/-- The calls without an end are those that wait for the report. -/
theorem waiting_eq : ((e.diagnostic scheme r (some path)).calls.filter (·.2.exit.isNone)).map
      (fun c => (some c.2.site, c.1)) = ((story.openFrames e).map e.calledAt?).zipIdx := by
  rw [h.calls_eq, h.tells.opens_eq]

theorem events_eq : ∃ before, (e.diagnostic scheme r (some path)).events =
      before ++ [((story.openFrames e).length, r.finding.event)] := by
  obtain ⟨before, hread⟩ := story.exists_readIn_pieces e scheme [.event r.finding.event] 0
  refine ⟨before.filterMap Met.event?, ?_⟩
  rw [Diagnostic.events_eq, h.reading_eq, hread, filterMap_append, Nat.zero_add]
  rfl

end

end Recounts

/-- No jump leads to the first node. -/
theorem Records.filterMap_tail (h : e.Records p o (root o p f)) (hhead : path.head? = some ⟨0⟩) :
    path.tail.filterMap (e.controlPiece? scheme) = path.filterMap (e.controlPiece? scheme) := by
  cases path with
  | nil => rfl
  | cons m way =>
    cases hhead
    refine (filterMap_cons_none (controlPiece?_of_kind fun _ _ => ?_)).symm
    rw [point_eq h.tracks.root]
    nofun

/-- **The diagnostics** of a report tell the path to it. -/
theorem Records.faithful (h : e.Records p o (root o p f)) (hp : p.Closed)
    (hstory : ∀ scheme, ∃ story, e.Recounts scheme r path story) (hhead : path.head? = some ⟨0⟩) :
    e.Faithful r path := by
  have hjumps : ∀ scheme, (e.diagnostic scheme r (some path)).jumps =
      path.filterMap (e.controlPiece? scheme) := fun scheme => by
    obtain ⟨story, hrecounts⟩ := hstory scheme
    rw [hrecounts.jumps_eq, h.filterMap_tail hhead]
  refine ⟨fun scheme => ?_, fun scheme c hc => ?_, fun scheme => ?_, fun scheme => ?_,
    fun scheme => ?_, fun scheme => ?_, ?_, ?_, fun scheme => ?_⟩
  case refine_7 => rw [hjumps, map_some_filterMap (h.isSome_controlPiece? hp)]
  case refine_8 =>
    rw [hjumps, hjumps, filter_filterMap]
    exact filterMap_congr fun n _ => (e.leaves_controlPiece? n).minimal_eq
  all_goals obtain ⟨story, hrecounts⟩ := hstory scheme
  · exact ⟨story, hrecounts.tells, hrecounts.steps, hrecounts.ungroupIn_eq⟩
  · exact Story.isSome_of_mem_calls (hrecounts.calls_eq ▸ hc)
  · rw [hrecounts.calls_eq, hrecounts.tells.sites_eq, hrecounts.filterMap_fst]
  · rw [hrecounts.calls_eq, ← hrecounts.filterMap_fst]
    exact hrecounts.tells.exits_perm
  · rw [hrecounts.waiting_eq, hrecounts.openFrames_eq h.stacked]
  · have hlength := congrArg List.length hrecounts.waiting_eq
    rw [length_map, length_zipIdx, length_map] at hlength
    rw [hlength, hrecounts.depth_eq h.stacked]
  · obtain ⟨before, hevents⟩ := hrecounts.events_eq
    rw [hevents, getLast?_concat, hrecounts.depth_eq h.stacked]

/-- **Every diagnostic tells the path to its report**: a shortest path to the node of each report is found,
and the diagnostics along it tell it, whatever is found at whatever node. -/
theorem diagnostic_faithful (hu : Program.ofUnit u file = .ok p) (h : Reached o p f e) :
    (∀ k ∈ e.reports, ∀ r ∈ k.reports, r.node ∈ e.graph.ids) ∧
      ∀ r : BugReport, r.node ∈ e.graph.ids →
        ∃ path, e.graph.shortestPath? r.node = some path ∧ e.Faithful r path := by
  have hrecords := h.records
  obtain ⟨globals, hp⟩ := Program.ofUnit_built hu
  refine ⟨fun k hk r hr => ?_, fun r hr => ?_⟩
  · obtain ⟨x, hx⟩ := hrecords.reported hk hr
    exact mem_ids.2 (lt_size hx)
  · obtain ⟨path, hpath, hhead, hlast, hwalks⟩ := hrecords.exists_path rfl (mem_ids.1 hr)
    refine ⟨path, hpath, hrecords.faithful hp.closed (fun scheme => ?_) hhead⟩
    obtain ⟨story, htells, hsteps, htell⟩ :=
      hrecords.exists_story scheme r.finding rfl hhead hlast hwalks
    exact ⟨story, htells, hsteps, htell⟩

/-- The shortest path to a division by zero, which enters a call and leaves it again, is told with this
call. -/
theorem diagnostic_faithful_dividing : ∃ p o e k r path, Program.ofUnit dividingUnit "a.c" = .ok p ∧
    o.checkers = Checker.all ∧ Reached o p ⟨0⟩ e ∧ k ∈ e.reports ∧ r ∈ k.reports ∧ r.node ∈ e.graph.ids ∧
      e.graph.shortestPath? r.node = some path ∧ e.Faithful r path ∧ ∀ scheme,
        (e.diagnostic scheme r (some path)).calls.map (·.2.site) = [⟨1, 1⟩] ∧
        ((e.diagnostic scheme r (some path)).calls.filter (·.2.exit.isNone)).length = 0 := by
  have hcheck : (Program.ofUnit dividingUnit "a.c").toOption.any (fun p =>
      (explore { checkers := Checker.all } p ⟨0⟩).toOption.any fun e => decide
        (e.graph.IsRow ∧ ∃ k ∈ e.reports, ∃ r ∈ k.reports, e.frames.depth (e.graph.point r.node).frame = 0 ∧
          ((range (r.node.index + 1)).map NodeId.mk).dropLast.filterMap e.enteredAt? = [⟨1, 1⟩])) = true := by
    decide +kernel
  obtain ⟨p, hu, hcheck⟩ := exists_ok_of_any hcheck
  obtain ⟨e, hrun, hcheck⟩ := exists_ok_of_any hcheck
  obtain ⟨hrow, k, hk, r, hr, hdepth, hentered⟩ := of_decide_eq_true hcheck
  have hreached : Reached { checkers := Checker.all } p ⟨0⟩ e := .ended hrun
  obtain ⟨hids, hfaithful⟩ := diagnostic_faithful hu hreached
  have hnode := hids k hk r hr
  obtain ⟨path, hpath, hfaithful⟩ := hfaithful r hnode
  cases hpath.symm.trans (hreached.records.tracks.linked.shortestPath?_of_isRow hrow (mem_ids.1 hnode))
  exact ⟨p, _, e, k, r, _, hu, rfl, hreached, hk, hr, hnode, hpath, hfaithful, fun scheme =>
    ⟨(hfaithful.calls scheme).trans hentered, (hfaithful.depth scheme).trans hdepth⟩⟩

end Exploration

end PathScout

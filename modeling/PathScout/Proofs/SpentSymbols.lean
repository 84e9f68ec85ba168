import PathScout.Proofs.SourceSteps
import PathScout.Proofs.Termination

/-!
# Conjured symbols that are spent

A symbol is conjured for an expression in a frame at a count: the number of times that the path
entered the block of the expression. A block that is entered again is entered for the next time, and
within a block each expression is evaluated once, so that no symbol is conjured a second time on a
path. There is one exception: at the last entrance of a block a loop may be forgotten, and the
symbols that take the place of what it may change are conjured for the expression that stands for the
loop, which the block is yet to evaluate.

* `Spent`: the symbols that may have been conjured on the way to a point.
* `Follows.spent_subset`: what one step of a path adds to them.
* `Exploration.Tracks`: no other symbols occur in pending nodes. This holds during the whole search.
-/

namespace PathScout

open List Exploring

/-! ### The stack of a path -/

/-- The frame waits at the site for another frame, directly or not. -/
inductive Frames.WaitsFor (fs : Frames) : FrameId → CallSite → FrameId → Prop where
  | caller {g f : FrameId} {callee : FunctionId} {site : CallSite} {depth : Nat} :
    fs.frame? g = some ⟨some f, callee, some site, depth⟩ → WaitsFor fs f site g
  | above {g h f : FrameId} {callee : FunctionId} {site site' : CallSite} {depth : Nat} :
    fs.frame? g = some ⟨some h, callee, some site', depth⟩ → WaitsFor fs f site h →
    WaitsFor fs f site g

/-- The path is at a step of a block in a frame: in the current one, or in one that waits. -/
inductive OnStack (fs : Frames) (point : Point) : FrameId → BlockId → Nat → Prop where
  | before {f : FrameId} {b : BlockId} {i : Nat} : point.Before f b i → OnStack fs point f b i
  | calling {f : FrameId} {site : CallSite} {callee : FunctionId} {tag : Option Checker} :
    point = ⟨.callEnter site callee, f, tag⟩ → OnStack fs point f site.block site.index
  | waiting {f : FrameId} {site : CallSite} : fs.WaitsFor f site point.frame →
    OnStack fs point f site.block site.index

/-- The expression stands for a loop that is forgotten where the block is entered at the count. -/
def Forgets (o : Options) (block : Block) (x : ExprId) (count : Nat) : Prop :=
  Widens o block count ∧ loopExpr? block = some x

/-- The symbols that may have been conjured on the way to a point: for expressions of blocks at
counts that were reached. In the blocks that the path is in, these are the expressions of earlier
steps at the last count, and the one that stands for a loop that was forgotten; but for it only symbols
that took the place of something were conjured. -/
def Spent (p : Program) (o : Options) (fs : Frames) (point : Point) (V : Visits) : Set Conjuring :=
  {k | ∃ b i block root, Frames.HasBlock p fs k.frame b block ∧
    block.elements[i]? = some (.expr k.expr root) ∧ k.count ≤ V.count k.frame b ∧
    (k.count = V.count k.frame b → ∀ j, OnStack fs point k.frame b j →
      i < j ∨ Forgets o block k.expr k.count ∧ k.tag.isSome)}

section

variable {p : Program} {o : Options} {main : FunctionId} {fs fs' : Frames} {point point' : Point}
  {V V' : Visits} {f g : FrameId} {b : BlockId} {block : Block} {x : ExprId} {site : CallSite} {i : Nat}
  {k : Conjuring} {globals : Names}

namespace Frames

/-- A frame that is there waits for no other frames when frames are added. -/
theorem WaitsFor.of_extends (h : fs'.WaitsFor f site g) (hfs : fs.Extends fs')
    (hsound : fs.Sound p o main) (hg : ∃ y, fs.frame? g = some y) : fs.WaitsFor f site g := by
  induction h with
  | caller hx =>
    obtain ⟨y, hy⟩ := hg
    cases (hfs _ _ hy).symm.trans hx
    exact .caller hy
  | above hx _ ih =>
    obtain ⟨y, hy⟩ := hg
    cases (hfs _ _ hy).symm.trans hx
    cases hsound _ _ hy with
    | called hcaller _ _ _ => exact .above hy (ih ⟨_, hcaller⟩)

theorem WaitsFor.depth_lt (h : fs.WaitsFor f site g) (hsound : fs.Sound p o main) :
    depth fs f < depth fs g := by
  have hcaller : ∀ {g f : FrameId} {callee : FunctionId} {site : CallSite} {d : Nat},
      fs.frame? g = some ⟨some f, callee, some site, d⟩ → depth fs f < depth fs g := fun hx => by
    cases hsound _ _ hx with
    | called hy _ _ _ =>
      rw [depth_eq hx, depth_eq hy]
      exact Nat.lt_succ_self _
  induction h with
  | caller hx => exact hcaller hx
  | above hx _ ih => exact ih.trans (hcaller hx)

/-- No frame waits for itself. -/
theorem not_waitsFor_self (hsound : fs.Sound p o main) : ¬ fs.WaitsFor f site f := fun h =>
  absurd (h.depth_lt hsound) (lt_irrefl _)

end Frames

theorem OnStack.of_extends (h : OnStack fs' point f b i) (hfs : fs.Extends fs')
    (hsound : fs.Sound p o main) (hpoint : ∃ y, fs.frame? point.frame = some y) :
    OnStack fs point f b i := by
  cases h with
  | before h => exact .before h
  | calling h => exact .calling h
  | waiting h => exact .waiting (h.of_extends hfs hsound hpoint)

theorem Spent.mono (hfs : fs.Extends fs') (hsound : fs.Sound p o main)
    (hpoint : ∃ y, fs.frame? point.frame = some y) :
    Spent p o fs point V ⊆ Spent p o fs' point V := by
  rintro k ⟨b, i, block, root, hb, hel, hle, hlast⟩
  exact ⟨b, i, block, root, hb.mono hfs, hel, hle, fun hcount j hj =>
    hlast hcount j (hj.of_extends hfs hsound hpoint)⟩

/-- A symbol is conjured for one expression only, so it is not spent where the path is yet to
evaluate the expression; but a loop may have been forgotten for it. -/
theorem Spent.forgets {root : Bool} (h : k ∈ Spent p o fs point V) (honce : p.EvaluatesOnce)
    (hb : Frames.HasBlock p fs k.frame b block) (hel : block.elements[i]? = some (.expr k.expr root))
    (hi : OnStack fs point k.frame b i) (hcount : k.count = V.count k.frame b) :
    Forgets o block k.expr k.count ∧ k.tag.isSome := by
  obtain ⟨b', i', block', root', hb', hel', hle, hlast⟩ := h
  have hb0 := hb
  have hb0' := hb'
  obtain ⟨body, ⟨y, hy, hbody⟩, hblock⟩ := hb
  obtain ⟨body', ⟨y', hy', hbody'⟩, hblock'⟩ := hb'
  obtain ⟨-, rfl, rfl⟩ := honce _ _ body body' b b' block block' i i' k.expr root root' hbody hbody'
    hblock hblock' hel hel'
  cases hb0.unique hb0'
  exact (hlast hcount i hi).resolve_left (lt_irrefl i)

/-! ### Steps of a path -/

/-- The expression that stands for a loop is one of its block. -/
theorem Program.Built.exists_of_loopExpr? (hp : p.Built globals) (hb : Frames.HasBlock p fs f b block)
    (h : loopExpr? block = some x) :
    ∃ (i : Nat) (root : Bool), block.elements[i]? = some (.expr x root) := by
  obtain ⟨body, ⟨y, -, hbody⟩, hblock⟩ := hb
  obtain ⟨d, hd⟩ := hp.body _ body hbody
  rw [hd.graph_eq] at hblock
  obtain ⟨source, hsource, rfl⟩ := Draft.exists_of_block?_graph hblock
  have hoperand : ∀ x ∈ source.close.terminator.operands,
      ∃ root, Element.expr x root ∈ source.close.elements := fun x hx => by
    rcases Draft.close_terminator source with ht | ⟨-, ht⟩
    · exact ((hd.sound.block b source hsource).operand _ ht x hx).2.2
    · rw [ht] at hx
      cases hx
  have hmem : ∃ root, Element.expr x root ∈ source.close.elements := by
    unfold loopExpr? at h
    split at h
    iterate 2
      · next hterm =>
        cases h
        exact hoperand x (by rw [hterm]; exact mem_cons_self)
    · obtain ⟨el, hel, hsome⟩ := exists_of_findSome?_eq_some h
      split at hsome
      · next a root =>
        cases hsome
        exact ⟨root, Array.mem_toList_iff.1 hel⟩
      · cases hsome
  obtain ⟨root, hel⟩ := hmem
  obtain ⟨i, hi⟩ := Array.getElem?_of_mem hel
  exact ⟨i, root, hi⟩

/-- Where a block is entered, the frames that wait are those on the stack before. -/
theorem Leads.onStack (h : Leads p fs point f b) (hw : fs.WaitsFor g site f) :
    OnStack fs point g site.block site.index := by
  cases h with
  | entry _ | edge => exact .waiting hw
  | call hx _ =>
    cases hw with
    | caller hy =>
      cases hx.symm.trans hy
      exact .calling rfl
    | above hy hw =>
      cases hx.symm.trans hy
      exact .waiting hw

/-- What is spent where a block is entered. -/
theorem Spent.enter (hleads : Leads p fs point f b) :
    Spent p o fs point V ⊆ Spent p o fs ⟨.entrance b, f, none⟩ (V.enter f b) := by
  rintro k ⟨a, i, block, root, hb, hel, hle, hlast⟩
  refine ⟨a, i, block, root, hb, hel, hle.trans (Visits.count_le_enter V f k.frame b a), ?_⟩
  intro hcount j hj
  by_cases hsame : k.frame = f ∧ a = b
  · obtain ⟨hf, rfl⟩ := hsame
    rw [hf, Visits.count_enter_self] at hcount
    rw [hf] at hle
    omega
  · rw [Visits.count_enter_of_ne hsame] at hcount
    cases hj with
    | before hbefore =>
      cases hbefore
      exact absurd ⟨rfl, rfl⟩ hsame
    | calling h => cases h
    | waiting hw => exact hlast hcount _ (hleads.onStack hw)

/-- What is spent does not change where the path goes on and no frame is left or entered. -/
theorem Spent.of_onStack (h : ∀ g a j, OnStack fs point' g a j → ∃ i ≤ j, OnStack fs point g a i) :
    Spent p o fs point V ⊆ Spent p o fs point' V := by
  rintro k ⟨a, i, block, root, hb, hel, hle, hlast⟩
  refine ⟨a, i, block, root, hb, hel, hle, fun hcount j hj => ?_⟩
  obtain ⟨j', hle', hj'⟩ := h _ _ _ hj
  exact (hlast hcount j' hj').imp_left fun hlt => hlt.trans_le hle'

/-- What is conjured on the way to a point is spent there. -/
theorem Conjures.spent (hp : p.Built globals) (hsound : fs.Sound p o main)
    (h : Conjures p o fs point V point' V' k) : k ∈ Spent p o fs point' V' := by
  cases h with
  | @loop f b block x _ hb hw hx hk =>
    obtain ⟨⟨rfl, rfl, hcount⟩, htag⟩ := hk
    obtain ⟨i, root, hel⟩ := hp.exists_of_loopExpr? hb hx
    refine ⟨b, i, block, root, hb, hel, ?_, fun _ _ _ => .inr ⟨⟨hcount ▸ hw, hx⟩, htag⟩⟩
    rw [Visits.count_enter_self, hcount]
  | @step f b i block x root _ _ hbefore hb hel hk =>
    obtain ⟨rfl, rfl, hcount⟩ := hk
    refine ⟨b, i, block, root, hb, hel, hcount.le, fun _ j hj => .inl ?_⟩
    cases hj with
    | before hj =>
      cases hj
      exact Nat.lt_succ_self i
    | calling hj => cases hj
    | waiting hw => exact absurd hw (Frames.not_waitsFor_self hsound)

/-- **What one step of a path adds to what is spent.** -/
theorem Follows.spent_subset (hp : p.Built globals) (hsound : fs.Sound p o main)
    (h : Follows p o fs point V point' V') :
    Spent p o fs point V ∪ {k | Conjures p o fs point V point' V' k} ⊆ Spent p o fs point' V' := by
  refine Set.union_subset ?_ fun k hk => Conjures.spent hp hsound hk
  cases h with
  | enter hleads _ _ => exact Spent.enter hleads
  | step hbefore _ _ =>
    refine Spent.of_onStack fun g a j hj => ?_
    cases hj with
    | before hj =>
      cases hj
      exact ⟨_, Nat.le_succ _, .before hbefore⟩
    | calling hj => cases hj
    | waiting hw => exact ⟨_, le_rfl, .waiting (hbefore.frame_eq ▸ hw)⟩
  | call hbefore _ _ _ _ =>
    refine Spent.of_onStack fun g a j hj => ?_
    cases hj with
    | before hj => cases hj
    | calling hj =>
      cases hj
      exact ⟨_, le_rfl, .before hbefore⟩
    | waiting hw => exact ⟨_, le_rfl, .waiting (hbefore.frame_eq ▸ hw)⟩
  | leave hbefore _ _ _ | finish hbefore _ _ _ =>
    refine Spent.of_onStack fun g a j hj => ?_
    cases hj with
    | before hj => cases hj
    | calling hj => cases hj
    | waiting hw => exact ⟨_, le_rfl, .waiting (hbefore.frame_eq ▸ hw)⟩
  | giveBack _ =>
    refine Spent.of_onStack fun g a j hj => ?_
    cases hj with
    | before hj => cases hj
    | calling hj => cases hj
    | waiting hw => exact ⟨_, le_rfl, .waiting hw⟩
  | resume hx _ =>
    refine Spent.of_onStack fun g a j hj => ?_
    cases hj with
    | before hj =>
      cases hj
      exact ⟨_, Nat.le_succ _, .waiting (.caller hx)⟩
    | calling hj => cases hj
    | waiting hw => exact ⟨_, le_rfl, .waiting (.above hx hw)⟩

end

/-! ### The search -/

namespace Exploration

variable {p : Program} {o : Options} {main : FunctionId} {e d : Exploration} {q : Pending} {w : Worklist}
  {n : Nat} {globals : Names}

/-- All conjured symbols in pending nodes are spent on the way to them. -/
def Tracks (p : Program) (o : Options) (e : Exploration) : Prop :=
  ∀ q ∈ e.worklist.pending, ∃ x, e.graph.node? q.node = some x ∧
    x.state.From e.catalog (Spent p o e.frames x.point q.visits)

/-- One step of the search. -/
theorem Explores.tracks (hp : p.Built globals) (h : e.Explores p o main) (ht : e.Tracks p o)
    (hpop : e.worklist.pop? = some (q, w))
    (hrun : dispatch o q { e with worklist := w } = .ok ((), d)) : d.Tracks p o := by
  have hpending := Worklist.pending_of_pop? hpop
  obtain ⟨x, hx, hs⟩ := ht q (hpending ▸ mem_cons_self)
  obtain ⟨x', hx', hv⟩ := h.valid (q := q) (hpending ▸ mem_cons_self)
  cases hx.symm.trans hx'
  have hregular : Regular p o main { e with worklist := w } := ⟨h.regular.program, h.regular.frames⟩
  -- the nodes that become pending follow the one that is continued, and bring nothing else
  have hmoves := (advances_dispatch hp.closed hregular hx hv).gives _ _ hrun
  have hcarries := brings_dispatch hregular.program hx hs _ _ hrun
  obtain ⟨news, hperm, hfollows⟩ := hmoves.pending
  obtain ⟨news', hperm', hfrom⟩ := hcarries.pending
  have hsame : news.Perm news' := (perm_append_right_iff w.pending).1 (hperm.symm.trans hperm')
  intro r hr
  rcases mem_append.1 (hperm.mem_iff.1 hr) with hr | hr
  · obtain ⟨y, hy, hyf⟩ := hfollows r hr
    obtain ⟨y', hy', hys⟩ := hfrom r (hsame.mem_iff.1 hr)
    cases hy.symm.trans hy'
    refine ⟨y, hy, hys.subset ((Set.union_subset_union_left _ ?_).trans
      (hyf.spent_subset hp hmoves.sound))⟩
    exact Spent.mono hmoves.frames h.regular.frames hv.exists_frame
  · have hold : r ∈ e.worklist.pending := hpending ▸ mem_cons_of_mem q hr
    obtain ⟨y, hy, hys⟩ := ht r hold
    obtain ⟨y', hy', hyv⟩ := h.valid hold
    cases hy.symm.trans hy'
    refine ⟨y, hmoves.node hy, (hys.mono hmoves.le).subset ?_⟩
    exact Spent.mono hmoves.frames h.regular.frames hyv.exists_frame

theorem tracks_start : (start o p main).Tracks p o := by
  obtain ⟨m, hpending, hnode⟩ := start_spec o p main
  intro q hq
  rw [hpending, mem_singleton] at hq
  subst hq
  refine ⟨root o p main, (hnode m _).2 ⟨rfl, rfl⟩, ?_⟩
  show (opening o p main).1.From (opening o p main).2 _
  unfold opening
  split
  · exact (State.makes_ofGlobals o.store topFrame (.ofProgram p)).2
  · exact State.from_empty

/-- **What is pending has only what is spent**, during the whole search. -/
theorem Explores.tracks_steps (hp : p.Built globals) (h : e.Explores p o main) (ht : e.Tracks p o)
    (hsteps : Exploring.Steps o n e d) : d.Explores p o main ∧ d.Tracks p o := by
  induction hsteps with
  | refl => exact ⟨h, ht⟩
  | step hpop hrun _ ih =>
    obtain ⟨d, hrun', hcuts⟩ := h.cut hp.closed hpop
    cases hrun.symm.trans hrun'
    exact ih hcuts.explores (h.tracks hp ht hpop hrun)

end Exploration

end PathScout

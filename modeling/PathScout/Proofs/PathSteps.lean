import PathScout.Proofs.QuietActions

/-!
# What follows a pending node

Continuing a pending node makes further nodes pending. Each of them is one step further on the path:
at the entrance of the next block, after the next step of a block, on the way out of a block, or on
the way into or out of a function that was called.

* `Follows`: a point and the visits of its path follow another point and its visits.
* `Frames.Sound`, `Valid`: what all frames and pending nodes satisfy.
* `Exploration.Moves`: what an action does to an exploration on the way from a pending node.
-/

namespace PathScout

open Interned List Array

/-! ### Frames -/

namespace Frames

variable {x : Frame}

/-- The second table has all frames of the first one, under the same numbers. -/
def Extends (fs fs' : Frames) : Prop := ∀ f x, fs.frame? f = some x → fs'.frame? f = some x

theorem Extends.refl (fs : Frames) : fs.Extends fs := fun _ _ h => h

theorem Extends.trans {fs fs' fs'' : Frames} (h : fs.Extends fs') (h' : fs'.Extends fs'') :
    fs.Extends fs'' := fun f x hx => h' f x (h f x hx)

/-- The function that runs in the frame has the body. -/
def Runs (p : Program) (fs : Frames) (f : FrameId) (body : FunctionBody) : Prop :=
  ∃ x, fs.frame? f = some x ∧ (p.function x.function).body = some body

/-- The function that runs in the frame has the block. -/
def HasBlock (p : Program) (fs : Frames) (f : FrameId) (b : BlockId) (block : Block) : Prop :=
  ∃ body, Runs p fs f body ∧ body.graph.block? b = some block

/-- The function that runs in the frame has a step with a call, at the place of the call. -/
def HasSite (p : Program) (fs : Frames) (f : FrameId) (site : CallSite) : Prop :=
  (∃ callee args, (p.expr site.expr).op = .call callee args) ∧
    ∃ block root, HasBlock p fs f site.block block ∧
      block.elements[site.index]? = some (.expr site.expr root)

variable {p : Program} {o : Options} {main : FunctionId} {fs fs' : Frames} {f : FrameId}
  {b : BlockId} {block : Block} {body : FunctionBody} {site : CallSite}

theorem Runs.mono (h : Runs p fs f body) (hfs : fs.Extends fs') : Runs p fs' f body := by
  obtain ⟨x, hx, hbody⟩ := h
  exact ⟨x, hfs f x hx, hbody⟩

theorem Runs.unique {body' : FunctionBody} (h : Runs p fs f body) (h' : Runs p fs f body') :
    body = body' := by
  obtain ⟨x, hx, hbody⟩ := h
  obtain ⟨y, hy, hbody'⟩ := h'
  cases hx.symm.trans hy
  exact Option.some.inj (hbody.symm.trans hbody')

theorem HasBlock.mono (h : HasBlock p fs f b block) (hfs : fs.Extends fs') :
    HasBlock p fs' f b block := by
  obtain ⟨body, hbody, hb⟩ := h
  exact ⟨body, hbody.mono hfs, hb⟩

theorem HasBlock.unique {block' : Block} (h : HasBlock p fs f b block)
    (h' : HasBlock p fs f b block') : block = block' := by
  obtain ⟨body, hbody, hb⟩ := h
  obtain ⟨body', hbody', hb'⟩ := h'
  obtain rfl := hbody.unique hbody'
  exact Option.some.inj (hb.symm.trans hb')

theorem HasSite.mono (h : HasSite p fs f site) (hfs : fs.Extends fs') : HasSite p fs' f site := by
  obtain ⟨hcall, block, root, hblock, hel⟩ := h
  exact ⟨hcall, block, root, hblock.mono hfs, hel⟩

theorem HasSite.index_lt (h : HasSite p fs f site) : site.expr.index < p.exprs.size := by
  obtain ⟨⟨callee, args, hop⟩, -⟩ := h
  by_contra hlt
  rw [Program.expr, Array.getElem?_eq_none (Nat.le_of_not_lt hlt)] at hop
  cases hop

/-- Where frames come from: the first one runs the function that is explored, and all others run a
function that is called in an older frame. -/
inductive Entered (p : Program) (o : Options) (main : FunctionId) (fs : Frames) : Frame → Prop where
  | top {body : FunctionBody} : (p.function main).body = some body →
    Entered p o main fs ⟨none, main, none, 0⟩
  | called {caller : FrameId} {x : Frame} {callee : FunctionId} {body : FunctionBody}
    {site : CallSite} : fs.frame? caller = some x → x.depth < o.maxInlineDepth →
    (p.function callee).body = some body → HasSite p fs caller site →
    Entered p o main fs ⟨some caller, callee, some site, x.depth + 1⟩

/-- All frames come from somewhere. -/
def Sound (p : Program) (o : Options) (main : FunctionId) (fs : Frames) : Prop :=
  ∀ f x, fs.frame? f = some x → Entered p o main fs x

theorem Entered.mono (h : Entered p o main fs x) (hfs : fs.Extends fs') : Entered p o main fs' x := by
  cases h with
  | top hbody => exact .top hbody
  | called hx hdepth hbody hsite => exact .called (hfs _ _ hx) hdepth hbody (hsite.mono hfs)

theorem extends_add (fs : Frames) (x : Frame) : fs.Extends (add fs x).2 :=
  fun _ _ => get?_intern_of_get?

theorem frame?_add (fs : Frames) (x : Frame) : (add fs x).2.frame? (add fs x).1 = some x :=
  get?_intern fs x

theorem Sound.add (h : Sound p o main fs) (hx : Entered p o main fs x) :
    Sound p o main (Frames.add fs x).2 := by
  intro f y hy
  rcases get?_of_get?_intern hy with hy | ⟨-, rfl⟩
  · exact (h f y hy).mono (extends_add fs x)
  · exact hx.mono (extends_add fs y)

/-- The frame of a call. -/
theorem call_eq {caller : FrameId} (hx : fs.frame? caller = some x) (callee : FunctionId)
    (site : CallSite) :
    Frames.call fs caller callee site =
      Frames.add fs ⟨some caller, callee, some site, x.depth + 1⟩ := by
  unfold Frames.call
  rw [hx]

end Frames

/-! ### Steps of paths -/

/-- The path stands before a step of a block. -/
inductive Point.Before : Point → FrameId → BlockId → Nat → Prop where
  | entrance {f : FrameId} {b : BlockId} {tag : Option Checker} :
    Before ⟨.entrance b, f, tag⟩ f b 0
  | after {f : FrameId} {b : BlockId} {i : Nat} {tag : Option Checker} :
    Before ⟨.after b i, f, tag⟩ f b (i + 1)

/-- The path stands before a block of a frame: at the entry of its function, on the way from another
block, or on the way into the function. -/
inductive Leads (p : Program) (fs : Frames) : Point → FrameId → BlockId → Prop where
  | entry {f : FrameId} {body : FunctionBody} {tag : Option Checker} : Frames.Runs p fs f body →
    Leads p fs ⟨.entry, f, tag⟩ f body.graph.entry
  | edge {f : FrameId} {b target : BlockId} {tag : Option Checker} :
    Leads p fs ⟨.edge b target, f, tag⟩ f target
  | call {caller f : FrameId} {callee : FunctionId} {site : CallSite} {body : FunctionBody}
    {depth : Nat} {tag : Option Checker} :
    fs.frame? f = some ⟨some caller, callee, some site, depth⟩ → Frames.Runs p fs f body →
    Leads p fs ⟨.callEnter site callee, caller, tag⟩ f body.graph.entry

/-- A point and the visits of its path follow another point and its visits. -/
inductive Follows (p : Program) (o : Options) (fs : Frames) :
    Point → Visits → Point → Visits → Prop where
  | enter {point : Point} {V : Visits} {f : FrameId} {b : BlockId} {block : Block} :
    Leads p fs point f b → Frames.HasBlock p fs f b block → V.count f b < o.maxBlockVisits →
    Follows p o fs point V ⟨.entrance b, f, none⟩ (V.enter f b)
  | step {point : Point} {V : Visits} {f : FrameId} {b : BlockId} {i : Nat} {block : Block}
    {el : Element} {tag : Option Checker} :
    point.Before f b i → Frames.HasBlock p fs f b block → block.elements[i]? = some el →
    Follows p o fs point V ⟨.after b i, f, tag⟩ V
  | call {point : Point} {V : Visits} {f : FrameId} {b : BlockId} {i : Nat} {e : ExprId}
    {callee : FunctionId} {body : FunctionBody} {x : Frame} :
    point.Before f b i → Frames.HasSite p fs f ⟨b, i, e⟩ → (p.function callee).body = some body →
    fs.frame? f = some x → x.depth < o.maxInlineDepth →
    Follows p o fs point V ⟨.callEnter ⟨b, i, e⟩ callee, f, none⟩ V
  | leave {point : Point} {V : Visits} {f : FrameId} {b target : BlockId} {i : Nat}
    {block : Block} :
    point.Before f b i → Frames.HasBlock p fs f b block → block.elements[i]? = none →
    target ∈ block.terminator.successors →
    Follows p o fs point V ⟨.edge b target, f, none⟩ V
  | finish {point : Point} {V : Visits} {f : FrameId} {b : BlockId} {i : Nat} {block : Block} :
    point.Before f b i → Frames.HasBlock p fs f b block → block.elements[i]? = none →
    block.terminator = .exit → Follows p o fs point V ⟨.finish, f, none⟩ V
  | giveBack {f caller : FrameId} {V : Visits} {callee : FunctionId} {site : CallSite} {depth : Nat}
    {tag : Option Checker} : fs.frame? f = some ⟨some caller, callee, some site, depth⟩ →
    Follows p o fs ⟨.finish, f, tag⟩ V ⟨.callExit site, f, none⟩ V
  | resume {f caller : FrameId} {V : Visits} {callee : FunctionId} {site : CallSite} {depth : Nat}
    {tag tag' : Option Checker} : fs.frame? f = some ⟨some caller, callee, some site, depth⟩ →
    Frames.HasSite p fs caller site →
    Follows p o fs ⟨.callExit site, f, tag⟩ V ⟨.after site.block site.index, caller, tag'⟩ V

/-- The blocks and frames that the point is about exist. -/
def PointKind.Valid (p : Program) (o : Options) (fs : Frames) (f : FrameId) : PointKind → Prop
  | .entry => ∃ body, Frames.Runs p fs f body
  | .edge _ b | .entrance b | .after b _ => ∃ block, Frames.HasBlock p fs f b block
  | .callEnter site callee => Frames.HasSite p fs f site ∧
    (∃ body, (p.function callee).body = some body) ∧
    ∃ x, fs.frame? f = some x ∧ x.depth < o.maxInlineDepth
  | .callExit site => ∃ caller callee depth,
    fs.frame? f = some ⟨some caller, callee, some site, depth⟩
  | .finish => ∃ x, fs.frame? f = some x
  | .before .. | .exit _ => False

/-- The point exists, and no block was entered too often on the way to it. -/
structure Valid (p : Program) (o : Options) (fs : Frames) (point : Point) (V : Visits) : Prop where
  kind : point.kind.Valid p o fs point.frame
  visits (f : FrameId) (b : BlockId) : V.count f b ≤ o.maxBlockVisits

/-- The entry of every body is one of its blocks, and so is every block that another one leads to. -/
def Program.Closed (p : Program) : Prop :=
  ∀ f body, (p.function f).body = some body →
    (∃ block, body.graph.block? body.graph.entry = some block) ∧
      ∀ b block, body.graph.block? b = some block → ∀ t ∈ block.terminator.successors,
        ∃ target, body.graph.block? t = some target

section

variable {p : Program} {o : Options} {fs fs' : Frames} {point point' : Point} {V V' : Visits}
  {f : FrameId} {b : BlockId}

theorem Leads.mono (h : Leads p fs point f b) (hfs : fs.Extends fs') : Leads p fs' point f b := by
  cases h with
  | entry hruns => exact .entry (hruns.mono hfs)
  | edge => exact .edge
  | call hframe hruns => exact .call (hfs _ _ hframe) (hruns.mono hfs)

theorem Follows.mono (h : Follows p o fs point V point' V') (hfs : fs.Extends fs') :
    Follows p o fs' point V point' V' := by
  cases h with
  | enter hleads hb hlt => exact .enter (hleads.mono hfs) (hb.mono hfs) hlt
  | step hbefore hb hel => exact .step hbefore (hb.mono hfs) hel
  | call hbefore hsite hbody hx hdepth => exact .call hbefore (hsite.mono hfs) hbody (hfs _ _ hx) hdepth
  | leave hbefore hb hel ht => exact .leave hbefore (hb.mono hfs) hel ht
  | finish hbefore hb hel hexit => exact .finish hbefore (hb.mono hfs) hel hexit
  | giveBack hx => exact .giveBack (hfs _ _ hx)
  | resume hx hsite => exact .resume (hfs _ _ hx) (hsite.mono hfs)

theorem PointKind.Valid.mono {kind : PointKind} (h : kind.Valid p o fs f) (hfs : fs.Extends fs') :
    kind.Valid p o fs' f := by
  cases kind with
  | entry => exact h.imp fun _ hruns => hruns.mono hfs
  | edge | entrance | after => exact h.imp fun _ hb => hb.mono hfs
  | callEnter site callee =>
    obtain ⟨hsite, hbody, x, hx, hdepth⟩ := h
    exact ⟨hsite.mono hfs, hbody, x, hfs _ _ hx, hdepth⟩
  | callExit site =>
    obtain ⟨caller, callee, depth, hx⟩ := h
    exact ⟨caller, callee, depth, hfs _ _ hx⟩
  | finish => exact h.imp fun x hx => hfs _ _ hx
  | before | exit => exact h

theorem Valid.mono (h : Valid p o fs point V) (hfs : fs.Extends fs') : Valid p o fs' point V :=
  ⟨h.kind.mono hfs, h.visits⟩

/-- The frame of a valid point exists. -/
theorem Valid.exists_frame (h : Valid p o fs point V) : ∃ x, fs.frame? point.frame = some x := by
  have hkind := h.kind
  cases hcase : point.kind with
  | entry =>
    rw [hcase] at hkind
    obtain ⟨body, x, hx, -⟩ := hkind
    exact ⟨x, hx⟩
  | edge | entrance | after =>
    rw [hcase] at hkind
    obtain ⟨block, body, ⟨x, hx, -⟩, -⟩ := hkind
    exact ⟨x, hx⟩
  | callEnter =>
    rw [hcase] at hkind
    obtain ⟨-, -, x, hx, -⟩ := hkind
    exact ⟨x, hx⟩
  | callExit =>
    rw [hcase] at hkind
    obtain ⟨caller, callee, depth, hx⟩ := hkind
    exact ⟨_, hx⟩
  | finish =>
    rw [hcase] at hkind
    exact hkind
  | before | exit =>
    rw [hcase] at hkind
    exact hkind.elim

/-- What follows a valid point is valid. -/
theorem Follows.valid (h : Follows p o fs point V point' V') (hp : p.Closed)
    (hv : Valid p o fs point V) : Valid p o fs point' V' := by
  cases h with
  | @enter _ _ f b block hleads hb hlt =>
    refine ⟨⟨block, hb⟩, fun g a => ?_⟩
    by_cases hga : g = f ∧ a = b
    · obtain ⟨rfl, rfl⟩ := hga
      rw [Visits.count_enter_self]
      exact hlt
    · rw [Visits.count_enter_of_ne hga]
      exact hv.visits g a
  | step _ hb _ => exact ⟨⟨_, hb⟩, hv.visits⟩
  | call _ hsite hbody hx hdepth => exact ⟨⟨hsite, ⟨_, hbody⟩, _, hx, hdepth⟩, hv.visits⟩
  | leave _ hb _ ht =>
    obtain ⟨body, ⟨x, hx, hbody⟩, hblock⟩ := hb
    obtain ⟨target, htarget⟩ := (hp _ body hbody).2 _ _ hblock _ ht
    exact ⟨⟨target, body, ⟨x, hx, hbody⟩, htarget⟩, hv.visits⟩
  | finish _ hb _ _ =>
    obtain ⟨body, ⟨x, hx, -⟩, -⟩ := hb
    exact ⟨⟨x, hx⟩, hv.visits⟩
  | giveBack hx => exact ⟨⟨_, _, _, hx⟩, hv.visits⟩
  | resume _ hsite =>
    obtain ⟨-, block, root, hb, -⟩ := hsite
    exact ⟨⟨block, hb⟩, hv.visits⟩

end

/-! ### What an action does -/

/-- The exploration is one of the program, and all its frames come from somewhere. -/
structure Exploration.Regular (p : Program) (o : Options) (main : FunctionId) (e : Exploration) :
    Prop where
  program : e.catalog.program = p
  frames : e.frames.Sound p o main

/-- What is done on the way from a pending node: only additions, and each node that becomes pending
follows the one that is continued. Where a block was entered too often, this is noted. -/
structure Exploration.Moves (p : Program) (o : Options) (main : FunctionId) (point : Point)
    (V : Visits) (e e' : Exploration) : Prop where
  le : e.catalog ≤ e'.catalog
  sound : e'.frames.Sound p o main
  node {n : NodeId} {x : PathNode} : e.graph.node? n = some x → e'.graph.node? n = some x
  frames : e.frames.Extends e'.frames
  pending : ∃ news : List Pending, e'.worklist.pending.Perm (news ++ e.worklist.pending) ∧
    ∀ q ∈ news, ∃ y, e'.graph.node? q.node = some y ∧
      Follows p o e'.frames point V y.point q.visits
  coverage : e'.coverage = e.coverage ∨
    ∃ f b, Leads p e'.frames point f b ∧ o.maxBlockVisits ≤ V.count f b

namespace Exploration

variable {p : Program} {o : Options} {main : FunctionId} {point : Point} {V : Visits}
  {e e' e'' : Exploration}

theorem Moves.regular (h : e.Moves p o main point V e') (he : e.Regular p o main) :
    e'.Regular p o main := ⟨h.le.program.trans he.program, h.sound⟩

theorem Stays.moves (h : e.Stays e') (he : e.Regular p o main) : e.Moves p o main point V e' where
  le := h.le
  sound := by
    rw [h.frames]
    exact he.frames
  node := h.node
  frames := by
    rw [h.frames]
    exact .refl _
  pending := ⟨[], by rw [h.worklist]; rfl, fun _ hq => nomatch hq⟩
  coverage := .inl h.coverage

theorem Stays.regular (h : e.Stays e') (he : e.Regular p o main) : e'.Regular p o main :=
  ⟨h.program.trans he.program, by rw [h.frames]; exact he.frames⟩

theorem Moves.trans (h : e.Moves p o main point V e') (h' : e'.Moves p o main point V e'') :
    e.Moves p o main point V e'' where
  le := h.le.trans h'.le
  sound := h'.sound
  node hn := h'.node (h.node hn)
  frames := h.frames.trans h'.frames
  pending := by
    obtain ⟨news, hperm, hfollows⟩ := h.pending
    obtain ⟨news', hperm', hfollows'⟩ := h'.pending
    refine ⟨news' ++ news, ?_, fun q hq => ?_⟩
    · rw [List.append_assoc]
      exact hperm'.trans (hperm.append_left news')
    · rcases mem_append.1 hq with hq | hq
      · exact hfollows' q hq
      · obtain ⟨y, hy, hyf⟩ := hfollows q hq
        exact ⟨y, h'.node hy, hyf.mono h'.frames⟩
  coverage := by
    rcases h'.coverage with hsame | hnoted
    · rw [hsame]
      exact h.coverage.imp_right fun ⟨f, b, hleads, hle⟩ => ⟨f, b, hleads.mono h'.frames, hle⟩
    · exact .inr hnoted

end Exploration

namespace Exploring

variable {α β : Type} {p : Program} {o : Options} {main : FunctionId} {point : Point} {V V' : Visits}
  {e e' : Exploration} {f : FrameId} {b : BlockId} {block : Block} {n : NodeId} {s : State} {x : Frame}
  {body : FunctionBody}

/-- The action succeeds, and all that becomes pending follows the point. -/
def Advances (p : Program) (o : Options) (main : FunctionId) (point : Point) (V : Visits)
    (x : Exploring α) (e : Exploration) : Prop :=
  x.Ends e fun _ e' => e.Moves p o main point V e'

section

variable (he : e.Regular p o main)
include he

/-- The action that is next succeeds after one that does not get further. -/
theorem Advances.after {x : Exploring α} {next : α → Exploring β} {post : α → Exploration → Prop}
    (hx : x.Ends e fun a d => e.Stays d ∧ post a d)
    (hnext : ∀ a d, e.Stays d → d.Regular p o main → post a d →
      Advances p o main point V (next a) d) : Advances p o main point V (x >>= next) e :=
  hx.bind fun a d hd => (hnext a d hd.1 (hd.1.regular he) hd.2).imp fun _ _ h => (hd.1.moves he).trans h

theorem Advances.afterStays {x : Exploring α} {next : α → Exploring β}
    (hx : x.Ends e fun _ d => e.Stays d)
    (hnext : ∀ a d, e.Stays d → d.Regular p o main → Advances p o main point V (next a) d) :
    Advances p o main point V (x >>= next) e :=
  hx.bind fun a d hd => (hnext a d hd (hd.regular he)).imp fun _ _ h => (hd.moves he).trans h

theorem Advances.afterQuiet {x : Exploring α} {next : α → Exploring β} (hx : x.Quiet)
    (hnext : ∀ a d, e.Stays d → d.Regular p o main → Advances p o main point V (next a) d) :
    Advances p o main point V (x >>= next) e :=
  .afterStays he (hx e) hnext

theorem Advances.thenWith {x : Exploring α} {next : α → Exploring β} {post : α → Exploration → Prop}
    (hx : x.Ends e fun a d => e.Moves p o main point V d ∧ post a d)
    (hnext : ∀ a d, e.Moves p o main point V d → d.Regular p o main → post a d →
      Advances p o main point V (next a) d) : Advances p o main point V (x >>= next) e :=
  hx.bind fun a d hd => (hnext a d hd.1 (hd.1.regular he) hd.2).imp fun _ _ h => hd.1.trans h

theorem Advances.then {x : Exploring α} {next : α → Exploring β} (hx : Advances p o main point V x e)
    (hnext : ∀ a d, e.Moves p o main point V d → d.Regular p o main →
      Advances p o main point V (next a) d) : Advances p o main point V (x >>= next) e :=
  hx.bind fun a d hd => (hnext a d hd (hd.regular he)).imp fun _ _ h => hd.trans h

end

/-- What is looked up is known. -/
theorem Advances.afterLookup {x : Exploring α} {next : α → Exploring β} {v : α}
    (hx : x.Ends e fun a d => a = v ∧ d = e) (hnext : Advances p o main point V (next v) e) :
    Advances p o main point V (x >>= next) e := hx.bind fun a d hd => by
  obtain ⟨rfl, rfl⟩ := hd
  exact hnext

theorem Quiet.advances {x : Exploring α} (hx : x.Quiet) (he : e.Regular p o main) :
    Advances p o main point V x e := (hx e).imp fun _ _ h => h.moves he

theorem advances_pure (a : α) (he : e.Regular p o main) :
    Advances p o main point V (pure a) e := (quiet_pure a).advances he

theorem advances_query_bind {read : Exploration → α} {next : α → Exploring β}
    (h : Advances p o main point V (next (read e)) e) :
    Advances p o main point V (query read >>= next) e := ends_query_bind h

theorem advances_ite {c : Prop} [Decidable c] {x y : Exploring α}
    (hx : c → Advances p o main point V x e) (hy : ¬ c → Advances p o main point V y e) :
    Advances p o main point V (if c then x else y : Exploring α) e := ends_ite hx hy

section

variable (he : e.Regular p o main)
include he

/-- The frame of a call: it is there afterwards, and so are all frames that were there. -/
theorem moves_call {caller : FrameId} {callee : FunctionId} {site : CallSite}
    (hx : e.frames.frame? caller = some x) (hdepth : x.depth < o.maxInlineDepth)
    (hbody : (p.function callee).body = some body) (hsite : Frames.HasSite p e.frames caller site) :
    (onFrames fun fs => Frames.call fs caller callee site).Ends e fun a e' =>
      e.Moves p o main point V e' ∧
        e'.frames.frame? a = some ⟨some caller, callee, some site, x.depth + 1⟩ := by
  have hcall := Frames.call_eq hx callee site
  refine ⟨(Frames.call e.frames caller callee site).1,
    { e with frames := (Frames.call e.frames caller callee site).2 }, rfl, ?_⟩
  rw [hcall]
  exact ⟨⟨le_rfl, he.frames.add (.called hx hdepth hbody hsite), id, Frames.extends_add _ _,
    ⟨[], .refl _, fun _ hq => nomatch hq⟩, .inl rfl⟩, Frames.frame?_add _ _⟩

theorem advances_forM {next : α → Exploring PUnit} {xs : List α}
    (h : ∀ x ∈ xs, ∀ d, e.Moves p o main point V d → d.Regular p o main →
      Advances p o main point V (next x) d) : Advances p o main point V (xs.forM next) e := by
  induction xs generalizing e with
  | nil => exact advances_pure _ he
  | cons x xs ih =>
    refine .then he (h x mem_cons_self e ((Exploration.Stays.refl e).moves he) he)
      fun _ d hd hreg => ih hreg fun y hy d' hd' hreg' => ?_
    exact h y (mem_cons_of_mem x hy) d' (hd.trans hd') hreg'

theorem advances_optionForM {next : α → Exploring PUnit} {x? : Option α}
    (h : ∀ x, x? = some x → Advances p o main point V (next x) e) :
    Advances p o main point V (x?.forM next) e := by
  cases x? with
  | none => exact advances_pure _ he
  | some x => exact h x rfl

/-! ### Pending nodes -/

theorem advances_queue {y : PathNode} (hn : e.graph.node? n = some y)
    (hfollows : Follows p o e.frames point V y.point V') : Advances p o main point V (queue n V') e := by
  refine ⟨_, _, rfl, le_rfl, he.frames, id, .refl _, ⟨[⟨n, V'⟩], ?_, ?_⟩, .inl rfl⟩
  · show (e.worklist.push ⟨n, V'⟩).pending.Perm ([_] ++ e.worklist.pending)
    unfold Worklist.push
    split
    · exact .refl _
    · exact perm_append_comm
  · intro q hq
    cases mem_singleton.1 hq
    exact ⟨y, hn, hfollows⟩

theorem advances_advance {kind : PointKind} {pred : NodeId}
    (hfollows : Follows p o e.frames point V ⟨kind, f, none⟩ V') :
    Advances p o main point V (advance pred ⟨kind, f, none⟩ s V') e := by
  have harrive : (arrive pred ⟨⟨kind, f, none⟩, s, false⟩).Ends e fun a d =>
      e.Stays d ∧ d.graph.node? a.1 = some ⟨⟨kind, f, none⟩, s, false⟩ :=
    ⟨_, _, rfl, stays_arrived e pred _, node?_arrived e pred _⟩
  refine .after he harrive fun a d hd hreg hnode => advances_ite (fun _ => ?_) fun _ => ?_
  · exact advances_queue hreg hnode (by rwa [hd.frames])
  · exact advances_pure _ hreg

/-! ### Looking up -/

theorem ends_functionOf (hx : e.frames.frame? f = some x) :
    (functionOf f).Ends e fun a e' => a = p.function x.function ∧ e' = e := by
  unfold functionOf
  refine ends_query_bind ?_
  rw [Program.functionIn?, hx, he.program]
  exact ends_pure ⟨rfl, rfl⟩

theorem ends_bodyOf (h : Frames.Runs p e.frames f body) :
    (bodyOf f).Ends e fun a e' => a = body ∧ e' = e := by
  obtain ⟨x, hx, hbody⟩ := h
  refine (ends_functionOf he hx).bind ?_
  rintro _ _ ⟨rfl, rfl⟩
  rw [hbody]
  exact ends_pure ⟨rfl, rfl⟩

theorem ends_blockOf (h : Frames.HasBlock p e.frames f b block) :
    (blockOf f b).Ends e fun a e' => a = block ∧ e' = e := by
  obtain ⟨body, hbody, hb⟩ := h
  refine (ends_bodyOf he hbody).bind ?_
  rintro _ _ ⟨rfl, rfl⟩
  rw [hb]
  exact ends_pure ⟨rfl, rfl⟩

end

end Exploring

/-!
## How many frames there are

A frame is a frame that calls, the place of the call and the function that is called. Calls are
followed to a limited depth, so there are finitely many frames, and all blocks of all frames are
among finitely many.

* `Program.frameBound`, `Program.blockBound`: bounds for the numbers of frames and of blocks.
* `Frames.Sound.size_le`: there are no more frames.
-/

namespace Program

variable (p : Program)

/-- The bodies of all functions. -/
def bodies : List FunctionBody := p.functions.toList.filterMap (·.body)

/-- No body has more blocks. -/
def blockBound : Nat := (p.bodies.map (·.graph.blocks.size)).sum

/-- No block has more steps. -/
def stepBound : Nat :=
  (p.bodies.map fun body => (body.graph.blocks.toList.map (·.elements.size)).sum).sum

/-- No frame calls more functions from more places. -/
def callBound : Nat := p.functions.size * (p.blockBound * (p.stepBound * p.exprs.size))

/-- There are no more frames: those of each depth are called from those before. -/
def frameBound (o : Options) : Nat := ∑ d ∈ Finset.range (o.maxInlineDepth + 1), p.callBound ^ d

variable {p} {f : FunctionId} {b : BlockId} {block : Block} {body : FunctionBody}

section

variable (h : (p.function f).body = some body)
include h

theorem index_lt_of_body : f.index < p.functions.size := by
  by_contra hlt
  rw [Program.function, Array.getElem?_eq_none (Nat.le_of_not_lt hlt)] at h
  cases h

theorem mem_bodies : body ∈ p.bodies := by
  have hlt := index_lt_of_body h
  rw [Program.function, Array.getElem?_eq_getElem hlt] at h
  exact List.mem_filterMap.2 ⟨_, Array.mem_toList_iff.2 (Array.getElem_mem hlt), h⟩

theorem index_lt_blockBound (hb : body.graph.block? b = some block) : b.index < p.blockBound :=
  (Array.getElem?_eq_some_iff.1 hb).1.trans_le (List.le_sum_of_mem (List.mem_map_of_mem (mem_bodies h)))

theorem index_lt_stepBound {i : Nat} {el : Element} (hb : body.graph.block? b = some block)
    (hel : block.elements[i]? = some el) : i < p.stepBound := by
  have hi : i < block.elements.size := (Array.getElem?_eq_some_iff.1 hel).1
  have hmem : block ∈ body.graph.blocks.toList := mem_toList_iff.2 (mem_of_getElem? hb)
  have hsteps : block.elements.size ≤ (body.graph.blocks.toList.map (·.elements.size)).sum :=
    le_sum_of_mem (mem_map_of_mem hmem)
  exact hi.trans_le (hsteps.trans (le_sum_of_mem (mem_map.2 ⟨body, mem_bodies h, rfl⟩)))

end

end Program

namespace Frames

variable {p : Program} {o : Options} {main : FunctionId} {fs : Frames} {f : FrameId} {x y : Frame}
  {i d : Nat}

/-- The number of frames that wait for a frame. -/
def depth (fs : Frames) (f : FrameId) : Nat := ((fs.frame? f).map (·.depth)).getD 0

theorem depth_eq (h : fs.frame? f = some x) : depth fs f = x.depth := by
  rw [depth, h]
  rfl

/-- The numbers of the frames of a depth. -/
def level (fs : Frames) (d : Nat) : Finset Nat :=
  (Finset.range fs.size).filter fun i => depth fs ⟨i⟩ = d

theorem mem_level : i ∈ fs.level d ↔ ∃ x, fs.frame? ⟨i⟩ = some x ∧ x.depth = d := by
  rw [level, Finset.mem_filter, Finset.mem_range]
  constructor
  · rintro ⟨hi, hd⟩
    have hx : fs.frame? ⟨i⟩ = some fs.items[i] := getElem?_eq_getElem hi
    exact ⟨_, hx, (depth_eq hx).symm.trans hd⟩
  · rintro ⟨x, hx, hd⟩
    exact ⟨lt_size_of_get? hx, (depth_eq hx).trans hd⟩

theorem Sound.depth_le (h : Sound p o main fs) (hx : fs.frame? f = some x) :
    x.depth ≤ o.maxInlineDepth := by
  cases h f x hx with
  | top _ => exact Nat.zero_le _
  | called _ hdepth _ _ => exact hdepth

/-- What tells the frames of a depth apart: the frame that calls, and the call. -/
def callOf (fs : Frames) (i : Nat) : Nat × Nat × Nat × Nat × Nat :=
  match fs.frame? ⟨i⟩ with
  | some ⟨some caller, callee, some site, _⟩ =>
    (caller.index, callee.index, site.block.index, site.index, site.expr.index)
  | _ => default

/-- A frame that is not the first one, with the call that it was entered by. -/
theorem Sound.exists_call (h : Sound p o main fs) (hi : i ∈ fs.level (d + 1)) :
    ∃ caller callee site, fs.frame? ⟨i⟩ = some ⟨some caller, callee, some site, d + 1⟩ ∧
      caller.index ∈ fs.level d ∧ callee.index < p.functions.size ∧
      site.block.index < p.blockBound ∧ site.index < p.stepBound ∧
      site.expr.index < p.exprs.size := by
  obtain ⟨x, hx, hd⟩ := mem_level.1 hi
  cases h _ x hx with
  | top _ => cases hd
  | @called caller y callee body site hy _ hbody hsite =>
    obtain rfl : y.depth = d := Nat.succ.inj hd
    obtain ⟨-, block, root, ⟨body', ⟨z, -, hbody'⟩, hb⟩, hel⟩ := id hsite
    exact ⟨caller, callee, site, hx, mem_level.2 ⟨y, hy, rfl⟩, Program.index_lt_of_body hbody,
      Program.index_lt_blockBound hbody' hb, Program.index_lt_stepBound hbody' hb hel,
      hsite.index_lt⟩

theorem Sound.card_level_le (h : Sound p o main fs) (d : Nat) :
    (fs.level d).card ≤ p.callBound ^ d := by
  induction d with
  | zero =>
    rw [pow_zero, Finset.card_le_one]
    have htop : ∀ {i}, i ∈ fs.level 0 → fs.frame? ⟨i⟩ = some ⟨none, main, none, 0⟩ := fun hi => by
      obtain ⟨x, hx, hd⟩ := mem_level.1 hi
      cases h _ x hx with
      | top _ => exact hx
      | called _ _ _ _ => cases hd
    exact fun i hi j hj => get?_inj (htop hi) (htop hj)
  | succ d ih =>
    have hmaps : Set.MapsTo (callOf fs) (fs.level (d + 1))
        (fs.level d ×ˢ (Finset.range p.functions.size ×ˢ (Finset.range p.blockBound ×ˢ
          (Finset.range p.stepBound ×ˢ Finset.range p.exprs.size))) :
            Finset (Nat × Nat × Nat × Nat × Nat)) := fun i hi => by
      obtain ⟨caller, callee, site, hx, hcaller, hcallee, hblock, hstep, hexpr⟩ := h.exists_call hi
      rw [callOf, hx]
      simp only [Finset.coe_product, Set.mem_prod, Finset.mem_coe, Finset.mem_range]
      exact ⟨hcaller, hcallee, hblock, hstep, hexpr⟩
    have hinj : Set.InjOn (callOf fs) (fs.level (d + 1)) := fun i hi j hj heq => by
      obtain ⟨⟨caller⟩, ⟨callee⟩, ⟨⟨b⟩, n, ⟨e⟩⟩, hx, -⟩ := h.exists_call hi
      obtain ⟨⟨caller'⟩, ⟨callee'⟩, ⟨⟨b'⟩, n', ⟨e'⟩⟩, hx', -⟩ := h.exists_call hj
      rw [callOf, callOf, hx, hx'] at heq
      simp only [Prod.mk.injEq] at heq
      obtain ⟨rfl, rfl, rfl, rfl, rfl⟩ := heq
      exact get?_inj hx hx'
    calc (fs.level (d + 1)).card ≤ _ := Finset.card_le_card_of_injOn (callOf fs) hmaps hinj
      _ = (fs.level d).card * p.callBound := by
        simp only [Finset.card_product, Finset.card_range, Program.callBound]
      _ ≤ p.callBound ^ d * p.callBound := Nat.mul_le_mul_right _ ih
      _ = p.callBound ^ (d + 1) := (pow_succ _ _).symm

/-- **There are finitely many frames.** -/
theorem Sound.size_le (h : Sound p o main fs) : fs.size ≤ p.frameBound o := by
  have hdepth : ∀ i ∈ Finset.range fs.size,
      depth fs ⟨i⟩ ∈ Finset.range (o.maxInlineDepth + 1) := fun i hi => by
    obtain ⟨x, hx⟩ : ∃ x, fs.frame? ⟨i⟩ = some x :=
      ⟨_, getElem?_eq_getElem (Finset.mem_range.1 hi)⟩
    rw [Finset.mem_range, depth_eq hx]
    exact Nat.lt_succ_of_le (h.depth_le hx)
  calc fs.size = (Finset.range fs.size).card := (Finset.card_range _).symm
    _ = ∑ d ∈ Finset.range (o.maxInlineDepth + 1), (fs.level d).card :=
      Finset.card_eq_sum_card_fiberwise hdepth
    _ ≤ p.frameBound o := Finset.sum_le_sum fun d _ => h.card_level_le d

end Frames

end PathScout

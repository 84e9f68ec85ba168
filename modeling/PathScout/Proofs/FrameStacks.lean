import PathScout.Proofs.PathSteps

/-!
# Stacks of frames

A frame that is not the first one was entered by a call in an older frame, where the called function
was not active. So the frames that wait for a frame are older and older ones, no function runs in
two of them, and calls are followed to a limited depth.

* `Frames.MayEnter`: a function may be entered from a frame.
* `Frames.Stacked`: where all frames come from.
* `Frames.Stacked.ancestors_eq`: what waits for a frame does not depend on frames that are added.
* `Frames.Stacked.functions_nodup`: the functions of a frame and of all that wait for it differ.
* `Frames.Stacked.frame_eq`: from a step of a block in a frame one frame is entered only.
-/

namespace PathScout

open Interned List Option

namespace Frames

/-- The function may be entered from the frame: calls are followed at all, it has a body, the frame is
not too deep, and it is not active yet. -/
structure MayEnter (p : Program) (o : Options) (fs : Frames) (f : FrameId) (callee : FunctionId) :
    Prop where
  enabled : o.inlineCalls = true
  body : ∃ body, (p.function callee).body = some body
  depth : fs.depth f < o.maxInlineDepth
  inactive : isOnStack fs f callee = false

/-- Where a frame comes from: nothing calls the first one, and all others were entered by a call in an
older frame. -/
inductive Nested (p : Program) (o : Options) (fs : Frames) : FrameId → Frame → Prop where
  | top {f : FrameId} {function : FunctionId} : Nested p o fs f ⟨none, function, none, 0⟩
  | called {f caller : FrameId} {x : Frame} {callee : FunctionId} {args : List ExprId}
    {site : CallSite} {block : Block} {root : Bool} : caller.index < f.index →
    fs.frame? caller = some x → HasBlock p fs caller site.block block →
    block.elements[site.index]? = some (.expr site.expr root) →
    (p.expr site.expr).op = .call callee args → MayEnter p o fs caller callee →
    Nested p o fs f ⟨some caller, callee, some site, x.depth + 1⟩

/-- All frames come from somewhere. -/
def Stacked (p : Program) (o : Options) (fs : Frames) : Prop :=
  ∀ f x, fs.frame? f = some x → Nested p o fs f x

variable {p : Program} {o : Options} {fs fs' : Frames} {f g : FrameId} {x : Frame}
  {callee : FunctionId} {site : CallSite}

theorem depth_mono (h : fs.Extends fs') (hx : fs.frame? f = some x) : fs'.depth f = fs.depth f :=
  (depth_eq (h _ _ hx)).trans (depth_eq hx).symm

/-! ### What waits for a frame -/

/-- Waiting frames are older, so their number does not limit how many of them are found, and frames
that are added do not wait for an old one. -/
theorem Stacked.ancestorsTo_eq (hs : fs.Stacked p o) (hfs : fs.Extends fs') {n m : Nat}
    (hx : fs.frame? f = some x) (hn : f.index ≤ n) (hm : f.index ≤ m) :
    ancestorsTo fs' m f = ancestorsTo fs n f := by
  induction n generalizing m f x with
  | zero =>
    have hcaller : fs.caller? f = none ∧ fs'.caller? f = none := by
      cases hs f x hx with
      | top => exact ⟨by rw [caller?, hx]; rfl, by rw [caller?, hfs _ _ hx]; rfl⟩
      | called hlt => omega
    cases m with
    | zero => rfl
    | succ m => rw [ancestorsTo, ancestorsTo, hcaller.2]
  | succ n ih =>
    cases hs f x hx with
    | top =>
      have hcaller : fs.caller? f = none ∧ fs'.caller? f = none :=
        ⟨by rw [caller?, hx]; rfl, by rw [caller?, hfs _ _ hx]; rfl⟩
      cases m with
      | zero => rw [ancestorsTo, ancestorsTo, hcaller.1]
      | succ m => rw [ancestorsTo, ancestorsTo, hcaller.1, hcaller.2]
    | @called caller y _ _ site _ _ hlt hy _ _ _ _ =>
      have hcaller : fs.caller? f = some caller ∧ fs'.caller? f = some caller :=
        ⟨by rw [caller?, hx]; rfl, by rw [caller?, hfs _ _ hx]; rfl⟩
      cases m with
      | zero => omega
      | succ m =>
        rw [ancestorsTo, ancestorsTo, hcaller.1, hcaller.2]
        exact congrArg (f :: ·) (ih hy (by omega) (by omega))

/-- **What waits for a frame** stays the same. -/
theorem Stacked.ancestors_eq (hs : fs.Stacked p o) (hfs : fs.Extends fs')
    (hx : fs.frame? f = some x) : ancestors fs' f = ancestors fs f :=
  hs.ancestorsTo_eq hfs hx (Nat.le_of_lt (lt_size_of_get? hx))
    (Nat.le_of_lt (lt_size_of_get? (hfs _ _ hx)))

/-- Nothing waits for a frame that nothing called. -/
theorem ancestors_eq_singleton (h : fs.caller? f = none) : ancestors fs f = [f] := by
  unfold ancestors
  cases fs.size with
  | zero => rfl
  | succ n => rw [ancestorsTo, h]

theorem ancestors_top (hx : fs.frame? f = some x) (hparent : x.parent = none) : ancestors fs f = [f] :=
  ancestors_eq_singleton (by rw [caller?, hx]; exact hparent)

/-- A frame waits, and so does all that waits for the frame that called it. -/
theorem Stacked.ancestors_called {caller : FrameId} (hs : fs.Stacked p o)
    (hx : fs.frame? f = some x) (hparent : x.parent = some caller) :
    ancestors fs f = f :: ancestors fs caller := by
  have hcaller : fs.caller? f = some caller := by
    rw [caller?, hx]
    exact hparent
  have hlt : f.index < fs.size := lt_size_of_get? hx
  obtain ⟨n, hn⟩ : ∃ n, fs.size = n + 1 := Nat.exists_eq_succ_of_ne_zero (by omega)
  cases hs f x hx with
  | top => cases hparent
  | called holder hy =>
    cases hparent
    rw [ancestors, hn, ancestorsTo, hcaller, ancestors]
    exact congrArg (f :: ·) (hs.ancestorsTo_eq (.refl fs) hy (by omega) (by omega))

theorem mem_ancestors_self (fs : Frames) (f : FrameId) : f ∈ ancestors fs f := by
  unfold ancestors
  cases fs.size with
  | zero => exact mem_singleton_self f
  | succ n =>
    rw [ancestorsTo]
    split
    · exact mem_cons_self
    · exact mem_singleton_self f

/-- To show something of all frames, show it of the first one and of a frame from that of its
caller. -/
theorem Stacked.induction {motive : FrameId → Prop} (hs : fs.Stacked p o)
    (top : ∀ f x, fs.frame? f = some x → x.parent = none → motive f)
    (called : ∀ f x caller, fs.frame? f = some x → x.parent = some caller → motive caller → motive f)
    (hx : fs.frame? f = some x) : motive f := by
  obtain ⟨i⟩ := f
  induction i using Nat.strong_induction_on generalizing x with
  | _ i ih =>
    cases hs _ x hx with
    | top => exact top _ _ hx rfl
    | @called caller y _ _ _ _ _ hlt hy => exact called _ _ caller hx rfl (ih caller.index hlt hy)

/-- All frames that wait for a frame exist, are not deeper, and are as deep only if they are it. -/
theorem Stacked.mem_ancestors (hs : fs.Stacked p o) (hx : fs.frame? f = some x)
    (hg : g ∈ ancestors fs f) :
    (∃ y, fs.frame? g = some y) ∧ fs.depth g ≤ fs.depth f ∧ (fs.depth g = fs.depth f → g = f) := by
  revert hg
  refine hs.induction (motive := fun f => g ∈ ancestors fs f → (∃ y, fs.frame? g = some y) ∧
    fs.depth g ≤ fs.depth f ∧ (fs.depth g = fs.depth f → g = f)) (fun f x hx hparent hg => ?_)
    (fun f x caller hx hparent ih hg => ?_) hx
  · rw [ancestors_top hx hparent, mem_singleton] at hg
    subst hg
    exact ⟨⟨x, hx⟩, le_rfl, fun _ => rfl⟩
  · rw [hs.ancestors_called hx hparent] at hg
    rcases mem_cons.1 hg with rfl | hg
    · exact ⟨⟨x, hx⟩, le_rfl, fun _ => rfl⟩
    · obtain ⟨hy, hle, -⟩ := ih hg
      have hdepth : fs.depth f = fs.depth caller + 1 := by
        cases hs f x hx with
        | top => cases hparent
        | called _ hz =>
          cases hparent
          rw [depth_eq hx, depth_eq hz]
      exact ⟨hy, by omega, fun heq => by omega⟩

/-! ### What a frame may enter -/

/-- Whether a function may be entered from a frame does not depend on frames that are added. -/
theorem Stacked.mayEnter_iff (hs : fs.Stacked p o) (hfs : fs.Extends fs')
    (hx : fs.frame? f = some x) : MayEnter p o fs' f callee ↔ MayEnter p o fs f callee := by
  have hstack : isOnStack fs' f callee = isOnStack fs f callee := by
    unfold isOnStack
    rw [hs.ancestors_eq hfs hx, Bool.eq_iff_iff]
    simp only [List.any_eq_true]
    refine exists_congr fun g => and_congr_right fun hg => ?_
    obtain ⟨⟨y, hy⟩, -⟩ := hs.mem_ancestors hx hg
    rw [hy, hfs _ _ hy]
  constructor
  · rintro ⟨henabled, hbody, hdepth, hinactive⟩
    exact ⟨henabled, hbody, depth_mono hfs hx ▸ hdepth, hstack ▸ hinactive⟩
  · rintro ⟨henabled, hbody, hdepth, hinactive⟩
    exact ⟨henabled, hbody, (depth_mono hfs hx).symm ▸ hdepth, hstack.symm ▸ hinactive⟩

theorem Stacked.nested_mono (hs : fs.Stacked p o) (hfs : fs.Extends fs') (h : Nested p o fs f x) :
    Nested p o fs' f x := by
  cases h with
  | top => exact .top
  | called hlt hy hblock hel hop hmay =>
    exact .called hlt (hfs _ _ hy) (hblock.mono hfs) hel hop ((hs.mayEnter_iff hfs hy).2 hmay)

/-- The first frame comes from somewhere. -/
theorem stacked_top (function : FunctionId) : (Frames.top ∅ function).2.Stacked p o := by
  intro f x hx
  obtain rfl := eq_of_frame?_top_empty hx
  exact .top

/-- So does a frame that may be entered. -/
theorem Stacked.call {args : List ExprId} {block : Block} {root : Bool} (hs : fs.Stacked p o)
    (hx : fs.frame? f = some x) (hblock : HasBlock p fs f site.block block)
    (hel : block.elements[site.index]? = some (.expr site.expr root))
    (hop : (p.expr site.expr).op = .call callee args) (hmay : MayEnter p o fs f callee) :
    (Frames.call fs f callee site).2.Stacked p o := by
  rw [call_eq hx]
  intro g y hy
  rcases get?_of_get?_intern hy with hold | ⟨hg, rfl⟩
  · exact hs.nested_mono (extends_add fs _) (hs g y hold)
  · refine hs.nested_mono (extends_add fs _) (.called ?_ hx hblock hel hop hmay)
    rw [hg]
    exact lt_size_of_get? hx

/-! ### The frames of a stack -/

/-- The functions of a frame and of all that wait for it. -/
def functionsOf (fs : Frames) (f : FrameId) : List FunctionId :=
  (ancestors fs f).filterMap fun g => (fs.frame? g).map (·.function)

section

variable (hs : fs.Stacked p o) (hx : fs.frame? f = some x)
include hs hx

/-- **No function is active twice.** -/
theorem Stacked.functions_nodup : (fs.functionsOf f).Nodup := by
  refine hs.induction (motive := fun f => (fs.functionsOf f).Nodup) (fun f x hx hparent => ?_)
    (fun f x caller hx hparent ih => ?_) hx
  · rw [functionsOf, ancestors_top hx hparent]
    simp only [filterMap_cons, hx, map_some, filterMap_nil, nodup_singleton]
  · rw [functionsOf, hs.ancestors_called hx hparent]
    simp only [filterMap_cons, hx, map_some]
    refine nodup_cons.2 ⟨fun hmem => ?_, ih⟩
    obtain ⟨g, hg, hfunction⟩ := mem_filterMap.1 hmem
    obtain ⟨y, hy, hsame⟩ := map_eq_some_iff.1 hfunction
    cases hs f x hx with
    | top => cases hparent
    | called _ _ _ _ _ hmay =>
      cases hparent
      refine Bool.false_ne_true (hmay.inactive.symm.trans (any_eq_true.2 ⟨g, hg, ?_⟩))
      rw [hy]
      exact beq_iff_eq.2 hsame

/-- Calls are followed to a limited depth. -/
theorem Stacked.depth_le : x.depth ≤ o.maxInlineDepth := by
  cases hs f x hx with
  | top => exact Nat.zero_le _
  | called _ hy _ _ _ hmay =>
    have hdepth := hmay.depth
    rw [depth_eq hy] at hdepth
    exact hdepth

/-- As many frames wait for a frame as it is deep. -/
theorem Stacked.length_ancestors : (ancestors fs f).length = fs.depth f + 1 := by
  refine hs.induction (motive := fun f => (ancestors fs f).length = fs.depth f + 1)
    (fun f x hx hparent => ?_) (fun f x caller hx hparent ih => ?_) hx
  · rw [ancestors_top hx hparent, depth_eq hx]
    cases hs f x hx with
    | top => rfl
    | called => cases hparent
  · rw [hs.ancestors_called hx hparent, length_cons, ih, depth_eq hx]
    cases hs f x hx with
    | top => cases hparent
    | called _ hy =>
      cases hparent
      rw [depth_eq hy]

/-- From a step of a block in a frame one frame is entered only. -/
theorem Stacked.frame_eq {caller : FrameId} {y : Frame} {site' : CallSite} (hy : fs.frame? g = some y)
    (hparent : x.parent = some caller) (hparent' : y.parent = some caller) (hsite : x.site = some site)
    (hsite' : y.site = some site') (hblock : site.block = site'.block)
    (hindex : site.index = site'.index) : f = g ∧ site = site' := by
  cases hs f x hx with
  | top => cases hparent
  | @called _ z _ _ _ _ _ _ hz hb hel hop _ =>
    cases hs g y hy with
    | top => cases hparent'
    | @called _ z' _ _ _ _ _ _ hz' hb' hel' hop' _ =>
      obtain ⟨b, i, e⟩ := site
      obtain ⟨b', i', e'⟩ := site'
      cases hparent
      cases hparent'
      cases hsite
      cases hsite'
      cases hblock
      cases hindex
      cases hz.symm.trans hz'
      cases hb.unique hb'
      cases hel.symm.trans hel'
      cases hop.symm.trans hop'
      exact ⟨congrArg FrameId.mk (get?_inj hx hy), rfl⟩

end

end Frames

end PathScout

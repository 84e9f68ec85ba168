import PathScout.Proofs.ScalarMemory

/-!
# What is marked stays

Marking only adds to what is marked, so that the objects of live variables and of pointers that the
environment holds keep their bindings when dead ones are removed.

* `Marks.Within`: what is marked, is marked still.
* `Marks.within_markReachable`, `Marks.mem_markReachable`: what following memory marks.
* `Study.liveMarks_spec`: the marks when a block is entered.
* `Study.Tame.removeDead`, `Study.Agrees.removeDead`: removing what is not marked.
-/

namespace PathScout

open List Naming OrderedMap

namespace Marks

variable {c : Catalog} {m m' m'' : Marks} {r : RegionId}

/-- All objects and symbols that are marked in one are marked in the other. -/
structure Within (m m' : Marks) : Prop where
  regions : ∀ r ∈ m.regions, r ∈ m'.regions
  symbols : ∀ x ∈ m.symbols, x ∈ m'.symbols

theorem Within.refl (m : Marks) : m.Within m := ⟨fun _ h => h, fun _ h => h⟩

theorem Within.trans (h : m.Within m') (h' : m'.Within m'') : m.Within m'' :=
  ⟨fun r hr => h'.regions r (h.regions r hr), fun x hx => h'.symbols x (h.symbols x hx)⟩

section

variable (m : Marks) (c : Catalog)

theorem within_markSymbol (s : SymbolId) : m.Within (m.markSymbol c s) :=
  ⟨fun _ h => h, fun _ h => mem_append_right _ h⟩

theorem within_markRegion (r : RegionId) : m.Within (m.markRegion c r) := by
  have hcons : m.Within { m with regions := c.base r :: m.regions } :=
    ⟨fun _ h => mem_cons_of_mem _ h, fun _ h => h⟩
  unfold markRegion
  dsimp only
  split
  · exact .refl m
  · split
    · exact hcons.trans (within_markSymbol _ c _)
    · exact hcons

theorem mem_markRegion (r : RegionId) : c.base r ∈ (m.markRegion c r).regions := by
  unfold markRegion
  dsimp only
  split
  · next h => exact contains_iff_mem.1 h
  · split <;> exact mem_cons_self

theorem within_markValue (v : Value) : m.Within (markValue c m v) := by
  -- marking a snapshot marks its bindings, so both are followed together
  refine markValue.induct c (fun m v => m.Within (markValue c m v))
    (fun object m bindings => m.Within (markBindings c object m bindings)) ?_ ?_ ?_ ?_
    (fun m _ => .refl m) (fun m _ => .refl m) (fun m => .refl m) (fun m => .refl m)
    (fun m _ => .refl m) (fun _ m => .refl m) ?_ m v
  · exact fun m r => within_markRegion m c r
  · exact fun m r => within_markRegion m c r
  · exact fun m s => within_markSymbol m c s
  · exact fun m bindings r ih => (within_markRegion m c r).trans ih
  · intro object m key v rest ihv ih
    refine Within.trans ?_ ih
    split
    · exact ihv
    · exact .refl m

theorem within_foldl {κ : Type} (es : List (κ × Value)) :
    m.Within (es.foldl (fun m e => markValue c m e.2) m) := by
  induction es generalizing m with
  | nil => exact .refl m
  | cons e es ih => exact (within_markValue m c e.2).trans (ih _)

theorem within_follow (pending : List (BindingKey × Value)) : m.Within (follow c m pending) := by
  fun_induction follow c m pending with
  | case1 m pending _ ih => exact (within_foldl m c _).trans ih
  | case2 m pending _ => exact .refl m

theorem within_markReachable (store : Store) (env : Environment) :
    m.Within (m.markReachable c store env) :=
  (within_foldl m c env.entries).trans (within_follow _ c _)

end

/-- What the environment points to is marked. -/
theorem mem_markReachable (m : Marks) (store : Store) {env : Environment} {key : EnvKey}
    (h : env.get? key = some (.pointer r)) :
    c.base r ∈ (m.markReachable c store env).regions := by
  refine (within_follow _ c _).regions _ ?_
  have hmem := mem_of_lookup_eq h
  generalize env.entries = es at hmem
  induction es generalizing m with
  | nil => cases hmem
  | cons e es ih =>
    rcases mem_cons.1 hmem with rfl | hmem
    · exact (within_foldl _ c es).regions _ (mem_markRegion m c r)
    · exact ih _ hmem

theorem isLiveRegion_of_mem (h : c.base r ∈ m.regions) : m.isLiveRegion c r = true := by
  rw [isLiveRegion, isLiveRegionBy, contains_iff_mem.2 h]
  rfl

end Marks

namespace Study

variable {k : Study} {c d z : Catalog} {P : Symbol → Prop} {s : State} {m : Marks} {κ : Config}
  {α : Assignment} {live : VarId → Prop}

/-- The regions of live variables and all that the environment points to are marked. -/
structure Marked (k : Study) (c : Catalog) (live : VarId → Prop) (env : Environment) (m : Marks) :
    Prop where
  live {x : VarId} : x ∈ k.vars → live x → ∃ r, c.IsVar topFrame x r ∧ r ∈ m.regions
  pointer {e : ExprId} {x : VarId} {r : RegionId} : c.IsVar topFrame x r →
    env.get? (.expr topFrame e) = some (.pointer r) → r ∈ m.regions

/-- Only the regions of variables are pointed to. -/
theorem TameEnv.isVar_of_pointer {env : Environment} {e : ExprId} {r : RegionId}
    (h : k.TameEnv c P env) (hr : env.get? (.expr topFrame e) = some (.pointer r)) :
    ∃ x, c.IsVar topFrame x r := by
  by_cases he : k.IsNumeric e
  · cases h.number hr he
  · obtain ⟨x, hx⟩ := not_forall.1 he
    obtain ⟨q, hq, hv⟩ := h.name hr (not_not.1 hx)
    cases hv
    exact ⟨x, hq⟩

/-- Marks the region of a variable. -/
def markVar (m : Marks) (v : VarId) : Naming Marks := do
  let r ← var v topFrame
  query fun c => Marks.markRegion m c r

/-- Marking variables marks the region of each of them. -/
theorem markVars_spec (hc : k.Regular c) (vars : List VarId) (m : Marks) :
    let out := vars.foldlM markVar m c
    c ≤ out.2 ∧ k.Regular out.2 ∧ m.Within out.1 ∧
      ∀ x ∈ vars, ∃ r, out.2.IsVar topFrame x r ∧ r ∈ out.1.regions := by
  induction vars generalizing c m with
  | nil => exact ⟨le_rfl, hc, .refl m, fun _ h => nomatch h⟩
  | cons v vars ih =>
    have hvar := Catalog.isVar_var v topFrame c
    obtain ⟨hle, hreg, hwithin, hmarked⟩ := ih (hc.var v topFrame)
      (m.markRegion (var v topFrame c).2 (var v topFrame c).1)
    refine ⟨(grows_var v topFrame c).trans hle, hreg,
      (Marks.within_markRegion m _ _).trans hwithin, fun x hx => ?_⟩
    rcases mem_cons.1 hx with rfl | hx
    · refine ⟨_, hvar.mono hle, hwithin.regions _ ?_⟩
      have h := Marks.mem_markRegion m (var x topFrame c).2 (var x topFrame c).1
      rwa [hvar.base_eq] at h
    · exact hmarked x hx

/-- Marking what is still needed when a block is entered. -/
theorem markReachable_spec (hc : k.Regular c) (vars : List VarId)
    (hlive : ∀ x ∈ k.vars, live x → x ∈ vars) :
    let out := (do
      let m ← vars.foldlM markVar {}
      query fun c => m.markReachable c s.store s.env : Naming Marks) c
    c ≤ out.2 ∧ k.Regular out.2 ∧ k.Marked out.2 live s.env out.1 := by
  obtain ⟨hle, hreg, -, hmarked⟩ := markVars_spec hc vars {}
  refine ⟨hle, hreg, fun {x} hx hl => ?_, fun {e x r} hr he => ?_⟩
  · obtain ⟨r, hr, hmem⟩ := hmarked x (hlive x hx hl)
    exact ⟨r, hr, (Marks.within_markReachable _ _ _ _).regions r hmem⟩
  · rw [← hr.base_eq]
    exact Marks.mem_markReachable _ s.store he

theorem Tame.removeDead (h : k.Tame c P s) (d : Catalog) (m : Marks) :
    k.Tame c P (s.removeDead d m) where
  env := h.env
  store := h.store.filter fun b => m.isLiveRegion d b.region
  constraints x rs hx := by
    rw [show (s.removeDead d m).constraints.get? x = _ from
      get?_filter fun x : SymbolId => m.isLiveSymbol d x] at hx
    split at hx
    · exact h.constraints x rs hx
    · cases hx
  heap := h.heap

/-- Removing what is not marked removes nothing that is still needed. -/
theorem Agrees.removeDead (h : k.Agrees z live s κ α) (hm : k.Marked c live s.env m)
    (hcd : c ≤ d) (hdz : d ≤ z) (henv : k.TameEnv c P s.env) :
    k.Agrees z live (s.removeDead d m) κ α where
  int := h.int
  place := h.place
  result := h.result
  noResult := h.noResult
  var {x n r} hx hn hneed hr := by
    have hmem : d.base r ∈ m.regions := by
      rcases hneed with hlive | ⟨e, he, -⟩
      · obtain ⟨q, hq, hmem⟩ := hm.live hx hlive
        obtain rfl := hr.unique (hq.mono (hcd.trans hdz))
        rwa [(hq.mono hcd).base_eq]
      · obtain ⟨-, q, hq, hv⟩ := h.place he
        obtain rfl := hr.unique hq
        obtain ⟨y, hy⟩ := henv.isVar_of_pointer hv
        rw [(hy.mono hcd).base_eq]
        exact hm.pointer hy hv
    have hkeep := Marks.isLiveRegion_of_mem hmem
    refine (h.var hx hn hneed hr).congr ?_ ?_
    iterate 2
      · exact (get?_filter fun b : BindingKey => m.isLiveRegion d b.region).trans
          (if_pos hkeep)
  range {x rs} hx := by
    rw [show (s.removeDead d m).constraints.get? x = _ from
      get?_filter fun x : SymbolId => m.isLiveSymbol d x] at hx
    split at hx
    · exact h.range hx
    · cases hx
  intDomain := h.intDomain
  varDomain := h.varDomain

end Study

end PathScout

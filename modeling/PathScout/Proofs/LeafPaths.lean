import PathScout.Proofs.ByteLayout
import PathScout.Proofs.NamingLaws

/-!
# Paths to the scalars of an object

A path of fields and elements leads from an object of some type down to one of its scalars. Along the
path each region encloses the next one, so the regions on the way spell the path, and two paths from one
object lead to different regions.

* `InitStep.regionIn`, `InitStep.typeIn`, `InitStep.InBounds`: one step into an object of a type.
* `Program.Leaf`: the paths to scalars that a type has.
* `State.partAt_cons`: the region at a path is named step by step.
* `Catalog.Route`: the regions on the way. `Catalog.route_partAt`, `Catalog.Route.path_eq`.
-/

namespace PathScout

open Naming

/-! ### Steps -/

namespace InitStep

variable {c : Catalog} {p : Program} {r : RegionId} {t : CType} {step step' : InitStep}

/-- The part of a region of type `t` that a step leads to. -/
def regionIn (t : CType) (r : RegionId) : InitStep → Region
  | .element n => .element (t.element?.getD .int) (.known n) r
  | .field f => .field f r

/-- The type of the part of an object of type `t` that a step leads to. -/
def typeIn (p : Program) (t : CType) : InitStep → CType
  | .element _ => t.element?.getD .int
  | .field f => (p.field f).type

/-- The type declares the part that the step leads to. -/
inductive InBounds (p : Program) : CType → InitStep → Prop where
  | element {t : CType} {size : Option Nat} {n : Nat} : n < size.getD 0 →
    InBounds p (.array t size) (.element n)
  | field {name : String} {f : FieldId} : p.structNamed? name = some f.owner →
    f.index < (p.struct f.owner).fields.length → InBounds p (.struct name) (.field f)

@[simp] theorem isPart_regionIn (t : CType) (r : RegionId) (step : InitStep) :
    (step.regionIn t r).isPart = true := by
  cases step <;> rfl

@[simp] theorem parent?_regionIn (t : CType) (r : RegionId) (step : InitStep) :
    (step.regionIn t r).parent? = some r := by
  cases step <;> rfl

/-- Different steps lead to different parts. -/
theorem regionIn_injective (h : step.regionIn t r = step'.regionIn t r) : step = step' := by
  cases step <;> cases step' <;> simp_all [regionIn]

theorem InBounds.declares (h : step.InBounds c.program t) (r : RegionId) :
    c.Declares t (step.regionIn t r) (step.typeIn c.program t) := by
  cases h with
  | element hn => exact .element hn
  | field hs hf => exact .field hs hf

theorem InBounds.isScalar_eq (h : step.InBounds p t) : t.isScalar = false := by
  cases h <;> rfl

end InitStep

/-- A path leads from an object of one type to a scalar of another type in it, by steps that the types
declare. -/
inductive Program.Leaf (p : Program) : CType → List InitStep → CType → Prop where
  | scalar {t : CType} : t.isScalar = true → Leaf p t [] t
  | part {t u : CType} {step : InitStep} {path : List InitStep} : step.InBounds p t →
    Leaf p (step.typeIn p t) path u → Leaf p t (step :: path) u

theorem Program.Leaf.isScalar {p : Program} {t u : CType} {path : List InitStep}
    (h : p.Leaf t path u) : u.isScalar = true := by
  induction h with
  | scalar h => exact h
  | part _ _ ih => exact ih

/-! ### Regions on a path -/

section

variable {c d : Catalog} {b r q : RegionId} {t : CType} {step : InitStep} {path path' : List InitStep}

/-- The region at a path is named step by step. -/
theorem State.partAt_cons (r : RegionId) (t : CType) (step : InitStep) (path : List InitStep)
    (c : Catalog) : State.partAt r t (step :: path) c =
      State.partAt (region (step.regionIn t r) c).1 (step.typeIn c.program t) path
        (region (step.regionIn t r) c).2 := by
  cases step <;> rfl

namespace Catalog

/-- The region is the one at a path from an object of type `t`: each region on the way encloses the
next one. -/
inductive Route (c : Catalog) : RegionId → CType → List InitStep → RegionId → Prop where
  | here {b : RegionId} {t : CType} : c.Has b → Route c b t [] b
  | step {b q r : RegionId} {t : CType} {step : InitStep} {path : List InitStep} : c.Has b → c.Has q →
    c.region q = step.regionIn t b → Route c q (step.typeIn c.program t) path r →
    Route c b t (step :: path) r

/-- A part of a region that has a number may be named. -/
theorem placed_regionIn (hr : c.Has r) (t : CType) (step : InitStep) :
    Naming.Placed c (step.regionIn t r) where
  has h := by
    rw [InitStep.parent?_regionIn] at h
    exact Option.some.inj h ▸ hr
  inSpace h := by simp at h

theorem wellFormed_regionIn (hc : c.WellFormed) (hr : c.Has r) (t : CType) (step : InitStep) :
    (Naming.region (step.regionIn t r) c).2.WellFormed :=
  wellFormed_region hc (placed_regionIn hr t step)

/-- Two regions that enclose a third one and lie directly in a fourth one are the same. -/
theorem eq_of_mem_chain_of_parent? {q' : RegionId} (hc : c.WellFormed)
    (hq : (c.region q).parent? = some b) (hq' : (c.region q').parent? = some b)
    (hmem : q ∈ c.chain r) (hmem' : q' ∈ c.chain r) : q = q' := by
  have inner : ∀ {m n : RegionId}, (c.region m).parent? = some b → (c.region n).parent? = some b →
      m ∈ c.chain n → m = n := fun {m n} hm hn hmn => by
    rw [chain_of_some (p := b) (by rw [hc.enclosing?_eq, hn])] at hmn
    rcases List.mem_cons.1 hmn with rfl | hmb
    · rfl
    · have := hc.older hm
      have := index_le_of_mem_chain hmb
      omega
  rcases mem_chain_total hmem hmem' with h | h
  · exact inner hq hq' h
  · exact (inner hq' hq h).symm

/-- **Naming the region at a path.** -/
theorem route_partAt (hc : c.WellFormed) (hb : c.Has b) (t : CType) (path : List InitStep) :
    (State.partAt b t path c).2.WellFormed ∧ c ≤ (State.partAt b t path c).2 ∧
      (State.partAt b t path c).2.Route b t path (State.partAt b t path c).1 := by
  induction path generalizing b t c with
  | nil => exact ⟨hc, le_rfl, .here hb⟩
  | cons step path ih =>
    have hstep : c ≤ (Naming.region (step.regionIn t b) c).2 := Naming.grows_region _ c
    have hq := has_region (step.regionIn t b) c
    obtain ⟨hwell, hgrows, hroute⟩ := ih (wellFormed_regionIn hc hb t step) hq (step.typeIn c.program t)
    rw [State.partAt_cons]
    refine ⟨hwell, hstep.trans hgrows, .step (hb.mono (hstep.trans hgrows)) (hq.mono hgrows) ?_ ?_⟩
    · rw [region_mono hgrows hq, region_region]
    · rwa [(hstep.trans hgrows).program]

namespace Route

theorem mono (h : c.Route b t path r) (hcd : c ≤ d) : d.Route b t path r := by
  induction h with
  | here hb => exact .here (hb.mono hcd)
  | @step b q r t s path hb hq hregion _ ih =>
    refine .step (hb.mono hcd) (hq.mono hcd) ((region_mono hcd hq).trans hregion) ?_
    rwa [hcd.program]

/-- The region at a path has one number. -/
theorem partAt_eq (h : c.Route b t path r) : State.partAt b t path c = (r, c) := by
  induction h with
  | here _ => rfl
  | step _ hq hregion _ ih => rw [State.partAt_cons, region_of_region_eq hq hregion, ih]

/-- A path leads to parts of the object where it starts. -/
theorem start_mem_chain (hc : c.WellFormed) (h : c.Route b t path r) : b ∈ c.chain r := by
  induction h with
  | here _ => exact mem_chain_self
  | @step b q r t s path _ hq hregion _ ih =>
    refine mem_chain_trans ih ?_
    rw [chain_of_some (p := b) (by rw [hc.enclosing?_eq, hregion, s.parent?_regionIn])]
    exact List.mem_cons_of_mem _ mem_chain_self

/-- What is at the end of a path is not older than where the path starts. -/
theorem index_le (hc : c.WellFormed) (h : c.Route b t path r) : b.index ≤ r.index :=
  index_le_of_mem_chain (h.start_mem_chain hc)

/-- Two paths from one object to one region are the same. -/
theorem path_eq (hc : c.WellFormed) (h : c.Route b t path r) (h' : c.Route b t path' r) :
    path = path' := by
  induction h generalizing path' with
  | here _ =>
    cases h' with
    | here _ => rfl
    | @step _ q _ _ s _ _ _ hregion hrest =>
      have := hc.older (by rw [hregion, s.parent?_regionIn] : (c.region q).parent? = some _)
      have := hrest.index_le hc
      omega
  | @step b q r t s path _ hq hregion hrest ih =>
    have hparent : (c.region q).parent? = some b := by rw [hregion, s.parent?_regionIn]
    cases h' with
    | here _ =>
      have := hc.older hparent
      have := hrest.index_le hc
      omega
    | @step _ q' _ _ s' path' _ hq' hregion' hrest' =>
      have hparent' : (c.region q').parent? = some b := by rw [hregion', s'.parent?_regionIn]
      -- both regions enclose the one at the end, and lie directly in the same one
      have hsame : q = q' := eq_of_mem_chain_of_parent? hc hparent hparent'
        (hrest.start_mem_chain hc) (hrest'.start_mem_chain hc)
      subst hsame
      obtain rfl : s = s' := InitStep.regionIn_injective (hregion.symm.trans hregion')
      rw [ih hrest']

end Route

end Catalog

end

end PathScout

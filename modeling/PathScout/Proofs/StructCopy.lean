import PathScout.Proofs.StoreLaws

/-!
# Copies of structures

Assigning a structure binds the target to a snapshot of memory. A part of the target is then read
at the same path in the snapshot, so it has the value that the part of the source had, and later
writes to the source do not change it. There is one exception: reading a structure that was itself
assigned as a whole gives the snapshot that it was assigned, without what was written to its parts
since.

* `Catalog.Leads`: a path of fields and elements from a region to a part of it.
* `Store.copied`: the snapshot that reading a structure gives.
* `Store.WritesIn`: writes at or inside a region, while the catalog may grow.
* `Store.retrieve_copy`: what a part of the target holds, and when it is what the source held.
-/

namespace PathScout

open List Naming OrderedMap

/-! ### Paths -/

/-- A step from a region to a part of it. -/
inductive PathStep where
  | field (field : FieldId)
  | element (type : CType) (n : Int)
deriving DecidableEq

/-- The part of a region that a step leads to. -/
def PathStep.part (parent : RegionId) : PathStep → Region
  | field f => .field f parent
  | element t n => .element t (.known n) parent

/-- The path, with its last step first, leads from the region `r` to its part. -/
inductive Catalog.Leads (c : Catalog) (r : RegionId) : List PathStep → RegionId → Prop where
  | here : Leads c r [] r
  | step {path : List PathStep} {m q : RegionId} (s : PathStep) :
    Leads c r path m → c.region q = s.part m → Leads c r (s :: path) q

/-- Names the part that a path leads to. -/
def Naming.follow (path : List PathStep) (r : RegionId) : Naming RegionId :=
  path.foldrM (fun s below => region (s.part below)) r

namespace Catalog

variable {c : Catalog} {r q m : RegionId} {path : List PathStep} {s : PathStep}

theorem isPart_of_region_eq_part (h : c.region q = s.part m) : (c.region q).isPart = true := by
  rw [h]
  cases s <;> rfl

theorem enclosing?_of_region_eq_part (hc : c.WellFormed) (h : c.region q = s.part m) :
    c.enclosing? q = some m := by
  rw [hc.enclosing?_eq, h]
  cases s <;> rfl

theorem Leads.mem_chain (hc : c.WellFormed) (h : c.Leads r path q) : r ∈ c.chain q := by
  induction h with
  | here => exact mem_chain_self
  | step s _ hq ih =>
    rw [chain_of_some (enclosing?_of_region_eq_part hc hq)]
    exact mem_cons_of_mem _ ih

theorem Leads.mem_layers (hc : c.WellFormed) (h : c.Leads r path q) : r ∈ c.layers q := by
  induction h with
  | here => exact mem_layers_self hc r
  | step _ _ hq ih =>
    rw [layers_of_part (isPart_of_region_eq_part hq) (enclosing?_of_region_eq_part hc hq)]
    exact mem_cons_of_mem _ ih

/-- The regions between a part and the region that a path leads to it from. -/
theorem Leads.step_takeWhile (hc : c.WellFormed) (h : c.Leads r path m) (hq : c.region q = s.part m) :
    (c.chain q).takeWhile (· != r) = q :: (c.chain m).takeWhile (· != r) := by
  have he := enclosing?_of_region_eq_part hc hq
  have hne : q ≠ r := fun e => by
    have := index_le_of_mem_chain (h.mem_chain hc)
    have := enclosing?_lt he
    subst e
    omega
  rw [chain_of_some he, takeWhile_cons, if_pos (bne_iff_ne.2 hne)]

/-- Moving a part to another region follows the same path there. -/
theorem Leads.rebase_eq (hc : c.WellFormed) (h : c.Leads r path q) (onto : RegionId) :
    rebase q r onto c = follow path onto c := by
  unfold rebase
  rw [bind_apply, query_apply]
  refine congrFun (a := c) ?_
  induction h with
  | here =>
    have hr : (c.chain r).takeWhile (· != r) = [] := by
      cases hr : c.enclosing? r with
      | none => simp [chain_of_none hr]
      | some p => simp [chain_of_some hr]
    rw [hr]
    rfl
  | step s hm hq ih =>
    rw [hm.step_takeWhile hc hq, map_cons, foldrM_cons, ih, follow, follow,
      foldrM_cons, hq]
    cases s <;> rfl

/-- A part that has a number is found by its path, and nothing is added. -/
theorem Leads.follow_eq (h : c.Leads r path q) : follow path r c = (q, c) := by
  induction h with
  | here => rfl
  | step s _ hq ih =>
    rw [follow, foldrM_cons, bind_apply, ← follow, ih]
    exact region_of_region_eq (has_of_isPart (isPart_of_region_eq_part hq)) hq

end Catalog

namespace Store

variable {c d e : Catalog} {s s' : Store} {r q m r₁ r₂ q₁ q₂ source : RegionId} {t : CType}
  {path : List PathStep} {inner : List (BindingKey × Value)} {k : BindingKey} {v : Value}

/-! ### Reading below a snapshot -/

/-- Nothing is bound to the part, and there is no default for it in the region. -/
def Untouched (s : Store) (c : Catalog) (r q : RegionId) : Prop :=
  s.direct? q = none ∧ ∀ m ∈ c.chain q, r ∈ c.chain m → m ≠ r → s.default? m = none

/-- A part that was not touched since its whole was set to a snapshot is read in the snapshot. -/
theorem retrieve_of_untouched (hc : c.WellFormed) (hq : c.Leads r path q)
    (hr : s.default? r = some (.snapshot inner source)) (h : s.Untouched c r q)
    (ht : t.isScalar = true) :
    s.retrieve (.region q) t c =
      retrieveFrom inner (follow path source c).1 t (follow path source c).2 := by
  have hn : nearestDefault? c s.bindings.entries q = some (r, .snapshot inner source) :=
    nearestDefault?_of_mem_layers hc (hq.mem_layers hc) hr fun m hm =>
      h.2 m (Catalog.mem_chain_of_mem_layers hm)
  rw [retrieve, retrieveFrom_of_snapshot ht h.1 hn, hq.rebase_eq hc]

/-! ### Copying -/

/-- The snapshot that reading a structure gives: the one that it was last set to as a whole, else
memory as it is. -/
def copied (s : Store) (r : RegionId) : List (BindingKey × Value) × RegionId :=
  match s.default? r with
  | some (.snapshot inner source) => (inner, source)
  | _ => (s.bindings.entries, r)

theorem retrieve_struct (ht : t.isStruct = true) (hr : s.direct? r = none) :
    s.retrieve (.region r) t c = (.snapshot (s.copied r).1 (s.copied r).2, c) := by
  have hl : OrderedMap.lookup (.direct r) s.bindings.entries = none := hr
  rw [retrieve, retrieveFrom, if_pos ht, hl]
  simp only [copied, default?, OrderedMap.get?]
  split <;> simp_all

/-- Writes at or inside a region, one after the other, while the catalog may grow. -/
inductive WritesIn (r : RegionId) (c : Catalog) (s : Store) : Catalog → Store → Prop where
  | refl : WritesIn r c s c s
  | grow {d e : Catalog} {s' : Store} : WritesIn r c s d s' → d ≤ e → WritesIn r c s e s'
  | write {d : Catalog} {s' : Store} {q : RegionId} (v : Value) :
    WritesIn r c s d s' → r ∈ d.chain q → WritesIn r c s d (s'.bind d (.region q) v)

theorem WritesIn.le (h : WritesIn r c s d s') : c ≤ d := by
  induction h with
  | refl => exact le_rfl
  | grow _ hde ih => exact ih.trans hde
  | write _ _ _ ih => exact ih

/-- Writes at or inside a region change no binding of what lies elsewhere. -/
theorem WritesIn.get?_eq (h : WritesIn r c s d s') (hde : d ≤ e) (hr : r ∉ e.chain k.region) :
    s'.bindings.get? k = s.bindings.get? k := by
  induction h with
  | refl => rfl
  | grow _ hd ih => exact ih (hd.trans hde)
  | write v _ hq ih =>
    rw [get?_bind_of_not_mem fun hk => ?_, ih hde]
    exact hr (Catalog.mem_chain_mono hde (Catalog.mem_chain_trans hk hq))

section

variable (hs : s.NamedIn c) (h₁₂ : r₁ ∉ d.chain r₂) (h₂₁ : r₂ ∉ d.chain r₁)
  (h : WritesIn r₁ c (s.bind c (.region r₂) (.snapshot inner source)) d s')
include hs h₁₂ h₂₁ h

/-- The target of a copy holds the snapshot and nothing else, also after writes to the source. -/
theorem get?_copy (hk : r₂ ∈ d.chain k.region) :
    s'.bindings.get? k = if k = .default r₂ then some (.snapshot inner source) else none := by
  have hk1 : r₁ ∉ d.chain k.region := fun hk1 => (Catalog.mem_chain_total hk1 hk).elim h₁₂ h₂₁
  rw [h.get?_eq le_rfl hk1, bind_eq_kill_insert rfl, get?_insert, get?_kill]
  split
  · rfl
  · split
    · rfl
    · next hc =>
      -- what was bound before had its place already when the target was cleared
      cases hv : s.bindings.get? k with
      | none => rfl
      | some v => exact absurd (Catalog.chain_mono h.le (hs.has hv) ▸ hk) hc

theorem untouched_copy (hq : r₂ ∈ d.chain q) : s'.Untouched d r₂ q := by
  refine ⟨?_, fun m _ hm hne => ?_⟩
  · rw [direct?, get?_copy hs h₁₂ h₂₁ h hq, if_neg (BindingKey.direct_ne_default _ _)]
  · rw [default?, get?_copy hs h₁₂ h₂₁ h hm, if_neg fun e => hne (congrArg BindingKey.region e)]

end

/-- A part of the target is read in the snapshot, also after writes to the source. -/
theorem retrieve_copy_snapshot (hd : d.WellFormed) (hs : s.NamedIn c) (h₁₂ : r₁ ∉ d.chain r₂)
    (h₂₁ : r₂ ∉ d.chain r₁) (hq : d.Leads r₂ path q) (ht : t.isScalar = true)
    (h : WritesIn r₁ c (s.bind c (.region r₂) (.snapshot inner source)) d s') :
    s'.retrieve (.region q) t d =
      retrieveFrom inner (follow path source d).1 t (follow path source d).2 := by
  have hcopy : s'.default? r₂ = some (.snapshot inner source) := by
    rw [default?, get?_copy hs h₁₂ h₂₁ h Catalog.mem_chain_self, if_pos rfl]
  exact retrieve_of_untouched hd hq hcopy (untouched_copy hs h₁₂ h₂₁ h (hq.mem_chain hd)) ht

/-- **A structure is copied with all its parts.** Assign the structure `r₁` to `r₂`, neither of
which is the other or a part of it, and write to `r₁` and its parts afterwards. A scalar part of
`r₂` then has the value of the same part in the snapshot that reading `r₁` gave. This is what the
part of `r₁` held when it was assigned, unless `r₁` was set to a snapshot before and the part of it
was written to since. -/
theorem retrieve_copy (hd : d.WellFormed) (hs : s.NamedIn c) (h₁₂ : r₁ ∉ d.chain r₂)
    (h₂₁ : r₂ ∉ d.chain r₁) (hq₁ : d.Leads r₁ path q₁) (hq₂ : d.Leads r₂ path q₂) {struct : CType}
    (hstruct : struct.isStruct = true) (ht : t.isScalar = true) (hr : s.direct? r₁ = none)
    (h : WritesIn r₁ c (s.bind c (.region r₂) (s.retrieve (.region r₁) struct c).1) d s') :
    (s'.retrieve (.region q₂) t d =
        let part := follow path (s.copied r₁).2 d
        retrieveFrom (s.copied r₁).1 part.1 t part.2) ∧
      ((∀ v, s.default? r₁ = some v → v.isSnapshot = true → s.Untouched d r₁ q₁) →
        s'.retrieve (.region q₂) t d = s.retrieve (.region q₁) t d) := by
  rw [retrieve_struct hstruct hr] at h
  have hread := retrieve_copy_snapshot hd hs h₁₂ h₂₁ hq₂ ht h
  refine ⟨hread, fun hu => hread.trans ?_⟩
  cases hv : s.default? r₁ with
  | none => rw [copied, hv, hq₁.follow_eq, retrieve]
  | some v =>
    cases v with
    | snapshot inner source =>
      rw [copied, hv, retrieve_of_untouched hd hq₁ hv (hu _ hv rfl) ht]
    | _ => rw [copied, hv, hq₁.follow_eq, retrieve]

/-! ### A structure that was assigned before -/

/-- A program with three local variables `a`, `b` and `c` of a structure type with one field. -/
def structProgram : Program where
  file := ""
  vars := #[⟨"a", .struct "S", .local, none, default⟩, ⟨"b", .struct "S", .local, none, default⟩,
    ⟨"c", .struct "S", .local, none, default⟩]
  structs := #[⟨"S", [⟨"f", .int⟩], default⟩]

/-- The variables `a`, `b` and `c` are the regions 1, 2 and 3, and their fields 4, 5 and 6. -/
def structCatalog : Catalog where
  program := structProgram
  regions := .ofList
    [.space (.locals ⟨0⟩), .var ⟨0⟩ ⟨0⟩, .var ⟨1⟩ ⟨0⟩, .var ⟨2⟩ ⟨0⟩, .field ⟨⟨0⟩, 0⟩ ⟨1⟩,
      .field ⟨⟨0⟩, 0⟩ ⟨2⟩, .field ⟨⟨0⟩, 0⟩ ⟨3⟩] (by decide)
  symbols := ∅

/-- Assigns one of the variables to another. -/
def assign (s : Store) (target source : RegionId) : Store :=
  s.bind structCatalog (.region target) (s.retrieve (.region source) (.struct "S") structCatalog).1

/-- Memory after `b.f = 1; a = b`. -/
def assigned : Store :=
  assign (({} : Store).bind structCatalog (.region ⟨5⟩) (.int 1)) ⟨1⟩ ⟨2⟩

/-- The field of `c` after `b.f = 1; a = b; c = a; a.f = 5` is what the field of `a` was. -/
theorem retrieve_copy_of_copy :
    let s := (assign assigned ⟨3⟩ ⟨1⟩).bind structCatalog (.region ⟨4⟩) (.int 5)
    structCatalog.WellFormed ∧ assigned.NamedIn structCatalog ∧
      assigned.Untouched structCatalog ⟨1⟩ ⟨4⟩ ∧
      s.retrieve (.region ⟨6⟩) .int structCatalog =
        assigned.retrieve (.region ⟨4⟩) .int structCatalog := by
  have hc : structCatalog.WellFormed := by decide
  have hnamed : assigned.NamedIn structCatalog := by decide +kernel
  have hchain : structCatalog.chain ⟨4⟩ = [⟨4⟩, ⟨1⟩, ⟨0⟩] := by decide +kernel
  have hu : assigned.Untouched structCatalog ⟨1⟩ ⟨4⟩ := by
    refine ⟨by decide +kernel, fun m hm _ hne => ?_⟩
    rw [hchain] at hm
    fin_cases hm
    · decide +kernel
    · exact absurd rfl hne
    · decide +kernel
  refine ⟨hc, hnamed, hu, ?_⟩
  exact (retrieve_copy hc hnamed (by decide +kernel) (by decide +kernel)
    (.step (.field ⟨⟨0⟩, 0⟩) .here rfl) (.step (.field ⟨⟨0⟩, 0⟩) .here rfl) rfl rfl (by decide +kernel)
    (.write (.int 5) .refl (by rw [hchain]; decide))).2 fun _ _ _ => hu

/-- A copy of a copy that was changed is not a copy of it: after `b.f = 1; a = b; a.f = 5; c = a`
the field of `c` is still one. -/
theorem retrieve_copy_of_changed_copy :
    let s := assigned.bind structCatalog (.region ⟨4⟩) (.int 5)
    ((assign s ⟨3⟩ ⟨1⟩).retrieve (.region ⟨6⟩) .int structCatalog).1 = .int 1 ∧
      (s.retrieve (.region ⟨4⟩) .int structCatalog).1 = .int 5 := by
  decide +kernel

end Store

end PathScout

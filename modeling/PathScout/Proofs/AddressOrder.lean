import PathScout.Proofs.LeafPaths
import PathScout.Proofs.PointerArithmetic
import PathScout.Proofs.SymbolLaws

/-!
# The order of addresses in an object

The scalars of an object lie apart: each covers a range of bytes of its own, which is counted from the
sizes of the fields and elements before it. If the object is no larger than a word can count, the offset
of every scalar is known, and pointers to two of them compare as their offsets do.

* `InitStep.offsetIn`, `Program.leafOffset`: how far the part at a path lies behind the start.
* `Program.Leaf.within`, `Program.Leaf.apart`: the bytes of the scalars of a type.
* `Catalog.offset?_of_route`: the catalog computes this offset.
* `Catalog.leaves_apart_and_ordered`: the bytes and the order of two scalars of one object.
-/

namespace PathScout

open Program List Naming Option

/-! ### Bytes of the parts -/

/-- Structures that hold earlier ones only do not contain themselves. -/
theorem Program.acyclic_of_older {p : Program}
    (h : ∀ s s', p.Holds s s' → s'.index < s.index) : p.Acyclic := by
  have hlt : ∀ {s s'}, Relation.TransGen p.Holds s s' → s'.index < s.index := fun hs => by
    induction hs with
    | single hs => exact h _ _ hs
    | tail _ hs ih => exact (h _ _ hs).trans ih
  exact fun s hs => (hlt hs).false

/-- How far the part that a step leads to lies behind the start of an object of type `t`: the sizes of the
fields before it, or the size of an element for each element before it. -/
def InitStep.offsetIn (p : Program) (t : CType) : InitStep → Nat
  | .element n => n * p.byteSize (t.element?.getD .int)
  | .field f => p.fieldOffset f

/-- How far the part at a path lies behind the start of an object of type `t`. -/
def Program.leafOffset (p : Program) (t : CType) : List InitStep → Nat
  | [] => 0
  | step :: path => step.offsetIn p t + p.leafOffset (step.typeIn p t) path

namespace InitStep.InBounds

variable {c : Catalog} {t : CType} {step step' : InitStep}

theorem partDisplacement_eq (σ : SymbolId → Int) (t : CType) (r : RegionId) (step : InitStep) :
    c.partDisplacement σ (step.regionIn t r) = step.offsetIn c.program t := by
  cases step <;> simp [regionIn, Catalog.partDisplacement, offsetIn]

theorem within (hp : c.program.Acyclic) (h : step.InBounds c.program t) :
    step.offsetIn c.program t + c.program.byteSize (step.typeIn c.program t) ≤
      c.program.byteSize t := by
  have := ((h.declares ⟨0⟩).within (σ := 0) hp).2
  rw [partDisplacement_eq] at this
  exact_mod_cast this

/-- Two different steps lead to parts that lie apart. -/
theorem apart (h : step.InBounds c.program t) (h' : step'.InBounds c.program t) (hne : step ≠ step') :
    step.offsetIn c.program t + c.program.byteSize (step.typeIn c.program t) ≤
        step'.offsetIn c.program t ∨
      step'.offsetIn c.program t + c.program.byteSize (step'.typeIn c.program t) ≤
        step.offsetIn c.program t := by
  have := (h.declares ⟨0⟩).apart (σ := 0) (h'.declares ⟨0⟩) (by simp)
    fun heq => hne (regionIn_injective heq)
  rw [partDisplacement_eq, partDisplacement_eq] at this
  exact_mod_cast this

end InitStep.InBounds

namespace Program.Leaf

variable {c : Catalog} {t u u' : CType} {path path' : List InitStep}

/-- A scalar ends inside its object. -/
theorem within (hp : c.program.Acyclic) (h : c.program.Leaf t path u) :
    c.program.leafOffset t path + c.program.byteSize u ≤ c.program.byteSize t := by
  induction h with
  | scalar _ => exact (Nat.zero_add _).le
  | part hstep _ ih =>
    have := hstep.within hp
    rw [leafOffset]
    omega

/-- Two scalars of an object have no byte in common. -/
theorem apart (hp : c.program.Acyclic) (h : c.program.Leaf t path u) (h' : c.program.Leaf t path' u')
    (hne : path ≠ path') :
    c.program.leafOffset t path + c.program.byteSize u ≤ c.program.leafOffset t path' ∨
      c.program.leafOffset t path' + c.program.byteSize u' ≤ c.program.leafOffset t path := by
  induction h generalizing path' with
  | scalar ht =>
    cases h' with
    | scalar _ => exact absurd rfl hne
    | part hstep _ => exact absurd ht (by rw [hstep.isScalar_eq]; decide)
  | @part t u step path hstep hrest ih =>
    cases h' with
    | scalar ht => exact absurd ht (by rw [hstep.isScalar_eq]; decide)
    | @part _ _ step' path' hstep' hrest' =>
      rw [leafOffset, leafOffset]
      by_cases heq : step = step'
      · subst heq
        have := ih hrest' fun h => hne (by rw [h])
        omega
      · have := hstep.apart hstep' heq
        have := hrest.within hp
        have := hrest'.within hp
        omega

end Program.Leaf

/-! ### Offsets of regions -/

namespace Catalog

variable {c : Catalog} {b o r q : RegionId} {t u : CType} {step : InitStep} {path : List InitStep}
  {m k : Int}

theorem foldl_wrap (offsets : List Int) (a : Int) :
    offsets.foldl (fun n m => Word.wrap (n + m)) (Word.wrap a) = Word.wrap (a + offsets.sum) := by
  induction offsets generalizing a with
  | nil => simp
  | cons m rest ih => rw [foldl_cons, wrap_add_wrap, ih, sum_cons, Int.add_assoc]

/-- The offset of a part is that of what encloses it, and how far it lies behind that. -/
theorem offset?_of_part (hc : c.WellFormed) (hpart : (c.region r).isPart = true)
    (he : c.enclosing? r = some q) (hk : c.partOffset? (c.region r) = some k)
    (hq : c.offset? q = some (o, m)) : c.offset? r = some (o, Word.wrap (k + m)) := by
  obtain ⟨offsets, hoffsets, hout⟩ := bind_eq_some_iff.1 hq
  obtain ⟨rfl, rfl⟩ := Prod.mk.inj (some.inj hout)
  have hzero : (0 : Int) = Word.wrap 0 := rfl
  have hsum : Word.wrap (k + offsets.foldl (fun n m => Word.wrap (n + m)) 0) =
      Word.wrap (k + offsets.sum) := by
    rw [hzero, foldl_wrap, zero_add, Int.add_comm, wrap_add_wrap, Int.add_comm]
  unfold offset?
  rw [parts_of_part hpart he, mapM_cons, hk, hoffsets, base_of_part hc hpart he, hsum]
  show some (_, (k :: offsets).foldl _ 0) = _
  rw [hzero, foldl_wrap, sum_cons, zero_add]

/-- A step that stays inside an object that a word can count has its offset as a word. -/
theorem partOffset?_regionIn (hp : c.program.Acyclic) (h : step.InBounds c.program t)
    (hsize : c.program.byteSize t ≤ Word.max) (r : RegionId) :
    c.partOffset? (step.regionIn t r) = some (step.offsetIn c.program t : Int) := by
  have hwithin := h.within hp
  have hfits {n : Nat} (hn : n ≤ c.program.byteSize t) : Word.Fits (n : Int) :=
    ⟨by simp only [Word.min]; omega, by omega⟩
  cases h with
  | @element e size n hn =>
    have hone : c.program.byteSize e ≤ c.program.byteSize (.array e size) := by
      rw [byteSize_array]
      exact Nat.le_mul_of_pos_right _ (Nat.zero_lt_of_lt hn)
    have hword : c.program.sizeWord e = c.program.byteSize e := Word.wrap_of_fits (hfits hone)
    have hmul : Word.Fits ((n * c.program.byteSize e : Nat) : Int) :=
      hfits (Nat.le_of_add_right_le hwithin)
    simp only [InitStep.regionIn, partOffset?, CType.element?, getD_some, hword, Word.ofInt?,
      InitStep.offsetIn]
    rw [← Nat.cast_mul]
    exact if_pos hmul
  | @field name f hs hf =>
    exact congrArg some (Word.wrap_of_fits (hfits (Nat.le_of_add_right_le hwithin)))

/-- **The offset of a scalar.** It is that of the object, and how far the scalar lies behind its start. -/
theorem offset?_of_route (hc : c.WellFormed) (hp : c.program.Acyclic) {m : Nat}
    (hroute : c.Route b t path r) (hleaf : c.program.Leaf t path u)
    (hb : c.offset? b = some (o, (m : Int))) (hsize : m + c.program.byteSize t ≤ Word.max) :
    c.offset? r = some (o, ((m + c.program.leafOffset t path : Nat) : Int)) := by
  induction hroute generalizing m with
  | here _ => exact hb
  | @step b q r t step path hhas hq hregion _ ih =>
    cases hleaf with
    | part hstep hrest =>
      have hwithin := hstep.within hp
      have hpart : (c.region q).isPart = true := by rw [hregion, step.isPart_regionIn]
      have he : c.enclosing? q = some b := by rw [hc.enclosing?_eq, hregion, step.parent?_regionIn]
      have hk : c.partOffset? (c.region q) = some (step.offsetIn c.program t : Int) :=
        hregion ▸ partOffset?_regionIn hp hstep (by omega) b
      have hq' := offset?_of_part hc hpart he hk hb
      have hfits : Word.Fits ((step.offsetIn c.program t : Int) + m) :=
        ⟨by simp only [Word.min]; omega, by omega⟩
      rw [Word.wrap_of_fits hfits, Int.add_comm, ← Nat.cast_add] at hq'
      rw [ih hrest hq' (by push_cast; omega), Program.leafOffset, Nat.add_assoc]

theorem offset?_of_not_part (h : (c.region r).isPart = false) : c.offset? r = some (r, 0) := by
  unfold offset?
  rw [parts_of_not_part h, base_of_not_part h]
  rfl

end Catalog

/-! ### Comparing addresses -/

namespace BinaryOp

variable {m n : Nat}

theorem holds_of_lt (h : m < n) : eq.holds m n = false ∧ ne.holds m n = true ∧
    lt.holds m n = true ∧ gt.holds m n = false := by
  simp only [holds, decide_eq_true_eq, decide_eq_false_iff_not]
  omega

theorem holds_of_gt (h : n < m) : eq.holds m n = false ∧ ne.holds m n = true ∧
    lt.holds m n = false ∧ gt.holds m n = true := by
  simp only [holds, decide_eq_true_eq, decide_eq_false_iff_not]
  omega

end BinaryOp

namespace Naming

variable {c : Catalog} {o r q : RegionId} {m n : Int} {op : BinaryOp}

/-- Two parts of one object are compared by their offsets. -/
theorem binary_of_offsets (hop : op.isComparison = true) (hr : c.offset? r = some (o, m))
    (hq : c.offset? q = some (o, n)) (hne : r ≠ q) (t : CType) :
    binary op (.pointer r) (.pointer q) t c = (.int (Word.ofBool (op.holds m n)), c) := by
  have hbase : c.base r = c.base q := (Catalog.offset?_eq hr 0).1.symm.trans (Catalog.offset?_eq hq 0).1
  have hcompare : compareRegions c op r q = foldInts op m n .int := by
    unfold compareRegions
    simp only [if_neg hne, hbase, ne_eq, not_true_eq_false, if_false, hr, hq]
  show (compareRegions c op r q, c) = _
  rw [hcompare, foldInts_comparison rfl hop]

end Naming

namespace Catalog

variable {c : Catalog} {b r q : RegionId} {t u u' : CType} {path path' : List InitStep}

/-- Pointers to two scalars of one object differ, and the one with the smaller offset comes first. -/
theorem Route.compares (hc : c.WellFormed) (hp : c.program.Acyclic)
    (hobject : (c.region b).isPart = false) (hsize : c.program.byteSize t ≤ Word.max)
    (hleaf : c.program.Leaf t path u) (hleaf' : c.program.Leaf t path' u') (hne : path ≠ path')
    (hr : c.Route b t path r) (hq : c.Route b t path' q) :
    let m := c.program.leafOffset t path
    let n := c.program.leafOffset t path'
    c.offset? r = some (b, (m : Int)) ∧ c.offset? q = some (b, (n : Int)) ∧ m ≠ n ∧
      ∀ op v, op.isComparison = true → binary op (.pointer r) (.pointer q) v c =
        (.int (Word.ofBool (op.holds m n)), c) := by
  intro m n
  have hstart : c.offset? b = some (b, ((0 : Nat) : Int)) := offset?_of_not_part hobject
  have hm := offset?_of_route hc hp hr hleaf hstart (by omega)
  have hn := offset?_of_route hc hp hq hleaf' hstart (by omega)
  rw [Nat.zero_add] at hm hn
  have hmn : m ≠ n := fun h => by
    have := hleaf.apart hp hleaf' hne
    have := byteSize_pos_of_isScalar (p := c.program) hleaf.isScalar
    have := byteSize_pos_of_isScalar (p := c.program) hleaf'.isScalar
    omega
  have hregions : r ≠ q := fun h => hne (hr.path_eq hc (h ▸ hq))
  exact ⟨hm, hn, hmn, fun op v hop => binary_of_offsets hop hm hn hregions v⟩

/-- **Layout and order of addresses.** Of an object whose type holds no structure that contains itself and
that a word can count, two different scalars have known offsets, counted from the sizes of what stands
before them. Each lies inside the object and they have no byte in common. Pointers to them differ, and
they are ordered as the offsets are. -/
theorem leaves_apart_and_ordered (hc : c.WellFormed) (hp : c.program.Acyclic) (hb : c.Has b)
    (hobject : (c.region b).isPart = false) (hsize : c.program.byteSize t ≤ Word.max)
    (hleaf : c.program.Leaf t path u) (hleaf' : c.program.Leaf t path' u') (hne : path ≠ path') :
    let first := State.partAt b t path c
    let second := State.partAt b t path' first.2
    let d := second.2
    let compare (op : BinaryOp) (v : CType) := binary op (.pointer first.1) (.pointer second.1) v d
    let m := c.program.leafOffset t path
    let n := c.program.leafOffset t path'
    d.offset? first.1 = some (b, (m : Int)) ∧ d.offset? second.1 = some (b, (n : Int)) ∧
      m + c.program.byteSize u ≤ c.program.byteSize t ∧
      n + c.program.byteSize u' ≤ c.program.byteSize t ∧
      (m + c.program.byteSize u ≤ n ∨ n + c.program.byteSize u' ≤ m) ∧
      ∀ v, compare .eq v = (.int 0, d) ∧ compare .ne v = (.int 1, d) ∧
        (m < n ∧ compare .lt v = (.int 1, d) ∧ compare .gt v = (.int 0, d) ∨
          n < m ∧ compare .lt v = (.int 0, d) ∧ compare .gt v = (.int 1, d)) := by
  intro first second d compare m n
  obtain ⟨hfirst, hle, hroute⟩ := route_partAt hc hb t path
  obtain ⟨hd, hle', hroute'⟩ := route_partAt hfirst (hb.mono hle) t path'
  have hcd : c ≤ d := hle.trans hle'
  have hprogram : d.program = c.program := hcd.program
  have hobject' : (d.region b).isPart = false := by rwa [region_mono hcd hb]
  have hcompares := Route.compares (c := d) hd (hprogram ▸ hp) hobject' (hprogram ▸ hsize)
    (hprogram ▸ hleaf) (hprogram ▸ hleaf') hne (hroute.mono hle') hroute'
  rw [hprogram] at hcompares
  obtain ⟨hm, hn, hmn, hcompare⟩ := hcompares
  have hapart := hleaf.apart hp hleaf' hne
  refine ⟨hm, hn, hleaf.within hp, hleaf'.within hp, hapart, fun v => ?_⟩
  have hvalue (op : BinaryOp) (hop : op.isComparison = true) :
      compare op v = (.int (Word.ofBool (op.holds m n)), d) := hcompare op v hop
  rw [hvalue .eq rfl, hvalue .ne rfl, hvalue .lt rfl, hvalue .gt rfl]
  rcases Nat.lt_or_gt_of_ne hmn with hlt | hlt
  · obtain ⟨heq, hne, hless, hgreater⟩ := BinaryOp.holds_of_lt hlt
    rw [heq, hne, hless, hgreater]
    exact ⟨rfl, rfl, .inl ⟨hlt, rfl, rfl⟩⟩
  · obtain ⟨heq, hne, hless, hgreater⟩ := BinaryOp.holds_of_gt hlt
    rw [heq, hne, hless, hgreater]
    exact ⟨rfl, rfl, .inr ⟨hlt, rfl, rfl⟩⟩

/-! ### A structure of structures -/

/-- Two structures, the second of which holds two of the first, and a variable of the second. -/
def nestedProgram : Program where
  file := ""
  vars := #[⟨"s", .struct "S", .local, none, default⟩]
  structs := #[⟨"P", [⟨"c", .char⟩, ⟨"x", .int⟩], default⟩,
    ⟨"S", [⟨"tag", .char⟩, ⟨"ps", .array (.struct "P") (some 2)⟩, ⟨"p", .pointer .int⟩], default⟩]

/-- The variable is the region 1. -/
def nestedCatalog : Catalog where
  program := nestedProgram
  regions := .ofList [.space (.locals ⟨0⟩), .var ⟨0⟩ ⟨0⟩] (by decide)
  symbols := ∅

theorem structNamed?_nestedProgram : nestedProgram.structNamed? "P" = some ⟨0⟩ ∧
    nestedProgram.structNamed? "S" = some ⟨1⟩ := by
  simp [Program.structNamed?, nestedProgram, Array.findIdx?, Array.findIdx?.loop]

theorem acyclic_nestedProgram : nestedProgram.Acyclic := by
  refine acyclic_of_older fun s s' ⟨f, hf, name, hname, hs'⟩ => ?_
  match s with
  | ⟨0⟩ => rcases mem_pair.1 hf with rfl | rfl <;> cases hname
  | ⟨1⟩ =>
    have hname' : name = "P" := by
      rcases mem_cons.1 hf with rfl | hf
      · cases hname
      rcases mem_pair.1 hf with rfl | rfl
      · exact (some.inj hname).symm
      · cases hname
    rw [hname', structNamed?_nestedProgram.1] at hs'
    cases hs'
    decide
  | ⟨n + 2⟩ => cases hf

/-- The path to the field `x` of an element of the array `ps`. -/
def nestedPath (i : Nat) : List InitStep := [.field ⟨⟨1⟩, 1⟩, .element i, .field ⟨⟨0⟩, 1⟩]

theorem leaf_nestedPath {i : Nat} (hi : i < 2) :
    nestedProgram.Leaf (.struct "S") (nestedPath i) .int := by
  have hx : nestedProgram.Leaf (.struct "P") [.field ⟨⟨0⟩, 1⟩] .int :=
    .part (.field structNamed?_nestedProgram.1 (by decide)) (.scalar rfl)
  have hps : nestedProgram.Leaf (.array (.struct "P") (some 2)) [.element i, .field ⟨⟨0⟩, 1⟩] .int :=
    .part (.element hi) hx
  exact .part (.field structNamed?_nestedProgram.2 (by decide)) hps

theorem byteSize_nestedProgram : nestedProgram.byteSize (.struct "P") = 5 ∧
    nestedProgram.byteSize (.struct "S") = 19 := by
  have hP : nestedProgram.byteSize (.struct "P") = 5 := by
    rw [byteSize_struct acyclic_nestedProgram structNamed?_nestedProgram.1]
    simp [nestedProgram, Program.struct]
  refine ⟨hP, ?_⟩
  rw [byteSize_struct acyclic_nestedProgram structNamed?_nestedProgram.2]
  show [_, nestedProgram.byteSize _, _].sum = _
  rw [byteSize_array, hP]
  simp

theorem leafOffset_nestedPath (i : Nat) :
    nestedProgram.leafOffset (.struct "S") (nestedPath i) = 5 * i + 2 := by
  have hps : nestedProgram.fieldOffset ⟨⟨1⟩, 1⟩ = 1 := by
    simp [Program.fieldOffset, nestedProgram, Program.struct]
  have hx : nestedProgram.fieldOffset ⟨⟨0⟩, 1⟩ = 1 := by
    simp [Program.fieldOffset, nestedProgram, Program.struct]
  show nestedProgram.fieldOffset ⟨⟨1⟩, 1⟩ + (i * nestedProgram.byteSize (.struct "P") +
    (nestedProgram.fieldOffset ⟨⟨0⟩, 1⟩ + 0)) = _
  rw [hps, hx, byteSize_nestedProgram.1]
  omega

/-- The field `x` of the first element lies 2 bytes behind the start, that of the second one 7 bytes. -/
theorem leaves_apart_and_ordered_nested :
    let first := State.partAt ⟨1⟩ (.struct "S") (nestedPath 0) nestedCatalog
    let second := State.partAt ⟨1⟩ (.struct "S") (nestedPath 1) first.2
    (nestedCatalog.WellFormed ∧ nestedProgram.Acyclic ∧ nestedCatalog.Has ⟨1⟩ ∧
      (nestedCatalog.region ⟨1⟩).isPart = false ∧ nestedProgram.byteSize (.struct "S") ≤ Word.max ∧
      nestedProgram.Leaf (.struct "S") (nestedPath 0) .int ∧
      nestedProgram.Leaf (.struct "S") (nestedPath 1) .int ∧ nestedPath 0 ≠ nestedPath 1) ∧
      second.2.offset? first.1 = some (⟨1⟩, 2) ∧ second.2.offset? second.1 = some (⟨1⟩, 7) ∧
      binary .lt (.pointer first.1) (.pointer second.1) .int second.2 = (.int 1, second.2) := by
  intro first second
  have hc : nestedCatalog.WellFormed := by decide
  have hhas : nestedCatalog.Has ⟨1⟩ := by decide
  have hsize : (nestedProgram.byteSize (.struct "S") : Int) ≤ Word.max := by
    rw [byteSize_nestedProgram.2]
    decide
  have hleaf := leaf_nestedPath (i := 0) (by decide)
  have hleaf' := leaf_nestedPath (i := 1) (by decide)
  have hne : nestedPath 0 ≠ nestedPath 1 := by decide
  obtain ⟨hm, hn, -, -, -, hcompare⟩ :=
    leaves_apart_and_ordered hc acyclic_nestedProgram hhas rfl hsize hleaf hleaf' hne
  have hoffsets : nestedCatalog.program.leafOffset (.struct "S") (nestedPath 0) = 2 ∧
      nestedCatalog.program.leafOffset (.struct "S") (nestedPath 1) = 7 :=
    ⟨leafOffset_nestedPath 0, leafOffset_nestedPath 1⟩
  rw [hoffsets.1] at hm hcompare
  rw [hoffsets.2] at hn hcompare
  refine ⟨⟨hc, acyclic_nestedProgram, hhas, rfl, hsize, hleaf, hleaf', hne⟩, hm, hn, ?_⟩
  exact ((hcompare .int).2.2.resolve_right (by omega)).2.1

end Catalog

end PathScout

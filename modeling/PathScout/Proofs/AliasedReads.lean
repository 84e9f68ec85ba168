import PathScout.Proofs.ByteLayout
import PathScout.Proofs.StoreLaws

/-!
# Reading a place under another name

Memory binds regions and not bytes: what is written through one region is read at that region, and every
other region keeps what it held. Regions that are spelled by the declared fields and elements name
different bytes, so a write is seen wherever it should be. An element at an unknown position, or the first
element of a scalar, is a second name of a place, and there an old number can be read after a write.

* `Store.Written`: the stores that writes lead to.
* `Store.StaleRead`: a number that is read where another one was written.
* `Store.retrieve_bind_of_ne`: a number is not seen through other regions.
-/

namespace PathScout

/-- A known number of a scalar type. -/
def Value.IsNumber (v : Value) (t : CType) : Prop :=
  (t.isInteger = true ∧ ∃ n, v = .int n) ∨ (t.isPointer = true ∧ ∃ n, v = .loc (.address n))

namespace Store

variable {c : Catalog} {s : Store} {r q : RegionId} {t : CType} {v : Value}

/-- Memory after some writes and initialisations, while the catalog may grow. -/
inductive Written : Catalog → Store → Prop where
  | empty (c : Catalog) : Written c {}
  | grow {c d : Catalog} {s : Store} : Written c s → c ≤ d → Written d s
  | bind {c : Catalog} {s : Store} (l : Loc) (v : Value) : Written c s → Written c (s.bind c l v)
  | bindDefault {c : Catalog} {s : Store} (r : RegionId) (v : Value) :
    Written c s → Written c (s.bindDefault r v)

/-- The number `v` is written to a scalar at `r`, and then another number is read from a scalar of the
same type at `q`, which may start at the same byte. -/
structure StaleRead (c : Catalog) (s : Store) (r q : RegionId) (t : CType) (v w : Value) : Prop where
  written : Written c s
  scalar : t.isScalar = true
  type : c.valueType? r = some t ∧ c.valueType? q = some t
  mayMeet : c.MayMeet r q
  number : v.IsNumber t ∧ w.IsNumber t
  ne : w ≠ v
  read : ((s.bind c (.region r) v).retrieve (.region q) t c).1 = w

/-! ### One region -/

theorem setsWhole_of_isNumber (hv : v.IsNumber t) (u : Option CType) : setsWhole v u = false := by
  rcases hv with ⟨-, n, rfl⟩ | ⟨-, n, rfl⟩ <;> rfl

theorem fit_of_isNumber (hv : v.IsNumber t) : fit v t = v := by
  rcases hv with ⟨ht, n, rfl⟩ | ⟨ht, n, rfl⟩ <;> cases t <;> first | rfl | cases ht

/-- A number that is written to a region is read there. -/
theorem retrieve_bind_number_self (ht : t.isScalar = true) (hv : v.IsNumber t) :
    (s.bind c (.region r) v).retrieve (.region r) t c = (v, c) := by
  rw [retrieve_bind_self (setsWhole_of_isNumber hv _) ht, fit_of_isNumber hv]

/-! ### Other regions -/

/-- What is bound to one region alone is not seen through other regions. -/
theorem retrieve_bind_of_ne {d : Catalog} (hv : setsWhole v (c.valueType? r) = false)
    (ht : t.isScalar = true) (h : q ≠ r) :
    (s.bind c (.region r) v).retrieve (.region q) t d = s.retrieve (.region q) t d := by
  rw [bind_eq_insert hv]
  exact retrieve_congr ht (OrderedMap.get?_insert_of_ne fun he => h (congrArg BindingKey.region he))
    fun m _ => OrderedMap.get?_insert_of_ne (BindingKey.direct_ne_default r m).symm

/-- After a number is written to a region, it is read at that region, and at every other region there is
what was there before. So it is also read at each region that may start at the same byte, if the types of
one object declare both. -/
theorem retrieve_bind_number (hp : c.program.Acyclic) (ht : t.isScalar = true) (hv : v.IsNumber t) :
    let after := (s.bind c (.region r) v).retrieve (.region q) t c
    (q = r → after = (v, c)) ∧ (q ≠ r → after = s.retrieve (.region q) t c) ∧
      ∀ u, c.Spells (c.base r) u r t → c.Spells (c.base r) u q t → c.MayMeet r q →
        after = (v, c) := by
  refine ⟨?_, retrieve_bind_of_ne (setsWhole_of_isNumber hv _) ht, ?_⟩
  · rintro rfl
    exact retrieve_bind_number_self ht hv
  · rintro u hr hq ⟨-, σ, hmeet⟩
    obtain rfl := hr.eq_of_displacement hp hq ht ht hmeet
    exact retrieve_bind_number_self ht hv

/-! ### Second names -/

/-- A program with an array, a scalar and an argument. -/
def aliasProgram : Program where
  file := ""
  vars := #[⟨"a", .array .int (some 4), .local, none, default⟩, ⟨"x", .int, .local, none, default⟩,
    ⟨"i", .int, .param 0, none, default⟩]

/-- The array is the region 1, with the element 0 as the region 2 and the element at the position of the
argument as the region 3. The scalar is the region 4, and its first element is the region 5. -/
def aliasCatalog : Catalog where
  program := aliasProgram
  regions := .ofList [.space (.locals ⟨0⟩), .var ⟨0⟩ ⟨0⟩, .element .int (.known 0) ⟨1⟩,
    .element .int (.symbolic ⟨0⟩) ⟨1⟩, .var ⟨1⟩ ⟨0⟩, .element .int (.known 0) ⟨4⟩,
    .space (.arguments ⟨0⟩), .var ⟨2⟩ ⟨6⟩] (by decide)
  symbols := .ofList [.regionValue ⟨7⟩ .int] (by decide)

theorem acyclic_aliasProgram : aliasProgram.Acyclic := by
  intro s h
  obtain ⟨s', -, f, hf, -⟩ := (Relation.TransGen.tail'_iff).1 h
  have hempty : (aliasProgram.struct s').fields = [] := rfl
  rw [hempty] at hf
  cases hf

/-- The element 0 of the array is a part that its type declares. -/
theorem spells_aliasCatalog : aliasCatalog.Spells ⟨1⟩ (.array .int (some 4)) ⟨2⟩ .int :=
  .part .whole (.element (n := 0) (by decide)) rfl

/-- The elements of the catalog lie at the start of their objects, if the argument is zero. -/
theorem element_aliasCatalog {i j : Nat} (h : (i, j) ∈ [(2, 1), (3, 1), (5, 4)]) :
    aliasCatalog.base ⟨i⟩ = ⟨j⟩ ∧ aliasCatalog.displacement 0 ⟨i⟩ = 0 := by
  have hpart : (aliasCatalog.region ⟨i⟩).isPart = true ∧ aliasCatalog.enclosing? ⟨i⟩ = some ⟨j⟩ ∧
      (aliasCatalog.region ⟨j⟩).isPart = false ∧
      aliasCatalog.partDisplacement 0 (aliasCatalog.region ⟨i⟩) = 0 := by
    fin_cases h <;> exact ⟨rfl, rfl, rfl, Int.zero_mul _⟩
  obtain ⟨hpart, he, hobject, hzero⟩ := hpart
  rw [Catalog.base_of_part (by decide) hpart he, Catalog.base_of_not_part hobject,
    Catalog.displacement_of_part hpart he, Catalog.displacement_of_not_part hobject, hzero]
  exact ⟨rfl, rfl⟩

theorem retrieve_bind_number_element :
    aliasProgram.Acyclic ∧ CType.int.isScalar = true ∧ (Value.int 1).IsNumber .int ∧
      ((({} : Store).bind aliasCatalog (.region ⟨2⟩) (.int 1)).retrieve (.region ⟨2⟩) .int
        aliasCatalog) = (.int 1, aliasCatalog) := by
  have hbase := (element_aliasCatalog (i := 2) (j := 1) (by decide)).1
  have hnumber : (Value.int 1).IsNumber .int := .inl ⟨rfl, 1, rfl⟩
  refine ⟨acyclic_aliasProgram, rfl, hnumber, ?_⟩
  exact (retrieve_bind_number acyclic_aliasProgram rfl hnumber).2.2 _
    (hbase ▸ spells_aliasCatalog) (hbase ▸ spells_aliasCatalog) ⟨rfl, 0, rfl⟩

/-- The regions 2 and 3, and the regions 4 and 5, may start at the same byte. -/
theorem mayMeet_aliasCatalog : aliasCatalog.MayMeet ⟨3⟩ ⟨2⟩ ∧ aliasCatalog.MayMeet ⟨5⟩ ⟨4⟩ := by
  obtain ⟨hknown, hknown'⟩ := element_aliasCatalog (i := 2) (j := 1) (by decide)
  obtain ⟨hunknown, hunknown'⟩ := element_aliasCatalog (i := 3) (j := 1) (by decide)
  obtain ⟨hfirst, hfirst'⟩ := element_aliasCatalog (i := 5) (j := 4) (by decide)
  exact ⟨⟨hunknown.trans hknown.symm, 0, hunknown'.trans hknown'.symm⟩,
    hfirst.trans (Catalog.base_of_not_part rfl).symm, 0,
    hfirst'.trans (Catalog.displacement_of_not_part rfl).symm⟩

/-- A number stays readable at the element 0 of an array after a write at an unknown position, and in a
scalar after a write to its first element. -/
theorem staleRead_aliasCatalog :
    StaleRead aliasCatalog (({} : Store).bind aliasCatalog (.region ⟨2⟩) (.int 5)) ⟨3⟩ ⟨2⟩ .int
        (.int 1) (.int 5) ∧
      StaleRead aliasCatalog (({} : Store).bind aliasCatalog (.region ⟨4⟩) (.int 5)) ⟨5⟩ ⟨4⟩ .int
        (.int 1) (.int 5) := by
  have hnumber (n : Int) : (Value.int n).IsNumber .int := .inl ⟨rfl, n, rfl⟩
  exact ⟨⟨.bind _ _ (.empty _), rfl, ⟨rfl, rfl⟩, mayMeet_aliasCatalog.1, ⟨hnumber 1, hnumber 5⟩,
    by decide, by decide +kernel⟩, ⟨.bind _ _ (.empty _), rfl, ⟨rfl, rfl⟩, mayMeet_aliasCatalog.2,
    ⟨hnumber 1, hnumber 5⟩, by decide, by decide +kernel⟩⟩

end Store

end PathScout

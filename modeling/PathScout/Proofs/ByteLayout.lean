import PathScout.Proofs.CatalogLaws
import PathScout.Proofs.RangeAlgebra

/-!
# Where the parts of an object lie

The parts of an object are told apart by how they are spelled, and what they cover is a range of its
bytes. Two parts that are spelled by the fields and elements that the types declare lie inside each other
or apart, so two scalars among them that start at the same byte are one region.

* `Program.Acyclic`: no structure contains itself. `Program.byteSize_struct`: then it is as large as its
  fields together.
* `Catalog.displacement`: how far a region lies behind the start of its object, for given indices.
* `Catalog.offset?_eq`: the offset that the catalog computes is this number as a word.
* `Catalog.Declares`: the fields and elements that a type declares. `Catalog.Spells`: the parts that are
  reached by them. `Spells.nested_or_apart`, `Spells.eq_of_displacement`.
-/

namespace PathScout

open List Option

/-! ### Sizes -/

/-- The structure that a type holds by value, itself or as the elements of an array. -/
def CType.held? : CType → Option String
  | .array t _ => t.held?
  | .struct name => some name
  | _ => none

namespace Program

variable {p : Program} {d : Nat} {t : CType} {s s' : StructId} {name : String} {f : FieldId}

/-- One structure has a field that holds the other one by value. -/
def Holds (p : Program) (s s' : StructId) : Prop :=
  ∃ f ∈ (p.struct s).fields, ∃ name, f.type.held? = some name ∧ p.structNamed? name = some s'

/-- No structure contains itself by value. -/
def Acyclic (p : Program) : Prop := ∀ s, ¬Relation.TransGen p.Holds s s

/-- A type holds structures that hold each other, so many of them. -/
def Nests (p : Program) (t : CType) (n : Nat) : Prop :=
  ∃ name s chain, t.held? = some name ∧ p.structNamed? name = some s ∧
    (s :: chain).IsChain p.Holds ∧ (s :: chain).length = n

@[simp] theorem byteSize_char (p : Program) : p.byteSize .char = 1 := by rw [byteSize, size?]; rfl

@[simp] theorem byteSize_int (p : Program) : p.byteSize .int = 4 := by rw [byteSize, size?]; rfl

@[simp] theorem byteSize_pointer (p : Program) (t : CType) : p.byteSize (.pointer t) = 8 := by
  rw [byteSize, size?]
  rfl

theorem byteSize_array (p : Program) (t : CType) (count : Option Nat) :
    p.byteSize (.array t count) = p.byteSize t * count.getD 0 := by
  rw [byteSize, size?, byteSize]
  cases p.size? t <;> simp

theorem isSome_of_mapM {α β : Type} {f : α → Option β} {as : List α} {bs : List β}
    (h : as.mapM f = some bs) : ∀ a ∈ as, (f a).isSome := by
  induction as generalizing bs with
  | nil => exact fun _ ha => absurd ha not_mem_nil
  | cons a as ih =>
    rw [mapM_cons] at h
    obtain ⟨b, hb, h⟩ := bind_eq_some_iff.1 h
    obtain ⟨bs', hbs, -⟩ := bind_eq_some_iff.1 h
    exact forall_mem_cons.2 ⟨by rw [hb]; rfl, ih hbs⟩

theorem mapM_size? {fields : List FieldInfo} (h : ∀ f ∈ fields, (p.size? f.type).isSome) :
    fields.mapM (fun f => p.size? f.type) = some (fields.map fun f => p.byteSize f.type) :=
  mapM_eq_map fun f hf => by
    obtain ⟨n, hn⟩ := isSome_iff_exists.1 (h f hf)
    rw [byteSize, hn]
    rfl

/-- A type has a size if there is a bound on how many structures it nests. -/
theorem isSome_size? (h : ¬p.Nests t (d + 1)) : (p.size? t).isSome := by
  induction d generalizing t with
  | zero =>
    induction t with
    | array t count ih =>
      obtain ⟨n, hn⟩ := isSome_iff_exists.1 (ih h)
      rw [size?, hn]
      rfl
    | struct name =>
      cases hs : p.structNamed? name with
      | none => rw [size?, hs]; rfl
      | some s => exact absurd ⟨name, s, [], rfl, hs, .singleton _, rfl⟩ h
    | _ => rw [size?]; rfl
  | succ d ih =>
    induction t with
    | array t count iht =>
      obtain ⟨n, hn⟩ := isSome_iff_exists.1 (iht h)
      rw [size?, hn]
      rfl
    | struct name =>
      cases hs : p.structNamed? name with
      | none => rw [size?, hs]; rfl
      | some s =>
        rw [size?, hs]
        dsimp only
        rw [mapM_size? fun f hf => ih fun hn => h ?_]
        · rfl
        · obtain ⟨inner, s', chain, hinner, hs', hchain, hlength⟩ := hn
          exact ⟨name, s, s' :: chain, rfl, hs, isChain_cons_cons.2 ⟨⟨f, hf, inner, hinner, hs'⟩, hchain⟩,
            congrArg (· + 1) hlength⟩
    | _ => rw [size?]; rfl

theorem index_lt_of_structNamed? (h : p.structNamed? name = some s) : s.index < p.structs.size := by
  obtain ⟨i, hi, rfl⟩ := map_eq_some_iff.1 h
  exact (Array.findIdx?_eq_some_iff_findIdx_eq.1 hi).1

theorem acyclic_of_no_structs (h : p.structs.size = 0) : p.Acyclic := fun s hs => by
  obtain ⟨s', ⟨f, -, name, -, hs'⟩, -⟩ := Relation.TransGen.head'_iff.1 hs
  have hlt := index_lt_of_structNamed? hs'
  omega

/-- No more structures hold each other than there are. -/
theorem Acyclic.not_nests (h : p.Acyclic) (t : CType) : ¬p.Nests t (p.structs.size + 1) := by
  rintro ⟨name, s, chain, -, hs, hchain, hlength⟩
  have hnodup : (s :: chain).Nodup := by
    have hpairs : (s :: chain).Pairwise (Relation.TransGen p.Holds) :=
      isChain_iff_pairwise.1 (hchain.imp fun _ _ => Relation.TransGen.single)
    refine hpairs.imp fun {a b} hab heq => ?_
    subst heq
    exact h a hab
  have hbound : ∀ a ∈ s :: chain, a.index < p.structs.size := by
    clear hnodup hlength
    induction chain generalizing s name with
    | nil => exact fun a ha => (mem_singleton.1 ha) ▸ index_lt_of_structNamed? hs
    | cons s' chain ih =>
      obtain ⟨⟨f, -, inner, -, hs'⟩, hrest⟩ := isChain_cons_cons.1 hchain
      intro a ha
      rcases mem_cons.1 ha with rfl | ha
      · exact index_lt_of_structNamed? hs
      · exact ih inner s' hs' hrest a ha
  have hsub : (s :: chain).map StructId.index ⊆ List.range p.structs.size := fun i hi => by
    obtain ⟨a, ha, rfl⟩ := mem_map.1 hi
    exact mem_range.2 (hbound a ha)
  have hinj : Function.Injective StructId.index := fun a b hab => by
    cases a
    cases b
    exact congrArg StructId.mk hab
  have hle := ((hnodup.map hinj).subperm hsub).length_le
  rw [length_map, length_range, hlength] at hle
  omega

/-- Where no structure contains itself, every type has a size. -/
theorem Acyclic.isSome_size? (h : p.Acyclic) (t : CType) : (p.size? t).isSome :=
  Program.isSome_size? (h.not_nests t)

/-- The structures that a type with a size holds, and those that they hold, come to an end. -/
theorem acc_of_size? {n : Nat} (h : p.size? t = some n) (ht : t.held? = some name)
    (hs : p.structNamed? name = some s) : Acc (fun a b => p.Holds b a) s := by
  refine size?.partial_correctness p (fun t _ => ∀ name s, t.held? = some name →
    p.structNamed? name = some s → Acc (fun a b => p.Holds b a) s) (fun rec ih t n h name s ht hs => ?_)
    t n h name s ht hs
  cases t with
  | array t count =>
    obtain ⟨m, hm, -⟩ := bind_eq_some_iff.1 h
    exact ih t m hm name s ht hs
  | struct other =>
    cases ht
    dsimp only at h
    rw [hs] at h
    obtain ⟨sizes, hsizes, -⟩ := bind_eq_some_iff.1 h
    refine .intro s fun s' ⟨f, hf, inner, hinner, hs'⟩ => ?_
    obtain ⟨m, hm⟩ := isSome_iff_exists.1 (isSome_of_mapM hsizes f hf)
    exact ih f.type m hm inner s' hinner hs'
  | _ => cases ht

/-- A structure that contains itself has no size. -/
theorem size?_eq_none (h : Relation.TransGen p.Holds s s) (hs : p.structNamed? name = some s) :
    p.size? (.struct name) = none := by
  by_contra hne
  obtain ⟨n, hn⟩ := ne_none_iff_exists'.1 hne
  have hacc := acc_transGen_iff.2 (acc_of_size? hn rfl hs)
  have hnot : ¬Relation.TransGen (fun a b => p.Holds b a) s s :=
    hacc.rec fun x _ ih hx => ih x hx hx
  exact hnot (Relation.transGen_swap.2 h)

/-- A structure is as large as its fields together. -/
theorem byteSize_struct (h : p.Acyclic) (hs : p.structNamed? name = some s) :
    p.byteSize (.struct name) = ((p.struct s).fields.map fun f => p.byteSize f.type).sum := by
  rw [byteSize, size?, hs]
  dsimp only
  rw [mapM_size? fun f _ => h.isSome_size? f.type]
  rfl

theorem byteSize_pos_of_isScalar (h : t.isScalar = true) : 0 < p.byteSize t := by
  cases t with
  | char | int | pointer => simp
  | _ => cases h

/-! ### Fields of a structure -/

theorem fieldOffset_eq (p : Program) (f : FieldId) :
    p.fieldOffset f = (((p.struct f.owner).fields.take f.index).map fun g => p.byteSize g.type).sum := by
  rw [fieldOffset, sum_eq_foldl, foldl_map]

/-- A field ends where the fields up to it end. -/
theorem fieldOffset_add (p : Program) (h : f.index < (p.struct f.owner).fields.length) :
    p.fieldOffset f + p.byteSize (p.field f).type =
      (((p.struct f.owner).fields.take (f.index + 1)).map fun g => p.byteSize g.type).sum := by
  have hf : p.field f = (p.struct f.owner).fields[f.index] := by
    rw [field, getElem?_eq_getElem h]
    rfl
  rw [fieldOffset_eq, hf, take_add_one, getElem?_eq_getElem h, toList_some,
    map_append, sum_append, map_singleton, sum_singleton]

theorem sum_take_le (w : FieldInfo → Nat) (fields : List FieldInfo) {m n : Nat} (h : m ≤ n) :
    ((fields.take m).map w).sum ≤ ((fields.take n).map w).sum :=
  ((take_prefix_take_left h).sublist.map w).sum_le_sum fun _ _ => Nat.zero_le _

/-- Fields of one structure lie one after the other. -/
theorem fieldOffset_add_le (p : Program) {g : FieldId} (howner : g.owner = f.owner)
    (h : f.index < (p.struct f.owner).fields.length) (hlt : f.index < g.index) :
    p.fieldOffset f + p.byteSize (p.field f).type ≤ p.fieldOffset g := by
  rw [fieldOffset_add p h, fieldOffset_eq p g, howner]
  exact sum_take_le _ _ hlt

/-- A field ends inside its structure. -/
theorem fieldOffset_add_le_byteSize (hp : p.Acyclic) (hs : p.structNamed? name = some f.owner)
    (h : f.index < (p.struct f.owner).fields.length) :
    p.fieldOffset f + p.byteSize (p.field f).type ≤ p.byteSize (.struct name) := by
  rw [fieldOffset_add p h, byteSize_struct hp hs]
  refine (sum_take_le _ _ (Nat.succ_le_of_lt h)).trans_eq ?_
  rw [take_length]

end Program

/-! ### Displacements -/

namespace Catalog

variable {c : Catalog} {b r q p : RegionId} {t u u' : CType} {σ : SymbolId → Int} {n : Int}

/-- How far a part lies behind the start of what encloses it, for given values of the symbols. -/
def partDisplacement (c : Catalog) (σ : SymbolId → Int) : Region → Int
  | .field f _ => c.program.fieldOffset f
  | .element t (.known n) _ => n * c.program.byteSize t
  | .element t (.symbolic s) _ => σ s * c.program.byteSize t
  | _ => 0

/-- How far a region lies behind the start of its object, for given values of the symbols. -/
def displacement (c : Catalog) (σ : SymbolId → Int) (r : RegionId) : Int :=
  ((c.parts r).map (c.partDisplacement σ)).sum

/-- Two regions start at the same byte of one object, for some values of the symbols. -/
def MayMeet (c : Catalog) (r q : RegionId) : Prop :=
  c.base r = c.base q ∧ ∃ σ : SymbolId → Int, c.displacement σ r = c.displacement σ q

theorem parts_of_not_part (h : (c.region r).isPart = false) : c.parts r = [] := by
  rw [parts]
  cases hr : c.enclosing? r with
  | none => simp [chain_of_none hr, h]
  | some p => simp [chain_of_some hr, h]

theorem parts_of_part (h : (c.region r).isPart = true) (hr : c.enclosing? r = some p) :
    c.parts r = c.region r :: c.parts p := by
  rw [parts, parts, chain_of_some hr, map_cons, takeWhile_cons_of_pos h]

theorem displacement_of_not_part (h : (c.region r).isPart = false) : c.displacement σ r = 0 := by
  rw [displacement, parts_of_not_part h, map_nil, sum_nil]

theorem displacement_of_part (h : (c.region r).isPart = true) (hr : c.enclosing? r = some p) :
    c.displacement σ r = c.partDisplacement σ (c.region r) + c.displacement σ p := by
  rw [displacement, displacement, parts_of_part h hr, map_cons, sum_cons]

theorem wrap_wrap (n : Int) : Word.wrap (Word.wrap n) = Word.wrap n := Int.bmod_bmod

theorem wrap_add_wrap (m n : Int) : Word.wrap (Word.wrap m + n) = Word.wrap (m + n) := Int.bmod_add_bmod

theorem wrap_mul_wrap (m n : Int) : Word.wrap (m * Word.wrap n) = Word.wrap (m * n) := Int.mul_bmod_bmod

/-- The offset of a part as a word, where the catalog knows it. -/
theorem wrap_partOffset? {part : Region} (h : c.partOffset? part = some n) (σ : SymbolId → Int) :
    Word.wrap n = Word.wrap (c.partDisplacement σ part) := by
  cases part with
  | field f p =>
    have hn : Word.wrap (c.program.fieldOffset f) = n := some.inj h
    rw [← hn, wrap_wrap, partDisplacement]
  | element t i p =>
    cases i with
    | known i =>
      change Word.ofInt? (i * c.program.sizeWord t) = some n at h
      obtain rfl : i * c.program.sizeWord t = n := by
        rw [Word.ofInt?] at h
        split at h
        · exact some.inj h
        · cases h
      exact wrap_mul_wrap i (c.program.byteSize t)
    | symbolic s => cases h
  | _ => cases h

/-- The offset that the catalog computes for a region is its displacement as a word, whatever the
symbols stand for. -/
theorem offset?_eq (h : c.offset? r = some (b, n)) (σ : SymbolId → Int) :
    b = c.base r ∧ n = Word.wrap (c.displacement σ r) := by
  obtain ⟨offsets, hoffsets, h⟩ := bind_eq_some_iff.1 h
  obtain ⟨rfl, rfl⟩ := Prod.mk.inj (some.inj h)
  refine ⟨rfl, ?_⟩
  have hsum : ∀ (parts : List Region) (offsets : List Int) (a : Int),
      parts.mapM c.partOffset? = some offsets →
      offsets.foldl (fun n m => Word.wrap (n + m)) (Word.wrap a) =
        Word.wrap (a + (parts.map (c.partDisplacement σ)).sum) := by
    intro parts
    induction parts with
    | nil =>
      intro offsets a hparts
      obtain rfl : [] = offsets := some.inj hparts
      simp
    | cons part parts ih =>
      intro offsets a hparts
      rw [mapM_cons] at hparts
      obtain ⟨m, hm, hparts⟩ := bind_eq_some_iff.1 hparts
      obtain ⟨rest, hrest, hparts⟩ := bind_eq_some_iff.1 hparts
      obtain rfl : m :: rest = offsets := some.inj hparts
      have hstep : Word.wrap (Word.wrap a + m) = Word.wrap (a + c.partDisplacement σ part) :=
        calc Word.wrap (Word.wrap a + m) = Word.wrap (Word.wrap m + a) := by
              rw [wrap_add_wrap, wrap_add_wrap, add_comm]
          _ = Word.wrap (Word.wrap (c.partDisplacement σ part) + a) := by rw [wrap_partOffset? hm σ]
          _ = Word.wrap (a + c.partDisplacement σ part) := by rw [wrap_add_wrap, add_comm]
      rw [foldl_cons, hstep, ih rest _ hrest, map_cons, sum_cons, Int.add_assoc]
  have := hsum (c.parts r) offsets 0 hoffsets
  rwa [zero_add] at this

/-! ### Declared parts -/

/-- A region of one type declares the part to be of another one: it is a field of the structure, or an
element of the array inside its bounds. -/
inductive Declares (c : Catalog) : CType → Region → CType → Prop where
  | field {f : FieldId} {name : String} {p : RegionId} :
    c.program.structNamed? name = some f.owner →
    f.index < (c.program.struct f.owner).fields.length →
    Declares c (.struct name) (.field f p) (c.program.field f).type
  | element {u : CType} {size : Option Nat} {n : Nat} {p : RegionId} :
    n < size.getD 0 → Declares c (.array u size) (.element u (.known n) p) u

namespace Declares

variable {v : CType} {part part' : Region}

theorem isPart (h : c.Declares v part u) : part.isPart = true := by
  cases h <;> rfl

theorem isScalar_eq (h : c.Declares v part u) : v.isScalar = false := by
  cases h <;> rfl

theorem unique (h : c.Declares v part u) (h' : c.Declares v part u') : u = u' := by
  cases h <;> cases h' <;> rfl

/-- A declared part lies inside what declares it. -/
theorem within (hp : c.program.Acyclic) (h : c.Declares v part u) : 0 ≤ c.partDisplacement σ part ∧
      c.partDisplacement σ part + c.program.byteSize u ≤ c.program.byteSize v := by
  cases h with
  | field hs hf =>
    have := Program.fieldOffset_add_le_byteSize hp hs hf
    simp only [partDisplacement]
    omega
  | @element u size n p hn =>
    have hle : (n + 1) * c.program.byteSize u ≤ size.getD 0 * c.program.byteSize u :=
      Nat.mul_le_mul_right _ hn
    rw [Program.byteSize_array, Nat.mul_comm (c.program.byteSize u)]
    refine ⟨Int.mul_nonneg n.cast_nonneg (Nat.cast_nonneg _), ?_⟩
    calc (n * c.program.byteSize u + c.program.byteSize u : Int)
        = ((n + 1) * c.program.byteSize u : Nat) := by push_cast; ring
      _ ≤ (size.getD 0 * c.program.byteSize u : Nat) := Int.ofNat_le.2 hle

/-- Two different parts that one region declares lie apart. -/
theorem apart (h : c.Declares v part u) (h' : c.Declares v part' u')
    (hparent : part.parent? = part'.parent?) (hne : part ≠ part') :
    c.partDisplacement σ part + c.program.byteSize u ≤ c.partDisplacement σ part' ∨
      c.partDisplacement σ part' + c.program.byteSize u' ≤ c.partDisplacement σ part := by
  cases h with
  | @field f name p hs hf =>
    cases h' with
    | @field g _ p' hs' hg =>
      obtain rfl : p = p' := some.inj hparent
      have howner : f.owner = g.owner := some.inj (hs.symm.trans hs')
      have hindex : f.index ≠ g.index := fun h => hne (by cases f; cases g; simp_all)
      simp only [partDisplacement]
      rcases Nat.lt_or_gt_of_ne hindex with hlt | hlt
      · have := c.program.fieldOffset_add_le howner.symm hf hlt
        omega
      · have := c.program.fieldOffset_add_le howner hg hlt
        omega
  | @element u size m p hm =>
    cases h' with
    | @element _ _ n p' hn =>
      obtain rfl : p = p' := some.inj hparent
      have hindex : m ≠ n := fun h => hne (by rw [h])
      have hstep {i j : Nat} (h : i < j) :
          (i * c.program.byteSize u + c.program.byteSize u : Int) ≤ j * c.program.byteSize u := by
        have := Nat.mul_le_mul_right (c.program.byteSize u) (Nat.succ_le_of_lt h)
        rw [Nat.succ_mul] at this
        exact_mod_cast this
      exact (Nat.lt_or_gt_of_ne hindex).imp hstep hstep

end Declares

/-- The region is a part of type `u` of an object seen as one of type `t`, each step being declared by
the type of what encloses it. -/
inductive Spells (c : Catalog) (b : RegionId) (t : CType) : RegionId → CType → Prop where
  | whole : Spells c b t b t
  | part {p r : RegionId} {v u : CType} : Spells c b t p v → c.Declares v (c.region r) u →
    c.enclosing? r = some p → Spells c b t r u

/-- A region with a number is the only one that is spelled like it. -/
theorem eq_of_region_eq (h : c.region r = c.region q) (hr : c.Has r) (hq : c.Has q) : r = q := by
  have := Interned.get?_inj hr.get? (h ▸ hq.get?)
  cases r
  cases q
  exact congrArg RegionId.mk this

namespace Spells

theorem base_mem_chain (h : c.Spells b t r u) : b ∈ c.chain r := by
  induction h with
  | whole => exact mem_chain_self
  | part _ _ hr ih =>
    rw [chain_of_some hr]
    exact mem_cons_of_mem _ ih

/-- The object itself is not one of its parts. -/
theorem ne_of_enclosing (h : c.Spells b t p u) (hr : c.enclosing? r = some p) : r ≠ b := by
  have hle := index_le_of_mem_chain h.base_mem_chain
  have hlt := enclosing?_lt hr
  exact fun heq => by rw [heq] at hlt; omega

/-- A declared part has one type. -/
theorem unique (h : c.Spells b t r u) (h' : c.Spells b t r u') : u = u' := by
  induction h generalizing u' with
  | whole =>
    cases h' with
    | whole => rfl
    | part hp _ hr => exact absurd rfl (hp.ne_of_enclosing hr)
  | part hp hdeclares hr ih =>
    cases h' with
    | whole => exact absurd rfl (hp.ne_of_enclosing hr)
    | part hp' hdeclares' hr' =>
      cases hr.symm.trans hr'
      cases ih hp'
      exact hdeclares.unique hdeclares'

/-- A declared part lies in every declared part that encloses it. -/
theorem within (hp : c.program.Acyclic) (hq : c.Spells b t q u') (hr : c.Spells b t r u)
    (h : q ∈ c.chain r) : c.displacement σ q ≤ c.displacement σ r ∧
      c.displacement σ r + c.program.byteSize u ≤ c.displacement σ q + c.program.byteSize u' := by
  induction hr with
  | whole =>
    obtain rfl : q = b := by
      have hle := index_le_of_mem_chain h
      have hge := index_le_of_mem_chain hq.base_mem_chain
      cases q
      cases b
      exact congrArg RegionId.mk (le_antisymm hle hge)
    rw [hq.unique .whole]
    exact ⟨le_rfl, le_rfl⟩
  | part hsp hdeclares he ih =>
    rw [chain_of_some he, mem_cons] at h
    rcases h with rfl | h
    · rw [hq.unique (.part hsp hdeclares he)]
      exact ⟨le_rfl, le_rfl⟩
    · have := ih h
      have := hdeclares.within (σ := σ) hp
      rw [displacement_of_part hdeclares.isPart he]
      omega

/-- A declared part that lies in another one is that one, or lies in a part that it declares. -/
theorem eq_or_through (hq : c.Spells b t q u') (hr : c.Spells b t r u) (h : q ∈ c.chain r) :
    r = q ∨ ∃ m v, c.Spells b t m v ∧ c.Declares u' (c.region m) v ∧ c.enclosing? m = some q ∧
      m ∈ c.chain r := by
  induction hr with
  | whole =>
    refine .inl ?_
    have hle := index_le_of_mem_chain h
    have hge := index_le_of_mem_chain hq.base_mem_chain
    cases q
    cases b
    exact congrArg RegionId.mk (le_antisymm hge hle)
  | part hsp hdeclares he ih =>
    rw [chain_of_some he, mem_cons] at h
    rcases h with rfl | h
    · exact .inl rfl
    · refine .inr ?_
      rcases ih h with rfl | ⟨m, v, hm, hdm, hem, hmem⟩
      · cases hq.unique hsp
        exact ⟨_, _, .part hsp hdeclares he, hdeclares, he, mem_chain_self⟩
      · exact ⟨m, v, hm, hdm, hem, by rw [chain_of_some he]; exact mem_cons_of_mem _ hmem⟩

/-- Of two declared parts one lies in the other, or they have no byte in common. -/
theorem nested_or_apart (hp : c.program.Acyclic) (hr : c.Spells b t r u) (hq : c.Spells b t q u') :
    r ∈ c.chain q ∨ q ∈ c.chain r ∨ c.displacement σ r + c.program.byteSize u ≤ c.displacement σ q ∨
      c.displacement σ q + c.program.byteSize u' ≤ c.displacement σ r := by
  induction hr with
  | whole => exact .inl hq.base_mem_chain
  | @part p r v u hsp hdeclares he ih =>
    have hin : q ∈ c.chain p → q ∈ c.chain r := fun h => by
      rw [chain_of_some he]
      exact mem_cons_of_mem _ h
    have hwithin := hdeclares.within (σ := σ) hp
    rw [displacement_of_part hdeclares.isPart he]
    rcases ih with h | h | h
    · rcases hsp.eq_or_through hq h with rfl | ⟨m, w, hm, hdm, hem, hmem⟩
      · exact .inr (.inl (hin mem_chain_self))
      · by_cases hrm : r = m
        · exact .inl (hrm ▸ hmem)
        · -- both lie in parts of one region, and these lie apart
          have hparent : (c.region r).parent? = (c.region m).parent? :=
            (parent?_of_enclosing? he).trans (parent?_of_enclosing? hem).symm
          have hapart := hdeclares.apart (σ := σ) hdm hparent fun heq =>
            hrm (eq_of_region_eq heq (has_of_isPart hdeclares.isPart) (has_of_isPart hdm.isPart))
          have hinner := hm.within (σ := σ) hp hq hmem
          rw [displacement_of_part hdm.isPart hem] at hinner
          omega
    · exact .inr (.inl (hin h))
    · omega

/-- Two declared parts that hold scalars and start at the same byte are one region. -/
theorem eq_of_displacement (hp : c.program.Acyclic) (hr : c.Spells b t r u)
    (hq : c.Spells b t q u') (hu : u.isScalar = true) (hu' : u'.isScalar = true)
    (h : c.displacement σ r = c.displacement σ q) : r = q := by
  have hpos := Program.byteSize_pos_of_isScalar (p := c.program) hu
  have hpos' := Program.byteSize_pos_of_isScalar (p := c.program) hu'
  rcases hr.nested_or_apart (σ := σ) hp hq with hin | hin | hapart
  · rcases hr.eq_or_through hq hin with rfl | ⟨_, _, _, hdm, -⟩
    · rfl
    · exact absurd hu (by rw [hdm.isScalar_eq]; decide)
  · rcases hq.eq_or_through hr hin with rfl | ⟨_, _, _, hdm, -⟩
    · rfl
    · exact absurd hu' (by rw [hdm.isScalar_eq]; decide)
  · omega

end Spells

end Catalog

end PathScout

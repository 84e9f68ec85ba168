import PathScout.Proofs.ConstantFolding
import PathScout.Proofs.LeafPaths

/-!
# What initialisers say of scalars

A braced initialiser says of some scalars of an object which number they start with, or which text they
point to. It is read along the path to the scalar; all scalars that it does not mention start with zero.

* `Initializer.stated?`: what an initialiser says of the scalar at a path.
* `Stated.Is`: the values that are as stated.
* `Initializer.Braced`: fully braced initialisers of a type.
* `initSlots_sound`, `initSlots_complete`: the items of a list and the parts of the object.
* `Store.Shows`, `State.ReadsAs`: memory holds what is stated, and it is read there.
* `Expr.Initial.exists_gives`: the code of a scalar item gives the value that it states.
-/

namespace PathScout

open Catalog Naming List

variable {t : CType} {k n : Int} {s : Lowering} {e : Expr}

/-! ### What is stated -/

/-- What an initialiser says of a scalar: the number that it is, or the text that it points to. -/
inductive Stated where
  | number (n : Int)
  | text (content : String)
deriving DecidableEq

/-- What an expression says of the scalar that it initialises. -/
def Expr.stated? : Expr → Option Stated
  | .int _ n | .char _ n => some (.number n)
  | .unary _ .neg (.int _ n) | .unary _ .neg (.char _ n) => some (.number (-n))
  | .null _ => some (.number 0)
  | .string _ content => some (.text content)
  | _ => none

/-- The place of a part among the parts of its object. -/
def InitStep.position : InitStep → Nat
  | .element i => i
  | .field f => f.index

mutual

/-- What an initialiser says of the scalar at a path. A text says the characters of an array, and a list
in the place of a scalar says what its first item says. -/
def Initializer.stated? (init : Initializer) (path : List InitStep) : Option Stated :=
  match init, path with
  | .expr e, [] => e.stated?
  | .expr (.string _ content), [.element i] =>
    (content.toUTF8.toList[i]?).map fun byte => .number byte.toNat
  | .expr _, _ => none
  | .list _ items, [] => firstStated? items
  | .list _ items, step :: path => statedIn? items step.position path

/-- What the first item says of a scalar. -/
def firstStated? : List Initializer → Option Stated
  | [] => none
  | item :: _ => item.stated? []

/-- What the item at a position says of a scalar in its part. -/
def statedIn? (items : List Initializer) (i : Nat) (path : List InitStep) : Option Stated :=
  match items, i with
  | [], _ => none
  | item :: _, 0 => item.stated? path
  | _ :: items, i + 1 => statedIn? items i path

end

/-- What a scalar starts with: what the initialiser says, or zero. -/
def Initializer.start (init : Initializer) (path : List InitStep) : Stated :=
  (init.stated? path).getD (.number 0)

/-- The value of type `t` is as stated: the number, wrapped to the type, which is null for a pointer and
zero; or a pointer to the first character of a literal with the text. -/
def Stated.Is (c : Catalog) (t : CType) (v : Value) : Stated → Prop
  | .number n => v = .ofInt n t
  | .text content => t = .pointer .char ∧ ∃ r base e space, v = .pointer r ∧
      c.region r = .element .char (.known 0) base ∧ c.region base = .string e space ∧
      (c.program.expr e).op = .string content

/-! ### Braced initialisers -/

/-- The expression is a literal or the negation of one, and says the number. -/
inductive Expr.Literal : Expr → Int → Prop where
  | int {span : Span} {n : Int} : Literal (.int span n) n
  | char {span : Span} {n : Int} : Literal (.char span n) n
  | negInt {span span' : Span} {n : Int} : Literal (.unary span .neg (.int span' n)) (-n)
  | negChar {span span' : Span} {n : Int} : Literal (.unary span .neg (.char span' n)) (-n)

/-- The expression initialises a scalar of the type: a literal or its negation for a number; zero, null
or, for characters, a text for a pointer. -/
inductive Expr.Initial : CType → Expr → Prop where
  | number {t : CType} {e : Expr} {n : Int} : t.isInteger = true → e.Literal n → Initial t e
  | zero {t : CType} {span : Span} : Initial (.pointer t) (.int span 0)
  | null {t : CType} {span : Span} : Initial (.pointer t) (.null span)
  | text {span : Span} {content : String} : Initial (.pointer .char) (.string span content)

/-- The initialiser is fully braced for the type: a list for each array and each structure, which may be
shorter than the object or longer, or a text for an array of characters. A scalar may stand in braces. -/
inductive Initializer.Braced (p : Program) : CType → Initializer → Prop where
  | scalar {t : CType} {e : Expr} : e.Initial t → Braced p t (.expr e)
  | braces {t : CType} {l : Location} {items : List Initializer} : t.isScalar = true →
    (∀ item, items.head? = some item → Braced p t item) → Braced p t (.list l items)
  | text {size : Option Nat} {span : Span} {content : String} :
    Braced p (.array .char size) (.expr (.string span content))
  | array {t : CType} {size : Option Nat} {l : Location} {items : List Initializer} :
    (∀ item ∈ items, Braced p t item) → Braced p (.array t size) (.list l items)
  | struct {name : String} {owner : StructId} {l : Location} {items : List Initializer} :
    p.structNamed? name = some owner →
    (∀ (i : Nat) item field, items[i]? = some item → (p.struct owner).fields[i]? = some field →
      Braced p field.type item) → Braced p (.struct name) (.list l items)

section

variable {c d : Catalog} {p : Program} {t u : CType} {v : Value} {w : Stated} {e : Expr} {n : Int}
  {step : InitStep}

theorem Initializer.stated?_cons (l : Location) (items : List Initializer) (step : InitStep)
    (path : List InitStep) : (Initializer.list l items).stated? (step :: path) =
      (items[step.position]?).bind fun item => item.stated? path := by
  have hin : ∀ (items : List Initializer) (i : Nat),
      statedIn? items i path = (items[i]?).bind fun item => item.stated? path := fun items i => by
    induction items generalizing i with
    | nil => rw [statedIn?]; rfl
    | cons item items ih =>
      cases i with
      | zero => rw [statedIn?]; rfl
      | succ i => rw [statedIn?, ih, getElem?_cons_succ]
  rw [Initializer.stated?, hin]

theorem Initializer.start_cons {l : Location} {items : List Initializer} {item : Initializer}
    (h : items[step.position]? = some item) (path : List InitStep) :
    (Initializer.list l items).start (step :: path) = item.start path := by
  rw [start, stated?_cons, h]
  rfl

theorem Stated.Is.mono (h : w.Is c t v) (hcd : c ≤ d) : w.Is d t v := by
  cases w with
  | number n => exact h
  | text content =>
    obtain ⟨ht, r, base, e, space, rfl, hr, hbase, he⟩ := h
    have hrhas : c.Has r := has_of_isPart (by rw [hr]; rfl)
    have hbasehas : c.Has base := has_of_parent? (p := space) (by rw [hbase]; rfl)
    refine ⟨ht, r, base, e, space, rfl, ?_, ?_, ?_⟩
    · rw [region_mono hcd hrhas, hr]
    · rw [region_mono hcd hbasehas, hbase]
    · rw [hcd.program, he]

/-- A stated value is a number or a pointer, which is written as it is. -/
theorem Stated.Is.setsWhole_eq (h : w.Is c t v) (type : Option CType) : Store.setsWhole v type = false := by
  cases w with
  | number n =>
    obtain rfl := h
    unfold Value.ofInt
    split <;> rfl
  | text content =>
    obtain ⟨-, r, base, e, space, rfl, -⟩ := h
    rfl

/-- A stated value is read as it is. -/
theorem Stated.Is.fit_eq (h : w.Is c t v) : Store.fit v t = v := by
  cases w with
  | number n =>
    obtain rfl := h
    cases t <;> rfl
  | text content =>
    obtain ⟨-, r, base, e, space, rfl, -⟩ := h
    rfl

theorem Stated.Is.isUndefined_eq (h : w.Is c t v) : v.isUndefined = false := by
  cases w with
  | number n =>
    obtain rfl := h
    unfold Value.ofInt
    split <;> rfl
  | text content =>
    obtain ⟨-, r, base, e, space, rfl, -⟩ := h
    rfl

/-- Zero is read of a part of an object whose parts are all zero. -/
theorem Store.fit_zero (t : CType) : fit (.int 0) t = .ofInt 0 t := by
  cases t <;> rfl

theorem Expr.Initial.isScalar (h : e.Initial t) : t.isScalar = true := by
  cases h with
  | number ht _ => cases t <;> first | rfl | cases ht
  | _ => rfl

/-- A leaf of a scalar is the scalar itself. -/
theorem Program.Leaf.eq_of_isScalar {path : List InitStep} (h : p.Leaf t path u)
    (ht : t.isScalar = true) : path = [] ∧ u = t := by
  cases h with
  | scalar _ => exact ⟨rfl, rfl⟩
  | part hstep _ => cases hstep.isScalar_eq.symm.trans ht

section

variable {q : Program} (hq : q.structs = p.structs)
include hq

theorem Program.structNamed?_of_structs (name : String) : q.structNamed? name = p.structNamed? name := by
  rw [structNamed?, structNamed?, hq]

theorem Program.struct_of_structs (s : StructId) : q.struct s = p.struct s := by rw [struct, struct, hq]

/-- The scalars of a type depend on the structures of the program alone. -/
theorem Program.Leaf.of_structs {path : List InitStep} (h : p.Leaf t path u) : q.Leaf t path u := by
  have hnamed := structNamed?_of_structs hq
  have hstruct := struct_of_structs hq
  induction h with
  | scalar h => exact .scalar h
  | @part t u step path hstep _ ih =>
    have htype : step.typeIn q t = step.typeIn p t := by
      cases step with
      | element n => rfl
      | field f =>
        show (q.field f).type = (p.field f).type
        rw [field, field, hstruct]
    refine .part ?_ (htype ▸ ih)
    cases hstep with
    | element hn => exact .element hn
    | field hname hf => exact .field ((hnamed _).trans hname) (by rwa [hstruct])

/-- So do the braced initialisers of a type. -/
theorem Initializer.Braced.of_structs {init : Initializer} (h : init.Braced p t) : init.Braced q t := by
  induction h with
  | scalar he => exact .scalar he
  | braces ht _ ih => exact .braces ht ih
  | text => exact .text
  | array _ ih => exact .array ih
  | struct hname _ ih =>
    refine .struct ((Program.structNamed?_of_structs hq _).trans hname) fun i item field hitem hfield => ?_
    exact ih i item field hitem (by rwa [← Program.struct_of_structs hq])

/-- Which parts a list reaches depends on the structures alone, too. -/
theorem initSlots_of_structs (t : CType) (count : Nat) : initSlots q t count = initSlots p t count := by
  cases t with
  | struct name =>
    rw [initSlots, initSlots, Program.structNamed?_of_structs hq, funext (Program.struct_of_structs hq)]
  | _ => rfl

end

/-! ### The parts that a list reaches -/

variable {slots : List (CType × InitStep)} {count : Nat}

/-- The parts that a list reaches are in order, with their types. -/
theorem initSlots_sound (h : initSlots p t count = some slots) {i : Nat} {slot : CType × InitStep}
    (hi : slots[i]? = some slot) : slot.2.position = i ∧ slot.1 = slot.2.typeIn p t := by
  cases t with
  | array element size =>
    obtain rfl := Option.some.inj h
    rw [getElem?_map] at hi
    obtain ⟨j, hj, rfl⟩ := Option.map_eq_some_iff.1 hi
    obtain ⟨hlt, rfl⟩ := List.getElem?_eq_some_iff.1 hj
    rw [getElem_range]
    exact ⟨rfl, rfl⟩
  | struct name =>
    obtain ⟨owner, -, hslots⟩ := Option.bind_eq_some_iff.1 h
    obtain rfl := Option.some.inj hslots
    rw [getElem?_map, getElem?_zipIdx] at hi
    obtain ⟨⟨f, j⟩, hj, rfl⟩ := Option.map_eq_some_iff.1 hi
    obtain ⟨g, hg, heq⟩ := Option.map_eq_some_iff.1 hj
    cases heq
    refine ⟨Nat.zero_add i, ?_⟩
    show f.type = (p.field ⟨owner, 0 + i⟩).type
    rw [Program.field, Nat.zero_add, hg]
    rfl
  | _ => cases h

/-- A part that the type declares is reached by a list that is long enough. -/
theorem initSlots_complete (h : initSlots p t count = some slots) (hstep : step.InBounds p t)
    (hlt : step.position < count) : slots[step.position]? = some (step.typeIn p t, step) := by
  cases hstep with
  | @element element size n hn =>
    obtain rfl := Option.some.inj h
    cases size with
    | none => exact absurd hn (Nat.not_lt_zero n)
    | some m =>
      have hlimit : n < Nat.min m count := Nat.lt_min.2 ⟨hn, hlt⟩
      show ((List.range (Nat.min m count)).map _)[n]? = _
      rw [getElem?_map, getElem?_range hlimit]
      rfl
  | @field name f hs hf =>
    obtain ⟨owner, howner, hslots⟩ := Option.bind_eq_some_iff.1 h
    obtain rfl := Option.some.inj hslots
    obtain rfl : f.owner = owner := Option.some.inj (hs.symm.trans howner)
    show ((p.struct f.owner).fields.zipIdx.map _)[f.index]? = _
    rw [getElem?_map, getElem?_zipIdx, getElem?_eq_getElem hf, Nat.zero_add]
    show some (_, InitStep.field ⟨f.owner, f.index⟩) = some ((p.field f).type, _)
    rw [Program.field, getElem?_eq_getElem hf]
    rfl

end

/-! ### Reading what is stated -/

/-- Memory holds what is stated at a region, in bindings of the part `b` of its object alone: the value
itself, or zero for all of some part around the region. -/
def Store.Shows (s : Store) (c : Catalog) (b q : RegionId) (u : CType) (w : Stated) : Prop :=
  (∃ v, s.direct? q = some v ∧ w.Is c u v) ∨
    w = .number 0 ∧ s.direct? q = none ∧ ∃ m ∈ c.layers q, b ∈ c.chain m ∧
      s.default? m = some (.int 0) ∧ ∀ n ∈ c.layers q, m ∈ c.chain n → n ≠ m → s.default? n = none

/-- What is read of the scalar at a path in a variable. -/
def State.readLeaf (s : State) (v : VarId) (f : FrameId) (t : CType) (path : List InitStep) (u : CType) :
    Naming Value := do
  let r ← var v f
  let q ← State.partAt r t path
  StorePolicy.region.retrieve s.store (.region q) u

/-- Every scalar of the variable reads as the initialiser states. -/
def State.ReadsAs (s : State) (c : Catalog) (v : VarId) (f : FrameId) (t : CType) (init : Initializer) :
    Prop :=
  ∀ path u, c.program.Leaf t path u →
    (init.start path).Is (s.readLeaf v f t path u c).2 u (s.readLeaf v f t path u c).1

section

variable {c : Catalog} {s s' : Store} {b r q m : RegionId} {t u : CType} {w : Stated} {f : FrameId}
  {v : VarId}

/-- A variable lies in a space. -/
theorem Catalog.IsVar.parent?_ne_none (h : c.IsVar f v r) : (c.region r).parent? ≠ none := by
  obtain ⟨space, hspace⟩ := h.region_eq
  rw [hspace]
  exact Option.some_ne_none space

/-- What is held is read. -/
theorem Store.Shows.retrieve (h : s.Shows c b q u w) (hc : c.WellFormed) (hu : u.isScalar = true) :
    ∃ v, s.retrieve (.region q) u c = (v, c) ∧ w.Is c u v := by
  rcases h with ⟨v, hv, hw⟩ | ⟨rfl, hnone, m, hm, -, hzero, hnearest⟩
  · refine ⟨v, ?_, hw⟩
    rw [Store.retrieve, retrieveFrom_of_direct hu hv, hw.fit_eq]
  · refine ⟨.ofInt 0 u, ?_, rfl⟩
    rw [Store.retrieve, retrieveFrom_of_default hu hnone, nearestDefault?_of_mem_layers hc hm hzero hnearest,
      ← fit_zero u]

/-- A part of a larger part of the object. -/
theorem Store.Shows.within (h : s.Shows c b q u w) (hr : r ∈ c.chain b) : s.Shows c r q u w :=
  h.imp_right fun ⟨hw, hnone, m, hm, hb, hrest⟩ => ⟨hw, hnone, m, hm, mem_chain_trans hb hr, hrest⟩

/-- Other memory that agrees in the part. -/
theorem Store.Shows.congr (h : s.Shows c b q u w) (hq : b ∈ c.chain q)
    (hss : ∀ k : BindingKey, b ∈ c.chain k.region → s'.bindings.get? k = s.bindings.get? k) :
    s'.Shows c b q u w := by
  have hdirect : s'.direct? q = s.direct? q := hss (.direct q) hq
  have hdefault {m : RegionId} (hm : b ∈ c.chain m) : s'.default? m = s.default? m := hss (.default m) hm
  rcases h with ⟨v, hv, hw⟩ | ⟨hw, hnone, m, hm, hb, hzero, hnearest⟩
  · exact .inl ⟨v, hdirect.trans hv, hw⟩
  · refine .inr ⟨hw, hdirect.trans hnone, m, hm, hb, (hdefault hb).trans hzero, fun n hn hmn hne => ?_⟩
    exact (hdefault (mem_chain_trans hmn hb)).trans (hnearest n hn hmn hne)

/-- A variable all of whose scalars hold what is stated reads so. -/
theorem State.readsAs_of_shows {s : State} {init : Initializer} (hc : c.WellFormed)
    (h : ∀ d, c ≤ d → d.WellFormed → ∀ r, d.IsVar f v r → ∀ path u q,
      c.program.Leaf t path u → d.Route r t path q → s.store.Shows d r q u (init.start path)) :
    s.ReadsAs c v f t init := by
  intro path u hleaf
  have hvar := isVar_var v f c
  have hgrows := grows_var v f c
  obtain ⟨hwell, hgrows', hroute⟩ := route_partAt (wellFormed_var hc v f) hvar.has t path
  obtain ⟨value, hread, hvalue⟩ := (h _ (hgrows.trans hgrows') hwell _ (hvar.mono hgrows') path u _ hleaf
    hroute).retrieve hwell hleaf.isScalar
  have hrun : s.readLeaf v f t path u c = (value,
      (State.partAt (var v f c).1 t path (var v f c).2).2) := hread
  rw [hrun]
  exact hvalue

end

/-! ### The code of scalar items -/

theorem Value.cast_self (ht : t.isScalar = true) (v : Value) : v.cast t t = v := by
  have hvoid : t.isVoid = false := by cases t <;> first | rfl | cases ht
  simp [cast, hvoid]

/-- An `int` with the residue of a number converts to what the number is as a value of the type. -/
theorem Value.cast_of_dvd (ht : t.isInteger = true) (hk : k ∈ CType.int.domain)
    (h : (2 ^ 32 : Int) ∣ k - n) : (Value.int k).cast .int t = .ofInt n t := by
  cases t with
  | int =>
    refine congrArg Value.int (eq_of_dvd_sub hk (wrap_mem_domain rfl n) ?_)
    exact (sub_sub_sub_cancel_right k _ n) ▸ dvd_sub h (dvd_typeWrap_sub .int n)
  | char =>
    refine congrArg Value.int (eq_of_dvd_sub (wrap_mem_domain rfl k) (wrap_mem_domain rfl n) ?_)
    have hwide : (2 ^ RangeSet.wrapWidth .char : Int) ∣ k - n := (by decide : (2 ^ 8 : Int) ∣ 2 ^ 32).trans h
    have hk' := dvd_add (dvd_typeWrap_sub .char k) hwide
    rw [sub_add_sub_cancel] at hk'
    exact (sub_sub_sub_cancel_right (CType.char.wrap k) _ n) ▸ dvd_sub hk' (dvd_typeWrap_sub .char n)
  | _ => cases ht

namespace Lowering

variable {s s' : Lowering} {x : ExprId} {t t' : CType} {P : Catalog → Value → Prop}

/-- A conversion between scalars. -/
theorem Gives.exists_convert (h : s.Gives x s' t P) (ht : t.isScalar = true) (ht' : t'.isScalar = true) :
    ∃ y s'', Lower.convert x t' s' = .ok (y, s'') ∧
      s.Gives y s'' t' fun c v => ∃ v', P c v' ∧ v = v'.cast t t' := by
  by_cases hsame : t = t'
  · subst hsame
    exact ⟨x, s', convert_of_type h.type_eq, h.imp fun c v hv => ⟨v, hv, (Value.cast_self ht v).symm⟩⟩
  · obtain ⟨s'', hadd, hgives⟩ := h.brings.gives (P := fun c v => ∃ v', P c v' ∧ v = v'.cast t t')
      (.cast x) t' (s'.program.expr x).span rfl rfl fun f u c hnew hc hvalue => by
        refine ⟨trivial, _, c, ?_, id, _, hvalue, rfl⟩
        simp only [State.evaluate?, bind_apply, query_apply, hnew, h.expr_eq hc]
        rfl
    refine ⟨_, s'', ?_, hgives⟩
    refine Lower.bind_eq_ok.2 ⟨_, s', rfl, ?_⟩
    rw [h.type_eq, if_neg hsame, ht, ht', if_pos (by simp)]
    exact hadd

end Lowering

open Lowering in
/-- The negation of a number. -/
theorem Lowering.GivesInt.exists_neg {a : Expr} {s' : Lowering} {x : ExprId} (h : s.GivesInt x s' k)
    (hvalue : (lower a).value s = .ok (x, s')) (hk : (2 ^ 32 : Int) ∣ k - n) (span : Span) :
    ∃ y s'' m, (lower (.unary span .neg a)).value s = .ok (y, s'') ∧
      s.GivesInt y s'' m ∧ m ∈ CType.int.domain ∧ (2 ^ 32 : Int) ∣ m - -n := by
  obtain ⟨y, s'', hplace, hgives⟩ := h.exists_lowerUnary hvalue span (.inl ⟨rfl, rfl⟩) rfl
  refine ⟨y, s'', _, hgives.value_eq_ok ?_, hgives, wrap_mem_domain rfl _, ?_⟩
  · rw [lower]
    exact hplace a.location
  · have hsum := dvd_sub (dvd_wrap_sub .int (0 - k)) hk
    rwa [show CType.int.wrap (Word.wrap (0 - k)) - (0 - k) - (k - n) =
      CType.int.wrap (Word.wrap (0 - k)) - -n by ring] at hsum

open Lowering in
/-- The code of a literal gives an `int` with the residue of what the literal says. -/
theorem Expr.Literal.exists_gives (h : e.Literal n) (hs : s.Placed) :
    ∃ x s' k, (lower e).value s = .ok (x, s') ∧ s.GivesInt x s' k ∧ k ∈ CType.int.domain ∧
      (2 ^ 32 : Int) ∣ k - n := by
  cases h with
  | int | char =>
    obtain ⟨x, s', hvalue, hgives⟩ := exists_givesInt_literal hs (by rw [lower])
    exact ⟨x, s', _, hvalue, hgives, wrap_mem_domain rfl n, dvd_typeWrap_sub .int n⟩
  | negInt | negChar =>
    obtain ⟨x, s', hvalue, hgives⟩ := exists_givesInt_literal hs (by rw [lower])
    exact hgives.exists_neg hvalue (dvd_typeWrap_sub .int _) _

open Lowering in
/-- The null pointer. -/
theorem Lowering.exists_gives_null (hs : s.Placed) (span : Span) :
    ∃ x s', (lower (.null span)).value s = .ok (x, s') ∧
      s.Gives x s' (.pointer .void) fun _ v => v = .null := by
  obtain ⟨s', hadd, hgives⟩ := (Brings.refl hs).gives (P := fun _ v => v = .null) .null
    (.pointer .void) span rfl rfl fun f u c hx _ _ => by
      refine ⟨trivial, _, c, ?_, id, rfl⟩
      simp only [State.evaluate?, bind_apply, query_apply, hx]
      rfl
  exact ⟨_, s', hgives.value_eq_ok (by rw [lower]; exact hadd), hgives⟩

open Lowering in
/-- A text in the place of a pointer points to its first character. -/
theorem Lowering.exists_gives_text (hs : s.Placed) (span : Span) (content : String) :
    ∃ x s', (lower (.string span content)).value s = .ok (x, s') ∧
      s.Gives x s' (.pointer .char) fun c v => (Stated.text content).Is c (.pointer .char) v := by
  let text : ExprId := ⟨s.program.exprs.size⟩
  let type : CType := .array .char (some (content.utf8ByteSize + 1))
  -- first the literal as a place
  obtain ⟨s', hadd, hbrings, -, hlt, hnew⟩ := (Brings.refl hs).addExpr (P := fun f u c =>
    ∃ base space, u.value f text = .pointer base ∧ c.region base = .string text space)
    (.string content) type span rfl fun f u c hx _ _ => by
      obtain ⟨space, hbase, -⟩ := region_inSpace (.globals .immutable) (.string text) c
      refine ⟨trivial, .pointer (string text c).1, (string text c).2, ?_, fun hc =>
        wellFormed_inSpace hc _ fun _ => rfl, _, space, State.value_bindExpr_self .., hbase⟩
      simp only [State.evaluate?, bind_apply, query_apply, hx]
      rfl
  -- then the pointer to its first character
  obtain ⟨s'', hdecay, hgives⟩ := hbrings.gives
    (P := fun c v => (Stated.text content).Is c (.pointer .char) v) (.decay text) (.pointer .char) span
    rfl rfl fun f u c hx hc hplace => by
      obtain ⟨base, space, hvalue, hbase⟩ := hplace
      have htext : c.program.expr text = _ := (hc text le_rfl hlt).trans hnew
      have hhas : c.Has base := has_of_parent? (p := space) (by rw [hbase]; rfl)
      have hgrows := grows_region (.element .char (.known 0) base) c
      refine ⟨trivial, .pointer (region (.element .char (.known 0) base) c).1,
        (region (.element .char (.known 0) base) c).2, ?_, fun hwell => ?_, rfl, _, base, text,
        space, rfl, region_region _ _, ?_, ?_⟩
      · simp only [State.evaluate?, bind_apply, query_apply, hx, htext, hvalue]
        rfl
      · exact wellFormed_regionIn hwell hhas (.array .char none) (.element 0)
      · rw [region_mono hgrows hhas, hbase]
      · rw [hgrows.program, htext]
  refine ⟨_, s'', ?_, hgives⟩
  have hplace : (lower (.string span content)).place s = .ok (text, s') := by
    rw [lower]
    exact hadd
  refine Lower.bind_eq_ok.2 ⟨text, s', hplace, Lower.bind_eq_ok.2 ⟨s'.program.expr text, s', rfl, ?_⟩⟩
  rw [hnew]
  exact hdecay

open Lowering in
/-- **The code of a scalar item.** The code of an expression that initialises a scalar of some type,
converted to this type, gives the value that it states. -/
theorem Expr.Initial.exists_gives (h : e.Initial t) (hs : s.Placed) :
    ∃ y s1 x s', (lower e).value s = .ok (y, s1) ∧ Lower.convert y t s1 = .ok (x, s') ∧
      s.Gives x s' t fun c v => (((Initializer.expr e).start []).Is c t v) := by
  have ht := h.isScalar
  have hstart {w : Stated} (hw : e.stated? = some w) : (Initializer.expr e).start [] = w := by
    rw [Initializer.start, Initializer.stated?, hw]
    rfl
  cases h with
  | @number t e n hint hlit =>
    obtain ⟨y, s1, k, hvalue, hgives, hk, hdvd⟩ := hlit.exists_gives hs
    obtain ⟨x, s', hconvert, hgives'⟩ := hgives.exists_convert rfl ht
    refine ⟨y, s1, x, s', hvalue, hconvert, hgives'.imp fun c v hv => ?_⟩
    obtain ⟨_, rfl, rfl⟩ := hv
    rw [hstart (w := .number n) (by cases hlit <;> rfl)]
    exact Value.cast_of_dvd hint hk hdvd
  | @zero t span =>
    obtain ⟨y, s1, hvalue, hgives⟩ := exists_givesInt_literal (n := 0) hs (by rw [lower])
    obtain ⟨x, s', hconvert, hgives'⟩ := hgives.exists_convert rfl ht
    refine ⟨y, s1, x, s', hvalue, hconvert, hgives'.imp fun c v hv => ?_⟩
    obtain ⟨_, rfl, rfl⟩ := hv
    rfl
  | @null t span =>
    obtain ⟨y, s1, hvalue, hgives⟩ := exists_gives_null hs span
    obtain ⟨x, s', hconvert, hgives'⟩ := hgives.exists_convert rfl ht
    refine ⟨y, s1, x, s', hvalue, hconvert, hgives'.imp fun c v hv => ?_⟩
    obtain ⟨_, rfl, rfl⟩ := hv
    rw [hstart rfl]
    exact ite_self _
  | @text span content =>
    obtain ⟨x, s', hvalue, hgives⟩ := exists_gives_text hs span content
    exact ⟨x, s', x, s', hvalue, convert_of_type hgives.type_eq, hgives⟩

end PathScout

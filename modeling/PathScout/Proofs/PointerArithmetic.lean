import PathScout.Proofs.AliasedReads
import PathScout.Proofs.NamingLaws

/-!
# Steps of pointers

A pointer to elements of a type moves in an array: an element in the one that it lies in, and any other
region in an array that starts at that region. One step by a number of elements is therefore as good as
two, and the difference of two pointers is the number of elements between them. Two things are left: a
region that holds a value of the type itself is not its own first element, to which pointers come back
after steps away; and fixed addresses move by bytes, which are not counted back into elements.

* `Catalog.row`: the array in which a pointer moves, and its position there.
* `Naming.move`, `Naming.subscript`: a pointer that is moved, and the place that it then points to.
* `Naming.move_spec`, `Naming.subscript_spec`, `Naming.subscriptMoved_spec`: the regions that these name.
* `Naming.pointerDiff_moves`: the difference of two pointers that were moved.
* `Naming.subscript_move`: one step and two steps.
-/

namespace PathScout

open Catalog

/-! ### Words -/

/-- The number is a word: a computation with this result does not overflow. -/
def Word.Fits (n : Int) : Prop := Word.min ≤ n ∧ n ≤ Word.max

instance (n : Int) : Decidable (Word.Fits n) := inferInstanceAs (Decidable (_ ∧ _))

theorem Word.wrap_of_fits {n : Int} (h : Word.Fits n) : Word.wrap n = n := by
  obtain ⟨hlo, hhi⟩ := h
  simp only [Word.min, Word.max] at hlo hhi
  exact Int.bmod_eq_of_le (by norm_num; omega) (by norm_num; omega)

/-! ### Arrays that pointers move in -/

namespace Catalog

variable {c d : Catalog} {r q a : RegionId} {t u : CType} {k n : Int}

/-- Is the region an element of type `t` at a known position? -/
def isElement (c : Catalog) (r : RegionId) (t : CType) : Bool :=
  match c.region r with
  | .element u (.known _) _ => u == t
  | _ => false

/-- The array in which a pointer to elements of type `t` moves, and its position there. Regions that are no
such elements are where an array of them starts. -/
def row (c : Catalog) (r : RegionId) (t : CType) : RegionId × Int :=
  match c.region r with
  | .element u (.known k) a => if u = t then (a, k) else (r, 0)
  | _ => (r, 0)

/-- The element that lies `n` elements behind a region. -/
def behind (c : Catalog) (r : RegionId) (t : CType) (n : Int) : Region :=
  .element t (.known (Word.wrap ((c.row r t).2 + n))) (c.row r t).1

theorem isElement_iff : c.isElement r t = true ↔
    c.region r = .element t (.known (c.row r t).2) (c.row r t).1 := by
  unfold isElement row
  cases h : c.region r with
  | element u i a =>
    cases i with
    | known k =>
      by_cases hu : u = t
      · simp [hu]
      · simp [hu]
    | symbolic s => simp
  | _ => simp

theorem row_of_not_isElement (h : c.isElement r t = false) : c.row r t = (r, 0) := by
  unfold isElement at h
  unfold row
  split at h
  · exact if_neg (by simpa using h)
  · rfl

theorem row_of_region (h : c.region q = .element t (.known k) a) : c.row q t = (a, k) := by
  rw [row, h]
  exact if_pos rfl

theorem row_mono (hcd : c ≤ d) (hr : c.Has r) : d.row r t = c.row r t := by
  rw [row, row, region_mono hcd hr]

theorem isElement_mono (hcd : c ≤ d) (hr : c.Has r) : d.isElement r t = c.isElement r t := by
  rw [isElement, isElement, region_mono hcd hr]

theorem isSeenAs_mono (hcd : c ≤ d) (hr : c.Has r) : d.isSeenAs r t = c.isSeenAs r t := by
  rw [isSeenAs, isSeenAs, valueType?_mono hcd hr, region_mono hcd hr]

/-- An element holds a value of its type. -/
theorem isSeenAs_of_region {i : RegionIndex} (h : c.region q = .element t i a) :
    c.isSeenAs q t = true := by
  simp [isSeenAs, valueType?, h]

/-- The place that a pointer to a region points to once it is moved by `n` elements of type `t`: the
element there, and without a step the region itself, if it holds a value of that type, or else its first
element. -/
def placeBehind (c : Catalog) (r : RegionId) (t : CType) (n : Int) : Region :=
  if n = 0 then if c.isSeenAs r t then c.region r else .element t (.known 0) r
  else c.behind r t n

theorem placeBehind_mono (hcd : c ≤ d) (hr : c.Has r) : d.placeBehind r t n = c.placeBehind r t n := by
  rw [placeBehind, placeBehind, isSeenAs_mono hcd hr, region_mono hcd hr, behind, behind,
    row_mono hcd hr]

/-- After a step to another element, a step by `m` is a step by the sum, with the sum of zero leading back
to the position where the first step began. -/
theorem placeBehind_of_region {m : Int} (hq : d.region q = c.behind r t n) :
    d.placeBehind q t m = c.behind r t (n + m) := by
  have hrow : d.row q t = ((c.row r t).1, Word.wrap ((c.row r t).2 + n)) := row_of_region hq
  unfold placeBehind
  split
  · next hm => rw [if_pos (isSeenAs_of_region hq), hq, hm, add_zero]
  · rw [behind, hrow, behind, wrap_add_wrap, Int.add_assoc]

/-- A step by zero elements along the array leads to the same place as no step, unless the region holds a
value of the type and is no element. -/
theorem behind_zero_eq_iff (hk : Word.Fits (c.row r t).2) : c.behind r t 0 = c.placeBehind r t 0 ↔
      ¬(c.isSeenAs r t = true ∧ c.isElement r t = false) := by
  rw [behind, placeBehind, if_pos rfl, add_zero, Word.wrap_of_fits hk]
  by_cases he : c.isElement r t = true
  · have hr := isElement_iff.1 he
    rw [if_pos (isSeenAs_of_region hr), ← hr, he]
    simp
  · rw [Bool.not_eq_true] at he
    rw [row_of_not_isElement he, he]
    by_cases hs : c.isSeenAs r t = true
    · rw [if_pos hs, hs]
      refine iff_of_false (fun hr => ?_) (by simp)
      rw [isElement, ← hr] at he
      simp at he
    · rw [if_neg hs]
      simp [hs]

end Catalog

namespace Naming

variable {c d : Catalog} {r q a : RegionId} {t : CType} {op op' : BinaryOp} {i k m n : Int}

/-- A pointer to elements of type `t`, moved by some of them. -/
def move (op : BinaryOp) (p : Value) (n : Int) (t : CType) : Naming Value :=
  binary op p (.int n) (.pointer t)

/-- The place that a pointer to elements of type `t` points to once it is moved. -/
def subscript (op : BinaryOp) (p : Value) (n : Int) (t : CType) : Naming Value := do
  within (← move op p n t) (castRegion · t)

/-- Regions move by elements. -/
theorem moveRegion_apply (hn : Word.Fits n) (r : RegionId) (t : CType) (c : Catalog) :
    moveRegion t r n c = if n = 0 then (.pointer r, c)
      else (.pointer (region (c.behind r t n) c).1, (region (c.behind r t n) c).2) := by
  unfold moveRegion
  rw [ite_apply]
  by_cases h0 : n = 0
  · rw [if_pos h0, if_pos h0]
    rfl
  · rw [if_neg h0, if_neg h0, bind_apply, query_apply, Catalog.behind, Catalog.row]
    cases hr : c.region r with
    | element u i a =>
      cases i with
      | known k =>
        by_cases hu : u = t
        · simp [hu]
        · simp [hu, Word.wrap_of_fits hn]
      | symbolic s => simp [Word.wrap_of_fits hn]
    | _ => simp [Word.wrap_of_fits hn]

theorem move_region (hop : op = .add ∨ op = .sub) (r : RegionId) (n : Int) (t : CType) :
    move op (.pointer r) n t = moveRegion (steppedType (.pointer t)) r (addend op n) := by
  unfold move binary
  simp only [Value.isUndefined, Value.isUnknown, Value.pointer, Bool.or_false, Bool.false_eq_true,
    if_false]
  exact if_pos hop

/-- **Moving a pointer.** Without a step it stays where it is, and else it points to the element of its
array behind it. -/
theorem move_spec (hr : c.Has r) (hop : op = .add ∨ op = .sub) (hn : Word.Fits (addend op n)) :
    ∃ q d, move op (.pointer r) n t c = (.pointer q, d) ∧ c ≤ d ∧ d.Has q ∧
      (addend op n = 0 → q = r ∧ d = c) ∧
      (addend op n ≠ 0 → d.region q = c.behind r (steppedType (.pointer t)) (addend op n)) := by
  rw [move_region hop, moveRegion_apply hn]
  split
  · next h0 => exact ⟨r, c, rfl, le_rfl, hr, fun _ => ⟨rfl, rfl⟩, fun h => absurd h0 h⟩
  · next h0 =>
    exact ⟨_, _, rfl, grows_region _ c, has_region _ c, fun h => absurd h h0,
      fun _ => region_region _ c⟩

theorem castRegion_apply (r : RegionId) (t : CType) (c : Catalog) :
    castRegion r t c = if c.isSeenAs r t then (r, c) else region (.element t (.known 0) r) c := by
  unfold castRegion
  rw [bind_apply, query_apply, ite_apply]
  rfl

theorem steppedType_pointer (ht : t ≠ .void) : steppedType (.pointer t) = t := by
  cases t <;> first | rfl | exact absurd rfl ht

/-- **The place behind a pointer.** -/
theorem subscript_spec (hr : c.Has r) (ht : t ≠ .void) (hop : op = .add ∨ op = .sub)
    (hn : Word.Fits (addend op n)) :
    ∃ q d, subscript op (.pointer r) n t c = (.pointer q, d) ∧ c ≤ d ∧ d.Has q ∧
      d.region q = c.placeBehind r t (addend op n) := by
  obtain ⟨q, d, hmove, hcd, hq, hzero, hne⟩ := move_spec (t := t) hr hop hn
  rw [steppedType_pointer ht] at hne
  have hout : subscript op (.pointer r) n t c =
      (.pointer (castRegion q t d).1, (castRegion q t d).2) := by
    rw [subscript, bind_apply, hmove]
    rfl
  rw [hout, castRegion_apply]
  by_cases h0 : addend op n = 0
  · obtain ⟨rfl, rfl⟩ := hzero h0
    rw [Catalog.placeBehind, if_pos h0]
    split
    · exact ⟨_, _, rfl, le_rfl, hq, rfl⟩
    · exact ⟨_, _, rfl, grows_region _ _, has_region _ _, region_region _ _⟩
  · rw [if_pos (isSeenAs_of_region (hne h0)), Catalog.placeBehind, if_neg h0]
    exact ⟨_, _, rfl, hcd, hq, hne h0⟩

/-- The place that a pointer to a region points to once it was moved twice. -/
def subscriptMoved (op op' : BinaryOp) (r : RegionId) (m n : Int) (t : CType) : Naming Value := do
  subscript op' (← move op (.pointer r) m t) n t

/-- **The place behind a pointer that was moved.** After a step to another element both steps count from
where the pointer was. -/
theorem subscriptMoved_spec (hr : c.Has r) (ht : t ≠ .void) (hop : op = .add ∨ op = .sub)
    (hop' : op' = .add ∨ op' = .sub) (hi : Word.Fits (addend op m)) (hj : Word.Fits (addend op' n)) :
    ∃ q d, subscriptMoved op op' r m n t c = (.pointer q, d) ∧ c ≤ d ∧ d.Has q ∧
      d.region q = if addend op m = 0 then c.placeBehind r t (addend op' n)
        else c.behind r t (addend op m + addend op' n) := by
  obtain ⟨p, d, hmove, hcd, hp, hzero, hne⟩ := move_spec (t := t) hr hop hi
  obtain ⟨q, e, hsub, hde, hq, hregion⟩ := subscript_spec hp ht hop' hj
  refine ⟨q, e, ?_, hcd.trans hde, hq, ?_⟩
  · rw [subscriptMoved, bind_apply, hmove]
    exact hsub
  · rw [hregion]
    by_cases h0 : addend op m = 0
    · obtain ⟨rfl, rfl⟩ := hzero h0
      rw [if_pos h0]
    · rw [if_neg h0]
      rw [steppedType_pointer ht] at hne
      exact placeBehind_of_region (hne h0)

end Naming

/-! ### Differences -/

namespace Catalog

variable {d : Catalog} {q r a : RegionId} {t : CType} {x y n : Int}

/-- Two elements of one array lie as far from each other as their positions. -/
theorem pointerDiff_elements (hq : d.region q = .element t (.known x) a)
    (hr : d.region r = .element t (.known y) a) :
    Value.pointerDiff d (.pointer q) (.pointer r) = .int (Word.wrap (x - y)) := by
  simp only [Value.pointerDiff, Value.pointer, hq, hr, and_self, if_true]
  split
  · next h =>
    subst h
    obtain rfl : x = y := by simpa using hq.symm.trans hr
    rw [Int.sub_self]
    rfl
  · rfl

/-- The distance between an element and a region that is none is not known. -/
theorem pointerDiff_of_not_isElement (hq : d.isElement q t = false)
    (hr : d.region r = .element t (.known y) a) :
    Value.pointerDiff d (.pointer q) (.pointer r) = .unknown ∧
      Value.pointerDiff d (.pointer r) (.pointer q) = .unknown := by
  have hne : q ≠ r := by
    rintro rfl
    simp [isElement, hr] at hq
  unfold isElement at hq
  simp only [Value.pointerDiff, Value.pointer, if_neg hne, if_neg hne.symm, hr]
  cases hregion : d.region q with
  | element u k b =>
    cases k with
    | known k =>
      have hu : u ≠ t := by simpa [hregion] using hq
      simp [hu, hu.symm]
    | symbolic s => exact ⟨rfl, rfl⟩
  | _ => exact ⟨rfl, rfl⟩

/-- Differences respect wrapping. -/
theorem wrap_sub_congr {x' y' : Int} (hx : Word.wrap x = Word.wrap x')
    (hy : Word.wrap y = Word.wrap y') : Word.wrap (x - y) = Word.wrap (x' - y') := by
  have hwrap (m n : Int) : Word.wrap (Word.wrap m - Word.wrap n) = Word.wrap (m - n) :=
    Int.bmod_sub_bmod.trans Int.sub_bmod_bmod
  calc
    Word.wrap (x - y) = Word.wrap (Word.wrap x - Word.wrap y) := (hwrap x y).symm
    _ = Word.wrap (Word.wrap x' - Word.wrap y') := by rw [hx, hy]
    _ = Word.wrap (x' - y') := hwrap x' y'

end Catalog

/-- What the address of a place grows by with one element: regions count elements, and fixed addresses
count bytes. -/
def Loc.stride (c : Catalog) (t : CType) : Loc → Int
  | .region _ => 1
  | .address _ => c.program.sizeWord t

/-- Is the place an element of type `t` at a known position? Fixed addresses count as elements of the memory
as a whole. -/
def Loc.isElement (c : Catalog) (t : CType) : Loc → Bool
  | .region r => c.isElement r t
  | .address _ => true

namespace Naming

variable {c d e : Catalog} {r : RegionId} {t : CType} {a i j n : Int}

theorem move_zero (r : RegionId) (t : CType) (c : Catalog) :
    move .add (.pointer r) 0 t c = (.pointer r, c) := by
  rw [move_region (.inl rfl), moveRegion_apply (by decide)]
  rfl

/-- Elements stay elements of their array, and other regions become elements once they are moved. -/
theorem move_element (hr : c.Has r) (hn : Word.Fits n)
    (h : c.isElement r (steppedType (.pointer t)) = true ∨ n ≠ 0) :
    ∃ q d x, move .add (.pointer r) n t c = (.pointer q, d) ∧ c ≤ d ∧ d.Has q ∧
      d.region q = .element (steppedType (.pointer t)) (.known x) (c.row r (steppedType (.pointer t))).1 ∧
      Word.wrap x = Word.wrap ((c.row r (steppedType (.pointer t))).2 + n) := by
  obtain ⟨q, d, hmove, hcd, hq, hzero, hne⟩ := move_spec (t := t) hr (.inl rfl) hn
  by_cases h0 : n = 0
  · obtain ⟨rfl, rfl⟩ := hzero h0
    have he := isElement_iff.1 (h.resolve_right (absurd h0))
    exact ⟨_, _, _, hmove, hcd, hq, he, by rw [h0, Int.add_zero]⟩
  · exact ⟨_, _, _, hmove, hcd, hq, hne h0, wrap_wrap _⟩

/-- The difference of two pointers into a region is the number of elements, or it is not known. -/
theorem pointerDiff_move_region {p p' : Value} (hr : c.Has r) (hi : Word.Fits i) (hj : Word.Fits j)
    (hij : Word.Fits (i - j)) (hp : move .add (.pointer r) i t c = (p, d))
    (hp' : move .add (.pointer r) j t d = (p', e)) :
    Value.pointerDiff e p p' =
      if c.isElement r (steppedType (.pointer t)) = true ∨ i = j ∨ i ≠ 0 ∧ j ≠ 0 then .int (i - j)
      else .unknown := by
  set u := steppedType (.pointer t)
  by_cases helements : c.isElement r u = true ∨ i ≠ 0 ∧ j ≠ 0
  · obtain ⟨q, d', x, hmove, hcd, hq, hx, hxi⟩ := move_element hr hi (helements.imp_right And.left)
    obtain ⟨rfl, rfl⟩ := Prod.mk.inj (hp.symm.trans hmove)
    obtain ⟨q', e', y, hmove', hde, -, hy, hyj⟩ := move_element (t := t) (hr.mono hcd) hj
      (helements.imp (by rw [isElement_mono hcd hr]; exact id) And.right)
    obtain ⟨rfl, rfl⟩ := Prod.mk.inj (hp'.symm.trans hmove')
    rw [row_mono hcd hr] at hy hyj
    rw [← region_mono hde hq] at hx
    rw [if_pos (helements.imp_right .inr), pointerDiff_elements hx hy,
      wrap_sub_congr hxi hyj, Int.add_sub_add_left, Word.wrap_of_fits hij]
  · rw [not_or, Bool.not_eq_true] at helements
    obtain ⟨hr', hzero⟩ := helements
    -- One of the two pointers, or both, are the region itself.
    by_cases hi0 : i = 0
    · rw [hi0, move_zero] at hp
      obtain ⟨rfl, rfl⟩ := Prod.mk.inj hp
      by_cases hj0 : j = 0
      · rw [hj0, move_zero] at hp'
        obtain ⟨rfl, rfl⟩ := Prod.mk.inj hp'
        rw [if_pos (.inr (.inl (hi0.trans hj0.symm))), hi0, hj0]
        exact if_pos rfl
      · obtain ⟨q, e', y, hmove, hcd, -, hy, -⟩ := move_element (t := t) hr hj (.inr hj0)
        obtain ⟨rfl, rfl⟩ := Prod.mk.inj (hp'.symm.trans hmove)
        rw [if_neg (by simp [hr', hi0, Ne.symm hj0])]
        exact (pointerDiff_of_not_isElement ((isElement_mono hcd hr).trans hr') hy).1
    · have hj0 : j = 0 := by
        by_contra hj0
        exact hzero ⟨hi0, hj0⟩
      obtain ⟨q, d', x, hmove, hcd, -, hx, -⟩ := move_element (t := t) hr hi (.inr hi0)
      obtain ⟨rfl, rfl⟩ := Prod.mk.inj (hp.symm.trans hmove)
      rw [hj0, move_zero] at hp'
      obtain ⟨rfl, rfl⟩ := Prod.mk.inj hp'
      rw [if_neg (by simp [hr', hi0, hj0])]
      exact (pointerDiff_of_not_isElement ((isElement_mono hcd hr).trans hr') hx).2

/-- The difference of two fixed addresses counts bytes. -/
theorem pointerDiff_move_address
    (hij : Word.Fits ((i - j) * c.program.sizeWord (steppedType (.pointer t)))) :
    let q := move .add (.loc (.address a)) i t c
    let q' := move .add (.loc (.address a)) j t q.2
    Value.pointerDiff q'.2 q.1 q'.1 =
      .int ((i - j) * c.program.sizeWord (steppedType (.pointer t))) := by
  have hwrap (n : Int) : Word.wrap (Word.wrap (a + Word.wrap n)) = Word.wrap (a + n) := by
    rw [wrap_wrap, Int.add_comm, wrap_add_wrap, Int.add_comm]
  set size := c.program.sizeWord (steppedType (.pointer t))
  show Value.int (Word.wrap
    (Word.wrap (a + Word.wrap (i * size)) - Word.wrap (a + Word.wrap (j * size)))) = _
  rw [wrap_sub_congr (hwrap _) (hwrap _), Int.add_sub_add_left, ← Int.sub_mul, Word.wrap_of_fits hij]

/-- **The difference of two pointers that were moved.** It is known exactly if both point into one array:
if the pointer is an element, or both were moved, or by the same number. Then it is the number of elements
that they were moved apart, times what the pointer counts in. So at regions every known difference is the
number of elements, and at fixed addresses it is so only for types of one byte, or if there is no
difference. -/
theorem pointerDiff_moves (p : Loc) (hp : ∀ r, p = .region r → c.Has r) (hi : Word.Fits i)
    (hj : Word.Fits j) (hij : Word.Fits ((i - j) * p.stride c (steppedType (.pointer t)))) :
    let q := move .add (.loc p) i t c
    let q' := move .add (.loc p) j t q.2
    Value.pointerDiff q'.2 q.1 q'.1 =
        (if p.isElement c (steppedType (.pointer t)) = true ∨ i = j ∨ i ≠ 0 ∧ j ≠ 0 then
          .int ((i - j) * p.stride c (steppedType (.pointer t)))
        else .unknown) ∧
      ∀ n, Value.pointerDiff q'.2 q.1 q'.1 = .int n →
        (n = i - j ↔ i = j ∨ p.stride c (steppedType (.pointer t)) = 1) := by
  intro q q'
  have hdiff : Value.pointerDiff q'.2 q.1 q'.1 =
      if p.isElement c (steppedType (.pointer t)) = true ∨ i = j ∨ i ≠ 0 ∧ j ≠ 0 then
        .int ((i - j) * p.stride c (steppedType (.pointer t)))
      else .unknown := by
    cases p with
    | region r =>
      rw [Loc.stride, Int.mul_one] at hij ⊢
      exact pointerDiff_move_region (hp r rfl) hi hj hij rfl rfl
    | address a => exact (pointerDiff_move_address hij).trans (if_pos (.inl rfl)).symm
  refine ⟨hdiff, fun n hn => ?_⟩
  rw [hdiff] at hn
  split at hn
  · obtain rfl := Value.int.inj hn
    rw [mul_right_eq_self₀, sub_eq_zero, or_comm]
  · cases hn

/-- The element 0 of the array of `aliasCatalog`, moved by three elements, lies three elements behind
itself. -/
theorem pointerDiff_moves_array :
    (∀ r, Loc.region ⟨2⟩ = .region r → Store.aliasCatalog.Has r) ∧ Word.Fits 3 ∧ Word.Fits 0 ∧
      Word.Fits ((3 - 0) * (Loc.region ⟨2⟩).stride Store.aliasCatalog .int) ∧
      let q := move .add (.loc (.region ⟨2⟩)) 3 .int Store.aliasCatalog
      let q' := move .add (.loc (.region ⟨2⟩)) 0 .int q.2
      Value.pointerDiff q'.2 q.1 q'.1 = .int 3 := by
  have hhas : ∀ r, Loc.region ⟨2⟩ = .region r → Store.aliasCatalog.Has r := by
    rintro _ ⟨⟩
    decide
  have hthree : Word.Fits 3 := by decide
  have hzero : Word.Fits 0 := by decide
  have hdiff : Word.Fits ((3 - 0) * (Loc.region ⟨2⟩).stride Store.aliasCatalog .int) := by decide
  refine ⟨hhas, hthree, hzero, hdiff, ?_⟩
  exact (pointerDiff_moves (t := .int) (.region ⟨2⟩) hhas hthree hzero hdiff).1

/-- At the fixed address 16, three elements of type `int` and one element lie eight apart, and not two. -/
theorem pointerDiff_counts_bytes : ∃ (c : Catalog) (a i j n : Int),
    Word.Fits i ∧ Word.Fits j ∧ Word.Fits (a + i * c.program.sizeWord .int) ∧
      (let q := move .add (.loc (.address a)) i .int c
       let q' := move .add (.loc (.address a)) j .int q.2
       Value.pointerDiff q'.2 q.1 q'.1 = .int n) ∧ n = 8 ∧ i - j = 2 := by
  have hsize : Store.aliasCatalog.program.sizeWord .int = 4 := by
    rw [Program.sizeWord, Program.byteSize_int]
    rfl
  refine ⟨Store.aliasCatalog, 16, 3, 1, (3 - 1) * Store.aliasCatalog.program.sizeWord .int,
    by decide, by decide, by rw [hsize]; decide, ?_, by rw [hsize]; rfl, rfl⟩
  exact pointerDiff_move_address (t := .int) (by rw [steppedType_pointer (by decide), hsize]; decide)

end Naming

/-! ### One step and two steps -/

/-- A number that is written to a region is read at that region and seen nowhere else. -/
theorem Store.retrieve_bind_number_eq_ite {c : Catalog} {s : Store} {r q : RegionId} {t : CType}
    {v : Value} (ht : t.isScalar = true) (hv : v.IsNumber t) :
    (s.bind c (.region r) v).retrieve (.region q) t c =
      if q = r then (v, c) else s.retrieve (.region q) t c := by
  split
  · next h =>
    subst h
    exact retrieve_bind_number_self ht hv
  · next h => exact retrieve_bind_of_ne (setsWhole_of_isNumber hv _) ht h

namespace Naming

variable {c : Catalog} {r : RegionId} {t : CType} {op op' : BinaryOp} {i j m n : Int}

/-- Two steps lead to the place of one step, unless they come back to a region that holds a value of the
type and is no element. -/
theorem twoSteps_eq_iff (hk : Word.Fits (c.row r t).2) :
    (if i = 0 then c.placeBehind r t j else c.behind r t (i + j)) = c.placeBehind r t (i + j) ↔
      ¬(i ≠ 0 ∧ i + j = 0 ∧ c.isSeenAs r t = true ∧ c.isElement r t = false) := by
  by_cases hi : i = 0
  · rw [if_pos hi, hi, Int.zero_add]
    simp
  · rw [if_neg hi]
    by_cases hij : i + j = 0
    · rw [hij, behind_zero_eq_iff hk]
      simp [hi]
    · rw [Catalog.placeBehind, if_neg hij]
      simp [hij]

/-- **One step and two steps of a pointer.** A pointer to a region that is moved by `i` elements and then
by `j`, up or down, points to the same region as the pointer that is moved by `i + j` elements, unless the
two steps lead away and back, and the region holds a value of the type itself without being an element:
then they end at its first element, and the sum of zero stays at the region. A number that is written
through one of the two pointers is read through the other exactly if the regions are the same; else there
is what was there before. -/
theorem subscript_move (hr : c.Has r) (ht : t ≠ .void) (hop : op = .add ∨ op = .sub)
    (hop' : op' = .add ∨ op' = .sub) (hi : Word.Fits (addend op m)) (hj : Word.Fits (addend op' n))
    (hij : Word.Fits (addend op m + addend op' n)) (hk : Word.Fits (c.row r t).2) :
    let x := subscriptMoved op op' r m n t c
    let y := subscript .add (.pointer r) (addend op m + addend op' n) t x.2
    ∃ q q', x.1 = .pointer q ∧ y.1 = .pointer q' ∧
      (q = q' ↔ ¬(addend op m ≠ 0 ∧ addend op m + addend op' n = 0 ∧ c.isSeenAs r t = true ∧
        c.isElement r t = false)) ∧
      ∀ (s : Store) v, t.isScalar = true → v.IsNumber t →
        (s.bind y.2 (.region q) v).retrieve (.region q') t y.2 =
            (if q' = q then (v, y.2) else s.retrieve (.region q') t y.2) ∧
          (s.bind y.2 (.region q') v).retrieve (.region q) t y.2 =
            if q = q' then (v, y.2) else s.retrieve (.region q) t y.2 := by
  intro x y
  obtain ⟨q, d, hx, hcd, hq, htwo⟩ := subscriptMoved_spec hr ht hop hop' hi hj
  obtain ⟨q', e, hy, hde, hq', hone⟩ := subscript_spec (hr.mono hcd) ht (.inl rfl) hij
  have hxd : x = (.pointer q, d) := hx
  have hye : y = (.pointer q', e) := by
    show subscript .add (.pointer r) _ t x.2 = _
    rw [hxd]
    exact hy
  rw [hxd, hye]
  refine ⟨q, q', rfl, rfl, ?_, fun s v hscalar hv => ⟨?_, ?_⟩⟩
  · have hone : e.region q' = c.placeBehind r t (addend op m + addend op' n) :=
      hone.trans (placeBehind_mono hcd hr)
    rw [← twoSteps_eq_iff hk, ← htwo, ← hone, ← region_mono hde hq]
    exact ⟨congrArg e.region, fun h => eq_of_region_eq h (hq.mono hde) hq'⟩
  · exact Store.retrieve_bind_number_eq_ite hscalar hv
  · exact Store.retrieve_bind_number_eq_ite hscalar hv

/-- The element 0 of the array of `aliasCatalog` is reached again by a step up and a step down. -/
theorem subscript_move_back :
    Store.aliasCatalog.Has ⟨2⟩ ∧ CType.int ≠ .void ∧ Word.Fits (addend .add 1) ∧
      Word.Fits (addend .sub 1) ∧ Word.Fits (addend .add 1 + addend .sub 1) ∧
      Word.Fits (Store.aliasCatalog.row ⟨2⟩ .int).2 ∧
      let x := subscriptMoved .add .sub ⟨2⟩ 1 1 .int Store.aliasCatalog
      x.1 = (subscript .add (.pointer ⟨2⟩) 0 .int x.2).1 := by
  have hhas : Store.aliasCatalog.Has ⟨2⟩ := by decide
  have hup : Word.Fits (addend .add 1) := by decide
  have hdown : Word.Fits (addend .sub 1) := by decide
  have hboth : Word.Fits (addend .add 1 + addend .sub 1) := by decide
  have hrow : Word.Fits (Store.aliasCatalog.row ⟨2⟩ .int).2 := by decide
  refine ⟨hhas, by decide, hup, hdown, hboth, hrow, ?_⟩
  obtain ⟨q, q', hx, hy, hsame, -⟩ :=
    subscript_move hhas (by decide) (.inl rfl) (.inr rfl) hup hdown hboth hrow
  obtain rfl : q = q' := hsame.2 fun h => Bool.noConfusion (show true = false from h.2.2.2)
  exact hx.trans hy.symm

/-- The scalar of `aliasCatalog` holds 5. A pointer to it points to it, and reads 5; moved up and down by
one element, it points to the first element of the scalar, where nothing was written. -/
theorem subscript_comes_back_elsewhere : ∃ (c : Catalog) (r q : RegionId) (s : Store),
    c.Has r ∧ c.valueType? r = some .int ∧
      (subscriptMoved .add .sub r 1 1 .int c).1 = .pointer q ∧
      (subscript .add (.pointer r) 0 .int c).1 = .pointer r ∧
      (s.retrieve (.region r) .int c).1 = .int 5 ∧
      (s.retrieve (.region q) .int c).1 = .undefined := by
  exact ⟨Store.aliasCatalog, ⟨4⟩, ⟨5⟩, ({} : Store).bind Store.aliasCatalog (.region ⟨4⟩) (.int 5),
    by decide, by decide, by decide +kernel, by decide +kernel, by decide +kernel, by decide +kernel⟩

end Naming

end PathScout

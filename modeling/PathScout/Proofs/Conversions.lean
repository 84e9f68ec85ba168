import PathScout.Proofs.FoldLaws
import PathScout.State.Evaluate

/-!
# Conversions between types

A number is converted to a type by wrapping it to the width of the type. A cast of a known number does
so, but a symbol is passed on as it is, also where its type is wider than the target. An assignment with
an operator computes at the type of its target, where the plain assignment computes at `int` and converts
the result; wrapping twice is wrapping once, so both store the same, unless a `char` is shifted by its
width or more.

* `Value.IsIntegerOf`, `Value.number?`: numbers and symbols of a type, and what they stand for.
* `Value.cast_exact`: what the result of a cast stands for.
* `foldInts_cast`: an operator at a type against the same operator at `int`.
* `State.updated_plain`: what compound assignments, increments and decrements store.
-/

namespace PathScout

open Naming Option

open RangeSet (wrapWidth)

/-! ### Casts -/

namespace Value

variable {c : Catalog} {v : Value} {source target : CType} {n m : Int}

/-- The value is a number in the range of a type, or a symbol of that type. -/
def IsIntegerOf (v : Value) (c : Catalog) (t : CType) : Prop :=
  match v with
  | int n => n ∈ t.domain
  | symbol s => (c.symbol s).type = t
  | _ => False

/-- The number that a value stands for, if it is a number or a symbol, where symbols stand for the given
numbers. -/
def number? (v : Value) (ν : SymbolId → Int) : Option Int :=
  match v with
  | int n => some n
  | symbol s => some (ν s)
  | _ => none

theorem IsIntegerOf.mem_domain {ν : SymbolId → Int} (hν : ∀ s, ν s ∈ (c.symbol s).type.domain)
    (hv : v.IsIntegerOf c source) (hn : v.number? ν = some n) : n ∈ source.domain := by
  cases v with
  | int k =>
    obtain rfl := some.inj hn
    exact hv
  | symbol s =>
    obtain rfl := some.inj hn
    exact (show (c.symbol s).type = source from hv) ▸ hν s
  | _ => cases hn

/-- A scalar type is an integer type or a pointer type. -/
theorem isPointer_eq_not_isInteger (h : target.isScalar = true) :
    target.isPointer = !target.isInteger := by
  cases target with
  | char | int | pointer => rfl
  | _ => cases h

theorem isVoid_of_isScalar (h : target.isScalar = true) : target.isVoid = false := by
  cases target with
  | void => cases h
  | _ => rfl

/-- What is in the range of a scalar type is not changed by conversion to it. -/
theorem wrap_of_mem_scalar (ht : target.isScalar = true) (hn : n ∈ target.domain) :
    target.wrap n = n := by
  cases target with
  | char | int => exact wrap_of_mem rfl hn
  | pointer => rfl
  | _ => cases ht

/-- Known numbers are wrapped to integer types, and become addresses at pointer types. -/
theorem cast_int (ht : target.isScalar = true) (hn : n ∈ source.domain) : (int n).cast source target =
      if target.isInteger = true ∨ source = target then int (target.wrap n)
      else loc (.address n) := by
  unfold cast
  rw [isVoid_of_isScalar ht, isPointer_eq_not_isInteger ht]
  by_cases he : source = target
  · subst he
    simp [wrap_of_mem_scalar ht hn]
  · cases hi : target.isInteger <;> simp [isUnknown, isUndefined, he]

/-- Symbols are passed on, but not to another pointer type. -/
theorem cast_symbol (ht : target.isScalar = true) (s : SymbolId) : (symbol s).cast source target =
      if target.isInteger = true ∨ source = target then symbol s else unknown := by
  unfold cast
  rw [isVoid_of_isScalar ht, isPointer_eq_not_isInteger ht]
  by_cases he : source = target
  · simp [he]
  · cases hi : target.isInteger <;> simp [isUnknown, isUndefined, he]

/-- **Casts of known numbers convert, and casts of symbols pass on.** Symbols stand for numbers of their
types. A cast of a number or a symbol of a scalar type gives a number or a symbol again, unless it is to
another pointer type. The result stands for the converted number, and for a number of the target type,
exactly if the value is known or its number is one of the target type already; a symbol is its own
result. -/
theorem cast_exact {ν : SymbolId → Int} (hν : ∀ s, ν s ∈ (c.symbol s).type.domain)
    (ht : target.isScalar = true) (hv : v.IsIntegerOf c source) (hn : v.number? ν = some n) :
    (((v.cast source target).number? ν).isSome = true ↔
        target.isInteger = true ∨ source = target) ∧
      ∀ m, (v.cast source target).number? ν = some m →
        (m = target.wrap n ∧ m ∈ target.domain ↔ v.symbol? = none ∨ n ∈ target.domain) ∧
          (v.symbol? ≠ none → v.cast source target = v ∧ m = n) := by
  have hmem := hv.mem_domain hν hn
  cases v with
  | int k =>
    obtain rfl := some.inj hn
    rw [cast_int ht hmem]
    by_cases h : target.isInteger = true ∨ source = target
    · refine ⟨by simp [h, number?], fun m hm => ⟨?_, fun hs => absurd rfl hs⟩⟩
      rw [if_pos h] at hm
      obtain rfl := some.inj hm
      refine iff_of_true ⟨rfl, ?_⟩ (.inl rfl)
      rcases h with hi | rfl
      · exact wrap_mem_domain hi k
      · rwa [wrap_of_mem_scalar ht hmem]
    · refine ⟨by simp [h, number?], fun m hm => ?_⟩
      rw [if_neg h] at hm
      cases hm
  | symbol s =>
    obtain rfl := some.inj hn
    rw [cast_symbol ht]
    by_cases h : target.isInteger = true ∨ source = target
    · refine ⟨by simp [h, number?], fun m hm => ?_⟩
      rw [if_pos h] at hm ⊢
      obtain rfl := some.inj hm
      refine ⟨?_, fun _ => ⟨rfl, rfl⟩⟩
      constructor
      · exact fun hm => .inr hm.2
      · intro hs
        have hs : ν s ∈ target.domain := hs.resolve_left (some_ne_none s)
        exact ⟨(wrap_of_mem_scalar ht hs).symm, hs⟩
    · refine ⟨by simp [h, number?], fun m hm => ?_⟩
      rw [if_neg h] at hm
      cases hm
  | _ => cases hn

/-- A catalog with one symbol, of type `int`. -/
def wideCatalog : Catalog where
  program := { file := "" }
  regions := ∅
  symbols := .ofList [.regionValue ⟨0⟩ .int] (by decide)

theorem symbol_wideCatalog (s : SymbolId) : wideCatalog.symbol s = .regionValue ⟨0⟩ .int := by
  match s with
  | ⟨0⟩ => rfl
  | ⟨i + 1⟩ => rfl

/-- The valuation where all symbols are the same number of type `int`. -/
def wideValuation (n : Int) (hn : n ∈ CType.int.domain) : Valuation wideCatalog where
  value _ := n
  mem_domain s := by
    rw [symbol_wideCatalog]
    exact hn
  sum h := by
    rw [symbol_wideCatalog] at h
    cases h
  difference h := by
    rw [symbol_wideCatalog] at h
    cases h
  compare h := by
    rw [symbol_wideCatalog] at h
    cases h
  compare_const h := by
    rw [symbol_wideCatalog] at h
    cases h

/-- A symbol that is 100 stays 100 as a `char`. -/
theorem cast_exact_hundred :
    (∀ s, (wideValuation 100 (by decide)).value s ∈ (wideCatalog.symbol s).type.domain) ∧
      CType.char.isScalar = true ∧ (symbol ⟨0⟩).IsIntegerOf wideCatalog .int ∧
      (symbol ⟨0⟩).number? (wideValuation 100 (by decide)).value = some 100 ∧
      (100 : Int) ∈ CType.char.domain ∧ CType.char.wrap 100 = 100 := by
  have hsymbol : (symbol ⟨0⟩).IsIntegerOf wideCatalog .int := rfl
  have h := cast_exact (wideValuation 100 (by decide)).mem_domain (show CType.char.isScalar = true from rfl)
    hsymbol rfl
  have hfits : (100 : Int) ∈ CType.char.domain := by decide
  exact ⟨(wideValuation 100 (by decide)).mem_domain, rfl, rfl, rfl, hfits,
    (((h.2 100 rfl).1.2 (.inr hfits)).1).symm⟩

/-- A symbol that is 300 is still 300 when it is cast to `char`, where 300 becomes 44. -/
theorem cast_keeps_wide : ∃ (c : Catalog) (ν : Valuation c) (s : SymbolId),
    c.HasSymbol s ∧ (c.symbol s).type = .int ∧ ν.value s = 300 ∧
      ((symbol s).cast .int .char).number? ν.value = some 300 ∧
      (300 : Int) ∉ CType.char.domain ∧ (int 300).cast .int .char = int 44 :=
  ⟨wideCatalog, wideValuation 300 (by decide), ⟨0⟩, Nat.zero_lt_one, rfl, rfl, rfl, by decide, by decide⟩

end Value

/-! ### Assignments with an operator -/

section Widths

variable {t : CType} {op : BinaryOp} {l r n : Int}

/-- Wrapping to `int` first changes nothing. -/
theorem wrap_wrap_int (ht : t.isInteger = true) (n : Int) : t.wrap (CType.int.wrap n) = t.wrap n := by
  refine eq_of_dvd_sub (wrap_mem_domain ht _) (wrap_mem_domain ht _) ?_
  have hwidth : (2 ^ wrapWidth t : Int) ∣ 2 ^ wrapWidth .int := by
    refine pow_dvd_pow 2 ?_
    cases t with
    | char | int => decide
    | _ => cases ht
  have hinner : (2 ^ wrapWidth t : Int) ∣ CType.int.wrap n - n := hwidth.trans (dvd_typeWrap_sub .int n)
  have houter := dvd_sub (dvd_typeWrap_sub t (CType.int.wrap n)) (dvd_typeWrap_sub t n)
  have := dvd_add houter hinner
  rwa [show t.wrap (CType.int.wrap n) - CType.int.wrap n - (t.wrap n - n) + (CType.int.wrap n - n) =
    t.wrap (CType.int.wrap n) - t.wrap n by ring] at this

/-- A result at `int`, converted to an integer type. -/
theorem cast_wrap_int (ht : t.isInteger = true) (n : Int) :
    (Value.int (CType.int.wrap n)).cast .int t = .int (t.wrap n) := by
  have hscalar : t.isScalar = true := by rw [CType.isScalar, ht, Bool.true_or]
  rw [Value.cast_int hscalar (wrap_int_mem_domain n), if_pos (.inl ht), wrap_wrap_int ht]

/-- A `char` is shifted by its width or more, but by less than the width of `int`. -/
def ShiftsOut (op : BinaryOp) (r : Int) (t : CType) : Prop :=
  (op = .shl ∨ op = .shr) ∧ t = .char ∧ 8 ≤ r ∧ r < 32

/-- Whether a shift is defined depends on the width, but for the shifts in between. -/
theorem undefined_shift_iff (ht : t.isInteger = true) (hop : op = .shl ∨ op = .shr)
    (h : ¬ShiftsOut op r t) :
    (r < 0 ∨ (t.bitWidth?.getD 64 : Int) ≤ r) ↔ r < 0 ∨ (CType.int.bitWidth?.getD 64 : Int) ≤ r := by
  cases t with
  | char =>
    have hbetween : ¬(8 ≤ r ∧ r < 32) := fun hr => h ⟨hop, rfl, hr⟩
    show r < 0 ∨ 8 ≤ r ↔ r < 0 ∨ 32 ≤ r
    omega
  | int => rfl
  | _ => cases ht

/-- **An operator at an integer type is the operator at `int`, converted.** -/
theorem foldInts_cast (ht : t.isInteger = true) (h : ¬ShiftsOut op r t) :
    foldInts op l r t = (foldInts op l r .int).cast .int t := by
  have hundefined : Value.undefined.cast .int t = .undefined := by
    cases t with
    | char | int => rfl
    | _ => cases ht
  cases op with
  | div | rem =>
    simp only [foldInts]
    split
    · exact hundefined.symm
    · exact (cast_wrap_int ht _).symm
  | shl | shr =>
    simp only [foldInts, undefined_shift_iff ht (by simp) h]
    split
    · exact hundefined.symm
    · exact (cast_wrap_int ht _).symm
  | _ => exact (cast_wrap_int ht _).symm

/-- Between the widths, the shift at `char` is undefined, and the shift at `int` is not. -/
theorem foldInts_of_shiftsOut (h : ShiftsOut op r t) :
    foldInts op l r t = .undefined ∧ ∃ n, (foldInts op l r .int).cast .int t = .int n := by
  obtain ⟨hop, rfl, hlo, hhi⟩ := h
  have hnarrow : r < 0 ∨ (CType.char.bitWidth?.getD 64 : Int) ≤ r := .inr hlo
  have hwide : ¬(r < 0 ∨ (CType.int.bitWidth?.getD 64 : Int) ≤ r) := by
    show ¬(r < 0 ∨ 32 ≤ r)
    omega
  rcases hop with rfl | rfl <;>
    exact ⟨if_pos hnarrow, _, by simp only [foldInts, if_neg hwide]; exact cast_wrap_int rfl _⟩

end Widths

namespace State

variable {s : State} {f : FrameId} {e : TypedExpr} {old v : Int}

/-- What the plain assignment stores in a place that held a number: the result of the operator at `int`,
converted to the type of the place. -/
def plainUpdate (op : BinaryOp) (old v : Int) (t : CType) : Naming Value := do
  return (← binary op (.int old) (.int v) .int).cast .int t

/-- **Compound assignment means the plain assignment.** A compound assignment to a place of an integer
type that held a number stores what the plain assignment stores, for every operator and operand, exactly
if no `char` is shifted by its width or more; then nothing defined is stored, where the plain assignment
stores a number. Increments and decrements store what adding or subtracting one stores. -/
theorem updated_plain (c : Catalog) (ht : e.type.isInteger = true) :
    (∀ op target value, e.op = .compound op target value → s.value f value = .int v →
        (¬ShiftsOut op v e.type →
            (s.updated f e (.int old) c).1.1 = (plainUpdate op old v e.type c).1) ∧
          (ShiftsOut op v e.type → (s.updated f e (.int old) c).1.1 = .undefined ∧
            ∃ n, (plainUpdate op old v e.type c).1 = .int n)) ∧
      ∀ target increment before, e.op = .incDec target increment before →
        (s.updated f e (.int old) c).1.1 =
          (plainUpdate (if increment then .add else .sub) old 1 e.type c).1 := by
  have hone : (if e.type.isPointer then Value.int 1 else .ofInt 1 e.type) = .int 1 := by
    cases h : e.type with
    | char | int => rfl
    | _ =>
      rw [h] at ht
      cases ht
  constructor
  · intro op target value hop hv
    have hstored : (s.updated f e (.int old) c).1.1 = foldInts op old v e.type := by
      rw [updated, hop]
      show (binary op (.int old) (s.value f value) e.type c).1 = _
      rw [hv]
      rfl
    rw [hstored]
    exact ⟨fun h => foldInts_cast ht h, fun h => foldInts_of_shiftsOut h⟩
  · intro target increment before hop
    have hstored : (s.updated f e (.int old) c).1.1 =
        foldInts (if increment then .add else .sub) old 1 e.type := by
      rw [updated, hop]
      show (binary _ (.int old) (if e.type.isPointer then Value.int 1 else .ofInt 1 e.type)
        e.type c).1 = _
      rw [hone]
      rfl
    rw [hstored]
    refine foldInts_cast ht fun h => ?_
    cases increment <;> simp [ShiftsOut] at h

/-- The shift of a place of type `char` by the value of the expression 1. -/
def charShift : TypedExpr := { op := .compound .shl ⟨0⟩ ⟨1⟩, type := .char, span := default }

/-- The state where the expression 1 has the given value. -/
def operandState (v : Int) : State := ({} : State).bindExpr ⟨0⟩ ⟨1⟩ (.int v)

theorem value_operandState (v : Int) : (operandState v).value ⟨0⟩ ⟨1⟩ = .int v := by
  rw [value, operandState, bindExpr, OrderedMap.get?_insert_self]
  rfl

/-- A `char` that is 65 and is shifted by 3 becomes 8, in both ways. -/
theorem updated_plain_shift : charShift.type.isInteger = true ∧
    charShift.op = .compound .shl ⟨0⟩ ⟨1⟩ ∧ (operandState 3).value ⟨0⟩ ⟨1⟩ = .int 3 ∧
      ¬ShiftsOut .shl 3 charShift.type ∧
      ((operandState 3).updated ⟨0⟩ charShift (.int 65) Value.wideCatalog).1.1 = .int 8 ∧
      (plainUpdate .shl 65 3 .char Value.wideCatalog).1 = .int 8 := by
  have hin : ¬ShiftsOut .shl 3 charShift.type := fun h => absurd h.2.2.1 (by decide)
  have hplain : (plainUpdate .shl 65 3 .char Value.wideCatalog).1 = .int 8 := by decide
  refine ⟨rfl, rfl, value_operandState 3, hin, ?_, hplain⟩
  have hplace : charShift.type.isInteger = true := rfl
  exact (((updated_plain Value.wideCatalog hplace).1 _ _ _ rfl (value_operandState 3)).1 hin).trans hplain

/-- A `char` that is 1 and is shifted by 8 becomes undefined, where the plain assignment stores 0. -/
theorem updated_loses_shift : ∃ (c : Catalog) (s : State) (f : FrameId) (e : TypedExpr)
    (target value : ExprId) (old v : Int),
    e.op = .compound .shl target value ∧ e.type = .char ∧ old ∈ e.type.domain ∧
      s.value f value = .int v ∧ (s.updated f e (.int old) c).1.1 = .undefined ∧
      (plainUpdate .shl old v e.type c).1 = .int 0 := by
  refine ⟨Value.wideCatalog, operandState 8, ⟨0⟩, charShift, ⟨0⟩, ⟨1⟩, 1, 8, rfl, rfl, by decide,
    value_operandState 8, ?_, by decide⟩
  show (binary .shl (.int 1) ((operandState 8).value ⟨0⟩ ⟨1⟩) .char Value.wideCatalog).1 = _
  rw [value_operandState]
  rfl

end State

end PathScout

import PathScout.Proofs.FoldLaws

/-!
# Folding at two widths

Symbols of the types `char` and `int` may be operands of one operation, and each composite symbol
is computed at its own type. Whatever is simplified, exchanged or gathered, an operation stands for
what the operator gives on known operands, but for two cases: a neutral constant leaves an `int`
symbol as it is where the result is a `char`, and gathering the constants of a `char` sum at the
type `int` forgets that the inner sum wrapped at the narrower width.

* `Catalog.Numeric`, `Catalog.value?`: integer symbols, and their values under an assignment.
* `FoldsTo`: what it means that an operation stands for the result of its operator.
* `Naming.foldsTo_binary`: all operators.
* `Naming.Made`: the values that are made by any sequence of operations.
* `Naming.Made.binary_folds`: the operators on such values.
-/

namespace PathScout

open Option List Naming

variable {a : Symbol}

open RangeSet (wrapWidth)

/-! ### Widths -/

section Widths

variable {t u : CType}

theorem byte_le_wrapWidth (ht : t.isInteger = true) : 8 ≤ wrapWidth t := by
  cases t with
  | char | int => decide
  | _ => cases ht

/-- Of the integer types, only `int` is wider than another one. -/
theorem eq_of_wrapWidth_lt (ht : t.isInteger = true) (hu : u.isInteger = true)
    (h : wrapWidth u < wrapWidth t) : t = .int ∧ u = .char := by
  cases t with
  | char | int =>
    cases u with
    | char | int => revert h; decide
    | _ => cases hu
  | _ => cases ht

/-- The last eight bits of a number stay when it is wrapped to an integer type. -/
theorem dvd_wrap_sub_byte (ht : t.isInteger = true) (n : Int) : (2 ^ 8 : Int) ∣ t.wrap n - n :=
  (pow_dvd_pow 2 (byte_le_wrapWidth ht)).trans (dvd_typeWrap_sub t n)

end Widths

/-! ### Symbols of integer types -/

/-- The value of a symbol, given the values of the symbols that it is made of, where its operator
is defined. -/
def Symbol.valueBy? (α : Assignment) (older : SymbolId → Option Int) : Symbol → Option Int
  | symInt l op k t => (older l).bind fun a => (foldInts op a k t).int?
  | intSym k op r t => (older r).bind fun b => (foldInts op k b t).int?
  | symSym l op r t => (older l).bind fun a => (older r).bind fun b => (foldInts op a b t).int?
  | a => some (α.value a)

theorem Symbol.valueBy?_congr {α : Assignment} {f g : SymbolId → Option Int}
    (h : ∀ x ∈ a.operands, f x = g x) (ha : a.isAtomic = false) : a.valueBy? α f = a.valueBy? α g := by
  cases a with
  | symInt l op k t => rw [valueBy?, valueBy?, h l (by simp [operands])]
  | intSym k op r t => rw [valueBy?, valueBy?, h r (by simp [operands])]
  | symSym l op r t => rw [valueBy?, valueBy?, h l (by simp [operands]), h r (by simp [operands])]
  | _ => cases ha

/-- The symbol in a sum with a constant is an operand of it. -/
theorem Symbol.mem_operands_of_shifted? {p : SymbolId × Int} (h : a.shifted? = some p) :
    p.1 ∈ a.operands := by
  unfold shifted? at h
  split at h <;> cases h <;> simp [operands]

namespace Catalog

variable {c d : Catalog} {x y : SymbolId} {α : Assignment}

/-- The value of a symbol: an atom has the value that it is assigned, and an operation is computed
at its own type from the values of its operands, which are older. -/
def value? (c : Catalog) (α : Assignment) (x : SymbolId) : Option Int :=
  (c.symbol x).valueBy? α fun y => if y.index < x.index then value? c α y else none
termination_by x.index

/-- The symbol is an atom of an integer type, or is made by an operation of an integer type on
older ones. Of sums with a constant, none is nested in another one. -/
inductive Numeric (c : Catalog) : SymbolId → Prop where
  | atom {x : SymbolId} : c.HasSymbol x → (c.symbol x).isAtomic = true →
    (c.symbol x).type.isInteger = true → Numeric c x
  | operation {x : SymbolId} : c.HasSymbol x → (c.symbol x).isAtomic = false →
    (c.symbol x).type.isInteger = true → (∀ y ∈ (c.symbol x).operands, y.index < x.index) →
    (∀ p, c.shifted? x = some p → c.shifted? p.1 = none) →
    (∀ y ∈ (c.symbol x).operands, Numeric c y) → Numeric c x

namespace Numeric

section

variable (h : c.Numeric x)
include h

theorem hasSymbol : c.HasSymbol x := by
  cases h <;> assumption

theorem isInteger : (c.symbol x).type.isInteger = true := by
  cases h <;> assumption

theorem mono (hcd : c ≤ d) : d.Numeric x := by
  induction h with
  | atom hx ha ht =>
    have hs := symbol_mono hcd hx
    exact .atom (hx.mono hcd) (hs ▸ ha) (hs ▸ ht)
  | operation hx ha ht hlt hsum ho ih =>
    have hs := symbol_mono hcd hx
    refine .operation (hx.mono hcd) (hs ▸ ha) (hs ▸ ht) (hs ▸ hlt) (fun p hp => ?_) (hs ▸ ih)
    rw [shifted?, hs] at hp
    have hmem := Symbol.mem_operands_of_shifted? (filter_eq_some_iff.1 hp).1
    rw [shifted?, symbol_mono hcd (ho p.1 hmem).hasSymbol]
    exact hsum p hp

/-- The symbol in a sum with a constant is an integer symbol, and not such a sum itself. -/
theorem of_shifted? {p : SymbolId × Int} (hp : c.shifted? x = some p) :
    c.Numeric p.1 ∧ c.shifted? p.1 = none := by
  have hmem := Symbol.mem_operands_of_shifted? (filter_eq_some_iff.1 hp).1
  cases h with
  | atom _ ha _ =>
    cases hx : c.symbol x with
    | symInt | intSym | symSym =>
      rw [hx] at ha
      cases ha
    | regionValue | conjured | derived => cases hx ▸ (filter_eq_some_iff.1 hp).1
  | operation _ _ _ _ hsum ho => exact ⟨ho p.1 hmem, hsum p hp⟩

/-- The operands of an operation are older integer symbols. -/
theorem operand (ha : (c.symbol x).isAtomic = false) (hy : y ∈ (c.symbol x).operands) :
    y.index < x.index ∧ c.Numeric y := by
  cases h with
  | atom _ ha' _ =>
    rw [ha] at ha'
    cases ha'
  | operation _ _ _ hlt _ ho => exact ⟨hlt y hy, ho y hy⟩

/-- The value of a symbol in terms of those of its operands. -/
theorem value?_eq : c.value? α x = (c.symbol x).valueBy? α (c.value? α) := by
  rw [value?]
  cases ha : (c.symbol x).isAtomic with
  | true =>
    cases hx : c.symbol x with
    | symInt | intSym | symSym =>
      rw [hx] at ha
      cases ha
    | _ => rfl
  | false => exact Symbol.valueBy?_congr (fun y hy => if_pos (h.operand ha hy).1) ha

/-- The value of a symbol does not change when the catalog grows. -/
theorem value?_mono (hcd : c ≤ d) : d.value? α x = c.value? α x := by
  induction h with
  | atom hx ha ht =>
    have h : c.Numeric _ := .atom hx ha ht
    rw [(h.mono hcd).value?_eq, h.value?_eq, symbol_mono hcd hx]
    generalize c.symbol _ = a at ha
    cases a with
    | symInt | intSym | symSym => cases ha
    | _ => rfl
  | operation hx ha ht hlt hsum ho ih =>
    have h : c.Numeric _ := .operation hx ha ht hlt hsum ho
    rw [(h.mono hcd).value?_eq, h.value?_eq, symbol_mono hcd hx]
    exact Symbol.valueBy?_congr ih ha

end

end Numeric

end Catalog

/-- An operator on known integers gives a number, if it gives anything. -/
theorem int?_foldInts {op : BinaryOp} {l r n : Int} {t : CType} :
    (foldInts op l r t).int? = some n ↔ foldInts op l r t = .int n := by
  have key : ∀ m : Int, (Value.int m).int? = some n ↔ Value.int m = .int n := fun m => by
    simp [Value.int?]
  cases op with
  | div | rem | shl | shr =>
    simp only [foldInts]
    split
    · simp [Value.int?]
    · exact key _
  | _ => exact key _

namespace Catalog

variable {c : Catalog} {x s : SymbolId} {α : Assignment} {n : Int}

/-- The value of a symbol is one of its type. -/
theorem Numeric.mem_domain (h : c.Numeric x) (hn : c.value? α x = some n) :
    n ∈ (c.symbol x).type.domain := by
  have ht := h.isInteger
  rw [h.value?_eq] at hn
  cases hx : c.symbol x with
  | symInt l op k t =>
    simp only [hx, Symbol.valueBy?, bind_eq_some_iff] at hn
    obtain ⟨a, -, hn⟩ := hn
    exact mem_domain_of_foldInts (hx ▸ ht) (int?_foldInts.1 hn)
  | intSym k op r t =>
    simp only [hx, Symbol.valueBy?, bind_eq_some_iff] at hn
    obtain ⟨b, -, hn⟩ := hn
    exact mem_domain_of_foldInts (hx ▸ ht) (int?_foldInts.1 hn)
  | symSym l op r t =>
    simp only [hx, Symbol.valueBy?, bind_eq_some_iff] at hn
    obtain ⟨a, -, b, -, hn⟩ := hn
    exact mem_domain_of_foldInts (hx ▸ ht) (int?_foldInts.1 hn)
  | _ =>
    rw [hx] at hn
    obtain rfl := some.inj hn
    exact α.mem_domain _

/-- A value of an integer type is one of type `int`. -/
theorem Numeric.mem_int_domain (h : c.Numeric x) (hn : c.value? α x = some n) :
    n ∈ CType.int.domain := by
  have hmem := h.mem_domain hn
  have ht := h.isInteger
  generalize (c.symbol x).type = t at hmem ht
  cases t with
  | int => exact hmem
  | char =>
    rw [Interval.mem_def] at hmem ⊢
    norm_num [CType.domain] at hmem ⊢
    omega
  | _ => cases ht

/-- What a sum with a constant is, up to the modulus of its own type. -/
theorem Numeric.value?_shifted (h : c.Numeric s) {p : SymbolId × Int}
    (hp : c.shifted? s = some p) (hn : c.value? α s = some n) :
    ∃ a, c.value? α p.1 = some a ∧ (2 ^ wrapWidth (c.symbol s).type : Int) ∣ n - (a + p.2) := by
  have ht := h.isInteger
  obtain ⟨hshift, -⟩ := filter_eq_some_iff.1 hp
  unfold Symbol.shifted? at hshift
  rw [h.value?_eq] at hn
  split at hshift
  · next l k t hs =>
    cases hshift
    rw [hs] at ht hn
    simp only [Symbol.valueBy?, bind_eq_some_iff, int?_foldInts] at hn
    obtain ⟨a, ha, hn⟩ := hn
    refine ⟨a, ha, ?_⟩
    rw [hs, ← Value.int.inj hn]
    exact dvd_wrap_sub t _
  · next l k t hs =>
    cases hshift
    rw [hs] at ht hn
    simp only [Symbol.valueBy?, bind_eq_some_iff, int?_foldInts] at hn
    obtain ⟨a, ha, hn⟩ := hn
    refine ⟨a, ha, ?_⟩
    rw [foldInts_addend (t := t) ht (.inr rfl)] at hn
    rw [hs, ← Value.int.inj hn]
    exact dvd_wrap_sub t _
  · cases hshift

end Catalog

/-! ### Values of integer types -/

namespace Value

variable {c d : Catalog} {v : Value} {α : Assignment}

/-- The value is a number, an integer symbol, or undefined. -/
def Numeric (v : Value) (c : Catalog) : Prop :=
  match v with
  | int _ | undefined => True
  | symbol x => c.Numeric x
  | _ => False

/-- The number that a value stands for under an assignment. -/
def under? (v : Value) (c : Catalog) (α : Assignment) : Option Int :=
  match v with
  | int n => some n
  | symbol x => c.value? α x
  | _ => none

theorem Numeric.mono (h : v.Numeric c) (hcd : c ≤ d) : v.Numeric d := by
  cases v with
  | symbol x => exact Catalog.Numeric.mono h hcd
  | _ => exact h

theorem numeric_foldInts (op : BinaryOp) (l r : Int) (t : CType) : (foldInts op l r t).Numeric c := by
  cases op with
  | div | rem | shl | shr =>
    unfold foldInts
    dsimp only
    split <;> trivial
  | _ => trivial

end Value

/-! ### Operations that fold -/

/-- The result should be a `char`, but is a symbol of type `int`, whose value may be any. -/
def Unwrapped (t : CType) (out : Value × Catalog) : Prop :=
  t = .char ∧ ∃ x, out.1 = .symbol x ∧ (out.2.symbol x).type = .int

/-- An operation of type `t` that gave a value and added to the catalog stands for the results of
its operator: its value agrees with the result in the last eight bits; it wraps to the result at
the type `t`, and is the result if it is not left unwrapped, unless narrow sums were gathered. -/
structure FoldsTo (c : Catalog) (t : CType) (narrow : Prop) (out : Value × Catalog)
    (result : Assignment → Int → Prop) : Prop where
  le : c ≤ out.2
  layered : out.2.Layered
  numeric : out.1.Numeric out.2
  folds {α : Assignment} {n : Int} : result α n → ∃ m, out.1.under? out.2 α = some m ∧
    (2 ^ 8 : Int) ∣ m - n ∧ (¬narrow → t.wrap m = n ∧ (¬Unwrapped t out → m = n))

variable {c : Catalog} {op : BinaryOp} {s : SymbolId} {k : Int} {t : CType} {narrow : Prop}
  {out : Value × Catalog} {result result' : Assignment → Int → Prop}

theorem FoldsTo.congr (h : FoldsTo c t narrow out result)
    (himp : ∀ {α n}, result' α n → result α n) : FoldsTo c t narrow out result' :=
  ⟨h.le, h.layered, h.numeric, fun hr => h.folds (himp hr)⟩

theorem FoldsTo.imp {narrow' : Prop} (h : FoldsTo c t narrow out result)
    (himp : narrow → narrow') : FoldsTo c t narrow' out result :=
  ⟨h.le, h.layered, h.numeric, fun hr => by
    obtain ⟨m, hm, hdvd, hwrap⟩ := h.folds hr
    exact ⟨m, hm, hdvd, fun hn => hwrap fun h => hn (himp h)⟩⟩

/-- A value that is known to be the result. -/
theorem foldsTo_of_eq (ht : t.isInteger = true) (hle : c ≤ out.2) (hc : out.2.Layered)
    (hv : out.1.Numeric out.2)
    (h : ∀ {α n}, result α n → n ∈ t.domain ∧ out.1.under? out.2 α = some n) :
    FoldsTo c t narrow out result :=
  ⟨hle, hc, hv, fun {α n} hr => ⟨n, (h hr).2, by simp,
    fun _ => ⟨wrap_of_mem ht (h hr).1, fun _ => rfl⟩⟩⟩

/-- A symbol for an operation on integer symbols. Sums are not nested. -/
theorem foldsTo_symbol (hc : c.Layered) (hop : a.isAtomic = false) (ht : a.type.isInteger = true)
    (ha : ∀ x ∈ a.operands, c.Numeric x) (hsum : ∀ p, a.shifted? = some p → c.shifted? p.1 = none) :
    FoldsTo c a.type narrow (.symbol (symbol a c).1, (symbol a c).2) fun α n =>
      a.valueBy? α (c.value? α) = some n := by
  have hle : c ≤ (symbol a c).2 := grows_symbol a c
  have he := symbol_symbol a c
  have hx : (symbol a c).2.HasSymbol (symbol a c).1 :=
    Interned.lt_size_of_get? (get?_symbol a c)
  have hd := hc.symbol fun y hy => (ha y hy).hasSymbol
  have hnum : (symbol a c).2.Numeric (symbol a c).1 := by
    refine .operation hx (by rwa [he]) (by rwa [he]) (hd _ hx) (fun p hp => ?_) fun y hy => ?_
    · have hp' : a.shifted? = some p := he ▸ (filter_eq_some_iff.1 hp).1
      have hs := (ha p.1 (Symbol.mem_operands_of_shifted? hp')).hasSymbol
      rw [Catalog.shifted?, Catalog.symbol_mono hle hs]
      exact hsum p hp'
    · exact (ha y (he ▸ hy)).mono hle
  refine foldsTo_of_eq ht hle hd hnum fun {α n} hn => ?_
  have hval : (symbol a c).2.value? α (symbol a c).1 = some n := by
    rw [hnum.value?_eq, he, ← hn]
    exact Symbol.valueBy?_congr (fun y hy => (ha y hy).value?_mono hle) hop
  exact ⟨he ▸ hnum.mem_domain hval, hval⟩

namespace Naming

variable {v : Value}

/-- A constant is added to a `char` sum at the type `int`. -/
def AddsToNarrow (c : Catalog) (op : BinaryOp) (s : SymbolId) (k : Int) (t : CType) : Prop :=
  t = .int ∧ (op = .add ∨ op = .sub) ∧ k ≠ 0 ∧ (c.symbol s).type = .char ∧
    (c.shifted? s).isSome = true

/-- A symbol with a neutral or an absorbing constant. -/
theorem foldsTo_simplified (hc : c.Layered) (ht : t.isInteger = true) (hs : c.Numeric s)
    (hv : simplified? s op k = some v) :
    FoldsTo c t narrow (v, c) fun α n => ∃ a, c.value? α s = some a ∧ foldInts op a k t = .int n := by
  have hv0 : v = .symbol s ∨ v = .int 0 :=
    (foldInts_simplified ht hv (x := 0) (by decide)).imp And.left And.left
  refine ⟨le_rfl, hc, ?_, ?_⟩
  · rcases hv0 with rfl | rfl
    · exact hs
    · trivial
  · rintro α n ⟨a, ha, hn⟩
    have hmem := hs.mem_int_domain ha
    rcases foldInts_simplified ht hv hmem with ⟨rfl, he⟩ | ⟨rfl, he⟩
    · obtain rfl := Value.int.inj (he.symm.trans hn)
      refine ⟨a, ha, ?_, fun _ => ⟨rfl, fun hw => ?_⟩⟩
      · rw [← dvd_neg, neg_sub]
        exact dvd_wrap_sub_byte ht a
      · -- a symbol that is not of type `int` is no wider than the result
        refine (wrap_of_mem ht ?_).symm
        cases t with
        | int => exact hmem
        | char =>
          have hdom := hs.mem_domain ha
          have hts := hs.isInteger
          have hne : (c.symbol s).type ≠ .int := fun h => hw ⟨rfl, s, rfl, h⟩
          generalize (c.symbol s).type = u at hdom hts hne
          cases u with
          | char => exact hdom
          | int => exact absurd rfl hne
          | _ => cases hts
        | _ => cases ht
    · obtain rfl := Value.int.inj (he.symm.trans hn)
      exact ⟨0, rfl, by simp, fun _ => ⟨wrap_zero ht, fun _ => rfl⟩⟩

/-- A symbol with a constant, where nothing is gathered. -/
theorem foldsTo_ungathered (hc : c.Layered) (ht : t.isInteger = true) (hs : c.Numeric s)
    (hg : gather? c s op = none) :
    FoldsTo c t narrow (symbolWithInt s op k t c) fun α n => ∃ a, c.value? α s = some a ∧
      foldInts op a k t = .int n := by
  rw [symbolWithInt]
  split
  · next v hv => exact foldsTo_simplified hc ht hs hv
  · split
    · next p hp =>
      rw [hg] at hp
      cases hp
    · refine (foldsTo_symbol (a := .symInt s op k t) hc rfl ht
        (fun x hx => mem_singleton.1 hx ▸ hs) fun p hp => ?_).congr fun {α n} hn => ?_
      · have hop : op = .add ∨ op = .sub := by
          unfold Symbol.shifted? at hp
          split at hp <;> simp_all
        obtain rfl : p.1 = s := mem_singleton.1 (Symbol.mem_operands_of_shifted? hp)
        rwa [← gather?_eq_shifted? hop]
      · obtain ⟨a, ha, hn⟩ := hn
        show (c.value? α s).bind _ = some n
        rw [ha]
        exact int?_foldInts.2 hn

/-- Gathering two constants does not change the last eight bits of the sum, and does not change it
at all unless a `char` sum is gathered at the type `int`. -/
theorem foldInts_gathered_widths {p : SymbolId × Int} {α : Assignment} {a n : Int}
    (ht : t.isInteger = true) (hs : c.Numeric s) (hk : k ≠ 0) (hp : gather? c s op = some p)
    (ha : c.value? α s = some a) (hn : foldInts op a k t = .int n) :
    ∃ b n', c.value? α p.1 = some b ∧
      foldInts .add b (t.wrap (Word.wrap (p.2 + addend op k))) t = .int n' ∧
      (2 ^ 8 : Int) ∣ n' - n ∧ (¬AddsToNarrow c op s k t → n' = n) := by
  obtain ⟨hop, hshift⟩ := shifted?_of_gather? hp
  obtain ⟨b, hb, hdvd⟩ := hs.value?_shifted hshift ha
  have hts := hs.isInteger
  refine ⟨b, _, hb, rfl, ?_⟩
  rw [foldInts_addend ht hop] at hn
  obtain rfl := Value.int.inj hn
  -- the two sums agree in as many bits as both types have
  have hsum : ∀ w, w ≤ wrapWidth t → w ≤ wrapWidth (c.symbol s).type →
      (2 ^ w : Int) ∣ b + t.wrap (Word.wrap (p.2 + addend op k)) - (a + addend op k) := by
    intro w hw hws
    have hconst := (pow_dvd_pow 2 hw).trans (dvd_wrap_sub t (p.2 + addend op k))
    have := dvd_sub hconst ((pow_dvd_pow 2 hws).trans hdvd)
    rwa [show t.wrap (Word.wrap (p.2 + addend op k)) - (p.2 + addend op k) - (a - (b + p.2)) =
      b + t.wrap (Word.wrap (p.2 + addend op k)) - (a + addend op k) by ring] at this
  constructor
  · have hwrap : ∀ m, (2 ^ 8 : Int) ∣ t.wrap (Word.wrap m) - m := fun m =>
      (pow_dvd_pow 2 (byte_le_wrapWidth ht)).trans (dvd_wrap_sub t m)
    have := dvd_add (dvd_sub (hwrap (b + t.wrap (Word.wrap (p.2 + addend op k))))
      (hwrap (a + addend op k))) (hsum 8 (byte_le_wrapWidth ht) (byte_le_wrapWidth hts))
    rwa [sub_sub_sub_comm, sub_add_cancel] at this
  · intro hnarrow
    refine wrap_wordWrap_congr ht (hsum _ le_rfl (not_lt.1 fun hlt => hnarrow ?_))
    obtain ⟨rfl, hchar⟩ := eq_of_wrapWidth_lt ht hts hlt
    exact ⟨rfl, hop, hk, hchar, isSome_iff_exists.2 ⟨p, hshift⟩⟩

section

variable (hc : c.Layered) (ht : t.isInteger = true) (op : BinaryOp)
include hc ht

/-- **A symbol with a constant folds**, whatever is simplified and gathered. -/
theorem foldsTo_symbolWithInt (k : Int) (hs : c.Numeric s) :
    FoldsTo c t (AddsToNarrow c op s k t) (symbolWithInt s op k t c) fun α n =>
      ∃ a, c.value? α s = some a ∧ foldInts op a k t = .int n := by
  cases hg : gather? c s op with
  | none => exact foldsTo_ungathered hc ht hs hg
  | some p =>
    obtain ⟨hop, hshift⟩ := shifted?_of_gather? hg
    rw [symbolWithInt]
    split
    · next v hv => exact foldsTo_simplified hc ht hs hv
    · next hv =>
      have hk : k ≠ 0 := fun h => by
        subst h
        rcases hop with rfl | rfl <;> cases hv
      split
      · next q hq =>
        obtain rfl := some.inj (hq.symm.trans hg)
        obtain ⟨hnum, hflat⟩ := hs.of_shifted? hshift
        have hinner : FoldsTo c t False
            (symbolWithInt q.1 .add (t.wrap (Word.wrap (q.2 + addend op k))) t c) _ :=
          foldsTo_ungathered hc ht hnum ((gather?_eq_shifted? (.inl rfl)).trans hflat)
        refine ⟨hinner.le, hinner.layered, hinner.numeric, ?_⟩
        rintro α n ⟨a, ha, hn⟩
        obtain ⟨b, n', hb, hn', hdvd, heq⟩ := foldInts_gathered_widths ht hs hk hg ha hn
        obtain ⟨m, hm, hmdvd, hmwrap⟩ := hinner.folds ⟨b, hb, hn'⟩
        refine ⟨m, hm, ?_, fun hnarrow => ?_⟩
        · have := dvd_add hmdvd hdvd
          rwa [sub_add_sub_cancel] at this
        · rw [← heq hnarrow]
          exact hmwrap id
      · next hq =>
        rw [hg] at hq
        cases hq

theorem foldsTo_intWithSymbol (k : Int) (hs : c.Numeric s) :
    FoldsTo c t (op = .add ∧ AddsToNarrow c op s k t) (binaryInts op (.int k) (.symbol s) t c)
      fun α n => ∃ b, c.value? α s = some b ∧ foldInts op k b t = .int n := by
  unfold binaryInts
  split
  · next rev hrev =>
    refine ((foldsTo_symbolWithInt hc ht rev k hs).imp fun hn => ?_).congr
      fun ⟨b, hb, hn⟩ => ⟨b, hb, (foldInts_reversed ht hrev ..).symm.trans hn⟩
    -- comparisons are not gathered
    obtain ⟨-, hop, -⟩ := hn
    cases op <;> cases hrev <;> simp at hop
  · split
    · next hcomm =>
      refine ((foldsTo_symbolWithInt hc ht op k hs).imp fun hn => ⟨?_, hn⟩).congr
        fun ⟨b, hb, hn⟩ => ⟨b, hb, (foldInts_commutative ht hcomm ..).symm.trans hn⟩
      rcases hn.2.1 with rfl | rfl
      · rfl
      · cases hcomm
    · refine (foldsTo_symbol (a := .intSym k op s t) hc rfl ht
        (fun x hx => mem_singleton.1 hx ▸ hs) fun p hp => nomatch hp).congr ?_
      rintro α n ⟨b, hb, hn⟩
      show (c.value? α s).bind _ = some n
      rw [hb]
      exact int?_foldInts.2 hn

theorem foldsTo_symbols {a b : SymbolId} (ha : c.Numeric a) (hb : c.Numeric b) :
    FoldsTo c t False (binaryInts op (.symbol a) (.symbol b) t c) fun α n =>
      ∃ x y, c.value? α a = some x ∧ c.value? α b = some y ∧ foldInts op x y t = .int n := by
  have hsym : FoldsTo c t False
      (.symbol (symbol (.symSym a op b t) c).1, (symbol (.symSym a op b t) c).2) fun α n =>
        ∃ x y, c.value? α a = some x ∧ c.value? α b = some y ∧ foldInts op x y t = .int n := by
    refine (foldsTo_symbol (a := .symSym a op b t) hc rfl ht (fun x hx => ?_)
      fun p hp => nomatch hp).congr ?_
    · rcases mem_cons.1 hx with rfl | hx
      · exact ha
      · exact mem_singleton.1 hx ▸ hb
    · rintro α n ⟨x, y, hx, hy, hn⟩
      show (c.value? α a).bind _ = some n
      rw [hx, bind_some, hy]
      exact int?_foldInts.2 hn
  unfold binaryInts
  by_cases hab : a = b
  · subst hab
    cases hsame : sameSymbol? op with
    | some m =>
      simp only [if_true]
      refine foldsTo_of_eq ht le_rfl hc trivial ?_
      rintro α n ⟨x, y, hx, hy, hn⟩
      obtain rfl := some.inj (hx.symm.trans hy)
      refine ⟨mem_domain_of_foldInts ht hn, ?_⟩
      rw [foldInts_sameSymbol ht hsame] at hn
      exact congrArg some (Value.int.inj hn)
    | none =>
      simp only [if_true]
      exact hsym
  · simp only [if_neg hab]
    exact hsym

end

/-- An integer is added to a `char` sum at the type `int`. -/
def GathersNarrow (c : Catalog) (op : BinaryOp) (l r : Value) (t : CType) : Prop :=
  match l, r with
  | .symbol s, .int k => AddsToNarrow c op s k t
  | .int k, .symbol s => op = .add ∧ AddsToNarrow c op s k t
  | _, _ => False

/-- **Operators on integers fold.** -/
theorem foldsTo_binary {l r : Value} (hc : c.Layered) (ht : t.isInteger = true) (op : BinaryOp)
    (hl : l.Numeric c) (hr : r.Numeric c) :
    FoldsTo c t (GathersNarrow c op l r t) (binary op l r t c) fun α n =>
      ∃ a b, l.under? c α = some a ∧ r.under? c α = some b ∧ foldInts op a b t = .int n := by
  have hundefined : ∀ l r : Value, (l = .undefined ∨ r = .undefined) →
      FoldsTo c t (GathersNarrow c op l r t) (.undefined, c) fun α n =>
        ∃ a b, l.under? c α = some a ∧ r.under? c α = some b ∧ foldInts op a b t = .int n := by
    intro l r h
    refine ⟨le_rfl, hc, trivial, ?_⟩
    rintro α n ⟨a, b, ha, hb, -⟩
    rcases h with rfl | rfl
    · cases ha
    · cases hb
  cases l with
  | loc | locAsInt | snapshot | unknown => cases hl
  | undefined => exact hundefined _ _ (.inl rfl)
  | int k =>
    cases r with
    | loc | locAsInt | snapshot | unknown => cases hr
    | undefined => exact hundefined _ _ (.inr rfl)
    | int m =>
      refine foldsTo_of_eq ht le_rfl hc (Value.numeric_foldInts op k m t) ?_
      rintro α n ⟨a, b, ha, hb, hn⟩
      cases ha
      cases hb
      refine ⟨mem_domain_of_foldInts ht hn, ?_⟩
      show (foldInts op k m t).under? c α = some n
      rw [hn]
      rfl
    | symbol x =>
      refine (foldsTo_intWithSymbol hc ht op k hr).congr ?_
      rintro α n ⟨a, b, ha, hb, hn⟩
      cases ha
      exact ⟨b, hb, hn⟩
  | symbol x =>
    cases r with
    | loc | locAsInt | snapshot | unknown => cases hr
    | undefined => exact hundefined _ _ (.inr rfl)
    | int m =>
      refine (foldsTo_symbolWithInt hc ht op m hl).congr ?_
      rintro α n ⟨a, b, ha, hb, hn⟩
      cases hb
      exact ⟨a, ha, hn⟩
    | symbol y => exact foldsTo_symbols hc ht op hl hr

/-! ### Sequences of operations -/

/-- The values that some operations made, one after the other, of known numbers and of atoms of the
integer types. Other things may be named in between. -/
inductive Made : Catalog → List Value → Prop where
  | start (p : Program) : Made (.ofProgram p) []
  | grow {c d : Catalog} {vs : List Value} : Made c vs → c ≤ d → d.Layered → Made d vs
  | int {c : Catalog} {vs : List Value} (n : Int) : Made c vs → Made c (.int n :: vs)
  | atom {c : Catalog} {vs : List Value} {a : Symbol} : Made c vs → a.isAtomic = true →
    a.type.isInteger = true → (∀ x ∈ a.operands, c.HasSymbol x) →
    Made (scalarValue a c).2 ((scalarValue a c).1 :: vs)
  | binary {c : Catalog} {vs : List Value} {l r : Value} {t : CType} (op : BinaryOp) : Made c vs →
    l ∈ vs → r ∈ vs → t.isInteger = true →
    Made (binary op l r t c).2 ((binary op l r t c).1 :: vs)
  | unary {c : Catalog} {vs : List Value} {v : Value} {t : CType} (op : ValueOp) : Made c vs →
    v ∈ vs → t.isInteger = true →
    Made (unary op v t c).2 ((unary op v t c).1 :: vs)
  | cast {c : Catalog} {vs : List Value} {v : Value} {source target : CType} : Made c vs →
    v ∈ vs → target.isInteger = true → Made c (v.cast source target :: vs)

theorem scalarValue_of_isInteger {a : Symbol} (h : a.type.isInteger = true) (c : Catalog) :
    scalarValue a c = (.symbol (symbol a c).1, (symbol a c).2) := by
  have hscalar : a.type.isScalar = true := by rw [CType.isScalar, h]; rfl
  have hpointer : ((symbol a c).2.symbol (symbol a c).1).type.isPointer = false := by
    rw [symbol_symbol]
    generalize a.type = t at h
    cases t <;> first | rfl | cases h
  rw [scalarValue, if_pos hscalar, bind_apply, symbolValue, bind_apply, query_apply, hpointer]
  rfl

theorem zeroLike_of_numeric (h : v.Numeric c) : v.zeroLike = .int 0 := by
  cases v with
  | loc => cases h
  | _ => rfl

theorem numeric_unary (hc : c.Layered) (ht : t.isInteger = true) (op : ValueOp) (hv : v.Numeric c) :
    c ≤ (unary op v t c).2 ∧ (unary op v t c).2.Layered ∧
      (unary op v t c).1.Numeric (unary op v t c).2 := by
  have hint : ∀ n, (Value.int n).Numeric c := fun _ => trivial
  cases op with
  | not =>
    have h := foldsTo_binary (t := .int) hc rfl .eq hv (hint 0)
    rw [unary, zeroLike_of_numeric hv]
    exact ⟨h.le, h.layered, h.numeric⟩
  | neg =>
    have h := foldsTo_binary hc ht .sub (hint 0) hv
    exact ⟨h.le, h.layered, h.numeric⟩
  | bitNot =>
    have h := foldsTo_binary hc ht .bitXor hv (hint (-1))
    exact ⟨h.le, h.layered, h.numeric⟩

theorem numeric_cast {source target : CType} (ht : target.isInteger = true) (hv : v.Numeric c) :
    (v.cast source target).Numeric c := by
  have hvoid : target.isVoid = false := by cases target <;> first | rfl | cases ht
  have hpointer : target.isPointer = false := by cases target <;> first | rfl | cases ht
  unfold Value.cast
  rw [hvoid, hpointer]
  cases v with
  | int n => simp only [Bool.false_eq_true, if_false]; split <;> trivial
  | symbol x => simp only [Bool.false_eq_true, if_false]; split <;> exact hv
  | undefined => trivial
  | _ => cases hv

namespace Made

variable {vs : List Value} {l r : Value}

/-- Operations make integers of integers. -/
theorem numeric (h : Made c vs) : c.Layered ∧ ∀ v ∈ vs, v.Numeric c := by
  induction h with
  | start p => exact ⟨fun _ h => absurd h (Nat.not_lt_zero _), fun _ h => nomatch h⟩
  | grow _ hle hd ih => exact ⟨hd, fun v hv => (ih.2 v hv).mono hle⟩
  | int n _ ih => exact ⟨ih.1, forall_mem_cons.2 ⟨trivial, ih.2⟩⟩
  | @atom c vs a _ ha ht ho ih =>
    rw [scalarValue_of_isInteger ht]
    have hx : (symbol a c).2.HasSymbol (symbol a c).1 := Interned.lt_size_of_get? (get?_symbol a c)
    have he := symbol_symbol a c
    refine ⟨ih.1.symbol ho, forall_mem_cons.2
      ⟨?_, fun v hv => (ih.2 v hv).mono (grows_symbol a c)⟩⟩
    exact Catalog.Numeric.atom hx (by rwa [he]) (by rwa [he])
  | binary op _ hl hr ht ih =>
    have h := foldsTo_binary ih.1 ht op (ih.2 _ hl) (ih.2 _ hr)
    exact ⟨h.layered, forall_mem_cons.2 ⟨h.numeric, fun v hv => (ih.2 v hv).mono h.le⟩⟩
  | unary op _ hv ht ih =>
    obtain ⟨hle, hlayered, hnum⟩ := numeric_unary ih.1 ht op (ih.2 _ hv)
    exact ⟨hlayered, forall_mem_cons.2 ⟨hnum, fun v hv => (ih.2 v hv).mono hle⟩⟩
  | cast _ hv ht ih => exact ⟨ih.1, forall_mem_cons.2 ⟨numeric_cast ht (ih.2 _ hv), ih.2⟩⟩

/-- **Symbolic folding and known folding.** Take operands that any sequence of operations made and
numbers for their atoms under which the operands and the operation are defined. The value of the
operation agrees with the known result in the last eight bits. It wraps to the known result at the
type of the operation, unless a constant is added to a `char` sum at the type `int`; and then it is
the known result, unless a `char` operation gave a symbol of type `int`. -/
theorem binary_folds (h : Made c vs) (hl : l ∈ vs) (hr : r ∈ vs) (op : BinaryOp)
    (ht : t.isInteger = true) {α : Assignment} {a b n : Int} (ha : l.under? c α = some a)
    (hb : r.under? c α = some b) (hn : foldInts op a b t = .int n) :
    ∃ m, (Naming.binary op l r t c).1.under? (Naming.binary op l r t c).2 α = some m ∧
      (2 ^ 8 : Int) ∣ m - n ∧
      (¬GathersNarrow c op l r t →
        t.wrap m = n ∧ (¬Unwrapped t (Naming.binary op l r t c) → m = n)) := by
  obtain ⟨hc, hnum⟩ := h.numeric
  exact (foldsTo_binary hc ht op (hnum l hl) (hnum r hr)).folds ⟨a, b, ha, hb, hn⟩

/-! A `char` that is 100, and sums of it with 100. -/

/-- The assignment of 100 to everything. -/
def hundreds : Assignment where
  value _ := 100
  mem_domain a := by
    cases a.type with
    | void | char | int => decide
    | pointer => exact (by decide : (100 : Int) ∈ Interval.mk 0 Word.max)
    | array | struct => exact (by decide : (100 : Int) ∈ Interval.mk Word.min Word.max)

/-- An atom of type `char`. -/
def charAtom : Symbol := .conjured ⟨0⟩ ⟨0⟩ .char 0 none

/-- The catalog in which only the atom is named. -/
def atomCatalog : Catalog := (symbol charAtom (.ofProgram { file := "" })).2

/-- The number of the atom. -/
def atomId : SymbolId := (symbol charAtom (.ofProgram { file := "" })).1

theorem made_atomCatalog : Made atomCatalog [.int 100, .symbol atomId] := by
  have h := Made.atom (a := charAtom) (.start { file := "" }) rfl rfl fun _ h => nomatch h
  rw [scalarValue_of_isInteger rfl] at h
  exact .int 100 h

/-- The `char` sum of 100 and 100 is -56. -/
theorem binary_folds_char : Made atomCatalog [.int 100, .symbol atomId] ∧
    (Value.symbol atomId).under? atomCatalog hundreds = some 100 ∧
    foldInts .add 100 100 .char = .int (-56) ∧
    (Naming.binary .add (.symbol atomId) (.int 100) .char atomCatalog).1.under?
      (Naming.binary .add (.symbol atomId) (.int 100) .char atomCatalog).2 hundreds =
        some (-56) := by
  have hvalue : (Value.symbol atomId).under? atomCatalog hundreds = some 100 := by decide +kernel
  obtain ⟨m, hm, -, hfold⟩ := made_atomCatalog.binary_folds (l := .symbol atomId) (r := .int 100)
    (by simp) (by simp) .add (t := .char) (n := -56) rfl hvalue rfl (by decide)
  have hwrapped : ¬Unwrapped .char
      (Naming.binary .add (.symbol atomId) (.int 100) .char atomCatalog) := by
    have hsum : (Naming.binary .add (.symbol atomId) (.int 100) .char atomCatalog).1 = .symbol ⟨1⟩ ∧
        ((Naming.binary .add (.symbol atomId) (.int 100) .char atomCatalog).2.symbol ⟨1⟩).type = .char := by
      decide +kernel
    rintro ⟨-, x, hx, ht⟩
    cases hx.symm.trans hsum.1
    cases ht.symm.trans hsum.2
  obtain rfl := (hfold fun h => nomatch h.1).2 hwrapped
  exact ⟨made_atomCatalog, hvalue, by decide, hm⟩

/-- Adding 100 once more at the type `int` gives 44, but the gathered sum stands for 300. -/
theorem binary_gathers_narrow : ∃ (c : Catalog) (vs : List Value) (l r : Value), Made c vs ∧
    l ∈ vs ∧ r ∈ vs ∧ l.under? c hundreds = some (-56) ∧ r.under? c hundreds = some 100 ∧
    foldInts .add (-56) 100 .int = .int 44 ∧
    (Naming.binary .add l r .int c).1.under? (Naming.binary .add l r .int c).2 hundreds =
      some 300 := by
  have hsum := made_atomCatalog.binary (t := .char) .add (l := .symbol atomId) (r := .int 100)
    (by simp) (by simp) rfl
  exact ⟨_, _, _, .int 100, hsum, mem_cons_self, by simp, by decide +kernel, rfl, by decide,
    by decide +kernel⟩

end Made

end Naming

end PathScout

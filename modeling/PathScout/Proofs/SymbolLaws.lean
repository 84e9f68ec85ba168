import PathScout.Proofs.CatalogLaws
import PathScout.Proofs.Feasibility

/-!
# Values of symbols

An assignment gives numbers to the symbols that are not made by operations. The others are then
computed from them, as the operators say.

* `Catalog.Over`: a symbol of type `int` that is made of atoms which satisfy a condition.
* `Catalog.Arithmetic`: every operation of the catalog is one on symbols of type `int`.
* `Assignment`, `Catalog.eval`: numbers for the atoms, and the value of a symbol under them.
* `Catalog.Arithmetic.valuation`: the valuation of all symbols that an assignment gives.
-/

namespace PathScout

open Naming

variable {op : BinaryOp} {l r n : Int} {t : CType}

/-! ### Operators on known integers -/

/-- What an operator on `int` gives, and zero where it is undefined. -/
def foldOrZero (op : BinaryOp) (l r : Int) : Int :=
  match foldInts op l r .int with
  | .int n => n
  | _ => 0

theorem foldOrZero_of_int (h : foldInts op l r .int = .int n) : foldOrZero op l r = n := by
  rw [foldOrZero, h]

/-- What an integer type wraps to is a value of it. -/
theorem wrap_mem_domain (ht : t.isInteger = true) (n : Int) : t.wrap n ∈ t.domain := by
  rw [Interval.mem_def]
  cases t with
  | char =>
    have hlo := @Int.le_bmod n (2 ^ 8) (by norm_num)
    have hhi := @Int.bmod_lt n (2 ^ 8) (by norm_num)
    rw [show CType.char.wrap n = n.bmod (2 ^ 8) from rfl]
    norm_num [CType.domain] at hlo hhi ⊢
    omega
  | int =>
    have hlo := @Int.le_bmod n (2 ^ 32) (by norm_num)
    have hhi := @Int.bmod_lt n (2 ^ 32) (by norm_num)
    rw [show CType.int.wrap n = n.bmod (2 ^ 32) from rfl]
    norm_num [CType.domain] at hlo hhi ⊢
    omega
  | _ => cases ht

theorem wrap_int_mem_domain (n : Int) : CType.int.wrap n ∈ CType.int.domain := wrap_mem_domain rfl n

/-- The result of an operator is a value of its type. -/
theorem mem_domain_of_foldInts (ht : t.isInteger = true) (h : foldInts op l r t = .int n) :
    n ∈ t.domain := by
  have key : ∀ m, Value.int (t.wrap m) = .int n → n ∈ t.domain := fun m hm => by
    rw [← Value.int.inj hm]
    exact wrap_mem_domain ht m
  cases op with
  | div | rem | shl | shr =>
    simp only [foldInts] at h
    split at h
    · cases h
    · exact key _ h
  | _ => exact key _ h

theorem foldOrZero_mem_domain (op : BinaryOp) (l r : Int) : foldOrZero op l r ∈ CType.int.domain := by
  unfold foldOrZero
  split
  · next h => exact mem_domain_of_foldInts rfl h
  · decide

/-- Comparisons give their truth value. -/
theorem foldInts_comparison (ht : t.isInteger = true) (h : op.isComparison = true) (l r : Int) :
    foldInts op l r t = .int (Word.ofBool (op.holds l r)) := by
  have key : ∀ b : Bool, t.wrap (Word.ofBool b) = Word.ofBool b := by
    cases t with
    | char | int => decide
    | _ => cases ht
  cases op with
  | eq | ne | lt | le | gt | ge => simp [foldInts, BinaryOp.holds, key, bne, beq_eq_decide]
  | _ => cases h

/-! ### Assignments -/

theorem CType.zero_mem_domain (t : CType) : 0 ∈ t.domain := by
  cases t with
  | struct | array | pointer =>
    exact ⟨by simp [CType.domain, Word.min], by simp [CType.domain, Word.max]⟩
  | _ => decide

/-- Numbers for symbols, each one of its type. -/
structure Assignment where
  value : Symbol → Int
  mem_domain : ∀ a, value a ∈ a.type.domain

instance : Inhabited Assignment := ⟨fun _ => 0, fun a => a.type.zero_mem_domain⟩

/-- The value of a symbol, given the values of the symbols that it is made of. -/
def Symbol.valueBy (α : Assignment) (older : SymbolId → Int) : Symbol → Int
  | symInt l op k _ => foldOrZero op (older l) k
  | intSym k op r _ => foldOrZero op k (older r)
  | symSym l op r _ => foldOrZero op (older l) (older r)
  | a => α.value a

namespace Symbol

variable {α β : Assignment} {f g : SymbolId → Int} {a : Symbol}

theorem valueBy_of_isAtomic (h : a.isAtomic = true) : a.valueBy α f = α.value a := by
  cases a with
  | symInt | intSym | symSym => cases h
  | _ => rfl

theorem valueBy_congr (h : a.isAtomic = false) (hfg : ∀ x ∈ a.operands, f x = g x) :
    a.valueBy α f = a.valueBy β g := by
  cases a with
  | symInt l op k t => rw [valueBy, valueBy, hfg l (by simp [operands])]
  | intSym k op r t => rw [valueBy, valueBy, hfg r (by simp [operands])]
  | symSym l op r t => rw [valueBy, valueBy, hfg l (by simp [operands]), hfg r (by simp [operands])]
  | _ => cases h

theorem valueBy_mem_domain (h : a.isAtomic = false) : a.valueBy α f ∈ CType.int.domain := by
  cases a with
  | symInt | intSym | symSym => exact foldOrZero_mem_domain _ _ _
  | _ => cases h

end Symbol

/-- Symbols are made of older ones. -/
def Catalog.Layered (c : Catalog) : Prop :=
  ∀ x, c.HasSymbol x → ∀ y ∈ (c.symbol x).operands, y.index < x.index

theorem Catalog.Layered.symbol {c : Catalog} {a : Symbol} (hc : c.Layered)
    (ha : ∀ y ∈ a.operands, c.HasSymbol y) : (Naming.symbol a c).2.Layered := by
  intro x hx y hy
  rcases Interned.get?_of_get?_intern hx.get? with h | ⟨hsize, he⟩
  · have hx' : c.HasSymbol x := Interned.lt_size_of_get? h
    exact hc x hx' y (Catalog.symbol_mono (Naming.grows_symbol a c) hx' ▸ hy)
  · rw [hsize]
    exact ha y (he ▸ hy)

namespace Catalog

variable {c d : Catalog} {P Q : Symbol → Prop} {x y : SymbolId} {a : Symbol} {α β : Assignment}

/-! ### Symbols made of atoms -/

/-- The symbol has type `int`, is made by operations on `int` from older symbols, and its atoms
satisfy the condition. -/
inductive Over (c : Catalog) (P : Symbol → Prop) : SymbolId → Prop where
  | atom {x : SymbolId} : c.HasSymbol x → (c.symbol x).isAtomic = true → (c.symbol x).type = .int →
    P (c.symbol x) → Over c P x
  | operation {x : SymbolId} : c.HasSymbol x → (c.symbol x).isAtomic = false →
    (c.symbol x).type = .int → (∀ y ∈ (c.symbol x).operands, y.index < x.index) →
    (∀ y ∈ (c.symbol x).operands, Over c P y) → Over c P x

namespace Over

theorem hasSymbol (h : c.Over P x) : c.HasSymbol x := by
  cases h <;> assumption

theorem type_eq (h : c.Over P x) : (c.symbol x).type = .int := by
  cases h <;> assumption

theorem imp (h : c.Over P x) (hPQ : ∀ a, P a → Q a) : c.Over Q x := by
  induction h with
  | atom hx ha ht hP => exact .atom hx ha ht (hPQ _ hP)
  | operation hx ha ht hlt _ ih => exact .operation hx ha ht hlt ih

theorem mono (h : c.Over P x) (hcd : c ≤ d) : d.Over P x := by
  induction h with
  | atom hx ha ht hP =>
    have hs := symbol_mono hcd hx
    exact .atom (hx.mono hcd) (hs ▸ ha) (hs ▸ ht) (hs ▸ hP)
  | operation hx ha ht hlt _ ih =>
    have hs := symbol_mono hcd hx
    exact .operation (hx.mono hcd) (hs ▸ ha) (hs ▸ ht) (hs ▸ hlt) (hs ▸ ih)

/-- The operands of an operation are older. -/
theorem operand_lt (h : c.Over P x) (ha : (c.symbol x).isAtomic = false)
    (hy : y ∈ (c.symbol x).operands) : y.index < x.index := by
  cases h with
  | atom _ ha' _ _ =>
    rw [ha] at ha'
    cases ha'
  | operation _ _ _ hlt _ => exact hlt y hy

/-- The operands of an operation are made of the same atoms. -/
theorem operand (h : c.Over P x) (ha : (c.symbol x).isAtomic = false)
    (hy : y ∈ (c.symbol x).operands) : c.Over P y := by
  cases h with
  | atom _ ha' _ _ =>
    rw [ha] at ha'
    cases ha'
  | operation _ _ _ _ ho => exact ho y hy

end Over

/-- The symbol in a sum with a constant is made of the same atoms. -/
theorem Over.of_shifted? {p : SymbolId × Int} (h : c.Over P x) (hp : c.shifted? x = some p) :
    c.Over P p.1 := by
  have hs := (Option.filter_eq_some_iff.1 hp).1
  unfold Symbol.shifted? at hs
  split at hs
  iterate 2
    · next hx =>
      cases hs
      exact h.operand (hx ▸ rfl) (by simp [hx, Symbol.operands])
  · cases hs

/-! ### Evaluation -/

/-- The value of a symbol: an atom has the value that it is assigned, and an operation is computed
from the values of its operands, which are older. -/
def eval (c : Catalog) (α : Assignment) (x : SymbolId) : Int :=
  (c.symbol x).valueBy α fun y => if y.index < x.index then eval c α y else 0
termination_by x.index

theorem eval_of_isAtomic (h : (c.symbol x).isAtomic = true) : c.eval α x = α.value (c.symbol x) := by
  rw [eval, Symbol.valueBy_of_isAtomic h]

/-- The value of a symbol in terms of those of its operands. -/
theorem Over.eval_eq (h : c.Over P x) : c.eval α x = (c.symbol x).valueBy α (c.eval α) := by
  by_cases ha : (c.symbol x).isAtomic = true
  · rw [eval_of_isAtomic ha, Symbol.valueBy_of_isAtomic ha]
  · have ha := Bool.eq_false_iff.2 ha
    rw [eval]
    exact Symbol.valueBy_congr ha fun y hy => if_pos (h.operand_lt ha hy)

/-- The value of a symbol does not change when the catalog grows. -/
theorem Over.eval_mono (h : c.Over P x) (hcd : c ≤ d) : d.eval α x = c.eval α x := by
  induction h with
  | atom hx ha _ _ =>
    have hs := symbol_mono hcd hx
    rw [eval_of_isAtomic ha, eval_of_isAtomic (hs ▸ ha), hs]
  | operation hx ha ht hlt ho ih =>
    have h : c.Over P _ := .operation hx ha ht hlt ho
    rw [h.eval_eq, (h.mono hcd).eval_eq, symbol_mono hcd hx]
    exact Symbol.valueBy_congr ha ih

/-- The value of a symbol depends on its atoms only. -/
theorem Over.eval_congr (h : c.Over P x) (hαβ : ∀ a, P a → α.value a = β.value a) :
    c.eval α x = c.eval β x := by
  induction h with
  | atom _ ha _ hP => rw [eval_of_isAtomic ha, eval_of_isAtomic ha, hαβ _ hP]
  | operation hx ha ht hlt ho ih =>
    have h : c.Over P _ := .operation hx ha ht hlt ho
    rw [h.eval_eq, h.eval_eq]
    exact Symbol.valueBy_congr ha ih

/-! ### Catalogs of `int` operations -/

/-- Every operation is one on symbols of type `int` that are older. -/
def Arithmetic (c : Catalog) : Prop :=
  ∀ x, c.HasSymbol x → (c.symbol x).isAtomic = false → c.Over (fun _ => True) x

theorem arithmetic_ofProgram (p : Program) : (ofProgram p).Arithmetic := fun _ h => by
  cases Nat.not_lt_zero _ h

/-- Naming regions only keeps the catalog one of `int` operations. -/
theorem Arithmetic.of_symbols_eq (hc : c.Arithmetic) (hcd : c ≤ d) (h : d.symbols = c.symbols) :
    d.Arithmetic := fun x hx ha => by
  have hx' : c.HasSymbol x := by rwa [HasSymbol, ← h]
  exact (hc x hx' (symbol_mono hcd hx' ▸ ha)).mono hcd

theorem eval_mem_domain (hc : c.Arithmetic) (α : Assignment) (x : SymbolId) :
    c.eval α x ∈ (c.symbol x).type.domain := by
  by_cases ha : (c.symbol x).isAtomic = true
  · rw [eval_of_isAtomic ha]
    exact α.mem_domain _
  · have ha := Bool.eq_false_iff.2 ha
    have hx : c.HasSymbol x := hasSymbol_of_ne fun h => by
      rw [h] at ha
      cases ha
    rw [(hc x hx ha).type_eq, eval]
    exact Symbol.valueBy_mem_domain ha

/-- Naming a symbol that is an atom, or an operation on `int`, keeps the catalog one of `int`
operations. -/
theorem Arithmetic.symbol (hc : c.Arithmetic)
    (ha : a.isAtomic = false → a.type = .int ∧ ∀ y ∈ a.operands, c.Over (fun _ => True) y) :
    (Naming.symbol a c).2.Arithmetic := by
  intro x hx hop
  have hcd : c ≤ (Naming.symbol a c).2 := Naming.grows_symbol a c
  rcases Interned.get?_of_get?_intern hx.get? with h | ⟨hsize, he⟩
  · have hx' : c.HasSymbol x := Interned.lt_size_of_get? h
    rw [symbol_mono hcd hx'] at hop
    exact (hc x hx' hop).mono hcd
  · obtain ⟨ht, ho⟩ := ha (he ▸ hop)
    refine .operation hx hop (by rw [he]; exact ht) (fun y hy => ?_) fun y hy => ?_
    · rw [hsize]
      exact (ho y (he ▸ hy)).hasSymbol
    · exact (ho y (he ▸ hy)).mono hcd

/-- A symbol that is named as an operation on symbols is made of the same atoms as these. -/
theorem Arithmetic.over_symbol (hc : c.Arithmetic) (hop : a.isAtomic = false) (ht : a.type = .int)
    (ha : ∀ y ∈ a.operands, c.Over P y) :
    (Naming.symbol a c).2.Over P (Naming.symbol a c).1 := by
  have hcd : c ≤ (Naming.symbol a c).2 := Naming.grows_symbol a c
  have he := symbol_symbol a c
  have hx : (Naming.symbol a c).2.HasSymbol (Naming.symbol a c).1 :=
    Interned.lt_size_of_get? (get?_symbol a c)
  have hd := hc.symbol fun _ => ⟨ht, fun y hy => (ha y hy).imp fun _ _ => trivial⟩
  have hop' : ((Naming.symbol a c).2.symbol (Naming.symbol a c).1).isAtomic = false := by rwa [he]
  refine .operation hx hop' (by rwa [he]) (fun y hy => ?_) fun y hy => ?_
  · exact (hd _ hx hop').operand_lt hop' hy
  · rw [he] at hy
    exact (ha y hy).mono hcd

namespace Arithmetic

theorem over_of_operation (hc : c.Arithmetic) (hx : c.symbol x = a) (ha : a.isAtomic = false) :
    c.Over (fun _ => True) x := by
  refine hc x (hasSymbol_of_ne fun h => ?_) (hx ▸ ha)
  rw [hx] at h
  rw [h] at ha
  cases ha

theorem type_of_operation (hc : c.Arithmetic) (hx : c.symbol x = a) (ha : a.isAtomic = false) :
    a.type = .int := hx ▸ (hc.over_of_operation hx ha).type_eq

theorem sumsFit (hc : c.Arithmetic) : c.SumsFit := by
  intro s l op k t hs _ n hn
  have ho := hc.over_of_operation hs rfl
  have ht : t = .int := hc.type_of_operation hs rfl
  have hl := ho.operand (hs ▸ rfl) (show l ∈ (c.symbol s).operands by simp [hs, Symbol.operands])
  rwa [hl.type_eq, ← ht] at hn

/-- The values of all symbols under an assignment. -/
def valuation (hc : c.Arithmetic) (α : Assignment) : Valuation c where
  value := c.eval α
  mem_domain := eval_mem_domain hc α
  sum hs := by
    obtain rfl := hc.type_of_operation hs rfl
    rw [(hc.over_of_operation hs rfl).eval_eq, hs]
    rfl
  difference hs := by
    obtain rfl := hc.type_of_operation hs rfl
    rw [(hc.over_of_operation hs rfl).eval_eq, hs]
    rfl
  compare hs hop := by
    rw [(hc.over_of_operation hs rfl).eval_eq, hs]
    exact foldOrZero_of_int (foldInts_comparison rfl hop _ _)
  compare_const hs hop := by
    rw [(hc.over_of_operation hs rfl).eval_eq, hs]
    exact foldOrZero_of_int (foldInts_comparison rfl hop _ _)

end Arithmetic

end Catalog

end PathScout

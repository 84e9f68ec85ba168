import PathScout.Proofs.SymbolLaws

/-!
# Operations on symbols are exact

An operation on values of type `int` that are numbers or symbols gives a number or a symbol whose
value, under every assignment, is what the operator gives on the values of the operands: whatever
is simplified, gathered or exchanged on the way.

* `Value.Plain`: a value of type `int` that is made of atoms which satisfy a condition.
* `Value.Denotes`: the number that a value stands for under an assignment.
* `Computes`: what it means that an operation on values is exact.
* `computes_symbolWithInt`, `computes_binary`, `computes_unary`: exactness, from a symbol with a
  constant up to all operators.
-/

namespace PathScout

open List Naming

variable {n : Int} {t : CType} {v : Value}

open RangeSet (wrapWidth)

/-! ### Numbers and symbols -/

namespace Value

variable {c d : Catalog} {P Q : Symbol → Prop} {v : Value} {α β : Assignment} {n m : Int}

/-- The value is a number, a symbol made of atoms that satisfy the condition, or not known. -/
def Plain (v : Value) (c : Catalog) (P : Symbol → Prop) : Prop :=
  match v with
  | int _ | undefined | unknown => True
  | symbol x => c.Over P x
  | _ => False

/-- The value stands for the number. -/
def Denotes (v : Value) (c : Catalog) (α : Assignment) (n : Int) : Prop :=
  match v with
  | int m => m = n
  | symbol x => c.eval α x = n
  | _ => False

theorem Plain.mono (h : v.Plain c P) (hcd : c ≤ d) : v.Plain d P := by
  cases v with
  | symbol x => exact Catalog.Over.mono h hcd
  | _ => exact h

theorem Plain.imp (h : v.Plain c P) (hPQ : ∀ a, P a → Q a) : v.Plain c Q := by
  cases v with
  | symbol x => exact Catalog.Over.imp h hPQ
  | _ => exact h

theorem Plain.region?_eq_none (h : v.Plain c P) : v.region? = none := by
  cases v with
  | loc l => cases h
  | _ => rfl

section

variable (h : v.Denotes c α n)
include h

theorem Denotes.mono (hv : v.Plain c P) (hcd : c ≤ d) : v.Denotes d α n := by
  cases v with
  | symbol x => exact (Catalog.Over.eval_mono hv hcd).trans h
  | _ => exact h

/-- What a value stands for depends on its atoms only. -/
theorem Denotes.congr (hv : v.Plain c P) (hαβ : ∀ a, P a → α.value a = β.value a) : v.Denotes c β n := by
  cases v with
  | symbol x => exact (Catalog.Over.eval_congr hv hαβ).symm.trans h
  | _ => exact h

theorem Denotes.isUndefined_eq : v.isUndefined = false := by
  cases v with
  | undefined => cases h
  | _ => rfl

theorem Denotes.isUnknown_eq : v.isUnknown = false := by
  cases v with
  | unknown => cases h
  | _ => rfl

theorem Denotes.isCondition : v.isCondition = true := by
  cases v with
  | int k => rfl
  | symbol x => rfl
  | _ => cases h

end

/-- Whether a condition is true is whether the number that it stands for is not zero. -/
theorem Denotes.truth?_eq (hc : c.Arithmetic) (h : v.Denotes c α n) :
    v.truth? (hc.valuation α) = some (decide (n ≠ 0)) := by
  cases v with
  | int k => rw [truth?, show k = n from h]
  | symbol x =>
    rw [truth?, ← show c.eval α x = n from h]
    rfl
  | _ => cases h

end Value

/-! ### Known operands -/

/-- A value of an integer type is not changed by wrapping. -/
theorem wrap_of_mem (ht : t.isInteger = true) (h : n ∈ t.domain) : t.wrap n = n :=
  eq_of_dvd_sub (wrap_mem_domain ht n) h (dvd_typeWrap_sub t n)

theorem wordWrap_of_mem (h : n ∈ CType.int.domain) : Word.wrap n = n := by
  show n.bmod (2 ^ 64) = n
  have hdvd : (2 ^ 64 : Int) ∣ n.bmod (2 ^ 64) - n := Int.dvd_bmod_sub_self
  have hlo := @Int.le_bmod n (2 ^ 64) (by norm_num)
  have hhi := @Int.bmod_lt n (2 ^ 64) (by norm_num)
  rw [Interval.mem_def] at h
  norm_num [CType.domain] at hlo hhi hdvd h ⊢
  omega

/-- Wrapped numbers with the same residue are equal. -/
theorem wrap_wordWrap_congr {m : Int} (ht : t.isInteger = true) (h : (2 ^ wrapWidth t : Int) ∣ n - m) :
    t.wrap (Word.wrap n) = t.wrap (Word.wrap m) := by
  refine eq_of_dvd_sub (wrap_mem_domain ht _) (wrap_mem_domain ht _) ?_
  have hm := dvd_sub (dvd_wrap_sub t n) (dvd_wrap_sub t m)
  have := dvd_add hm h
  rwa [show t.wrap (Word.wrap n) - n - (t.wrap (Word.wrap m) - m) + (n - m) =
    t.wrap (Word.wrap n) - t.wrap (Word.wrap m) by ring] at this

theorem wrap_zero (ht : t.isInteger = true) : t.wrap 0 = 0 := by
  cases t with
  | char | int => decide
  | _ => cases ht

/-- Neutral and absorbing constants: a symbol is wrapped to the type of the result, or zero. -/
theorem foldInts_simplified {s : SymbolId} {op : BinaryOp} {k x : Int} (ht : t.isInteger = true)
    (h : simplified? s op k = some v) (hx : x ∈ CType.int.domain) :
    v = .symbol s ∧ foldInts op x k t = .int (t.wrap x) ∨ v = .int 0 ∧ foldInts op x k t = .int 0 := by
  have h64 : x.bmod (2 ^ 64) = x := wordWrap_of_mem hx
  have hword : (BitVec.ofInt 64 x).toInt = x := by rw [BitVec.toInt_ofInt, h64]
  have hx64 := wordWrap_of_mem hx
  have hzero := wrap_zero ht
  have hwidth : ¬t.bitWidth?.getD 64 = 0 := by
    cases t with
    | char | int => decide
    | _ => cases ht
  unfold simplified? at h
  split at h <;> cases h
  all_goals first
    | exact .inl ⟨rfl, by simp [foldInts, Word.lor, Word.lxor, Word.shl, Word.shr, hword, hx64, hwidth]⟩
    | exact .inr ⟨rfl, by simp [foldInts, Word.land, hzero, show Word.wrap 0 = 0 from rfl]⟩

/-- Known operands give a number or an undefined value. -/
theorem plain_foldInts {c : Catalog} {P : Symbol → Prop} (op : BinaryOp) (l r : Int) :
    (foldInts op l r .int).Plain c P := by
  cases op with
  | div | rem | shl | shr =>
    unfold foldInts
    dsimp only
    split <;> trivial
  | _ => trivial

/-- Comparisons may be read from the other side. -/
theorem foldInts_reversed {op rev : BinaryOp} (ht : t.isInteger = true) (h : op.reversed? = some rev)
    (l r : Int) : foldInts op l r t = foldInts rev r l t := by
  have hop : op.isComparison = true := by cases op <;> first | rfl | cases h
  have hrev : rev.isComparison = true := by cases op <;> cases h <;> rfl
  rw [foldInts_comparison ht hop, foldInts_comparison ht hrev, BinaryOp.holds_reversed h]

theorem foldInts_commutative {op : BinaryOp} (ht : t.isInteger = true) (h : op.isCommutative = true)
    (l r : Int) : foldInts op l r t = foldInts op r l t := by
  cases op with
  | add => rw [foldInts, foldInts, Int.add_comm]
  | mul => rw [foldInts, foldInts, Int.mul_comm]
  | bitAnd => rw [foldInts, foldInts, Word.land, Word.land, BitVec.and_comm]
  | bitOr => rw [foldInts, foldInts, Word.lor, Word.lor, BitVec.or_comm]
  | bitXor => rw [foldInts, foldInts, Word.lxor, Word.lxor, BitVec.xor_comm]
  | eq | ne => rw [foldInts_reversed ht rfl]
  | _ => cases h

theorem foldInts_sameSymbol {op : BinaryOp} (ht : t.isInteger = true)
    (h : sameSymbol? op = some n) (x : Int) : foldInts op x x t = .int n := by
  have hzero := wrap_zero ht
  cases op with
  | sub | bitXor =>
    cases h
    simp [foldInts, Word.lxor]
    exact hzero
  | eq | ne | lt | le | gt | ge =>
    cases h
    rw [foldInts_comparison ht rfl]
    simp [BinaryOp.holds]
    decide
  | _ => cases h

/-! ### Exact operations -/

/-- An operation that gave a value and added to the catalog is exact: it added symbols only, its
value is made of the same atoms as the operands, and stands for the result under every
assignment. -/
structure Computes (c : Catalog) (P : Symbol → Prop) (out : Value × Catalog)
    (result : Assignment → Int → Prop) : Prop where
  le : c ≤ out.2
  arithmetic : out.2.Arithmetic
  regions : out.2.regions = c.regions
  plain : out.1.Plain out.2 P
  denotes {α : Assignment} {n : Int} : result α n → out.1.Denotes out.2 α n

variable {c : Catalog} {P : Symbol → Prop} {op : BinaryOp} {s : SymbolId} {k : Int}
  {result : Assignment → Int → Prop}

/-- What is only looked up adds nothing to the catalog. -/
theorem computes_of_eq (hc : c.Arithmetic) (hv : v.Plain c P) (h : ∀ {α n}, result α n → v.Denotes c α n) :
    Computes c P (v, c) result :=
  ⟨le_rfl, hc, rfl, hv, h⟩

theorem Computes.congr {out : Value × Catalog} {result' : Assignment → Int → Prop}
    (h : Computes c P out result) (himp : ∀ {α n}, result' α n → result α n) :
    Computes c P out result' :=
  ⟨h.le, h.arithmetic, h.regions, h.plain, fun hr => h.denotes (himp hr)⟩

/-- A symbol for an operation on symbols. -/
theorem computes_symbol {a : Symbol} (hc : c.Arithmetic) (hop : a.isAtomic = false)
    (ht : a.type = .int) (ha : ∀ x ∈ a.operands, c.Over P x) :
    Computes c P (.symbol (symbol a c).1, (symbol a c).2)
      fun α n => a.valueBy α (c.eval α) = n where
  le := grows_symbol a c
  arithmetic := hc.symbol fun _ => ⟨ht, fun x hx => (ha x hx).imp fun _ _ => trivial⟩
  regions := rfl
  plain := hc.over_symbol hop ht ha
  denotes {α n} hn := by
    have hover := hc.over_symbol hop ht ha
    show Catalog.eval _ _ _ = n
    rw [hover.eval_eq, symbol_symbol, ← hn]
    exact Symbol.valueBy_congr hop fun x hx => (ha x hx).eval_mono (grows_symbol a c)

namespace Naming

variable {p : SymbolId × Int}

/-- Gathering takes the operand of a sum or difference with a constant. -/
theorem gather?_eq_shifted? (h : op = .add ∨ op = .sub) : gather? c s op = c.shifted? s := by
  unfold gather? Catalog.shifted?
  simp only [if_pos h]
  congr 1

/-- Only sums and differences are gathered. -/
theorem shifted?_of_gather? (h : gather? c s op = some p) :
    (op = .add ∨ op = .sub) ∧ c.shifted? s = some p := by
  by_cases hop : op = .add ∨ op = .sub
  · exact ⟨hop, gather?_eq_shifted? hop ▸ h⟩
  · have hsum := (Option.filter_eq_some_iff.1 h).1
    rw [if_neg hop] at hsum
    cases hsum

/-- A constant that is added or subtracted has the residue of its addend. -/
theorem foldInts_addend {t : CType} (ht : t.isInteger = true) (h : op = .add ∨ op = .sub)
    (x : Int) : foldInts op x k t = .int (t.wrap (Word.wrap (x + addend op k))) := by
  rcases h with rfl | rfl
  · rfl
  · refine congrArg Value.int (wrap_wordWrap_congr ht ?_)
    have hdvd := dvd_wordWrap_sub t (-k)
    rw [addend, if_neg (by decide), ← dvd_neg]
    rwa [show -(x - k - (x + Word.wrap (-k))) = Word.wrap (-k) - -k by ring]

/-- Gathering two constants does not change the sum. -/
theorem foldInts_gathered (hc : c.Arithmetic) (α : Assignment) (h : gather? c s op = some p) :
    foldInts op (c.eval α s) k .int =
      foldInts .add (c.eval α p.1) (CType.int.wrap (Word.wrap (p.2 + addend op k))) .int := by
  obtain ⟨hop, hshift⟩ := shifted?_of_gather? h
  obtain ⟨_, _, t, hs, -, hdvd⟩ := (hc.valuation α).dvd_of_shifted? hshift
  obtain rfl : t = .int := hc.type_of_operation hs rfl
  have hsum : (2 ^ 32 : Int) ∣ c.eval α s - (c.eval α p.1 + p.2) := hdvd
  have hconst : (2 ^ 32 : Int) ∣ _ := dvd_wrap_sub .int (p.2 + addend op k)
  rw [foldInts_addend rfl hop]
  refine congrArg Value.int (wrap_wordWrap_congr rfl ?_)
  show (2 ^ 32 : Int) ∣ _
  norm_num at hsum hconst ⊢
  omega

section

variable (hc : c.Arithmetic) (op : BinaryOp)
include hc

/-- A symbol with a constant, whatever is simplified and gathered. -/
theorem computes_symbolWithInt (k : Int) (hs : c.Over P s) :
    Computes c P (symbolWithInt s op k .int c) fun α n => foldInts op (c.eval α s) k .int = .int n := by
  -- Each sum that is gathered is older, so this is an induction along `symbolWithInt` itself.
  fun_induction symbolWithInt s op k .int c with
  | case1 s op k v hv =>
    refine computes_of_eq hc ?_ fun {α n} hn => ?_
    · rcases foldInts_simplified (t := .int) (x := 0) rfl hv (by decide) with ⟨rfl, -⟩ | ⟨rfl, -⟩
      · exact hs
      · trivial
    · have hx : c.eval α s ∈ CType.int.domain := hs.type_eq ▸ Catalog.eval_mem_domain hc α s
      rcases foldInts_simplified (t := .int) rfl hv hx with ⟨rfl, he⟩ | ⟨rfl, he⟩
      · rw [wrap_of_mem rfl hx] at he
        exact Value.int.inj (he.symm.trans hn)
      · exact Value.int.inj (he.symm.trans hn)
  | case2 s op k hv p hp ih =>
    obtain ⟨-, hshift⟩ := shifted?_of_gather? hp
    have hl : c.Over P p.1 := hs.of_shifted? hshift
    exact (ih hl).congr fun {α n} hn => (foldInts_gathered hc α hp).symm.trans hn
  | case3 s op k hv hp i d hd =>
    have h := computes_symbol (a := .symInt s op k .int) hc rfl rfl fun x hx =>
      mem_singleton.1 hx ▸ hs
    rw [hd] at h
    exact h.congr fun hn => foldOrZero_of_int hn

theorem computes_intWithSymbol (k : Int) (hs : c.Over P s) :
    Computes c P (binaryInts op (.int k) (.symbol s) .int c) fun α n =>
      foldInts op k (c.eval α s) .int = .int n := by
  unfold binaryInts
  split
  · next rev hrev =>
    exact (computes_symbolWithInt hc rev k hs).congr fun hn => (foldInts_reversed rfl hrev ..).symm.trans hn
  · split
    · next hcomm =>
      exact (computes_symbolWithInt hc op k hs).congr fun hn =>
        (foldInts_commutative rfl hcomm ..).symm.trans hn
    · exact (computes_symbol (a := .intSym k op s .int) hc rfl rfl fun x hx =>
        mem_singleton.1 hx ▸ hs).congr fun hn => foldOrZero_of_int hn

theorem computes_symbols {a b : SymbolId} (ha : c.Over P a) (hb : c.Over P b) :
    Computes c P (binaryInts op (.symbol a) (.symbol b) .int c) fun α n =>
      foldInts op (c.eval α a) (c.eval α b) .int = .int n := by
  unfold binaryInts
  by_cases hab : a = b
  · subst hab
    cases hsame : sameSymbol? op with
    | some m =>
      simp only [if_true]
      exact computes_of_eq hc trivial fun hn =>
        Value.int.inj ((foldInts_sameSymbol rfl hsame _).symm.trans hn)
    | none =>
      simp only [if_true]
      exact (computes_symbol (a := .symSym a op a .int) hc rfl rfl fun x hx => by
        simp only [Symbol.operands, mem_cons, not_mem_nil, or_false, or_self] at hx
        exact hx ▸ ha).congr fun hn => foldOrZero_of_int hn
  · simp only [if_neg hab]
    exact (computes_symbol (a := .symSym a op b .int) hc rfl rfl fun x hx => by
      rcases mem_cons.1 hx with rfl | hx
      · exact ha
      · exact mem_singleton.1 hx ▸ hb).congr fun hn => foldOrZero_of_int hn

/-- **Operators on numbers and symbols are exact.** The result stands for what the operator gives
on the numbers that the operands stand for. -/
theorem computes_binary {l r : Value} (hl : l.Plain c P) (hr : r.Plain c P) :
    Computes c P (binary op l r .int c) fun α n => ∃ a b, l.Denotes c α a ∧ r.Denotes c α b ∧
      foldInts op a b .int = .int n := by
  have hnone : ∀ v : Value, v.Plain c P → (∀ α a b, l.Denotes c α a → r.Denotes c α b → False) →
      Computes c P (v, c) fun α n => ∃ a b, l.Denotes c α a ∧ r.Denotes c α b ∧
        foldInts op a b .int = .int n := fun v hv h =>
    computes_of_eq hc hv fun ⟨a, b, ha, hb, _⟩ => (h _ a b ha hb).elim
  cases l with
  | loc | locAsInt | snapshot => cases hl
  | undefined => exact hnone _ trivial fun _ _ _ ha _ => ha
  | unknown =>
    cases r with
    | loc | locAsInt | snapshot => cases hr
    | _ => exact hnone _ trivial fun _ _ _ ha _ => ha
  | int k =>
    cases r with
    | loc | locAsInt | snapshot => cases hr
    | undefined | unknown => exact hnone _ trivial fun _ _ _ _ hb => hb
    | int m =>
      refine computes_of_eq hc ?_ ?_
      · exact plain_foldInts op k m
      · rintro α n ⟨a, b, rfl, rfl, hn⟩
        exact hn ▸ rfl
    | symbol x =>
      refine (computes_intWithSymbol hc op k hr).congr ?_
      rintro α n ⟨a, b, rfl, rfl, hn⟩
      exact hn
  | symbol x =>
    cases r with
    | loc | locAsInt | snapshot => cases hr
    | undefined | unknown => exact hnone _ trivial fun _ _ _ _ hb => hb
    | int m =>
      refine (computes_symbolWithInt hc op m hl).congr ?_
      rintro α n ⟨a, b, rfl, rfl, hn⟩
      exact hn
    | symbol y =>
      refine (computes_symbols hc op hl hr).congr ?_
      rintro α n ⟨a, b, rfl, rfl, hn⟩
      exact hn

end

/-- What an operator on one `int` gives. -/
def foldUnary (op : ValueOp) (n : Int) : Value :=
  match op with
  | .not => foldInts .eq n 0 .int
  | .neg => foldInts .sub 0 n .int
  | .bitNot => foldInts .bitXor n (-1) .int

theorem mem_domain_of_foldUnary {op : ValueOp} {n m : Int} (h : foldUnary op n = .int m) :
    m ∈ CType.int.domain := by
  cases op with
  | not | neg | bitNot =>
    unfold foldUnary at h
    exact mem_domain_of_foldInts rfl h

theorem computes_unary {v : Value} (hc : c.Arithmetic) (op : ValueOp) (hv : v.Plain c P) :
    Computes c P (unary op v .int c) fun α n => ∃ a, v.Denotes c α a ∧ foldUnary op a = .int n := by
  cases op with
  | not =>
    have hzero : v.zeroLike = .int 0 := by
      cases v with
      | loc => cases hv
      | _ => rfl
    unfold unary
    rw [hzero]
    exact (computes_binary hc .eq hv (show (Value.int 0).Plain c P from trivial)).congr
      fun ⟨a, ha, hn⟩ => ⟨a, 0, ha, rfl, hn⟩
  | neg =>
    exact (computes_binary hc .sub (show (Value.int 0).Plain c P from trivial) hv).congr
      fun ⟨a, ha, hn⟩ => ⟨0, a, rfl, ha, hn⟩
  | bitNot =>
    exact (computes_binary hc .bitXor hv (show (Value.int (-1)).Plain c P from trivial)).congr
      fun ⟨a, ha, hn⟩ => ⟨a, -1, ha, rfl, hn⟩

end Naming

end PathScout

import PathScout.Proofs.ConcreteRun
import PathScout.Proofs.ExplorationLaws
import PathScout.Proofs.StoreLaws

/-!
# States of scalar functions

What is true of every state that the exploration of a scalar function meets, and when such a state
covers a run: the numbers of the run are the values of the state under an assignment.

* `Study`: a scalar function that is explored under some options.
* `Study.Regular`: the catalogs that its exploration makes.
* `Study.Tame`: the states that it meets, with symbols whose atoms satisfy a condition.
* `Study.Agrees`: a state stands for a configuration of a run, under an assignment. Only variables
  that are still needed have to agree.
-/

namespace PathScout

open OrderedMap Naming

/-- A scalar function that is explored under some options. -/
structure Study where
  options : Options
  program : Program
  function : FunctionId
  body : FunctionBody
  isScalar : program.IsScalar function body

namespace Study

variable {k : Study} {c d z : Catalog} {P Q : Symbol → Prop} {s : State} {σ : Store} {x y : VarId}
  {r q : RegionId} {v : Value} {e : ExprId} {n : Int} {κ : Config} {α : Assignment}
  {m : Constraints} {env : Environment}

/-- The variables of the function. -/
def vars (k : Study) : List VarId := (k.program.function k.function).params ++ k.body.locals

/-- The names of variables that are assigned to. -/
def assigned (k : Study) : List ExprId := Liveness.assignedNames k.program.scope k.body.graph

/-- The expression does not name a variable. -/
def IsNumeric (k : Study) (e : ExprId) : Prop := ∀ x, (k.program.expr e).op ≠ .var x

theorem isScalar_type (k : Study) (h : x ∈ k.vars) : (k.program.var x).type = .int :=
  k.isScalar.isInt x h

/-! ### Catalogs -/

/-- The catalog belongs to the program, is well-formed and computes with `int` only. -/
structure Regular (k : Study) (c : Catalog) : Prop where
  program : c.program = k.program
  wellFormed : c.WellFormed
  arithmetic : c.Arithmetic

theorem Regular.of_computes {out : Value × Catalog} {result : Assignment → Int → Prop}
    (h : k.Regular c) (hout : Computes c P out result) : k.Regular out.2 where
  program := hout.le.program.trans h.program
  wellFormed := h.wellFormed.of_regions_eq hout.regions
  arithmetic := hout.arithmetic

theorem Regular.var (h : k.Regular c) (x : VarId) (f : FrameId) : k.Regular (var x f c).2 where
  program := (grows_var x f c).program.trans h.program
  wellFormed := wellFormed_var h.wellFormed x f
  arithmetic := h.arithmetic.of_symbols_eq (grows_var x f c) rfl

theorem Regular.valueType?_eq (h : k.Regular c) (hx : x ∈ k.vars) (hr : c.IsVar topFrame x r) :
    c.valueType? r = some .int := by
  rw [hr.valueType?_eq, h.program, k.isScalar_type hx]

/-! ### States -/

/-- The region is in an object that no function keeps in its frame. -/
structure Outside (c : Catalog) (q : RegionId) : Prop where
  has : c.Has q
  parent : (c.region (c.base q)).parent? ≠ none
  frame : c.stackFrame? q = none

theorem Outside.mono (h : Outside c q) (hc : c.WellFormed) (hcd : c ≤ d) : Outside d q where
  has := h.has.mono hcd
  parent := by
    rw [Catalog.base_mono hcd h.has, Catalog.region_mono hcd (h.has.base hc)]
    exact h.parent
  frame := by
    rw [Catalog.stackFrame?, Catalog.space_mono hcd h.has]
    exact h.frame

/-- Names of variables stand for their regions, and all other expressions for numbers. -/
structure TameEnv (k : Study) (c : Catalog) (P : Symbol → Prop) (env : Environment) : Prop where
  number {e : ExprId} {v : Value} : env.get? (.expr topFrame e) = some v → k.IsNumeric e →
    v.Plain c P
  name {e : ExprId} {v : Value} {x : VarId} : env.get? (.expr topFrame e) = some v →
    (k.program.expr e).op = .var x → ∃ r, c.IsVar topFrame x r ∧ v = .pointer r
  result {v : Value} : env.get? (.result topFrame) = some v → v.Plain c P

/-- Variables hold numbers; what is bound and what is pointed to has a number, and nothing points
to a memory space or into a frame. -/
structure TameStore (k : Study) (c : Catalog) (P : Symbol → Prop) (σ : Store) : Prop where
  direct {x : VarId} {r : RegionId} {v : Value} : x ∈ k.vars → c.IsVar topFrame x r →
    σ.direct? r = some v → v.Plain c P
  default {x : VarId} {r : RegionId} {v : Value} : x ∈ k.vars → c.IsVar topFrame x r →
    σ.default? r = some v → v = .int 0
  key {b : BindingKey × Value} : b ∈ σ.bindings.entries → c.Has b.1.region
  pointer {b : BindingKey × Value} {q : RegionId} : b ∈ σ.bindings.entries →
    b.2.region? = some q → Outside c q

/-- Only numbers are constrained, to ranges in normal form. -/
def TameConstraints (c : Catalog) (P : Symbol → Prop) (m : Constraints) : Prop :=
  ∀ x rs, m.get? x = some rs → c.Over P x ∧ rs.Normal

/-- The states that the exploration meets: the atoms of their symbols satisfy the condition, and
no memory was allocated. -/
structure Tame (k : Study) (c : Catalog) (P : Symbol → Prop) (s : State) : Prop where
  env : k.TameEnv c P s.env
  store : k.TameStore c P s.store
  constraints : TameConstraints c P s.constraints
  heap : s.heap = {}

theorem TameConstraints.normal (h : TameConstraints c P m) : m.Normal := fun x rs hx => (h x rs hx).2

theorem TameStore.has {b : BindingKey} (h : k.TameStore c P σ) (hv : σ.bindings.get? b = some v) :
    c.Has b.region := h.key (mem_of_lookup_eq hv)

theorem TameEnv.mono (h : k.TameEnv c P env) (hcd : c ≤ d) : k.TameEnv d P env where
  number hv he := (h.number hv he).mono hcd
  name hv he := by
    obtain ⟨r, hr, hvr⟩ := h.name hv he
    exact ⟨r, hr.mono hcd, hvr⟩
  result hv := (h.result hv).mono hcd

theorem TameStore.mono (h : k.TameStore c P σ) (hc : k.Regular c) (hcd : c ≤ d) :
    k.TameStore d P σ where
  direct hx hr hv := (h.direct hx (hr.of_le hcd hc.wellFormed (h.has (b := .direct _) hv)) hv).mono hcd
  default hx hr hv := h.default hx (hr.of_le hcd hc.wellFormed (h.has (b := .default _) hv)) hv
  key hb := (h.key hb).mono hcd
  pointer hb hq := (h.pointer hb hq).mono hc.wellFormed hcd

theorem TameConstraints.mono (h : TameConstraints c P m) (hcd : c ≤ d) :
    TameConstraints d P m := fun x rs hx => ⟨(h x rs hx).1.mono hcd, (h x rs hx).2⟩

theorem Tame.mono (h : k.Tame c P s) (hc : k.Regular c) (hcd : c ≤ d) : k.Tame d P s :=
  ⟨h.env.mono hcd, h.store.mono hc hcd, h.constraints.mono hcd, h.heap⟩

theorem Tame.imp (h : k.Tame c P s) (hPQ : ∀ a, P a → Q a) : k.Tame c Q s where
  env := ⟨fun hv he => (h.env.number hv he).imp hPQ, h.env.name, fun hv => (h.env.result hv).imp hPQ⟩
  store := ⟨fun hx hr hv => (h.store.direct hx hr hv).imp hPQ, h.store.default, h.store.key,
    h.store.pointer⟩
  constraints x rs hx := ⟨(h.constraints x rs hx).1.imp hPQ, (h.constraints x rs hx).2⟩
  heap := h.heap

/-! ### Agreement with a run -/

/-- The variable is read before it is written again: it is live, or its place was evaluated to be
read. -/
def Needed (k : Study) (live : VarId → Prop) (κ : Config) (x : VarId) : Prop :=
  live x ∨ ∃ e, κ.exprs e = some (.place x) ∧ e ∉ k.assigned

/-- Memory holds a number in the region of a variable: a value that stands for it, the zero of a
list, or nothing, if the variable is a parameter with this number as its argument. -/
def Keeps (k : Study) (z : Catalog) (σ : Store) (α : Assignment) (x : VarId) (r : RegionId)
    (n : Int) : Prop :=
  match σ.direct? r, σ.default? r with
  | some v, _ => v.Denotes z α n
  | none, some _ => k.options.store = .region ∧ n = 0
  | none, none => x ∈ (k.program.function k.function).params ∧ α.value (.regionValue r .int) = n

/-- The state stands for the configuration under the assignment, as far as it is still needed. -/
structure Agrees (k : Study) (z : Catalog) (live : VarId → Prop) (s : State) (κ : Config)
    (α : Assignment) : Prop where
  int {e : ExprId} {n : Int} : κ.exprs e = some (.int n) →
    ∃ v, s.env.get? (.expr topFrame e) = some v ∧ v.Denotes z α n
  place {e : ExprId} {x : VarId} : κ.exprs e = some (.place x) →
    x ∈ k.vars ∧ ∃ r, z.IsVar topFrame x r ∧ s.env.get? (.expr topFrame e) = some (.pointer r)
  result {n : Int} : κ.result = some n →
    ∃ v, s.env.get? (.result topFrame) = some v ∧ v.Denotes z α n
  noResult : κ.result = none → s.env.get? (.result topFrame) = none
  var {x : VarId} {n : Int} {r : RegionId} : x ∈ k.vars → κ.vars x = some n →
    k.Needed live κ x → z.IsVar topFrame x r → k.Keeps z s.store α x r n
  range {x : SymbolId} {rs : RangeSet} : s.constraints.get? x = some rs → z.eval α x ∈ rs
  intDomain {e : ExprId} {n : Int} : κ.exprs e = some (.int n) → n ∈ CType.int.domain
  varDomain {x : VarId} {n : Int} : κ.vars x = some n → n ∈ CType.int.domain

/-! ### Values of expressions -/

theorem TameEnv.insertNumber (h : k.TameEnv c P env) (he : k.IsNumeric e) (hv : v.Plain c P) :
    k.TameEnv c P (env.insert (.expr topFrame e) v) where
  number {a w} hw ha := by
    rw [get?_insert] at hw
    split at hw
    · cases hw
      exact hv
    · exact h.number hw ha
  name {a w x} hw ha := by
    rw [get?_insert] at hw
    split at hw
    · next hae =>
      cases hae
      exact absurd ha (he x)
    · exact h.name hw ha
  result hw := h.result (by rwa [get?_insert_of_ne (by simp)] at hw)

theorem TameEnv.insertName (h : k.TameEnv c P env) (he : (k.program.expr e).op = .var x)
    (hr : c.IsVar topFrame x r) :
    k.TameEnv c P (env.insert (.expr topFrame e) (.pointer r)) where
  number {a w} hw ha := by
    rw [get?_insert] at hw
    split at hw
    · next hae =>
      cases hae
      exact absurd he (ha x)
    · exact h.number hw ha
  name {a w y} hw ha := by
    rw [get?_insert] at hw
    split at hw
    · next hae =>
      cases hae
      cases hw
      cases he.symm.trans ha
      exact ⟨r, hr, rfl⟩
    · exact h.name hw ha
  result hw := h.result (by rwa [get?_insert_of_ne (by simp)] at hw)

theorem TameEnv.insertResult (h : k.TameEnv c P env) (hv : v.Plain c P) :
    k.TameEnv c P (env.insert (.result topFrame) v) where
  number hw he := h.number (by rwa [get?_insert_of_ne (by simp)] at hw) he
  name hw he := h.name (by rwa [get?_insert_of_ne (by simp)] at hw) he
  result hw := by
    rw [get?_insert_self] at hw
    cases hw
    exact hv

theorem TameEnv.filter (h : k.TameEnv c P env) (keep : EnvKey → Bool) :
    k.TameEnv c P (env.filter fun key _ => keep key) := by
  have hget : ∀ {key v}, (env.filter fun key _ => keep key).get? key = some v →
      env.get? key = some v := fun {key v} hv => by
    rw [get?_filter] at hv
    split at hv
    · exact hv
    · cases hv
  exact ⟨fun hv he => h.number (hget hv) he, fun hv he => h.name (hget hv) he,
    fun hv => h.result (hget hv)⟩

theorem Tame.bindNumber (h : k.Tame c P s) (he : k.IsNumeric e) (hv : v.Plain c P) :
    k.Tame c P (s.bindExpr topFrame e v) := { h with env := h.env.insertNumber he hv }

theorem Tame.bindName (h : k.Tame c P s) (he : (k.program.expr e).op = .var x)
    (hr : c.IsVar topFrame x r) : k.Tame c P (s.bindExpr topFrame e (.pointer r)) :=
  { h with env := h.env.insertName he hr }

theorem Tame.bindResult (h : k.Tame c P s) (hv : v.Plain c P) :
    k.Tame c P (s.bindResult topFrame v) := { h with env := h.env.insertResult hv }

theorem Tame.clearExprs (h : k.Tame c P s) : k.Tame c P (s.clearExprs topFrame) :=
  { h with env := h.env.filter fun key => !key.isExprOf topFrame }

theorem get?_result_clearExprs (s : State) :
    (s.clearExprs topFrame).env.get? (.result topFrame) = s.env.get? (.result topFrame) :=
  get?_filter fun key : EnvKey => !key.isExprOf topFrame

/-- The value of an expression that does not name a variable. -/
theorem Tame.plain_value (h : k.Tame c P s) (he : k.IsNumeric e) : (s.value topFrame e).Plain c P := by
  unfold State.value
  cases hv : s.env.get? (.expr topFrame e) with
  | none => trivial
  | some v => exact h.env.number hv he

/-- The value of an expression that names a variable. -/
theorem Tame.value_name (h : k.Tame c P s) (he : (k.program.expr e).op = .var x) :
    s.value topFrame e = .unknown ∨ ∃ r, c.IsVar topFrame x r ∧ s.value topFrame e = .pointer r := by
  unfold State.value
  cases hv : s.env.get? (.expr topFrame e) with
  | none => exact .inl rfl
  | some v => exact .inr (h.env.name hv he)

variable {live live' : VarId → Prop}

/-- The value stands for what an expression was evaluated to. -/
def Stands (k : Study) (z : Catalog) (α : Assignment) (v : Value) : Datum → Prop
  | .int n => v.Denotes z α n ∧ n ∈ CType.int.domain
  | .place x => x ∈ k.vars ∧ ∃ r, z.IsVar topFrame x r ∧ v = .pointer r

namespace Agrees

section

variable (h : k.Agrees z live s κ α)
include h

theorem value_int (he : κ.int? e = some n) :
    (s.value topFrame e).Denotes z α n ∧ n ∈ CType.int.domain := by
  unfold Config.int? at he
  split at he
  · next m hm =>
    cases he
    obtain ⟨v, hv, hd⟩ := h.int hm
    rw [State.value, hv]
    exact ⟨hd, h.intDomain hm⟩
  · cases he

theorem value_place (he : κ.place? e = some x) : x ∈ k.vars ∧ κ.exprs e = some (.place x) ∧
      ∃ r, z.IsVar topFrame x r ∧ s.value topFrame e = .pointer r := by
  unfold Config.place? at he
  split at he
  · next y hy =>
    cases he
    obtain ⟨hx, r, hr, hv⟩ := h.place hy
    rw [State.value, hv]
    exact ⟨hx, hy, r, hr, rfl⟩
  · cases he

/-- Fewer variables may be needed. -/
theorem mono (hlive : ∀ x, live' x → live x) : k.Agrees z live' s κ α :=
  { h with var := fun hx hn hneed hr => h.var hx hn (hneed.imp_left (hlive _)) hr }

theorem setExpr {d : Datum} (hd : k.Stands z α v d)
    (hneed : ∀ x, k.Needed live' (κ.setExpr e d) x → k.Needed live κ x) :
    k.Agrees z live' (s.bindExpr topFrame e v) (κ.setExpr e d) α where
  int {a n} ha := by
    simp only [Config.setExpr] at ha
    show ∃ w, (s.env.insert _ _).get? _ = _ ∧ _
    rw [get?_insert]
    split at ha
    · next hae =>
      cases ha
      exact ⟨v, by rw [if_pos (hae ▸ rfl)], hd.1⟩
    · next hae =>
      rw [if_neg fun he => hae (EnvKey.expr.inj he).2]
      exact h.int ha
  place {a x} ha := by
    simp only [Config.setExpr] at ha
    show _ ∧ ∃ r, _ ∧ (s.env.insert _ _).get? _ = _
    rw [get?_insert]
    split at ha
    · next hae =>
      cases ha
      obtain ⟨hx, r, hr, hv⟩ := hd
      exact ⟨hx, r, hr, by rw [if_pos (hae ▸ rfl), hv]⟩
    · next hae =>
      rw [if_neg fun he => hae (EnvKey.expr.inj he).2]
      exact h.place ha
  result hn := by
    show ∃ w, (s.env.insert _ _).get? _ = _ ∧ _
    rw [get?_insert_of_ne (by simp)]
    exact h.result hn
  noResult hn := by
    show (s.env.insert _ _).get? _ = _
    rw [get?_insert_of_ne (by simp)]
    exact h.noResult hn
  var hx hn hx' hr := h.var hx hn (hneed _ hx') hr
  range := h.range
  intDomain {a n} ha := by
    simp only [Config.setExpr] at ha
    split at ha
    · cases ha
      exact hd.2
    · exact h.intDomain ha
  varDomain := h.varDomain

/-- A number is no place, so no variable is needed on its account. -/
theorem setInt (hv : v.Denotes z α n) (hn : n ∈ CType.int.domain) (hlive : ∀ x, live' x → live x) :
    k.Agrees z live' (s.bindExpr topFrame e v) (κ.setExpr e (.int n)) α := by
  refine h.setExpr ⟨hv, hn⟩ fun x hx => hx.imp (hlive x) ?_
  rintro ⟨a, ha, hna⟩
  refine ⟨a, ?_, hna⟩
  simp only [Config.setExpr] at ha
  split at ha
  · cases ha
  · exact ha

theorem setVar {m : Option Int}
    (hkeep : ∀ y r n, y ∈ k.vars → y ≠ x → z.IsVar topFrame y r → k.Keeps z s.store α y r n →
      k.Keeps z σ α y r n) (hx : ∀ r n, m = some n → z.IsVar topFrame x r → k.Keeps z σ α x r n)
    (hdomain : ∀ n, m = some n → n ∈ CType.int.domain) (hlive : ∀ y, y ≠ x → live' y → live y) :
    k.Agrees z live' { s with store := σ } (κ.setVar x m) α :=
  { h with
    var := fun {y n r} hy hn hneed hr => by
      simp only [Config.setVar] at hn
      split at hn
      · next hyx =>
        subst hyx
        exact hx r n hn hr
      · next hyx =>
        exact hkeep y r n hy hyx hr (h.var hy hn (hneed.imp_left (hlive y hyx)) hr)
    varDomain := fun {y n} hn => by
      simp only [Config.setVar] at hn
      split at hn
      · exact hdomain n hn
      · exact h.varDomain hn }

theorem setResult (hv : v.Denotes z α n) (hlive : ∀ x, live' x → live x) :
    k.Agrees z live' (s.bindResult topFrame v) { κ with result := some n } α where
  int ha := by
    show ∃ w, (s.env.insert _ _).get? _ = _ ∧ _
    rw [get?_insert_of_ne (by simp)]
    exact h.int ha
  place ha := by
    show _ ∧ ∃ r, _ ∧ (s.env.insert _ _).get? _ = _
    rw [get?_insert_of_ne (by simp)]
    exact h.place ha
  result hm := by
    cases hm
    exact ⟨v, get?_insert_self, hv⟩
  noResult hm := nomatch hm
  var hx hn hneed hr := h.var hx hn (hneed.imp_left (hlive _)) hr
  range := h.range
  intDomain := h.intDomain
  varDomain := h.varDomain

theorem clear : k.Agrees z live (s.clearExprs topFrame) κ.clear α where
  int ha := nomatch ha
  place ha := nomatch ha
  result hn := by
    obtain ⟨v, hv, hd⟩ := h.result hn
    exact ⟨v, (get?_result_clearExprs s).trans hv, hd⟩
  noResult hn := (get?_result_clearExprs s).trans (h.noResult hn)
  var hx hn hneed hr := by
    refine h.var hx hn (.inl ?_) hr
    rcases hneed with hlive | ⟨a, ha, -⟩
    · exact hlive
    · cases ha
  range := h.range
  intDomain ha := nomatch ha
  varDomain := h.varDomain

theorem withConstraints {m : Constraints} (hm : ∀ x rs, m.get? x = some rs → z.eval α x ∈ rs) :
    k.Agrees z live { s with constraints := m } κ α := { h with range := fun hx => hm _ _ hx }

end

end Agrees

end Study

end PathScout

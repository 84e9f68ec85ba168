import PathScout.Proofs.ScalarState

/-!
# Memory of scalar functions

Reading and writing the variables of a scalar function, whichever way memory is followed. Writing
to a variable binds its region directly; reading gives what is bound, zero after a list, or the
argument of a parameter.

* `Study.bind_var`, `Study.TameStore.insertDirect`, `Study.keeps_insert_self`: writing a variable.
* `Study.computes_retrieve`: reading a variable.
* `Study.TameStore.kill`, `Study.TameStore.zeroed`: declaring a variable.
-/

namespace PathScout

open Naming OrderedMap Store List

variable {v : Value}

/-! ### Bindings -/

namespace Store

variable {s : Store} {r q : RegionId} {v : Value}

theorem direct?_insert_direct :
    (⟨s.bindings.insert (.direct r) v⟩ : Store).direct? q = if q = r then some v else s.direct? q := by
  rw [direct?, get?_insert]
  simp only [BindingKey.direct, BindingKey.mk.injEq, and_true]
  rfl

theorem default?_insert_direct :
    (⟨s.bindings.insert (.direct r) v⟩ : Store).default? q = s.default? q :=
  get?_insert_of_ne (BindingKey.direct_ne_default _ _).symm

theorem direct?_insert_default : (⟨s.bindings.insert (.default r) v⟩ : Store).direct? q = s.direct? q :=
  get?_insert_of_ne (BindingKey.direct_ne_default _ _)

theorem default?_insert_default : (⟨s.bindings.insert (.default r) v⟩ : Store).default? q =
      if q = r then some v else s.default? q := by
  rw [default?, get?_insert]
  simp only [BindingKey.default, BindingKey.mk.injEq, and_true]
  rfl

end Store

/-! ### Atoms -/

variable {c : Catalog} {P : Symbol → Prop}

/-- A symbol that is not made by an operation. -/
theorem computes_atom {a : Symbol} (hc : c.Arithmetic) (ha : a.isAtomic = true)
    (ht : a.type = .int) (hP : P a) :
    Computes c P (.symbol (symbol a c).1, (symbol a c).2) fun α n => α.value a = n where
  le := grows_symbol a c
  arithmetic := hc.symbol fun h => by
    rw [ha] at h
    cases h
  regions := rfl
  plain := by
    have he := symbol_symbol a c
    exact .atom (Interned.lt_size_of_get? (get?_symbol a c)) (by rwa [he]) (by rwa [he])
      (by rwa [he])
  denotes {α n} hn := by
    show Catalog.eval _ _ _ = n
    rw [Catalog.eval_of_isAtomic (by rwa [symbol_symbol]), symbol_symbol, hn]

theorem computes_regionValue (hc : c.Arithmetic) (r : RegionId) (hP : P (.regionValue r .int)) :
    Computes c P (regionValue r .int c) fun α n => α.value (.regionValue r .int) = n := by
  have h := computes_atom hc rfl rfl hP
  have hvalue : regionValue r .int c = symbolValue
      (symbol (.regionValue r .int) c).1 (symbol (.regionValue r .int) c).2 := rfl
  have htype : ((symbol (.regionValue r .int) c).2.symbol
      (symbol (.regionValue r .int) c).1).type.isPointer = false := by
    rw [symbol_symbol]
    rfl
  rw [hvalue, symbolValue, bind_apply, query_apply]
  simp only [htype, Bool.false_eq_true, if_false]
  exact h

theorem Value.Denotes.of_le {d : Catalog} {α : Assignment} {n : Int} (h : v.Denotes d α n)
    (hv : v.Plain c P) (hcd : c ≤ d) : v.Denotes c α n := by
  cases v with
  | symbol x => exact (Catalog.Over.eval_mono hv hcd).symm.trans h
  | _ => exact h

theorem Value.Plain.fit_eq (h : v.Plain c P) : Store.fit v .int = v := by
  cases v with
  | loc => cases h
  | _ => rfl

theorem Value.Plain.setsWhole_eq (h : v.Plain c P) : Store.setsWhole v (some .int) = false := by
  cases v with
  | snapshot => cases h
  | _ => rfl

namespace Study

variable {k : Study} {z : Catalog} {σ : Store} {x y : VarId} {r q : RegionId} {v : Value} {n : Int}
  {α : Assignment} {entries : List InitEntry}

/-! ### Writing -/

theorem isScalarVar_of_isVar (hc : k.Regular c) (hx : x ∈ k.vars) (hr : c.IsVar topFrame x r) :
    Store.isScalarVar c r = true := by
  obtain ⟨p, hp⟩ := hr.region_eq
  rw [Store.isScalarVar, hp, hc.valueType?_eq hx hr]
  rfl

/-- Writing a number to a variable binds its region directly. -/
theorem bind_var (hc : k.Regular c) (hx : x ∈ k.vars) (hr : c.IsVar topFrame x r) (hv : v.Plain c P) :
    k.options.store.bind σ c (.region r) v = ⟨σ.bindings.insert (.direct r) v⟩ := by
  cases k.options.store with
  | region =>
    refine bind_eq_insert ?_
    rw [hc.valueType?_eq hx hr]
    exact hv.setsWhole_eq
  | flat => exact if_pos (isScalarVar_of_isVar hc hx hr)

/-- A binding that is put into memory must be named, and a number where it is one of a variable. -/
theorem TameStore.insert {b : BindingKey} (h : k.TameStore c P σ) (hb : c.Has b.region)
    (hvar : ∀ x ∈ k.vars, c.IsVar topFrame x b.region →
      b.kind = .direct ∧ v.Plain c P ∨ b.kind = .default ∧ v = .int 0)
    (hv : ∀ q, v.region? = some q → Outside c q) :
    k.TameStore c P ⟨σ.bindings.insert b v⟩ where
  direct {x r w} hx hr hw := by
    rw [Store.direct?, get?_insert] at hw
    split at hw
    · next hrb =>
      cases hw
      subst hrb
      exact ((hvar x hx hr).resolve_right fun h => nomatch h.1).2
    · exact h.direct hx hr hw
  default {x r w} hx hr hw := by
    rw [Store.default?, get?_insert] at hw
    split at hw
    · next hrb =>
      cases hw
      subst hrb
      exact ((hvar x hx hr).resolve_left fun h => nomatch h.1).2
    · exact h.default hx hr hw
  key {e} he := by
    rcases mem_of_mem_put he with rfl | he
    · exact hb
    · exact h.key he
  pointer {e q} he hq := by
    rcases mem_of_mem_put he with rfl | he
    · exact hv q hq
    · exact h.pointer he hq

theorem TameStore.insertDirect (h : k.TameStore c P σ) (hr : c.IsVar topFrame x r)
    (hv : v.Plain c P) : k.TameStore c P ⟨σ.bindings.insert (.direct r) v⟩ := by
  refine h.insert hr.has (fun _ _ _ => .inl ⟨rfl, hv⟩) fun q hq => ?_
  rw [hv.region?_eq_none] at hq
  cases hq

theorem keeps_insert_self (hv : v.Denotes z α n) :
    k.Keeps z ⟨σ.bindings.insert (.direct r) v⟩ α x r n := by
  unfold Keeps
  rw [direct?_insert_direct, if_pos rfl]
  exact hv

theorem Keeps.insert_of_ne (h : k.Keeps z σ α y q n) (hne : q ≠ r) :
    k.Keeps z ⟨σ.bindings.insert (.direct r) v⟩ α y q n := by
  unfold Keeps
  rw [direct?_insert_direct, if_neg hne, default?_insert_direct]
  exact h

/-- What memory keeps of a variable is decided by the bindings of its region. -/
theorem Keeps.congr {τ : Store} (h : k.Keeps z σ α x r n) (hdirect : τ.direct? r = σ.direct? r)
    (hdefault : τ.default? r = σ.default? r) : k.Keeps z τ α x r n := by
  unfold Keeps
  rw [hdirect, hdefault]
  exact h

theorem Keeps.of_le (h : k.Keeps z σ α x r n) (hσ : k.TameStore c P σ) (hx : x ∈ k.vars)
    (hr : c.IsVar topFrame x r) (hcz : c ≤ z) : k.Keeps c σ α x r n := by
  unfold Keeps at h ⊢
  split at h
  · next v hv => exact h.of_le (hσ.direct hx hr hv) hcz
  · exact h
  · exact h

/-! ### Reading -/

theorem literalByte?_of_isVar (hr : c.IsVar topFrame x r) : Store.literalByte? c r = none := by
  obtain ⟨p, hp⟩ := hr.region_eq
  rw [Store.literalByte?, hp]

section

variable (hc : k.Regular c) (hx : x ∈ k.vars) (hr : c.IsVar topFrame x r)
include hc hx hr

/-- A variable is a parameter or a local variable, and lies in the memory space of these. -/
theorem space_cases : x ∈ (k.program.function k.function).params ∧ c.space r = .arguments topFrame ∨
      x ∉ (k.program.function k.function).params ∧ c.space r = .locals topFrame := by
  rw [hr.space_eq hc.wellFormed, hc.program]
  by_cases hp : x ∈ (k.program.function k.function).params
  · obtain ⟨i, hi⟩ := k.isScalar.isParam x hp
    exact .inl ⟨hp, by rw [hi]; rfl⟩
  · have hl : x ∈ k.body.locals := (mem_append.1 hx).resolve_left hp
    exact .inr ⟨hp, by rw [k.isScalar.isLocal x hl]; rfl⟩

/-- What is bound to a variable is read. -/
theorem retrieve_of_direct (hσ : k.TameStore c P σ) (hv : σ.direct? r = some v) :
    k.options.store.retrieve σ (.region r) .int c = (v, c) := by
  have hfit := (hσ.direct hx hr hv).fit_eq
  cases k.options.store with
  | region =>
    show Store.retrieveFrom _ _ _ _ = _
    rw [retrieveFrom_of_direct rfl hv, hfit]
  | flat =>
    show (Store.retrieveFlat σ (.region r) .int) c = _
    simp only [Store.retrieveFlat, bind_apply, query_apply,
      isScalarVar_of_isVar hc hx hr, if_true, hv, hfit, pure_apply]

/-- A variable that nothing is bound to holds its argument, if it is a parameter. Only regions with
contents of their own have defaults. -/
theorem retrieve_of_none (hd : σ.direct? r = none)
    (hn : k.options.store = .flat ∨ σ.default? r = none) :
    k.options.store.retrieve σ (.region r) .int c =
      if x ∈ (k.program.function k.function).params then regionValue r .int c
      else (.undefined, c) := by
  cases hpolicy : k.options.store with
  | region =>
    replace hn : σ.default? r = none := hn.resolve_left (by rw [hpolicy]; decide)
    show Store.retrieveFrom _ _ _ _ = _
    have hdefault : Store.nearestDefault? c σ.bindings.entries r = none := by
      rw [nearestDefault?_of_not_part hr.isPart_eq]
      exact congrArg (Option.map (r, ·)) hn
    rw [retrieveFrom_of_none rfl hd hdefault, Store.initialValue]
    simp only [bind_apply, query_apply, literalByte?_of_isVar hr]
    rcases space_cases hc hx hr with ⟨hp, hs⟩ | ⟨hp, hs⟩
    · rw [hs, if_pos hp]
    · rw [hs, if_neg hp]
      rfl
  | flat =>
    show (Store.retrieveFlat σ (.region r) .int) c = _
    simp only [Store.retrieveFlat, bind_apply, query_apply, isScalarVar_of_isVar hc hx hr, if_true, hd]
    rcases space_cases hc hx hr with ⟨hp, hs⟩ | ⟨hp, hs⟩
    · have hl : c.hasLocalStorage r = false := by rw [Catalog.hasLocalStorage, hs]
      exact (congrFun (if_neg (by rw [hl]; decide)) c).trans (if_pos hp).symm
    · have hl : c.hasLocalStorage r = true := by rw [Catalog.hasLocalStorage, hs]
      exact (congrFun (if_pos hl) c).trans (if_neg hp).symm

theorem computes_retrieve_of_none (hP : P (.regionValue r .int)) (hd : σ.direct? r = none)
    (hn : k.options.store = .flat ∨ σ.default? r = none) :
    Computes c P (k.options.store.retrieve σ (.region r) .int c) fun α n =>
      x ∈ (k.program.function k.function).params ∧ α.value (.regionValue r .int) = n := by
  rw [retrieve_of_none hc hx hr hd hn]
  by_cases hp : x ∈ (k.program.function k.function).params
  · rw [if_pos hp]
    exact (computes_regionValue hc.arithmetic r hP).congr fun h => h.2
  · rw [if_neg hp]
    exact computes_of_eq hc.arithmetic trivial fun h => absurd h.1 hp

/-- **Reading a variable.** The value stands for what memory keeps. -/
theorem computes_retrieve (hσ : k.TameStore c P σ) (hP : P (.regionValue r .int)) :
    Computes c P (k.options.store.retrieve σ (.region r) .int c) fun α n => k.Keeps c σ α x r n := by
  cases hd : σ.direct? r with
  | some v =>
    rw [retrieve_of_direct hc hx hr hσ hd]
    refine computes_of_eq hc.arithmetic (hσ.direct hx hr hd) fun {α n} h => ?_
    simpa only [Keeps, hd] using h
  | none =>
    cases hn : σ.default? r with
    | none =>
      refine (computes_retrieve_of_none hc hx hr hP hd (.inr hn)).congr fun {α n} h => ?_
      simpa only [Keeps, hd, hn] using h
    | some w =>
      obtain rfl := hσ.default hx hr hn
      cases hpolicy : k.options.store with
      | flat =>
        rw [← hpolicy]
        refine (computes_retrieve_of_none hc hx hr hP hd (.inl hpolicy)).congr fun {α n} h => ?_
        simp only [Keeps, hd, hn, hpolicy] at h
        exact absurd h.1 (by decide)
      | region =>
        show Computes c P (Store.retrieveFrom σ.bindings.entries r .int c) _
        rw [retrieveFrom_of_default rfl hd, nearestDefault?_self hn]
        refine computes_of_eq hc.arithmetic trivial fun {α n} h => ?_
        simp only [Keeps, hd, hn] at h
        exact h.2.symm

end

/-! ### Declaring -/

/-- Forgetting bindings leaves memory tame. -/
theorem TameStore.filter (h : k.TameStore c P σ) (keep : BindingKey → Bool) :
    k.TameStore c P ⟨σ.bindings.filter fun b _ => keep b⟩ := by
  have hget : ∀ {b v}, (σ.bindings.filter fun b _ => keep b).get? b = some v →
      σ.bindings.get? b = some v := fun {b v} hv => by
    rw [get?_filter] at hv
    split at hv
    · exact hv
    · cases hv
  have hmem : ∀ {b}, b ∈ (σ.bindings.filter fun b _ => keep b).entries → b ∈ σ.bindings.entries :=
    fun hb => mem_of_mem_filter hb
  exact ⟨fun hx hr hv => h.direct hx hr (hget hv), fun hx hr hv => h.default hx hr (hget hv),
    fun hb => h.key (hmem hb), fun hb hq => h.pointer (hmem hb) hq⟩

theorem TameStore.kill (h : k.TameStore c P σ) (r : RegionId) : k.TameStore c P (σ.kill c r) :=
  h.filter _

theorem TameStore.insertZero (h : k.TameStore c P σ) (hr : c.IsVar topFrame x r) :
    k.TameStore c P ⟨σ.bindings.insert (.default r) (.int 0)⟩ :=
  h.insert hr.has (fun _ _ _ => .inr ⟨rfl, rfl⟩) fun _ hq => nomatch hq

/-- Forgetting a variable forgets nothing of the others. -/
theorem get?_kill_of_ne (hc : k.Regular c) (hr : c.IsVar topFrame x r) (hq : c.IsVar topFrame y q)
    (hne : y ≠ x) :
    (σ.kill c r).direct? q = σ.direct? q ∧ (σ.kill c r).default? q = σ.default? q := by
  have hqr : r ∉ c.chain q := fun hmem => by
    have he := (hq.mem_chain_iff hr hc.wellFormed).1 hmem
    subst he
    exact hne (hq.var_eq hr)
  constructor
  · exact (get?_kill σ c r (.direct q)).trans (if_neg hqr)
  · exact (get?_kill σ c r (.default q)).trans (if_neg hqr)

theorem Keeps.kill (h : k.Keeps z σ α y q n) (hc : k.Regular c) (hσ : k.TameStore c P σ)
    (hcz : c ≤ z) (hr : c.IsVar topFrame x r) (hq : z.IsVar topFrame y q) (hne : y ≠ x) :
    k.Keeps z (σ.kill c r) α y q n := by
  by_cases hhas : c.Has q
  · obtain ⟨hd, hn⟩ := get?_kill_of_ne (σ := σ) hc hr (hq.of_le hcz hc.wellFormed hhas) hne
    exact h.congr hd hn
  · -- a region without a number has no bindings before or after
    have hnone : ∀ {τ : Store} {b : BindingKey}, k.TameStore c P τ → b.region = q →
        τ.bindings.get? b = none := fun {τ b} hτ hb => by
      by_contra hsome
      obtain ⟨v, hv⟩ := Option.ne_none_iff_exists'.1 hsome
      exact hhas (hb ▸ hτ.has hv)
    exact h.congr ((hnone (hσ.kill r) rfl).trans (hnone hσ rfl).symm)
      ((hnone (hσ.kill r) rfl).trans (hnone hσ rfl).symm)

variable {s : State} {κ : Config} {live live' : VarId → Prop}

/-- What a place holds. -/
def fetch (k : Study) (s : State) (location : Value) : Naming Value :=
  match location.loc? with
  | some l => k.options.store.retrieve s.store l .int
  | none => return .unknown

/-- What reading through the name of a variable gives: a number that stands for the one of the run,
if the name is one that is read. -/
structure Fetches (k : Study) (c : Catalog) (P : Symbol → Prop) (s : State) (place : ExprId)
    (out : Value × Catalog) : Prop where
  le : c ≤ out.2
  regular : k.Regular out.2
  plain : out.1.Plain out.2 P
  denotes {z : Catalog} {live : VarId → Prop} {κ : Config} {α : Assignment} {x : VarId} {n : Int} :
    out.2 ≤ z → k.Agrees z live s κ α → κ.place? place = some x → κ.vars x = some n →
    place ∉ k.assigned → out.1.Denotes z α n

/-- **Reading through the name of a variable.** -/
theorem fetches_fetch {place : ExprId} (hc : k.Regular c) (hs : k.Tame c P s)
    (hP : ∀ r, P (.regionValue r .int)) (hplace : k.program.IsName k.vars place) :
    k.Fetches c P s place (k.fetch s (s.value topFrame place) c) := by
  obtain ⟨-, x, hx, hop⟩ := hplace
  rcases hs.value_name hop with hu | ⟨r, hr, hv⟩
  · rw [hu]
    refine ⟨le_rfl, hc, trivial, fun {z live κ α y n} _ ha hy _ _ => ?_⟩
    obtain ⟨-, -, q, -, hq⟩ := ha.value_place hy
    cases hu.symm.trans hq
  · rw [hv]
    have hcomp : Computes c P (k.fetch s (.pointer r) c) fun α n => k.Keeps c s.store α x r n :=
      computes_retrieve hc hx hr hs.store (hP r)
    refine ⟨hcomp.le, hc.of_computes hcomp, hcomp.plain, fun {z live κ α y n} hz ha hy hn hna => ?_⟩
    obtain ⟨hyvars, hexpr, q, hq, hq'⟩ := ha.value_place hy
    cases hv.symm.trans hq'
    have hcz := hcomp.le.trans hz
    obtain rfl := hq.var_eq (hr.mono hcz)
    have hkeep := ha.var hyvars hn (.inr ⟨place, hexpr, hna⟩) hq
    exact (hcomp.denotes (hkeep.of_le hs.store hx hr hcz)).mono hcomp.plain hz

/-- Declaring a variable without a value. -/
theorem Agrees.kill (h : k.Agrees z live s κ α) (hc : k.Regular c) (hs : k.Tame c P s)
    (hcz : c ≤ z) (hr : c.IsVar topFrame x r) (hlive : ∀ y, y ≠ x → live' y → live y) :
    k.Agrees z live' (s.kill c r) (κ.setVar x none) α :=
  h.setVar (fun _ _ _ _ hne hq hkeep => hkeep.kill hc hs.store hcz hr hq hne)
    (fun _ _ hm => nomatch hm) (fun _ hm => nomatch hm) hlive

/-- The value of a variable that is declared with a list before the entries of the list are set. -/
def blank (k : Study) : Option Int := k.options.store.blank

theorem Tame.zeroed (h : k.Tame c P s) (hr : c.IsVar topFrame x r) :
    k.Tame c P (s.zeroed k.options.store r c).1 := by
  show k.Tame c P ((s.kill c r).bindDefault k.options.store r (.int 0))
  unfold State.bindDefault
  cases k.options.store with
  | region => exact { h with store := (h.store.kill r).insertZero hr }
  | flat => exact { h with store := h.store.kill r }

theorem mem_domain_of_blank (h : k.blank = some n) : n ∈ CType.int.domain := by
  unfold blank StorePolicy.blank at h
  split at h
  · cases h
    decide
  · cases h

/-- Filling a variable with zeros forgets nothing of the others. -/
theorem Keeps.zeroed (h : k.Keeps z s.store α y q n) (hc : k.Regular c)
    (hσ : k.TameStore c P s.store) (hcz : c ≤ z) (hr : c.IsVar topFrame x r)
    (hq : z.IsVar topFrame y q) (hne : y ≠ x) :
    k.Keeps z (s.zeroed k.options.store r c).1.store α y q n := by
  show k.Keeps z ((s.kill c r).bindDefault k.options.store r (.int 0)).store α y q n
  have hkill := h.kill hc hσ hcz hr hq hne
  unfold State.bindDefault
  cases k.options.store with
  | flat => exact hkill
  | region =>
    have hqr : q ≠ r := fun he => hne ((he ▸ hq).var_eq (hr.mono hcz))
    exact hkill.congr direct?_insert_default (default?_insert_default.trans (if_neg hqr))

/-- A variable that is filled with zeros holds what a list leaves out. -/
theorem keeps_zeroed (hn : k.blank = some n) :
    k.Keeps z (s.zeroed k.options.store r c).1.store α x r n := by
  show k.Keeps z ((s.kill c r).bindDefault k.options.store r (.int 0)).store α x r n
  unfold blank StorePolicy.blank at hn
  unfold State.bindDefault
  cases hpolicy : k.options.store with
  | flat =>
    rw [hpolicy] at hn
    cases hn
  | region =>
    rw [hpolicy] at hn
    cases hn
    have hd : (⟨(s.store.kill c r).bindings.insert (.default r) (.int 0)⟩ : Store).direct? r =
        none := by
      rw [direct?_insert_default]
      exact (get?_kill s.store c r (.direct r)).trans (if_pos Catalog.mem_chain_self)
    show k.Keeps z ⟨(s.store.kill c r).bindings.insert (.default r) (.int 0)⟩ α x r 0
    simp only [Keeps, hd, default?_insert_default, if_true]
    exact ⟨hpolicy, trivial⟩

/-- Declaring a variable with a list. -/
theorem Agrees.zeroed (h : k.Agrees z live s κ α) (hc : k.Regular c) (hs : k.Tame c P s)
    (hcz : c ≤ z) (hr : c.IsVar topFrame x r) (hlive : ∀ y, y ≠ x → live' y → live y) :
    k.Agrees z live' (s.zeroed k.options.store r c).1 (κ.setVar x k.blank) α := by
  refine h.setVar (fun y q n _ hne hq hkeep => hkeep.zeroed hc hs.store hcz hr hq hne)
    (fun q n hm hq => ?_) (fun n hm => mem_domain_of_blank hm) hlive
  obtain rfl := hq.unique (hr.mono hcz)
  exact keeps_zeroed hm

/-- Writing a number to a variable. -/
theorem Tame.write (h : k.Tame c P s) (hc : k.Regular c) (hx : x ∈ k.vars)
    (hr : c.IsVar topFrame x r) (hv : v.Plain c P) :
    k.Tame c P (s.write k.options.store r v c).1 := by
  show k.Tame c P { s with store := k.options.store.bind s.store c (.region r) v }
  rw [bind_var hc hx hr hv]
  exact { h with store := h.store.insertDirect hr hv }

theorem Agrees.write (h : k.Agrees z live s κ α) (hc : k.Regular c) (hx : x ∈ k.vars)
    (hcz : c ≤ z) (hr : c.IsVar topFrame x r) (hv : v.Plain c P) (hd : v.Denotes z α n)
    (hn : n ∈ CType.int.domain) (hlive : ∀ y, y ≠ x → live' y → live y) :
    k.Agrees z live' (s.write k.options.store r v c).1 (κ.setVar x (some n)) α := by
  show k.Agrees z live' { s with store := k.options.store.bind s.store c (.region r) v } _ _
  rw [bind_var hc hx hr hv]
  refine h.setVar (fun y q m _ hne hq hkeep => ?_) (fun q m hm hq => ?_) (fun m hm => ?_) hlive
  · exact hkeep.insert_of_ne fun he => hne ((he ▸ hq).var_eq (hr.mono hcz))
  · cases hm
    obtain rfl := hq.unique (hr.mono hcz)
    exact keeps_insert_self hd
  · cases hm
    exact hn

/-- Setting a variable to one entry of a list. -/
def writeEntry (k : Study) (r : RegionId) (s : State) (entry : InitEntry) : Naming State := do
  let part ← State.partAt r .int entry.path
  s.write k.options.store part (s.value topFrame entry.value)

theorem writeEntry_apply {entry : InitEntry} (h : entry.path = []) :
    k.writeEntry r s entry c = s.write k.options.store r (s.value topFrame entry.value) c := by
  unfold writeEntry
  rw [h]
  rfl

/-- Setting a variable to the entries of a list, one after the other. -/
theorem writeEntries_spec (z : Catalog) (live : VarId → Prop) (hc : k.Regular c) (hx : x ∈ k.vars)
    (hr : c.IsVar topFrame x r) (hs : k.Tame c P s)
    (hentries : ∀ entry ∈ entries, entry.path = [] ∧ k.program.IsNumber entry.value) :
    let out := entries.foldlM (k.writeEntry r) s c
    out.2 = c ∧ k.Tame c P out.1 ∧ ∀ κ κ' α, c ≤ z → k.Agrees z live s κ α →
      Config.setAll x entries κ = some κ' → k.Agrees z live out.1 κ' α := by
  induction entries generalizing s with
  | nil =>
    refine ⟨rfl, hs, fun κ κ' α _ h hκ => ?_⟩
    cases hκ
    exact h
  | cons entry rest ih =>
    obtain ⟨hpath, hnumber⟩ := hentries entry mem_cons_self
    have hplain := hs.plain_value hnumber.2
    have hwrite := hs.write hc hx hr hplain
    obtain ⟨hout, htame, hagrees⟩ := ih hwrite fun a ha => hentries a (mem_cons_of_mem _ ha)
    have hfold : (entry :: rest).foldlM (k.writeEntry r) s c = rest.foldlM (k.writeEntry r)
        (s.write k.options.store r (s.value topFrame entry.value) c).1 c := by
      rw [foldlM_cons, bind_apply, writeEntry_apply hpath]
      rfl
    simp only [hfold]
    refine ⟨hout, htame, fun κ κ' α hcz h hκ => ?_⟩
    rw [Config.setAll] at hκ
    obtain ⟨n, hn, hκ⟩ := Option.bind_eq_some_iff.1 hκ
    obtain ⟨hd, hdom⟩ := h.value_int hn
    exact hagrees _ κ' α hcz (h.write hc hx hcz hr hplain hd hdom fun y _ hy => hy) hκ

/-- **Declaring a variable with a list.** -/
theorem writeList_spec (hc : k.Regular c) (hx : x ∈ k.vars) (hr : c.IsVar topFrame x r)
    (hs : k.Tame c P s) (hentries : ∀ entry ∈ entries, entry.path = [] ∧ k.program.IsNumber entry.value)
    (hlive : ∀ y, y ≠ x → live' y → live y) :
    let out := s.writeList k.options.store topFrame r .int entries c
    out.2 = c ∧ k.Tame c P out.1 ∧ ∀ κ κ' α, c ≤ z → k.Agrees z live s κ α →
      Config.setAll x entries (κ.setVar x k.blank) = some κ' → k.Agrees z live' out.1 κ' α := by
  obtain ⟨hout, htame, hagrees⟩ := writeEntries_spec z live' hc hx hr (hs.zeroed hr) hentries
  exact ⟨hout, htame, fun κ κ' α hcz h hκ => hagrees _ κ' α hcz (h.zeroed hc hs hcz hr hlive) hκ⟩

end Study

end PathScout

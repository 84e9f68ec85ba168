import PathScout.Proofs.Invalidation
import PathScout.Proofs.ScalarMemory

/-!
# Forgetting the variables of a loop

When a loop was entered as often as allowed, everything that it may change is forgotten: each
variable gets a symbol of its own, which tells the loop and the region. Both ways of following
memory do this, and neither leaves the states that explorations of scalar functions meet.

* `Study.tame_renew`: forgetting one object. `Study.tame_forget`, `Study.forgetFlat_spec`: the loops.
* `Study.widen_spec`: forgetting all variables.
-/

namespace PathScout.Study

open Store Catalog Naming List Bool

variable {k : Study} {c d : Catalog} {P : Symbol → Prop} {σ before : Store} {x : VarId}
  {r o : RegionId} {request : Invalidation}

/-! ### One object -/

/-- The symbols that a request makes satisfy the condition. -/
def Allows (P : Symbol → Prop) (request : Invalidation) : Prop :=
  ∀ t n tag, P (.conjured request.expr request.frame t n tag)

theorem Regular.conjureContents (hc : k.Regular c) (request : Invalidation) (ho : c.Has o) :
    k.Regular (conjureContents o request c).2 := by
  obtain ⟨hle, hwf, -, -⟩ := conjureContents_spec request hc.wellFormed ho
  refine ⟨hle.program.trans hc.program, hwf, ?_⟩
  have hsymbol : (symbol (request.symbol c o) c).2.Arithmetic :=
    hc.arithmetic.symbol fun h => nomatch h
  by_cases hs : (c.valueType? o).any (·.isScalar) = true
  · rw [conjureContents_of_scalar hs]
    refine hsymbol.of_symbols_eq (grows_symbolValue _ _) ?_
    unfold symbolValue
    rw [bind_apply, query_apply]
    split <;> rfl
  · rw [conjureContents_of_not_scalar (eq_false_iff.2 hs)]
    exact hsymbol

/-- The fresh contents of a variable are a symbol. -/
theorem conjureContents_var (hc : k.Regular c) (hx : x ∈ k.vars) (hr : c.IsVar topFrame x r) :
    conjureContents r request c = ((.direct r, .symbol (symbol (request.symbol c r) c).1),
        (symbol (request.symbol c r) c).2) := by
  have htype := hc.valueType?_eq hx hr
  rw [conjureContents_of_scalar (by rw [htype]; rfl)]
  have hpointer : ((symbol (request.symbol c r) c).2.symbol
      (symbol (request.symbol c r) c).1).type.isPointer = false := by
    rw [symbol_symbol, Invalidation.symbol, htype]
    rfl
  rw [symbolValue, bind_apply, query_apply]
  simp only [hpointer, false_eq_true, if_false]
  rfl

theorem type_request (request : Invalidation) (hc : k.Regular c) (hx : x ∈ k.vars)
    (hr : c.IsVar topFrame x r) :
    request.symbol c r = .conjured request.expr request.frame .int request.count (some r) := by
  rw [Invalidation.symbol, hc.valueType?_eq hx hr]
  rfl

/-- The memory behind an unknown pointer is in no frame. -/
theorem outside_symbolValue {q : RegionId} (hc : c.WellFormed) (x : SymbolId)
    (hq : (symbolValue x c).1.region? = some q) : Outside (symbolValue x c).2 q := by
  unfold symbolValue at hq ⊢
  rw [bind_apply, query_apply] at hq ⊢
  split at hq
  · next hpointer =>
    rw [if_pos hpointer]
    obtain rfl : (symbolic x c).1 = q := Option.some.inj hq
    show Outside (symbolic x c).2 (symbolic x c).1
    obtain ⟨p, hp, hspace⟩ : ∃ p, (symbolic x c).2.region (symbolic x c).1 =
        .symbolic x p ∧ (symbolic x c).2.region p = .space .unknown :=
      region_inSpace .unknown (.symbolic x) c
    have hpart : ((symbolic x c).2.region (symbolic x c).1).isPart = false :=
      (congrArg Region.isPart hp).trans rfl
    refine ⟨has_region _ _, ?_, ?_⟩
    · rw [base_of_not_part hpart]
      exact fun hnone => nomatch hnone.symm.trans (congrArg Region.parent? hp)
    · rw [Catalog.stackFrame?, space_of_parent? (wellFormed_symbolic hc x)
        (congrArg Region.parent? hp) hspace]
  · cases hq

/-- Binding the fresh contents of an object. -/
theorem tame_contents (hc : k.Regular c) (hσ : k.TameStore c P σ) (hP : Allows P request)
    (ho : c.Has o) :
    k.TameStore (conjureContents o request c).2 P
      ⟨σ.bindings.insert (conjureContents o request c).1.1 (conjureContents o request c).1.2⟩ := by
  obtain ⟨hle, -, hkey, -⟩ := conjureContents_spec request hc.wellFormed ho
  refine (hσ.mono hc hle).insert ?_ (fun x hx hr => .inl ?_) fun q hq => ?_
  · rw [hkey, contentsKey_region]
    exact ho.mono hle
  · rw [hkey, contentsKey_region] at hr
    have hr := hr.of_le hle hc.wellFormed ho
    rw [conjureContents_var hc hx hr]
    refine ⟨rfl, ?_⟩
    have htype := type_request request hc hx hr
    refine (computes_atom hc.arithmetic (a := request.symbol c o) rfl ?_ ?_).plain
    · rw [htype]
      rfl
    · rw [htype]
      exact hP _ _ _
  · by_cases hscalar : (c.valueType? o).any (·.isScalar) = true
    · have hwf : (symbol (request.symbol c o) c).2.WellFormed :=
        ⟨hc.wellFormed.older, hc.wellFormed.inSpace⟩
      rw [conjureContents_of_scalar hscalar] at hq ⊢
      exact outside_symbolValue hwf _ hq
    · rw [conjureContents_of_not_scalar (eq_false_iff.2 hscalar)] at hq
      cases hq

/-! ### The loop over regions -/

theorem tame_forget (steps : Nat) {stack : List RegionId} (seen : List RegionId)
    (symbols : List SymbolId)
    (hc : k.Regular c) (hσ : k.TameStore c P σ) (hP : Allows P request) (hbefore : before.NamedIn c)
    (hstack : ∀ o ∈ stack, c.Has o) :
    let out := forget before request steps stack seen σ symbols c
    k.Regular out.2 ∧ k.TameStore out.2 P out.1.1 := by
  induction steps generalizing stack seen σ symbols c with
  | zero => exact ⟨hc, hσ⟩
  | succ steps ih =>
    cases stack with
    | nil => exact ⟨hc, hσ⟩
    | cons o stack =>
      have ho := hstack o mem_cons_self
      unfold forget
      rw [bind_apply, query_apply]
      by_cases hskip : (seen.contains o || isImmutable c o) = true
      · rw [if_pos hskip]
        exact ih _ _ hc hσ hbefore fun q hq => hstack q (mem_cons_of_mem _ hq)
      · rw [if_neg hskip]
        obtain ⟨hle, -⟩ := conjureContents_spec request hc.wellFormed ho
        refine ih _ _ (hc.conjureContents request ho) (tame_contents hc (hσ.kill o) hP ho)
          ⟨fun he => (hbefore.key he).mono hle, fun he hp => (hbefore.pointer he hp).mono hle⟩
          fun q hq => ?_
        rcases mem_append.1 hq with hq | hq
        · obtain ⟨e, he, p, hp, rfl⟩ := mem_targets (mem_reverse.1 hq)
          exact ((hbefore.pointer he hp).base hc.wellFormed).mono hle
        · exact (hstack q (mem_cons_of_mem _ hq)).mono hle

/-! ### The loop over scalar variables -/

/-- A variable holds the symbol that a request gives it. -/
def HoldsFresh (request : Invalidation) (c : Catalog) (σ : Store) (r : RegionId) : Prop :=
  ∃ y, σ.direct? r = some (.symbol y) ∧ c.HasSymbol y ∧
    c.symbol y = .conjured request.expr request.frame .int request.count (some r)

theorem HoldsFresh.mono (h : HoldsFresh request c σ r) (hcd : c ≤ d) : HoldsFresh request d σ r := by
  obtain ⟨y, hv, hhas, hy⟩ := h
  exact ⟨y, hv, hhas.mono hcd, (symbol_mono hcd hhas).trans hy⟩

theorem forgetFlat_spec (before : Store) {objects seen : List RegionId} (symbols : List SymbolId)
    (hc : k.Regular c) (hσ : k.TameStore c P σ) (hP : Allows P request)
    (hhas : ∀ r, r ∈ seen ∨ r ∈ objects → c.Has r)
    (hseen : ∀ x r, x ∈ k.vars → c.IsVar topFrame x r → r ∈ seen → HoldsFresh request c σ r) :
    let out := forgetFlat before request objects seen σ symbols c
    c ≤ out.2 ∧ k.Regular out.2 ∧ k.TameStore out.2 P out.1.1 ∧
      ∀ x r, x ∈ k.vars → c.IsVar topFrame x r → r ∈ seen ∨ r ∈ objects →
        HoldsFresh request out.2 out.1.1 r := by
  induction objects generalizing c σ seen symbols with
  | nil => exact ⟨le_rfl, hc, hσ, fun x r hx hr h => hseen x r hx hr (h.resolve_right not_mem_nil)⟩
  | cons o objects ih =>
    have hnext : ∀ {r}, r ∈ o :: seen ∨ r ∈ objects ↔ r ∈ seen ∨ r ∈ o :: objects := fun {r} => by
      simp only [mem_cons]
      tauto
    unfold forgetFlat
    rw [bind_apply, query_apply]
    by_cases hskip : (seen.contains o || !isScalarVar c o) = true
    · rw [if_pos hskip]
      have hseen' : ∀ x r, x ∈ k.vars → c.IsVar topFrame x r → r ∈ o :: seen →
          HoldsFresh request c σ r := fun x r hx hr hmem => by
        rcases mem_cons.1 hmem with rfl | hmem
        · rw [isScalarVar_of_isVar hc hx hr, or_eq_true, contains_iff_mem] at hskip
          exact hseen x r hx hr (hskip.resolve_right fun h => nomatch h)
        · exact hseen x r hx hr hmem
      obtain ⟨hle, hreg, htame, hfresh⟩ := ih symbols hc hσ (fun r hr => hhas r (hnext.1 hr)) hseen'
      exact ⟨hle, hreg, htame, fun x r hx hr h => hfresh x r hx hr (hnext.2 h)⟩
    · rw [if_neg hskip]
      have ho : c.Has o := hhas o (.inr mem_cons_self)
      obtain ⟨hle, -, hkey, -⟩ := conjureContents_spec request hc.wellFormed ho
      have hseen' : ∀ x r, x ∈ k.vars → (conjureContents o request c).2.IsVar topFrame x r →
          r ∈ o :: seen → HoldsFresh request (conjureContents o request c).2
            ⟨σ.bindings.insert (conjureContents o request c).1.1
              (conjureContents o request c).1.2⟩ r := fun x r hx hr hmem => by
        have hrc := hr.of_le hle hc.wellFormed (hhas r (hnext.1 (.inl hmem)))
        by_cases hro : r = o
        · subst hro
          rw [conjureContents_var hc hx hrc]
          refine ⟨_, direct?_insert_direct.trans (if_pos rfl),
            Interned.lt_size_of_get? (get?_symbol _ _), ?_⟩
          rw [symbol_symbol, type_request request hc hx hrc]
        · obtain ⟨y, hy, hfresh⟩ :=
            (hseen x r hx hrc ((mem_cons.1 hmem).resolve_left hro)).mono hle
          refine ⟨y, ?_, hfresh⟩
          rw [hkey, direct?, OrderedMap.get?_insert_of_ne, ← direct?, hy]
          intro he
          have hregion := congrArg BindingKey.region he
          rw [contentsKey_region] at hregion
          exact hro hregion
      obtain ⟨hle', hreg, htame, hfresh⟩ := ih
        (symbols ++ ((before.direct? o).bind (shownSymbol? c)).toList)
        (hc.conjureContents request ho) (tame_contents hc hσ hP ho)
        (fun r hr => (hhas r (hnext.1 hr)).mono hle) hseen'
      exact ⟨hle.trans hle', hreg, htame, fun x r hx hr h => hfresh x r hx (hr.mono hle) (hnext.2 h)⟩

/-! ### All variables -/

/-- The regions of some variables. -/
theorem mapM_var_isVar (hc : k.Regular c) (vars : List VarId) :
    let out := (vars.mapM (var · topFrame) : Naming (List RegionId)) c
    c ≤ out.2 ∧ k.Regular out.2 ∧ (∀ r ∈ out.1, ∃ x ∈ vars, out.2.IsVar topFrame x r) ∧
      ∀ x ∈ vars, ∃ r ∈ out.1, out.2.IsVar topFrame x r := by
  induction vars generalizing c with
  | nil => exact ⟨le_rfl, hc, fun _ h => (nomatch h), fun _ h => (nomatch h)⟩
  | cons v vars ih =>
    have hvar := isVar_var v topFrame c
    rw [mapM_cons]
    obtain ⟨hle, hreg, hregions, hvars⟩ := ih (hc.var v topFrame)
    refine ⟨(grows_var v topFrame c).trans hle, hreg, fun r hr => ?_, fun x hx => ?_⟩
    · rcases mem_cons.1 hr with rfl | hr
      · exact ⟨v, mem_cons_self, hvar.mono hle⟩
      · obtain ⟨x, hx, hr⟩ := hregions r hr
        exact ⟨x, mem_cons_of_mem _ hx, hr⟩
    · rcases mem_cons.1 hx with rfl | hx
      · exact ⟨_, mem_cons_self, hvar.mono hle⟩
      · obtain ⟨r, hr, hx⟩ := hvars x hx
        exact ⟨r, mem_cons_of_mem _ hr, hx⟩

theorem Regular.mapM_var (hc : k.Regular c) (f : FrameId) (vars : List VarId) :
    k.Regular ((vars.mapM fun v => Naming.var v f : Naming (List RegionId)) c).2 := by
  induction vars generalizing c with
  | nil => exact hc
  | cons v vars ih =>
    rw [mapM_cons]
    exact ih (hc.var v f)

theorem Regular.invalidationRoots (hc : k.Regular c) (request : Invalidation) :
    k.Regular (Store.invalidationRoots request c).2 := by
  unfold Store.invalidationRoots
  rw [bind_apply, query_apply]
  split
  · exact hc.mapM_var request.frame _
  · exact hc

theorem TameStore.namedIn (h : k.TameStore c P σ) : σ.NamedIn c :=
  ⟨h.key, fun he hp => (h.pointer he hp).has⟩

/-- The objects that a request for variables starts from have numbers. -/
theorem has_invalidationRoots (hc : k.Regular c) (hregions : ∀ r ∈ request.regions, c.Has r)
    (ho : o ∈ (invalidationRoots request c).1) : (invalidationRoots request c).2.Has o := by
  obtain ⟨hle, -, -, hcases⟩ := invalidationRoots_spec request hc.wellFormed
  rcases hcases o ho with ⟨r, hr, rfl⟩ | ⟨v, p, hv⟩
  · exact ((hregions r hr).base hc.wellFormed).mono hle
  · exact has_of_parent? (p := p) (by rw [hv]; rfl)

/-- The variable of a frame does not lie in anything that memory points to. -/
theorem isInside_eq_false (hc : k.Regular c) (hσ : k.TameStore c P σ) (hr : c.IsVar topFrame x r)
    {p : RegionId} (hp : (∃ y, c.IsVar topFrame y p) ∨ ∃ b, (b, .pointer p) ∈ σ.bindings.entries) :
    c.isInside (c.base r) (c.base p) = false := by
  rw [eq_false_iff, hr.base_eq]
  intro hin
  obtain ⟨hmem, hne⟩ := isInside_iff.1 hin
  rcases hp with ⟨y, hy⟩ | ⟨b, hb⟩
  · rw [hy.base_eq] at hmem hne
    exact hne ((hr.mem_chain_iff hy hc.wellFormed).1 hmem)
  · obtain ⟨q, hq, hchain⟩ := hr.chain_eq hc.wellFormed
    rw [hchain, mem_cons, mem_singleton] at hmem
    have hparent := (hσ.pointer hb rfl).parent
    rw [hmem.resolve_left hne, hq] at hparent
    exact hparent rfl

/-- **Forgetting variables.** Each variable that a request names holds a symbol of its own. -/
theorem invalidate_vars (request : Invalidation) (hc : k.Regular c) (hσ : k.TameStore c P σ)
    (hP : Allows P request)
    (hregions : ∀ r ∈ request.regions, ∃ x ∈ k.vars, c.IsVar topFrame x r) :
    let out := k.options.store.invalidate σ request c
    c ≤ out.2 ∧ k.Regular out.2 ∧ k.TameStore out.2 P out.1.1 ∧
      ∀ r ∈ request.regions, HoldsFresh request out.2 out.1.1 r := by
  obtain ⟨hle, -, hroots, -⟩ := invalidationRoots_spec request hc.wellFormed
  have hreg := hc.invalidationRoots request
  have hhas : ∀ r ∈ request.regions, c.Has r := fun r hr => by
    obtain ⟨x, -, hx⟩ := hregions r hr
    exact hx.has
  cases k.options.store with
  | flat =>
    obtain ⟨hle', hreg', htame, hfresh⟩ := forgetFlat_spec σ [] hreg
      (hσ.mono hc hle) hP (fun r hr => has_invalidationRoots hc hhas
        (hr.resolve_left not_mem_nil)) fun _ _ _ _ h => by cases h
    refine ⟨hle.trans hle', hreg', htame, fun r hr => ?_⟩
    obtain ⟨x, hx, hrx⟩ := hregions r hr
    exact hfresh x r hx (hrx.mono hle) (.inr (hrx.base_eq ▸ hroots r hr))
  | region =>
    have hforget := tame_forget
      ((Store.invalidationRoots request c).1.length + σ.bindings.size) [] [] hreg (hσ.mono hc hle) hP
      (hσ.mono hc hle).namedIn fun o (ho : o ∈ (Store.invalidationRoots request c).1.reverse) =>
        has_invalidationRoots hc hhas (mem_reverse.1 ho)
    obtain ⟨hreg', htame⟩ : k.Regular (σ.invalidate request c).2 ∧
      k.TameStore (σ.invalidate request c).2 P (σ.invalidate request c).1.1 := hforget
    refine ⟨grows_invalidate σ request c, hreg', htame, fun r hr => ?_⟩
    obtain ⟨x, hx, hrx⟩ := hregions r hr
    have hparent : (c.region (c.base r)).parent? ≠ none := by
      obtain ⟨q, hq⟩ := hrx.region_eq
      rw [hrx.base_eq, hq]
      exact Option.some_ne_none _
    have hmutable : isImmutable c r = false := by
      rw [isImmutable]
      rcases space_cases hc hx hrx with ⟨-, hs⟩ | ⟨-, hs⟩ <;> rw [hs]
    obtain ⟨hle', -, -, hrenewed⟩ := invalidate_spec request hc.wellFormed hσ.namedIn hhas hr hparent
      hmutable fun p hp => isInside_eq_false hc hσ hrx (hp.imp_left fun hp => by
        obtain ⟨y, -, hy⟩ := hregions p hp
        exact ⟨y, hy⟩)
    rw [hrx.base_eq] at hrenewed
    obtain ⟨v, hv, y, hy, hshows, -⟩ := hrenewed.contents
    have hrx' := hrx.mono hle'
    have hkey : contentsKey (σ.invalidate request c).2 r = .direct r := by
      rw [contentsKey, hreg'.valueType?_eq hx hrx']
      rfl
    rw [hkey] at hv
    rw [type_request request hreg' hx hrx'] at hy
    rcases hshows with rfl | ⟨q, p, rfl, -⟩
    · exact ⟨y, hv, hasSymbol_of_ne (fun he => by cases hy.symm.trans he), hy⟩
    · cases htame.direct hx hrx' hv

/-! ### Loops -/

variable {z : Catalog} {s : State} {κ : Config} {α : Assignment} {live live' : VarId → Prop}
  {e : ExprId} {count : Nat}

/-- Forgets all variables, as a loop with the given expression and count does. -/
def widen (k : Study) (e : ExprId) (count : Nat) (s : State) : Naming State := do
  let regions ← k.vars.mapM (var · topFrame)
  return (← s.invalidate k.options.store ⟨regions, e, topFrame, count, true⟩).1

/-- The symbol that a loop gives a variable. -/
def loopSymbol (e : ExprId) (count : Nat) (r : RegionId) : Symbol :=
  .conjured e topFrame .int count (some r)

theorem widen_spec (hc : k.Regular c) (hs : k.Tame c P s) (count : Nat)
    (hP : ∀ t n tag, P (.conjured e topFrame t n tag)) :
    let out := k.widen e count s c
    c ≤ out.2 ∧ k.Regular out.2 ∧ k.Tame out.2 P out.1 ∧ (∃ σ, out.1 = { s with store := σ }) ∧
      ∀ x ∈ k.vars, ∃ r y, out.2.IsVar topFrame x r ∧ out.1.store.direct? r = some (.symbol y) ∧
        out.2.HasSymbol y ∧ out.2.symbol y = loopSymbol e count r := by
  obtain ⟨hle, hreg, hregions, hvars⟩ := mapM_var_isVar hc k.vars
  obtain ⟨hle', hreg', htame, hfresh⟩ := invalidate_vars
    ⟨((k.vars.mapM (var · topFrame) : Naming (List RegionId)) c).1, e, topFrame, count, true⟩
    hreg (hs.store.mono hc hle) hP hregions
  refine ⟨hle.trans hle', hreg', ?_, ⟨_, rfl⟩, fun x hx => ?_⟩
  · have hs' := hs.mono hc (hle.trans hle')
    exact { hs' with store := htame }
  · obtain ⟨r, hr, hxr⟩ := hvars x hx
    obtain ⟨y, hy⟩ := hfresh r hr
    exact ⟨r, y, hxr.mono hle', hy⟩

/-- The value of a variable in a run. -/
def HasVar (z : Catalog) (κ : Config) (r : RegionId) (n : Int) : Prop :=
  ∃ x, z.IsVar topFrame x r ∧ κ.vars x = some n

theorem HasVar.unique {n m : Int} (h : HasVar z κ r n) (h' : HasVar z κ r m) : n = m := by
  obtain ⟨x, hx, hn⟩ := h
  obtain ⟨y, hy, hm⟩ := h'
  obtain rfl := hx.var_eq hy
  exact Option.some.inj (hn.symm.trans hm)

open Classical in
/-- The assignment that gives the symbols of a loop the values that the variables have in a run. -/
noncomputable def rebased (z : Catalog) (κ : Config) (e : ExprId) (count : Nat) (α : Assignment)
    (hκ : ∀ {x n}, κ.vars x = some n → n ∈ CType.int.domain) : Assignment where
  value a :=
    if h : ∃ n r, a = loopSymbol e count r ∧ HasVar z κ r n then h.choose else α.value a
  mem_domain a := by
    split
    · next h =>
      obtain ⟨r, ha, x, -, hn⟩ := h.choose_spec
      have ht : a.type = .int := by rw [ha]; rfl
      rw [ht]
      exact hκ hn
    · exact α.mem_domain a

theorem rebased_loopSymbol {hκ : ∀ {x n}, κ.vars x = some n → n ∈ CType.int.domain} {n : Int}
    (h : HasVar z κ r n) : (rebased z κ e count α hκ).value (loopSymbol e count r) = n := by
  have hex : ∃ n q, loopSymbol e count r = loopSymbol e count q ∧ HasVar z κ q n := ⟨n, r, rfl, h⟩
  refine (dif_pos hex).trans ?_
  obtain ⟨q, hq, hchosen⟩ := hex.choose_spec
  cases hq
  exact hchosen.unique h

theorem rebased_of_ne {hκ : ∀ {x n}, κ.vars x = some n → n ∈ CType.int.domain} {a : Symbol}
    (h : ∀ r, a ≠ loopSymbol e count r) : (rebased z κ e count α hκ).value a = α.value a := by
  refine dif_neg ?_
  rintro ⟨n, r, ha, -⟩
  exact h r ha

/-- What the environment gives an expression that stands for a number is made of the atoms of the
state. -/
theorem TameEnv.plain_of_denotes {env : Environment} {a : ExprId} {v : Value} {n : Int}
    (h : k.TameEnv c P env) (hv : env.get? (.expr topFrame a) = some v) (hd : v.Denotes z α n) :
    v.Plain c P := by
  by_cases ha : k.IsNumeric a
  · exact h.number hv ha
  · obtain ⟨x, hx⟩ := not_forall.1 ha
    obtain ⟨q, -, rfl⟩ := h.name hv (not_not.1 hx)
    cases hd

/-- **Forgetting loses no run.** The symbols of the loop are new to the state, so they can be given
the values that the variables have. -/
theorem Agrees.widen (h : k.Agrees z live s κ α) (hc : k.Regular c) (hs : k.Tame c P s)
    (hnew : ∀ r, ¬ P (loopSymbol e count r)) {Q : Symbol → Prop}
    (hQ : ∀ t n tag, Q (.conjured e topFrame t n tag)) (hPQ : ∀ a, P a → Q a)
    (hz : (k.widen e count s c).2 ≤ z) :
    ∃ β : Assignment, (∀ q t, β.value (.regionValue q t) = α.value (.regionValue q t)) ∧
      k.Agrees z live' (k.widen e count s c).1 κ β := by
  obtain ⟨hle, -, -, ⟨σ, hσ⟩, hfresh⟩ := widen_spec hc (hs.imp hPQ) count hQ
  have hcz : c ≤ z := hle.trans hz
  -- the atoms of the state keep their values
  have hold : ∀ a, P a → α.value a = (rebased z κ e count α h.varDomain).value a := fun a ha =>
    (rebased_of_ne fun r he => hnew r (he ▸ ha)).symm
  refine ⟨rebased z κ e count α h.varDomain, fun q t => rebased_of_ne fun r he => (nomatch he), ?_⟩
  rw [hσ] at hfresh ⊢
  exact
    { int := fun ha => by
        obtain ⟨v, hv, hd⟩ := h.int ha
        exact ⟨v, hv, hd.congr ((hs.env.plain_of_denotes hv hd).mono hcz) hold⟩
      place := h.place
      result := fun hn => by
        obtain ⟨v, hv, hd⟩ := h.result hn
        exact ⟨v, hv, hd.congr ((hs.env.result hv).mono hcz) hold⟩
      noResult := h.noResult
      var := fun {x n r} hx hn _ hr => by
        obtain ⟨q, y, hq, hy, hhas, hsymbol⟩ := hfresh x hx
        obtain rfl := hr.unique (hq.mono hz)
        simp only [Keeps, hy]
        show z.eval _ y = n
        rw [← symbol_mono hz hhas] at hsymbol
        rw [eval_of_isAtomic (by rw [hsymbol]; rfl), hsymbol]
        exact rebased_loopSymbol ⟨x, hr, hn⟩
      range := fun hx => by
        rw [← ((hs.constraints _ _ hx).1.mono hcz).eval_congr hold]
        exact h.range hx
      intDomain := h.intDomain
      varDomain := h.varDomain }

end PathScout.Study

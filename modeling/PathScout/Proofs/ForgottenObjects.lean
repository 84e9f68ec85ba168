import PathScout.Proofs.Invalidation
import PathScout.Proofs.StructCopy

/-!
# Which objects are forgotten

A request starts from the objects of its regions and from the global variables. Every object that
is forgotten is searched for pointers, and the objects that they point to are forgotten as well. The
search looks at the bindings of memory only: what a snapshot holds is not followed.

* `Store.invalidateNoting`: `Store.invalidate`, which also notes the objects that are forgotten.
* `Invalidation.Reaches`: the objects that the bindings of memory lead to.
* `Store.Noting`: the invariant of the loop.
* `Store.mem_noted_iff`: the objects that are noted are those reached that can change.
* `Store.deciding?`, `Store.retrieve_pointer_cases`: which binding a pointer is read from.
* `Store.invalidate_follows_bindings`: pointers that memory binds are followed.
* `Store.invalidate_misses_snapshot`: pointers in a snapshot are not.
-/

namespace PathScout

open Catalog Naming List

variable {c d : Catalog} {s before : Store} {request : Invalidation} {b o p q r : RegionId} {t : CType}
  {v : Value} {stack seen noted : List RegionId} {symbols : List SymbolId}

namespace Store

/-! ### Noting what is forgotten -/

/-- The loop of `forget`, which also notes the objects that are given fresh contents. -/
def forgetNoting (before : Store) (request : Invalidation) :
    (steps : Nat) → (stack seen : List RegionId) → Store → List SymbolId →
      (noted : List RegionId) → Naming ((Store × List SymbolId) × List RegionId)
  | 0, _, _, s, symbols, noted => return ((s, symbols), noted)
  | _, [], _, s, symbols, noted => return ((s, symbols), noted)
  | steps + 1, object :: stack, seen, s, symbols, noted => do
    if ← query fun c => seen.contains object || isImmutable c object then
      forgetNoting before request steps stack (object :: seen) s symbols noted
    else
      let shown ← query fun c => (before.ofObject c object).filterMap (shownSymbol? c)
      let targets ← query (before.targets · object)
      let s ← query fun c => s.kill c object
      let (key, value) ← conjureContents object request
      forgetNoting before request steps (targets.reverse ++ stack) (object :: seen)
        ⟨s.bindings.insert key value⟩ (symbols ++ shown) (noted ++ [object])

/-- Forgets what a request asks for, and also tells which objects are forgotten. -/
def invalidateNoting (s : Store) (request : Invalidation) :
    Naming ((Store × List SymbolId) × List RegionId) := do
  let roots ← invalidationRoots request
  forgetNoting s request (roots.length + s.bindings.size) roots.reverse [] s [] []

variable {steps : Nat}

theorem forgetNoting_of_skip (h : (seen.contains o || isImmutable c o) = true) :
    forgetNoting before request (steps + 1) (o :: stack) seen s symbols noted c =
      forgetNoting before request steps stack (o :: seen) s symbols noted c := by
  rw [forgetNoting, bind_apply, query_apply, if_pos h]

theorem forgetNoting_of_not_skip (h : ¬(seen.contains o || isImmutable c o) = true) :
    forgetNoting before request (steps + 1) (o :: stack) seen s symbols noted c =
      forgetNoting before request steps ((before.targets c o).reverse ++ stack) (o :: seen)
        (s.renew request c o) (symbols ++ (before.ofObject c o).filterMap (shownSymbol? c))
        (noted ++ [o]) (conjureContents o request c).2 := by
  rw [forgetNoting, bind_apply, query_apply, if_neg h]
  rfl

theorem NamedIn.mono (hs : s.NamedIn c) (hcd : c ≤ d) : s.NamedIn d :=
  ⟨fun he => (hs.key he).mono hcd, fun he hp => (hs.pointer he hp).mono hcd⟩

/-- What waits once an object is forgotten has numbers. -/
theorem has_waiting (hc : c.WellFormed) (hs : before.NamedIn c) (hstack : ∀ q ∈ o :: stack, c.Has q)
    (hq : q ∈ (before.targets c o).reverse ++ stack) : c.Has q := by
  rcases mem_append.1 hq with hq | hq
  · obtain ⟨e, he, p, hp, rfl⟩ := mem_targets (mem_reverse.1 hq)
    exact (hs.pointer he hp).base hc
  · exact hstack q (mem_cons_of_mem _ hq)

/-- Noting the objects changes nothing. -/
theorem forgetNoting_forgets (before : Store) (request : Invalidation) (steps : Nat)
    (stack seen : List RegionId) (s : Store) (symbols : List SymbolId) (noted : List RegionId)
    (c : Catalog) :
    forget before request steps stack seen s symbols c =
      ((forgetNoting before request steps stack seen s symbols noted c).1.1,
        (forgetNoting before request steps stack seen s symbols noted c).2) := by
  induction steps generalizing stack seen s symbols noted c with
  | zero => rfl
  | succ steps ih =>
    cases stack with
    | nil => rfl
    | cons o stack =>
      unfold forget
      rw [bind_apply, query_apply]
      by_cases hskip : (seen.contains o || isImmutable c o) = true
      · rw [if_pos hskip, forgetNoting_of_skip hskip]
        exact ih ..
      · rw [if_neg hskip, forgetNoting_of_not_skip hskip]
        exact ih ..

theorem invalidateNoting_invalidates (s : Store) (request : Invalidation) (c : Catalog) :
    s.invalidate request c = ((s.invalidateNoting request c).1.1, (s.invalidateNoting request c).2) :=
  forgetNoting_forgets ..

/-- Catalogs stay well-formed when objects with numbers are forgotten. -/
theorem wellFormed_forgetNoting (hc : c.WellFormed) (hs : before.NamedIn c)
    (hstack : ∀ o ∈ stack, c.Has o) :
    (forgetNoting before request steps stack seen s symbols noted c).2.WellFormed := by
  induction steps generalizing stack seen s symbols noted c with
  | zero => exact hc
  | succ steps ih =>
    cases stack with
    | nil => exact hc
    | cons o stack =>
      by_cases hskip : (seen.contains o || isImmutable c o) = true
      · rw [forgetNoting_of_skip hskip]
        exact ih hc hs fun q hq => hstack q (mem_cons_of_mem _ hq)
      · rw [forgetNoting_of_not_skip hskip]
        obtain ⟨hgrow, hwf, -, -⟩ := conjureContents_spec request hc (hstack o mem_cons_self)
        exact ih hwf (hs.mono hgrow) fun q hq => (has_waiting hc hs hstack hq).mono hgrow

theorem grows_forgetNoting (before : Store) (request : Invalidation) (steps : Nat)
    (stack seen : List RegionId) (s : Store) (symbols : List SymbolId) (noted : List RegionId) :
    (forgetNoting before request steps stack seen s symbols noted).Grows := fun c => by
  have hgrow := grows_forget before request steps stack seen s symbols c
  rwa [forgetNoting_forgets before request steps stack seen s symbols noted c] at hgrow

end Store

/-! ### What a request reaches -/

namespace Invalidation

/-- The object of a region of the request, or of a global variable if these are asked for. -/
def IsRoot (request : Invalidation) (d : Catalog) (o : RegionId) : Prop :=
  (∃ r ∈ request.regions, d.base r = o) ∨
    request.includeGlobals = true ∧ ∃ v ∈ d.program.globalVars, d.IsVar request.frame v o

/-- The request starts from the object, or memory that it reaches and that can change holds a
pointer to the object. -/
inductive Reaches (request : Invalidation) (s : Store) (d : Catalog) : RegionId → Prop
  | root {o : RegionId} : request.IsRoot d o → Reaches request s d o
  | held {k : BindingKey} {p : RegionId} : Reaches request s d (d.base k.region) →
      Store.isImmutable d (d.base k.region) = false → (k, .pointer p) ∈ s.bindings.entries →
      Reaches request s d (d.base p)

end Invalidation

namespace Store

theorem ofObject_mono (hcd : c ≤ d) (hs : s.NamedIn c) (o : RegionId) :
    s.ofObject d o = s.ofObject c o :=
  filterMap_congr fun e he => by rw [base_mono hcd (hs.key he)]

theorem mem_targets_iff : q ∈ s.targets c o ↔
    ∃ k p, (k, .pointer p) ∈ s.bindings.entries ∧ c.base k.region = o ∧ c.base p = q := by
  constructor
  · intro h
    obtain ⟨v, hv, hq⟩ := mem_filterMap.1 h
    obtain ⟨k, hk, hbase⟩ := mem_ofObject_iff.1 hv
    obtain ⟨p, hp, rfl⟩ := Option.map_eq_some_iff.1 hq
    exact ⟨k, p, Value.eq_pointer_of_region? hp ▸ hk, hbase, rfl⟩
  · rintro ⟨k, p, hk, hbase, rfl⟩
    exact mem_filterMap.2 ⟨.pointer p, mem_ofObject_iff.2 ⟨k, hk, hbase⟩, rfl⟩

theorem targets_mono (hcd : c ≤ d) (hs : s.NamedIn c) (o : RegionId) :
    s.targets d o = s.targets c o := by
  rw [targets, targets, ofObject_mono hcd hs]
  refine filterMap_congr fun v hv => ?_
  obtain ⟨k, hk, -⟩ := mem_ofObject_iff.1 hv
  cases hp : v.region? with
  | none => rfl
  | some p => exact congrArg some (base_mono hcd (hs.pointer hk hp))

/-- The regions of some variables are named in this order. -/
theorem mem_mapM_var_iff (f : FrameId) (vars : List VarId)
    (hle : ((vars.mapM fun v => var v f : Naming (List RegionId)) c).2 ≤ d) :
    o ∈ ((vars.mapM fun v => var v f : Naming (List RegionId)) c).1 ↔
      ∃ v ∈ vars, d.IsVar f v o := by
  induction vars generalizing c with
  | nil => exact iff_of_false not_mem_nil fun ⟨_, hv, _⟩ => nomatch hv
  | cons v vars ih =>
    rw [mapM_cons] at hle ⊢
    have hgrow := Naming.Grows.mapM (fun v => grows_var v f) vars (var v f c).2
    have hvar : d.IsVar f v (var v f c).1 := (isVar_var v f c).mono (hgrow.trans hle)
    rw [exists_mem_cons_iff, ← ih hle]
    refine mem_cons.trans (or_congr_left ⟨?_, fun h => h.unique hvar⟩)
    rintro rfl
    exact hvar

/-- The loop starts from the roots of the request. -/
theorem mem_invalidationRoots_iff (hregions : ∀ r ∈ request.regions, c.Has r)
    (hle : (invalidationRoots request c).2 ≤ d) :
    o ∈ (invalidationRoots request c).1 ↔ request.IsRoot d o := by
  have hcd : c ≤ d := by
    refine le_trans (b := (invalidationRoots request c).2) ?_ hle
    refine (grows_query _).bind (fun _ => .ite ?_ (grows_pure _)) c
    exact (grows_query _).bind fun _ =>
      (Naming.Grows.mapM (fun v => grows_var v _) _).bind fun _ => grows_pure _
  have hgiven : o ∈ request.regions.map c.base ↔ ∃ r ∈ request.regions, d.base r = o := by
    rw [mem_map]
    refine exists_congr fun r => and_congr_right fun hr => ?_
    rw [base_mono hcd (hregions r hr)]
  unfold invalidationRoots at hle ⊢
  rw [bind_apply, query_apply] at hle ⊢
  unfold Invalidation.IsRoot
  by_cases hg : request.includeGlobals = true
  · rw [if_pos hg] at hle ⊢
    have hvars := mem_mapM_var_iff (o := o) (c := c) request.frame c.program.globalVars hle
    rw [hcd.program, ← hgiven, ← hvars]
    exact mem_append.trans (or_congr_right (iff_and_self.2 fun _ => hg))
  · rw [if_neg hg, ← hgiven]
    exact (or_iff_left fun h => hg h.1).symm

/-! ### The loop -/

/-- The invariant of the loop. What waits and what is noted is reached. What was met is noted or
never changes, and neither a root nor anything that a noted object points to is missing. -/
structure Noting (before : Store) (request : Invalidation) (d : Catalog)
    (stack seen noted : List RegionId) : Prop where
  waiting {o : RegionId} : o ∈ stack → request.Reaches before d o
  reached {o : RegionId} : o ∈ noted → request.Reaches before d o ∧ isImmutable d o = false
  met {o : RegionId} : o ∈ seen → o ∈ noted ∨ isImmutable d o = true
  roots {o : RegionId} : request.IsRoot d o → o ∈ seen ∨ o ∈ stack
  closed {o q : RegionId} : o ∈ noted → q ∈ before.targets d o → q ∈ seen ∨ q ∈ stack

namespace Noting

/-- An object that was met before, or that never changes, is passed over. -/
theorem skip (h : Noting before request d (o :: stack) seen noted)
    (ho : o ∈ seen ∨ isImmutable d o = true) : Noting before request d stack (o :: seen) noted := by
  have hmove : ∀ {q}, q ∈ seen ∨ q ∈ o :: stack → q ∈ o :: seen ∨ q ∈ stack := by
    intro q hq
    simp only [mem_cons] at hq ⊢
    tauto
  refine
    { waiting := fun hq => h.waiting (mem_cons_of_mem _ hq)
      reached := h.reached
      met := fun hq => ?_
      roots := fun hq => hmove (h.roots hq)
      closed := fun hn hq => hmove (h.closed hn hq) }
  rcases mem_cons.1 hq with rfl | hq
  · exact ho.elim h.met Or.inr
  · exact h.met hq

/-- An object is forgotten and noted, and what it points to waits. -/
theorem note (h : Noting before request d (o :: stack) seen noted) (ho : isImmutable d o = false) :
    Noting before request d ((before.targets d o).reverse ++ stack) (o :: seen) (noted ++ [o]) := by
  have hreached := h.waiting mem_cons_self
  have hmove : ∀ {q}, q ∈ seen ∨ q ∈ o :: stack →
      q ∈ o :: seen ∨ q ∈ (before.targets d o).reverse ++ stack := by
    intro q hq
    simp only [mem_cons, mem_append] at hq ⊢
    tauto
  constructor
  · intro q hq
    rcases mem_append.1 hq with hq | hq
    · obtain ⟨k, p, he, rfl, rfl⟩ := mem_targets_iff.1 (mem_reverse.1 hq)
      exact .held hreached ho he
    · exact h.waiting (mem_cons_of_mem _ hq)
  · intro q hq
    rcases mem_append.1 hq with hq | hq
    · exact h.reached hq
    · exact mem_singleton.1 hq ▸ ⟨hreached, ho⟩
  · intro q hq
    rcases mem_cons.1 hq with rfl | hq
    · exact Or.inl (mem_append_right _ mem_cons_self)
    · exact (h.met hq).imp_left (mem_append_left _)
  · exact fun hq => hmove (h.roots hq)
  · intro m q hm hq
    rcases mem_append.1 hm with hm | hm
    · exact hmove (h.closed hm hq)
    · rw [mem_singleton.1 hm] at hq
      exact Or.inr (mem_append_left _ (mem_reverse.2 hq))

/-- Once nothing waits, everything that is reached was met. -/
theorem mem_seen (h : Noting before request d [] seen noted) (ho : request.Reaches before d o) :
    o ∈ seen := by
  have hseen : ∀ {q}, q ∈ seen ∨ q ∈ [] → q ∈ seen := fun hq => hq.resolve_right not_mem_nil
  induction ho with
  | root hroot => exact hseen (h.roots hroot)
  | @held k p _ hmut he ih =>
    have hnoted := (h.met ih).resolve_right (by rw [hmut]; exact Bool.false_ne_true)
    exact hseen (h.closed hnoted (mem_targets_iff.2 ⟨k, p, he, rfl, rfl⟩))

/-- Once nothing waits, the noted objects are those that are reached and can change. -/
theorem mem_noted_iff (h : Noting before request d [] seen noted) :
    o ∈ noted ↔ request.Reaches before d o ∧ isImmutable d o = false := by
  refine ⟨h.reached, fun ⟨ho, hmut⟩ => ?_⟩
  exact (h.met (h.mem_seen ho)).resolve_right (by rw [hmut]; exact Bool.false_ne_true)

/-- The steps are enough for the loop to empty the stack. -/
theorem run (hd : d.WellFormed) (hs : before.NamedIn c) (hstack : ∀ o ∈ stack, c.Has o)
    (hsteps : stack.length + before.unmet c seen ≤ steps)
    (hle : (forgetNoting before request steps stack seen s symbols noted c).2 ≤ d)
    (h : Noting before request d stack seen noted) :
    ∃ seen', Noting before request d [] seen'
      (forgetNoting before request steps stack seen s symbols noted c).1.2 := by
  induction steps generalizing stack seen s symbols noted c with
  | zero =>
    obtain rfl : stack = [] := length_eq_zero_iff.1 (by omega)
    exact ⟨seen, h⟩
  | succ steps ih =>
    cases stack with
    | nil => exact ⟨seen, h⟩
    | cons o stack =>
      have hcd : c ≤ d := (grows_forgetNoting ..).trans hle
      have ho := hstack o mem_cons_self
      rw [length_cons] at hsteps
      by_cases hskip : (seen.contains o || isImmutable c o) = true
      · rw [forgetNoting_of_skip hskip] at hle ⊢
        have hmet : o ∈ seen ∨ isImmutable d o = true := by
          rwa [Bool.or_eq_true, contains_iff_mem, ← isImmutable_mono hcd ho] at hskip
        have := before.unmet_cons_le c seen o
        exact ih hs (fun q hq => hstack q (mem_cons_of_mem _ hq)) (by omega) hle (h.skip hmet)
      · rw [forgetNoting_of_not_skip hskip] at hle ⊢
        rw [Bool.or_eq_true, not_or, contains_iff_mem, Bool.not_eq_true,
          ← isImmutable_mono hcd ho] at hskip
        have hlen := length_targets_add_unmet_le (s := before) (c := c) hskip.1
        have hwf : c.WellFormed := hd.of_le hcd
        have hgrow := (conjureContents_spec request hwf ho).1
        have hnote := h.note hskip.2
        rw [targets_mono hcd hs] at hnote
        refine ih (hs.mono hgrow) (fun q hq => (has_waiting hwf hs hstack hq).mono hgrow) ?_ hle hnote
        rw [unmet_mono hgrow hs, length_append, length_reverse]
        omega

end Noting

/-- The roots of a request have numbers. -/
theorem has_root (hc : c.WellFormed) (hregions : ∀ r ∈ request.regions, c.Has r)
    (ho : o ∈ (invalidationRoots request c).1.reverse) : (invalidationRoots request c).2.Has o := by
  obtain ⟨hgrow, -, -, hcases⟩ := invalidationRoots_spec request hc
  rcases hcases o (mem_reverse.1 ho) with ⟨r, hr, rfl⟩ | ⟨v, p, hv⟩
  · exact ((hregions r hr).base hc).mono hgrow
  · exact has_of_parent? (p := p) (by rw [hv]; rfl)

theorem wellFormed_invalidateNoting (hc : c.WellFormed) (hs : s.NamedIn c)
    (hregions : ∀ r ∈ request.regions, c.Has r) :
    (s.invalidateNoting request c).2.WellFormed := by
  obtain ⟨hgrow, hwf, -, -⟩ := invalidationRoots_spec request hc
  exact wellFormed_forgetNoting hwf (hs.mono hgrow) fun o ho => has_root hc hregions ho

theorem grows_invalidateNoting (s : Store) (request : Invalidation) :
    (s.invalidateNoting request).Grows := fun c => by
  have hgrow := grows_invalidate s request c
  rwa [invalidateNoting_invalidates] at hgrow

/-- The objects that are forgotten are those that the request reaches and that can change. -/
theorem mem_noted_iff (hd : d.WellFormed) (hle : (s.invalidateNoting request c).2 ≤ d)
    (hs : s.NamedIn c) (hregions : ∀ r ∈ request.regions, c.Has r) :
    o ∈ (s.invalidateNoting request c).1.2 ↔
      request.Reaches s d o ∧ isImmutable d o = false := by
  have hc : c.WellFormed := hd.of_le ((grows_invalidateNoting s request c).trans hle)
  have hgrow := (invalidationRoots_spec request hc).1
  have hroots : ∀ {q}, q ∈ (invalidationRoots request c).1 ↔ request.IsRoot d q :=
    mem_invalidationRoots_iff hregions ((grows_forgetNoting ..).trans hle)
  have hstart : Noting s request d (invalidationRoots request c).1.reverse [] [] :=
    { waiting := fun ho => .root (hroots.1 (mem_reverse.1 ho))
      reached := fun ho => nomatch ho
      met := fun ho => nomatch ho
      roots := fun ho => Or.inr (mem_reverse.2 (hroots.2 ho))
      closed := fun ho => nomatch ho }
  have hsteps : (invalidationRoots request c).1.reverse.length +
      s.unmet (invalidationRoots request c).2 [] ≤
        (invalidationRoots request c).1.length + s.bindings.size := by
    rw [length_reverse]
    exact Nat.add_le_add_left countP_le_length _
  obtain ⟨seen, h⟩ :=
    hstart.run hd (hs.mono hgrow) (fun o ho => has_root hc hregions ho) hsteps hle
  exact h.mem_noted_iff

/-! ### Reading a pointer -/

/-- The binding that says what a scalar is read as: that of its region, else the nearest default. -/
def deciding? (s : Store) (c : Catalog) (r : RegionId) : Option Value :=
  (s.direct? r).or ((nearestDefault? c s.bindings.entries r).map (·.2))

/-- The nearest default is a binding of the same object. -/
theorem base_of_nearestDefault? {bindings : List (BindingKey × Value)} (hd : d.WellFormed)
    (h : nearestDefault? d bindings r = some (q, v)) :
    (.default q, v) ∈ bindings ∧ d.base q = d.base r := by
  have hself : ∀ {m}, (OrderedMap.lookup (.default m) bindings).map (m, ·) = some (q, v) →
      (.default q, v) ∈ bindings ∧ m = q := fun hm => by
    obtain ⟨w, hw, he⟩ := Option.map_eq_some_iff.1 hm
    obtain ⟨rfl, rfl⟩ := Prod.mk.inj he
    exact ⟨OrderedMap.mem_of_lookup_eq hw, rfl⟩
  induction r using part_induction hd with
  | object r hpart =>
    rw [nearestDefault?_of_not_part hpart] at h
    obtain ⟨hmem, rfl⟩ := hself h
    exact ⟨hmem, rfl⟩
  | part r p hpart hp ih =>
    rw [nearestDefault?_of_part hpart hp, Option.or_eq_some_iff] at h
    rcases h with h | ⟨-, h⟩
    · obtain ⟨hmem, rfl⟩ := hself h
      exact ⟨hmem, rfl⟩
    · rw [base_of_part hd hpart hp]
      exact ih h

/-- What decides is bound in the same object. -/
theorem mem_of_deciding? (hd : d.WellFormed) (h : s.deciding? d r = some v) :
    ∃ k, (k, v) ∈ s.bindings.entries ∧ d.base k.region = d.base r := by
  rcases Option.or_eq_some_iff.1 h with h | ⟨-, h⟩
  · exact ⟨.direct r, OrderedMap.mem_of_lookup_eq h, rfl⟩
  · obtain ⟨⟨q, w⟩, hq, rfl⟩ := Option.map_eq_some_iff.1 h
    exact ⟨.default q, base_of_nearestDefault? hd hq⟩

theorem eq_pointer_of_fit (h : fit v t = .pointer q) : v = .pointer q := by
  cases v with
  | int n =>
    -- a number becomes a fixed address at most
    simp only [fit] at h
    split at h <;> cases h
  | loc l =>
    cases l with
    | region r => exact h
    | address n =>
      simp only [fit] at h
      split at h <;> cases h
  | _ => exact h

/-- The characters of a literal are no pointers. -/
theorem literalByte?_ne_pointer : literalByte? c r ≠ some (.pointer q) := by
  unfold literalByte?
  split
  · split
    · split
      · dsimp only
        split
        · nofun
        · split <;> nofun
      · nofun
    · nofun
  · nofun

/-- A pointer that was never written is a symbol. -/
theorem initialValue_of_pointer (h : (initialValue r t c).1 = .pointer q) :
    initialValue r t c = regionValue r t c := by
  unfold initialValue at h ⊢
  rw [bind_apply, query_apply] at h ⊢
  cases hv : literalByte? c r with
  | some v =>
    rw [hv] at h
    exact absurd (hv.trans (congrArg some h)) literalByte?_ne_pointer
  | none =>
    simp only [hv, bind_apply, query_apply] at h ⊢
    cases hs : c.space r with
    | locals f | code =>
      rw [hs] at h
      cases h
    | _ => rfl

/-- A pointer that shows a symbol points to the memory of the symbol. -/
theorem symbolic_of_shows {x : SymbolId} (h : v.Shows c x) (hv : v = .pointer q) :
    ∃ x p, c.region q = .symbolic x p := by
  rcases h with rfl | ⟨r, p, rfl, hr⟩
  · cases hv
  · cases hv
    exact ⟨x, p, hr⟩

/-- A pointer is bound as such, it is read in a snapshot, or it points to the memory of a symbol. -/
theorem retrieve_pointer_cases (ht : t.isPointer = true)
    (h : (s.retrieve (.region r) t d).1 = .pointer q) :
    s.deciding? d r = some (.pointer q) ∨
      (∃ inner source, s.deciding? d r = some (.snapshot inner source)) ∨
      ∃ x p, (s.retrieve (.region r) t d).2.region q = .symbolic x p := by
  have hscalar : t.isScalar = true := by rw [CType.isScalar, ht, Bool.or_true]
  unfold deciding?
  cases hdirect : s.direct? r with
  | some v =>
    rw [retrieve, retrieveFrom_of_direct hscalar hdirect] at h
    exact Or.inl (congrArg some (eq_pointer_of_fit h))
  | none =>
    rw [retrieve, retrieveFrom_of_default hscalar hdirect] at h ⊢
    rw [Option.none_or]
    cases hn : nearestDefault? d s.bindings.entries r with
    | none =>
      rw [hn] at h
      have hinitial : initialValue r t d = regionValue r t d := initialValue_of_pointer h
      simp only [hinitial] at h ⊢
      obtain ⟨x, hx, -⟩ := shows_scalarValue (a := .regionValue r t) hscalar d
      exact Or.inr (Or.inr (symbolic_of_shows hx h))
    | some found =>
      obtain ⟨m, v⟩ := found
      rw [hn] at h
      cases v with
      | symbol x =>
        refine Or.inr (Or.inr ?_)
        dsimp only at h ⊢
        split at h
        · next hsame =>
          rw [if_pos hsame]
          exact symbolic_of_shows (shows_symbolValue x d) h
        · next hother =>
          rw [if_neg hother]
          obtain ⟨y, hy, -⟩ := shows_scalarValue (a := .derived x r t) hscalar d
          exact symbolic_of_shows hy h
      | snapshot inner source => exact Or.inr (Or.inl ⟨inner, source, rfl⟩)
      | _ => exact Or.inl (congrArg some (eq_pointer_of_fit (t := t) h))

/-- **What is forgotten.** A request forgets the objects that it reaches through the bindings of
memory and that can change, and no others. A pointer that is read in a forgotten object, at any
pointer type and in any later catalog, is followed if memory binds it. The pointers that are not
followed are read in a snapshot, or come from an unknown whole. -/
theorem invalidate_follows_bindings (hd : d.WellFormed)
    (hle : (s.invalidateNoting request c).2 ≤ d) (hs : s.NamedIn c)
    (hregions : ∀ r ∈ request.regions, c.Has r) :
    let noted := (s.invalidateNoting request c).1.2
    s.invalidate request c =
        ((s.invalidateNoting request c).1.1, (s.invalidateNoting request c).2) ∧
      (∀ o, o ∈ noted ↔ request.Reaches s d o ∧ isImmutable d o = false) ∧
      ∀ r t q, d.base r ∈ noted → t.isPointer = true →
        (s.retrieve (.region r) t d).1 = .pointer q →
          (s.deciding? d r = some (.pointer q) ∧
              (d.base q ∈ noted ∨ isImmutable d (d.base q) = true)) ∨
            (∃ inner source, s.deciding? d r = some (.snapshot inner source)) ∨
            ∃ x p, (s.retrieve (.region r) t d).2.region q = .symbolic x p := by
  intro noted
  have hnoted : ∀ o, o ∈ noted ↔ request.Reaches s d o ∧ isImmutable d o = false := fun o =>
    mem_noted_iff hd hle hs hregions
  refine ⟨invalidateNoting_invalidates s request c, hnoted, fun r t q hr ht hq => ?_⟩
  rcases retrieve_pointer_cases ht hq with hbound | hrest
  · refine Or.inl ⟨hbound, ?_⟩
    obtain ⟨k, hk, hbase⟩ := mem_of_deciding? hd hbound
    obtain ⟨hreached, hmut⟩ := (hnoted _).1 hr
    rw [← hbase] at hreached hmut
    by_cases himm : isImmutable d (d.base q) = true
    · exact Or.inr himm
    · exact Or.inl ((hnoted _).2 ⟨.held hreached hmut hk, Bool.eq_false_iff.2 himm⟩)
  · exact Or.inr hrest

/-! ### A pointer in a structure and in its copy -/

/-- A program with the local variables `x` of type `int`, `a` and `b` of a structure type. -/
def pointerProgram : Program where
  file := ""
  vars := #[⟨"x", .int, .local, none, default⟩, ⟨"a", .struct "S", .local, none, default⟩,
    ⟨"b", .struct "S", .local, none, default⟩]
  structs := #[⟨"S", [⟨"p", .pointer .int⟩], default⟩]

/-- The variables are the regions 1 to 3; the regions 4 and 5 are the fields of `a` and `b`. -/
def pointerCatalog : Catalog where
  program := pointerProgram
  regions := .ofList
    [.space (.locals ⟨0⟩), .var ⟨0⟩ ⟨0⟩, .var ⟨1⟩ ⟨0⟩, .var ⟨2⟩ ⟨0⟩, .field ⟨⟨0⟩, 0⟩ ⟨2⟩,
      .field ⟨⟨0⟩, 0⟩ ⟨3⟩] (by decide)
  symbols := ∅

/-- Memory after `x = 7; a.p = &x; b = a`. -/
def pointerStore : Store :=
  let before := [(.direct ⟨1⟩, .int 7), (.direct ⟨4⟩, .pointer ⟨1⟩)]
  ⟨⟨[(.direct ⟨1⟩, .int 7), (.default ⟨3⟩, .snapshot before ⟨2⟩), (.direct ⟨4⟩, .pointer ⟨1⟩)]⟩⟩

/-- The variable `x` is forgotten with `a`, whose field points to it. -/
theorem invalidate_follows_field :
    let out := pointerStore.invalidateNoting (requestOf [⟨4⟩]) pointerCatalog
    out.2.WellFormed ∧ pointerStore.NamedIn pointerCatalog ∧
      (∀ r ∈ (requestOf [⟨4⟩]).regions, pointerCatalog.Has r) ∧ ⟨2⟩ ∈ out.1.2 ∧ ⟨1⟩ ∈ out.1.2 := by
  have hwf : (pointerStore.invalidateNoting (requestOf [⟨4⟩]) pointerCatalog).2.WellFormed := by
    decide +kernel
  have hs : pointerStore.NamedIn pointerCatalog := by decide
  have hregions : ∀ r ∈ (requestOf [⟨4⟩]).regions, pointerCatalog.Has r := by decide
  have hnoted := (invalidate_follows_bindings hwf le_rfl hs hregions).2.1
  have hfield : (pointerStore.invalidateNoting (requestOf [⟨4⟩]) pointerCatalog).2.base ⟨4⟩ = ⟨2⟩ ∧
      (pointerStore.invalidateNoting (requestOf [⟨4⟩]) pointerCatalog).2.base ⟨1⟩ = ⟨1⟩ := by
    decide +kernel
  -- the request is for the field, which lies in `a`; what the field holds is followed
  have ha := (hnoted ⟨2⟩).2 ⟨.root (.inl ⟨⟨4⟩, mem_cons_self, hfield.1⟩), by decide +kernel⟩
  refine ⟨hwf, hs, hregions, ha, (hnoted ⟨1⟩).2 ⟨?_, by decide +kernel⟩⟩
  have hheld := ((hnoted ⟨2⟩).1 ha).1
  rw [← hfield.1] at hheld
  have hx := hheld.held (k := .direct ⟨4⟩) (p := ⟨1⟩) (by decide +kernel) (by decide)
  rwa [hfield.2] at hx

/-- The variable `x` is not forgotten with `b`, although the field of `b` is read as a pointer to
it: `b` is a copy of `a`, and the pointer is in the snapshot only. -/
theorem invalidate_misses_snapshot :
    let out := pointerStore.invalidateNoting (requestOf [⟨5⟩]) pointerCatalog
    out.2.base ⟨5⟩ ∈ out.1.2 ∧
      (pointerStore.retrieve (.region ⟨5⟩) (.pointer .int) out.2).1 = .pointer ⟨1⟩ ∧
      out.2.base ⟨1⟩ ∉ out.1.2 ∧ isImmutable out.2 (out.2.base ⟨1⟩) = false := by
  decide +kernel

end Store

end PathScout

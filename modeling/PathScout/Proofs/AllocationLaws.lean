import PathScout.Proofs.AssumptionLaws
import PathScout.Proofs.KeptValues
import PathScout.Proofs.SymbolSources

/-!
# What checkers record about allocated memory

Only one checker records what becomes of allocated memory. If it is asked about an event, memory may
escape, or memory is forgotten that nothing leads to any more. Only calls that it evaluates allocate
memory and release it.

* `State.Escapes`, `State.Reaps`: what becomes of the records of all symbols.
* `Allocation.within_check_escapes`, `Allocation.checkDead_reaps`: events.
* `Allocation.allocate_spec`, `Allocation.release_spec`: calls.
-/

namespace PathScout

open List Naming Option OrderedMap

/-! ### Answers that a larger catalog does not change -/

section

variable {c d : Catalog} {P : Set Conjuring} {x : SymbolId} {r : RegionId} {v : Value}
  {m : Constraints}

namespace Catalog

theorem From.symbolicBase?_mono (h : c.From P (.region r)) (hcd : c ≤ d) :
    d.symbolicBase? r = c.symbolicBase? r := by
  rw [symbolicBase?, base_mono hcd h.has, region_mono hcd h.base.has, symbolicBase?]

end Catalog

theorem Constraints.assume_mono (h : v.From c P) (hcd : c ≤ d) (truth : Bool) :
    m.assume d v truth = m.assume c v truth := by
  have hloc : ∀ l : Loc, (∀ r, l = .region r → c.From P (.region r)) →
      m.assumeLoc d l truth = m.assumeLoc c l truth := by
    intro l hl
    cases l with
    | address n => rfl
    | region r =>
      have hr := hl r rfl
      simp only [assumeLoc, hr.symbolicBase?_mono hcd]
      cases hs : c.symbolicBase? r with
      | none => rfl
      | some x => exact assumeSymbol_mono hcd (hr.symbolicBase hs).hasSymbol truth
  cases v with
  | loc l | locAsInt l =>
    refine hloc l ?_
    rintro r rfl
    exact h _ mem_cons_self
  | symbol x => exact assumeSymbol_mono hcd h.symbolEntity.hasSymbol truth
  | _ => rfl

/-- Whether a value is known to be zero. -/
theorem State.zero?_mono {s : State} (h : v.From c P) (hcd : c ≤ d) : s.zero? d v = s.zero? c v := by
  simp only [State.zero?, State.assume, Constraints.assume_mono h hcd]

/-- The symbol whose memory a value points into. -/
theorem Allocation.trackedSymbol?_mono (h : v.From c P) (hcd : c ≤ d) :
    trackedSymbol? d v = trackedSymbol? c v := by
  unfold trackedSymbol?
  cases hr : v.region? with
  | none => rfl
  | some r => exact (h.region hr).symbolicBase?_mono hcd

/-- The memory of a symbol that is conjured anew is not followed yet. -/
theorem State.From.get?_heap_eq_none {s : State} {k : Conjuring} (h : s.From c P) (hk : k ∉ P) :
    s.heap.get? (symbol (.conjured k.expr k.frame k.type k.count k.tag) c).1 = none := by
  cases hget : s.heap.get? (symbol (.conjured k.expr k.frame k.type k.count k.tag) c).1 with
  | none => rfl
  | some a =>
    have hold := h _ (.allocated (mem_of_get? hget))
    have hsymbol := symbol_symbol (.conjured k.expr k.frame k.type k.count k.tag) c
    rw [Catalog.symbol_mono (grows_symbol _ c) hold.hasSymbol] at hsymbol
    refine absurd (hold.mem ?_) hk
    rw [hsymbol]
    rfl

end

namespace State

variable {s t u : State} {c : Catalog} {m : Marks} {x y : SymbolId}

@[simp] theorem heap_setAllocation (s : State) (x : SymbolId) (a : Allocation) :
    (s.setAllocation x a).heap = s.heap.insert x a := rfl

theorem get?_setAllocation (s : State) (x y : SymbolId) (a : Allocation) :
    (s.setAllocation x a).heap.get? y = if y = x then some a else s.heap.get? y := by
  rw [heap_setAllocation, get?_insert]

theorem get?_dropAllocation (s : State) (x y : SymbolId) :
    (s.dropAllocation x).heap.get? y = if y = x then none else s.heap.get? y := by
  have herase : (s.dropAllocation x).heap = s.heap.filter fun k _ => compare x k != .eq := rfl
  rw [herase, get?_filter]
  by_cases hyx : y = x
  · have hcompare : (compare x y != .eq) = false := by simp [SymbolId.compare_eq.2 hyx.symm]
    rw [if_pos hyx, hcompare]
    rfl
  · have hcompare : compare x y ≠ .eq := fun h => hyx (SymbolId.compare_eq.1 h).symm
    simp [hyx, hcompare]

/-- Some allocated memory has escaped, and nothing else became of memory. -/
def Escapes (s t : State) : Prop :=
  ∀ x, t.heap.get? x = s.heap.get? x ∨
    ∃ origin, s.heap.get? x = some ⟨.allocated, origin⟩ ∧ t.heap.get? x = some ⟨.escaped, origin⟩

/-- Memory of dead symbols is forgotten, and nothing else became of memory. -/
def Reaps (c : Catalog) (m : Marks) (s t : State) : Prop :=
  ∀ x, t.heap.get? x = s.heap.get? x ∨ t.heap.get? x = none ∧ m.isLiveSymbol c x = false

theorem escapes_of_heap (h : t.heap = s.heap) : s.Escapes t := fun x => .inl (by rw [h])

theorem Escapes.trans (h : s.Escapes t) (h' : t.Escapes u) : s.Escapes u := by
  intro x
  rcases h x with hx | ⟨origin, hs, ht⟩
  · rw [← hx]
    exact h' x
  · rcases h' x with hx | ⟨origin', ht', hu⟩
    · exact .inr ⟨origin, hs, hx.trans ht⟩
    · cases ht.symm.trans ht'

theorem reaps_of_heap (h : t.heap = s.heap) : Reaps c m s t := fun x => .inl (by rw [h])

theorem Reaps.trans (h : Reaps c m s t) (h' : Reaps c m t u) : Reaps c m s u := by
  intro x
  rcases h' x with hx | hx
  · rw [hx]
    exact h x
  · exact .inr hx

theorem reaps_dropAllocation (h : m.isLiveSymbol c x = false) : Reaps c m s (s.dropAllocation x) := by
  intro y
  rw [get?_dropAllocation]
  by_cases hyx : y = x
  · rw [if_pos hyx, hyx]
    exact .inr ⟨rfl, h⟩
  · exact .inl (if_neg hyx)

end State

namespace Allocation

variable {scene : Scene} {s t : State} {c : Catalog} {m : Marks} {call : CallEvent}

/-! ### Escaping -/

theorem escapes_escapeSymbol (s : State) (x : SymbolId) : s.Escapes (escapeSymbol s x) := by
  unfold escapeSymbol
  split
  · next origin horigin =>
    intro y
    rw [State.get?_setAllocation]
    by_cases hyx : y = x
    · subst hyx
      exact .inr ⟨origin, horigin, if_pos rfl⟩
    · exact .inl (if_neg hyx)
  · exact State.escapes_of_heap rfl

theorem escapes_escapeValue (c : Catalog) (s : State) (v : Value) : s.Escapes (escapeValue c s v) := by
  unfold escapeValue
  split
  · exact escapes_escapeSymbol s _
  · exact State.escapes_of_heap rfl

theorem escapes_foldl {α : Type} {step : State → α → State}
    (hstep : ∀ (s : State) (x : α), s.Escapes (step s x))
    (xs : List α) (s : State) : s.Escapes (xs.foldl step s) := by
  induction xs generalizing s with
  | nil => exact State.escapes_of_heap rfl
  | cons x xs ih => exact (hstep s x).trans (ih (step s x))

theorem escapes_escapeCall (c : Catalog) (s : State) (call : CallEvent) :
    s.Escapes (escapeCall c s call) :=
  (escapes_foldl (escapes_escapeValue c) _ s).trans (escapes_foldl escapes_escapeSymbol _ _)

/-! ### Forgetting -/

theorem reaps_foldl {dead : List (SymbolId × Allocation)}
    (hdead : ∀ e ∈ dead, m.isLiveSymbol c e.1 = false) (s : State) :
    State.Reaps c m s (dead.foldl (fun s e => s.dropAllocation e.1) s) := by
  induction dead generalizing s with
  | nil => exact State.reaps_of_heap rfl
  | cons e dead ih =>
    have hfirst : State.Reaps c m s (s.dropAllocation e.1) :=
      State.reaps_dropAllocation (hdead e mem_cons_self)
    exact hfirst.trans (ih (fun e' he' => hdead e' (mem_cons_of_mem e he')) _)

/-- **Dead memory is forgotten.** Neither values nor memory contents change. -/
theorem checkDead_reaps (scene : Scene) (m : Marks) (c : Catalog) :
    (checkDead scene m c).1.Within fun t => State.Reaps c m scene.state t ∧
      t.env = scene.state.env ∧ t.store = scene.state.store := by
  have hdead : ∀ e ∈ deadAllocations scene.state c m, m.isLiveSymbol c e.1 = false := by
    intro e he
    simpa using (List.mem_filter.1 he).2
  have hsame : ∀ (dead : List (SymbolId × Allocation)) (s : State),
      (dead.foldl (fun s e => s.dropAllocation e.1) s).env = s.env ∧
        (dead.foldl (fun s e => s.dropAllocation e.1) s).store = s.store := by
    intro dead
    induction dead with
    | nil => exact fun s => ⟨rfl, rfl⟩
    | cons e dead ih => exact fun s => ih (s.dropAllocation e.1)
  have hrest := And.intro (reaps_foldl hdead scene.state)
    (hsame (deadAllocations scene.state c m) scene.state)
  unfold checkDead
  rw [Naming.bind_apply, Naming.query_apply, Naming.bind_apply, Naming.ite_apply]
  split <;> exact hrest

/-! ### Events -/

/-- The event is not that symbols are dead. -/
def Lively : Event → Prop
  | .dead _ => False
  | _ => True

/-- **Memory escapes** when a call ends or something is written, and nothing else becomes of it. -/
theorem within_check_escapes {event : Event} (h : Lively event) :
    (check event scene c).1.Within scene.state.Escapes := by
  have hrefl : scene.state.Escapes scene.state := State.escapes_of_heap rfl
  have huse : ∀ v span, ((checkUse scene c v span).getD .pass).Within scene.state.Escapes := by
    intro v span
    refine within_getD fun verdict hv => ?_
    obtain ⟨x, -, rfl⟩ := map_eq_some_iff.1 hv
    exact hrefl
  cases event with
  | callBegins call =>
    show (checkArgs scene c call).Within _
    unfold checkArgs
    split
    · trivial
    · refine within_getD fun verdict hv => ?_
      obtain ⟨⟨v, i⟩, -, hv⟩ := exists_of_findSome?_eq_some hv
      obtain ⟨x, -, rfl⟩ := map_eq_some_iff.1 hv
      exact hrefl
  | callEnds call =>
    show ((if call.conservative then _ else _ : Naming Verdict) c).1.Within _
    rw [ite_apply]
    split
    · exact escapes_escapeCall c scene.state call
    · trivial
  | access location place => exact huse _ _
  | write location value span =>
    unfold check
    dsimp only
    cases location.region? with
    | none => trivial
    | some r =>
      show Verdict.Within _ (if c.hasStackStorage r then Verdict.pass else _)
      split
      · trivial
      · exact escapes_escapeValue c scene.state value
  | dead => cases h
  | element | condition | functionEnds => trivial

/-- The checker has nothing to say to the beginning of a call that releases memory. -/
theorem check_callBegins_free (scene : Scene) (h : call.name = "free") (c : Catalog) :
    check (.callBegins call) scene c = (.pass, c) := by
  show (checkArgs scene c call, c) = _
  rw [checkArgs, if_pos h]

/-! ### Calls -/

/-- **Allocating.** The call gets the memory of a symbol of its own. -/
theorem allocate_spec (scene : Scene) (call : CallEvent) (zeroed : Bool) (c : Catalog) :
    ∃ x t, (allocate scene call zeroed c).1 = .proceed t ∧
      x = (symbol (.conjured call.expr call.frame (c.program.expr call.expr).type scene.visits
        none) c).1 ∧ t.heap = scene.state.heap.insert x ⟨.allocated, call.expr⟩ := by
  refine ⟨_, _, rfl, rfl, ?_⟩
  cases zeroed with
  | false => rfl
  | true => rfl

/-- The symbol whose memory a call releases, if it is given a pointer into some. -/
def releasedBy? (c : Catalog) (call : CallEvent) : Option SymbolId :=
  call.args.head?.bind (trackedSymbol? c)

/-- **Releasing.** A path goes on in the same state only where nothing is released, because null is or
what is not known to be memory. It ends where memory was released before. -/
theorem release_spec (scene : Scene) (c : Catalog) (call : CallEvent) :
    (release scene c call = .pass ∧ ∀ x, releasedBy? c call = some x →
      ∃ v, call.args.head? = some v ∧ scene.state.zero? c v = some true) ∨
    (∃ findings, release scene c call = .stop scene.state findings) ∨
    (∃ x origin, releasedBy? c call = some x ∧
      release scene c call = .proceed (scene.state.setAllocation x ⟨.released, origin⟩) ∧
      ((scene.state.heap.get? x = none ∧ origin = call.expr) ∨
        ∃ kind, kind ≠ .released ∧ scene.state.heap.get? x = some ⟨kind, origin⟩)) := by
  unfold release releasedBy?
  cases hargs : call.args.head? with
  | none => exact .inl ⟨rfl, fun x hx => by cases hx⟩
  | some v =>
    dsimp only [bind_some]
    split
    · next hpass =>
      refine .inl ⟨rfl, fun x hx => ⟨v, rfl, ?_⟩⟩
      simp only [Bool.or_eq_true, beq_iff_eq] at hpass
      rcases hpass with (hunknown | hundefined) | hnull
      · cases v with
        | unknown => cases hx
        | _ => cases hunknown
      · cases v with
        | undefined => cases hx
        | _ => cases hundefined
      · exact hnull
    · unfold trackedSymbol?
      cases hregion : v.region? with
      | none => exact .inl ⟨rfl, fun x hx => by cases hx⟩
      | some r =>
        dsimp only [bind_some]
        cases hbase : c.region (c.base r) with
        | symbolic x space =>
          have hx : c.symbolicBase? r = some x := by
            unfold Catalog.symbolicBase?
            rw [hbase]
          dsimp only
          cases hheap : scene.state.heap.get? x with
          | none => exact .inr (.inr ⟨x, call.expr, hx, rfl, .inl ⟨hheap, rfl⟩⟩)
          | some a =>
            obtain ⟨kind, origin⟩ := a
            cases kind with
            | released => exact .inr (.inl ⟨_, rfl⟩)
            | allocated | escaped => exact .inr (.inr ⟨x, origin, hx, rfl, .inr ⟨_, by decide, hheap⟩⟩)
        | _ => exact .inr (.inl ⟨_, rfl⟩)

/-- The function that releases memory is always evaluated. -/
theorem evalCall?_free (scene : Scene) (h : call.name = "free") (c : Catalog) :
    (evalCall? scene call c).1 = some (release scene c call) := by
  unfold evalCall?
  rw [h]
  rfl

/-- **Which functions are evaluated**, and how. -/
theorem evalCall?_cases {verdict : Verdict} (h : (evalCall? scene call c).1 = some verdict) :
    (call.name = "free" ∧ verdict = release scene c call) ∨
    ((call.name = "malloc" ∨ call.name = "calloc") ∧
      ∃ zeroed, verdict = (allocate scene call zeroed c).1) ∨
    (call.name = "alloca" ∧ verdict.Within fun t => t.heap = scene.state.heap) := by
  generalize hact : evalCall? scene call = act at h
  unfold evalCall? at hact
  split at hact
  · next hname =>
    subst hact
    exact .inr (.inl ⟨.inl hname, false, (some.inj h).symm⟩)
  · next hname =>
    subst hact
    exact .inr (.inl ⟨.inr hname, true, (some.inj h).symm⟩)
  · next hname =>
    subst hact
    exact .inl ⟨hname, (some.inj h).symm⟩
  · next hname =>
    subst hact
    refine .inr (.inr ⟨hname, ?_⟩)
    rw [← some.inj h]
    exact rfl
  · subst hact
    cases h

end Allocation

end PathScout

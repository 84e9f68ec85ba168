import PathScout.Proofs.QuietActions

/-!
# Where symbols come from

A conjured symbol is told apart by the expression, the frame and the count that it was made for. A
state is about some regions and symbols, and these are made of others. What all of them have in
common is said for a set of conjured symbols: no other one occurs in a state, however deep.

* `Entity`, `Catalog.refs`: a region or a symbol, and what it refers to.
* `Catalog.Mentions`, `State.Mentions`: what occurs in a region, a symbol or a state.
* `Catalog.From`, `Value.From`, `State.From`: all conjured symbols that occur are of a set.
* `State.From.mem_of_mentions`: what this says of a symbol that occurs.
-/

namespace PathScout

open List OrderedMap

/-! ### What refers to what -/

/-- A region or a symbol. -/
inductive Entity where
  | region (r : RegionId)
  | symbol (s : SymbolId)

/-- What a conjured symbol is told apart by. -/
structure Conjuring where
  expr : ExprId
  frame : FrameId
  type : CType
  count : Nat
  tag : Option RegionId

/-- What tells a symbol apart, if it was conjured. -/
def Symbol.conjuring? : Symbol → Option Conjuring
  | conjured e f t n tag => some ⟨e, f, t, n, tag⟩
  | _ => none

/-- The symbol that a region is about: the one that points to it, or that gives its position. -/
def Region.symbol? : Region → Option SymbolId
  | symbolic s _ | element _ (.symbolic s) _ => some s
  | _ => none

/-- The regions and symbols that a region refers to. -/
def Region.refs (a : Region) : List Entity :=
  (a.symbol?.map Entity.symbol).toList ++ (a.parent?.map Entity.region).toList

/-- The regions and symbols that a symbol refers to. -/
def Symbol.refs : Symbol → List Entity
  | regionValue r _ => [.region r]
  | conjured _ _ _ _ tag => (tag.map Entity.region).toList
  | derived p r _ => [.symbol p, .region r]
  | symInt l _ _ _ => [.symbol l]
  | intSym _ _ r _ => [.symbol r]
  | symSym l _ r _ => [.symbol l, .symbol r]

namespace Catalog

/-- What a region or a symbol refers to. -/
def refs (c : Catalog) : Entity → List Entity
  | .region r => (c.region r).refs
  | .symbol s => (c.symbol s).refs

/-- What a region or a symbol refers to, directly or not, and itself. -/
inductive Mentions (c : Catalog) : Entity → Entity → Prop where
  | self {x : Entity} : Mentions c x x
  | ref {x y z : Entity} : y ∈ c.refs x → Mentions c y z → Mentions c x z

/-- The region or symbol has a number, and all conjured symbols that it mentions are of the set. -/
inductive From (c : Catalog) (P : Set Conjuring) : Entity → Prop where
  | region {r : RegionId} : c.Has r → (∀ x ∈ (c.region r).refs, From c P x) → From c P (.region r)
  | symbol {s : SymbolId} : c.HasSymbol s → (∀ k, (c.symbol s).conjuring? = some k → k ∈ P) →
    (∀ x ∈ (c.symbol s).refs, From c P x) → From c P (.symbol s)

variable {c d : Catalog} {P Q : Set Conjuring} {x y : Entity} {r q p : RegionId} {s : SymbolId}

namespace From

theorem mono (h : c.From P x) (hcd : c ≤ d) : d.From P x := by
  induction h with
  | region hr _ ih =>
    refine .region (hr.mono hcd) fun x hx => ?_
    rw [region_mono hcd hr] at hx
    exact ih x hx
  | symbol hs hk _ ih =>
    refine .symbol (hs.mono hcd) ?_ fun x hx => ?_
    · rwa [symbol_mono hcd hs]
    · rw [symbol_mono hcd hs] at hx
      exact ih x hx

theorem subset (h : c.From P x) (hPQ : P ⊆ Q) : c.From Q x := by
  induction h with
  | region hr _ ih => exact .region hr ih
  | symbol hs hk _ ih => exact .symbol hs (fun k h => hPQ (hk k h)) ih

theorem ref (h : c.From P x) (hy : y ∈ c.refs x) : c.From P y := by
  cases h with
  | region _ h | symbol _ _ h => exact h y hy

theorem mentions (h : c.From P x) (hy : c.Mentions x y) : c.From P y := by
  induction hy with
  | self => exact h
  | ref hy _ ih => exact ih (h.ref hy)

theorem mem {k : Conjuring} (h : c.From P (.symbol s)) (hk : (c.symbol s).conjuring? = some k) :
    k ∈ P := by
  cases h with
  | symbol _ h _ => exact h k hk

theorem has (h : c.From P (.region r)) : c.Has r := by
  cases h with
  | region h _ => exact h

theorem hasSymbol (h : c.From P (.symbol s)) : c.HasSymbol s := by
  cases h with
  | symbol h _ _ => exact h

theorem parent (h : c.From P (.region r)) (hp : (c.region r).parent? = some p) : c.From P (.region p) :=
  h.ref (mem_append_right _ (by rw [hp]; exact mem_cons_self))

theorem symbolOf (h : c.From P (.region r)) (hs : (c.region r).symbol? = some s) :
    c.From P (.symbol s) :=
  h.ref (mem_append_left _ (by rw [hs]; exact mem_cons_self))

theorem of_mem_chain (h : c.From P (.region r)) (hq : q ∈ c.chain r) : c.From P (.region q) := by
  induction r using chain_induction c with
  | top r hr =>
    rw [chain_of_none hr, mem_singleton] at hq
    exact hq ▸ h
  | inner r p hr ih =>
    rw [chain_of_some hr] at hq
    rcases mem_cons.1 hq with rfl | hq
    · exact h
    · exact ih (h.parent (parent?_of_enclosing? hr)) hq

theorem base (h : c.From P (.region r)) : c.From P (.region (c.base r)) := by
  unfold Catalog.base
  cases hd : (c.chain r).dropWhile fun q => (c.region q).isPart with
  | nil => exact h
  | cons q rest =>
    have hq : q ∈ (c.chain r).dropWhile fun q => (c.region q).isPart := hd ▸ mem_cons_self
    exact h.of_mem_chain ((dropWhile_suffix _).subset hq)

theorem symbolicBase (h : c.From P (.region r)) (hs : c.symbolicBase? r = some s) :
    c.From P (.symbol s) := by
  obtain ⟨p, hp⟩ : ∃ p, c.region (c.base r) = .symbolic s p := by
    unfold symbolicBase? at hs
    split at hs
    · next p hp =>
      cases hs
      exact ⟨_, hp⟩
    · cases hs
  exact h.base.symbolOf (by rw [hp]; rfl)

end From

end Catalog

/-! ### Values and states -/

namespace Value

mutual

/-- The regions and symbols in a value. -/
def entities : Value → List Entity
  | .loc (.region r) | .locAsInt (.region r) => [.region r]
  | .symbol s => [.symbol s]
  | .snapshot bindings r => .region r :: bindingEntities bindings
  | .loc (.address _) | .locAsInt (.address _) | .undefined | .unknown | .int _ => []

/-- The regions and symbols in some bindings. -/
def bindingEntities : List (BindingKey × Value) → List Entity
  | [] => []
  | (k, v) :: rest => .region k.region :: (entities v ++ bindingEntities rest)

end

theorem mem_bindingEntities {bindings : List (BindingKey × Value)} {x : Entity} :
    x ∈ bindingEntities bindings ↔ ∃ e ∈ bindings, x = .region e.1.region ∨ x ∈ e.2.entities := by
  induction bindings with
  | nil => simp [bindingEntities]
  | cons e rest ih => simp [bindingEntities, ih, or_assoc]

/-- All conjured symbols in the value are of the set. -/
def From (v : Value) (c : Catalog) (P : Set Conjuring) : Prop := ∀ x ∈ v.entities, c.From P x

variable {c d : Catalog} {P Q : Set Conjuring} {v : Value} {r : RegionId} {s : SymbolId}
  {bindings : List (BindingKey × Value)}

theorem From.mono (h : v.From c P) (hcd : c ≤ d) : v.From d P := fun x hx => (h x hx).mono hcd

theorem From.subset (h : v.From c P) (hPQ : P ⊆ Q) : v.From c Q := fun x hx => (h x hx).subset hPQ

theorem from_of_nil (h : v.entities = []) : v.From c P := fun x hx => by
  rw [h] at hx
  cases hx

theorem from_pointer (h : c.From P (.region r)) : (pointer r).From c P := fun x hx => by
  rw [mem_singleton.1 hx]
  exact h

theorem from_symbol (h : c.From P (.symbol s)) : (symbol s).From c P := fun x hx => by
  rw [mem_singleton.1 hx]
  exact h

theorem From.symbolEntity (h : (symbol s).From c P) : c.From P (.symbol s) := h _ mem_cons_self

theorem From.region (h : v.From c P) (hr : v.region? = some r) : c.From P (.region r) := by
  unfold region? at hr
  split at hr
  · cases hr
    exact h _ mem_cons_self
  · cases hr

/-- All conjured symbols in the bindings are of the set. -/
def BindingsFrom (bindings : List (BindingKey × Value)) (c : Catalog) (P : Set Conjuring) : Prop :=
  ∀ e ∈ bindings, c.From P (.region e.1.region) ∧ e.2.From c P

theorem BindingsFrom.mono (h : BindingsFrom bindings c P) (hcd : c ≤ d) :
    BindingsFrom bindings d P := fun e he => ⟨(h e he).1.mono hcd, (h e he).2.mono hcd⟩

theorem from_snapshot :
    (snapshot bindings r).From c P ↔ c.From P (.region r) ∧ BindingsFrom bindings c P := by
  constructor
  · intro h
    refine ⟨h _ mem_cons_self, fun e he => ⟨?_, fun x hx => ?_⟩⟩
    · exact h _ (mem_cons_of_mem _ (mem_bindingEntities.2 ⟨e, he, .inl rfl⟩))
    · exact h _ (mem_cons_of_mem _ (mem_bindingEntities.2 ⟨e, he, .inr hx⟩))
  · rintro ⟨hr, hb⟩ x hx
    rcases mem_cons.1 hx with rfl | hx
    · exact hr
    · obtain ⟨e, he, rfl | hx⟩ := mem_bindingEntities.1 hx
      · exact (hb e he).1
      · exact (hb e he).2 x hx

theorem entities_ofInt (n : Int) (t : CType) : (ofInt n t).entities = [] := by
  unfold ofInt
  split <;> rfl

theorem entities_foldInts (op : BinaryOp) (l r : Int) (t : CType) :
    (foldInts op l r t).entities = [] := by
  unfold foldInts
  cases op with
  | div | rem | shl | shr =>
    dsimp only
    split <;> rfl
  | _ => rfl

theorem entities_compareRegions (c : Catalog) (op : BinaryOp) (a b : RegionId) :
    (Naming.compareRegions c op a b).entities = [] := by
  unfold Naming.compareRegions
  dsimp only
  split
  · exact entities_foldInts _ _ _ _
  · split
    · split
      · rfl
      · split <;> rfl
    · split
      · exact entities_foldInts _ _ _ _
      · rfl

theorem entities_pointerDiff (c : Catalog) (l r : Value) : (pointerDiff c l r).entities = [] := by
  unfold pointerDiff
  split
  · split
    · rfl
    · split
      · split <;> rfl
      · rfl
  · rfl
  · split <;> rfl

theorem entities_locAsInt (l : Loc) : (locAsInt l).entities = (loc l).entities := by
  cases l <;> rfl

theorem From.fit (h : v.From c P) (t : CType) : (Store.fit v t).From c P := by
  unfold Store.fit
  split
  · split
    · exact from_of_nil rfl
    · exact h
  · split
    · exact from_of_nil rfl
    · exact h
  · exact h

theorem From.cast (h : v.From c P) (source target : CType) : (v.cast source target).From c P := by
  unfold Value.cast
  split
  · exact from_of_nil rfl
  · split
    · exact h
    · split
      · split <;> exact from_of_nil rfl
      · split
        · exact fun x hx => h x (entities_locAsInt _ ▸ hx)
        · exact h
      iterate 2
        · split
          · exact from_of_nil rfl
          · exact h
      · split
        · exact fun x hx => h x (entities_locAsInt _ ▸ hx)
        · exact h
      · exact h

end Value

/-- All conjured symbols in memory are of the set. -/
def Store.From (s : Store) (c : Catalog) (P : Set Conjuring) : Prop :=
  Value.BindingsFrom s.bindings.entries c P

/-- The regions and symbols that a state is about: in memory, in the values of expressions, among
the symbols that something is known of, and among those whose memory is followed. -/
inductive State.Holds (s : State) : Entity → Prop where
  | place {e : BindingKey × Value} : e ∈ s.store.bindings.entries → Holds s (.region e.1.region)
  | stored {e : BindingKey × Value} {x : Entity} : e ∈ s.store.bindings.entries →
    x ∈ e.2.entities → Holds s x
  | value {e : EnvKey × Value} {x : Entity} : e ∈ s.env.entries → x ∈ e.2.entities → Holds s x
  | constrained {e : SymbolId × RangeSet} : e ∈ s.constraints.entries → Holds s (.symbol e.1)
  | allocated {e : SymbolId × Allocation} : e ∈ s.heap.entries → Holds s (.symbol e.1)

/-- The symbol occurs in the state: the state is about something that mentions it. -/
def State.Mentions (s : State) (c : Catalog) (x : SymbolId) : Prop :=
  ∃ y, s.Holds y ∧ c.Mentions y (.symbol x)

/-- All conjured symbols that occur in the state are of the set. -/
def State.From (s : State) (c : Catalog) (P : Set Conjuring) : Prop := ∀ x, s.Holds x → c.From P x

namespace OrderedMap

variable {κ ν : Type} [Ord κ] {k : κ} {v : ν} {e : κ × ν} {m : OrderedMap κ ν}

theorem mem_insert (h : e ∈ (m.insert k v).entries) : e = (k, v) ∨ e ∈ m.entries := by
  obtain ⟨entries⟩ := m
  have hput : ∀ es : List (κ × ν), e ∈ put k v es → e = (k, v) ∨ e ∈ es := by
    intro es
    induction es with
    | nil => exact fun h => .inl (mem_singleton.1 h)
    | cons first rest ih =>
      intro h
      rw [put] at h
      split at h
      · exact mem_cons.1 h
      · exact (mem_cons.1 h).imp_right (mem_cons_of_mem _)
      · rcases mem_cons.1 h with h | h
        · exact .inr (h ▸ mem_cons_self)
        · exact (ih h).imp_right (mem_cons_of_mem _)
  exact hput entries h

theorem mem_of_get? [LawfulKey κ] (h : m.get? k = some v) : (k, v) ∈ m.entries := mem_of_lookup_eq h

end OrderedMap

namespace State

variable {c d : Catalog} {P Q : Set Conjuring} {s : State} {v : Value} {f : FrameId} {e : ExprId}
  {x : SymbolId}

theorem From.mono (h : s.From c P) (hcd : c ≤ d) : s.From d P := fun x hx => (h x hx).mono hcd

theorem From.subset (h : s.From c P) (hPQ : P ⊆ Q) : s.From c Q := fun x hx => (h x hx).subset hPQ

/-- A conjured symbol that occurs in the state is of the set. -/
theorem From.mem_of_mentions (h : s.From c P) (hx : s.Mentions c x) {k : Conjuring}
    (hk : (c.symbol x).conjuring? = some k) : k ∈ P := by
  obtain ⟨y, hy, hyx⟩ := hx
  exact ((h y hy).mentions hyx).mem hk

theorem from_empty : State.From {} c P := fun x hx => by
  cases hx <;> contradiction

theorem From.memory (h : s.From c P) : s.store.From c P :=
  fun _ he => ⟨h _ (.place he), fun x hx => h x (.stored he hx)⟩

section

variable (h : s.From c P)
include h

/-- A state with other memory. -/
theorem From.withStore {store : Store} (hs : store.From c P) :
    State.From { s with store := store } c P :=
  fun x hx => by
    cases hx with
    | place he => exact (hs _ he).1
    | stored he hx => exact (hs _ he).2 x hx
    | value he hx => exact h x (.value he hx)
    | constrained he => exact h _ (.constrained he)
    | allocated he => exact h _ (.allocated he)

theorem From.value (f : FrameId) (e : ExprId) : (s.value f e).From c P := by
  unfold State.value
  cases hv : s.env.get? (.expr f e) with
  | none => exact Value.from_of_nil rfl
  | some v => exact fun x hx => h x (.value (mem_of_get? hv) hx)

theorem From.bindEnv {k : EnvKey} (hv : v.From c P) :
    State.From { s with env := s.env.insert k v } c P := fun x hx => by
  cases hx with
  | place he => exact h _ (.place he)
  | stored he hx => exact h x (.stored he hx)
  | value he hx =>
    rcases mem_insert he with rfl | he
    · exact hv x hx
    · exact h x (.value he hx)
  | constrained he => exact h _ (.constrained he)
  | allocated he => exact h _ (.allocated he)

theorem From.bindExpr (hv : v.From c P) : (s.bindExpr f e v).From c P := h.bindEnv hv

theorem From.bindResult (hv : v.From c P) : (s.bindResult f v).From c P := h.bindEnv hv

/-- A state in which values of expressions are forgotten. -/
theorem From.filterEnv (keep : EnvKey → Value → Bool) :
    State.From { s with env := s.env.filter keep } c P := fun x hx => by
  cases hx with
  | place he => exact h _ (.place he)
  | stored he hx => exact h x (.stored he hx)
  | value he hx => exact h x (.value (mem_filter.1 he).1 hx)
  | constrained he => exact h _ (.constrained he)
  | allocated he => exact h _ (.allocated he)

theorem From.clearExprs (f : FrameId) : (s.clearExprs f).From c P := h.filterEnv _

theorem From.popFrame (caller callee : FrameId) (e : ExprId) :
    (Exploring.popFrame s caller callee e).From c P := by
  have hresult : ((s.result? callee).getD .unknown).From c P := by
    cases hv : s.result? callee with
    | none => exact Value.from_of_nil rfl
    | some v => exact fun x hx => h x (.value (mem_of_get? hv) hx)
  exact (h.bindExpr hresult).filterEnv _

theorem From.removeDead (d : Catalog) (m : Marks) : (s.removeDead d m).From c P :=
  fun x hx => by
    cases hx with
    | place he => exact h _ (.place (mem_filter.1 he).1)
    | stored he hx => exact h x (.stored (mem_filter.1 he).1 hx)
    | value he hx => exact h x (.value he hx)
    | constrained he => exact h _ (.constrained (mem_filter.1 he).1)
    | allocated he => exact h _ (.allocated he)

theorem From.setAllocation (hx : c.From P (.symbol x)) (a : Allocation) :
    (s.setAllocation x a).From c P := fun y hy => by
  cases hy with
  | place he => exact h _ (.place he)
  | stored he hy => exact h y (.stored he hy)
  | value he hy => exact h y (.value he hy)
  | constrained he => exact h _ (.constrained he)
  | allocated he =>
    rcases mem_insert he with rfl | he
    · exact hx
    · exact h _ (.allocated he)

theorem From.dropAllocation (x : SymbolId) : (s.dropAllocation x).From c P :=
  fun y hy => by
    cases hy with
    | place he => exact h _ (.place he)
    | stored he hy => exact h y (.stored he hy)
    | value he hy => exact h y (.value he hy)
    | constrained he => exact h _ (.constrained he)
    | allocated he => exact h _ (.allocated (mem_filter.1 he).1)

end

end State

end PathScout

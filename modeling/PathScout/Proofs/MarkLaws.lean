import PathScout.Proofs.ReachLaws

/-!
# What is live

Marking is complete: whatever is marked, leads to marked things only. Liveness asks for older
regions and symbols, so it does not change when the catalog grows.

* `Catalog.Ordered`: regions and symbols refer to older ones only. Naming keeps it so.
* `Catalog.dependencies_spec`: a symbol and all that it is made of are found.
* `Marks.isLiveSymbol_mono`, `Marks.isLiveRegion_mono`: liveness in a larger catalog.
* `Marks.Closed`, `Marks.Covers`: nothing that marked things or a value lead to is missing.
* `Marks.covers_markReachable`: all that live objects and the environment hold is covered.
-/

namespace PathScout

open Catalog Naming List

/-! ### Order -/

/-- The region whose first contents, or whose part of a whole, a symbol stands for. -/
def Symbol.place? : Symbol → Option RegionId
  | regionValue r _ | derived _ r _ => some r
  | _ => none

/-- Repeated operands are met once. -/
theorem Symbol.nodup_operands (a : Symbol) : a.operands.eraseDups.Nodup := by
  cases a with
  | symSym l op r t =>
    by_cases h : r = l <;> simp [operands, eraseDups_cons, h, Ne.symm]
  | _ => simp [operands, eraseDups_cons]

namespace Catalog

variable {c : Catalog} {r p : RegionId} {x y s : SymbolId}

/-- Everything in the catalog refers to what was named before it: parts to what encloses them,
symbols to their operands, unknown memory to the symbol that points to it, and a symbol to the
region that it is about and to the symbol whose memory that region is. -/
structure Ordered (c : Catalog) : Prop where
  wellFormed : c.WellFormed
  layered : c.Layered
  memory {r p : RegionId} {s : SymbolId} : c.region r = .symbolic s p → c.HasSymbol s
  place {x : SymbolId} {r : RegionId} : c.HasSymbol x → (c.symbol x).place? = some r → c.Has r
  behind {x s : SymbolId} {r : RegionId} : c.HasSymbol x → (c.symbol x).place? = some r →
    c.symbolicBase? r = some s → s.index < x.index

theorem ordered_ofProgram (p : Program) : (ofProgram p).Ordered where
  wellFormed := wellFormed_iff.2 fun _ h => absurd h (Nat.not_lt_zero _)
  layered _ h := absurd h (Nat.not_lt_zero _)
  memory {r p s} h := by
    rw [region_of_not_has (Nat.not_lt_zero _)] at h
    cases h
  place h := absurd h (Nat.not_lt_zero _)
  behind h := absurd h (Nat.not_lt_zero _)

theorem symbolicBase?_base (hc : c.WellFormed) (r : RegionId) :
    c.symbolicBase? (c.base r) = c.symbolicBase? r := by
  rw [symbolicBase?, base_base hc, symbolicBase?]

theorem region_of_symbolicBase? (h : c.symbolicBase? r = some s) :
    ∃ p, c.region (c.base r) = .symbolic s p := by
  unfold symbolicBase? at h
  split at h
  · next p hp =>
    cases h
    exact ⟨_, hp⟩
  · cases h

namespace Ordered

variable {a : Region}

section

variable (hc : c.Ordered)
include hc

theorem hasSymbol_of_symbolicBase? (h : c.symbolicBase? r = some s) : c.HasSymbol s := by
  obtain ⟨p, hp⟩ := region_of_symbolicBase? h
  exact hc.memory hp

theorem hasSymbol_operand (hx : c.HasSymbol x) (hy : y ∈ (c.symbol x).operands) : c.HasSymbol y :=
  Nat.lt_trans (hc.layered x hx y hy) hx

/-- Naming a region in its place keeps the order. -/
theorem region (ha : Naming.Placed c a) (hs : ∀ {s p}, a = .symbolic s p → c.HasSymbol s) :
    (Naming.region a c).2.Ordered := by
  have hle : c ≤ (Naming.region a c).2 := grows_region a c
  refine ⟨wellFormed_region hc.wellFormed ha, hc.layered, fun {r p s} hr => ?_,
    fun {x r} hx hr => ?_, fun {x s r} hx hr hb => ?_⟩
  · have hhas : (Naming.region a c).2.Has r := has_of_parent? (p := p) (by rw [hr]; rfl)
    rcases Interned.get?_of_get?_intern hhas.get? with h | ⟨-, he⟩
    · have hold := has_of_get? h
      rw [region_mono hle hold] at hr
      exact hc.memory hr
    · exact hs (he.symm.trans hr)
  · exact (hc.place hx hr).mono hle
  · rw [symbolicBase?_mono hc.wellFormed hle (hc.place hx hr)] at hb
    exact hc.behind hx hr hb

/-- Naming a symbol about things that have numbers keeps the order. -/
theorem symbol {a : Symbol} (ho : ∀ y ∈ a.operands, c.HasSymbol y)
    (hr : ∀ r, a.place? = some r → c.Has r) : (Naming.symbol a c).2.Ordered := by
  have hle : c ≤ (Naming.symbol a c).2 := grows_symbol a c
  have hbase : ∀ {r}, c.Has r → (Naming.symbol a c).2.symbolicBase? r = c.symbolicBase? r :=
    fun h => symbolicBase?_mono hc.wellFormed hle h
  have hcase : ∀ x, (Naming.symbol a c).2.HasSymbol x → c.HasSymbol x ∨
      x.index = c.symbols.size ∧ (Naming.symbol a c).2.symbol x = a := fun x hx =>
    (Interned.get?_of_get?_intern hx.get?).imp Interned.lt_size_of_get? id
  refine ⟨hc.wellFormed.of_regions_eq rfl, hc.layered.symbol ho,
    fun {r p s} h => (hc.memory (r := r) (p := p) h).mono hle, fun {x r} hx hp => ?_,
    fun {x s r} hx hp hb => ?_⟩
  · rcases hcase x hx with hold | ⟨-, he⟩
    · exact (hc.place hold (symbol_mono hle hold ▸ hp)).mono hle
    · exact (hr r (he ▸ hp)).mono hle
  · rcases hcase x hx with hold | ⟨hsize, he⟩
    · have hp' := symbol_mono hle hold ▸ hp
      exact hc.behind hold hp' (hbase (hc.place hold hp') ▸ hb)
    · rw [hbase (hr r (he ▸ hp))] at hb
      exact hsize ▸ hc.hasSymbol_of_symbolicBase? hb

theorem space (s : Space) : (Naming.space s c).2.Ordered :=
  hc.region ⟨(nomatch ·), fun _ h => nomatch h⟩ (nomatch ·)

/-- Naming the memory behind a symbol keeps the order. -/
theorem symbolic (hs : c.HasSymbol s) : (symbolic s c).2.Ordered := by
  have hin : ∀ {p}, (Region.symbolic s (Naming.space .unknown c).1).parent? = some p →
      (Naming.space .unknown c).1 = p := Option.some.inj
  refine (hc.space .unknown).region ⟨fun hp => ?_, fun _ hp => ?_⟩ fun {x p} h => ?_
  · exact hin hp ▸ has_region _ _
  · rw [← hin hp, Naming.space, region_region]
    rfl
  · obtain ⟨rfl, -⟩ := Region.symbolic.inj h
    exact hs.mono (grows_space _ _)

theorem symbolValue (hs : c.HasSymbol s) : (symbolValue s c).2.Ordered := by
  unfold Naming.symbolValue
  rw [bind_apply, query_apply]
  split
  · exact hc.symbolic hs
  · exact hc

/-- Naming a part keeps the order. -/
theorem part (ha : a.isPart = true) (hp : a.parent? = some p) (h : c.Has p) :
    (Naming.region a c).2.Ordered ∧ (Naming.region a c).2.base (Naming.region a c).1 = c.base p := by
  have hd : (Naming.region a c).2.Ordered := by
    refine hc.region ⟨fun hq => ?_, fun hn _ => ?_⟩ fun he => ?_
    · rwa [← Option.some.inj (hp.symm.trans hq)]
    · rw [ha] at hn
      cases hn
    · rw [he] at ha
      cases ha
  have he := region_region a c
  have hin : (Naming.region a c).2.enclosing? (Naming.region a c).1 = some p := by
    rw [hd.wellFormed.enclosing?_eq, he, hp]
  refine ⟨hd, ?_⟩
  rw [base_of_part hd.wellFormed (by rw [he, ha]) hin, base_mono (grows_region a c) h]

end

end Ordered

/-! ### Dependencies -/

/-- The symbols are made of older ones of their kind. -/
def LayeredOn (c : Catalog) (p : SymbolId → Prop) : Prop :=
  ∀ x, p x → ∀ y ∈ (c.symbol x).operands, p y ∧ y.index < x.index

theorem Layered.layeredOn (hc : c.Layered) : c.LayeredOn c.HasSymbol := fun x hx y hy =>
  ⟨Nat.lt_trans (hc x hx y hy) hx, hc x hx y hy⟩

/-- The search finds the operands of everything that it finds, if it has a step left for each
symbol below a bound that it has not looked at. -/
theorem dependenciesFrom_spec {p : SymbolId → Prop} (hc : c.LayeredOn p) {b : Nat} (n : Nat)
    {seen queue : List SymbolId} (hseen : seen.Nodup) (hbound : ∀ y ∈ seen, p y ∧ y.index < b)
    (hqueue : ∀ y ∈ queue, y ∈ seen)
    (hdone : ∀ y ∈ seen, y ∉ queue → ∀ z ∈ (c.symbol y).operands, z ∈ seen)
    (hsteps : b + queue.length ≤ n + seen.length) :
    (∀ y ∈ seen, y ∈ c.dependenciesFrom n seen queue) ∧ ∀ y ∈ c.dependenciesFrom n seen queue, p y ∧
        ∀ z ∈ (c.symbol y).operands, z ∈ c.dependenciesFrom n seen queue := by
  induction n generalizing seen queue with
  | zero =>
    have hlen : seen.length ≤ b := by
      have hinj : (seen.map SymbolId.index).Nodup :=
        hseen.map fun x y h => by cases x; cases y; cases h; rfl
      have hsub : seen.map SymbolId.index ⊆ List.range b := fun i hi => by
        obtain ⟨y, hy, rfl⟩ := mem_map.1 hi
        exact mem_range.2 (hbound y hy).2
      simpa using (hinj.subperm hsub).length_le
    have hq : queue = [] := length_eq_zero_iff.1 (by omega)
    subst hq
    exact ⟨fun _ h => h, fun y hy => ⟨(hbound y hy).1, hdone y hy (nomatch ·)⟩⟩
  | succ n ih =>
    cases queue with
    | nil => exact ⟨fun _ h => h, fun y hy => ⟨(hbound y hy).1, hdone y hy (nomatch ·)⟩⟩
    | cons s queue =>
      obtain ⟨hs, hlt⟩ := hbound s (hqueue s mem_cons_self)
      have hops : ∀ z ∈ (c.symbol s).operands, p z ∧ z.index < b := fun z hz =>
        ⟨(hc s hs z hz).1, Nat.lt_trans (hc s hs z hz).2 hlt⟩
      rw [dependenciesFrom]
      have hfresh : ∀ z, z ∈ (c.symbol s).operands.eraseDups.filter (!seen.contains ·) ↔
          z ∈ (c.symbol s).operands ∧ z ∉ seen := fun z => by
        rw [mem_filter, mem_eraseDups, Bool.not_eq_true', Bool.eq_false_iff, Ne, contains_iff_mem]
      have hnodup : ((c.symbol s).operands.eraseDups.filter (!seen.contains ·)).Nodup :=
        (c.symbol s).nodup_operands.filter _
      generalize (c.symbol s).operands.eraseDups.filter (!seen.contains ·) = fresh at hfresh hnodup
      have hdone' : ∀ y ∈ seen ++ fresh, y ∉ queue ++ fresh →
          ∀ z ∈ (c.symbol y).operands, z ∈ seen ++ fresh := by
        intro y hy hnew z hz
        simp only [mem_append, not_or] at hy hnew
        have hseen' : y ∈ seen := hy.resolve_right hnew.2
        by_cases hys : y = s
        · subst hys
          by_cases hz' : z ∈ seen
          · exact mem_append_left _ hz'
          · exact mem_append_right _ ((hfresh z).2 ⟨hz, hz'⟩)
        · refine mem_append_left _ (hdone y hseen' (fun h => ?_) z hz)
          exact (mem_cons.1 h).elim hys hnew.1
      have hsteps' : b + (queue ++ fresh).length ≤ n + (seen ++ fresh).length := by
        simp only [length_append, length_cons] at hsteps ⊢
        omega
      obtain ⟨hkeep, hclosed⟩ := ih
        (nodup_append.2 ⟨hseen, hnodup, fun y hy z hz e => ((hfresh z).1 hz).2 (e ▸ hy)⟩)
        (fun y hy => (mem_append.1 hy).elim (hbound y) fun h => hops y ((hfresh y).1 h).1)
        (fun y hy => mem_append.2 <| (mem_append.1 hy).imp
          (fun h => hqueue y (mem_cons_of_mem _ h)) id) hdone' hsteps'
      exact ⟨fun y hy => hkeep y (mem_append_left _ hy), hclosed⟩

/-- A symbol is one of its dependencies, and so are the operands of each of them. -/
theorem dependencies_spec {p : SymbolId → Prop} (hc : c.LayeredOn p) (hx : p x) :
    x ∈ c.dependencies x ∧ ∀ y ∈ c.dependencies x, p y ∧
      ∀ z ∈ (c.symbol y).operands, z ∈ c.dependencies x := by
  have hbound : ∀ y ∈ [x], p y ∧ y.index < x.index + 1 := by
    intro y hy
    obtain rfl := mem_singleton.1 hy
    exact ⟨hx, Nat.lt_succ_self _⟩
  obtain ⟨hkeep, hclosed⟩ := dependenciesFrom_spec hc (x.index + 1) (nodup_singleton x)
    hbound (fun _ h => h) (fun _ h hn => absurd h hn) le_rfl
  exact ⟨hkeep x mem_cons_self, hclosed⟩

end Catalog

namespace Marks

variable {c d : Catalog} {m : Marks} {r q : RegionId} {x y : SymbolId}

/-! ### Liveness -/

theorem isLiveRegion_base (hc : c.WellFormed) (m : Marks) (r : RegionId) :
    m.isLiveRegion c (c.base r) = m.isLiveRegion c r := by
  unfold isLiveRegion isLiveRegionBy
  rw [base_base hc, space_base hc, symbolicBase?_base hc]

/-- The parts of an object are live together. -/
theorem isLiveRegion_congr (hc : c.WellFormed) (h : c.base q = c.base r) :
    m.isLiveRegion c q = m.isLiveRegion c r := by
  rw [← isLiveRegion_base hc, h, isLiveRegion_base hc]

theorem isLiveRegionBy_congr {f g : SymbolId → Bool} (hc : c.WellFormed) (hcd : c ≤ d)
    (hr : c.Has r) (h : ∀ s, c.symbolicBase? r = some s → f s = g s) :
    m.isLiveRegionBy d f r = m.isLiveRegionBy c g r := by
  unfold isLiveRegionBy
  rw [base_mono hcd hr, space_mono hcd hr, Catalog.symbolicBase?_mono hc hcd hr]
  cases hs : c.symbolicBase? r with
  | none => rfl
  | some s => simp only [Option.any_some, h s hs]

/-- Whether a symbol is live does not change when the catalog grows. -/
theorem isLiveSymbol_mono (hc : c.Ordered) (hcd : c ≤ d) (hx : c.HasSymbol x) :
    m.isLiveSymbol d x = m.isLiveSymbol c x := by
  induction hn : x.index using Nat.strong_induction_on generalizing x with
  | _ n ih =>
    -- both sides ask for the same older symbols
    have holder : ∀ y, c.HasSymbol y → y.index < x.index →
        (if y.index < x.index then m.isLiveSymbol d y else false) =
          if y.index < x.index then m.isLiveSymbol c y else false := fun y hy hlt => by
      rw [if_pos hlt, if_pos hlt, ih y.index (hn ▸ hlt) hy rfl]
    have hoperand : ∀ y ∈ (c.symbol x).operands,
        (if y.index < x.index then m.isLiveSymbol d y else false) =
          if y.index < x.index then m.isLiveSymbol c y else false := fun y hy =>
      holder y (hc.hasSymbol_operand hx hy) (hc.layered x hx y hy)
    have hplace : ∀ r, (c.symbol x).place? = some r →
        m.isLiveRegionBy d (fun y => if y.index < x.index then m.isLiveSymbol d y else false) r =
          m.isLiveRegionBy c (fun y => if y.index < x.index then m.isLiveSymbol c y else false) r :=
      fun r hr => isLiveRegionBy_congr hc.wellFormed hcd (hc.place hx hr) fun s hs =>
        holder s (hc.hasSymbol_of_symbolicBase? hs) (hc.behind hx hr hs)
    rw [isLiveSymbol, isLiveSymbol, symbol_mono hcd hx]
    congr 1
    cases ha : c.symbol x with
    | regionValue r t => exact hplace r (by rw [ha]; rfl)
    | conjured e f t n tag => rfl
    | derived p r t =>
      exact congrArg₂ (· || ·) (hoperand p (by simp [ha, Symbol.operands]))
        (hplace r (by rw [ha]; rfl))
    | symInt l op k t => exact hoperand l (by simp [ha, Symbol.operands])
    | intSym k op r t => exact hoperand r (by simp [ha, Symbol.operands])
    | symSym l op r t =>
      exact congrArg₂ (· && ·) (hoperand l (by simp [ha, Symbol.operands]))
        (hoperand r (by simp [ha, Symbol.operands]))

/-- Whether a region is live does not change when the catalog grows. -/
theorem isLiveRegion_mono (hc : c.Ordered) (hcd : c ≤ d) (hr : c.Has r) :
    m.isLiveRegion d r = m.isLiveRegion c r :=
  isLiveRegionBy_congr hc.wellFormed hcd hr fun _ hs =>
    isLiveSymbol_mono hc hcd (hc.hasSymbol_of_symbolicBase? hs)

theorem isLiveSymbol_of_mem (h : x ∈ m.symbols) : m.isLiveSymbol c x = true := by
  rw [isLiveSymbol, contains_iff_mem.2 h, Bool.true_or]

theorem isLiveRegion_of_symbolicBase? (h : c.symbolicBase? r = some x)
    (hx : m.isLiveSymbol c x = true) : m.isLiveRegion c r = true := by
  unfold isLiveRegion isLiveRegionBy
  rw [h, Option.any_some, hx, Bool.or_true]

/-- The symbol for what a live region held at first is live. -/
theorem isLiveSymbol_regionValue {t : CType} (hc : c.Ordered) (hx : c.HasSymbol x)
    (h : c.symbol x = .regionValue r t) (hr : m.isLiveRegion c r = true) :
    m.isLiveSymbol c x = true := by
  have hplace : (c.symbol x).place? = some r := by rw [h]; rfl
  rw [isLiveSymbol, h]
  refine Bool.or_eq_true_iff.2 (Or.inr ?_)
  exact (isLiveRegionBy_congr hc.wellFormed le_rfl (hc.place hx hplace) fun s hs =>
    if_pos (hc.behind hx hplace hs)).trans hr

/-- A symbol is live if it is made of live symbols. -/
theorem isLiveSymbol_of_operands (hc : c.Ordered) (hne : (c.symbol x).operands ≠ [])
    (h : ∀ y ∈ (c.symbol x).operands, m.isLiveSymbol c y = true) : m.isLiveSymbol c x = true := by
  have hx : c.HasSymbol x := hasSymbol_of_ne fun e => hne (e ▸ rfl)
  have hold : ∀ y ∈ (c.symbol x).operands,
      (if y.index < x.index then m.isLiveSymbol c y else false) = true := fun y hy => by
    rw [if_pos (hc.layered x hx y hy), h y hy]
  rw [isLiveSymbol]
  refine Bool.or_eq_true_iff.2 (Or.inr ?_)
  cases ha : c.symbol x with
  | regionValue r t | conjured e f t n tag => exact absurd (ha ▸ rfl) hne
  | derived p r t => exact Bool.or_eq_true_iff.2 (Or.inl (hold p (by simp [ha, Symbol.operands])))
  | symInt l op k t => exact hold l (by simp [ha, Symbol.operands])
  | intSym k op r t => exact hold r (by simp [ha, Symbol.operands])
  | symSym l op r t =>
    exact Bool.and_eq_true_iff.2 ⟨hold l (by simp [ha, Symbol.operands]),
      hold r (by simp [ha, Symbol.operands])⟩

end Marks

/-! ### What values lead to -/

namespace Value

variable {e : BindingKey × Value}

/-- The region that a value points to or is a copy of. -/
def target? : Value → Option RegionId
  | loc (.region r) | locAsInt (.region r) | snapshot _ r => some r
  | _ => none

/-- The bindings that a value captured. -/
def captured : Value → List (BindingKey × Value)
  | snapshot bindings _ => bindings
  | _ => []

/-- The second value is the first one, or is held by a region of the object that it is a copy
of. -/
inductive Contains (c : Catalog) : Value → Value → Prop where
  | self (v : Value) : Contains c v v
  | copied {v u w : Value} {r : RegionId} {k : BindingKey} : v.target? = some r →
    (k, u) ∈ v.captured → c.base k.region = c.base r → Contains c u w → Contains c v w

/-- All regions and symbols in a value have numbers. -/
inductive NamedIn (c : Catalog) : Value → Prop where
  | intro {v : Value} (target : ∀ r, v.target? = some r → c.Has r)
    (symbol : ∀ x, v.symbol? = some x → c.HasSymbol x)
    (key : ∀ e ∈ v.captured, c.Has e.1.region) (inner : ∀ e ∈ v.captured, NamedIn c e.2) :
    NamedIn c v

variable {c d : Catalog} {v w : Value}

theorem NamedIn.target (h : v.NamedIn c) {r : RegionId} (hr : v.target? = some r) : c.Has r := by
  cases h with
  | intro target => exact target r hr

theorem NamedIn.symbol (h : v.NamedIn c) {x : SymbolId} (hx : v.symbol? = some x) : c.HasSymbol x := by
  cases h with
  | intro _ symbol => exact symbol x hx

theorem NamedIn.key (h : v.NamedIn c) (he : e ∈ v.captured) : c.Has e.1.region := by
  cases h with
  | intro _ _ key => exact key e he

theorem NamedIn.inner (h : v.NamedIn c) (he : e ∈ v.captured) : e.2.NamedIn c := by
  cases h with
  | intro _ _ _ inner => exact inner e he

/-- A captured object holds the same in a larger catalog. -/
theorem Contains.of_le (h : v.Contains d w) (hcd : c ≤ d) (hv : v.NamedIn c) : v.Contains c w := by
  induction h with
  | self v => exact .self v
  | copied hr hu hbase _ ih =>
    rw [base_mono hcd (hv.key hu), base_mono hcd (hv.target hr)] at hbase
    exact .copied hr hu hbase (ih (hv.inner hu))

theorem Contains.namedIn (h : v.Contains c w) (hv : v.NamedIn c) : w.NamedIn c := by
  induction h with
  | self v => exact hv
  | copied _ hu _ _ ih => exact ih (hv.inner hu)

end Value

namespace Marks

variable {c d : Catalog} {m m' m'' : Marks} {r q : RegionId} {x y : SymbolId} {v w : Value}
  {bindings : List (BindingKey × Value)}

/-- Marked symbols have marked operands, and the memory of a symbol is marked only with the
symbol. -/
structure Closed (m : Marks) (c : Catalog) : Prop where
  has {r : RegionId} : r ∈ m.regions → c.Has r
  hasSymbol {x : SymbolId} : x ∈ m.symbols → c.HasSymbol x
  operand {x y : SymbolId} : x ∈ m.symbols → y ∈ (c.symbol x).operands → y ∈ m.symbols
  memory {r : RegionId} {x : SymbolId} : r ∈ m.regions → c.symbolicBase? r = some x →
    x ∈ m.symbols

/-- The objects and the symbols of a value are marked, also those that it captured. -/
def Covers (m : Marks) (c : Catalog) (v : Value) : Prop :=
  ∀ w, v.Contains c w → (∀ r, w.target? = some r → c.base r ∈ m.regions) ∧
    ∀ x, w.symbol? = some x → x ∈ m.symbols

/-- More is marked, and it is closed again. -/
structure Spreads (c : Catalog) (m m' : Marks) : Prop extends m.Within m' where
  closed : m'.Closed c

theorem Closed.spreads (h : m.Closed c) : Spreads c m m := ⟨.refl m, h⟩

theorem Spreads.trans (h : Spreads c m m') (h' : Spreads c m' m'') : Spreads c m m'' :=
  ⟨h.toWithin.trans h'.toWithin, h'.closed⟩

theorem closed_empty (c : Catalog) : Closed {} c where
  has h := nomatch h
  hasSymbol h := nomatch h
  operand h := nomatch h
  memory h := nomatch h

theorem Closed.mono (h : m.Closed c) (hc : c.WellFormed) (hcd : c ≤ d) : m.Closed d where
  has hr := (h.has hr).mono hcd
  hasSymbol hx := (h.hasSymbol hx).mono hcd
  operand hx hy := h.operand hx (symbol_mono hcd (h.hasSymbol hx) ▸ hy)
  memory hr hx := h.memory hr (Catalog.symbolicBase?_mono hc hcd (h.has hr) ▸ hx)

theorem Covers.spreads (h : m.Covers c v) (hm : Spreads c m m') : m'.Covers c v := fun w hw =>
  ⟨fun r hr => hm.regions _ ((h w hw).1 r hr), fun x hx => hm.symbols x ((h w hw).2 x hx)⟩

theorem Covers.mono (h : m.Covers c v) (hcd : c ≤ d) (hv : v.NamedIn c) : m.Covers d v := by
  intro w hw
  have hw' := hw.of_le hcd hv
  refine ⟨fun r hr => ?_, (h w hw').2⟩
  rw [base_mono hcd ((hw'.namedIn hv).target hr)]
  exact (h w hw').1 r hr

/-- A value without captured bindings is covered if its object and its symbol are marked. -/
theorem covers_of_captured_eq_nil (h : v.captured = [])
    (hr : ∀ r, v.target? = some r → c.base r ∈ m.regions)
    (hx : ∀ x, v.symbol? = some x → x ∈ m.symbols) : m.Covers c v := by
  intro w hw
  cases hw with
  | self => exact ⟨hr, hx⟩
  | copied _ hu =>
    rw [h] at hu
    cases hu

/-- A value that leads to nothing is covered. -/
theorem covers_of_nothing (h : v.captured = []) (hr : v.target? = none) (hx : v.symbol? = none) :
    m.Covers c v :=
  covers_of_captured_eq_nil h (fun _ h => nomatch hr.symm.trans h) fun _ h => nomatch hx.symm.trans h

/-! ### Marking -/

section

variable (hc : c.Ordered) (hm : m.Closed c)
include hc hm

theorem spreads_markSymbol (hx : c.HasSymbol x) :
    Spreads c m (m.markSymbol c x) ∧ x ∈ (m.markSymbol c x).symbols := by
  obtain ⟨hself, hdeps⟩ := dependencies_spec hc.layered.layeredOn hx
  have hmem : ∀ y, y ∈ (m.markSymbol c x).symbols ↔ y ∈ c.dependencies x ∨ y ∈ m.symbols := by
    intro y
    rw [markSymbol, mem_append, mem_filter, Bool.not_eq_true', Bool.eq_false_iff, Ne,
      contains_iff_mem]
    tauto
  refine ⟨⟨within_markSymbol m c x, hm.has, fun {y} hy => ?_, fun {y z} hy hz => ?_,
    fun hr hs => (hmem _).2 (Or.inr (hm.memory hr hs))⟩, (hmem x).2 (Or.inl hself)⟩
  · rcases (hmem y).1 hy with h | h
    · exact (hdeps y h).1
    · exact hm.hasSymbol h
  · rcases (hmem y).1 hy with h | h
    · exact (hmem z).2 (Or.inl ((hdeps y h).2 z hz))
    · exact (hmem z).2 (Or.inr (hm.operand h hz))

theorem spreads_markRegion (hr : c.Has r) : Spreads c m (m.markRegion c r) := by
  unfold markRegion
  dsimp only
  split
  · exact hm.spreads
  · -- the object is marked first, and its symbol after it
    cases hs : c.symbolicBase? (c.base r) with
    | none =>
      refine ⟨⟨fun q hq => mem_cons_of_mem _ hq, fun _ h => h⟩, fun {q} hq => ?_, hm.hasSymbol,
        hm.operand, fun {q x} hq hx => ?_⟩
      · rcases mem_cons.1 hq with rfl | hq
        · exact hr.base hc.wellFormed
        · exact hm.has hq
      · rcases mem_cons.1 hq with rfl | hq
        · rw [hs] at hx
          cases hx
        · exact hm.memory hq hx
    | some s =>
      obtain ⟨hspread, hself⟩ := spreads_markSymbol hc hm (hc.hasSymbol_of_symbolicBase? hs)
      refine ⟨⟨fun q hq => mem_cons_of_mem _ hq, hspread.symbols⟩, fun {q} hq => ?_,
        hspread.closed.hasSymbol, hspread.closed.operand, fun {q x} hq hx => ?_⟩
      · rcases mem_cons.1 hq with rfl | hq
        · exact hr.base hc.wellFormed
        · exact hm.has hq
      · rcases mem_cons.1 hq with rfl | hq
        · rw [hs] at hx
          exact Option.some.inj hx ▸ hself
        · exact hspread.symbols x (hm.memory hq hx)

/-- **Marking a value marks all that it leads to.** -/
theorem spreads_markValue (hv : v.NamedIn c) :
    Spreads c m (markValue c m v) ∧ (markValue c m v).Covers c v := by
  -- marking a snapshot marks its bindings, so both are followed together
  refine markValue.induct c (fun m v => m.Closed c → v.NamedIn c →
      Spreads c m (markValue c m v) ∧ (markValue c m v).Covers c v)
    (fun object m bindings => m.Closed c → (∀ e ∈ bindings, e.2.NamedIn c) →
      Spreads c m (markBindings c object m bindings) ∧ ∀ e ∈ bindings,
        c.base e.1.region = object → (markBindings c object m bindings).Covers c e.2)
    ?_ ?_ ?_ ?_ ?_ ?_ ?_ ?_ ?_ ?_ ?_ m v hm hv
  iterate 2
    · intro m r hm hv
      refine ⟨spreads_markRegion hc hm (hv.target rfl), covers_of_captured_eq_nil rfl
        (fun q hq => Option.some.inj hq ▸ mem_markRegion m c r) fun x hx => ?_⟩
      cases hx
  · intro m s hm hv
    obtain ⟨hspread, hself⟩ := spreads_markSymbol hc hm (hv.symbol rfl)
    refine ⟨hspread, covers_of_captured_eq_nil rfl (fun q hq => ?_)
      fun x hx => Option.some.inj hx ▸ hself⟩
    cases hq
  · intro m bindings r ih hm hv
    have hregion := spreads_markRegion hc hm (hv.target rfl)
    obtain ⟨hspread, hcovers⟩ := ih hregion.closed fun e he => hv.inner he
    refine ⟨hregion.trans hspread, fun w hw => ?_⟩
    cases hw with
    | self =>
      refine ⟨fun q hq => Option.some.inj hq ▸ hspread.regions _ (mem_markRegion m c r), fun x hx => ?_⟩
      cases hx
    | copied hr hu hbase hw =>
      obtain rfl := Option.some.inj hr
      exact hcovers _ hu hbase w hw
  iterate 2
    · exact fun m n hm _ => ⟨hm.spreads, covers_of_nothing rfl rfl rfl⟩
  iterate 2
    · exact fun m hm _ => ⟨hm.spreads, covers_of_nothing rfl rfl rfl⟩
  · exact fun m n hm _ => ⟨hm.spreads, covers_of_nothing rfl rfl rfl⟩
  · exact fun object m hm _ => ⟨hm.spreads, fun e he => absurd he not_mem_nil⟩
  · intro object m k v rest ihv ih hm hnamed
    have hfirst : Spreads c m (if c.base k.region = object then markValue c m v else m) ∧
        (c.base k.region = object →
          (if c.base k.region = object then markValue c m v else m).Covers c v) := by
      split
      · obtain ⟨hspread, hcovers⟩ := ihv hm (hnamed _ mem_cons_self)
        exact ⟨hspread, fun _ => hcovers⟩
      · next h => exact ⟨hm.spreads, fun h' => absurd h' h⟩
    obtain ⟨hspread, hcovers⟩ := ih hfirst.1.closed fun e he => hnamed e (mem_cons_of_mem _ he)
    refine ⟨hfirst.1.trans hspread, fun e he hbase => ?_⟩
    rcases mem_cons.1 he with rfl | he
    · exact (hfirst.2 hbase).spreads hspread
    · exact hcovers e he hbase

theorem spreads_foldl {κ : Type} {es : List (κ × Value)} (hes : ∀ e ∈ es, e.2.NamedIn c) :
    Spreads c m (es.foldl (fun m e => markValue c m e.2) m) ∧
      ∀ e ∈ es, (es.foldl (fun m e => markValue c m e.2) m).Covers c e.2 := by
  induction es generalizing m with
  | nil => exact ⟨hm.spreads, fun e he => nomatch he⟩
  | cons e es ih =>
    obtain ⟨hfirst, hcovers⟩ := spreads_markValue hc hm (hes e mem_cons_self)
    obtain ⟨hrest, hall⟩ := ih hfirst.closed fun e he => hes e (mem_cons_of_mem _ he)
    refine ⟨hfirst.trans hrest, fun e' he' => ?_⟩
    rcases mem_cons.1 he' with rfl | he'
    · exact hcovers.spreads hrest
    · exact hall e' he'

/-- Following bindings ends only when the values of all live objects were followed. -/
theorem spreads_follow {pending : List (BindingKey × Value)} (hp : ∀ e ∈ pending, e.2.NamedIn c) :
    Spreads c m (follow c m pending) ∧ ∀ e ∈ pending,
      (follow c m pending).isLiveRegion c e.1.region = true → (follow c m pending).Covers c e.2 := by
  fun_induction follow c m pending with
  | case1 m pending _ ih =>
    have hnamed : ∀ e ∈ m.liveBindings c pending, e.2.NamedIn c := fun e he => hp e (mem_filter.1 he).1
    obtain ⟨hlive, hcovers⟩ := spreads_foldl hc hm hnamed
    obtain ⟨hrest, hall⟩ := ih hlive.closed fun e he => hp e (mem_filter.1 he).1
    refine ⟨hlive.trans hrest, fun e he hl => ?_⟩
    by_cases hnow : m.isLiveRegion c e.1.region = true
    · exact (hcovers e (mem_filter.2 ⟨he, hnow⟩)).spreads hrest
    · exact hall e (mem_filter.2 ⟨he, by simp [hnow]⟩) hl
  | case2 m pending hlt =>
    -- no binding that is left is of a live object
    have hlen : (m.otherBindings c pending).length = pending.length :=
      le_antisymm (length_filter_le _ _) (Nat.le_of_not_lt hlt)
    have hdead := length_filter_eq_length_iff.1 hlen
    refine ⟨hm.spreads, fun e he hl => ?_⟩
    have := hdead e he
    rw [hl] at this
    cases this

end

end Marks

end PathScout

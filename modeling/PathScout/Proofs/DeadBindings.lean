import PathScout.Proofs.MarkLaws
import PathScout.Proofs.NamingLaws

/-!
# Removing dead bindings

Bindings of objects that are not live are removed, and so is what is known of dead symbols. No live
region reads differently afterwards, in this catalog or in a larger one, and all that can be read
or is the value of an expression is live: regions that are pointed to or copied, symbols, and what
these are made of. The symbols in the positions of elements are not: nothing asks for them again.

* `Value.Involves`: the symbols that a value is about.
* `State.Readable`: the values of live regions and of the environment.
* `Marks.Upholds`: all that a value leads to is live.
* `Store.retrieve_removeDead`, `Store.upholds_retrieveFrom`: reading a live region.
* `State.removeDead_invisible`: both together, with the ranges of symbols.
-/

namespace PathScout

open Catalog Marks Naming OrderedMap List

variable {c d : Catalog} {m : Marks} {r q : RegionId} {x y : SymbolId} {v w : Value} {t : CType}
  {bindings : List (BindingKey × Value)}

namespace Value

/-- The symbol is the value, or the value points into its memory. -/
def Names (v : Value) (c : Catalog) (x : SymbolId) : Prop :=
  v.symbol? = some x ∨ ∃ r, v.target? = some r ∧ c.symbolicBase? r = some x

/-- The symbols that a value is about: those that it names, also in what it captured, those that
they are made of, and those that are made of such symbols only. -/
inductive Involves (c : Catalog) (v : Value) : SymbolId → Prop where
  | named {w : Value} {x : SymbolId} : v.Contains c w → w.Names c x → Involves c v x
  | operand {x y : SymbolId} : Involves c v x → y ∈ (c.symbol x).operands → Involves c v y
  | made {x : SymbolId} : (c.symbol x).operands ≠ [] →
    (∀ y ∈ (c.symbol x).operands, Involves c v y) → Involves c v x

theorem NamedIn.mono (h : v.NamedIn c) (hcd : c ≤ d) : v.NamedIn d := by
  induction h with
  | intro target symbol key _ ih =>
    exact .intro (fun r hr => (target r hr).mono hcd) (fun x hx => (symbol x hx).mono hcd)
      (fun e he => (key e he).mono hcd) ih

end Value

/-! ### What is read is live -/

namespace Marks

/-- The symbol is live, and so are all that it is made of. -/
inductive Rooted (m : Marks) (c : Catalog) : SymbolId → Prop where
  | intro {x : SymbolId} (live : m.isLiveSymbol c x = true)
    (operand : ∀ y ∈ (c.symbol x).operands, Rooted m c y) : Rooted m c x

/-- What the value points to and what it is a copy of is live, and so are the symbols that it
names. -/
structure Supports (m : Marks) (c : Catalog) (v : Value) : Prop where
  region {r : RegionId} : v.target? = some r → m.isLiveRegion c r = true
  symbol {x : SymbolId} : v.Names c x → m.Rooted c x

/-- The value and all that it captured lead to live things only. -/
def Upholds (m : Marks) (c : Catalog) (v : Value) : Prop := ∀ w, v.Contains c w → m.Supports c w

theorem Rooted.live (h : m.Rooted c x) : m.isLiveSymbol c x = true := by
  cases h
  assumption

theorem Rooted.operand (h : m.Rooted c x) (hy : y ∈ (c.symbol x).operands) : m.Rooted c y := by
  cases h with
  | intro _ operand => exact operand y hy

theorem Rooted.mono (h : m.Rooted c x) (hc : c.Ordered) (hcd : c ≤ d) (hx : c.HasSymbol x) :
    m.Rooted d x := by
  induction h with
  | intro live _ ih =>
    refine .intro (isLiveSymbol_mono hc hcd hx ▸ live) fun y hy => ?_
    rw [symbol_mono hcd hx] at hy
    exact ih y hy (hc.hasSymbol_operand hx hy)

/-- A symbol that is made of such symbols is one of them. -/
theorem rooted_of_operands (hc : c.Ordered) (hne : (c.symbol x).operands ≠ [])
    (h : ∀ y ∈ (c.symbol x).operands, m.Rooted c y) : m.Rooted c x :=
  .intro (isLiveSymbol_of_operands hc hne fun y hy => (h y hy).live) h

theorem Closed.rooted (hm : m.Closed c) (hc : c.Ordered) (hx : x ∈ m.symbols) : m.Rooted c x := by
  induction hn : x.index using Nat.strong_induction_on generalizing x with
  | _ n ih =>
    refine .intro (isLiveSymbol_of_mem hx) fun y hy => ?_
    exact ih y.index (hn ▸ hc.layered x (hm.hasSymbol hx) y hy) (hm.operand hx hy) rfl

/-- What a covered snapshot is a copy of is marked. -/
theorem Covers.target (h : m.Covers c v) (hr : v.target? = some r) : c.base r ∈ m.regions :=
  (h v (.self v)).1 r hr

theorem Covers.symbol (h : m.Covers c v) (hx : v.symbol? = some x) : x ∈ m.symbols :=
  (h v (.self v)).2 x hx

/-- What the copied object held is covered with the copy. -/
theorem Covers.captured (h : m.Covers c v) (hr : v.target? = some r) {e : BindingKey × Value}
    (he : e ∈ v.captured) (hbase : c.base e.1.region = c.base r) : m.Covers c e.2 :=
  fun w hw => h w (.copied hr he hbase hw)

theorem Covers.upholds (h : m.Covers c v) (hc : c.Ordered) (hm : m.Closed c) : m.Upholds c v := by
  intro w hw
  obtain ⟨hregion, hsymbol⟩ := h w hw
  refine ⟨fun hr => isLiveRegion_of_mem (hregion _ hr), fun hx => ?_⟩
  rcases hx with hx | ⟨r, hr, hx⟩
  · exact hm.rooted hc (hsymbol _ hx)
  · rw [← symbolicBase?_base hc.wellFormed] at hx
    exact hm.rooted hc (hm.memory (hregion r hr) hx)

/-- All symbols that such a value is about are live. -/
theorem Upholds.rooted (h : m.Upholds c v) (hc : c.Ordered) (hx : v.Involves c x) : m.Rooted c x := by
  induction hx with
  | named hw hx => exact (h _ hw).symbol hx
  | operand _ hy ih => exact ih.operand hy
  | made hne _ ih => exact rooted_of_operands hc hne ih

theorem upholds_of_captured_eq_nil (h : v.captured = []) (hv : m.Supports c v) : m.Upholds c v := by
  intro w hw
  cases hw with
  | self => exact hv
  | copied _ hu =>
    rw [h] at hu
    cases hu

/-- A value that leads to nothing. -/
theorem upholds_of_nothing (h : v.captured = []) (hr : v.target? = none) (hx : v.symbol? = none) :
    m.Upholds c v := by
  refine upholds_of_captured_eq_nil h ⟨fun h => ?_, fun h => ?_⟩
  · cases hr.symm.trans h
  rcases h with h | ⟨r, h, -⟩
  · cases hx.symm.trans h
  · cases hr.symm.trans h

theorem Upholds.fit (h : m.Upholds c v) (t : CType) : m.Upholds c (Store.fit v t) := by
  unfold Store.fit
  split
  iterate 2
    · split
      · exact upholds_of_nothing rfl rfl rfl
      · exact h
  · exact h

/-- The value of a symbol leads to live things if the symbol and all in it are live. -/
theorem upholds_symbolValue (hc : c.Ordered) (hx : c.HasSymbol x) (h : m.Rooted c x) :
    m.Upholds (symbolValue x c).2 (symbolValue x c).1 := by
  unfold symbolValue
  rw [bind_apply, query_apply]
  split
  · have hle : c ≤ (symbolic x c).2 := grows_symbolic x c
    have he : (symbolic x c).2.region (symbolic x c).1 = .symbolic x _ :=
      region_region _ _
    have hbase : (symbolic x c).2.symbolicBase? (symbolic x c).1 = some x := by
      rw [Catalog.symbolicBase?, base_of_not_part (by rw [he]; rfl), he]
    have hroot := h.mono hc hle hx
    refine upholds_of_captured_eq_nil rfl ⟨fun hr => ?_, fun hn => ?_⟩
    · obtain rfl := Option.some.inj hr
      exact isLiveRegion_of_symbolicBase? hbase hroot.live
    · rcases hn with hn | ⟨r, hr, hn⟩
      · cases hn
      · obtain rfl := Option.some.inj hr
        obtain rfl := Option.some.inj (hbase.symm.trans hn)
        exact hroot
  · refine upholds_of_captured_eq_nil rfl ⟨fun hr => ?_, fun hn => ?_⟩
    · cases hr
    rcases hn with hn | ⟨r, hr, -⟩
    · obtain rfl := Option.some.inj hn
      exact h
    · cases hr

/-- The value of a new symbol leads to live things if the symbol and all in it are live. -/
theorem upholds_scalarValue {a : Symbol} (hc : c.Ordered) (hd : (symbol a c).2.Ordered)
    (h : m.Rooted (symbol a c).2 (symbol a c).1) :
    (scalarValue a c).2.Ordered ∧
      m.Upholds (scalarValue a c).2 (scalarValue a c).1 := by
  have hx : (symbol a c).2.HasSymbol (symbol a c).1 :=
    Interned.lt_size_of_get? (get?_symbol a c)
  unfold scalarValue
  split
  · exact ⟨hd.symbolValue hx, upholds_symbolValue hd hx h⟩
  · exact ⟨hc, upholds_of_nothing rfl rfl rfl⟩

end Marks

/-! ### Reading -/

/-- The same path below another region leads to a part of the object of that region. -/
theorem Catalog.Ordered.rebase {onto : RegionId} (hc : c.Ordered) (h : c.Has onto)
    (r outer : RegionId) :
    let out := rebase r outer onto c
    c ≤ out.2 ∧ out.2.Ordered ∧ out.2.Has out.1 ∧ out.2.base out.1 = c.base onto := by
  unfold Naming.rebase
  rw [bind_apply, query_apply]
  dsimp only
  induction ((c.chain r).takeWhile (· != outer)).map c.region with
  | nil => exact ⟨le_rfl, hc, h, rfl⟩
  | cons a path ih =>
    rw [foldrM_cons, bind_apply]
    obtain ⟨hle, hd, hhas, hbase⟩ := ih
    split
    · obtain ⟨he, heq⟩ := hd.part (a := .field _ _) rfl rfl hhas
      exact ⟨hle.trans (grows_region _ _), he, has_region _ _, heq.trans hbase⟩
    · obtain ⟨he, heq⟩ := hd.part (a := .element _ _ _) rfl rfl hhas
      exact ⟨hle.trans (grows_region _ _), he, has_region _ _, heq.trans hbase⟩
    · exact ⟨hle, hd, hhas, hbase⟩

namespace Store

variable {s : Store}

/-- The characters of a literal lead to nothing. -/
theorem upholds_literalByte? (h : literalByte? c r = some v) : m.Upholds d v := by
  have hknown : v = .undefined ∨ ∃ n, v = .int n := by
    unfold literalByte? at h
    split at h <;> try cases h
    split at h <;> try cases h
    split at h <;> try cases h
    dsimp only at h
    split at h
    · exact Or.inr ⟨_, (Option.some.inj h).symm⟩
    · split at h
      · exact Or.inr ⟨_, (Option.some.inj h).symm⟩
      · exact Or.inl (Option.some.inj h).symm
  rcases hknown with rfl | ⟨n, rfl⟩ <;> exact upholds_of_nothing rfl rfl rfl

/-- The symbol for what a live region held at first is live. -/
theorem upholds_regionValue (hc : c.Ordered) (hr : c.Has r) (hl : m.isLiveRegion c r = true) :
    (regionValue r t c).2.Ordered ∧
      m.Upholds (regionValue r t c).2 (regionValue r t c).1 := by
  have hd : (symbol (.regionValue r t) c).2.Ordered :=
    hc.symbol (fun _ h => nomatch h) fun q hq => Option.some.inj hq ▸ hr
  have he := symbol_symbol (.regionValue r t) c
  refine upholds_scalarValue hc hd (.intro ?_ fun y hy => ?_)
  · refine isLiveSymbol_regionValue hd (Interned.lt_size_of_get? (get?_symbol _ _)) he ?_
    rwa [isLiveRegion_mono hc (grows_symbol _ _) hr]
  · rw [he] at hy
    cases hy

/-- What a live region held at first is live. -/
theorem upholds_initialValue (hc : c.Ordered) (hr : c.Has r) (hl : m.isLiveRegion c r = true) :
    (initialValue r t c).2.Ordered ∧ m.Upholds (initialValue r t c).2 (initialValue r t c).1 := by
  unfold initialValue
  rw [bind_apply, query_apply]
  cases hv : literalByte? c r with
  | some v => exact ⟨hc, upholds_literalByte? hv⟩
  | none =>
    simp only [bind_apply, query_apply]
    cases c.space r with
    | locals f | code => exact ⟨hc, upholds_of_nothing rfl rfl rfl⟩
    | _ => exact upholds_regionValue hc hr hl

/-- The part of a live whole is live. -/
theorem upholds_derivedValue (hc : c.Ordered) (hx : c.HasSymbol x) (hr : c.Has r) (h : m.Rooted c x) :
    (derivedValue x r t c).2.Ordered ∧
      m.Upholds (derivedValue x r t c).2 (derivedValue x r t c).1 := by
  have hd : (symbol (.derived x r t) c).2.Ordered :=
    hc.symbol (fun y hy => mem_singleton.1 hy ▸ hx) fun q hq => Option.some.inj hq ▸ hr
  have he := symbol_symbol (.derived x r t) c
  have hops : ((symbol (.derived x r t) c).2.symbol
      (symbol (.derived x r t) c).1).operands = [x] := by rw [he]; rfl
  refine upholds_scalarValue hc hd
    (rooted_of_operands hd (by rw [hops]; exact cons_ne_nil _ _) fun y hy => ?_)
  rw [hops] at hy
  obtain rfl := mem_singleton.1 hy
  exact h.mono hc (grows_symbol _ _) hx

/-- The nearest default is that of a part of the same object. -/
theorem of_nearestDefault? (hc : c.WellFormed) (h : nearestDefault? c bindings r = some (q, v)) :
    c.base q = c.base r ∧ (BindingKey.default q, v) ∈ bindings := by
  obtain ⟨p, hp, h⟩ := exists_of_findSome?_eq_some h
  obtain ⟨u, hu, h⟩ := Option.map_eq_some_iff.1 h
  cases h
  exact ⟨base_of_mem_layers hc hp, mem_of_lookup_eq hu⟩

/-- **What is read of a live region is live**, if what its object holds is covered. -/
theorem upholds_retrieveFrom (hc : c.Ordered) (hm : m.Closed c) (hr : c.Has r)
    (hl : m.isLiveRegion c r = true) (ht : t.isScalar = true)
    (hb : ∀ e ∈ bindings, c.Has e.1.region ∧ e.2.NamedIn c)
    (hcov : ∀ e ∈ bindings, c.base e.1.region = c.base r → m.Covers c e.2) :
    (retrieveFrom bindings r t c).2.Ordered ∧
      m.Upholds (retrieveFrom bindings r t c).2 (retrieveFrom bindings r t c).1 := by
  fun_induction retrieveFrom bindings r t c with
  | case1 | case2 | case3 => simp_all [CType.isStruct_of_isScalar ht]
  | case4 => simp_all [CType.isArray_of_isScalar ht]
  | case5 bindings r c _ _ direct v hv =>
    exact ⟨hc, ((hcov _ (mem_of_lookup_eq hv) rfl).upholds hc hm).fit t⟩
  | case6 => exact upholds_initialValue hc hr hl
  | case7 bindings r c _ _ _ _ q x hq =>
    obtain ⟨hbase, hmem⟩ := of_nearestDefault? hc.wellFormed hq
    have hx := (hcov _ hmem hbase).symbol rfl
    exact ⟨hc.symbolValue (hm.hasSymbol hx), upholds_symbolValue hc (hm.hasSymbol hx) (hm.rooted hc hx)⟩
  | case8 bindings r c _ _ _ _ q x hq =>
    obtain ⟨hbase, hmem⟩ := of_nearestDefault? hc.wellFormed hq
    have hx := (hcov _ hmem hbase).symbol rfl
    exact upholds_derivedValue hc (hm.hasSymbol hx) hr (hm.rooted hc hx)
  | case9 bindings r c _ _ _ _ q inner source hq path d hrebase ih =>
    obtain ⟨hbase, hmem⟩ := of_nearestDefault? hc.wellFormed hq
    have hnamed := (hb _ hmem).2
    have hsource : c.Has source := hnamed.target rfl
    obtain ⟨hle, hd, hhas, hpath⟩ := hc.rebase hsource r q
    rw [hrebase] at hle hd hhas hpath
    have hcovers := hcov _ hmem hbase
    refine ih hd (hm.mono hc.wellFormed hle) hhas (isLiveRegion_of_mem ?_)
      (fun e he => ⟨(hnamed.key he).mono hle, (hnamed.inner he).mono hle⟩) fun e he hebase => ?_
    · rw [hpath]
      exact hcovers.target rfl
    · rw [hpath, base_mono hle (hnamed.key he)] at hebase
      exact (hcovers.captured rfl he hebase).mono hle (hnamed.inner he)
  | case10 bindings r c _ _ _ _ q v _ _ hq =>
    obtain ⟨hbase, hmem⟩ := of_nearestDefault? hc.wellFormed hq
    exact ⟨hc, ((hcov _ hmem hbase).upholds hc hm).fit t⟩

/-! ### Reading after removal -/

/-- What is bound to a live region stays. -/
theorem get?_removeDead {k : BindingKey} (hc : c.Ordered) (hcd : c ≤ d)
    (hs : ∀ e ∈ s.bindings.entries, c.Has e.1.region) (hl : m.isLiveRegion d k.region = true) :
    (s.removeDead c m).bindings.get? k = s.bindings.get? k := by
  rw [show (s.removeDead c m).bindings.get? k = _ from
    get?_filter fun b : BindingKey => m.isLiveRegion c b.region]
  split
  · rfl
  · next hdead =>
    cases hk : s.bindings.get? k with
    | none => rfl
    | some v =>
      have hhas := hs _ (mem_of_lookup_eq hk)
      rw [isLiveRegion_mono hc hcd hhas] at hl
      exact absurd hl hdead

/-- **Live regions read as before**, also in a larger catalog. -/
theorem retrieve_removeDead (hc : c.Ordered) (hcd : c ≤ d) (hd : d.WellFormed)
    (hs : ∀ e ∈ s.bindings.entries, c.Has e.1.region) (hl : m.isLiveRegion d r = true)
    (ht : t.isScalar = true) :
    (s.removeDead c m).retrieve (.region r) t d = s.retrieve (.region r) t d := by
  refine retrieve_congr ht (get?_removeDead hc hcd hs hl) fun q hq =>
    get?_removeDead (k := .default q) hc hcd hs ?_
  exact isLiveRegion_congr hd (base_of_mem_layers hd hq) ▸ hl

end Store

/-! ### States -/

namespace State

/-- All regions and symbols in the state have numbers. -/
structure NamedIn (s : State) (c : Catalog) : Prop where
  key {e : BindingKey × Value} : e ∈ s.store.bindings.entries → c.Has e.1.region
  held {e : BindingKey × Value} : e ∈ s.store.bindings.entries → e.2.NamedIn c
  value {e : EnvKey × Value} : e ∈ s.env.entries → e.2.NamedIn c
  symbol {x : SymbolId} {rs : RangeSet} : s.constraints.get? x = some rs → c.HasSymbol x

/-- The marks when some regions are marked, and then all that can be reached. -/
def marks (s : State) (c : Catalog) (roots : List RegionId) : Marks :=
  (roots.foldl (Marks.markRegion · c ·) {}).markReachable c s.store s.env

/-- The values of the environment and those that are read of live regions. Reading may add to the
catalog. -/
inductive Readable (s : State) (m : Marks) (c : Catalog) : Value → Catalog → Prop where
  | value {key : EnvKey} {v : Value} : (key, v) ∈ s.env.entries → Readable s m c v c
  | held {r : RegionId} {t : CType} : c.Has r → m.isLiveRegion c r = true → t.isScalar = true →
    Readable s m c (s.store.retrieve (.region r) t c).1 (s.store.retrieve (.region r) t c).2

variable {s : State} {roots : List RegionId}

/-- All that live objects and the environment hold is covered. -/
theorem covers_marks (hc : c.Ordered) (hs : s.NamedIn c) (hroots : ∀ r ∈ roots, c.Has r) :
    (s.marks c roots).Closed c ∧ (∀ e ∈ s.env.entries, (s.marks c roots).Covers c e.2) ∧
      ∀ e ∈ s.store.bindings.entries, (s.marks c roots).isLiveRegion c e.1.region = true →
        (s.marks c roots).Covers c e.2 := by
  have hmarked : ∀ m : Marks, m.Closed c → (roots.foldl (Marks.markRegion · c ·) m).Closed c := by
    clear hs
    induction roots with
    | nil => exact fun _ h => h
    | cons r roots ih =>
      intro m hm
      exact ih (fun q hq => hroots q (mem_cons_of_mem _ hq)) _
        (spreads_markRegion hc hm (hroots r mem_cons_self)).closed
  obtain ⟨henv, hvalues⟩ := spreads_foldl hc (hmarked {} (closed_empty c)) fun e he => hs.value he
  obtain ⟨hstore, hheld⟩ := spreads_follow hc henv.closed fun e he => hs.held he
  exact ⟨hstore.closed, fun e he => (hvalues e he).spreads hstore, hheld⟩

/-- What can be read leads to live things only. -/
theorem Readable.upholds {v : Value} {z : Catalog} (hc : c.Ordered) (hcd : c ≤ d) (hd : d.Ordered)
    (hs : s.NamedIn c) (hroots : ∀ r ∈ roots, c.Has r) (h : s.Readable (s.marks c roots) d v z) :
    d ≤ z ∧ z.Ordered ∧ (s.marks c roots).Upholds z v := by
  obtain ⟨hclosed, hvalues, hheld⟩ := covers_marks hc hs hroots
  have hclosed' := hclosed.mono hc.wellFormed hcd
  cases h with
  | value he => exact ⟨le_rfl, hd, ((hvalues _ he).mono hcd (hs.value he)).upholds hd hclosed'⟩
  | @held r t hr hl ht =>
    refine ⟨Store.grows_retrieve _ _ _ _, Store.upholds_retrieveFrom hd hclosed' hr hl ht
      (fun e he => ⟨(hs.key he).mono hcd, (hs.held he).mono hcd⟩) fun e he hbase => ?_⟩
    refine (hheld e he ?_).mono hcd (hs.held he)
    rwa [← isLiveRegion_mono hc hcd (hs.key he), isLiveRegion_congr hd.wellFormed hbase]

/-- **Removing dead bindings is invisible.** Mark some regions and all that can be reached, and
remove what is not live. In this catalog and in every larger one, live regions read as before. All
that the values of the environment and of live regions point to or are copies of is live, also in
what they captured, and so is every symbol that they are about. Its range is kept. -/
theorem removeDead_invisible (hc : c.Ordered) (hcd : c ≤ d) (hd : d.Ordered) (hs : s.NamedIn c)
    (hroots : ∀ r ∈ roots, c.Has r) :
    (∀ r t, (s.marks c roots).isLiveRegion d r = true → t.isScalar = true →
      (s.removeDead c (s.marks c roots)).store.retrieve (.region r) t d =
        s.store.retrieve (.region r) t d) ∧
    ∀ v z, s.Readable (s.marks c roots) d v z →
      (∀ w, v.Contains z w → ∀ r, w.target? = some r →
        (s.marks c roots).isLiveRegion z r = true) ∧
      ∀ x, v.Involves z x → (s.marks c roots).isLiveSymbol z x = true ∧
        (s.removeDead c (s.marks c roots)).constraints.get? x = s.constraints.get? x := by
  refine ⟨fun r t hl ht => Store.retrieve_removeDead hc hcd hd.wellFormed
    (fun e he => hs.key he) hl ht, fun v z hv => ?_⟩
  obtain ⟨hdz, hz, hupholds⟩ := hv.upholds hc hcd hd hs hroots
  refine ⟨fun w hw r hr => (hupholds w hw).region hr, fun x hx => ?_⟩
  have hlive := (hupholds.rooted hz hx).live
  refine ⟨hlive, ?_⟩
  rw [show (s.removeDead c (s.marks c roots)).constraints.get? x = _ from
    get?_filter fun y : SymbolId => (s.marks c roots).isLiveSymbol c y]
  cases hrange : s.constraints.get? x with
  | none => exact ite_self _
  | some rs =>
    rw [isLiveSymbol_mono hc (hcd.trans hdz) (hs.symbol hrange)] at hlive
    exact if_pos hlive

/-! An element at an unknown position, and what a dead argument held at first. -/

/-- The arguments are the regions 2 and 3, and the symbols 0 and 1 are what they held at first. The
region 5 is the element of the array 4 at the position of the first one. The regions 6 and 7 are
local variables. -/
def indexCatalog : Catalog where
  program := { file := "" }
  regions := .ofList [.space (.locals ⟨0⟩), .space (.arguments ⟨0⟩), .var ⟨0⟩ ⟨1⟩, .var ⟨1⟩ ⟨1⟩,
    .var ⟨2⟩ ⟨0⟩, .element .int (.symbolic ⟨0⟩) ⟨4⟩, .var ⟨3⟩ ⟨0⟩, .var ⟨4⟩ ⟨0⟩] (by decide)
  symbols := .ofList [.regionValue ⟨2⟩ .int, .regionValue ⟨3⟩ .int] (by decide)

/-- One variable points to the element and the other one holds what the second argument held. The
first argument is known to be 2 and the second one to be 7. -/
def indexState : State where
  store := ⟨⟨[(.direct ⟨6⟩, .pointer ⟨5⟩), (.direct ⟨7⟩, .symbol ⟨1⟩)]⟩⟩
  constraints := ⟨[(⟨0⟩, RangeSet.point 2), (⟨1⟩, RangeSet.point 7)]⟩

theorem symbol_indexCatalog (hx : indexCatalog.HasSymbol x) :
    indexCatalog.symbol x = .regionValue ⟨2⟩ .int ∨ indexCatalog.symbol x = .regionValue ⟨3⟩ .int := by
  obtain ⟨i⟩ := x
  have hi : i < 2 := hx
  interval_cases i
  · exact Or.inl rfl
  · exact Or.inr rfl

theorem ordered_indexCatalog : indexCatalog.Ordered := by
  have hplace : ∀ {x r}, indexCatalog.HasSymbol x → (indexCatalog.symbol x).place? = some r →
      r = ⟨2⟩ ∨ r = ⟨3⟩ := fun hx hr => by
    rcases symbol_indexCatalog hx with h | h <;> rw [h] at hr <;> cases hr
    · exact Or.inl rfl
    · exact Or.inr rfl
  refine ⟨by decide, fun x hx y hy => ?_, fun {r p s} hr => ?_, fun hx hr => ?_,
    fun {x s r} hx hr hs => ?_⟩
  · rcases symbol_indexCatalog hx with h | h <;> rw [h] at hy <;> cases hy
  · -- no region is unknown memory
    have hhas : indexCatalog.Has r := has_of_parent? (p := p) (by rw [hr]; rfl)
    obtain ⟨i⟩ := r
    have hi : i < 8 := hhas
    interval_cases i <;> cases hr
  · rcases hplace hx hr with rfl | rfl <;> decide
  · rw [Catalog.symbolicBase?, base_of_not_part] at hs
    · rcases hplace hx hr with rfl | rfl <;> cases hs
    · rcases hplace hx hr with rfl | rfl <;> rfl

theorem namedIn_indexState : indexState.NamedIn indexCatalog := by
  refine ⟨fun {e} he => ?_, fun {e} he => ?_, fun {e} he => ?_, fun {x rs} hx => ?_⟩
  · rcases mem_cons.1 he with rfl | he
    · decide
    · rw [mem_singleton.1 he]
      decide
  · rcases mem_cons.1 he with rfl | he
    · refine .intro (fun r hr => ?_) (fun x hx => nomatch hx) (fun e he => nomatch he)
        (fun e he => nomatch he)
      obtain rfl := Option.some.inj hr
      decide
    · rw [mem_singleton.1 he]
      refine .intro (fun r hr => nomatch hr) (fun x hx => ?_) (fun e he => nomatch he)
        (fun e he => nomatch he)
      obtain rfl := Option.some.inj hx
      exact Nat.one_lt_two
  · cases he
  · have hmem := mem_of_lookup_eq hx
    rcases mem_cons.1 hmem with h | h
    · cases h
      exact Nat.zero_lt_two
    · cases mem_singleton.1 h
      exact Nat.one_lt_two

theorem retrieve_indexState : indexState.store.retrieve (.region ⟨6⟩) (.pointer .int) indexCatalog =
        (.pointer ⟨5⟩, indexCatalog) ∧
      indexState.store.retrieve (.region ⟨7⟩) .int indexCatalog = (.symbol ⟨1⟩, indexCatalog) :=
  ⟨Store.retrieveFrom_of_direct (v := .pointer ⟨5⟩) rfl rfl,
    Store.retrieveFrom_of_direct (v := .symbol ⟨1⟩) rfl rfl⟩

/-- What the second argument held at first can be read, so its range is kept. -/
theorem removeDead_invisible_index :
    indexCatalog.Ordered ∧ indexState.NamedIn indexCatalog ∧
      (∀ r ∈ [⟨6⟩, ⟨7⟩], indexCatalog.Has r) ∧
      (indexState.removeDead indexCatalog
        (indexState.marks indexCatalog [⟨6⟩, ⟨7⟩])).constraints.get? ⟨1⟩ =
          some (RangeSet.point 7) := by
  have hroots : ∀ r ∈ [⟨6⟩, ⟨7⟩], indexCatalog.Has r := by decide
  have hlive : (indexState.marks indexCatalog [⟨6⟩, ⟨7⟩]).isLiveRegion indexCatalog ⟨7⟩ = true := by
    decide +kernel
  obtain ⟨-, h⟩ := removeDead_invisible ordered_indexCatalog le_rfl ordered_indexCatalog
    namedIn_indexState hroots
  have hinvolves := h _ _ (.held (t := .int) (by decide) hlive rfl)
  rw [retrieve_indexState.2] at hinvolves
  exact ⟨ordered_indexCatalog, namedIn_indexState, hroots,
    (hinvolves.2 ⟨1⟩ (.named (.self _) (Or.inl rfl))).2⟩

/-- The position of an element that a live variable points to is not live, and what is known of it
is forgotten; and what a live variable holds may be what a dead region held at first. -/
theorem removeDead_forgets_index :
    let m := indexState.marks indexCatalog [⟨6⟩, ⟨7⟩]
    m.isLiveRegion indexCatalog ⟨6⟩ = true ∧ m.isLiveRegion indexCatalog ⟨7⟩ = true ∧
    indexState.store.retrieve (.region ⟨6⟩) (.pointer .int) indexCatalog =
      (.pointer ⟨5⟩, indexCatalog) ∧
    indexCatalog.region ⟨5⟩ = .element .int (.symbolic ⟨0⟩) ⟨4⟩ ∧
    m.isLiveSymbol indexCatalog ⟨0⟩ = false ∧
    indexState.constraints.get? ⟨0⟩ = some (RangeSet.point 2) ∧
    (indexState.removeDead indexCatalog m).constraints.get? ⟨0⟩ = none ∧
    indexState.store.retrieve (.region ⟨7⟩) .int indexCatalog = (.symbol ⟨1⟩, indexCatalog) ∧
    indexCatalog.symbol ⟨1⟩ = .regionValue ⟨3⟩ .int ∧
    m.isLiveRegion indexCatalog ⟨3⟩ = false := by
  have hdead : (indexState.marks indexCatalog [⟨6⟩, ⟨7⟩]).isLiveSymbol indexCatalog ⟨0⟩ = false :=
    by decide +kernel
  refine ⟨by decide +kernel, by decide +kernel, retrieve_indexState.1, rfl, hdead, rfl, ?_,
    retrieve_indexState.2, rfl, by decide +kernel⟩
  rw [show (indexState.removeDead indexCatalog _).constraints.get? ⟨0⟩ = _ from
    get?_filter fun y : SymbolId =>
      (indexState.marks indexCatalog [⟨6⟩, ⟨7⟩]).isLiveSymbol indexCatalog y]
  exact if_neg (Bool.eq_false_iff.1 hdead)

end State

end PathScout

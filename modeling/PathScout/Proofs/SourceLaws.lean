import PathScout.Proofs.SymbolSources

/-!
# What is conjured

No operation on values, memory or constraints takes a conjured symbol out of the air: all that it
gives mentions conjured symbols only that its operands mention. Only forgetting objects conjures, for
the expression, the frame and the count that it is asked for. There is one lemma for each action; each
follows the definition of the action.

* `Naming.Makes`: what an action gives.
* `Naming.makes_binary`, `StorePolicy.makes_retrieve`, `State.makes_evaluate?`: operators, memory
  and expressions.
* `StorePolicy.makes_invalidate`: forgetting conjures symbols for the request only.
* `Constraints.From.assume`: assumptions are about symbols in the value.
-/

namespace PathScout

open Naming Value List Option OrderedMap

variable {c : Catalog} {P : Set Conjuring} {v l r : Value} {s : State}

namespace Naming

variable {α β : Type} {post : α → Catalog → Prop} {post₂ : β → Catalog → Prop} {a : Symbol}
  {q : RegionId} {x : SymbolId} {op : BinaryOp}

/-! ### Actions -/

/-- The action only adds to the catalog, and what it gives satisfies a condition. -/
def Makes (x : Naming α) (c : Catalog) (post : α → Catalog → Prop) : Prop :=
  c ≤ (x c).2 ∧ post (x c).1 (x c).2

theorem Makes.bind {x : Naming α} {f : α → Naming β} (hx : x.Makes c post)
    (hf : ∀ a d, c ≤ d → post a d → (f a).Makes d post₂) : (x >>= f).Makes c post₂ := by
  obtain ⟨hle, hpost⟩ := hf _ _ hx.1 hx.2
  exact ⟨hx.1.trans hle, hpost⟩

theorem makes_pure {a : α} (h : post a c) : Makes (pure a) c post := ⟨le_rfl, h⟩

theorem makes_query {read : Catalog → α} (h : post (read c) c) : Makes (query read) c post :=
  ⟨le_rfl, h⟩

theorem makes_query_bind {read : Catalog → α} {f : α → Naming β}
    (h : (f (read c)).Makes c post₂) : (query read >>= f).Makes c post₂ := h

theorem makes_ite {p : Prop} [Decidable p] {x y : Naming α} (hx : p → x.Makes c post)
    (hy : ¬ p → y.Makes c post) : Makes (if p then x else y) c post := by
  split
  · next hp => exact hx hp
  · next hp => exact hy hp

theorem Makes.foldlM {f : β → α → Naming β} {b : β} {xs : List α} (hb : post₂ b c)
    (hf : ∀ b, ∀ x ∈ xs, ∀ d, c ≤ d → post₂ b d → (f b x).Makes d post₂) :
    Makes (xs.foldlM f b) c post₂ := by
  induction xs generalizing b c with
  | nil => exact makes_pure hb
  | cons x xs ih =>
    rw [foldlM_cons]
    refine (hf b x mem_cons_self c le_rfl hb).bind fun b d hd hb => ?_
    exact ih hb fun b y hy d' hd' => hf b y (mem_cons_of_mem x hy) d' (hd.trans hd')

theorem Makes.foldrM {f : α → β → Naming β} {b : β} {xs : List α} (hb : post₂ b c)
    (hf : ∀ b, ∀ x ∈ xs, ∀ d, c ≤ d → post₂ b d → (f x b).Makes d post₂) :
    Makes (xs.foldrM f b) c post₂ := by
  rw [← foldlM_reverse]
  exact .foldlM hb fun b x hx => hf b x (mem_reverse.1 hx)

/-! ### Regions and symbols -/

theorem makes_region {a : Region} (h : ∀ x ∈ a.refs, c.From P x) :
    (region a).Makes c fun r d => d.From P (.region r) := by
  have hle := grows_region a c
  refine ⟨hle, .region (has_region a c) fun x hx => ?_⟩
  rw [region_region] at hx
  exact (h x hx).mono hle

theorem makes_symbol (hk : ∀ k, a.conjuring? = some k → k ∈ P) (h : ∀ x ∈ a.refs, c.From P x) :
    (symbol a).Makes c fun s d => d.From P (.symbol s) := by
  have hle := grows_symbol a c
  refine ⟨hle, .symbol (Interned.lt_size_of_get? (get?_symbol a c)) ?_ fun x hx => ?_⟩
  · rwa [symbol_symbol]
  · rw [symbol_symbol] at hx
    exact (h x hx).mono hle

/-- An object in a memory space. -/
theorem makes_inSpace {object : RegionId → Region} (space : Space)
    (hs : ∀ q x, (object q).symbol? = some x → c.From P (.symbol x))
    (hp : ∀ q, (object q).parent? = some q) :
    Makes (do region (object (← Naming.space space))) c fun r d => d.From P (.region r) := by
  refine (makes_region (P := P) (a := .space space) fun x hx => nomatch hx).bind fun q d hd hq => ?_
  refine makes_region fun x hx => ?_
  rcases mem_append.1 hx with hx | hx
  · cases hy : (object q).symbol? with
    | none =>
      rw [hy] at hx
      cases hx
    | some y =>
      rw [hy] at hx
      rw [mem_singleton.1 hx]
      exact (hs q y hy).mono hd
  · rw [hp] at hx
    rw [mem_singleton.1 hx]
    exact hq

/-- A part of a region. -/
theorem makes_part {a : Region} (hs : a.symbol? = none) (hp : a.parent? = some q)
    (hq : c.From P (.region q)) : (region a).Makes c fun r d => d.From P (.region r) :=
  makes_region fun x hx => by
    rw [Region.refs, hs, hp] at hx
    rw [mem_singleton.1 hx]
    exact hq

theorem makes_field (hq : c.From P (.region q)) (field : FieldId) :
    (region (.field field q)).Makes c fun r d => d.From P (.region r) :=
  makes_part rfl rfl hq

theorem makes_element (hq : c.From P (.region q)) (t : CType) (n : Int) :
    (region (.element t (.known n) q)).Makes c fun r d => d.From P (.region r) :=
  makes_part rfl rfl hq

theorem makes_var (x : VarId) (f : FrameId) : (var x f).Makes c fun r d => d.From P (.region r) :=
  makes_query_bind (makes_inSpace _ (fun _ _ h => nomatch h) fun _ => rfl)

theorem makes_string (e : ExprId) : (string e).Makes c fun r d => d.From P (.region r) :=
  makes_inSpace _ (fun _ _ h => nomatch h) fun _ => rfl

theorem makes_alloca (e : ExprId) (count : Nat) (f : FrameId) :
    (alloca e count f).Makes c fun r d => d.From P (.region r) :=
  makes_inSpace _ (fun _ _ h => nomatch h) fun _ => rfl

theorem makes_symbolic (hx : c.From P (.symbol x)) :
    (symbolic x).Makes c fun r d => d.From P (.region r) :=
  makes_inSpace _ (fun _ _ h => Option.some.inj h ▸ hx) fun _ => rfl

theorem makes_symbolicHeap (hx : c.From P (.symbol x)) :
    (symbolicHeap x).Makes c fun r d => d.From P (.region r) :=
  makes_inSpace _ (fun _ _ h => Option.some.inj h ▸ hx) fun _ => rfl

theorem makes_pointer {x : Naming RegionId} (hx : x.Makes c fun r d => d.From P (.region r)) :
    Makes (do return Value.pointer (← x)) c fun v d => v.From d P :=
  hx.bind fun _ _ _ hr => makes_pure (from_pointer hr)

theorem makes_symbolValue (hx : c.From P (.symbol x)) : (symbolValue x).Makes c fun v d => v.From d P :=
  makes_query_bind (makes_ite (fun _ => makes_pointer (makes_symbolic hx)) fun _ =>
    makes_pure (from_symbol hx))

theorem makes_scalarValue (hk : ∀ k, a.conjuring? = some k → k ∈ P) (h : ∀ x ∈ a.refs, c.From P x) :
    (scalarValue a).Makes c fun v d => v.From d P :=
  makes_ite (fun _ => (makes_symbol hk h).bind fun _ _ _ hx => makes_symbolValue hx) fun _ =>
    makes_pure (from_of_nil rfl)

theorem makes_regionValue (hq : c.From P (.region q)) (t : CType) :
    (regionValue q t).Makes c fun v d => v.From d P :=
  makes_scalarValue (fun _ h => nomatch h) fun x hx => by
    rw [mem_singleton.1 hx]
    exact hq

theorem makes_derivedValue (hx : c.From P (.symbol x)) (hq : c.From P (.region q)) (t : CType) :
    (derivedValue x q t).Makes c fun v d => v.From d P :=
  makes_scalarValue (fun _ h => nomatch h) fun y hy => by
    rcases mem_cons.1 hy with rfl | hy
    · exact hx
    · rw [mem_singleton.1 hy]
      exact hq

theorem makes_castRegion (hq : c.From P (.region q)) (t : CType) :
    (castRegion q t).Makes c fun r d => d.From P (.region r) :=
  makes_query_bind (makes_ite (fun _ => makes_pure hq) fun _ => makes_element hq _ _)

theorem makes_rebase {outer onto : RegionId} (hq : c.From P (.region q))
    (honto : c.From P (.region onto)) :
    (rebase q outer onto).Makes c fun r d => d.From P (.region r) := by
  refine makes_query_bind (.foldrM honto fun below part hpart d hd hbelow => ?_)
  obtain ⟨m, hm, rfl⟩ := mem_map.1 hpart
  have hfrom := hq.of_mem_chain (( takeWhile_prefix _).subset hm)
  split
  · exact makes_field hbelow _
  · next t i p hregion =>
    refine makes_region fun x hx => ?_
    rcases mem_append.1 hx with hx | hx
    · refine (hfrom.ref (y := x) ?_).mono hd
      rw [Catalog.refs, hregion]
      exact mem_append_left _ (by cases i <;> exact hx)
    · rw [mem_singleton.1 hx]
      exact hbelow
  · exact makes_pure hbelow

theorem makes_within {part : RegionId → Naming RegionId} (hv : v.From c P)
    (h : ∀ q, c.From P (.region q) → (part q).Makes c fun r d => d.From P (.region r)) :
    (within v part).Makes c fun v d => v.From d P := by
  unfold within
  split
  · next hr => exact makes_pointer (h _ (hv.region hr))
  · exact makes_pure hv

/-! ### Operators -/

theorem makes_symInt (hx : c.From P (.symbol x)) (op : BinaryOp) (n : Int) (t : CType) :
    (symbol (.symInt x op n t)).Makes c fun s d => d.From P (.symbol s) :=
  makes_symbol (fun _ h => nomatch h) fun y hy => by
    rw [mem_singleton.1 hy]
    exact hx

theorem makes_operation (hk : a.conjuring? = none) (h : ∀ x ∈ a.refs, c.From P x) :
    Makes (do return Value.symbol (← symbol a)) c fun v d => v.From d P :=
  (makes_symbol (fun _ hk' => nomatch hk.symm.trans hk') h).bind fun _ _ _ hx =>
    makes_pure (from_symbol hx)

theorem from_simplified? {n : Int} (hx : c.From P (.symbol x)) (h : simplified? x op n = some v) :
    v.From c P := by
  unfold simplified? at h
  split at h
  all_goals cases h
  all_goals first | exact from_symbol hx | exact from_of_nil rfl

theorem mem_refs_of_gather? {p : SymbolId × Int} (h : gather? c x op = some p) :
    Entity.symbol p.1 ∈ (c.symbol x).refs := by
  have hsum := (filter_eq_some_iff.1 h).1
  split at hsum
  · split at hsum
    all_goals cases hsum
    all_goals next hsymbol =>
      rw [hsymbol]
      exact mem_cons_self
  · cases hsum

theorem makes_symbolWithInt (hx : c.From P (.symbol x)) (op : BinaryOp) (n : Int) (t : CType) :
    Makes (symbolWithInt x op n t) c fun v d => v.From d P := by
  unfold Makes
  fun_induction symbolWithInt x op n t c with
  | case1 x op n v hv => exact ⟨le_rfl, from_simplified? hx hv⟩
  | case2 x op n _ p hp ih => exact ih (hx.ref (mem_refs_of_gather? hp))
  | case3 x op n _ _ i d hsymbol =>
    have h := makes_symInt hx op n t
    rw [Makes, hsymbol] at h
    exact ⟨h.1, from_symbol h.2⟩

theorem makes_compareWithAddress (hq : c.From P (.region q)) (op : BinaryOp) (n : Int) :
    (compareWithAddress op q n).Makes c fun v d => v.From d P := by
  refine makes_ite (fun _ => makes_pure (from_of_nil rfl)) fun _ => makes_query_bind ?_
  cases hx : c.symbolicBase? q with
  | none => exact makes_pure (from_of_nil rfl)
  | some x =>
    exact (makes_symInt (hq.symbolicBase hx) _ _ _).bind fun _ _ _ h => makes_pure (from_symbol h)

theorem makes_binaryLocs {a b : Loc} (ha : (Value.loc a).From c P) (hb : (Value.loc b).From c P)
    (op : BinaryOp) : (binaryLocs op a b).Makes c fun v d => v.From d P := by
  unfold binaryLocs
  split
  · exact makes_pure (from_of_nil (entities_foldInts _ _ _ _))
  · exact makes_compareWithAddress (ha.region rfl) _ _
  · split
    · exact makes_compareWithAddress (hb.region rfl) _ _
    · exact makes_pure (from_of_nil rfl)
  · exact makes_query (from_of_nil (entities_compareRegions _ _ _ _))

theorem makes_moveRegion (hq : c.From P (.region q)) (t : CType) (n : Int) :
    (moveRegion t q n).Makes c fun v d => v.From d P := by
  refine makes_ite (fun _ => makes_pure (from_pointer hq)) fun _ => makes_query_bind ?_
  split
  · next t' i p hregion =>
    refine makes_ite (fun _ => makes_pointer (makes_element ?_ _ _)) fun _ =>
      makes_pointer (makes_element hq _ _)
    exact hq.parent (by rw [hregion]; rfl)
  · exact makes_pointer (makes_element hq _ _)

theorem makes_moveRegionBy (hq : c.From P (.region q)) (hx : c.From P (.symbol x)) (t : CType) :
    (moveRegionBy t q x).Makes c fun v d => v.From d P := by
  have hmoved : ∀ p, c.From P (.region p) →
      (region (.element t (.symbolic x) p)).Makes c fun r d => d.From P (.region r) :=
    fun p hp => makes_region fun y hy => by
      rcases mem_cons.1 hy with rfl | hy
      · exact hx
      · rw [mem_singleton.1 hy]
        exact hp
  refine makes_query_bind ?_
  split
  · next t' p hregion =>
    refine makes_ite (fun _ => makes_pointer (hmoved p ?_)) fun _ => makes_pure (from_of_nil rfl)
    exact hq.parent (by rw [hregion]; rfl)
  · exact makes_pure (from_of_nil rfl)
  · exact makes_pointer (hmoved q hq)

theorem makes_binaryLocInt {a : Loc} (ha : (Value.loc a).From c P) (hv : v.From c P)
    (op : BinaryOp) (t : CType) : (binaryLocInt op a v t).Makes c fun v d => v.From d P := by
  refine makes_ite (fun _ => ?_) fun _ => ?_
  · dsimp only
    split
    · exact makes_query_bind (makes_pure (from_of_nil rfl))
    · exact makes_moveRegion (ha.region rfl) _ _
    · exact makes_ite (fun _ => makes_moveRegionBy (ha.region rfl) hv.symbolEntity _) fun _ =>
        makes_pure (from_of_nil rfl)
    · exact makes_pure (from_of_nil rfl)
  · split
    · exact makes_ite (fun _ => makes_binaryLocs ha (from_of_nil rfl) _) fun _ =>
        makes_pure (from_of_nil rfl)
    · exact makes_pure (from_of_nil rfl)

theorem makes_binaryInts (hl : l.From c P) (hr : r.From c P) (op : BinaryOp) (t : CType) :
    (binaryInts op l r t).Makes c fun v d => v.From d P := by
  have hnone : (pure .unknown : Naming Value).Makes c fun v d => v.From d P :=
    makes_pure (from_of_nil rfl)
  unfold binaryInts
  split
  · exact makes_pure (from_of_nil (entities_foldInts _ _ _ _))
  · exact makes_symbolWithInt hl.symbolEntity _ _ _
  · split
    · exact makes_symbolWithInt hr.symbolEntity _ _ _
    · refine makes_ite (fun _ => makes_symbolWithInt hr.symbolEntity _ _ _) fun _ =>
        makes_operation rfl fun y hy => ?_
      rw [mem_singleton.1 hy]
      exact hr.symbolEntity
  · split
    · exact makes_pure (from_of_nil rfl)
    · refine makes_operation rfl fun y hy => ?_
      rcases mem_cons.1 hy with rfl | hy
      · exact hl.symbolEntity
      · rw [mem_singleton.1 hy]
        exact hr.symbolEntity
  · refine makes_ite (fun _ => makes_binaryLocs ?_ (from_of_nil rfl) _) fun _ => hnone
    exact fun x hx => hl x (entities_locAsInt _ ▸ hx)
  · exact hnone

theorem makes_binary (hl : l.From c P) (hr : r.From c P) (op : BinaryOp) (t : CType) :
    (binary op l r t).Makes c fun v d => v.From d P := by
  refine makes_ite (fun _ => makes_pure (from_of_nil rfl)) fun _ =>
    makes_ite (fun _ => makes_pure (from_of_nil rfl)) fun _ => ?_
  split
  · exact makes_binaryLocs hl hr _
  · exact makes_binaryLocInt hl hr _ _
  · exact makes_ite (fun _ => makes_binaryLocInt hr hl _ _) fun _ => makes_pure (from_of_nil rfl)
  · exact makes_binaryInts hl hr _ _

theorem makes_unary (hv : v.From c P) (op : ValueOp) (t : CType) :
    (unary op v t).Makes c fun v d => v.From d P := by
  cases op with
  | not =>
    refine makes_binary hv ?_ _ _
    cases v <;> exact from_of_nil rfl
  | neg => exact makes_binary (from_of_nil rfl) hv _ _
  | bitNot => exact makes_binary hv (from_of_nil rfl) _ _

end Naming

/-! ### Memory -/

namespace Value.BindingsFrom

variable {bindings : List (BindingKey × Value)}

theorem lookup {k : BindingKey} (h : BindingsFrom bindings c P)
    (hv : OrderedMap.lookup k bindings = some v) : v.From c P :=
  (h _ (mem_of_lookup_eq hv)).2

end Value.BindingsFrom

namespace Store

variable {s : Store} {r : RegionId} {t : CType} {bindings : List (BindingKey × Value)}

theorem From.mono {d : Catalog} (h : s.From c P) (hcd : c ≤ d) : s.From d P :=
  Value.BindingsFrom.mono h hcd

theorem From.insert {k : BindingKey} (h : s.From c P) (hk : c.From P (.region k.region))
    (hv : v.From c P) : Store.From ⟨s.bindings.insert k v⟩ c P := fun e he => by
  rcases mem_insert he with rfl | he
  · exact ⟨hk, hv⟩
  · exact h e he

theorem From.kill (h : s.From c P) (d : Catalog) (r : RegionId) : (s.kill d r).From c P :=
  fun e he => h e (mem_filter.1 he).1

theorem from_literalByte? (h : literalByte? c r = some v) : v.From c P := by
  refine from_of_nil ?_
  unfold literalByte? at h
  split at h
  · split at h
    · split at h
      · dsimp only at h
        split_ifs at h
        all_goals
          cases h
          rfl
      · cases h
    · cases h
  · cases h

theorem makes_initialValue (hr : c.From P (.region r)) :
    (initialValue r t).Makes c fun v d => v.From d P := by
  refine makes_query_bind ?_
  split
  · next h => exact makes_pure (from_literalByte? h)
  · refine makes_query_bind ?_
    split
    · exact makes_pure (from_of_nil rfl)
    · exact makes_pure (from_of_nil rfl)
    · exact makes_regionValue hr t

theorem from_nearestDefault? {q : RegionId} (hb : Value.BindingsFrom bindings c P)
    (h : nearestDefault? c bindings r = some (q, v)) : v.From c P := by
  obtain ⟨k, hk⟩ := mem_of_nearestDefault? h
  exact (hb _ hk).2

theorem makes_retrieveFrom (hb : Value.BindingsFrom bindings c P) (hr : c.From P (.region r)) :
    Naming.Makes (retrieveFrom bindings r t) c fun v d => v.From d P := by
  unfold Naming.Makes
  fun_induction retrieveFrom bindings r t c with
  | case1 | case2 => exact ⟨le_rfl, hb.lookup ‹_›⟩
  | case3 => exact ⟨le_rfl, from_snapshot.2 ⟨hr, hb⟩⟩
  | case4 => exact ⟨le_rfl, from_pointer hr⟩
  | case5 => exact ⟨le_rfl, (hb.lookup ‹_›).fit t⟩
  | case6 => exact makes_initialValue hr
  | case7 bindings r c _ _ _ _ x q hq _ =>
    exact makes_symbolValue (from_nearestDefault? hb hq).symbolEntity
  | case8 bindings r c _ _ _ _ x q hq _ =>
    exact makes_derivedValue (from_nearestDefault? hb hq).symbolEntity hr t
  | case9 bindings r c direct hs ha hd q inner source hq path d hrebase ih =>
    obtain ⟨hsource, hinner⟩ := from_snapshot.1 (from_nearestDefault? hb hq)
    have hpath : Naming.Makes (rebase r q source) c fun p d => d.From P (.region p) :=
      makes_rebase hr hsource
    rw [Naming.Makes, hrebase] at hpath
    obtain ⟨hle, hv⟩ := ih (hinner.mono hpath.1) hpath.2
    exact ⟨hpath.1.trans hle, hv⟩
  | case10 => exact ⟨le_rfl, (from_nearestDefault? hb ‹_›).fit t⟩

theorem makes_retrieve (hs : s.From c P) {l : Loc} (hl : (Value.loc l).From c P) (t : CType) :
    (s.retrieve l t).Makes c fun v d => v.From d P := by
  cases l with
  | address _ => exact makes_pure (from_of_nil rfl)
  | region r => exact makes_retrieveFrom hs (hl.region rfl)

theorem makes_retrieveFlat (hs : s.From c P) {l : Loc} (hl : (Value.loc l).From c P) (t : CType) :
    (s.retrieveFlat l t).Makes c fun v d => v.From d P := by
  have hnone : (pure .unknown : Naming Value).Makes c fun v d => v.From d P :=
    makes_pure (from_of_nil rfl)
  cases l with
  | address _ => exact hnone
  | region r =>
    refine makes_query_bind (makes_ite (fun _ => ?_) fun _ => hnone)
    split
    · next h => exact makes_pure ((Value.BindingsFrom.lookup hs h).fit t)
    · exact makes_query_bind (makes_ite (fun _ => makes_pure (from_of_nil rfl)) fun _ =>
          makes_regionValue (hl.region rfl) t)

theorem From.bind (hs : s.From c P) (hr : c.From P (.region r)) (hv : v.From c P) (d : Catalog) :
    (s.bind d (.region r) v).From c P := by
  unfold Store.bind
  dsimp only
  split
  · exact (hs.kill d r).insert hr hv
  · exact hs.insert hr hv

theorem From.bindFlat (hs : s.From c P) (hr : c.From P (.region r)) (hv : v.From c P)
    (d : Catalog) : (s.bindFlat d (.region r) v).From c P := by
  unfold Store.bindFlat
  dsimp only
  split
  · exact hs.insert hr hv
  · exact hs

end Store

/-! ### Forgetting -/

/-- The symbols that are conjured for an expression in a frame, at a count. -/
def conjuredFor (e : ExprId) (f : FrameId) (count : Nat) : Set Conjuring :=
  {k | k.expr = e ∧ k.frame = f ∧ k.count = count}

/-- The symbols that are conjured for an expression to take the place of what was forgotten. -/
def conjuredInPlace (e : ExprId) (f : FrameId) (count : Nat) : Set Conjuring :=
  {k | k ∈ conjuredFor e f count ∧ k.tag.isSome}

/-- The symbols that forgetting conjures. -/
def Invalidation.conjures (request : Invalidation) : Set Conjuring :=
  conjuredInPlace request.expr request.frame request.count

namespace Store

variable {s before : Store} {r : RegionId} {request : Invalidation} {seen : List RegionId}
  {symbols : List SymbolId}

theorem makes_conjureContents (hr : c.From P (.region r)) (hP : request.conjures ⊆ P) :
    (conjureContents r request).Makes c fun e d => d.From P (.region e.1.region) ∧ e.2.From d P := by
  refine makes_query_bind ?_
  refine (makes_symbol (P := P) (fun k hk => ?_) fun x hx => ?_).bind fun x d hd hx => ?_
  · cases hk
    exact hP ⟨⟨rfl, rfl, rfl⟩, rfl⟩
  · rw [mem_singleton.1 hx]
    exact hr
  refine makes_ite (fun _ => ?_) fun _ => ?_
  · exact (makes_symbolValue hx).bind fun v d' hd' hv => makes_pure ⟨(hr.mono hd).mono hd', hv⟩
  · exact makes_pure ⟨hr.mono hd, from_symbol hx⟩

theorem From.ofObject (h : s.From c P) {d : Catalog} {object : RegionId}
    (hv : v ∈ s.ofObject d object) : v.From c P := by
  obtain ⟨e, he, hev⟩ := mem_filterMap.1 hv
  split at hev
  · cases hev
    exact (h e he).2
  · cases hev

theorem makes_forget {steps : Nat} {stack : List RegionId} (hbefore : before.From c P)
    (hP : request.conjures ⊆ P) (hstack : ∀ r ∈ stack, c.From P (.region r)) (hs : s.From c P) :
    (forget before request steps stack seen s symbols).Makes c fun out d => out.1.From d P := by
  induction steps generalizing c stack seen s symbols with
  | zero => exact makes_pure hs
  | succ steps ih =>
    cases stack with
    | nil => exact makes_pure hs
    | cons object stack =>
      have hrest : ∀ r ∈ stack, c.From P (.region r) := fun r hr => hstack r (mem_cons_of_mem _ hr)
      have hobject := hstack object mem_cons_self
      rw [forget]
      refine makes_query_bind (makes_ite (fun _ => ih hbefore hrest hs) fun _ => ?_)
      refine makes_query_bind (makes_query_bind ?_)
      refine (makes_conjureContents hobject hP).bind fun e d hd he => ?_
      refine ih (hbefore.mono hd) (fun q hq => ?_) (((hs.kill c object).mono hd).insert he.1 he.2)
      rcases mem_append.1 hq with hq | hq
      · obtain ⟨v, hv, hvq⟩ := mem_filterMap.1 (mem_reverse.1 hq)
        obtain ⟨m, hm, rfl⟩ := map_eq_some_iff.1 hvq
        exact (((hbefore.ofObject hv).region hm).base).mono hd
      · exact (hrest q hq).mono hd

theorem makes_forgetFlat {objects : List RegionId} (hP : request.conjures ⊆ P)
    (hobjects : ∀ r ∈ objects, c.From P (.region r)) (hs : s.From c P) :
    (forgetFlat before request objects seen s symbols).Makes c fun out d => out.1.From d P := by
  induction objects generalizing c seen s symbols with
  | nil => exact makes_pure hs
  | cons r rest ih =>
    have hrest : ∀ r ∈ rest, c.From P (.region r) := fun q hq => hobjects q (mem_cons_of_mem _ hq)
    rw [forgetFlat]
    refine makes_query_bind (makes_ite (fun _ => ih hrest hs) fun _ => ?_)
    refine makes_query_bind ?_
    refine (makes_conjureContents (hobjects r mem_cons_self) hP).bind fun e d hd he => ?_
    exact ih (fun q hq => (hrest q hq).mono hd) ((hs.mono hd).insert he.1 he.2)

theorem makes_mapM_var (f : FrameId) (vars : List VarId) :
    (vars.mapM (var · f)).Makes c fun rs d => ∀ r ∈ rs, d.From P (.region r) := by
  induction vars generalizing c with
  | nil => exact makes_pure fun r hr => nomatch hr
  | cons x rest ih =>
    rw [mapM_cons]
    refine (makes_var (P := P) x f).bind fun r d _ hr => ih.bind fun rs d' hd' hrs => ?_
    refine makes_pure fun q hq => ?_
    rcases mem_cons.1 hq with rfl | hq
    · exact hr.mono hd'
    · exact hrs q hq

theorem makes_invalidationRoots (h : ∀ r ∈ request.regions, c.From P (.region r)) :
    (invalidationRoots request).Makes c fun rs d => ∀ r ∈ rs, d.From P (.region r) := by
  have hgiven : ∀ r ∈ request.regions.map c.base, c.From P (.region r) := fun r hr => by
    obtain ⟨q, hq, rfl⟩ := mem_map.1 hr
    exact (h q hq).base
  refine makes_query_bind (makes_ite (fun _ => makes_query_bind ?_) fun _ => makes_pure hgiven)
  refine (makes_mapM_var (P := P) request.frame _).bind fun rs d hd hrs => ?_
  refine makes_pure fun r hr => ?_
  rcases mem_append.1 hr with hr | hr
  · exact (hgiven r hr).mono hd
  · exact hrs r hr

end Store

namespace StorePolicy

variable {s : Store} {r : RegionId} {request : Invalidation}

section

variable (p : StorePolicy) (hs : s.From c P)
include hs

theorem makes_retrieve {l : Loc} (hl : (Value.loc l).From c P) (t : CType) :
    (p.retrieve s l t).Makes c fun v d => v.From d P := by
  cases p with
  | region => exact Store.makes_retrieve hs hl t
  | flat => exact Store.makes_retrieveFlat hs hl t

theorem from_bind (hr : c.From P (.region r)) (hv : v.From c P) (d : Catalog) :
    (p.bind s d (.region r) v).From c P := by
  cases p with
  | region => exact hs.bind hr hv d
  | flat => exact hs.bindFlat hr hv d

theorem from_bindDefault (hr : c.From P (.region r)) (hv : v.From c P) :
    (p.bindDefault s r v).From c P := by
  cases p with
  | region => exact hs.insert hr hv
  | flat => exact hs

/-- **Forgetting conjures symbols for the request only.** -/
theorem makes_invalidate (hregions : ∀ r ∈ request.regions, c.From P (.region r))
    (hP : request.conjures ⊆ P) : (p.invalidate s request).Makes c fun out d => out.1.From d P := by
  cases p with
  | region =>
    refine (Store.makes_invalidationRoots hregions).bind fun roots d hd hroots => ?_
    exact Store.makes_forget (hs.mono hd) hP (fun r hr => hroots r (mem_reverse.1 hr)) (hs.mono hd)
  | flat =>
    refine (Store.makes_invalidationRoots hregions).bind fun roots d hd hroots => ?_
    exact Store.makes_forgetFlat hP hroots (hs.mono hd)

end

end StorePolicy

/-! ### Constraints -/

namespace Constraints

variable {m m' : Constraints} {x : SymbolId} {truth : Bool}

/-- All conjured symbols that something is known of are of the set. -/
def From (m : Constraints) (c : Catalog) (P : Set Conjuring) : Prop :=
  ∀ e ∈ m.entries, c.From P (.symbol e.1)

theorem mem_refs_of_shifted? {p : SymbolId × Int} (h : c.shifted? x = some p) :
    Entity.symbol p.1 ∈ (c.symbol x).refs := by
  have hshifted := (filter_eq_some_iff.1 h).1
  unfold Symbol.shifted? at hshifted
  split at hshifted
  all_goals cases hshifted
  all_goals next hsymbol =>
    rw [hsymbol]
    exact mem_cons_self

theorem mem_refs_of_comparison? {p : SymbolId × BinaryOp × Int} (h : c.comparison? x = some p) :
    Entity.symbol p.1 ∈ (c.symbol x).refs := by
  have hcomparison := (filter_eq_some_iff.1 h).1
  unfold Symbol.comparison? at hcomparison
  split at hcomparison
  · next hsymbol =>
    split at hcomparison
    · cases hcomparison
      rw [hsymbol]
      exact mem_cons_self
    · cases hcomparison
  · next hsymbol =>
    split at hcomparison
    · obtain ⟨op, -, rfl⟩ := map_eq_some_iff.1 hcomparison
      rw [hsymbol]
      exact mem_cons_self
    · cases hcomparison
  · cases hcomparison

theorem From.narrow {allowed : RangeSet} (hm : m.From c P) (hx : c.From P (.symbol x))
    (h : m.narrow c x allowed = some m') : m'.From c P := by
  fun_induction Constraints.narrow m c x allowed with
  | case1 x allowed p hp _ ih => exact ih (hx.ref (mem_refs_of_shifted? hp)) h
  | case2 => cases h
  | case3 =>
    cases h
    intro e he
    rcases mem_insert he with rfl | he
    · exact hx
    · exact hm e he

theorem From.assumeSymbol (hm : m.From c P) (hx : c.From P (.symbol x))
    (h : m.assumeSymbol c x truth = some m') : m'.From c P := by
  fun_induction Constraints.assumeSymbol m c x truth with
  | case1 => exact hm.narrow hx h
  | case2 =>
    cases h
    exact hm
  | case3 x truth p hp op _ _ ih => exact ih (hx.ref (mem_refs_of_comparison? hp)) h
  | case4 x truth p hp op _ _ => exact hm.narrow (hx.ref (mem_refs_of_comparison? hp)) h

theorem From.assumeLoc {l : Loc} (hm : m.From c P) (hl : (Value.loc l).From c P)
    (h : m.assumeLoc c l truth = some m') : m'.From c P := by
  unfold Constraints.assumeLoc at h
  split at h
  · split at h
    · cases h
      exact hm
    · cases h
  · split at h
    · next hx => exact hm.assumeSymbol ((hl.region rfl).symbolicBase hx) h
    · split at h
      · cases h
        exact hm
      · cases h

/-- **Assumptions are about symbols in the value.** -/
theorem From.assume (hm : m.From c P) (hv : v.From c P) (h : m.assume c v truth = some m') :
    m'.From c P := by
  unfold Constraints.assume at h
  split at h
  · cases h
    exact hm
  · cases h
    exact hm
  · cases h
    exact hm
  · exact hm.assumeLoc hv h
  · exact hm.assumeLoc (fun x hx => hv x (entities_locAsInt _ ▸ hx)) h
  · split at h
    · cases h
      exact hm
    · cases h
  · exact hm.assumeSymbol hv.symbolEntity h

end Constraints

/-! ### States -/

namespace State

variable {s' : State} {p : StorePolicy} {r : RegionId} {f : FrameId} {t : CType}

theorem From.ranges (h : s.From c P) : s.constraints.From c P := fun _ he => h _ (.constrained he)

theorem From.assume {truth : Bool} (h : s.From c P) (hv : v.From c P)
    (ha : s.assume c v truth = some s') : s'.From c P := by
  obtain ⟨m, hm, rfl⟩ := map_eq_some_iff.1 ha
  have hnew := h.ranges.assume hv hm
  intro x hx
  cases hx with
  | place he => exact h _ (.place he)
  | stored he hx => exact h x (.stored he hx)
  | value he hx => exact h x (.value he hx)
  | constrained he => exact hnew _ he
  | allocated he => exact h _ (.allocated he)

theorem From.kill (h : s.From c P) (d : Catalog) (r : RegionId) : (s.kill d r).From c P :=
  h.withStore (h.memory.kill d r)

section

variable (h : s.From c P) (hr : c.From P (.region r))
include h hr

theorem From.bindDefault (hv : v.From c P) :
    (s.bindDefault p r v).From c P := h.withStore (p.from_bindDefault h.memory hr hv)

theorem makes_write (hv : v.From c P) : (s.write p r v).Makes c fun s d => s.From d P :=
  makes_query (h.withStore (p.from_bind h.memory hr hv c))

theorem makes_zeroed : (s.zeroed p r).Makes c fun s d => s.From d P :=
  makes_query ((h.kill c r).bindDefault hr (from_of_nil rfl))

theorem makes_writeText (text : String) : (s.writeText p r text).Makes c fun s d => s.From d P := by
  refine (makes_zeroed h hr).bind fun s d hd hs => .foldlM hs fun s b _ d' hd' hs => ?_
  refine (makes_element ((hr.mono hd).mono hd') _ _).bind fun q d'' hd'' hq => ?_
  exact makes_write (hs.mono hd'') hq (from_of_nil (entities_ofInt _ _))

end

theorem makes_partAt (hr : c.From P (.region r)) (path : List InitStep) :
    (partAt r t path).Makes c fun r d => d.From P (.region r) := by
  induction path generalizing c r t with
  | nil => exact makes_pure hr
  | cons step rest ih =>
    cases step with
    | element i => exact (makes_element hr _ _).bind fun q d _ hq => ih hq
    | field field => exact makes_query_bind ((makes_field hr _).bind fun q d _ hq => ih hq)

theorem makes_writeList (h : s.From c P) (hr : c.From P (.region r)) (entries : List InitEntry) :
    (s.writeList p f r t entries).Makes c fun s d => s.From d P := by
  refine (makes_zeroed h hr).bind fun s d hd hs => .foldlM hs fun s b _ d' hd' hs => ?_
  refine (makes_partAt ((hr.mono hd).mono hd') _).bind fun q d'' hd'' hq => ?_
  exact makes_write (hs.mono hd'') hq ((hs.mono hd'').value f _)

theorem makes_evaluate? (h : s.From c P) (f : FrameId) (e : ExprId) :
    (s.evaluate? f e).Makes c fun v? d => ∀ v, v? = some v → v.From d P := by
  have hsome : ∀ {v : Value} {d : Catalog}, v.From d P →
      (pure (some v) : Naming (Option Value)).Makes d fun v? d => ∀ v, v? = some v → v.From d P :=
    fun hv => makes_pure fun v hv' => some.inj hv' ▸ hv
  have hthen : ∀ {x : Naming Value} {d : Catalog}, (x.Makes d fun v d => v.From d P) →
      Naming.Makes (do return some (← x)) d fun v? d => ∀ v, v? = some v → v.From d P :=
    fun hx => hx.bind fun _ _ _ hv => hsome hv
  have hnone : (pure none : Naming (Option Value)).Makes c
      fun v? d => ∀ v, v? = some v → v.From d P := makes_pure fun _ hv => nomatch hv
  refine makes_query_bind ?_
  dsimp only
  split
  · exact hsome (from_of_nil (entities_ofInt _ _))
  · exact hsome (from_of_nil rfl)
  · exact (makes_string e).bind fun _ _ _ hr => hsome (from_pointer hr)
  · exact (makes_var _ f).bind fun _ _ _ hr => hsome (from_pointer hr)
  · exact hsome (h.value f _)
  · exact hthen (makes_within (h.value f _) fun q hq => makes_element hq _ _)
  · exact hthen (makes_within (h.value f _) fun q hq => makes_castRegion hq _)
  · exact hthen (makes_unary (h.value f _) _ _)
  · refine makes_ite (fun _ => makes_query_bind (hsome ?_)) fun _ => ?_
    · exact from_of_nil (entities_pointerDiff _ _ _)
    · exact hthen (makes_binary (h.value f _) (h.value f _) _ _)
  · exact hthen (makes_within (h.value f _) fun q hq => makes_field hq _)
  · refine (makes_binary (h.value f _) (h.value f _) _ _).bind fun v d _ hv => ?_
    exact hthen (makes_within hv fun q hq => makes_castRegion hq _)
  · exact hsome ((h.value f _).cast _ _)
  all_goals exact hnone

theorem makes_updated {old : Value} (h : s.From c P) (hold : old.From c P) (f : FrameId)
    (e : TypedExpr) : (s.updated f e old).Makes c fun vs d => vs.1.From d P ∧ vs.2.From d P := by
  unfold updated
  split
  · exact makes_pure ⟨h.value f _, h.value f _⟩
  · exact (makes_binary hold (h.value f _) _ _).bind fun _ _ _ hv => makes_pure ⟨hv, hv⟩
  · have hstep : (if e.type.isPointer then Value.int 1 else .ofInt 1 e.type).From c P := by
      split
      · exact from_of_nil rfl
      · exact from_of_nil (entities_ofInt _ _)
    refine (makes_binary hold hstep _ _).bind fun new d hd hnew => ?_
    refine makes_pure ⟨hnew, ?_⟩
    split
    · exact hnew
    · exact hold.mono hd
  · exact makes_pure ⟨hold, hold⟩

theorem makes_partOf? (hr : c.From P (.region r)) (t : CType) (i : Nat) :
    (partOf? r t i).Makes c fun part? d => ∀ q, part? = some q → d.From P (.region q.1) := by
  have hnone : (pure none : Naming (Option (RegionId × CType))).Makes c
      fun part? d => ∀ q, part? = some q → d.From P (.region q.1) :=
    makes_pure fun _ hq => nomatch hq
  have hpart : ∀ {x : Naming RegionId} {t : CType}, (x.Makes c fun q d => d.From P (.region q)) →
      Naming.Makes (do return some (← x, t)) c
        fun part? d => ∀ q, part? = some q → d.From P (.region q.1) :=
    fun hx => hx.bind fun _ _ _ hq => makes_pure fun _ hq' => some.inj hq' ▸ hq
  unfold partOf?
  split
  · exact hpart (makes_element hr _ _)
  · refine makes_query_bind ?_
    split
    · exact hnone
    · split
      · exact hnone
      · exact hpart (makes_field hr _)
  · exact hnone

mutual

theorem makes_writeConst {c : Catalog} {s : State} {r : RegionId} (h : s.From c P)
    (hr : c.From P (.region r)) (t : CType) :
    (init : ConstInit) → (writeConst p s r t init).Makes c fun s d => s.From d P
  | .int n => makes_write h hr (from_of_nil (entities_ofInt _ _))
  | .null => makes_write h hr (from_of_nil rfl)
  | .string e => by
    unfold writeConst
    refine makes_ite (fun _ => ?_) fun _ => makes_pure h
    refine (makes_string (P := P) e).bind fun text d hd htext => ?_
    refine (makes_element htext _ _).bind fun q d' hd' hq => ?_
    exact makes_write ((h.mono hd).mono hd') ((hr.mono hd).mono hd') (from_pointer hq)
  | .list items => by
    unfold writeConst
    exact makes_writeConsts (h.bindDefault hr (from_of_nil rfl)) hr t 0 items

theorem makes_writeConsts {c : Catalog} {s : State} {r : RegionId} (h : s.From c P)
    (hr : c.From P (.region r)) (t : CType) (i : Nat) :
    (items : List ConstInit) → (writeConsts p s r t i items).Makes c fun s d => s.From d P
  | [] => makes_pure h
  | item :: rest => by
    unfold writeConsts
    refine (makes_partOf? hr t i).bind fun part? d hd hpart => ?_
    cases part? with
    | none => exact makes_pure (h.mono hd)
    | some part =>
      refine (makes_writeConst (h.mono hd) (hpart part rfl) part.2 item).bind fun s' d' hd' hs => ?_
      exact makes_writeConsts hs ((hr.mono hd).mono hd') t (i + 1) rest

end

/-- Nothing is conjured where a program starts. -/
theorem makes_ofGlobals (p : StorePolicy) (f : FrameId) (c : Catalog) :
    (ofGlobals p f).Makes c fun s d => s.From d P := by
  refine makes_query_bind (.foldlM from_empty fun s g _ d hd hs => ?_)
  refine (makes_var (P := P) g.var f).bind fun r d' hd' hr => ?_
  cases g.value with
  | none => exact makes_pure ((hs.mono hd').bindDefault hr (from_of_nil rfl))
  | some init => exact makes_writeConst (hs.mono hd') hr _ init

theorem makes_invalidate {request : Invalidation} (h : s.From c P)
    (hregions : ∀ r ∈ request.regions, c.From P (.region r)) (hP : request.conjures ⊆ P) :
    (s.invalidate p request).Makes c fun out d => out.1.From d P :=
  (p.makes_invalidate h.memory hregions hP).bind fun _ _ hd hstore =>
    makes_pure ((h.mono hd).withStore hstore)

end State

end PathScout

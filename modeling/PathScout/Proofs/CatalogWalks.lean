import PathScout.Proofs.CreationOrder
import PathScout.Proofs.FrameStacks

/-!
# Walks through the tables

The walks from a number to what it refers to are written with guards: only older regions and
symbols are visited, and texts and stacks of frames are read to a depth that is given beforehand. In
orderly tables the guards never matter. On every number that was handed out the walks follow the
references and nothing else, and as references lead to earlier numbers only, they end.

* `Tables.Walks`: the equations of the walks, without guards.
* `Tables.Orderly.walks`: they hold in orderly tables.
* `Session.Legal.canonical`: what is known of the numbers after every sequence of calls.
-/

namespace PathScout

open List

namespace Catalog

variable {c : Catalog} {r p : RegionId} {s : SymbolId}

/-! ### Regions -/

section

variable (hc : c.WellFormed) (r : RegionId)
include hc

theorem base_step : c.base r = match c.region r with
      | .field _ p | .element _ _ p => c.base p
      | _ => r := by
  by_cases hpart : (c.region r).isPart = true
  · obtain ⟨p, hp⟩ := parent?_of_isPart hpart
    rw [base_of_part hc hpart (hc.enclosing?_eq r ▸ hp)]
    cases hr : c.region r <;> simp_all [Region.isPart, Region.parent?]
  · rw [base_of_not_part (Bool.eq_false_iff.2 hpart)]
    cases hr : c.region r <;> simp_all [Region.isPart]

theorem spaceRegion_step : c.spaceRegion r = match (c.region r).parent? with
      | some p => c.spaceRegion p
      | none => r := by
  cases hp : (c.region r).parent? with
  | none => rw [spaceRegion, chain_of_none (hc.enclosing?_eq r ▸ hp)]; rfl
  | some p =>
    rw [spaceRegion, chain_of_some (hc.enclosing?_eq r ▸ hp)]
    have hne : c.chain p ≠ [] := ne_nil_of_mem mem_chain_self
    simp [spaceRegion, getLastD_eq_getLast?, getLast?_cons, getLast?_eq_some_getLast hne]

theorem symbolicBase?_step : c.symbolicBase? r = match c.region r with
      | .field _ p | .element _ _ p => c.symbolicBase? p
      | .symbolic s _ => some s
      | _ => none := by
  rw [symbolicBase?, base_step hc r]
  cases hr : c.region r <;> simp [symbolicBase?, hr]

/-- The text of a region, from the text of what encloses it. -/
theorem dumpRegion_step : c.dumpRegion r = match c.region r with
      | .field f p => c.dumpRegion p ++ "->" ++ (c.program.field f).name
      | .element t i p =>
        "element" ++ braced (c.dumpRegion p ++ "," ++ i.text ++ " S64b," ++ t.text)
      | a => dumpRegion.go c [a] := by
  unfold dumpRegion
  cases hp : (c.region r).parent? with
  | none =>
    rw [chain_of_none (hc.enclosing?_eq r ▸ hp)]
    cases hr : c.region r <;> simp_all [Region.parent?]
  | some p =>
    rw [chain_of_some (hc.enclosing?_eq r ▸ hp)]
    cases hr : c.region r <;> simp_all [Region.parent?, dumpRegion.go]

end

/-! ### Symbols -/

/-- The nesting that is allowed for does not matter if it is enough for the number of the symbol. -/
theorem dumpSymbolTo_eq (hc : c.Layered) {n m : Nat} (hs : c.HasSymbol s) (hn : s.index < n)
    (hm : s.index < m) : c.dumpSymbolTo n s = c.dumpSymbolTo m s := by
  induction n generalizing m s with
  | zero => omega
  | succ n ih =>
    obtain ⟨m, rfl⟩ : ∃ k, m = k + 1 := ⟨m - 1, by omega⟩
    have hoperand : ∀ x ∈ (c.symbol s).operands, c.dumpSymbolTo n x = c.dumpSymbolTo m x := by
      intro x hx
      have hlt := hc s hs x hx
      exact ih (Nat.lt_trans hlt hs) (by omega) (by omega)
    rw [dumpSymbolTo, dumpSymbolTo]
    cases ha : c.symbol s <;> simp_all [Symbol.operands]

/-- The text of a symbol, from the texts of its operands. -/
theorem dumpSymbol_step (hc : c.Layered) (hs : c.HasSymbol s) : c.dumpSymbol s = match c.symbol s with
      | .regionValue r _ => "reg_" ++ s.text ++ "<" ++ c.dumpRegion r ++ ">"
      | .conjured _ _ t _ _ => "conj_" ++ s.text ++ braced t.text
      | .derived p r _ => "derived_" ++ s.text ++ braced (c.dumpSymbol p ++ "," ++ c.dumpRegion r)
      | .symInt l op k _ => "(" ++ c.dumpSymbol l ++ ") " ++ op.symbol ++ " " ++ toString k
      | .intSym k op r _ => toString k ++ " " ++ op.symbol ++ " (" ++ c.dumpSymbol r ++ ")"
      | .symSym l op r _ =>
        "(" ++ c.dumpSymbol l ++ ") " ++ op.symbol ++ " (" ++ c.dumpSymbol r ++ ")" := by
  have hoperand : ∀ x ∈ (c.symbol s).operands, c.dumpSymbolTo s.index x = c.dumpSymbol x := by
    intro x hx
    have hlt := hc s hs x hx
    exact dumpSymbolTo_eq hc (Nat.lt_trans hlt hs) hlt (Nat.lt_succ_self _)
  rw [dumpSymbol, dumpSymbolTo]
  cases ha : c.symbol s <;> simp_all [Symbol.operands]

end Catalog

namespace Marks

variable {c : Catalog} {s : SymbolId}

/-- Whether a symbol is live, from what it refers to. -/
theorem isLiveSymbol_step (hc : c.Ordered) (hs : c.HasSymbol s) (m : Marks) :
    m.isLiveSymbol c s = (m.symbols.contains s || match c.symbol s with
      | .regionValue r _ => m.isLiveRegion c r
      | .derived p r _ => m.isLiveSymbol c p || m.isLiveRegion c r
      | .conjured .. => false
      | .symInt l _ _ _ => m.isLiveSymbol c l
      | .intSym _ _ r _ => m.isLiveSymbol c r
      | .symSym l _ r _ => m.isLiveSymbol c l && m.isLiveSymbol c r) := by
  have hoperand : ∀ x ∈ (c.symbol s).operands, x.index < s.index := fun x hx => hc.layered s hs x hx
  -- the symbol whose memory a region is in is older than a symbol about the region
  have hplace : ∀ r, (c.symbol s).place? = some r →
      m.isLiveRegionBy c (fun x => if x.index < s.index then m.isLiveSymbol c x else false) r =
        m.isLiveRegion c r := fun r hr =>
    isLiveRegionBy_congr hc.wellFormed le_rfl (hc.place hs hr) fun x hx => if_pos (hc.behind hs hr hx)
  rw [isLiveSymbol]
  cases ha : c.symbol s <;> simp_all [Symbol.operands, Symbol.place?]

end Marks

namespace Tables

variable {t : Tables} {created : List Handle}

/-! ### Frames -/

/-- The caller of a frame has a smaller number. -/
theorem Orderly.caller?_lt (ho : t.Orderly created) {f p : FrameId}
    (hp : Frames.caller? t.frames f = some p) : p.index < f.index := by
  obtain ⟨x, hx, hparent⟩ := Option.bind_eq_some_iff.1 hp
  have he : t.get? (.frame f) = some (.frame x) := by rw [get?_frame, hx]; rfl
  refine ho.index_lt (a := .frame p) (ho.mem_of_get? he) rfl (ho.older he ?_)
  simp [Entry.references, Frame.references, hparent]

/-- The depth to which callers are followed does not matter if it is enough for the number. -/
theorem Orderly.ancestorsTo_eq (ho : t.Orderly created) {f : FrameId} {n m : Nat}
    (hn : f.index ≤ n) (hm : f.index ≤ m) :
    Frames.ancestorsTo t.frames n f = Frames.ancestorsTo t.frames m f := by
  induction n generalizing f m with
  | zero =>
    have hnone : Frames.caller? t.frames f = none := by
      cases hp : Frames.caller? t.frames f with
      | none => rfl
      | some p =>
        have := ho.caller?_lt hp
        omega
    cases m with
    | zero => rfl
    | succ m => rw [Frames.ancestorsTo, Frames.ancestorsTo, hnone]
  | succ n ih =>
    cases hp : Frames.caller? t.frames f with
    | none =>
      cases m with
      | zero | succ m => rw [Frames.ancestorsTo, Frames.ancestorsTo, hp]
    | some p =>
      have hlt := ho.caller?_lt hp
      obtain ⟨m, rfl⟩ : ∃ k, m = k + 1 := ⟨m - 1, by omega⟩
      rw [Frames.ancestorsTo, Frames.ancestorsTo, hp]
      exact congrArg (f :: ·) (ih (by omega) (by omega))

/-- A frame waits, and so does all that waits for its caller. -/
theorem Orderly.ancestors_step (ho : t.Orderly created) {f : FrameId} (hf : .frame f ∈ created) :
    Frames.ancestors t.frames f = f :: match Frames.caller? t.frames f with
      | some p => Frames.ancestors t.frames p
      | none => [] := by
  have hlt : f.index < Interned.size t.frames := get?_isSome_iff.1 (ho.mem_iff.1 hf)
  cases hp : Frames.caller? t.frames f with
  | none => rw [Frames.ancestors_eq_singleton hp]
  | some p =>
    have hp' := ho.caller?_lt hp
    obtain ⟨n, hn⟩ : ∃ n, Interned.size t.frames = n + 1 := ⟨Interned.size t.frames - 1, by omega⟩
    show Frames.ancestorsTo t.frames (Interned.size t.frames) f =
      f :: Frames.ancestorsTo t.frames (Interned.size t.frames) p
    rw [hn, Frames.ancestorsTo, hp]
    exact congrArg (f :: ·) (ho.ancestorsTo_eq (by omega) (by omega))

/-! ### All walks -/

/-- The walks from numbers that were handed out: each is the step from the number to what it refers
to, and the same walk from there. -/
structure Walks (t : Tables) (created : List Handle) : Prop where
  base {r : RegionId} : .region r ∈ created →
    t.catalog.base r = match t.catalog.region r with
      | .field _ p | .element _ _ p => t.catalog.base p
      | _ => r
  spaceRegion {r : RegionId} : .region r ∈ created →
    t.catalog.spaceRegion r = match (t.catalog.region r).parent? with
      | some p => t.catalog.spaceRegion p
      | none => r
  symbolicBase? {r : RegionId} : .region r ∈ created →
    t.catalog.symbolicBase? r = match t.catalog.region r with
      | .field _ p | .element _ _ p => t.catalog.symbolicBase? p
      | .symbolic s _ => some s
      | _ => none
  isLiveRegion {r : RegionId} (m : Marks) : .region r ∈ created →
    m.isLiveRegion t.catalog r = (m.regions.contains (t.catalog.base r) ||
      Marks.isPermanent (t.catalog.space r) ||
      (t.catalog.symbolicBase? r).any (m.isLiveSymbol t.catalog))
  isLiveSymbol {s : SymbolId} (m : Marks) : .symbol s ∈ created →
    m.isLiveSymbol t.catalog s = (m.symbols.contains s || match t.catalog.symbol s with
      | .regionValue r _ => m.isLiveRegion t.catalog r
      | .derived p r _ => m.isLiveSymbol t.catalog p || m.isLiveRegion t.catalog r
      | .conjured .. => false
      | .symInt l _ _ _ => m.isLiveSymbol t.catalog l
      | .intSym _ _ r _ => m.isLiveSymbol t.catalog r
      | .symSym l _ r _ => m.isLiveSymbol t.catalog l && m.isLiveSymbol t.catalog r)
  dumpRegion {r : RegionId} : .region r ∈ created →
    t.catalog.dumpRegion r = match t.catalog.region r with
      | .field f p => t.catalog.dumpRegion p ++ "->" ++ (t.catalog.program.field f).name
      | .element u i p =>
        "element" ++ Catalog.braced (t.catalog.dumpRegion p ++ "," ++ i.text ++ " S64b," ++ u.text)
      | a => Catalog.dumpRegion.go t.catalog [a]
  dumpSymbol {s : SymbolId} : .symbol s ∈ created →
    t.catalog.dumpSymbol s = match t.catalog.symbol s with
      | .regionValue r _ => "reg_" ++ s.text ++ "<" ++ t.catalog.dumpRegion r ++ ">"
      | .conjured _ _ u _ _ => "conj_" ++ s.text ++ Catalog.braced u.text
      | .derived p r _ => "derived_" ++ s.text ++
          Catalog.braced (t.catalog.dumpSymbol p ++ "," ++ t.catalog.dumpRegion r)
      | .symInt l op k _ => "(" ++ t.catalog.dumpSymbol l ++ ") " ++ op.symbol ++ " " ++ toString k
      | .intSym k op r _ => toString k ++ " " ++ op.symbol ++ " (" ++ t.catalog.dumpSymbol r ++ ")"
      | .symSym l op r _ => "(" ++ t.catalog.dumpSymbol l ++ ") " ++ op.symbol ++ " (" ++
          t.catalog.dumpSymbol r ++ ")"
  ancestors {f : FrameId} : .frame f ∈ created →
    Frames.ancestors t.frames f = f :: match Frames.caller? t.frames f with
      | some p => Frames.ancestors t.frames p
      | none => []

theorem Orderly.walks (ho : t.Orderly created) : t.Walks created where
  base _ := Catalog.base_step ho.wellFormed _
  spaceRegion _ := Catalog.spaceRegion_step ho.wellFormed _
  symbolicBase? _ := Catalog.symbolicBase?_step ho.wellFormed _
  isLiveRegion _ _ := rfl
  isLiveSymbol m hs := m.isLiveSymbol_step ho.ordered (ho.mem_symbol_iff.1 hs)
  dumpRegion _ := Catalog.dumpRegion_step ho.wellFormed _
  dumpSymbol hs := Catalog.dumpSymbol_step ho.ordered.layered (ho.mem_symbol_iff.1 hs)
  ancestors hf := ho.ancestors_step hf

end Tables

/-! ### Sessions -/

namespace Session

/-- **Numbers are names.** After any calls to the constructors in which every number was returned by
an earlier call: the numbers of each table count up in the order of creation; every call returned
the number that is read back as what it described; two calls returned the same number exactly if
they described the same; everything refers only to what was created before it; no chain of
references across the tables goes on forever; and the walks through the tables follow the
references from every number that was handed out. -/
theorem Legal.canonical {p : Program} {s : Session} (h : Legal p s) :
    (∀ k, s.created.filterMap (Handle.indexIn? k) = List.range (s.tables.size k)) ∧
      (∀ q a, (q, a) ∈ s.log → a ∈ s.created ∧
        ∃ e, (q.description p).described? s.tables = some e ∧ s.tables.get? a = some e) ∧
      (∀ q a q' a', (q, a) ∈ s.log → (q', a') ∈ s.log →
        (a = a' ↔ q.description p = q'.description p)) ∧
      (∀ a b, s.tables.Refers a b → s.created.idxOf a < s.created.idxOf b ∧ b ∈ s.created) ∧
      WellFounded s.tables.Refers ∧ s.tables.Walks s.created := by
  have hs := h.sound
  have ho := hs.orderly
  refine ⟨ho.dense, ?_, ?_, ?_, ho.wellFounded_refers, ho.walks⟩
  · intro q a hq
    obtain ⟨e, hd, he⟩ := hs.described hq
    exact ⟨ho.mem_of_get? he, e, hd, he⟩
  · intro q a q' a' hq hq'
    obtain ⟨e, hd, he⟩ := hs.described hq
    obtain ⟨e', hd', he'⟩ := hs.described hq'
    constructor
    · rintro rfl
      obtain rfl : e = e' := Option.some.inj (he.symm.trans he')
      exact Tables.described?_inj hd hd'
    · intro heq
      rw [← heq] at hd'
      obtain rfl : e = e' := Option.some.inj (hd.symm.trans hd')
      exact Tables.get?_inj he he'
  · rintro a b ⟨e, he, ha⟩
    exact ⟨ho.older he ha, ho.mem_of_get? he⟩

/-! ### A session across the three tables -/

/-- A call may mention what the call before it returned. -/
theorem mem_returned_call (s : Session) (q : Request) :
    (q.perform s.tables).1 ∈ (s.call q).log.map Prod.snd :=
  mem_map.2 ⟨(q, (q.perform s.tables).1), mem_append_right _ mem_cons_self, rfl⟩

/-- A frame starts, an expression in it gives an unknown pointer, and the pointer is followed: the
region of the last call refers to the symbol, and the symbol to the frame. -/
def pointerSession : Session :=
  let entered := (start { file := "" }).call (.topFrame ⟨0⟩)
  let pointer : Symbol := .conjured ⟨0⟩ (Frames.top ∅ ⟨0⟩).1 (.pointer .int) 0 none
  let named := entered.call (.symbol pointer)
  named.call (.symbolic (Naming.symbol pointer entered.tables.catalog).1)

theorem legal_pointerSession :
    Legal { file := "" } pointerSession ∧ WellFounded pointerSession.tables.Refers := by
  have hlegal : Legal { file := "" } pointerSession := by
    refine .call (.call (.call .start ?_) ?_) ?_
    · intro a ha
      cases ha
    · intro a ha
      obtain rfl := mem_singleton.1 ha
      exact mem_returned_call _ _
    · intro a ha
      obtain rfl := mem_singleton.1 ha
      exact mem_returned_call _ _
  obtain ⟨-, -, -, -, hwf, -⟩ := hlegal.canonical
  exact ⟨hlegal, hwf⟩

end Session

end PathScout

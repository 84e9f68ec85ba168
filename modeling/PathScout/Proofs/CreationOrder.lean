import PathScout.Proofs.MarkLaws

/-!
# The order in which things are numbered

Regions, symbols and frames are numbered in three tables, and refer to each other across them. A
session is a sequence of calls to the constructors of the tables, where every region, symbol and
frame that a call mentions was returned by an earlier call. Then everything refers to what was
created before it, and the numbers are names: equal things have equal numbers.

* `Tables`, `Handle`, `Entry`: the three tables, the numbers in them and what they stand for.
* `Request`, `Request.perform`: the constructors. `Description`: what a request asks for.
* `Session.Legal`: the sessions. `Session.created`: the numbers in the order of their creation.
* `Tables.Orderly`: the invariant; `Tables.Orderly.intern`: one new entry keeps it.
* `Tables.Orderly.wellFounded_refers`: no chain of references goes on forever.
* `Session.Legal.sound`: numbers are read back as what was asked for, and everything is in order.
-/

namespace PathScout

open Catalog List Option Naming

/-! ### Tables -/

namespace Interned

variable {α : Type} [BEq α] [Hashable α] [LawfulBEq α]

/-- A thing has a number already, or it gets the next one. -/
theorem intern_cases (t : Interned α) (a : α) : (∃ i, t.get? i = some a ∧ t.intern a = (i, t)) ∨
      (∀ i, t.get? i ≠ some a) ∧ (t.intern a).1 = t.size ∧ (t.intern a).2.size = t.size + 1 ∧
        ∀ i, (t.intern a).2.get? i = if i = t.size then some a else t.get? i := by
  unfold intern
  split
  · next i hi => exact Or.inl ⟨i, (t.find?_eq_some_iff a i).1 hi, rfl⟩
  · next hnone =>
    refine Or.inr ⟨fun i hi => ?_, rfl, Array.size_push .., fun i =>
      get?_push ((t.find?_eq a).symm.trans hnone)⟩
    rw [(t.find?_eq_some_iff a i).2 hi] at hnone
    cases hnone

omit [LawfulBEq α] in
theorem get?_isSome_iff {t : Interned α} {i : Nat} : (t.get? i).isSome = true ↔ i < t.size := by
  unfold get? size
  simp

end Interned

/-- What the tables number. -/
inductive EntryKind where
  | region | symbol | frame
deriving DecidableEq

/-- A number in one of the tables. -/
structure Handle where
  kind : EntryKind
  index : Nat
deriving DecidableEq

namespace Handle

def region (r : RegionId) : Handle := ⟨.region, r.index⟩

def symbol (s : SymbolId) : Handle := ⟨.symbol, s.index⟩

def frame (f : FrameId) : Handle := ⟨.frame, f.index⟩

/-- The number, if it is one in the given table. -/
def indexIn? (k : EntryKind) (h : Handle) : Option Nat := if h.kind = k then some h.index else none

theorem indexIn?_eq_some {k : EntryKind} {h : Handle} {i : Nat} :
    h.indexIn? k = some i ↔ h = ⟨k, i⟩ := by
  cases h
  simp [indexIn?]

end Handle

/-- What a number stands for. -/
inductive Entry where
  | region (a : Region)
  | symbol (a : Symbol)
  | frame (a : Frame)

/-- The numbers that a region refers to: its frame if it is on the stack, the symbol whose memory it
is, the symbol that is its index, and what encloses it. -/
def Region.references : Region → List Handle
  | .space (.locals f) | .space (.arguments f) => [.frame f]
  | .space _ => []
  | .symbolic s p => [.symbol s, .region p]
  | .element _ (.symbolic s) p => [.symbol s, .region p]
  | .element _ (.known _) p | .alloca _ _ p | .code _ p | .string _ p | .temporary _ p | .var _ p
  | .field _ p => [.region p]

/-- The numbers that a symbol refers to. -/
def Symbol.references : Symbol → List Handle
  | .regionValue r _ => [.region r]
  | .conjured _ f _ _ tag => .frame f :: tag.toList.map .region
  | .derived p r _ => [.symbol p, .region r]
  | .symInt l _ _ _ => [.symbol l]
  | .intSym _ _ r _ => [.symbol r]
  | .symSym l _ r _ => [.symbol l, .symbol r]

/-- The number that a frame refers to. -/
def Frame.references (x : Frame) : List Handle := x.parent.toList.map .frame

namespace Entry

def kind : Entry → EntryKind
  | region _ => .region
  | symbol _ => .symbol
  | frame _ => .frame

def references : Entry → List Handle
  | region a => a.references
  | symbol a => a.references
  | frame a => a.references

end Entry

/-- The regions, symbols and frames met so far. -/
structure Tables where
  catalog : Catalog
  frames : Frames

namespace Tables

/-- The number of things in a table. -/
def size (t : Tables) : EntryKind → Nat
  | .region => t.catalog.regions.size
  | .symbol => t.catalog.symbols.size
  | .frame => Interned.size t.frames

/-- What a number stands for. -/
def get? (t : Tables) : Handle → Option Entry
  | ⟨.region, i⟩ => (t.catalog.regions.get? i).map .region
  | ⟨.symbol, i⟩ => (t.catalog.symbols.get? i).map .symbol
  | ⟨.frame, i⟩ => (Interned.get? t.frames i).map .frame

/-- Performs an action of the catalog. -/
def name {α : Type} (t : Tables) (handle : α → Handle) (a : Naming α) : Handle × Tables :=
  (handle (a t.catalog).1, { t with catalog := (a t.catalog).2 })

/-- Performs an action of the frames. -/
def enter (t : Tables) (a : Frames → FrameId × Frames) : Handle × Tables :=
  (.frame (a t.frames).1, { t with frames := (a t.frames).2 })

/-- The number of an entry, given to it now if it has none. -/
def intern (t : Tables) : Entry → Handle × Tables
  | .region a => t.name .region (region a)
  | .symbol a => t.name .symbol (symbol a)
  | .frame a => t.enter (Frames.add · a)

variable {t t' : Tables} {e : Entry} {h : Handle}

@[simp] theorem get?_region (r : RegionId) :
    t.get? (.region r) = (t.catalog.regions.get? r.index).map .region := rfl

@[simp] theorem get?_symbol (s : SymbolId) :
    t.get? (.symbol s) = (t.catalog.symbols.get? s.index).map .symbol := rfl

@[simp] theorem get?_frame (f : FrameId) :
    t.get? (.frame f) = (Frames.frame? t.frames f).map .frame := rfl

theorem get?_isSome_iff : (t.get? h).isSome = true ↔ h.index < t.size h.kind := by
  obtain ⟨k, i⟩ := h
  cases k <;> simp [get?, size, Interned.get?_isSome_iff]

theorem kind_eq_of_get? (he : t.get? h = some e) : e.kind = h.kind := by
  obtain ⟨k, i⟩ := h
  cases k
  all_goals
    obtain ⟨a, -, rfl⟩ := map_eq_some_iff.1 he
    rfl

/-- Different numbers stand for different things. -/
theorem get?_inj {h' : Handle} (he : t.get? h = some e) (he' : t.get? h' = some e) : h = h' := by
  have hkind := (kind_eq_of_get? he).symm.trans (kind_eq_of_get? he')
  obtain ⟨k, i⟩ := h
  obtain ⟨k', i'⟩ := h'
  obtain rfl : k = k' := hkind
  cases k
  all_goals
    obtain ⟨a, ha, rfl⟩ := map_eq_some_iff.1 he
    obtain ⟨b, hb, hab⟩ := map_eq_some_iff.1 he'
    cases hab
    rw [Interned.get?_inj ha hb]

/-- The second tables are the first ones with one more entry. -/
structure Adds (t t' : Tables) (e : Entry) : Prop where
  fresh (h : Handle) : t.get? h ≠ some e
  size (k : EntryKind) : t'.size k = if k = e.kind then t.size k + 1 else t.size k
  get? (h : Handle) : t'.get? h = if h = ⟨e.kind, t.size e.kind⟩ then some e else t.get? h

/-- What holds of interning in one table holds of the tables, if the others are not touched. -/
theorem intern_cases_of_table {α : Type} [BEq α] [Hashable α] [LawfulBEq α] {t t' : Tables}
    {i' : Nat} (table : Interned α) (a : α) (make : α → Entry) (hmake : Function.Injective make)
    (hget : ∀ i, t.get? ⟨(make a).kind, i⟩ = (table.get? i).map make)
    (hget' : ∀ i, t'.get? ⟨(make a).kind, i⟩ = ((table.intern a).2.get? i).map make)
    (hsize : t.size (make a).kind = table.size)
    (hsize' : t'.size (make a).kind = (table.intern a).2.size)
    (hother : ∀ k ≠ (make a).kind, t'.size k = t.size k ∧ ∀ i, t'.get? ⟨k, i⟩ = t.get? ⟨k, i⟩)
    (hnumber : (table.intern a).1 = i') (hsame : (table.intern a).2 = table → t' = t) :
    (∃ h, t.get? h = some (make a) ∧ ((⟨(make a).kind, i'⟩, t') : Handle × Tables) = (h, t)) ∨
      (⟨(make a).kind, i'⟩ : Handle) = ⟨(make a).kind, t.size (make a).kind⟩ ∧ t.Adds t' (make a) := by
  subst hnumber
  rcases table.intern_cases a with ⟨i, hi, he⟩ | ⟨hfresh, hnew, hnext, hread⟩
  · exact Or.inl ⟨⟨_, i⟩, by rw [hget, hi]; rfl, by rw [hsame (congrArg Prod.snd he), he]⟩
  · refine Or.inr ⟨by rw [hnew, hsize], ?_, ?_, ?_⟩
    · rintro ⟨k, i⟩ he
      obtain rfl : (make a).kind = k := kind_eq_of_get? he
      rw [hget] at he
      obtain ⟨b, hb, hab⟩ := map_eq_some_iff.1 he
      exact hfresh i (hmake hab ▸ hb)
    · intro k
      by_cases hk : k = (make a).kind
      · rw [if_pos hk, hk, hsize', hnext, hsize]
      · rw [if_neg hk, (hother k hk).1]
    · rintro ⟨k, i⟩
      by_cases hk : k = (make a).kind
      · subst hk
        rw [hget', hread, hsize, hget]
        by_cases hi : i = table.size <;> simp [hi]
      · rw [if_neg fun h => hk (congrArg Handle.kind h), (hother k hk).2]

/-- An entry has a number already, or it gets the next one of its table. -/
theorem intern_cases (t : Tables) (e : Entry) : (∃ h, t.get? h = some e ∧ t.intern e = (h, t)) ∨
      (t.intern e).1 = ⟨e.kind, t.size e.kind⟩ ∧ t.Adds (t.intern e).2 e := by
  cases e with
  | region a =>
    exact intern_cases_of_table t.catalog.regions a .region (fun _ _ => Entry.region.inj) (fun _ => rfl)
      (fun _ => rfl) rfl rfl
      (by rintro ⟨⟩ hk <;> first | exact absurd rfl hk | exact ⟨rfl, fun _ => rfl⟩) rfl
      fun hsame => by simp only [Naming.region, hsame]
  | symbol a =>
    exact intern_cases_of_table t.catalog.symbols a .symbol (fun _ _ => Entry.symbol.inj) (fun _ => rfl)
      (fun _ => rfl) rfl rfl
      (by rintro ⟨⟩ hk <;> first | exact absurd rfl hk | exact ⟨rfl, fun _ => rfl⟩) rfl
      fun hsame => by simp only [Naming.symbol, hsame]
  | frame a =>
    exact intern_cases_of_table t.frames a .frame (fun _ _ => Entry.frame.inj) (fun _ => rfl)
      (fun _ => rfl) rfl rfl
      (by rintro ⟨⟩ hk <;> first | exact absurd rfl hk | exact ⟨rfl, fun _ => rfl⟩) rfl
      fun hsame => by simp only [Frames.add, hsame]

/-- What is numbered keeps its number. -/
theorem get?_intern_of_get? {e' : Entry} (he : t.get? h = some e) :
    (t.intern e').2.get? h = some e := by
  rcases t.intern_cases e' with ⟨_, -, hsame⟩ | ⟨-, hadds⟩
  · rw [hsame, he]
  · have hlt := get?_isSome_iff.1 (isSome_of_eq_some he)
    rw [hadds.get?, if_neg, he]
    rintro rfl
    exact Nat.lt_irrefl _ hlt

theorem get?_intern (t : Tables) (e : Entry) : (t.intern e).2.get? (t.intern e).1 = some e := by
  rcases t.intern_cases e with ⟨h, he, hsame⟩ | ⟨hnew, hadds⟩
  · rw [hsame, he]
  · rw [hnew, hadds.get?, if_pos rfl]

/-! ### Order -/

/-- The numbers that were given from one state of the tables to a later one. -/
def since (t t' : Tables) : List Handle :=
  [.region, .symbol, .frame].flatMap fun k =>
    (List.range' (t.size k) (t'.size k - t.size k)).map (Handle.mk k)

@[simp] theorem since_self (t : Tables) : t.since t = [] := by simp [since]

theorem Adds.since_eq (h : t.Adds t' e) : t.since t' = [⟨e.kind, t.size e.kind⟩] := by
  unfold since
  cases hk : e.kind <;> simp [h.size, hk]

/-- The numbers were created in the given order: those of each table count up, and everything refers
to numbers that were created before. Objects lie in memory spaces. -/
structure Orderly (t : Tables) (created : List Handle) : Prop where
  dense (k : EntryKind) : created.filterMap (Handle.indexIn? k) = List.range (t.size k)
  older {h a : Handle} {e : Entry} : t.get? h = some e → a ∈ e.references →
    created.idxOf a < created.idxOf h
  inSpace {r p : RegionId} {a : Region} : t.get? (.region r) = some (.region a) →
    a.isPart = false → a.parent? = some p → ∃ s, t.get? (.region p) = some (.region (.space s))

namespace Orderly

variable {created : List Handle} {a b : Handle}

theorem mem_iff (ho : t.Orderly created) : h ∈ created ↔ (t.get? h).isSome = true := by
  rw [get?_isSome_iff, ← mem_range, ← ho.dense, mem_filterMap]
  constructor
  · intro hmem
    exact ⟨h, hmem, Handle.indexIn?_eq_some.2 rfl⟩
  · rintro ⟨h', hmem, hindex⟩
    rwa [Handle.indexIn?_eq_some.1 hindex] at hmem

theorem mem_of_get? (ho : t.Orderly created) (he : t.get? h = some e) : h ∈ created :=
  ho.mem_iff.2 (isSome_of_eq_some he)

/-- In one table, what was created earlier has a smaller number. -/
theorem index_lt (ho : t.Orderly created) (hb : b ∈ created) (hkind : a.kind = b.kind)
    (hlt : created.idxOf a < created.idxOf b) : a.index < b.index := by
  obtain ⟨before, after, rfl, hnot⟩ := eq_append_cons_of_mem hb
  have ha : a ∈ before := by
    by_contra hna
    rw [idxOf_append_of_notMem hnot, idxOf_append_of_notMem hna, idxOf_cons_self] at hlt
    omega
  -- the numbers of the table in this order are increasing
  have hsorted := ho.dense b.kind ▸ pairwise_lt_range (n := t.size b.kind)
  rw [filterMap_append, filterMap_cons_some (Handle.indexIn?_eq_some.2 rfl), pairwise_append] at hsorted
  refine hsorted.2.2 _ (mem_filterMap.2 ⟨a, ha, ?_⟩) _ mem_cons_self
  exact Handle.indexIn?_eq_some.2 (hkind ▸ rfl)

/-- One more entry that refers to what was created before keeps the order. -/
theorem intern (ho : t.Orderly created) (hrefs : ∀ a ∈ e.references, a ∈ created)
    (hspace : ∀ {a p}, e = .region a → a.isPart = false → a.parent? = some p →
      ∃ s, t.get? (.region p) = some (.region (.space s))) :
    (t.intern e).2.Orderly (created ++ t.since (t.intern e).2) := by
  rcases t.intern_cases e with ⟨h, he, hsame⟩ | ⟨-, hadds⟩
  · rw [hsame, since_self, append_nil]
    exact ho
  · rw [hadds.since_eq]
    have hnew : (⟨e.kind, t.size e.kind⟩ : Handle) ∉ created := by
      rw [ho.mem_iff, get?_isSome_iff]
      exact Nat.lt_irrefl _
    constructor
    · intro k
      rw [filterMap_append, ho.dense, hadds.size]
      by_cases hk : k = e.kind
      · simp [hk, Handle.indexIn?, range_succ]
      · simp [hk, Handle.indexIn?, Ne.symm hk]
    · intro h a e' he' ha
      rw [hadds.get?] at he'
      split at he'
      · next hh =>
        obtain rfl := some.inj he'
        rw [hh, idxOf_append_of_mem (hrefs a ha), idxOf_append_of_notMem hnew]
        have := idxOf_lt_length_of_mem (hrefs a ha)
        omega
      · have hlt := ho.older he' ha
        have hmem := ho.mem_of_get? he'
        have hamem : a ∈ created := idxOf_lt_length_iff.1 (hlt.trans (idxOf_lt_length_of_mem hmem))
        rwa [idxOf_append_of_mem hamem, idxOf_append_of_mem hmem]
    · intro r p a ha hpart hp
      rw [hadds.get?] at ha
      have hold : ∃ s, t.get? (.region p) = some (.region (.space s)) := by
        split at ha
        · exact hspace (some.inj ha) hpart hp
        · exact ho.inSpace ha hpart hp
      obtain ⟨s, hs⟩ := hold
      exact ⟨s, get?_intern_of_get? hs⟩

/-- What a number refers to was created. -/
theorem mem_of_reference (ho : t.Orderly created) (he : t.get? h = some e) (ha : a ∈ e.references) :
    a ∈ created :=
  idxOf_lt_length_iff.1 ((ho.older he ha).trans (idxOf_lt_length_of_mem (ho.mem_of_get? he)))

end Orderly

/-- The first number is one that the second refers to. -/
def Refers (t : Tables) (a h : Handle) : Prop := ∃ e, t.get? h = some e ∧ a ∈ e.references

/-- No chain of references goes on forever, across the three tables. -/
theorem Orderly.wellFounded_refers {created : List Handle} (ho : t.Orderly created) :
    WellFounded t.Refers := by
  refine Subrelation.wf (r := InvImage (· < ·) created.idxOf) ?_ (InvImage.wf _ Nat.lt_wfRel.wf)
  rintro a h ⟨e, he, ha⟩
  exact ho.older he ha

/-! ### The catalog of orderly tables -/

namespace Orderly

variable {created : List Handle} {a : Handle} {r p : RegionId} {x y : SymbolId}

theorem mem_region_iff (ho : t.Orderly created) : .region r ∈ created ↔ t.catalog.Has r := by
  rw [ho.mem_iff, get?_isSome_iff]
  rfl

theorem mem_symbol_iff (ho : t.Orderly created) : .symbol x ∈ created ↔ t.catalog.HasSymbol x := by
  rw [ho.mem_iff, get?_isSome_iff]
  rfl

theorem get?_region_of_has (h : t.catalog.Has r) :
    t.get? (.region r) = some (.region (t.catalog.region r)) := by
  rw [get?_region, h.get?]
  rfl

theorem get?_symbol_of_has (h : t.catalog.HasSymbol x) :
    t.get? (.symbol x) = some (.symbol (t.catalog.symbol x)) := by
  rw [get?_symbol, h.get?]
  rfl

theorem mem_references_of_parent? {a : Region} (h : a.parent? = some p) : .region p ∈ a.references := by
  cases a with
  | space s => cases h
  | element t i q =>
    cases h
    cases i <;> simp [Region.references]
  | _ =>
    cases h
    simp [Region.references]

theorem mem_references_of_operand {a : Symbol} (h : y ∈ a.operands) : .symbol y ∈ a.references := by
  cases a <;> simp_all [Symbol.operands, Symbol.references]
  rcases h with rfl | rfl <;> simp

theorem mem_references_of_place? {a : Symbol} (h : a.place? = some r) : .region r ∈ a.references := by
  cases a <;> simp_all [Symbol.place?, Symbol.references]

theorem wellFormed (ho : t.Orderly created) : t.catalog.WellFormed := by
  constructor
  · intro r p hp
    have he := get?_region_of_has (has_of_parent? hp)
    exact ho.index_lt (a := .region p) (ho.mem_of_get? he) rfl
      (ho.older he (mem_references_of_parent? hp))
  · intro r p hpart hp
    obtain ⟨s, hs⟩ := ho.inSpace (get?_region_of_has (has_of_parent? hp)) hpart hp
    have hhas := ho.mem_region_iff.1 (ho.mem_of_get? hs)
    rw [get?_region_of_has hhas] at hs
    rw [Entry.region.inj (some.inj hs)]
    rfl

/-- The regions that enclose a region were created before it, or are the region. -/
theorem idxOf_base_le (ho : t.Orderly created) (h : t.catalog.Has r) :
    created.idxOf (.region (t.catalog.base r)) ≤ created.idxOf (.region r) := by
  induction r using part_induction ho.wellFormed with
  | object r hpart => rw [base_of_not_part hpart]
  | part r p hpart hp ih =>
    have hparent := parent?_of_enclosing? hp
    have hlt := ho.older (get?_region_of_has h) (mem_references_of_parent? hparent)
    rw [base_of_part ho.wellFormed hpart hp]
    exact (ih (h.enclosing hp)).trans hlt.le

/-- The catalog of orderly tables is ordered. -/
theorem ordered (ho : t.Orderly created) : t.catalog.Ordered := by
  have hwf := ho.wellFormed
  have hmemory : ∀ {r p s}, t.catalog.region r = .symbolic s p →
      t.catalog.HasSymbol s ∧ created.idxOf (.symbol s) < created.idxOf (.region r) := by
    intro r p s hr
    have hhas : t.catalog.Has r := has_of_parent? (p := p) (by rw [hr]; rfl)
    have he := get?_region_of_has hhas
    rw [hr] at he
    have href : Handle.symbol s ∈ (Entry.region (.symbolic s p)).references := mem_cons_self
    exact ⟨ho.mem_symbol_iff.1 (ho.mem_of_reference he href), ho.older he href⟩
  refine ⟨hwf, ?_, fun hr => (hmemory hr).1, ?_, ?_⟩
  · intro x hx y hy
    have he := get?_symbol_of_has hx
    exact ho.index_lt (a := .symbol y) (ho.mem_of_get? he) rfl
      (ho.older he (mem_references_of_operand hy))
  · intro x r hx hr
    have he := get?_symbol_of_has hx
    exact ho.mem_region_iff.1 (ho.mem_of_reference he (mem_references_of_place? hr))
  · intro x s r hx hr hs
    -- the symbol of the memory is older than the object, and the object than the region
    have he := get?_symbol_of_has hx
    have hplace := mem_references_of_place? hr
    have hhas := ho.mem_region_iff.1 (ho.mem_of_reference he hplace)
    obtain ⟨p, hbase⟩ := region_of_symbolicBase? hs
    refine ho.index_lt (a := .symbol s) (ho.mem_of_get? he) rfl ?_
    calc created.idxOf (.symbol s)
        < created.idxOf (.region (t.catalog.base r)) := (hmemory hbase).2
      _ ≤ created.idxOf (.region r) := ho.idxOf_base_le hhas
      _ < created.idxOf (.symbol x) := ho.older he hplace

end Orderly

/-! ### Requests -/

/-- Later tables know at least what earlier ones do. -/
def Keeps (t t' : Tables) : Prop := ∀ h e, t.get? h = some e → t'.get? h = some e

theorem Keeps.trans {t'' : Tables} (h : t.Keeps t') (h' : t'.Keeps t'') : t.Keeps t'' :=
  fun _ _ he => h' _ _ (h _ _ he)

theorem keeps_intern (t : Tables) (e : Entry) : t.Keeps (t.intern e).2 := fun _ _ he =>
  get?_intern_of_get? he

theorem program_intern (t : Tables) (e : Entry) :
    (t.intern e).2.catalog.program = t.catalog.program := by cases e <;> rfl

/-- The number of a region, if it has one. -/
def find? (t : Tables) (a : Region) : Option RegionId := (t.catalog.regions.index[a]?).map RegionId.mk

theorem find?_eq_some {a : Region} {r : RegionId} :
    t.find? a = some r ↔ t.get? (.region r) = some (.region a) := by
  have hindex : t.catalog.regions.index[a]? = some r.index ↔
      t.catalog.regions.get? r.index = some a := t.catalog.regions.index_iff a r.index
  rw [get?_region, find?]
  constructor
  · intro h
    obtain ⟨i, hi, rfl⟩ := map_eq_some_iff.1 h
    rw [hindex.1 hi]
    rfl
  · intro h
    obtain ⟨b, hb, hab⟩ := map_eq_some_iff.1 h
    cases hab
    rw [hindex.2 hb]
    rfl

end Tables

/-- An object, without the memory space that it lies in. -/
inductive ObjectName where
  | var (v : VarId)
  | symbolic (s : SymbolId)
  | alloca (e : ExprId) (count : Nat)
  | code (f : FunctionId)
  | string (e : ExprId)
  | temporary (e : ExprId)
deriving DecidableEq

namespace ObjectName

/-- The object in a memory space. -/
def inSpace (p : RegionId) : ObjectName → Region
  | var v => .var v p
  | symbolic s => .symbolic s p
  | alloca e n => .alloca e n p
  | code f => .code f p
  | string e => .string e p
  | temporary e => .temporary e p

/-- The number that an object refers to besides its space. -/
def references : ObjectName → List Handle
  | symbolic s => [.symbol s]
  | _ => []

@[simp] theorem parent?_inSpace (o : ObjectName) (p : RegionId) :
    (o.inSpace p).parent? = some p := by cases o <;> rfl

theorem mem_references_inSpace {o : ObjectName} {p : RegionId} {a : Handle} :
    a ∈ (o.inSpace p).references ↔ a ∈ o.references ∨ a = .region p := by
  cases o <;> simp [inSpace, references, Region.references]

theorem inSpace_inj {o o' : ObjectName} {p p' : RegionId} (h : o.inSpace p = o'.inSpace p') :
    o = o' ∧ p = p' := by
  cases o <;> cases o' <;> simp_all [inSpace]

end ObjectName

/-- What the constructors of the tables are asked for. Objects are described by their memory space,
and frames without their depth. -/
inductive Description where
  | space (s : Space)
  | object (o : ObjectName) (s : Space)
  | field (f : FieldId) (r : RegionId)
  | element (t : CType) (i : RegionIndex) (r : RegionId)
  | symbol (a : Symbol)
  | topFrame (f : FunctionId)
  | calledFrame (caller : FrameId) (f : FunctionId) (site : CallSite)
deriving DecidableEq

namespace Description

/-- The entry that fits the description, if its memory space and its caller are known. -/
def described? (t : Tables) : Description → Option Entry
  | space s => some (.region (.space s))
  | object o s => (t.find? (.space s)).map fun p => .region (o.inSpace p)
  | field f r => some (.region (.field f r))
  | element u i r => some (.region (.element u i r))
  | symbol a => some (.symbol a)
  | topFrame f => some (.frame ⟨none, f, none, 0⟩)
  | calledFrame p f site =>
    (Frames.frame? t.frames p).map fun x => .frame ⟨some p, f, some site, x.depth + 1⟩

/-- The numbers that a description mentions. -/
def references : Description → List Handle
  | space s => (Region.space s).references
  | object o s => o.references ++ (Region.space s).references
  | field _ r => [.region r]
  | element t i r => (Region.element t i r).references
  | symbol a => a.references
  | topFrame _ => []
  | calledFrame p _ _ => [.frame p]

/-- The number of what is described. An object is numbered after its memory space. -/
def intern (t : Tables) : Description → Handle × Tables
  | space s => t.intern (.region (.space s))
  | object o s =>
    (t.intern (.region (.space s))).2.intern
      (.region (o.inSpace ⟨(t.intern (.region (.space s))).1.index⟩))
  | field f r => t.intern (.region (.field f r))
  | element u i r => t.intern (.region (.element u i r))
  | symbol a => t.intern (.symbol a)
  | topFrame f => t.intern (.frame ⟨none, f, none, 0⟩)
  | calledFrame p f site =>
    t.intern (.frame ⟨some p, f, some site, match Frames.frame? t.frames p with
      | some x => x.depth + 1
      | none => 0⟩)

/-- Naming an object in a memory space names the space first. -/
theorem name_object (t : Tables) (o : ObjectName) (s : Space) :
    t.name .region (do Naming.region (o.inSpace (← Naming.space s))) = (object o s).intern t := by
  unfold intern Tables.intern Tables.name
  dsimp only
  rw [Naming.bind_apply, Naming.space]
  generalize region (.space s) t.catalog = out
  rfl

end Description

/-- A call to one of the constructors of the tables. -/
inductive Request where
  | space (s : Space)
  | var (v : VarId) (f : FrameId)
  | field (f : FieldId) (r : RegionId)
  | element (t : CType) (i : RegionIndex) (r : RegionId)
  | symbolic (s : SymbolId)
  | symbolicHeap (s : SymbolId)
  | alloca (e : ExprId) (count : Nat) (f : FrameId)
  | code (f : FunctionId)
  | string (e : ExprId)
  | temporary (e : ExprId) (f : FrameId)
  | symbol (a : Symbol)
  | topFrame (f : FunctionId)
  | calledFrame (caller : FrameId) (f : FunctionId) (site : CallSite)

namespace Request

/-- The numbers that are passed to the constructor. -/
def arguments : Request → List Handle
  | space s => (Region.space s).references
  | var _ f | alloca _ _ f | temporary _ f => [.frame f]
  | field _ r => [.region r]
  | element t i r => (Region.element t i r).references
  | symbolic s | symbolicHeap s => [.symbol s]
  | code _ | string _ | topFrame _ => []
  | symbol a => a.references
  | calledFrame p _ _ => [.frame p]

/-- What is asked for, in a program. -/
def description (p : Program) : Request → Description
  | space s => .space s
  | var v f => .object (.var v) (varSpace (p.var v).kind f)
  | field f r => .field f r
  | element t i r => .element t i r
  | symbolic s => .object (.symbolic s) .unknown
  | symbolicHeap s => .object (.symbolic s) .heap
  | alloca e n f => .object (.alloca e n) (.locals f)
  | code f => .object (.code f) .code
  | string e => .object (.string e) (.globals .immutable)
  | temporary e f => .object (.temporary e) (.locals f)
  | symbol a => .symbol a
  | topFrame f => .topFrame f
  | calledFrame p f site => .calledFrame p f site

/-- The call, and the number that it returns. -/
def perform (t : Tables) : Request → Handle × Tables
  | space s => t.name .region (Naming.space s)
  | var v f => t.name .region (Naming.var v f)
  | field f r => t.name .region (region (.field f r))
  | element u i r => t.name .region (region (.element u i r))
  | symbolic s => t.name .region (Naming.symbolic s)
  | symbolicHeap s => t.name .region (Naming.symbolicHeap s)
  | alloca e n f => t.name .region (Naming.alloca e n f)
  | code f => t.name .region (Naming.code f)
  | string e => t.name .region (Naming.string e)
  | temporary e f => t.name .region (Naming.temporary e f)
  | symbol a => t.name .symbol (Naming.symbol a)
  | topFrame f => t.enter (Frames.top · f)
  | calledFrame p f site => t.enter (Frames.call · p f site)

/-- The memory space of a variable is read off the program, and the variable is named in it. -/
theorem name_var (t : Tables) (v : VarId) (f : FrameId) :
    t.name .region (Naming.var v f) = t.name .region (do
      region ((ObjectName.var v).inSpace
        (← Naming.space (Naming.varSpace (t.catalog.program.var v).kind f)))) := by
  unfold Tables.name
  rw [Naming.var, Naming.bind_apply, Naming.query_apply]
  rfl

/-- Every constructor gives what it describes its number. -/
theorem perform_eq (t : Tables) (q : Request) :
    q.perform t = (q.description t.catalog.program).intern t := by
  cases q with
  | var v f => rw [description, ← Description.name_object, ← name_var, perform]
  | symbolic s | symbolicHeap s | alloca e n f | code f | string e | temporary e f =>
    rw [description, ← Description.name_object]
    rfl
  | calledFrame p f site =>
    unfold perform description Description.intern Tables.intern Tables.enter Frames.call
    rfl
  | _ => rfl

/-- A description mentions the arguments only. -/
theorem references_description_subset (p : Program) (q : Request) :
    (q.description p).references ⊆ q.arguments := by
  cases q with
  | var v f =>
    -- the frame does not matter for global variables
    simp only [description, Description.references, ObjectName.references, arguments]
    cases (p.var v).kind with
    | global b => cases b <;> simp [varSpace, Region.references]
    | _ => simp [varSpace, Region.references]
  | _ => simp [description, Description.references, ObjectName.references, arguments, Region.references]

end Request

namespace Tables

variable {t t' : Tables} {created : List Handle} {d d' : Description} {e : Entry}

theorem Keeps.find? (hk : t.Keeps t') {a : Region} {r : RegionId} (h : t.find? a = some r) :
    t'.find? a = some r := find?_eq_some.2 (hk _ _ (find?_eq_some.1 h))

/-- What fits a description does not change. -/
theorem Keeps.described? (hk : t.Keeps t') (h : d.described? t = some e) : d.described? t' = some e := by
  cases d with
  | object o s =>
    obtain ⟨r, hr, rfl⟩ := map_eq_some_iff.1 h
    rw [Description.described?, hk.find? hr]
    rfl
  | calledFrame p f site =>
    obtain ⟨x, hx, rfl⟩ := map_eq_some_iff.1 h
    have hp := hk (.frame p) (.frame x) (by rw [get?_frame, hx]; rfl)
    rw [get?_frame, map_eq_some_iff] at hp
    obtain ⟨y, hy, hxy⟩ := hp
    cases hxy
    rw [Description.described?, hy]
    rfl
  | _ => exact h

/-- One entry fits one description. -/
theorem described?_inj (h : d.described? t = some e) (h' : d'.described? t = some e) : d = d' := by
  -- an object shows its kind, and its space by the number of the space
  have hobject : ∀ {o s}, (Description.object o s).described? t = some e →
      ∃ p, t.get? (.region p) = some (.region (.space s)) ∧ .region (o.inSpace p) = e := by
    intro o s hd
    obtain ⟨p, hp, he⟩ := map_eq_some_iff.1 hd
    exact ⟨p, find?_eq_some.1 hp, he⟩
  have hframe : ∀ {p f site}, (Description.calledFrame p f site).described? t = some e →
      ∃ n, .frame ⟨some p, f, some site, n⟩ = e := by
    intro p f site hd
    obtain ⟨x, -, he⟩ := map_eq_some_iff.1 hd
    exact ⟨_, he⟩
  cases d with
  | object o s =>
    obtain ⟨p, hp, rfl⟩ := hobject h
    cases d' with
    | object o' s' =>
      obtain ⟨p', hp', he⟩ := hobject h'
      obtain ⟨rfl, rfl⟩ := ObjectName.inSpace_inj (Entry.region.inj he)
      cases hp.symm.trans hp'
      rfl
    | calledFrame p' f site =>
      obtain ⟨n, hn⟩ := hframe h'
      cases hn
    | _ => cases o <;> cases h'
  | calledFrame p f site =>
    obtain ⟨n, rfl⟩ := hframe h
    cases d' with
    | object o' s' =>
      obtain ⟨p', -, he⟩ := hobject h'
      cases he
    | calledFrame p' f' site' =>
      obtain ⟨m, hm⟩ := hframe h'
      cases hm
      rfl
    | _ => cases h'
  | _ =>
    cases h
    cases d' with
    | object o s =>
      obtain ⟨p, -, he⟩ := hobject h'
      cases o <;> cases he
    | calledFrame p f site =>
      obtain ⟨n, hn⟩ := hframe h'
      cases hn
    | _ => cases h' <;> rfl

theorem keeps_description (t : Tables) (d : Description) : t.Keeps (d.intern t).2 := by
  cases d with
  | object o s => exact (keeps_intern _ _).trans (keeps_intern _ _)
  | _ => exact keeps_intern _ _

theorem program_description (t : Tables) (d : Description) :
    (d.intern t).2.catalog.program = t.catalog.program := by
  cases d with
  | object o s => exact (program_intern _ _).trans (program_intern _ _)
  | _ => exact program_intern _ _

/-- Numbers are read back as what was described, if the caller of a frame is known. -/
theorem get?_description (hd : ∀ p f site, d = .calledFrame p f site →
      (Frames.frame? t.frames p).isSome = true) :
    ∃ e, d.described? (d.intern t).2 = some e ∧ (d.intern t).2.get? (d.intern t).1 = some e := by
  cases d with
  | object o s =>
    have hs : (t.intern (.region (.space s))).2.find? (.space s) =
        some ⟨(t.intern (.region (.space s))).1.index⟩ :=
      find?_eq_some.2 (get?_intern _ _)
    refine ⟨_, (keeps_intern (t.intern (.region (.space s))).2 _).described? ?_, get?_intern _ _⟩
    rw [Description.described?, hs]
    rfl
  | calledFrame p f site =>
    obtain ⟨x, hx⟩ := isSome_iff_exists.1 (hd p f site rfl)
    refine ⟨_, ?_, get?_intern _ _⟩
    refine (keeps_intern t _).described? ?_
    simp only [Description.described?, hx]
    rfl
  | _ => exact ⟨_, rfl, get?_intern _ _⟩

theorem intern_eq_or_adds (t : Tables) (e : Entry) : (t.intern e).2 = t ∨ t.Adds (t.intern e).2 e :=
  (t.intern_cases e).imp (fun ⟨_, _, hsame⟩ => congrArg Prod.snd hsame) And.right

/-- Two regions are numbered one after the other. -/
theorem since_regions {t'' : Tables} {a b : Region} (ha : t' = t ∨ t.Adds t' (.region a))
    (hb : t'' = t' ∨ t'.Adds t'' (.region b)) : t.since t'' = t.since t' ++ t'.since t'' := by
  rcases ha with rfl | ha
  · rw [since_self, nil_append]
  · rcases hb with rfl | hb
    · rw [since_self, append_nil]
    · have hregions : t''.size .region - t.size .region = 2 := by
        simp only [hb.size, ha.size, Entry.kind, if_true]
        omega
      rw [ha.since_eq, hb.since_eq, since, flatMap_cons, hregions]
      simp [hb.size, ha.size, Entry.kind, List.range']

/-- A description of things that were created keeps the order. -/
theorem Orderly.describe (ho : t.Orderly created) (hd : ∀ a ∈ d.references, a ∈ created) :
    (d.intern t).2.Orderly (created ++ t.since (d.intern t).2) := by
  have hspace : ∀ s, (∀ a ∈ (Region.space s).references, a ∈ created) →
      (t.intern (.region (.space s))).2.Orderly
        (created ++ t.since (t.intern (.region (.space s))).2) := fun s hs =>
    ho.intern hs fun he _ hp => by cases he; cases hp
  cases d with
  | space s => exact hspace s hd
  | object o s =>
    have hs := hspace s fun a ha => hd a (mem_append_right _ ha)
    have hmem := hs.mem_of_get? (get?_intern t (.region (.space s)))
    rw [Description.intern, since_regions (intern_eq_or_adds _ _) (intern_eq_or_adds _ _),
      ← append_assoc]
    refine hs.intern (fun a ha => ?_) fun he hpart hp => ?_
    · rcases ObjectName.mem_references_inSpace.1 ha with ha | rfl
      · exact mem_append_left _ (hd a (mem_append_left _ ha))
      · exact hmem
    · cases he
      cases (ObjectName.parent?_inSpace _ _).symm.trans hp
      exact ⟨s, get?_intern _ _⟩
  | field f r | element u i r =>
    refine ho.intern hd fun he hpart _ => ?_
    cases he
    cases hpart
  | symbol a | topFrame f | calledFrame p f site => exact ho.intern hd fun he => nomatch he

end Tables

/-! ### Sessions -/

/-- The tables, the calls so far with what they returned, and the numbers in the order in which they
were created. -/
structure Session where
  tables : Tables
  log : List (Request × Handle)
  created : List Handle

namespace Session

/-- The session without calls. -/
def start (p : Program) : Session := ⟨⟨.ofProgram p, ∅⟩, [], []⟩

/-- One more call. -/
def call (s : Session) (q : Request) : Session where
  tables := (q.perform s.tables).2
  log := s.log ++ [(q, (q.perform s.tables).1)]
  created := s.created ++ s.tables.since (q.perform s.tables).2

/-- The sessions where every number that is passed to a call was returned by an earlier one. -/
inductive Legal (p : Program) : Session → Prop
  | start : Legal p (start p)
  | call {s : Session} {q : Request} : Legal p s →
      (∀ a ∈ q.arguments, a ∈ s.log.map Prod.snd) → Legal p (s.call q)

/-- What holds after every call: the tables are in order, and every call returned the number of what
it described. -/
structure Sound (p : Program) (s : Session) : Prop where
  program : s.tables.catalog.program = p
  orderly : s.tables.Orderly s.created
  described {q : Request} {h : Handle} : (q, h) ∈ s.log →
    ∃ e, (q.description p).described? s.tables = some e ∧ s.tables.get? h = some e

theorem sound_start (p : Program) : (start p).Sound p := by
  have hnone : ∀ h, (start p).tables.get? h = none := by
    rintro ⟨⟨⟩, i⟩ <;> rfl
  refine ⟨rfl, ⟨?_, ?_, ?_⟩, nofun⟩
  · rintro ⟨⟩ <;> rfl
  · intro h a e he
    rw [hnone] at he
    cases he
  · intro r p a ha
    rw [hnone] at ha
    cases ha

/-- A call keeps the session sound. -/
theorem Sound.call {p : Program} {s : Session} {q : Request} (hs : s.Sound p)
    (hq : ∀ a ∈ q.arguments, a ∈ s.log.map Prod.snd) : (s.call q).Sound p := by
  have hcreated : ∀ a ∈ q.arguments, a ∈ s.created := fun a ha => by
    obtain ⟨⟨q', h⟩, hmem, rfl⟩ := mem_map.1 (hq a ha)
    obtain ⟨e, -, he⟩ := hs.described hmem
    exact hs.orderly.mem_of_get? he
  have hperform : q.perform s.tables = (q.description p).intern s.tables := by
    rw [q.perform_eq, hs.program]
  have hrefs := q.references_description_subset p
  unfold Session.call
  rw [hperform]
  have hkeeps := s.tables.keeps_description (q.description p)
  refine ⟨(Tables.program_description _ _).trans hs.program,
    hs.orderly.describe fun a ha => hcreated a (hrefs ha), fun {q' h} hmem => ?_⟩
  rcases mem_append.1 hmem with hmem | hmem
  · obtain ⟨e, hd, he⟩ := hs.described hmem
    exact ⟨e, hkeeps.described? hd, hkeeps _ _ he⟩
  · obtain ⟨rfl, rfl⟩ := Prod.mk.inj (mem_singleton.1 hmem)
    refine Tables.get?_description fun caller f site hd => ?_
    have hcaller : Handle.frame caller ∈ s.created :=
      hcreated _ (hrefs (by rw [hd]; exact mem_cons_self))
    rw [hs.orderly.mem_iff, Tables.get?_frame, isSome_map] at hcaller
    exact hcaller

theorem Legal.sound {p : Program} {s : Session} (h : Legal p s) : s.Sound p := by
  induction h with
  | start => exact sound_start p
  | call _ hq ih => exact ih.call hq

end Session

end PathScout

import Std.Data.HashMap

/-!
# Things by key

Things that are told apart by a key stand in the order in which their keys were first met. An index knows
where the thing with a key stands.

* `Slots`: the things and the index, tied together by a proof.
* `Slots.find?`: where the thing with a key stands. Short lists are searched, long ones are looked up.
* `Slots.alter`: changes the thing with a key where it stands, or adds it at the end.
-/

namespace PathScout

/-- Things with different keys. -/
structure Slots {κ α : Type} [BEq κ] [Hashable κ] (key : α → κ) where
  index : Std.HashMap κ Nat
  items : Array α
  /-- The index gives the places where a thing with the key stands. -/
  index_iff : ∀ (k : κ) (i : Nat), index[k]? = some i ↔ items[i]?.map key = some k

namespace Slots

variable {κ α : Type} [BEq κ] [Hashable κ] [LawfulBEq κ] {key : α → κ}

instance : EmptyCollection (Slots key) := ⟨⟨∅, #[], by simp⟩⟩

/-- The things in their order. -/
def toList (t : Slots key) : List α := t.items.toList

/-- The thing with a key. -/
def get? (t : Slots key) (k : κ) : Option α := t.index[k]?.bind (t.items[·]?)

/-- Where the thing with a key stands. The index is not worth asking when there are few things. -/
def find? (t : Slots key) (k : κ) : Option Nat :=
  if t.items.size ≤ 64 then t.items.toList.findIdx? (key · == k) else t.index[k]?

theorem find?_eq (t : Slots key) (k : κ) : t.find? k = t.index[k]? := by
  unfold find?
  split
  · rcases h : t.items.toList.findIdx? (key · == k) with _ | i
    · refine (Option.eq_none_iff_forall_ne_some.2 fun i hi => ?_).symm
      obtain ⟨a, ha, hk⟩ := Option.map_eq_some_iff.1 ((t.index_iff k i).1 hi)
      have hne := List.findIdx?_eq_none_iff.1 h a (Array.mem_toList_iff.2 (Array.mem_of_getElem? ha))
      rw [hk, beq_self_eq_true] at hne
      cases hne
    · obtain ⟨hi, heq, -⟩ := List.findIdx?_eq_some_iff_getElem.1 h
      refine ((t.index_iff k i).2 ?_).symm
      rw [← Array.getElem?_toList, List.getElem?_eq_getElem hi, Option.map_some, eq_of_beq heq]
  · rfl

theorem find?_eq_some_iff (t : Slots key) (k : κ) (i : Nat) :
    t.find? k = some i ↔ t.items[i]?.map key = some k := by
  rw [find?_eq, index_iff]

/-- Another thing with the same key in a place. -/
def set (t : Slots key) (i : Nat) (a : α) (same : t.items[i]?.map key = some (key a)) : Slots key where
  index := t.index
  items := t.items.setIfInBounds i a
  index_iff := by
    intro k j
    rw [t.index_iff k j, Array.getElem?_setIfInBounds]
    split
    · next hij =>
      subst hij
      split
      · rw [same]
        rfl
      · next hi => rw [Array.getElem?_eq_none (by omega)] at same; cases same
    · rfl

/-- One more thing, whose key was not met. -/
def push (t : Slots key) (a : α) (fresh : t.index[key a]? = none) : Slots key where
  index := t.index.insert (key a) t.items.size
  items := t.items.push a
  index_iff := by
    intro k i
    rw [Std.HashMap.getElem?_insert, Array.getElem?_push]
    have hk := t.index_iff k i
    have hn : t.items[t.items.size]? = none := by simp
    by_cases h : key a = k
    · subst h
      have hi : t.items[i]?.map key ≠ some (key a) := fun h => by
        have := (t.index_iff (key a) i).2 h
        simp [fresh] at this
      grind
    · grind

/-- The things after the one with a key was changed, or was added where there was none. -/
def alter (t : Slots key) (k : κ) (f : Option α → α)
    (same : ∀ o : Option α, (∀ a ∈ o, key a = k) → key (f o) = k) : Slots key :=
  match h : t.find? k with
  | some i =>
    have hkey : t.items[i]?.map key = some k := (t.find?_eq_some_iff k i).1 h
    t.set i (f t.items[i]?) (by
      rw [hkey, same _ fun a ha => ?_]
      rw [Option.mem_def.1 ha] at hkey
      exact Option.some.inj hkey)
  | none =>
    have hkey : key (f none) = k := same none (fun _ h => nomatch h)
    t.push (f none) (by rw [hkey, ← find?_eq, h])

end Slots

end PathScout

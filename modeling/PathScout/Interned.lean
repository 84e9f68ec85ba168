import Std.Data.HashMap

/-!
# Tables that give things numbers

A table numbers things in the order in which they are first met. Equal things have the same
number, and the number of a thing never changes.

* `Interned`: the things by number and the numbers by thing, tied together by a proof.
* `Interned.find?`: the number of a thing. Short tables are searched, long ones are looked up.
* `Interned.intern`: the number of a thing, given to it now if it has none.
-/

namespace PathScout

/-- Things with numbers. -/
structure Interned (α : Type) [BEq α] [Hashable α] where
  index : Std.HashMap α Nat
  items : Array α
  /-- A thing has a number exactly when it stands there. -/
  index_iff : ∀ (a : α) (i : Nat), index[a]? = some i ↔ items[i]? = some a

namespace Interned

variable {α : Type} [BEq α] [Hashable α] [LawfulBEq α]

/-- The table without things. -/
def empty : Interned α where
  index := ∅
  items := #[]
  index_iff := by simp

instance : EmptyCollection (Interned α) := ⟨empty⟩

/-- The number of things. -/
def size (t : Interned α) : Nat := t.items.size

/-- The thing with a given number. -/
def get? (t : Interned α) (i : Nat) : Option α := t.items[i]?

/-- The table with one more thing, which is not yet in it. -/
def push (t : Interned α) (a : α) (fresh : t.index[a]? = none) : Interned α where
  index := t.index.insert a t.items.size
  items := t.items.push a
  index_iff := by
    intro b i
    rw [Std.HashMap.getElem?_insert, Array.getElem?_push]
    by_cases h : a = b
    · subst h
      have hi : t.items[i]? ≠ some a := fun h => by
        have := (t.index_iff a i).2 h
        simp [fresh] at this
      grind
    · have := t.index_iff b i
      have hn : t.items[t.items.size]? = none := by simp
      grind

/-- The number of a thing, if it has one. The index is not worth asking when the table is short. -/
def find? (t : Interned α) (a : α) : Option Nat :=
  if t.items.size ≤ 64 then t.items.toList.idxOf? a else t.index[a]?

theorem find?_eq (t : Interned α) (a : α) : t.find? a = t.index[a]? := by
  unfold find?
  split
  · rcases h : t.items.toList.idxOf? a with _ | i
    · refine (Option.eq_none_iff_forall_ne_some.2 fun i hi => ?_).symm
      have hmem := Array.mem_of_getElem? ((t.index_iff a i).1 hi)
      exact List.idxOf?_eq_none_iff.1 h (Array.mem_toList_iff.2 hmem)
    · obtain ⟨hi, heq, -⟩ := List.findIdx?_eq_some_iff_getElem.1 h
      refine ((t.index_iff a i).2 ?_).symm
      rw [← Array.getElem?_toList, List.getElem?_eq_getElem hi, eq_of_beq heq]
  · rfl

theorem find?_eq_some_iff (t : Interned α) (a : α) (i : Nat) :
    t.find? a = some i ↔ t.items[i]? = some a := by
  rw [find?_eq, index_iff]

/-- The number of a thing, and the table that has it. -/
def intern (t : Interned α) (a : α) : Nat × Interned α :=
  match h : t.find? a with
  | some i => (i, t)
  | none => (t.items.size, t.push a ((find?_eq t a).symm.trans h))

theorem get?_intern (t : Interned α) (a : α) : (t.intern a).2.get? (t.intern a).1 = some a := by
  unfold intern
  split
  · next i h => exact (t.find?_eq_some_iff a i).1 h
  · simp [push, get?]

end Interned

end PathScout

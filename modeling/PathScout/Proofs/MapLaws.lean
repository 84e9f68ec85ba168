import Mathlib.Tactic
import PathScout.Worklist

/-!
# Laws of maps

What the operations on maps do to the value of a key. Keys that compare as equal are equal, for all
the kinds of keys that states have.

* `OrderedMap.get?_insert`, `OrderedMap.get?_filter`, `FingerprintMap.get?_insert`: the laws.
-/

namespace PathScout

open List

/-! ### Orders of keys -/

theorem SymbolId.compare_eq {a b : SymbolId} : compare a b = .eq ↔ a = b := by
  cases a
  cases b
  rw [show ∀ i j, compare (SymbolId.mk i) ⟨j⟩ = compare i j from fun _ _ => rfl,
    Nat.compare_eq_eq, mk.injEq]

/-- The rank of a key tells its region and its kind. -/
theorem BindingKey.rank_injective {a b : BindingKey} (h : a.rank = b.rank) : a = b := by
  obtain ⟨⟨i⟩, ka⟩ := a
  obtain ⟨⟨j⟩, kb⟩ := b
  cases ka <;> cases kb <;> simp [rank] at h ⊢ <;> omega

theorem BindingKey.compare_eq {a b : BindingKey} : compare a b = .eq ↔ a = b := by
  rw [show compare a b = compare a.rank b.rank from rfl, Nat.compare_eq_eq]
  exact ⟨rank_injective, fun h => h ▸ rfl⟩

theorem EnvKey.compare_eq {a b : EnvKey} : compare a b = .eq ↔ a = b := by
  rw [show compare a b = order a b from rfl]
  rcases a with ⟨⟨f⟩, ⟨e⟩⟩ | ⟨⟨f⟩⟩ <;> rcases b with ⟨⟨g⟩, ⟨d⟩⟩ | ⟨⟨g⟩⟩ <;>
    simp only [order, Ordering.then_eq_eq, Nat.compare_eq_eq, reduceCtorEq, expr.injEq,
      result.injEq, FrameId.mk.injEq, ExprId.mk.injEq]

theorem FrameBlock.compare_eq {a b : FrameBlock} : compare a b = .eq ↔ a = b := by
  obtain ⟨⟨f⟩, ⟨i⟩⟩ := a
  obtain ⟨⟨g⟩, ⟨j⟩⟩ := b
  rw [show compare (FrameBlock.mk ⟨f⟩ ⟨i⟩) ⟨⟨g⟩, ⟨j⟩⟩ = (compare f g).then (compare i j) from rfl,
    Ordering.then_eq_eq, Nat.compare_eq_eq, Nat.compare_eq_eq, mk.injEq, FrameId.mk.injEq,
    BlockId.mk.injEq]

/-- Keys that compare as equal are equal. -/
class LawfulKey (κ : Type) [Ord κ] : Prop where
  compare_eq {a b : κ} : compare a b = .eq ↔ a = b

instance : LawfulKey SymbolId := ⟨SymbolId.compare_eq⟩
instance : LawfulKey BindingKey := ⟨BindingKey.compare_eq⟩
instance : LawfulKey EnvKey := ⟨EnvKey.compare_eq⟩
instance : LawfulKey FrameBlock := ⟨FrameBlock.compare_eq⟩

namespace OrderedMap

variable {κ ν : Type} [Ord κ] [LawfulKey κ] {k k' : κ} {v : ν} {m : OrderedMap κ ν}

theorem lookup_cons (k k' : κ) (v : ν) (es : List (κ × ν)) [Decidable (k = k')] :
    lookup k ((k', v) :: es) = if k = k' then some v else lookup k es := by
  rw [lookup]
  simp only [LawfulKey.compare_eq]

theorem mem_of_lookup_eq {es : List (κ × ν)} (h : lookup k es = some v) : (k, v) ∈ es := by
  classical
  induction es with
  | nil => cases h
  | cons e es ih =>
    obtain ⟨l, w⟩ := e
    rw [lookup_cons] at h
    split at h
    · next e =>
      obtain rfl := Option.some.inj h
      exact e ▸ mem_cons_self
    · exact mem_cons_of_mem _ (ih h)

theorem lookup_put (es : List (κ × ν)) [Decidable (k' = k)] :
    lookup k' (put k v es) = if k' = k then some v else lookup k' es := by
  classical
  induction es with
  | nil => rw [put, lookup_cons]
  | cons e es ih =>
    obtain ⟨l, w⟩ := e
    rw [put]
    split
    · rw [lookup_cons]
    · next h =>
      obtain rfl := LawfulKey.compare_eq.1 h
      rw [lookup_cons, lookup_cons]
      split <;> rfl
    · next h =>
      have hne : k ≠ l := fun e => by rw [LawfulKey.compare_eq.2 e] at h; cases h
      rw [lookup_cons, lookup_cons, ih]
      split_ifs <;> simp_all

omit [LawfulKey κ] in
theorem mem_of_mem_put {b : κ × ν} {es : List (κ × ν)} (h : b ∈ put k v es) : b = (k, v) ∨ b ∈ es := by
  induction es with
  | nil => exact .inl (mem_singleton.1 h)
  | cons e es ih =>
    obtain ⟨l, w⟩ := e
    rw [put] at h
    split at h
    · exact mem_cons.1 h
    · exact (mem_cons.1 h).imp_right (mem_cons_of_mem _)
    · rcases mem_cons.1 h with rfl | h
      · exact .inr mem_cons_self
      · exact (ih h).imp_right (mem_cons_of_mem _)

theorem lookup_filter (keep : κ → Bool) (es : List (κ × ν)) :
    lookup k (es.filter fun e => keep e.1) = if keep k then lookup k es else none := by
  classical
  induction es with
  | nil => simp [lookup]
  | cons e es ih =>
    obtain ⟨l, w⟩ := e
    rw [filter_cons, lookup_cons]
    by_cases hl : keep l
    · rw [if_pos hl, lookup_cons, ih]
      split_ifs <;> simp_all
    · rw [if_neg hl, ih]
      split_ifs <;> simp_all

@[simp] theorem get?_insert_self : (m.insert k v).get? k = some v := by
  classical
  rw [insert, get?, lookup_put, if_pos rfl]

theorem get?_insert_of_ne (h : k' ≠ k) : (m.insert k v).get? k' = m.get? k' := by
  classical
  rw [insert, get?, lookup_put, if_neg h]
  rfl

theorem get?_insert [DecidableEq κ] :
    (m.insert k v).get? k' = if k' = k then some v else m.get? k' := lookup_put _

theorem get?_filter (keep : κ → Bool) :
    (m.filter fun k _ => keep k).get? k = if keep k then m.get? k else none := lookup_filter _ _

end OrderedMap

/-- A map that keeps a fingerprint gives a key its value like any other. -/
theorem FingerprintMap.get?_insert {κ ν : Type} [Ord κ] [LawfulKey κ] [DecidableEq κ] [Feed κ]
    [BEq ν] [LawfulBEq ν] [Feed ν] (digest : List UInt64 → UInt64) (m : FingerprintMap κ ν)
    (k k' : κ) (v : ν) :
    (m.insert digest k v).get? k' = if k' = k then some v else m.get? k' := by
  unfold FingerprintMap.insert
  split
  · next old hold =>
    split
    · next heq =>
      -- the key has the value already
      obtain rfl := eq_of_beq heq
      split
      · next hk => exact hk ▸ hold
      · rfl
    · exact OrderedMap.get?_insert
  · exact OrderedMap.get?_insert

end PathScout

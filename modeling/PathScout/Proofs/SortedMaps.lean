import PathScout.Proofs.MapLaws

/-!
# Maps are determined by their values

The entries of a map stand in increasing order of their keys, and every change keeps them so. There
is one list of entries for each function from keys to values: maps that give every key the same
value are equal, whatever was inserted, erased and filtered to make them.

* `OrderedMap.Sorted`: the entries stand in order.
* `OrderedMap.forall₂_of_lookup`: lists in order that agree on all keys agree entry by entry.
* `OrderedMap.get?_erase`, `OrderedMap.get?_filter_value`: the laws of taking entries away.
* `OrderedMap.eq_of_lookup_eq`: lists in order with the same values are equal.
-/

namespace PathScout

open List

/-! ### Orders of keys -/

/-- Keys that are compared by something of theirs are ordered like it. -/
theorem transOrd_of_compare {κ β : Type} [Ord κ] (cmp : β → β → Ordering) [Std.TransCmp cmp]
    (f : κ → β) (h : ∀ a b : κ, compare a b = cmp (f a) (f b)) : Std.TransOrd κ where
  eq_swap {a b} := by
    rw [h, h]
    exact Std.OrientedCmp.eq_swap
  isLE_trans {a b c} := by
    rw [h, h, h]
    exact Std.TransCmp.isLE_trans

instance : Std.TransOrd SymbolId := transOrd_of_compare compare SymbolId.index fun _ _ => rfl

instance : Std.TransOrd BindingKey :=
  transOrd_of_compare compare BindingKey.rank fun _ _ => rfl

/-- The place of a key in the environment: whether it is a result, its frame and its expression. -/
def EnvKey.place : EnvKey → Nat × Nat × Nat
  | .expr f e => (0, f.index, e.index)
  | .result f => (1, f.index, 0)

instance : Std.TransOrd EnvKey :=
  transOrd_of_compare
    (compareLex (compareOn Prod.fst)
      (compareLex (compareOn fun p => p.2.1) (compareOn fun p => p.2.2)))
    EnvKey.place fun a b => by
      rw [show compare a b = EnvKey.order a b from rfl]
      cases a <;> cases b
      case expr.expr | result.result => simp [EnvKey.order, EnvKey.place, compareLex, compareOn]
      all_goals rfl

namespace OrderedMap

variable {κ ν : Type} [Ord κ] {k k' : κ} {v w : ν} {es es' : List (κ × ν)} {m : OrderedMap κ ν}

/-! ### Entries in order -/

/-- The keys increase from entry to entry. -/
def Sorted (es : List (κ × ν)) : Prop := es.Pairwise fun a b => compare a.1 b.1 = .lt

theorem Sorted.filter (h : Sorted es) (p : κ × ν → Bool) : Sorted (es.filter p) :=
  List.Pairwise.filter p h

variable [LawfulKey κ]

theorem lookup_eq_none (h : ∀ e ∈ es, e.1 ≠ k) : lookup k es = none := by
  classical
  induction es with
  | nil => rfl
  | cons e es ih =>
    rw [lookup_cons, if_neg fun hk => h e mem_cons_self hk.symm]
    exact ih fun e he => h e (mem_cons_of_mem _ he)

theorem lookup_rel_of_forall₂ {r : ν → ν → Prop}
    (h : List.Forall₂ (fun a b => a.1 = b.1 ∧ r a.2 b.2) es es') (k : κ) :
    Option.Rel r (lookup k es) (lookup k es') := by
  classical
  induction h with
  | nil => exact .none
  | cons hab _ ih =>
    rw [lookup_cons, lookup_cons, hab.1]
    split
    · exact .some hab.2
    · exact ih

theorem Sorted.ne_of_mem {e : κ × ν} (h : Sorted (e :: es)) {a : κ × ν} (ha : a ∈ es) :
    a.1 ≠ e.1 := fun heq => by
  have hlt : compare e.1 a.1 = .lt := rel_of_pairwise_cons h ha
  rw [LawfulKey.compare_eq.2 heq.symm] at hlt
  cases hlt

theorem Sorted.mem_iff (h : Sorted es) : (k, v) ∈ es ↔ lookup k es = some v := by
  classical
  refine ⟨fun hm => ?_, mem_of_lookup_eq⟩
  induction es with
  | nil => cases hm
  | cons e es ih =>
    rw [lookup_cons]
    rcases mem_cons.1 hm with rfl | hm
    · rw [if_pos rfl]
    · rw [if_neg (h.ne_of_mem hm), ih h.of_cons hm]

theorem get?_erase [DecidableEq κ] (m : OrderedMap κ ν) (k k' : κ) :
    (m.erase k).get? k' = if k' = k then none else m.get? k' := by
  have hkeep : (fun e : κ × ν => compare k e.1 != .eq) = fun e => decide (e.1 ≠ k) := by
    funext e
    rw [Bool.eq_iff_iff, bne_iff_ne, ne_eq, LawfulKey.compare_eq, decide_eq_true_eq, eq_comm]
  rw [erase, get?, hkeep, lookup_filter fun l => decide (l ≠ k)]
  by_cases hk : k' = k
  · rw [if_pos hk, if_neg (by simpa using hk)]
  · rw [if_neg hk, if_pos (by simpa using hk), get?]

/-- A test of keys and values keeps the entries that satisfy it. -/
theorem get?_filter_value (h : Sorted m.entries) (keep : κ → ν → Bool) (k : κ) :
    (m.filter keep).get? k = (m.get? k).filter (keep k) := by
  have hiff : ∀ v, (m.filter keep).get? k = some v ↔ (m.get? k).filter (keep k) = some v := by
    intro v
    show lookup k (m.entries.filter fun e => keep e.1 e.2) = some v ↔ _
    rw [← (Sorted.filter h _).mem_iff, mem_filter, h.mem_iff, Option.filter_eq_some_iff]
    rfl
  cases hv : (m.get? k).filter (keep k) with
  | some v => exact (hiff v).2 hv
  | none =>
    refine Option.eq_none_iff_forall_ne_some.2 fun v hw => ?_
    rw [(hiff v).1 hw] at hv
    cases hv

variable [Std.TransOrd κ]

theorem sorted_put (h : Sorted es) (k : κ) (v : ν) : Sorted (put k v es) := by
  induction es with
  | nil => exact pairwise_singleton _ _
  | cons e es ih =>
    obtain ⟨l, w⟩ := e
    obtain ⟨hhead, htail⟩ := pairwise_cons.1 h
    rw [put]
    split
    · next hlt =>
      refine pairwise_cons.2 ⟨fun a ha => ?_, h⟩
      rcases mem_cons.1 ha with rfl | ha
      · exact hlt
      · exact Std.TransCmp.lt_trans hlt (hhead a ha)
    · next heq =>
      obtain rfl := LawfulKey.compare_eq.1 heq
      exact pairwise_cons.2 ⟨hhead, htail⟩
    · next hgt =>
      refine pairwise_cons.2 ⟨fun a ha => ?_, ih htail⟩
      rcases mem_of_mem_put ha with rfl | ha
      · exact Std.OrientedCmp.gt_iff_lt.1 hgt
      · exact hhead a ha

/-- A key that is smaller than the first one is not among the keys. -/
theorem Sorted.ne_of_lt {e : κ × ν} (h : Sorted (e :: es)) (hlt : compare k e.1 = .lt) :
    ∀ a ∈ e :: es, a.1 ≠ k := by
  intro a ha hk
  have hle : compare k a.1 = .lt := by
    rcases mem_cons.1 ha with rfl | ha
    · exact hlt
    · exact Std.TransCmp.lt_trans hlt (rel_of_pairwise_cons h ha)
  rw [LawfulKey.compare_eq.2 hk.symm] at hle
  cases hle

/-- Lists in order that have related values at all keys are related entry by entry. -/
theorem forall₂_of_lookup {r : ν → ν → Prop} (h : Sorted es) (h' : Sorted es')
    (hl : ∀ k, Option.Rel r (lookup k es) (lookup k es')) :
    List.Forall₂ (fun a b => a.1 = b.1 ∧ r a.2 b.2) es es' := by
  classical
  -- a key that is smaller than the first one of a list is not in the list
  have hsmaller : ∀ {e : κ × ν} {es : List (κ × ν)} {k : κ}, Sorted (e :: es) →
      compare k e.1 = .lt → lookup k (e :: es) = none := fun hs hlt =>
    lookup_eq_none (Sorted.ne_of_lt hs hlt)
  induction es generalizing es' with
  | nil =>
    cases es' with
    | nil => exact .nil
    | cons e' es' =>
      have := hl e'.1
      rw [lookup_cons, if_pos rfl] at this
      cases this
  | cons e es ih =>
    cases es' with
    | nil =>
      have := hl e.1
      rw [lookup_cons, if_pos rfl] at this
      cases this
    | cons e' es' =>
      cases hcmp : compare e.1 e'.1 with
      | lt =>
        have := hl e.1
        rw [hsmaller h' hcmp, lookup_cons, if_pos rfl] at this
        cases this
      | gt =>
        have := hl e'.1
        rw [hsmaller h (Std.OrientedCmp.gt_iff_lt.1 hcmp), lookup_cons, if_pos rfl] at this
        cases this
      | eq =>
        have hkey : e.1 = e'.1 := LawfulKey.compare_eq.1 hcmp
        refine .cons ⟨hkey, ?_⟩ (ih h.of_cons h'.of_cons fun k => ?_)
        · have := hl e.1
          rw [lookup_cons, if_pos rfl, lookup_cons, if_pos hkey] at this
          cases this with
          | some hv => exact hv
        · by_cases hk : k = e.1
          · rw [lookup_eq_none fun a ha => hk ▸ h.ne_of_mem ha,
              lookup_eq_none fun a ha => hk ▸ hkey ▸ h'.ne_of_mem ha]
            exact .none
          · have := hl k
            rwa [lookup_cons, if_neg hk, lookup_cons, if_neg (hkey ▸ hk)] at this

/-- Maps in order that give every key the same value are equal. -/
theorem eq_of_lookup_eq (h : Sorted es) (h' : Sorted es') (hl : ∀ k, lookup k es = lookup k es') :
    es = es' := by
  refine forall₂_eq_eq_eq ▸ (forall₂_of_lookup (r := Eq) h h' fun k => ?_).imp
    fun a b hab => Prod.ext hab.1 hab.2
  rw [hl k]
  cases lookup k es' with
  | none => exact .none
  | some v => exact .some rfl

/-! ### Changes -/

theorem sorted_apply (h : Sorted m.entries) (op : MapOp κ ν) : Sorted (m.apply op).entries := by
  cases op with
  | insert k v => exact sorted_put h k v
  | remove k | retain keep => exact h.filter _

end OrderedMap

end PathScout

import Mathlib.Tactic
import PathScout.Liveness

/-!
# Live variables solve their equations

Every round adds variables and takes none away, all of them are named by expressions, and a round that
adds none is a solution. So the number of rounds that are allowed is enough.

* `VarSet.Sorted`: sets are increasing lists, so sets with the same members are equal.
* `Liveness.Grounded`: the sets that rounds make. `Liveness.weight`: how much they hold.
* `Liveness.compute_solves`: the live variables before a block are those that its equation gives.
-/

namespace PathScout

open VarSet List

namespace VarSet

variable {v w : Nat} {s t : VarSet}

/-- The list is increasing. -/
abbrev Sorted (s : VarSet) : Prop := s.Pairwise (· < ·)

theorem mem_union : v ∈ union s t ↔ v ∈ s ∨ v ∈ t := by
  unfold union
  induction s generalizing t with
  | nil => simp
  | cons w ws ih =>
    rw [foldl_cons, ih, mem_insert, mem_cons]
    tauto

/-- What a fold gathers, if each of its steps adds what belongs to one thing. -/
theorem mem_foldl {α : Type} {step : VarSet → α → VarSet} {P : α → Prop}
    (h : ∀ acc a, v ∈ step acc a ↔ v ∈ acc ∨ P a) {xs : List α} {acc : VarSet} :
    v ∈ xs.foldl step acc ↔ v ∈ acc ∨ ∃ a ∈ xs, P a := by
  induction xs generalizing acc with
  | nil => simp
  | cons a xs ih => rw [foldl_cons, ih, h, exists_mem_cons_iff, or_assoc]

theorem sorted_insert (h : Sorted s) : Sorted (insert v s) := by
  induction s with
  | nil => exact pairwise_singleton _ _
  | cons w ws ih =>
    obtain ⟨hw, hws⟩ := pairwise_cons.1 h
    unfold insert
    split
    · next hlt =>
      refine pairwise_cons.2 ⟨fun x hx => ?_, h⟩
      rcases mem_cons.1 hx with rfl | hx
      · exact hlt
      · exact hlt.trans (hw x hx)
    · split
      · exact h
      · next hnlt hne =>
        refine pairwise_cons.2 ⟨fun x hx => ?_, ih hws⟩
        rcases mem_insert.1 hx with rfl | hx
        · omega
        · exact hw x hx

theorem sorted_erase (h : Sorted s) : Sorted (erase v s) := h.filter _

theorem sorted_union (h : Sorted t) : Sorted (union s t) := by
  unfold union
  induction s generalizing t with
  | nil => exact h
  | cons w ws ih => exact ih (sorted_insert h)

theorem Sorted.nodup (h : Sorted s) : s.Nodup := h.imp fun h => h.ne

/-- Sets with the same members are equal. -/
theorem Sorted.ext (hs : Sorted s) (ht : Sorted t) (h : ∀ v, v ∈ s ↔ v ∈ t) : s = t :=
  ((perm_ext_iff_of_nodup hs.nodup ht.nodup).2 h).eq_of_pairwise
    (fun _ _ _ _ h h' => absurd h h'.asymm) hs ht

theorem Sorted.length_le (hs : Sorted s) (h : ∀ v ∈ s, v ∈ t) : s.length ≤ t.length :=
  (subperm_of_subset hs.nodup h).length_le

/-- A set with as many members as a set that contains it is this set. -/
theorem Sorted.eq_of_subset (hs : Sorted s) (ht : Sorted t) (h : ∀ v ∈ s, v ∈ t)
    (hlength : t.length ≤ s.length) : s = t := by
  have hperm := (subperm_of_subset hs.nodup h).perm_of_length_le hlength
  exact hs.ext ht fun v => hperm.mem_iff

end VarSet

namespace Liveness

variable {s : Scope} {assigned : List ExprId} {g : FlowGraph} {X Y : Array VarSet} {i j : Nat}
  {block : Block} {el : Element} {P : VarSet → Prop} {live : VarSet} {is : List Nat}

/-- The set of a block. -/
def at? (X : Array VarSet) (i : Nat) : VarSet := X[i]?.getD []

/-- All sets of the first solution are in those of the second one. -/
def Le (X Y : Array VarSet) : Prop := ∀ i, ∀ v ∈ at? X i, v ∈ at? Y i

/-- The variables are named by expressions. -/
def Named (s : Scope) (live : VarSet) : Prop := ∀ v ∈ live, ∃ e, s.named? e = some ⟨v⟩

/-- There is a set of named variables for every block. -/
structure Grounded (s : Scope) (g : FlowGraph) (X : Array VarSet) : Prop where
  size : X.size = g.blocks.size
  sorted : ∀ i, (at? X i).Sorted
  named : ∀ i, Named s (at? X i)

/-! ### Steps and blocks -/

theorem named?_of_op? {e : ExprId} {v : VarId} (h : s.op? e = some (.var v)) : s.named? e = some v := by
  unfold Scope.op? at h
  obtain ⟨x, hx, hop⟩ := Option.map_eq_some_iff.1 h
  obtain ⟨op, type, span⟩ := x
  cases hop
  rw [Scope.named?, hx]

/-- A step takes a variable away, or adds one that an expression names, or does nothing. -/
theorem beforeElement_keeps (h : P live) (herase : ∀ v, P (VarSet.erase v live))
    (hinsert : ∀ e v, s.named? e = some v → P (VarSet.insert v.index live)) :
    P (beforeElement s assigned el live) := by
  unfold beforeElement
  split
  · split
    · split
      · exact herase _
      · exact h
    · next v hop =>
      split
      · exact hinsert _ v (named?_of_op? hop)
      · exact h
    · exact h
  · exact herase _
  · exact h
  · exact h

theorem sorted_beforeElement (h : live.Sorted) : (beforeElement s assigned el live).Sorted :=
  beforeElement_keeps h (fun _ => sorted_erase h) fun _ _ _ => sorted_insert h

theorem named_beforeElement (h : Named s live) : Named s (beforeElement s assigned el live) := by
  refine beforeElement_keeps h (fun w v hv => h v (mem_erase.1 hv).1) fun e v he w hw => ?_
  rcases mem_insert.1 hw with rfl | hw
  · exact ⟨e, he⟩
  · exact h w hw

theorem beforeElement_mono {live' : VarSet} (h : ∀ v ∈ live, v ∈ live') :
    ∀ v ∈ beforeElement s assigned el live, v ∈ beforeElement s assigned el live' := by
  have herase : ∀ w, ∀ v ∈ VarSet.erase w live, v ∈ VarSet.erase w live' := fun w v hv =>
    mem_erase.2 ⟨h v (mem_erase.1 hv).1, (mem_erase.1 hv).2⟩
  unfold beforeElement
  split
  · split
    · split
      · exact herase _
      · exact h
    · split
      · exact fun v hv => mem_insert.2 ((mem_insert.1 hv).imp_right (h v))
      · exact h
    · exact h
  · exact herase _
  · exact h
  · exact h

/-- What is live behind a block. -/
def behind (X : Array VarSet) (block : Block) : VarSet :=
  block.terminator.successors.foldl (fun acc t => VarSet.union (at? X t.index) acc) []

theorem mem_behind {v : Nat} :
    v ∈ behind X block ↔ ∃ t ∈ block.terminator.successors, v ∈ at? X t.index := by
  refine (mem_foldl fun acc t => ?_).trans (or_iff_right not_mem_nil)
  exact mem_union.trans or_comm

theorem sorted_behind : (behind X block).Sorted := by
  have hfold : ∀ (ts : List BlockId) (acc : VarSet), acc.Sorted →
      (ts.foldl (fun acc t => VarSet.union (at? X t.index) acc) acc).Sorted := by
    intro ts
    induction ts with
    | nil => exact fun acc h => h
    | cons t ts ih => exact fun acc h => ih _ (sorted_union h)
  exact hfold _ _ .nil

theorem beforeBlock_eq : beforeBlock s assigned X block =
      block.elements.toList.foldr (beforeElement s assigned) (behind X block) := by
  rw [Array.foldr_toList]
  rfl

/-- What holds of what is live behind a block and is kept by every step holds before the block. -/
theorem beforeBlock_keeps (hbehind : P (behind X block))
    (hstep : ∀ el live, P live → P (beforeElement s assigned el live)) :
    P (beforeBlock s assigned X block) := by
  rw [beforeBlock_eq]
  induction block.elements.toList with
  | nil => exact hbehind
  | cons el els ih => exact hstep el _ ih

theorem beforeBlock_mono (h : Le X Y) :
    ∀ v ∈ beforeBlock s assigned X block, v ∈ beforeBlock s assigned Y block := by
  rw [beforeBlock_eq, beforeBlock_eq]
  induction block.elements.toList with
  | nil =>
    intro v hv
    obtain ⟨t, ht, hv⟩ := mem_behind.1 hv
    exact mem_behind.2 ⟨t, ht, h t.index v hv⟩
  | cons el els ih => exact beforeElement_mono ih

/-! ### Rounds -/

/-- The set of one block is computed anew. -/
def renew (s : Scope) (assigned : List ExprId) (g : FlowGraph) (i : Nat) (X : Array VarSet) :
    Array VarSet :=
  match g.blocks[i]? with
  | some b => X.setIfInBounds i (beforeBlock s assigned X b)
  | none => X

/-- The sets of some blocks are computed anew, the last one first. -/
def renewAll (s : Scope) (assigned : List ExprId) (g : FlowGraph) (is : List Nat)
    (X : Array VarSet) : Array VarSet := is.foldr (renew s assigned g) X

theorem round_eq : round s assigned g X = renewAll s assigned g (List.range g.blocks.size) X := rfl

theorem at?_setIfInBounds :
    at? (X.setIfInBounds i live) j = if i = j ∧ i < X.size then live else at? X j := by
  unfold at?
  rw [Array.getElem?_setIfInBounds]
  split
  · next heq =>
    subst heq
    split
    · next hlt => rw [if_pos ⟨rfl, hlt⟩]; rfl
    · next hge =>
      rw [if_neg fun h => hge h.2, Array.getElem?_eq_none (Nat.le_of_not_lt hge)]
  · next hne => rw [if_neg fun h => hne h.1]

theorem size_renew : (renew s assigned g i X).size = X.size := by
  unfold renew
  split
  · exact Array.size_setIfInBounds
  · rfl

theorem at?_renew_of_ne (h : j ≠ i) : at? (renew s assigned g i X) j = at? X j := by
  unfold renew
  split
  · rw [at?_setIfInBounds, if_neg fun heq => h heq.1.symm]
  · rfl

theorem at?_renew_self (hb : g.blocks[i]? = some block) (hX : X.size = g.blocks.size) :
    at? (renew s assigned g i X) i = beforeBlock s assigned X block := by
  have hlt : i < g.blocks.size := (Array.getElem?_eq_some_iff.1 hb).1
  rw [renew, hb, at?_setIfInBounds, if_pos ⟨rfl, hX ▸ hlt⟩]

/-- What holds of all sets, and of what is live before a block, holds of the renewed sets. -/
theorem renew_keeps (hsize : X.size = g.blocks.size) (h : ∀ j, P (at? X j))
    (hblock : ∀ block, P (beforeBlock s assigned X block)) (j : Nat) :
    P (at? (renew s assigned g i X) j) := by
  by_cases hj : j = i
  · subst hj
    cases hb : g.blocks[j]? with
    | none =>
      rw [renew, hb]
      exact h j
    | some block =>
      rw [at?_renew_self hb hsize]
      exact hblock block
  · rw [at?_renew_of_ne hj]
    exact h j

theorem Grounded.renew (h : Grounded s g X) : Grounded s g (renew s assigned g i X) := by
  have hbehind : ∀ block, Named s (behind X block) := fun block v hv => by
    obtain ⟨t, -, hv⟩ := mem_behind.1 hv
    exact h.named t.index v hv
  exact ⟨size_renew.trans h.size, renew_keeps h.size h.sorted fun block =>
      beforeBlock_keeps sorted_behind fun _ _ => sorted_beforeElement,
    renew_keeps h.size h.named fun block =>
      beforeBlock_keeps (hbehind block) fun _ _ => named_beforeElement⟩

theorem Grounded.renewAll (h : Grounded s g X) (is : List Nat) :
    Grounded s g (renewAll s assigned g is X) := by
  induction is with
  | nil => exact h
  | cons i is ih => exact ih.renew

theorem Grounded.round (h : Grounded s g X) : Grounded s g (round s assigned g X) := h.renewAll _

theorem renew_mono (hX : Grounded s g X) (hY : Grounded s g Y) (h : Le X Y) :
    Le (renew s assigned g i X) (renew s assigned g i Y) := by
  intro j
  by_cases hj : j = i
  · subst hj
    cases hb : g.blocks[j]? with
    | none =>
      rw [renew, renew, hb]
      exact h j
    | some block =>
      rw [at?_renew_self hb hX.size, at?_renew_self hb hY.size]
      exact beforeBlock_mono h
  · rw [at?_renew_of_ne hj, at?_renew_of_ne hj]
    exact h j

theorem round_mono (hX : Grounded s g X) (hY : Grounded s g Y) (h : Le X Y) :
    Le (round s assigned g X) (round s assigned g Y) := by
  rw [round_eq, round_eq]
  induction List.range g.blocks.size with
  | nil => exact h
  | cons i is ih => exact renew_mono (hX.renewAll is) (hY.renewAll is) ih

theorem size_renewAll (is : List Nat) : (renewAll s assigned g is X).size = X.size := by
  induction is with
  | nil => rfl
  | cons i is ih => exact size_renew.trans ih

theorem at?_renewAll_of_notMem (h : j ∉ is) : at? (renewAll s assigned g is X) j = at? X j := by
  induction is with
  | nil => rfl
  | cons i is ih =>
    obtain ⟨hne, hrest⟩ := not_or.1 (mem_cons.not.1 h)
    exact (at?_renew_of_ne hne).trans (ih hrest)

theorem ext_at? (hsize : X.size = Y.size) (h : ∀ i, at? X i = at? Y i) : X = Y := by
  refine Array.ext hsize fun i hX hY => ?_
  simpa only [at?, Array.getElem?_eq_getElem hX, Array.getElem?_eq_getElem hY, Option.getD_some]
    using h i

/-- Renewing every block once without a change gives a solution for these blocks. -/
theorem solves_of_renewAll_eq (hX : X.size = g.blocks.size) (hnodup : is.Nodup)
    (h : renewAll s assigned g is X = X) (hi : i ∈ is) (hb : g.blocks[i]? = some block) :
    at? X i = beforeBlock s assigned X block := by
  induction is with
  | nil => cases hi
  | cons j is ih =>
    obtain ⟨hj, hnodup⟩ := nodup_cons.1 hnodup
    -- the blocks that were renewed before did not change either
    have hrest : renewAll s assigned g is X = X := by
      refine ext_at? (size_renewAll is) fun l => ?_
      by_cases hl : l = j
      · subst hl
        exact at?_renewAll_of_notMem hj
      · rw [← at?_renew_of_ne hl]
        exact congrArg (at? · l) h
    rcases mem_cons.1 hi with rfl | hi
    · have hrenew : renew s assigned g i X = X := (congrArg (renew s assigned g i) hrest).symm.trans h
      rw [← at?_renew_self hb hX, hrenew]
    · exact ih hnodup hrest hi

/-! ### The number of rounds -/

/-- How many variables the sets have. -/
def weight (g : FlowGraph) (X : Array VarSet) : Nat :=
  ∑ i ∈ Finset.range g.blocks.size, (at? X i).length

theorem length_le_of_named (hs : live.Sorted) (h : Named s live) : live.length ≤ s.exprs.size := by
  have hsub : ∀ v ∈ live, v ∈ (List.range s.exprs.size).filterMap fun i =>
      (s.named? ⟨i⟩).map (·.index) := by
    intro v hv
    obtain ⟨e, he⟩ := h v hv
    have hlt : e.index < s.exprs.size := by
      unfold Scope.named? at he
      split at he
      · next hx => exact (Array.getElem?_eq_some_iff.1 hx).1
      · cases he
    exact mem_filterMap.2 ⟨e.index, mem_range.2 hlt, by rw [he]; rfl⟩
  exact (hs.length_le hsub).trans ((length_filterMap_le _ _).trans length_range.le)

theorem Grounded.weight_le (h : Grounded s g X) : weight g X ≤ g.blocks.size * s.exprs.size := by
  have := Finset.sum_le_card_nsmul (Finset.range g.blocks.size) (fun i => (at? X i).length)
    s.exprs.size fun i _ => length_le_of_named (h.sorted i) (h.named i)
  simpa [weight] using this

/-- Sets that hold no more than sets in them are these sets. -/
theorem Grounded.eq_of_weight_le (hX : Grounded s g X) (hY : Grounded s g Y) (h : Le X Y)
    (hweight : weight g Y ≤ weight g X) : X = Y := by
  have hlength : ∀ i ∈ Finset.range g.blocks.size, (at? X i).length ≤ (at? Y i).length := fun i _ =>
    (hX.sorted i).length_le (h i)
  have heq : ∀ i ∈ Finset.range g.blocks.size, (at? X i).length = (at? Y i).length :=
    (Finset.sum_eq_sum_iff_of_le hlength).1 (le_antisymm (Finset.sum_le_sum hlength) hweight)
  refine ext_at? (hX.size.trans hY.size.symm) fun i => ?_
  rcases lt_or_ge i g.blocks.size with hlt | hge
  · exact (hX.sorted i).eq_of_subset (hY.sorted i) (h i) (heq i (Finset.mem_range.2 hlt)).ge
  · rw [at?, at?, Array.getElem?_eq_none (hX.size ▸ hge), Array.getElem?_eq_none (hY.size ▸ hge)]

/-- Enough rounds end with one that changes nothing. -/
theorem round_iterate {n : Nat} (hn : g.blocks.size * s.exprs.size < weight g X + n)
    (hX : Grounded s g X) (hle : Le X (round s assigned g X)) :
    Grounded s g (iterate s assigned g n X) ∧
      round s assigned g (iterate s assigned g n X) = iterate s assigned g n X := by
  induction n generalizing X with
  | zero => exact absurd hX.weight_le (by omega)
  | succ n ih =>
    rw [iterate]
    split
    · next heq => exact ⟨hX, heq⟩
    · next hne =>
      have hround : Grounded s g (round s assigned g X) := hX.round
      have hlt : g.blocks.size * s.exprs.size < weight g (round s assigned g X) + n := by
        by_contra hnot
        exact hne (hX.eq_of_weight_le hround hle (by omega)).symm
      exact ih hlt hround (round_mono hX hround hle)

theorem at?_replicate (n i : Nat) : at? (Array.replicate n []) i = [] := by
  unfold at?
  rw [Array.getElem?_replicate]
  split <;> rfl

/-- One more round changes nothing. -/
theorem round_compute (s : Scope) (g : FlowGraph) : Grounded s g (compute s g).liveIn ∧
    round s (assignedNames s g) g (compute s g).liveIn = (compute s g).liveIn := by
  have hstart : Grounded s g (Array.replicate g.blocks.size []) :=
    ⟨Array.size_replicate, fun i => by rw [at?_replicate]; exact .nil, fun i v hv => by
      rw [at?_replicate] at hv
      cases hv⟩
  refine round_iterate (by omega) hstart fun i v hv => ?_
  rw [at?_replicate] at hv
  cases hv

/-- **The live variables before a block are those that its equation gives.** -/
theorem compute_solves (s : Scope) (g : FlowGraph) (hb : g.blocks[i]? = some block) :
    at? (compute s g).liveIn i = beforeBlock s (assignedNames s g) (compute s g).liveIn block := by
  obtain ⟨hgrounded, hround⟩ := round_compute s g
  exact solves_of_renewAll_eq hgrounded.size nodup_range hround
    (mem_range.2 (Array.getElem?_eq_some_iff.1 hb).1) hb

/-! ### What the equations depend on -/

theorem mem_assignedNames {x : ExprId} : x ∈ assignedNames s g ↔
    ∃ block ∈ g.blocks, ∃ e root, .expr e root ∈ block.elements ∧
      ∃ v, s.op? e = some (.assign x v) ∧ (s.named? x).isSome = true := by
  simp only [assignedNames, mem_flatMap, mem_filterMap, Array.mem_toList_iff]
  constructor
  · rintro ⟨block, hblock, el, hel, hname⟩
    split at hname
    · next e root =>
      split at hname
      · next t v hop =>
        obtain ⟨w, hw, rfl⟩ := Option.map_eq_some_iff.1 hname
        exact ⟨block, hblock, e, root, hel, v, hop, by rw [hw]; rfl⟩
      · cases hname
    · cases hname
  · rintro ⟨block, hblock, e, root, hel, v, hop, hname⟩
    obtain ⟨w, hw⟩ := Option.isSome_iff_exists.1 hname
    exact ⟨block, hblock, .expr e root, hel, by simp only [hop, hw, Option.map_some]⟩

/-- Both scopes know the same of the expressions of a graph. -/
structure Agree (s s' : Scope) (g : FlowGraph) : Prop where
  op {block : Block} {e : ExprId} {root : Bool} : block ∈ g.blocks →
    .expr e root ∈ block.elements → s.op? e = s'.op? e
  named {block : Block} {e t v : ExprId} {root : Bool} : block ∈ g.blocks →
    .expr e root ∈ block.elements → s.op? e = some (.assign t v) → s.named? t = s'.named? t
  tracked {block : Block} {e : ExprId} {root : Bool} {v : VarId} : block ∈ g.blocks →
    .expr e root ∈ block.elements → s.op? e = some (.var v) → s.isTracked v = s'.isTracked v

variable {s' : Scope}

theorem Agree.assignedNames_eq (h : Agree s s' g) : assignedNames s g = assignedNames s' g := by
  unfold assignedNames
  refine flatMap_congr fun block hblock => filterMap_congr fun el hel => ?_
  replace hblock := Array.mem_toList_iff.1 hblock
  replace hel := Array.mem_toList_iff.1 hel
  cases el with
  | expr e root =>
    have hop := h.op hblock hel
    dsimp only
    rw [← hop]
    split
    · next t v ht => rw [h.named hblock hel ht]
    · rfl
  | decl v init l => rfl
  | merge e v => rfl
  | «return» v l => rfl

theorem Agree.beforeElement_eq (h : Agree s s' g) (hblock : block ∈ g.blocks)
    (hel : el ∈ block.elements) (live : VarSet) :
    beforeElement s assigned el live = beforeElement s' assigned el live := by
  cases el with
  | expr e root =>
    have hop := h.op hblock hel
    unfold beforeElement
    dsimp only
    rw [← hop]
    split
    · next t v ht => rw [h.named hblock hel ht]
    · next v hv => rw [h.tracked hblock hel hv]
    · rfl
  | decl v init l => rfl
  | merge e v => rfl
  | «return» v l => rfl

theorem Agree.beforeBlock_eq (h : Agree s s' g) (hblock : block ∈ g.blocks) :
    beforeBlock s assigned X block = beforeBlock s' assigned X block := by
  rw [Liveness.beforeBlock_eq, Liveness.beforeBlock_eq]
  have hfold : ∀ els : List Element, (∀ el ∈ els, el ∈ block.elements) →
      els.foldr (beforeElement s assigned) (behind X block) =
        els.foldr (beforeElement s' assigned) (behind X block) := by
    intro els
    induction els with
    | nil => exact fun _ => rfl
    | cons el els ih =>
      intro hels
      rw [foldr_cons, foldr_cons, ih fun a ha => hels a (mem_cons_of_mem _ ha)]
      exact h.beforeElement_eq hblock (hels el mem_cons_self) _
  exact hfold _ fun el hel => Array.mem_toList_iff.1 hel

end Liveness

end PathScout

import PathScout.Proofs.AliasedReads
import PathScout.Proofs.Invalidation
import PathScout.Proofs.StructCopy

/-!
# What a write changes

A write changes what is read at the region that it writes and at the parts of it, and nothing else.

* `Store.get?_bind_whole`: what a write of a whole object leaves bound in it.
* `Store.retrieve_bind_of_notMem`, `Store.retrieve_bind_of_mem`: what is read outside and inside of it.
* `Store.retrieve_bind_update`: reading after a write, at every region and for both ways to write.
-/

namespace PathScout

open Catalog

namespace Store

variable {c d : Catalog} {s s' : Store} {r q : RegionId} {t : CType} {v : Value} {k : BindingKey}

/-! ### Whole objects -/

/-- A write of a whole object leaves nothing bound in it but the value that was written. -/
theorem get?_bind_whole (hcd : c ≤ d) (hs : s.KeysNamedIn c)
    (hv : setsWhole v (c.valueType? r) = true) (hk : r ∈ d.chain k.region) :
    (s.bind c (.region r) v).bindings.get? k = if k = .default r then some v else none := by
  rw [bind_eq_kill_insert hv, OrderedMap.get?_insert, get?_kill]
  split
  · rfl
  · split
    · rfl
    · next hnot =>
      -- what is bound has a number, so that it lay in the region before, too
      cases hget : s.bindings.get? k with
      | none => rfl
      | some w => exact absurd (chain_mono hcd (hs k w hget) ▸ hk) hnot

/-- A region that a write does not reach reads as before. -/
theorem retrieve_bind_of_notMem (ht : t.isScalar = true) (hcd : c ≤ d) (hq : r ∉ d.chain q) :
    (s.bind c (.region r) v).retrieve (.region q) t d = s.retrieve (.region q) t d := by
  have hget : ∀ k : BindingKey, k.region ∈ d.chain q →
      (s.bind c (.region r) v).bindings.get? k = s.bindings.get? k := fun k hk =>
    get?_bind_of_not_mem fun hr => hq (mem_chain_trans hk (mem_chain_mono hcd hr))
  exact retrieve_congr ht (hget _ mem_chain_self) fun m hm => hget _ (mem_chain_of_mem_layers hm)

/-- What is read in an object after it was written as a whole does not depend on what was there. -/
theorem retrieve_bind_of_mem (ht : t.isScalar = true) (hcd : c ≤ d) (hs : s.KeysNamedIn c)
    (hs' : s'.KeysNamedIn c) (hv : setsWhole v (c.valueType? r) = true) (hd : d.WellFormed)
    (hq : r ∈ d.layers q) :
    (s.bind c (.region r) v).retrieve (.region q) t d =
      (s'.bind c (.region r) v).retrieve (.region q) t d := by
  have hmem : r ∈ d.chain q := mem_chain_of_mem_layers hq
  have hdirect : ∀ {u : Store}, u.KeysNamedIn c → (u.bind c (.region r) v).direct? q = none :=
    fun hu => by rw [direct?, get?_bind_whole hcd hu hv hmem, if_neg (BindingKey.direct_ne_default q r)]
  have hnearest : ∀ {u : Store}, u.KeysNamedIn c →
      nearestDefault? d (u.bind c (.region r) v).bindings.entries q = some (r, v) := fun {u} hu => by
    have hdefault : ∀ {m : RegionId}, r ∈ d.chain m →
        (u.bind c (.region r) v).default? m = if m = r then some v else none := fun {m} hm => by
      rw [default?, get?_bind_whole hcd hu hv hm]
      exact if_congr ⟨fun h => congrArg BindingKey.region h, fun h => h ▸ rfl⟩ rfl rfl
    refine nearestDefault?_of_mem_layers hd hq ?_ fun m _ hm hne => ?_
    · exact (hdefault mem_chain_self).trans (if_pos rfl)
    · exact (hdefault hm).trans (if_neg hne)
  rw [retrieve, retrieve, retrieveFrom_of_default ht (hdirect hs),
    retrieveFrom_of_default ht (hdirect hs'), hnearest hs, hnearest hs']

/-- **A write changes what it writes.** A value of a scalar is read back at its region, and all other
regions read as before. A value of a whole object decides what is read at the region and at all its
parts, whatever they held, and all other regions read as before. -/
theorem retrieve_bind_update (hcd : c ≤ d) (hd : d.WellFormed)
    (hr : ∀ space, c.region r ≠ .space space) (ht : t.isScalar = true) :
    (setsWhole v (c.valueType? r) = false →
      (s.bind c (.region r) v).retrieve (.region r) t d = (fit v t, d) ∧
        ∀ q, q ≠ r →
          (s.bind c (.region r) v).retrieve (.region q) t d = s.retrieve (.region q) t d) ∧
      (setsWhole v (c.valueType? r) = true →
        (∀ q, q ≠ r → d.isInside q r = false →
          (s.bind c (.region r) v).retrieve (.region q) t d = s.retrieve (.region q) t d) ∧
        ∀ (s' : Store) (q : RegionId), s.KeysNamedIn c → s'.KeysNamedIn c →
          q = r ∨ d.isInside q r = true →
          (s.bind c (.region r) v).retrieve (.region q) t d =
            (s'.bind c (.region r) v).retrieve (.region q) t d) := by
  refine ⟨fun hv => ⟨retrieve_bind_self hv ht, fun q => retrieve_bind_of_ne hv ht⟩,
    fun hv => ⟨?_, ?_⟩⟩
  · intro q hne hout
    refine retrieve_bind_of_notMem ht hcd fun hmem => ?_
    rw [isInside_iff.2 ⟨hmem, hne.symm⟩] at hout
    cases hout
  · intro s' q hs hs' hq
    have hmem : r ∈ d.chain q := by
      rcases hq with rfl | hq
      · exact mem_chain_self
      · exact (isInside_iff.1 hq).1
    -- only memory spaces lie in nothing
    have hparent : (d.region r).parent? ≠ none := by
      have hhas : c.Has r := by
        by_contra hnot
        exact hr _ (region_of_not_has hnot)
      rw [region_mono hcd hhas]
      cases hregion : c.region r with
      | space space => exact absurd hregion (hr space)
      | _ => exact Option.some_ne_none _
    exact retrieve_bind_of_mem ht hcd hs hs' hv hd (mem_layers_of_mem_chain hd hmem hparent)

/-- After `b.f = 1; a = b` the structure `a` becomes unknown: its field reads as if nothing had been
there, and the field of `b` as before. -/
theorem retrieve_bind_update_unknown :
    let after (s : Store) := s.bind structCatalog (.region ⟨1⟩) .unknown
    structCatalog.WellFormed ∧ (∀ space, structCatalog.region ⟨1⟩ ≠ .space space) ∧
      assigned.KeysNamedIn structCatalog ∧ structCatalog.isInside ⟨4⟩ ⟨1⟩ = true ∧
      (after assigned).retrieve (.region ⟨4⟩) .int structCatalog =
        (after {}).retrieve (.region ⟨4⟩) .int structCatalog ∧
      (after assigned).retrieve (.region ⟨5⟩) .int structCatalog =
        assigned.retrieve (.region ⟨5⟩) .int structCatalog := by
  have hspace : ∀ space, structCatalog.region ⟨1⟩ ≠ .space space := fun space h => by cases h
  have hc : structCatalog.WellFormed := by decide
  have hkeys : assigned.NamedIn structCatalog := by decide +kernel
  have hnamed : assigned.KeysNamedIn structCatalog := fun _ _ => hkeys.has
  have hinside : structCatalog.isInside ⟨4⟩ ⟨1⟩ = true := by decide +kernel
  have houtside : structCatalog.isInside ⟨5⟩ ⟨1⟩ = false := by decide +kernel
  obtain ⟨-, hwhole⟩ := retrieve_bind_update (s := assigned) (v := .unknown) (t := .int) le_rfl
    hc hspace rfl
  obtain ⟨hframe, hparts⟩ := hwhole rfl
  exact ⟨hc, hspace, hnamed, hinside,
    hparts {} ⟨4⟩ hnamed (fun k v h => by cases h) (.inr hinside), hframe ⟨5⟩ (by decide) houtside⟩

end Store

end PathScout

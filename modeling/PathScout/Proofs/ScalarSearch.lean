import PathScout.Proofs.ScalarEntry
import PathScout.Proofs.StartState

/-!
# The search and runs

The search continues pending nodes until there are none. Every node that a path has to be continued
from is pending or was continued, so in the end every node leads on for every run that its state
stands for. Each pending node was new once, so the bound on the number of nodes bounds the steps.

* `Study.Searching`: the invariant of the search.
* `Study.search_spec`: the invariant holds in the end, when nothing is pending.
-/

namespace PathScout.Study

open Exploring List

variable {k : Study} {e e' : Exploration} {z : Catalog} {x : PathNode} {n : NodeId} {p : Pending}

/-! ### Larger graphs -/

section

variable {g g' : PathGraph} (hg : ∀ {n x}, g.node? n = some x → g'.node? n = some x)
include hg

theorem Reached.mono {kind : PointKind} {live : VarSet} {κ : Config} {α : Assignment}
    (h : k.Reached z g kind live κ α) : k.Reached z g' kind live κ α := by
  obtain ⟨n, s, hn, hagrees⟩ := h
  exact ⟨n, s, hg hn, hagrees⟩

theorem Enters.mono {b : BlockId} {s : State} (h : k.Enters z g b s) : k.Enters z g' b s := by
  intro κ α hagrees
  obtain ⟨β, hβ, hreached⟩ := h hagrees
  exact ⟨β, hβ, hreached.mono hg⟩

theorem Proceeds.mono {b : BlockId} {i : Nat} {s : State} (h : k.Proceeds z g b i s) :
    k.Proceeds z g' b i s := by
  intro block κ α hb hagrees
  obtain ⟨hstep, hleave⟩ := h hb hagrees
  refine ⟨fun el κ' hel hact => (hstep el κ' hel hact).mono hg, fun hnone => ?_⟩
  obtain ⟨hnext, hexit⟩ := hleave hnone
  exact ⟨fun b' hb' => (hnext b' hb').mono hg, fun ht => (hexit ht).mono hg⟩

theorem Served.mono (h : k.Served z g x) : k.Served z g' x := by
  unfold Served at h ⊢
  split
  iterate 4
    · next hk =>
      simp only [hk] at h
      exact h.mono hg
  · trivial

end

/-! ### The invariant -/

/-- Pending nodes are tame, and every node that a path has to be continued from is pending or leads
on, unless some path was given up. -/
structure Searching (k : Study) (e : Exploration) : Prop where
  ready : k.Ready e
  waiting {p : Pending} : p ∈ e.worklist.pending → ∃ x, k.Waiting e p x
  served {n : NodeId} {x : PathNode} : e.graph.node? n = some x → x.isResumed = true →
    (∃ p ∈ e.worklist.pending, p.node = n) ∨
      (e.coverage = [] → ∀ {z}, e.catalog ≤ z → k.Served z e.graph x)

/-- **One step of the search.** A pending node is taken and continued. -/
theorem Searching.step {rest : List Pending} (h : k.Searching e)
    (hpending : e.worklist.pending = p :: rest)
    (hrun : dispatch k.options p
      { e with worklist := { e.worklist with pending := rest } } = .ok ((), e')) :
    k.Searching e' ∧ e.catalog ≤ e'.catalog ∧
      (∀ {n x}, e.graph.node? n = some x → e'.graph.node? n = some x) ∧
      e'.worklist.pending.length + e.graph.size + 1 ≤ e.worklist.pending.length + e'.graph.size := by
  obtain ⟨x, hw⟩ := h.waiting (hpending ▸ mem_cons_self)
  have hready : k.Ready { e with worklist := { e.worklist with pending := rest } } :=
    ⟨h.ready.regular, h.ready.frame⟩
  obtain ⟨hev, hserved⟩ := dispatch_spec hready ⟨hw.node, hw.resumed, hw.kind, hw.frame, hw.tame⟩ hrun
  refine ⟨⟨hev.ready, fun {q} hq => ?_, fun {m y} hm hy => ?_⟩, hev.le, hev.node, ?_⟩
  · rcases hev.waiting hq with hq | hwaiting
    · obtain ⟨y, hy⟩ := h.waiting (hpending ▸ mem_cons_of_mem p hq)
      exact ⟨y, hy.mono h.ready hev.le hev.node⟩
    · exact hwaiting
  · rcases hev.resumed hm hy with hold | hnew
    · replace hold : e.graph.node? m = some y := hold
      rcases h.served hold hy with ⟨q, hq, rfl⟩ | hdone
      · rw [hpending] at hq
        rcases mem_cons.1 hq with rfl | hq
        · -- the node that was just continued
          cases hw.node.symm.trans hold
          exact .inr fun hnil => hserved hnil
        · exact .inl ⟨q, hev.pending hq, rfl⟩
      · exact .inr fun hnil {z} hz => (hdone (hev.coverage hnil) (hev.le.trans hz)).mono hev.node
    · exact .inl hnew
  · have hslack := hev.slack
    rw [hpending]
    rw [length_cons]
    replace hslack : e'.worklist.pending.length + e.graph.size ≤ rest.length + e'.graph.size := hslack
    omega

/-- What the search comes to: nothing is pending, or there are too many nodes, or the next one is
continued. -/
theorem search_cases {o : Options} {f : FrameId} {location : Location} {steps : Nat}
    (hrun : search o f location (steps + 1) e = .ok ((), e')) :
    (e.worklist.pending = [] ∧ e' = e) ∨ ∃ p rest, e.worklist.pending = p :: rest ∧
      ((∃ d, noteCoverage f .nodeBudget location
          { e with worklist := { e.worklist with pending := rest } } = .ok ((), d) ∧
          e' = { d with worklist := d.worklist.clear }) ∨
        (¬ o.maxNodes ≤ e.graph.size ∧ ∃ d, dispatch o p
          { e with worklist := { e.worklist with pending := rest } } = .ok ((), d) ∧
          search o f location steps d = .ok ((), e'))) := by
  unfold search at hrun
  obtain ⟨next, d, hnext, hrest⟩ := bind_eq_ok.1 hrun
  unfold nextPending Worklist.pop? at hnext
  cases hpending : e.worklist.pending with
  | nil =>
    simp only [hpending] at hnext
    cases hnext
    exact .inl ⟨rfl, (pure_eq_ok.1 hrest).2.symm⟩
  | cons p rest =>
    simp only [hpending] at hnext
    cases hnext
    dsimp only at hrest
    rw [query_bind, ite_apply] at hrest
    refine .inr ⟨p, rest, rfl, ?_⟩
    split at hrest
    · obtain ⟨_, d, hnote, hclear⟩ := bind_eq_ok.1 hrest
      cases hclear
      exact .inl ⟨d, hnote, rfl⟩
    · next hsize =>
      obtain ⟨_, d, hdispatch, hsearch⟩ := bind_eq_ok.1 hrest
      exact .inr ⟨hsize, d, hdispatch, hsearch⟩

/-- **The search continues every node.** -/
theorem search_spec {location : Location} {steps : Nat} (h : k.Searching e) (hsteps : 0 < steps)
    (hbudget : k.options.maxNodes + e.worklist.pending.length ≤ steps + e.graph.size)
    (hrun : search k.options topFrame location steps e = .ok ((), e')) :
    k.Regular e'.catalog ∧ e.catalog ≤ e'.catalog ∧
      (∀ {n x}, e.graph.node? n = some x → e'.graph.node? n = some x) ∧
      (e'.coverage = [] → ∀ {n x}, e'.graph.node? n = some x → x.isResumed = true →
        k.Served e'.catalog e'.graph x) := by
  induction steps generalizing e with
  | zero => cases hsteps
  | succ steps ih =>
    obtain ⟨hpending, rfl⟩ | ⟨p, rest, hpending, ⟨d, hnote, rfl⟩ | ⟨hsize, d, hdispatch, hsearch⟩⟩ :=
      search_cases hrun
    · refine ⟨h.ready.regular, le_rfl, id, fun hnil {n x} hn hx => ?_⟩
      rcases h.served hn hx with ⟨p, hp, -⟩ | hdone
      · rw [hpending] at hp
        cases hp
      · exact hdone hnil le_rfl
    · have hready : k.Ready { e with worklist := { e.worklist with pending := rest } } :=
        ⟨h.ready.regular, h.ready.frame⟩
      obtain ⟨hev, hne⟩ := noteCoverage_spec hready hnote
      exact ⟨hev.ready.regular, hev.le, hev.node, fun hnil => absurd hnil hne⟩
    · obtain ⟨hd, hle, hnode, hslack⟩ := h.step hpending hdispatch
      rw [hpending, length_cons] at hslack hbudget
      obtain ⟨hreg, hle', hnode', hserved⟩ := ih hd (by omega) (by omega) hsearch
      exact ⟨hreg, hle.trans hle', fun hn => hnode' (hnode hn), hserved⟩

end PathScout.Study

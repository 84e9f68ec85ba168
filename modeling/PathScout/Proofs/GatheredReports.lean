import Mathlib.Data.List.MinMax
import Mathlib.Tactic
import PathScout.Analysis
import PathScout.Proofs.ShortestPaths

/-!
# Reports and diagnostics by issue

Reports are gathered by issue. Each issue stands where its first report came, with all of its reports in
their order, and is told by the first of those whose path is shortest. Diagnostics are collected in the same
way: each issue stands where its first diagnostic came, with the first of its shortest ones.

* `Reporter.toList_emit`: the issues after one more report.
* `Reporter.toList_emitAll`: the issues after any reports.
* `Exploration.closest?_eq_argmin`: the report that an issue is told by.
* `Exploration.flush_correct`: what is told of any reports.
* `Diagnostics.collect_eq`: the diagnostics that are kept of any. `Diagnostics.collect_of_nodup`: diagnostics
  of different issues are all kept.
* `Diagnostics.collect_correct`: what is kept, and what is written of it.
-/

namespace PathScout

open List

/-!
## Things by key, one after the other

Whatever is done to things by key, the keys stay different. When things come one after the other and each
changes what has its key, the keys stand in the order in which they came first, and with each of them stands
what the things with this key make together.

* `Slots.nodup_keys`: the keys are different. `Slots.toList_alter`: what one change does.
* `Slots.merged`: what things make together. `Slots.toList_foldl_alter`: what a sequence of changes does.
  `Slots.toList_foldl_alter_of_nodup`: it takes things of which no two have the same key as they are.
* `argmin_eq_some_iff`: the first of the least things of a list.
-/

namespace Slots

variable {κ α β : Type} [BEq κ] [Hashable κ] {key : α → κ} {t : Slots key} {k : κ}

/-! ### One change -/

/-- A key stands in one place only. -/
theorem index_unique {i j : Nat} (hi : t.items[i]?.map key = some k) (hj : t.items[j]?.map key = some k) :
    i = j :=
  Option.some.inj (((t.index_iff k i).2 hi).symm.trans ((t.index_iff k j).2 hj))

theorem nodup_keys (t : Slots key) : (t.toList.map key).Nodup := by
  rw [nodup_iff_getElem?_ne_getElem?]
  intro i j hij hj heq
  obtain ⟨k, hk⟩ : ∃ k, (t.toList.map key)[j]? = some k := ⟨_, getElem?_eq_getElem hj⟩
  rw [hk, getElem?_map] at heq
  rw [getElem?_map] at hk
  simp only [toList, Array.getElem?_toList] at heq hk
  exact hij.ne (index_unique heq hk)

/-- Changing the thing with a key leaves all others alone; if there is none, one more comes to the end. -/
theorem toList_alter [LawfulBEq κ] {f : Option α → α}
    {same : ∀ o : Option α, (∀ a ∈ o, key a = k) → key (f o) = k} :
    (t.alter k f same).toList = if k ∈ t.toList.map key
      then t.toList.map fun a => if key a == k then f (some a) else a
      else t.toList ++ [f none] := by
  unfold alter
  split
  · next i hi =>
    have hkey : t.items[i]?.map key = some k := (t.find?_eq_some_iff k i).1 hi
    obtain ⟨a, ha, hak⟩ := Option.map_eq_some_iff.1 hkey
    have hmem : k ∈ t.toList.map key :=
      mem_map.2 ⟨a, Array.mem_toList_iff.2 (Array.mem_of_getElem? ha), hak⟩
    rw [if_pos hmem]
    refine ext_getElem? fun j => ?_
    simp only [toList, set, Array.toList_setIfInBounds, getElem?_set, getElem?_map,
      Array.getElem?_toList, Array.length_toList]
    by_cases hij : i = j
    · subst hij
      have hlt : i < t.items.size := (Array.getElem?_eq_some_iff.1 ha).1
      rw [if_pos rfl, if_pos hlt, ha, Option.map_some, if_pos (beq_iff_eq.2 hak)]
    · rw [if_neg hij]
      cases hb : t.items[j]? with
      | none => rfl
      | some b =>
        have hne : ¬ (key b == k) = true := fun hbk =>
          hij (index_unique hkey (by rw [hb, Option.map_some, beq_iff_eq.1 hbk]))
        rw [Option.map_some, if_neg hne]
  · next hnone =>
    have hmem : k ∉ t.toList.map key := fun hmem => by
      obtain ⟨a, ha, hak⟩ := mem_map.1 hmem
      obtain ⟨i, hi⟩ := getElem?_of_mem ha
      have hi' : t.items[i]?.map key = some k := by
        rw [toList, Array.getElem?_toList] at hi
        rw [hi, Option.map_some, hak]
      cases hnone.symm.trans ((t.find?_eq_some_iff k i).2 hi')
    rw [if_neg hmem]
    exact Array.toList_push

/-! ### A sequence of changes -/

/-- What things make together, one after the other. -/
def merged (f : β → Option α → α) (bs : List β) : Option α := bs.foldl (fun o b => some (f b o)) none

theorem merged_concat (f : β → Option α → α) (bs : List β) (b : β) :
    merged f (bs ++ [b]) = some (f b (merged f bs)) := foldl_concat ..

variable {of : β → κ} {f : β → Option α → α}

omit [BEq κ] [Hashable κ] in
theorem key_of_merged (same : ∀ b (o : Option α), (∀ a ∈ o, key a = of b) → key (f b o) = of b)
    {a : α} {bs : List β} (hk : ∀ b ∈ bs, of b = k) (h : merged f bs = some a) : key a = k := by
  induction bs using List.reverseRecOn generalizing a with
  | nil => cases h
  | append_singleton bs b ih =>
    rw [merged_concat] at h
    cases h
    have hb : of b = k := hk b (by simp)
    refine (same b _ fun a ha => ?_).trans hb
    exact (ih (fun b hb => hk b (mem_append_left _ hb)) ha).trans hb.symm

theorem exists_merged (f : β → Option α → α) {bs : List β} (h : bs ≠ []) : ∃ a, merged f bs = some a := by
  induction bs using List.reverseRecOn with
  | nil => exact absurd rfl h
  | append_singleton bs b => exact ⟨_, merged_concat f bs b⟩

omit [Hashable κ] in
/-- A further thing changes what the things with its key make together. -/
theorem merged_filter_concat (bs : List β) (b : β) (k : κ) :
    merged f ((bs ++ [b]).filter fun x => of x == k) =
      if of b == k then some (f b (merged f (bs.filter fun x => of x == k)))
      else merged f (bs.filter fun x => of x == k) := by
  rw [filter_append]
  split
  · next hb =>
    rw [filter_cons_of_pos (p := fun x => of x == k) hb, filter_nil, merged_concat]
  · next hb =>
    rw [filter_cons_of_neg (p := fun x => of x == k) hb, filter_nil, append_nil]

variable [LawfulBEq κ] (same : ∀ b (o : Option α), (∀ a ∈ o, key a = of b) → key (f b o) = of b)
include same

omit [Hashable κ] in
/-- A key that came stands with a thing that has it. -/
theorem exists_merged_of_mem {bs : List β} (hk : k ∈ (bs.map of).eraseDups) :
    ∃ a, merged f (bs.filter fun x => of x == k) = some a ∧ key a = k := by
  obtain ⟨x, hx, hxk⟩ := mem_map.1 (mem_eraseDups.1 hk)
  have hmem : x ∈ bs.filter fun x => of x == k := mem_filter.2 ⟨hx, beq_iff_eq.2 hxk⟩
  obtain ⟨a, ha⟩ := exists_merged f (ne_nil_of_mem hmem)
  exact ⟨a, ha, key_of_merged same (fun y hy => beq_iff_eq.1 (mem_filter.1 hy).2) ha⟩

omit [Hashable κ] in
theorem keys_filterMap_merged (bs : List β) :
    ((bs.map of).eraseDups.filterMap fun k => merged f (bs.filter fun x => of x == k)).map key =
      (bs.map of).eraseDups := by
  rw [map_filterMap]
  refine (filterMap_congr fun k hk => ?_).trans filterMap_some
  obtain ⟨a, ha, hkey⟩ := exists_merged_of_mem same hk
  rw [ha, Option.map_some, hkey]

/-- **One thing after the other**: the keys stand in the order in which they came first, each with what the
things with this key make together. -/
theorem toList_foldl_alter (bs : List β) :
    (bs.foldl (fun t b => t.alter (of b) (f b) (same b)) (∅ : Slots key)).toList =
      ((bs.map of).eraseDups).filterMap fun k => merged f (bs.filter fun x => of x == k) := by
  induction bs using List.reverseRecOn with
  | nil => rfl
  | append_singleton bs b ih =>
    rw [foldl_concat, toList_alter, ih, keys_filterMap_merged same, map_append, map_singleton,
      eraseDups_append]
    simp only [mem_eraseDups, merged_filter_concat]
    split
    · next hold =>
      have hnone : [of b].removeAll (bs.map of) = [] := by simp [List.removeAll, hold]
      rw [hnone, eraseDups_nil, append_nil, map_filterMap]
      refine filterMap_congr fun k hk => ?_
      obtain ⟨a, ha, hkey⟩ := exists_merged_of_mem same hk
      rw [ha, Option.map_some, hkey]
      by_cases hb : of b = k
      · rw [if_pos (beq_iff_eq.2 hb), if_pos (beq_iff_eq.2 hb.symm)]
      · rw [if_neg (mt beq_iff_eq.1 hb), if_neg (mt beq_iff_eq.1 (Ne.symm hb))]
    · next hnew =>
      have hone : [of b].removeAll (bs.map of) = [of b] := by simp [List.removeAll, hnew]
      have hempty : bs.filter (fun x => of x == of b) = [] := by
        refine filter_eq_nil_iff.2 fun x hx heq => hnew ?_
        exact mem_map.2 ⟨x, hx, beq_iff_eq.1 heq⟩
      rw [hone, eraseDups_cons, filter_nil, eraseDups_nil, filterMap_append]
      congr 1
      · refine filterMap_congr fun k hk => ?_
        refine (if_neg fun heq => hnew ?_).symm
        rw [beq_iff_eq.1 heq]
        exact mem_eraseDups.1 hk
      · rw [filterMap_cons, if_pos (beq_self_eq_true _), hempty]
        rfl

theorem keys_foldl_alter (bs : List β) :
    (bs.foldl (fun t b => t.alter (of b) (f b) (same b)) (∅ : Slots key)).toList.map key =
      (bs.map of).eraseDups := by
  rw [toList_foldl_alter, keys_filterMap_merged same]

/-- Things of which no two have the same key make nothing together. -/
theorem toList_foldl_alter_of_nodup {bs : List β} (h : (bs.map of).Nodup) :
    (bs.foldl (fun t b => t.alter (of b) (f b) (same b)) (∅ : Slots key)).toList = bs.map (f · none) := by
  induction bs using List.reverseRecOn with
  | nil => rfl
  | append_singleton bs b ih =>
    rw [map_append, nodup_append] at h
    obtain ⟨hbs, -, hnew⟩ := h
    have hkeys : (bs.map (f · none)).map key = bs.map of := by
      rw [map_map]
      exact map_congr_left fun b _ => same b none fun a ha => absurd ha (Option.not_mem_none a)
    have hmem : of b ∉ (bs.map (f · none)).map key := fun hb => by
      rw [hkeys] at hb
      exact hnew _ hb _ (mem_singleton_self _) rfl
    rw [foldl_concat, toList_alter, ih hbs, if_neg hmem, map_append, map_singleton]

end Slots

/-! ### The first of the least -/

/-- The first of the least things of a list: those before it are greater, and none behind it is less. -/
theorem argmin_eq_some_iff {α ι : Type} [LinearOrder ι] {rank : α → ι} {xs : List α} {a : α} :
    xs.argmin rank = some a ↔ ∃ before after, xs = before ++ a :: after ∧
      (∀ x ∈ before, rank a < rank x) ∧ ∀ x ∈ after, rank a ≤ rank x := by
  constructor
  · intro h
    induction xs using List.reverseRecOn generalizing a with
    | nil => cases h
    | append_singleton xs x ih =>
      rw [argmin_concat] at h
      cases hc : xs.argmin rank with
      | none =>
        rw [hc] at h
        cases h
        exact ⟨xs, [], rfl, by simp [argmin_eq_none.1 hc], by simp⟩
      | some c =>
        rw [hc] at h
        dsimp only at h
        obtain ⟨before, after, rfl, hbefore, hafter⟩ := ih hc
        split at h
        · next hlt =>
          cases h
          refine ⟨_, [], rfl, fun y hy => ?_, by simp⟩
          rcases mem_append.1 hy with hy | hy
          · exact hlt.trans (hbefore y hy)
          · rcases mem_cons.1 hy with rfl | hy
            · exact hlt
            · exact hlt.trans_le (hafter y hy)
        · next hle =>
          cases h
          refine ⟨before, after ++ [x], by simp, hbefore, fun y hy => ?_⟩
          rcases mem_append.1 hy with hy | hy
          · exact hafter y hy
          · rw [mem_singleton.1 hy]
            exact not_lt.1 hle
  · rintro ⟨before, after, rfl, hbefore, hafter⟩
    induction after using List.reverseRecOn with
    | nil =>
      rw [argmin_concat]
      cases hc : before.argmin rank with
      | none => rfl
      | some c => exact if_pos (hbefore c (argmin_mem hc))
    | append_singleton after x ih =>
      rw [← cons_append, ← append_assoc, argmin_concat, ih fun y hy => hafter y (mem_append_left _ hy)]
      exact if_neg (not_lt.2 (hafter x (by simp)))

/-! ## Reports and diagnostics by issue -/

/-! ### Gathering -/

theorem Reports.add_eq {rs : Reports} {r : BugReport} (h : (rs.map ReportClass.profile).Nodup) :
    rs.add r = if r.finding.profile ∈ rs.map ReportClass.profile
      then rs.map fun c =>
        if c.profile == r.finding.profile then { c with reports := c.reports ++ [r] } else c
      else rs ++ [⟨r.finding.profile, [r]⟩] := by
  induction rs with
  | nil => rfl
  | cons c rest ih =>
    obtain ⟨hc, hrest⟩ := nodup_cons.1 h
    unfold Reports.add
    split
    · next heq =>
      have hsame : rest.map (fun c => if c.profile == r.finding.profile then
          { c with reports := c.reports ++ [r] } else c) = rest := by
        refine (map_congr_left fun c' hc' => if_neg fun heq' => hc ?_).trans (map_id rest)
        rw [heq, ← beq_iff_eq.1 heq']
        exact mem_map_of_mem hc'
      rw [if_pos (by rw [← heq]; exact mem_cons_self), map_cons, if_pos (beq_iff_eq.2 heq), hsame]
    · next hne =>
      rw [ih hrest, map_cons, map_cons, if_neg (mt beq_iff_eq.1 hne)]
      simp only [mem_cons, Ne.symm hne, false_or]
      split <;> rfl

namespace Reporter

/-- A further report joins those of its issue, or is a new issue at the end. -/
theorem toList_emit (t : Reporter) (r : BugReport) : (t.emit r).toList = Reports.add r t.toList := by
  rw [Reports.add_eq t.nodup_keys]
  exact Slots.toList_alter

theorem merged_joined {rs : List BugReport} {p : Profile} (hp : ∀ r ∈ rs, r.finding.profile = p)
    (hne : rs ≠ []) : Slots.merged ReportClass.joined rs = some ⟨p, rs⟩ := by
  induction rs using List.reverseRecOn with
  | nil => exact absurd rfl hne
  | append_singleton rs r ih =>
    rw [Slots.merged_concat]
    cases rs with
    | nil => rw [← hp r (by simp)]; rfl
    | cons s rest => rw [ih (fun x hx => hp x (mem_append_left _ hx)) (cons_ne_nil _ _)]; rfl

/-- **Gathering reports**: issues stand in the order in which they were first met, each with its reports. -/
theorem toList_emitAll (rs : List BugReport) :
    (rs.foldl emit ∅).toList = ((rs.map (·.finding.profile)).eraseDups).map fun p =>
      ⟨p, rs.filter (·.finding.profile == p)⟩ := by
  have hclass : ∀ p ∈ (rs.map (·.finding.profile)).eraseDups,
      Slots.merged ReportClass.joined (rs.filter (·.finding.profile == p)) =
        some ⟨p, rs.filter (·.finding.profile == p)⟩ := fun p hp => by
    obtain ⟨r, hr, hrp⟩ := mem_map.1 (mem_eraseDups.1 hp)
    refine merged_joined (fun s hs => beq_iff_eq.1 (mem_filter.1 hs).2) ?_
    exact ne_nil_of_mem (mem_filter.2 ⟨hr, beq_iff_eq.2 hrp⟩)
  refine (Slots.toList_foldl_alter _ rs).trans ((filterMap_congr hclass).trans ?_)
  exact congrFun filterMap_eq_map' _

end Reporter

/-! ### Telling -/

namespace Exploration

variable {g : PathGraph} {reports : List BugReport} {r s : BugReport}

/-- The number of nodes on a shortest path to a report. A report that no path leads to is farthest away. -/
def farness (g : PathGraph) (r : BugReport) : ℕ∞ :=
  match g.shortestPath? r.node with
  | some path => path.length
  | none => ⊤

theorem isShorter_iff : isShorter (g.shortestPath? r.node) (g.shortestPath? s.node) = true ↔
    farness g r < farness g s := by
  unfold farness
  cases g.shortestPath? r.node <;> cases g.shortestPath? s.node <;> simp [isShorter]

/-- An issue is told by the first of its reports to which a shortest path leads. -/
theorem closest?_eq_argmin (g : PathGraph) (reports : List BugReport) :
    closest? g reports = (reports.argmin (farness g)).map fun r => (r, g.shortestPath? r.node) := by
  induction reports using List.reverseRecOn with
  | nil => rfl
  | append_singleton reports r ih =>
    rw [argmin_concat, closest?, foldl_concat]
    rw [closest?] at ih
    rw [ih]
    cases reports.argmin (farness g) with
    | none => rfl
    | some s =>
      dsimp only [Option.map_some]
      by_cases h : farness g r < farness g s
      · rw [if_pos (isShorter_iff.2 h), if_pos h]; rfl
      · rw [if_neg (mt isShorter_iff.1 h), if_neg h]; rfl

theorem forall₂_filterMap {α β : Type} {R : α → β → Prop} {f : α → Option β} {xs : List α}
    (h : ∀ x ∈ xs, ∃ y, f x = some y ∧ R x y) : List.Forall₂ R xs (xs.filterMap f) := by
  induction xs with
  | nil => exact .nil
  | cons x xs ih =>
    obtain ⟨y, hy, hR⟩ := h x mem_cons_self
    rw [filterMap_cons_some hy]
    exact .cons hR (ih fun x hx => h x (mem_cons_of_mem _ hx))

/-- What an issue is told by: the first of its reports to which a shortest path leads. -/
theorem exists_closest {c : ReportClass} (e : Exploration) (scheme : PathScheme) (hc : c.reports ≠ []) :
    ∃ before r after, c.reports = before ++ r :: after ∧
      (∀ s ∈ before, farness e.graph r < farness e.graph s) ∧
      (∀ s ∈ after, farness e.graph r ≤ farness e.graph s) ∧
      (closest? e.graph c.reports).map (fun (r, path) => e.diagnostic scheme r path) =
        some (e.diagnostic scheme r (e.graph.shortestPath? r.node)) := by
  obtain ⟨r, hr⟩ : ∃ r, c.reports.argmin (farness e.graph) = some r :=
    Option.ne_none_iff_exists'.1 (mt argmin_eq_none.1 hc)
  obtain ⟨before, after, heq, hbefore, hafter⟩ := argmin_eq_some_iff.1 hr
  refine ⟨before, r, after, heq, hbefore, hafter, ?_⟩
  rw [closest?_eq_argmin, hr]
  rfl

theorem profile_diagnostic (e : Exploration) (scheme : PathScheme) (r : BugReport)
    (path : Option (List NodeId)) : (e.diagnostic scheme r path).profile = r.finding.profile := rfl

/-- **Each issue is told once.** After any reports, the issues stand in the order in which they were first
met, no issue stands twice, and with each stand exactly its reports in their order. Whatever the graph, each
issue in turn is told by a diagnostic of its own, along a shortest path to the first of its reports that a
shortest path leads to, where a report that no path leads to is farthest away. Nothing of the reports is left
after that, and further ones are gathered as if they were the first. -/
theorem flush_correct (rs : List BugReport) (e : Exploration) (scheme : PathScheme)
    (he : e.reporter = rs.foldl Reporter.emit ∅) :
    (e.reports.map (·.profile) = (rs.map (·.finding.profile)).eraseDups ∧
      (e.reports.map (·.profile)).Nodup ∧
      ∀ c ∈ e.reports, c.reports = rs.filter (·.finding.profile = c.profile)) ∧
    List.Forall₂ (fun c d => d.profile = c.profile ∧ ∃ before r after, c.reports = before ++ r :: after ∧
        (∀ s ∈ before, farness e.graph r < farness e.graph s) ∧
        (∀ s ∈ after, farness e.graph r ≤ farness e.graph s) ∧
        d = e.diagnostic scheme r (e.graph.shortestPath? r.node)) e.reports (e.flush scheme).1 ∧
    (e.flush scheme).2 = { e with reporter := ∅ } ∧
    ∀ later : List BugReport, (later.foldl Reporter.emit (e.flush scheme).2.reporter).toList =
      ((later.map (·.finding.profile)).eraseDups).map fun p => ⟨p, later.filter (·.finding.profile = p)⟩ := by
  have hreports : e.reports = ((rs.map (·.finding.profile)).eraseDups).map fun p =>
      ⟨p, rs.filter (·.finding.profile == p)⟩ := by
    rw [reports, he]
    exact Reporter.toList_emitAll rs
  have hclass : ∀ c ∈ e.reports, c.reports = rs.filter (·.finding.profile = c.profile) := fun c hc => by
    rw [hreports] at hc
    obtain ⟨p, -, rfl⟩ := mem_map.1 hc
    rfl
  have hprofiles : e.reports.map (·.profile) = (rs.map (·.finding.profile)).eraseDups := by
    rw [hreports, map_map]
    exact map_id _
  refine ⟨⟨hprofiles, e.reporter.nodup_keys, hclass⟩, ?_, rfl, Reporter.toList_emitAll⟩
  -- no issue is without reports, so each of them is told
  have hne : ∀ c ∈ e.reports, c.reports ≠ [] := fun c hc => by
    rw [hclass c hc]
    have hp : c.profile ∈ rs.map (·.finding.profile) := by
      rw [← mem_eraseDups, ← hprofiles]
      exact mem_map_of_mem hc
    obtain ⟨r, hr, hrp⟩ := mem_map.1 hp
    exact ne_nil_of_mem (mem_filter.2 ⟨hr, decide_eq_true hrp⟩)
  refine forall₂_filterMap fun c hc => ?_
  obtain ⟨before, r, after, heq, hbefore, hafter, htold⟩ := exists_closest e scheme (hne c hc)
  refine ⟨_, htold, ?_, before, r, after, heq, hbefore, hafter, rfl⟩
  have hr : r ∈ c.reports := by simp [heq]
  rw [hclass c hc] at hr
  exact (profile_diagnostic ..).trans (of_decide_eq_true (mem_filter.1 hr).2)

/-- Of two issues one is reported at the end of a row and, after the other one, near its start. Two
diagnostics are made, and the first of them is for the report near the start. -/
theorem flush_correct_row : ∃ (e : Exploration) (far other near : BugReport), e.graph = .row ∧
    e.reporter = [far, other, near].foldl Reporter.emit ∅ ∧
      e.reports.map (·.reports) = [[far, near], [other]] ∧
      farness e.graph near < farness e.graph far ∧
      (e.flush .extensive).1 = [e.diagnostic .extensive near (e.graph.shortestPath? near.node),
        e.diagnostic .extensive other (e.graph.shortestPath? other.node)] ∧
      (e.flush .extensive).2.reports = [] := by
  let report (message : String) (n : Nat) : BugReport :=
    ⟨⟨⟨"", ""⟩, message, .nowhere, [], [], none⟩, ⟨n⟩⟩
  let far := report "a" 2
  let other := report "b" 2
  let near := report "a" 1
  let e : Exploration :=
    { catalog := .ofProgram { file := "" }, worklist := { order := .depthFirst }, graph := .row
      reporter := [far, other, near].foldl Reporter.emit ∅ }
  obtain ⟨-, htold, hflushed, -⟩ := flush_correct [far, other, near] e .extensive rfl
  have hreports : e.reports = [⟨far.finding.profile, [far, near]⟩, ⟨other.finding.profile, [other]⟩] := by
    refine (Reporter.toList_emitAll [far, other, near]).trans ?_
    rfl
  have hfarness {i : Nat} (r : BugReport) (hr : r.node = ⟨i⟩) (hi : i < PathGraph.row.size) :
      farness .row r = (i + 1 : ℕ) := by
    rw [farness, hr, PathGraph.built_row.linked.shortestPath?_of_isRow (by decide +kernel) hi]
    simp
  have hnearer : farness e.graph near < farness e.graph far := by
    rw [hfarness near rfl (by decide +kernel), hfarness far rfl (by decide +kernel)]
    decide
  refine ⟨e, far, other, near, rfl, rfl, by rw [hreports]; rfl, hnearer, ?_, by rw [hflushed]; rfl⟩
  rw [hreports] at htold
  generalize (e.flush .extensive).1 = ds at htold ⊢
  obtain _ | ⟨⟨-, before, r, after, hfirst, -, hafter, rfl⟩,
    _ | ⟨⟨-, before', r', after', hsecond, -, -, rfl⟩, ⟨⟩⟩⟩ := htold
  obtain rfl : r = near := by
    match before with
    | [] =>
      cases hfirst
      exact absurd hnearer (hafter near mem_cons_self).not_gt
    | [_] => cases hfirst; rfl
    | _ :: _ :: _ => simp at hfirst
  obtain rfl : r' = other := by
    match before' with
    | [] => cases hsecond; rfl
    | _ :: _ => simp at hsecond
  rfl

end Exploration

/-! ### Collecting -/

namespace Diagnostics

variable {ds : List Diagnostic} {d : Diagnostic}

theorem merged_orShorter (ds : List Diagnostic) :
    Slots.merged Diagnostic.orShorter ds = ds.argmin Diagnostic.size := by
  induction ds using List.reverseRecOn with
  | nil => rfl
  | append_singleton ds d ih =>
    rw [Slots.merged_concat, argmin_concat, ih]
    cases ds.argmin Diagnostic.size with
    | none => rfl
    | some other => exact apply_ite some _ _ _

/-- Issues stand in the order in which they first came, each with the first of its shortest diagnostics. -/
theorem collect_eq (ds : List Diagnostic) :
    collect ds = ((ds.map Diagnostic.profile).eraseDups).filterMap fun p =>
      (ds.filter (·.profile == p)).argmin Diagnostic.size := by
  simp only [← merged_orShorter]
  exact Slots.toList_foldl_alter Diagnostic.profile_orShorter ds

theorem profiles_collect (ds : List Diagnostic) :
    (collect ds).map Diagnostic.profile = (ds.map Diagnostic.profile).eraseDups :=
  Slots.keys_foldl_alter Diagnostic.profile_orShorter ds

theorem nodup_collect (ds : List Diagnostic) : ((collect ds).map Diagnostic.profile).Nodup :=
  Slots.nodup_keys _

/-- Diagnostics of different issues are all kept, in their order. -/
theorem collect_of_nodup (h : (ds.map Diagnostic.profile).Nodup) : collect ds = ds :=
  (Slots.toList_foldl_alter_of_nodup Diagnostic.profile_orShorter h).trans (map_id ds)

/-- What is kept is the first of the shortest diagnostics of its issue. -/
theorem split_of_mem_collect (h : d ∈ collect ds) : ∃ before after, ds = before ++ d :: after ∧
    (∀ x ∈ before, x.profile = d.profile → d.size < x.size) ∧
    ∀ x ∈ after, x.profile = d.profile → d.size ≤ x.size := by
  rw [collect_eq] at h
  obtain ⟨p, -, hp⟩ := mem_filterMap.1 h
  obtain ⟨before, after, heq, hbefore, hafter⟩ := argmin_eq_some_iff.1 hp
  obtain ⟨front, rest, rfl, rfl, hrest⟩ := filter_eq_append_iff.1 heq
  obtain ⟨middle, back, rfl, hmiddle, hd, rfl⟩ := filter_eq_cons_iff.1 hrest
  obtain rfl : d.profile = p := beq_iff_eq.1 hd
  refine ⟨front ++ middle, back, by simp, fun x hx heq => ?_, fun x hx heq => ?_⟩
  · rcases mem_append.1 hx with hx | hx
    · exact hbefore x (mem_filter.2 ⟨hx, beq_iff_eq.2 heq⟩)
    · exact absurd (beq_iff_eq.2 heq) (hmiddle x hx)
  · exact hafter x (mem_filter.2 ⟨hx, beq_iff_eq.2 heq⟩)

/-- What was found was collected. -/
theorem exists_of_analyzeProgram {o : Options} {p : Program} {a : Analysis}
    (h : analyzeProgram o p = .ok a) : ∃ ds, a.diagnostics = collect ds := by
  unfold analyzeProgram at h
  cases hexplored : p.definedFunctions.mapM (explore o p) with
  | error e =>
    rw [hexplored] at h
    cases h
  | ok explored =>
    rw [hexplored] at h
    cases h
    exact ⟨_, rfl⟩

/-- **Each issue is kept once, by its shortest diagnostic.** Of any diagnostics, those that are kept have
different issues, which stand in the order in which they first came, and each is the first among the shortest
of its issue. Collecting them again changes nothing. So what an analysis found is written as it stands: as the
property list of its diagnostics, and as the text of one after the other. -/
theorem collect_correct (ds : List Diagnostic) :
    ((collect ds).map Diagnostic.profile).Nodup ∧
    (collect ds).map Diagnostic.profile = (ds.map Diagnostic.profile).eraseDups ∧
    (∀ d ∈ collect ds, ∃ before after, ds = before ++ d :: after ∧
      (∀ x ∈ before, x.profile = d.profile → d.size < x.size) ∧
      ∀ x ∈ after, x.profile = d.profile → d.size ≤ x.size) ∧
    collect (collect ds) = collect ds ∧
    ∀ (o : Options) (p : Program) (a : Analysis), analyzeProgram o p = .ok a →
      a.write (fun _ => .plist) = a.plist ∧
      a.write .text = String.join (a.diagnostics.map (·.listing)) := by
  have hagain (ds : List Diagnostic) : collect (collect ds) = collect ds :=
    collect_of_nodup (nodup_collect ds)
  refine ⟨nodup_collect ds, profiles_collect ds, fun _ => split_of_mem_collect, hagain ds,
    fun o p a h => ?_⟩
  obtain ⟨found, hfound⟩ := exists_of_analyzeProgram h
  have hsame : collect a.diagnostics = a.diagnostics := by rw [hfound, hagain]
  exact ⟨congrArg Plist.render hsame, congrArg listing hsame⟩

/-- Of two diagnostics of one issue the shorter one is kept, where the first one came. -/
theorem collect_correct_shorter : ∃ long other short : Diagnostic,
    collect [long, other, short] = [short, other] ∧
    collect (collect [long, other, short]) = collect [long, other, short] ∧
    ∃ a, analyzeProgram { checkers := [] } { file := "" } = .ok a ∧
      a.write (fun _ => .plist) = a.plist := by
  let note : PathPiece := .event ⟨.nowhere, "", []⟩
  let told (line : Nat) (path : List PathPiece) : Diagnostic := ⟨"", ⟨"", ""⟩, "", ⟨line, 1⟩, none, path⟩
  obtain ⟨-, -, -, hagain, hwrite⟩ := collect_correct [told 1 [note, note], told 2 [note], told 1 [note]]
  refine ⟨told 1 [note, note], told 2 [note], told 1 [note], ?_, hagain, _, rfl, ?_⟩
  · rw [collect_eq]
    rfl
  · exact (hwrite { checkers := [] } { file := "" } _ rfl).1

end Diagnostics

end PathScout

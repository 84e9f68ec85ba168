import PathScout.Proofs.ToldPaths

/-!
# Gathering what happens at the uses of defined names

Pieces of a path that stand next to each other at the use of a defined name are gathered into one piece. This is
done on every level, that is for the path itself and for what happens in each of its calls. Nothing is lost or
moved by it, and there is only one way to do it: a path is determined by its pieces and by the fact that they
are gathered on every level.

* `PathPiece.Plain`: there is no use of a defined name in a path. `PathPiece.levels`: the levels of a path.
* `PathPiece.Gathered`: what is true of a level once its pieces are gathered.
* `bodiesIn_groupExpansions`: the bodies of calls are gathered in the same way.
* `gathered_groupExpansions`: a single level. `groupExpansions_ungroupIn`: there is only one way.
* `PathPiece.groupExpansions_only_groups`: what gathering does to a path.
-/

namespace PathScout

open List

/-- What is said by what is met. A jump may say nothing. -/
def Met.message? : Met → Option String
  | event _ e => some e.message
  | jump piece => piece.message?
  | call .. => none

namespace PathPiece

/-- The call that a piece is, and what happens in it. -/
def call? : PathPiece → Option (CallShape × List PathPiece)
  | call site enter within path exit => some (⟨site, enter, within, exit⟩, path)
  | _ => none

/-- The place of the use of a defined name that a piece is. -/
def use? : PathPiece → Option Location
  | expansion l _ _ => some l
  | _ => none

/-- Is the piece an event or a jump? -/
def isLeaf : PathPiece → Bool
  | event _ | control .. => true
  | _ => false

/-- There is no use of a defined name in a path, nor in its calls. -/
inductive Plain : List PathPiece → Prop where
  | nil : Plain []
  | leaf {p : PathPiece} {rest : List PathPiece} : p.isLeaf = true → Plain rest → Plain (p :: rest)
  | call (c : CallShape) {path rest : List PathPiece} : Plain path → Plain rest → Plain (c.piece path :: rest)

mutual

/-- What happens in the calls in a piece, from outside to inside. -/
def bodies : PathPiece → List (List PathPiece)
  | event _ | control .. => []
  | call _ _ _ path _ => path :: bodiesIn path
  | expansion _ _ pieces => bodiesIn pieces

/-- What happens in the calls in some pieces. -/
def bodiesIn : List PathPiece → List (List PathPiece)
  | [] => []
  | p :: rest => bodies p ++ bodiesIn rest

end

/-- The levels of a path: the path itself and what happens in each of its calls. -/
def levels (ps : List PathPiece) : List (List PathPiece) := ps :: bodiesIn ps

/-- The first use of a defined name at a place. -/
def useAt? (xs : List Expansion) (l : Location) : Option Expansion := xs.find? (·.location == l)

/-- The pieces of a level are gathered: what stands at the use of a defined name is in a piece of its own, which
holds events and jumps at this place and nothing else, and no two such pieces could be one. -/
structure Gathered (xs : List Expansion) (level : List PathPiece) : Prop where
  nonempty {l : Location} {name : String} {parts : List PathPiece} :
    expansion l name parts ∈ level → parts ≠ []
  named {l : Location} {name : String} {parts : List PathPiece} :
    expansion l name parts ∈ level → useAt? xs l = some ⟨name, l⟩
  parts {l : Location} {name : String} {parts : List PathPiece} {q : PathPiece} :
    expansion l name parts ∈ level → q ∈ parts → q.isLeaf = true ∧ q.location = l
  apart : level.IsChain fun p q => ∀ l ∈ p.use?, l ∉ q.use?
  elsewhere {p : PathPiece} : p ∈ level → p.isLeaf = true → useAt? xs p.location = none

variable {xs : List Expansion} {x : Expansion} {p q : PathPiece} {ps qs rest parts : List PathPiece}
  {l : Location} {name : String}

theorem location_of_useAt? (h : useAt? xs l = some x) : x.location = l := by simpa using find?_some h

theorem bodies_of_isLeaf (hp : p.isLeaf = true) : bodies p = [] := by
  cases p with
  | event | control => rw [bodies]
  | call | expansion => cases hp

theorem call?_of_isLeaf (hp : p.isLeaf = true) : p.call? = none := by
  cases p with
  | event | control => rfl
  | call | expansion => cases hp

theorem use?_of_isLeaf (hp : p.isLeaf = true) : p.use? = none := by
  cases p with
  | event | control => rfl
  | call | expansion => cases hp

theorem ungroup_of_isLeaf (hp : p.isLeaf = true) : ungroup p = [p] := by
  cases p with
  | event | control => rw [ungroup]
  | call | expansion => cases hp

theorem Plain.ungroupIn_eq (h : Plain ps) : ungroupIn ps = ps := by
  induction h with
  | nil => rw [ungroupIn]
  | leaf hp hrest ih => rw [ungroupIn, ungroup_of_isLeaf hp, ih]; rfl
  | call c hpath hrest ihpath ihrest =>
    rw [ungroupIn, CallShape.piece, ungroup, ihpath, ihrest]
    rfl

/-! ### Gathering one piece after the other -/

theorem groupWithin_of_isLeaf (hp : p.isLeaf = true) : groupWithin xs p = p := by
  cases p with
  | event | control => rw [groupWithin]; intros; contradiction
  | call | expansion => cases hp

theorem groupExpansions_of_isLeaf (hp : p.isLeaf = true) :
    groupExpansions xs (p :: rest) = match useAt? xs p.location with
      | some x => joinExpansion x p (groupExpansions xs rest)
      | none => p :: groupExpansions xs rest := by
  have hwithin : groupWithin xs p = p := groupWithin_of_isLeaf hp
  cases p with
  | event | control => rw [groupExpansions, hwithin]; rfl; intros; contradiction
  | call | expansion => cases hp

theorem groupExpansions_of_use (hp : p.isLeaf = true) (hx : useAt? xs p.location = some x) :
    groupExpansions xs (p :: rest) = joinExpansion x p (groupExpansions xs rest) := by
  rw [groupExpansions_of_isLeaf hp, hx]

theorem groupExpansions_of_elsewhere (hp : p.isLeaf = true) (hx : useAt? xs p.location = none) :
    groupExpansions xs (p :: rest) = p :: groupExpansions xs rest := by
  rw [groupExpansions_of_isLeaf hp, hx]

theorem groupExpansions_call {site : Location} {enter within exit : Option EventPiece} :
    groupExpansions xs (call site enter within ps exit :: rest) =
      call site enter within (groupExpansions xs ps) exit :: groupExpansions xs rest := by
  rw [groupExpansions, groupWithin]

/-- A piece joins the use that stands behind it at the same place. -/
theorem joinExpansion_of_use (hx : x.location = l) :
    joinExpansion x p (expansion l name parts :: rest) = expansion l name (p :: parts) :: rest := by
  rw [joinExpansion, if_pos hx.symm]

/-- A piece is alone if no use of the same place stands behind it. -/
theorem joinExpansion_of_apart (h : ∀ q ∈ rest.head?, x.location ∉ q.use?) :
    joinExpansion x p rest = expansion x.location x.name [p] :: rest := by
  unfold joinExpansion
  split
  · next l name parts tail =>
    have hl : l ≠ x.location := fun e => h _ rfl (by simp [use?, e])
    rw [if_neg hl]
  · rfl

/-! ### The calls of a path -/

theorem bodiesIn_joinExpansion (x : Expansion) (p : PathPiece) (rest : List PathPiece) :
    bodiesIn (joinExpansion x p rest) = bodies p ++ bodiesIn rest := by
  unfold joinExpansion
  split
  · split
    · simp only [bodiesIn, bodies, append_assoc]
    · simp only [bodiesIn, bodies, append_nil]
  · simp only [bodiesIn, bodies, append_nil]

theorem filterMap_call?_joinExpansion (x : Expansion) (p : PathPiece) (rest : List PathPiece) :
    (joinExpansion x p rest).filterMap call? = rest.filterMap call? := by
  unfold joinExpansion
  split
  · split <;> rfl
  · rfl

/-- **What happens in calls** is gathered in the same way as the path itself. -/
theorem bodiesIn_groupExpansions (xs : List Expansion) (h : Plain ps) :
    bodiesIn (groupExpansions xs ps) = (bodiesIn ps).map (groupExpansions xs) := by
  induction h with
  | nil => rw [groupExpansions, bodiesIn, map_nil]
  | leaf hp hrest ih =>
    rw [groupExpansions_of_isLeaf hp, bodiesIn, bodies_of_isLeaf hp, nil_append, ← ih]
    split
    · rw [bodiesIn_joinExpansion, bodies_of_isLeaf hp, nil_append]
    · rw [bodiesIn, bodies_of_isLeaf hp, nil_append]
  | call c hpath hrest ihpath ihrest =>
    rw [CallShape.piece, groupExpansions_call, bodiesIn, bodies, ihpath, ihrest, bodiesIn, bodies,
      map_append, map_cons]

/-- The calls of a level stay as they are, but for what happens in them. -/
theorem filterMap_call?_groupExpansions (xs : List Expansion) (h : Plain ps) :
    (groupExpansions xs ps).filterMap call? =
      (ps.filterMap call?).map fun c => (c.1, groupExpansions xs c.2) := by
  induction h with
  | nil => rw [groupExpansions]; rfl
  | leaf hp hrest ih =>
    rw [groupExpansions_of_isLeaf hp, filterMap_cons_none (call?_of_isLeaf hp), ← ih]
    split
    · exact filterMap_call?_joinExpansion _ _ _
    · exact filterMap_cons_none (call?_of_isLeaf hp)
  | call c hpath hrest ihpath ihrest =>
    rw [CallShape.piece, groupExpansions_call]
    simp only [filterMap_cons, call?, map_cons, ihrest]

theorem Plain.of_mem_bodiesIn (h : Plain ps) : ∀ level ∈ bodiesIn ps, Plain level := by
  induction h with
  | nil => simp [bodiesIn]
  | leaf hp hrest ih => simpa [bodiesIn, bodies_of_isLeaf hp] using ih
  | call c hpath hrest ihpath ihrest =>
    intro level hlevel
    rw [bodiesIn, CallShape.piece, bodies, mem_append, mem_cons] at hlevel
    rcases hlevel with (rfl | hlevel) | hlevel
    · exact hpath
    · exact ihpath level hlevel
    · exact ihrest level hlevel

/-! ### A single level -/

theorem gathered_nil (xs : List Expansion) : Gathered xs [] where
  nonempty h := absurd h not_mem_nil
  named h := absurd h not_mem_nil
  parts h := absurd h not_mem_nil
  apart := .nil
  elsewhere h := absurd h not_mem_nil

/-- What stands behind the first piece of a level. -/
theorem Gathered.tail (h : Gathered xs (p :: rest)) : Gathered xs rest where
  nonempty hq := h.nonempty (mem_cons_of_mem _ hq)
  named hq := h.named (mem_cons_of_mem _ hq)
  parts hq := h.parts (mem_cons_of_mem _ hq)
  apart := h.apart.tail
  elsewhere hq := h.elsewhere (mem_cons_of_mem _ hq)

/-- A piece that is no use of a defined name, in front of a level. -/
theorem Gathered.cons (h : Gathered xs rest) (hp : p.use? = none)
    (hx : p.isLeaf = true → useAt? xs p.location = none) : Gathered xs (p :: rest) where
  nonempty hq := h.nonempty ((mem_cons.1 hq).resolve_left (by rintro rfl; cases hp))
  named hq := h.named ((mem_cons.1 hq).resolve_left (by rintro rfl; cases hp))
  parts hq := h.parts ((mem_cons.1 hq).resolve_left (by rintro rfl; cases hp))
  apart := isChain_cons.2 ⟨fun q _ l hl => absurd hl (by simp [hp]), h.apart⟩
  elsewhere hq := by
    rcases mem_cons.1 hq with rfl | hq
    · exact hx
    · exact h.elsewhere hq

/-- The use of a defined name, in front of a level that does not start with the same one. -/
theorem Gathered.cons_use (h : Gathered xs rest) (hx : useAt? xs l = some ⟨name, l⟩) (hne : parts ≠ [])
    (hparts : ∀ q ∈ parts, q.isLeaf = true ∧ q.location = l) (hrest : ∀ q ∈ rest.head?, l ∉ q.use?) :
    Gathered xs (expansion l name parts :: rest) where
  nonempty hq := by
    rcases mem_cons.1 hq with hq | hq
    · cases hq
      exact hne
    · exact h.nonempty hq
  named hq := by
    rcases mem_cons.1 hq with hq | hq
    · cases hq
      exact hx
    · exact h.named hq
  parts hq hin := by
    rcases mem_cons.1 hq with hq | hq
    · cases hq
      exact hparts _ hin
    · exact h.parts hq hin
  apart := isChain_cons.2 ⟨fun q hq l' hl => by cases hl; exact hrest q hq, h.apart⟩
  elsewhere hq hleaf := by
    rcases mem_cons.1 hq with rfl | hq
    · cases hleaf
    · exact h.elsewhere hq hleaf

/-- A piece at the use of a defined name, in front of a level. -/
theorem Gathered.joinExpansion (h : Gathered xs rest) (hp : p.isLeaf = true)
    (hx : useAt? xs p.location = some x) : Gathered xs (joinExpansion x p rest) := by
  have hl := location_of_useAt? hx
  have hname : useAt? xs x.location = some ⟨x.name, x.location⟩ := by rw [hl, hx, ← hl]
  by_cases hapart : ∀ q ∈ rest.head?, x.location ∉ q.use?
  · rw [joinExpansion_of_apart hapart]
    refine h.cons_use hname (cons_ne_nil _ _) (fun q hq => ?_) hapart
    obtain rfl := mem_singleton.1 hq
    exact ⟨hp, hl.symm⟩
  · -- The level starts with the use of the same name, which the piece joins.
    push Not at hapart
    obtain ⟨q, hq, huse⟩ := hapart
    obtain ⟨tail, rfl⟩ := head?_eq_some_iff.1 hq
    cases q with
    | expansion l name parts =>
      obtain rfl : l = x.location := Option.some.inj huse
      rw [joinExpansion_of_use rfl]
      refine h.tail.cons_use (h.named mem_cons_self) (cons_ne_nil _ _) (fun q hq => ?_) ?_
      · rcases mem_cons.1 hq with rfl | hq
        · exact ⟨hp, hl.symm⟩
        · exact h.parts mem_cons_self hq
      · exact fun q hq => (isChain_cons.1 h.apart).1 q hq _ rfl
    | event | control | call => cases huse

theorem gathered_groupExpansions (xs : List Expansion) (h : Plain ps) :
    Gathered xs (groupExpansions xs ps) := by
  induction h with
  | nil => rw [groupExpansions]; exact gathered_nil xs
  | @leaf p rest hp hrest ih =>
    cases hx : useAt? xs p.location with
    | some x => exact groupExpansions_of_use hp hx ▸ ih.joinExpansion hp hx
    | none => exact groupExpansions_of_elsewhere hp hx ▸ ih.cons (use?_of_isLeaf hp) fun _ => hx
  | call c hpath hrest ihpath ihrest =>
    rw [CallShape.piece, groupExpansions_call]
    exact ihrest.cons rfl nofun

/-! ### There is only one way to gather -/

theorem ungroupIn_of_isLeaf (h : ∀ q ∈ parts, q.isLeaf = true) : ungroupIn parts = parts := by
  induction parts with
  | nil => rw [ungroupIn]
  | cons q parts ih =>
    obtain ⟨hq, hparts⟩ := forall_mem_cons.1 h
    rw [ungroupIn, ungroup_of_isLeaf hq, ih hparts]
    rfl

/-- Pieces at the use of a defined name are gathered into one, in front of what is gathered already. -/
theorem groupExpansions_parts (hx : useAt? xs l = some ⟨name, l⟩) (hne : parts ≠ [])
    (hparts : ∀ q ∈ parts, q.isLeaf = true ∧ q.location = l)
    (hrest : ∀ q ∈ (groupExpansions xs rest).head?, l ∉ q.use?) :
    groupExpansions xs (parts ++ rest) = expansion l name parts :: groupExpansions xs rest := by
  induction parts with
  | nil => exact absurd rfl hne
  | cons q parts ih =>
    obtain ⟨⟨hq, rfl⟩, hparts⟩ := forall_mem_cons.1 hparts
    rw [cons_append, groupExpansions_of_use hq hx]
    cases parts with
    | nil => exact joinExpansion_of_apart hrest
    | cons q' parts => rw [ih (cons_ne_nil _ _) hparts, joinExpansion_of_use rfl]

/-- A path whose levels are gathered is what its pieces are gathered to. -/
theorem groupExpansions_ungroupIn (xs : List Expansion) :
    ∀ qs, (∀ level ∈ levels qs, Gathered xs level) → groupExpansions xs (ungroupIn qs) = qs
  | [], _ => by rw [ungroupIn, groupExpansions]
  | q :: rest, h => by
    have hlevel : Gathered xs (q :: rest) := h _ mem_cons_self
    have hrest : groupExpansions xs (ungroupIn rest) = rest := by
      refine groupExpansions_ungroupIn xs rest fun level hl => ?_
      rcases mem_cons.1 hl with rfl | hl
      · exact hlevel.tail
      · exact h level (mem_cons_of_mem _ (by rw [bodiesIn]; exact mem_append_right _ hl))
    have hleaf (hq : q.isLeaf = true) : groupExpansions xs (ungroupIn (q :: rest)) = q :: rest := by
      rw [ungroupIn, ungroup_of_isLeaf hq, singleton_append,
        groupExpansions_of_elsewhere hq (hlevel.elsewhere mem_cons_self hq), hrest]
    cases q with
    | event e | control edges message => exact hleaf rfl
    | call site enter within path exit =>
      have hpath : groupExpansions xs (ungroupIn path) = path := by
        refine groupExpansions_ungroupIn xs path fun level hl => ?_
        refine h level (mem_cons_of_mem _ ?_)
        rw [bodiesIn, bodies]
        exact mem_append_left _ hl
      rw [ungroupIn, ungroup, singleton_append, groupExpansions_call, hpath, hrest]
    | expansion l name parts =>
      have hparts : ∀ q ∈ parts, q.isLeaf = true ∧ q.location = l := fun q hq =>
        hlevel.parts mem_cons_self hq
      have hapart : ∀ q ∈ rest.head?, l ∉ q.use? := fun q hq =>
        (isChain_cons.1 hlevel.apart).1 q hq l rfl
      rw [ungroupIn, ungroup, ungroupIn_of_isLeaf fun q hq => (hparts q hq).1,
        groupExpansions_parts (hlevel.named mem_cons_self) (hlevel.nonempty mem_cons_self) hparts
          (by rwa [hrest]), hrest]

/-! ### What is read -/

theorem filterMap_message?_map (d : Nat) (x : Option EventPiece) :
    (x.toList.map (Met.event d)).filterMap Met.message? = x.toList.map (·.message) := by
  cases x <;> rfl

mutual

theorem messages_eq (d : Nat) (p : PathPiece) : messages p = (read d p).filterMap Met.message? := by
  cases p with
  | event e => rw [messages, read]; rfl
  | control edges message =>
    by_cases hm : message = "" <;> simp [messages, read, Met.message?, message?, hm]
  | call site enter within path exit =>
    rw [messages, read, filterMap_cons]
    simp only [Met.message?, filterMap_append, filterMap_message?_map, messagesIn_eq (d + 1) path]
  | expansion l name pieces => rw [messages, read, messagesIn_eq d pieces]

/-- All that is said is said by the events and jumps that are met. -/
theorem messagesIn_eq (d : Nat) (ps : List PathPiece) :
    messagesIn ps = (readIn d ps).filterMap Met.message? := by
  cases ps with
  | nil => rw [messagesIn, readIn, filterMap_nil]
  | cons p rest => rw [messagesIn, readIn, filterMap_append, messages_eq d p, messagesIn_eq d rest]

end

mutual

theorem size_eq (d : Nat) (p : PathPiece) : size p = (read d p).countP (·.call?.isNone) := by
  cases p with
  | event e | control edges message => rw [size, read]; rfl
  | call site enter within path exit =>
    have hevents (d : Nat) (x : Option EventPiece) :
        (x.toList.map (Met.event d)).countP (·.call?.isNone) = x.toList.length := by
      cases x <;> rfl
    rw [size, read, countP_cons_of_neg (by simp [Met.call?])]
    simp only [countP_append, hevents, sizes_eq (d + 1) path]
  | expansion l name pieces => rw [size, read, sizes_eq d pieces]

/-- The size of some pieces is the number of events and jumps that are met. -/
theorem sizes_eq (d : Nat) (ps : List PathPiece) : sizes ps = (readIn d ps).countP (·.call?.isNone) := by
  cases ps with
  | nil => rw [sizes, readIn, countP_nil]
  | cons p rest => rw [sizes, readIn, countP_append, size_eq d p, sizes_eq d rest]

end

theorem readIn_groupExpansions (d : Nat) (xs : List Expansion) (ps : List PathPiece) :
    readIn d (groupExpansions xs ps) = readIn d ps := by
  rw [← readIn_ungroupIn, ungroupIn_groupExpansions, readIn_ungroupIn]

/-! ### The whole path -/

/-- **Gathering only gathers.** Without the uses of defined names the gathered path is the path itself, and its
events, its messages and its size are the same. Its levels are the levels of the path, each gathered for itself:
the calls of a level stay, and what happens in them is gathered in the same way. On every level what stands at
the use of a defined name is in a piece with that place, in which there are events and jumps of the same place
only, at least one, and no two such pieces stand next to each other. There is no other path for which all this is
true. -/
theorem groupExpansions_only_groups (xs : List Expansion) (h : Plain ps) :
    ungroupIn (groupExpansions xs ps) = ps ∧
      (∀ d, eventsIn d (groupExpansions xs ps) = eventsIn d ps) ∧
      messagesIn (groupExpansions xs ps) = messagesIn ps ∧
      sizes (groupExpansions xs ps) = sizes ps ∧
      levels (groupExpansions xs ps) = (levels ps).map (groupExpansions xs) ∧
      (∀ level ∈ levels ps, (groupExpansions xs level).filterMap call? =
        (level.filterMap call?).map fun c => (c.1, groupExpansions xs c.2)) ∧
      (∀ level ∈ levels (groupExpansions xs ps), Gathered xs level) ∧
      ∀ qs, ungroupIn qs = ps → (∀ level ∈ levels qs, Gathered xs level) → qs = groupExpansions xs ps := by
  have hlevels : levels (groupExpansions xs ps) = (levels ps).map (groupExpansions xs) := by
    rw [levels, bodiesIn_groupExpansions xs h, levels, map_cons]
  have hplain : ∀ level ∈ levels ps, Plain level := forall_mem_cons.2 ⟨h, h.of_mem_bodiesIn⟩
  refine ⟨(ungroupIn_groupExpansions xs ps).trans h.ungroupIn_eq, fun d => ?_, ?_, ?_, hlevels,
    fun level hl => filterMap_call?_groupExpansions xs (hplain level hl), fun level hl => ?_,
    fun qs hqs hall => ?_⟩
  · rw [eventsIn_eq, readIn_groupExpansions, eventsIn_eq]
  · rw [messagesIn_eq 0, readIn_groupExpansions, messagesIn_eq 0]
  · rw [sizes_eq 0, readIn_groupExpansions, sizes_eq 0]
  · rw [hlevels, mem_map] at hl
    obtain ⟨level, hl, rfl⟩ := hl
    exact gathered_groupExpansions xs (hplain level hl)
  · rw [← hqs, groupExpansions_ungroupIn xs qs hall]

/-- A call in which two events stand at the use of a name, and an event at the same place in front of it. -/
def calledTwice : List PathPiece :=
  [.event ⟨⟨4, 3⟩, "first", []⟩,
    .call ⟨4, 3⟩ none none [.event ⟨⟨4, 3⟩, "second", []⟩, .event ⟨⟨4, 3⟩, "third", []⟩] none]

theorem groupExpansions_only_groups_called :
    Plain calledTwice ∧
      groupExpansions [⟨"CHECK", ⟨4, 3⟩⟩] calledTwice =
        [.expansion ⟨4, 3⟩ "CHECK" [.event ⟨⟨4, 3⟩, "first", []⟩],
          .call ⟨4, 3⟩ none none
            [.expansion ⟨4, 3⟩ "CHECK" [.event ⟨⟨4, 3⟩, "second", []⟩, .event ⟨⟨4, 3⟩, "third", []⟩]] none] ∧
      sizes (groupExpansions [⟨"CHECK", ⟨4, 3⟩⟩] calledTwice) = 3 := by
  have hplain : Plain calledTwice :=
    .leaf rfl (.call ⟨⟨4, 3⟩, none, none, none⟩ (.leaf rfl (.leaf rfl .nil)) .nil)
  obtain ⟨-, -, -, hsize, -⟩ := groupExpansions_only_groups [⟨"CHECK", ⟨4, 3⟩⟩] hplain
  exact ⟨hplain, by cbv, hsize.trans (by cbv)⟩

end PathPiece

end PathScout

import Mathlib.Tactic
import PathScout.Proofs.ReaderScripts

/-!
# Runs of scripts

A script runs on a list of tokens from the cursor on. A run is a finite derivation; it remembers where the cursor
has been. Whether a script has a run is not part of its meaning: a reader that calls itself where it stands has
none. But a reader calls another one before it has taken a token only if that one has lower rank, so every script
of a reader runs.

* `Script.Runs`: a run of a script, with the places of the cursor after each token taken, and the outcome.
* `Script.Asks`: the calls that a script makes by itself, with the tokens left at each.
* `Passes`: moving on over tokens before the end of the file.
* `Runs.unique`, `Runs.chain`: a script has one run, and its cursor only moves on.
* `Contracts`, `Script.Meets`: what holds at the end of a script, given what holds of the readers it calls.
* `Meets.run`, `Runs.given`: running a script under contracts, totally and partially.
* `Reader.rank`, `Reader.least`: the rank of a reader, and how many tokens it takes at least.
* `Script.progress`, `Script.meets_progress`: the contracts that each reader keeps.
* `Script.exists_run`, `Asks.progress`, `Asks.lt_of_again`: every reader has a run, calls others below itself, and
  calls itself only after it has taken a token.
-/

namespace PathScout

open List

variable {ts : List Token}

/-! ### Moving on -/

/-- The second list is left of the first after some tokens before the end of the file. -/
def Passes (ts left : List Token) : Prop :=
  ∃ taken, ts = taken ++ left ∧ ∀ t ∈ taken, t.kind ≠ .eof

namespace Passes

variable {ts ts₁ ts₂ : List Token}

theorem refl (ts : List Token) : Passes ts ts := ⟨[], rfl, by simp⟩

theorem trans (h1 : Passes ts ts₁) (h2 : Passes ts₁ ts₂) : Passes ts ts₂ := by
  obtain ⟨taken, rfl, htaken⟩ := h1
  obtain ⟨more, rfl, hmore⟩ := h2
  refine ⟨taken ++ more, by simp, ?_⟩
  intro t ht
  obtain ht | ht := mem_append.1 ht
  · exact htaken t ht
  · exact hmore t ht

instance : IsTrans (List Token) Passes := ⟨fun _ _ _ => trans⟩

theorem suffix (h : Passes ts ts₁) : ts₁ <:+ ts := by
  obtain ⟨taken, rfl, -⟩ := h
  exact suffix_append taken ts₁

theorem length_le (h : Passes ts ts₁) : ts₁.length ≤ ts.length := h.suffix.length_le

end Passes

theorem peek_cons (t : Token) (ts : List Token) : peek (t :: ts) = t := rfl

theorem advance_cons {t : Token} (ts : List Token) (h : t.kind ≠ .eof) : advance (t :: ts) = ts := by
  simp [advance, atEnd, nextIs, peek_cons, h]

theorem advance_of_eof (h : (peek ts).kind = .eof) : advance ts = ts := by
  simp [advance, atEnd, nextIs, h]

/-- If the head is not the end of the file, it is there. -/
theorem exists_cons_of_kind_ne (h : (peek ts).kind ≠ .eof) : ∃ rest, ts = peek ts :: rest := by
  cases ts with
  | nil => exact absurd rfl h
  | cons t rest => exact ⟨rest, rfl⟩

theorem passes_advance (ts : List Token) : Passes ts (advance ts) := by
  by_cases h : (peek ts).kind = .eof
  · rw [advance_of_eof h]
    exact .refl ts
  · obtain ⟨rest, hts⟩ := exists_cons_of_kind_ne h
    rw [hts, advance_cons rest h]
    exact ⟨[peek ts], rfl, by simpa using h⟩

theorem length_advance_lt (h : (peek ts).kind ≠ .eof) : (advance ts).length < ts.length := by
  obtain ⟨rest, hts⟩ := exists_cons_of_kind_ne h
  rw [hts, advance_cons rest h]
  exact Nat.lt_succ_self _

theorem kind_eq_of_startsTypeInParens (h : startsTypeInParens ts = true) :
    (peek ts).kind = .punct .lparen := by
  rw [startsTypeInParens, Bool.and_eq_true] at h
  exact beq_iff_eq.1 h.1

/-! ### Runs -/

namespace Script

variable {α β : Type} {trace : List (List Token)} {left : List Token} {r : Reader} {kind : TokenKind}

/-- What comes out of a run: a value with the tokens left, or a fault. -/
abbrev Outcome (α : Type) := Except ParseError (α × List Token)

/-- A run of a script on some tokens. The list holds what was left after each token taken. -/
inductive Runs : {α : Type} → Script α → List Token → List (List Token) → Outcome α → Prop
  | done {α : Type} (a : α) (ts) : Runs (.done a) ts [] (.ok (a, ts))
  | fail {α : Type} (e ts) : Runs (α := α) (.fail e) ts [] (.error e)
  | look {α : Type} {n ts trace out} {next : Token → Script α} :
      Runs (next (peek (ts.drop n))) ts trace out → Runs (.look n next) ts trace out
  | take {α : Type} {ts trace out} {next : Token → Script α} :
      Runs (next (peek ts)) (advance ts) trace out → Runs (.take next) ts (advance ts :: trace) out
  | call {α : Type} {r : Reader} {ts ts₁ b trace trace' out} {next : r.Out → Script α} :
      Runs (of r) ts trace (.ok (b, ts₁)) → Runs (next b) ts₁ trace' out →
        Runs (.call r next) ts (trace ++ trace') out
  | callFails {α : Type} {r : Reader} {ts trace e} {next : r.Out → Script α} :
      Runs (of r) ts trace (.error e) → Runs (.call r next) ts trace (.error e)

/-- A script that runs on some tokens makes a call by itself when the given tokens are left. -/
inductive Asks : {α : Type} → Script α → List Token → Reader → List Token → Prop
  | look {α : Type} {n ts r left} {next : Token → Script α} :
      Asks (next (peek (ts.drop n))) ts r left → Asks (.look n next) ts r left
  | take {α : Type} {ts r left} {next : Token → Script α} :
      Asks (next (peek ts)) (advance ts) r left → Asks (.take next) ts r left
  | here {α : Type} {r : Reader} {ts} {next : r.Out → Script α} : Asks (.call r next) ts r ts
  | later {α : Type} {r r' : Reader} {ts ts₁ b trace left} {next : r.Out → Script α} :
      Runs (of r) ts trace (.ok (b, ts₁)) → Asks (next b) ts₁ r' left → Asks (.call r next) ts r' left

/-- A script has at most one run. -/
theorem Runs.unique {s : Script α} {ts : List Token} {trace' : List (List Token)} {out out' : Outcome α}
    (h : Runs s ts trace out) (h' : Runs s ts trace' out') : trace' = trace ∧ out' = out := by
  induction h generalizing trace' with
  | done | fail =>
    cases h'
    exact ⟨rfl, rfl⟩
  | look _ ih =>
    cases h' with
    | look h' => exact ih h'
  | take _ ih =>
    cases h' with
    | take h' =>
      obtain ⟨rfl, rfl⟩ := ih h'
      exact ⟨rfl, rfl⟩
  | call _ _ ih ihNext =>
    cases h' with
    | call h' hn' =>
      obtain ⟨rfl, heq⟩ := ih h'
      cases heq
      obtain ⟨rfl, rfl⟩ := ihNext hn'
      exact ⟨rfl, rfl⟩
    | callFails h' => cases (ih h').2
  | callFails _ ih =>
    cases h' with
    | call h' _ => cases (ih h').2
    | callFails h' =>
      obtain ⟨rfl, heq⟩ := ih h'
      cases heq
      exact ⟨rfl, rfl⟩

/-- The cursor of a run only moves on, and a value is given where it stands at last. -/
theorem Runs.chain {s : Script α} {ts : List Token} {out : Outcome α} (h : Runs s ts trace out) :
    (ts :: trace).IsChain Passes ∧
      ∀ a left, out = .ok (a, left) → (ts :: trace).getLast (by simp) = left := by
  induction h with
  | done a ts => exact ⟨.singleton ts, by rintro _ _ ⟨⟩; rfl⟩
  | fail e ts => exact ⟨.singleton ts, by rintro _ _ ⟨⟩⟩
  | look _ ih => exact ih
  | take _ ih =>
    refine ⟨.cons_cons (passes_advance _) ih.1, ?_⟩
    simpa using ih.2
  | @call _ _ ts ts₁ b trace trace' out _ _ _ ih ihNext =>
    have hlast := ih.2 b ts₁ rfl
    cases trace' with
    | nil => simpa [hlast] using ⟨ih.1, ihNext.2⟩
    | cons left trace' =>
      refine ⟨?_, fun a left h => ?_⟩
      · rw [← cons_append]
        refine isChain_append.2 ⟨ih.1, ihNext.1.tail, ?_⟩
        intro x hx y hy
        rw [getLast?_eq_some_getLast (by simp), hlast] at hx
        cases hx
        cases hy
        exact ihNext.1.rel
      · simpa using ihNext.2 a left h
  | callFails _ ih => exact ⟨ih.1, by rintro _ _ ⟨⟩⟩

/-- Every place of the cursor comes after the first one. -/
theorem Runs.passes_of_mem {s : Script α} {ts : List Token} {out : Outcome α} (h : Runs s ts trace out)
    (hmem : left ∈ ts :: trace) : Passes ts left := by
  have hpairs := isChain_iff_pairwise.1 h.chain.1
  obtain rfl | hleft := mem_cons.1 hmem
  · exact .refl _
  · exact rel_of_pairwise_cons hpairs hleft

/-- The tokens left with a value are a place of the cursor. -/
theorem Runs.mem_of_ok {s : Script α} {ts : List Token} {a : α} (h : Runs s ts trace (.ok (a, left))) :
    left ∈ ts :: trace := by
  have hlast := h.chain.2 a left rfl
  exact hlast ▸ getLast_mem _

/-- A run makes its calls at places of its cursor. -/
theorem Asks.mem {s : Script α} {ts : List Token} {out : Outcome α} (hasks : Asks s ts r left)
    (h : Runs s ts trace out) : left ∈ ts :: trace := by
  induction hasks generalizing trace with
  | look _ ih =>
    cases h with
    | look h => exact ih h
  | take _ ih =>
    cases h with
    | take h => exact mem_cons_of_mem _ (ih h)
  | here => exact mem_cons_self
  | later hcall _ ih =>
    cases h with
    | call h hnext =>
      obtain ⟨rfl, heq⟩ := hcall.unique h
      cases heq
      obtain rfl | hleft := mem_cons.1 (ih hnext)
      · obtain rfl | hmem := mem_cons.1 h.mem_of_ok
        · exact mem_cons_self
        · exact mem_cons_of_mem _ (mem_append_left _ hmem)
      · exact mem_cons_of_mem _ (mem_append_right _ hleft)
    | callFails h => cases (hcall.unique h).2

/-! ### Contracts -/

/-- What may be asked of the readers, and what they give in return. -/
structure Contracts where
  asked : Reader → List Token → Prop
  given : (r : Reader) → List Token → r.Out → List Token → Prop

variable (c : Contracts)

/-- Under the contracts, a script calls readers only where it may, and what it gives is as stated. -/
def Meets : Script α → List Token → (α → List Token → Prop) → Prop
  | .done a, ts, Q => Q a ts
  | .fail _, _, _ => True
  | .look n next, ts, Q => (next (peek (ts.drop n))).Meets ts Q
  | .take next, ts, Q => (next (peek ts)).Meets (advance ts) Q
  | .call r next, ts, Q => c.asked r ts ∧ ∀ b left, c.given r ts b left → (next b).Meets left Q

variable {c} {ts : List Token} {Q : α → List Token → Prop}

@[simp]
theorem meets_pure (a : α) : Meets c (pure a) ts Q ↔ Q a ts := Iff.rfl

@[simp]
theorem meets_ite {p : Prop} [Decidable p] {s s' : Script α} :
    Meets c (if p then s else s') ts Q ↔ (p → Meets c s ts Q) ∧ (¬p → Meets c s' ts Q) := by
  split <;> simp [*]

@[simp]
theorem meets_bind {s : Script β} {k : β → Script α} :
    Meets c (s >>= k) ts Q ↔ Meets c s ts fun b left => Meets c (k b) left Q := by
  change Meets c (s.bind k) ts Q ↔ _
  induction s generalizing ts with
  | done b => rfl
  | fail e => rfl
  | look n next ih => exact ih _
  | take next ih => exact ih _
  | call r next ih => exact and_congr_right fun _ => forall₃_congr fun b left _ => ih b

@[simp]
theorem meets_done (a : α) : Meets c (.done a) ts Q ↔ Q a ts := Iff.rfl

@[simp]
theorem meets_call {next : r.Out → Script α} : Meets c (.call r next) ts Q ↔
      c.asked r ts ∧ ∀ b left, c.given r ts b left → Meets c (next b) left Q := Iff.rfl

@[simp]
theorem meets_peekAt {n : Nat} {Q : Token → List Token → Prop} :
    Meets c (peekAt n) ts Q ↔ Q (peek (ts.drop n)) ts := Iff.rfl

@[simp]
theorem meets_skip {Q : Token → List Token → Prop} :
    Meets c skip ts Q ↔ Q (peek ts) (advance ts) := Iff.rfl

@[simp]
theorem meets_reject (what : String) : Meets c (reject what) ts Q ↔ True := Iff.rfl

@[simp]
theorem meets_acceptAs {f : TokenKind → Option β} {Q : Option (β × Token) → List Token → Prop} :
    Meets c (acceptAs f) ts Q ↔ (∀ b, f (peek ts).kind = some b → Q (some (b, peek ts)) (advance ts)) ∧
        (f (peek ts).kind = none → Q none ts) := by
  cases h : f (peek ts).kind <;> simp [acceptAs, Meets, h]

@[simp]
theorem meets_accept {Q : Option Token → List Token → Prop} : Meets c (accept kind) ts Q ↔
      ((peek ts).kind = kind → Q (some (peek ts)) (advance ts)) ∧
        ((peek ts).kind ≠ kind → Q none ts) := by
  change Meets c (if (peek ts).kind = kind then _ else _) ts Q ↔ _
  split <;> simp_all [Meets]

@[simp]
theorem meets_require {context : String} {Q : Token → List Token → Prop} :
    Meets c (require kind context) ts Q ↔ ((peek ts).kind = kind → Q (peek ts) (advance ts)) := by
  simp [require, meets_bind, meets_accept, meets_pure, meets_reject]

@[simp]
theorem meets_requireName {Q : String × Token → List Token → Prop} : Meets c requireName ts Q ↔
      ∀ name, (peek ts).kind.name? = some name → Q (name, peek ts) (advance ts) := by
  simp [requireName, meets_bind, meets_acceptAs, meets_pure, meets_reject]

@[simp]
theorem meets_peekTypeInParens {Q : Bool → List Token → Prop} :
    Meets c peekTypeInParens ts Q ↔ Q (startsTypeInParens ts) ts := by
  rw [show startsTypeInParens ts =
    ((peek ts).kind == .punct .lparen && (peek (ts.drop 1)).kind.startsType) by
      rw [startsTypeInParens, drop_one]; rfl]
  rfl

@[simp]
theorem meets_peekBodyEnd {Q : Bool → List Token → Prop} :
    Meets c peekBodyEnd ts Q ↔ Q (nextIs (.punct .rbrace) ts || atEnd ts) ts := Iff.rfl

/-- What a run gives is as stated, if that is so for the readers it calls. -/
theorem Runs.given {s : Script α} {a : α}
    (hsound : ∀ r ts, c.asked r ts → Meets c (of r) ts (c.given r ts))
    (h : Runs s ts trace (.ok (a, left))) (hs : Meets c s ts Q) : Q a left := by
  generalize hout : (Except.ok (a, left) : Outcome α) = out at h
  induction h generalizing left with
  | done b ts =>
    cases hout
    exact hs
  | fail e ts => cases hout
  | look _ ih | take _ ih => exact ih hs hout
  | call _ _ ih ihNext =>
    have hb := ih (hsound _ _ hs.1) rfl
    exact ihNext (hs.2 _ _ hb) hout
  | callFails _ _ => cases hout

/-- A script runs, if the readers that it calls do. -/
theorem Meets.run {s : Script α} (hrun : ∀ r ts, c.asked r ts →
      ∃ trace out, Runs (of r) ts trace out ∧ ∀ b left, out = .ok (b, left) → c.given r ts b left)
    (hs : Meets c s ts Q) :
    ∃ trace out, Runs s ts trace out ∧ ∀ a left, out = .ok (a, left) → Q a left := by
  induction s generalizing ts with
  | done a => exact ⟨[], _, .done a ts, by rintro _ _ ⟨⟩; exact hs⟩
  | fail e => exact ⟨[], _, .fail e ts, by rintro _ _ ⟨⟩⟩
  | look n next ih =>
    obtain ⟨trace, out, h, hQ⟩ := ih _ hs
    exact ⟨trace, out, .look h, hQ⟩
  | take next ih =>
    obtain ⟨trace, out, h, hQ⟩ := ih _ hs
    exact ⟨_, out, .take h, hQ⟩
  | call r next ih =>
    obtain ⟨trace, out, h, hgiven⟩ := hrun r ts hs.1
    match out, h, hgiven with
    | .error e, h, _ => exact ⟨trace, _, .callFails h, by rintro _ _ ⟨⟩⟩
    | .ok (b, left), h, hgiven =>
      obtain ⟨trace', out', h', hQ⟩ := ih b (hs.2 b left (hgiven b left rfl))
      exact ⟨_, out', .call h h', hQ⟩

/-- A script calls a reader only where it may. -/
theorem Meets.asked_of_asks {s : Script α}
    (hgiven : ∀ r ts trace b left, c.asked r ts → Runs (of r) ts trace (.ok (b, left)) →
      c.given r ts b left) (hs : Meets c s ts Q) (h : Asks s ts r left) : c.asked r left := by
  induction h with
  | look _ ih => exact ih hs
  | take _ ih => exact ih hs
  | here => exact hs.1
  | later hcall _ ih => exact ih (hs.2 _ _ (hgiven _ _ _ _ _ hs.1 hcall))

/-! ### Scripts under contracts, action by action -/

section

variable {α β : Type} {c : Contracts} {r : Reader} {ts : List Token} {Q : α → List Token → Prop}
  {kind : TokenKind}

theorem Meets.ask {Q : r.Out → List Token → Prop} (hasked : c.asked r ts)
    (h : ∀ b left, c.given r ts b left → Q b left) : Meets c (ask r) ts Q := ⟨hasked, h⟩

theorem Meets.ask_bind {k : r.Out → Script α} (hasked : c.asked r ts)
    (h : ∀ b left, c.given r ts b left → Meets c (k b) left Q) : Meets c (Script.ask r >>= k) ts Q :=
  meets_bind.2 ⟨hasked, h⟩

theorem Meets.acceptAs_bind {f : TokenKind → Option β} {k : Option (β × Token) → Script α}
    (hf : f .eof = none) (hnone : Meets c (k none) ts Q)
    (hsome : ∀ b t rest, ts = t :: rest → f t.kind = some b → Meets c (k (some (b, t))) rest Q) :
    Meets c (acceptAs f >>= k) ts Q := by
  refine meets_bind.2 (meets_acceptAs.2 ⟨fun b hb => ?_, fun _ => hnone⟩)
  have hk : (peek ts).kind ≠ .eof := fun hk => by simp [hk, hf] at hb
  obtain ⟨rest, hts⟩ := exists_cons_of_kind_ne hk
  have hrest : advance ts = rest := hts ▸ advance_cons rest hk
  exact hrest ▸ hsome b (peek ts) rest hts hb

theorem Meets.accept_bind {k : Option Token → Script α} (hk : kind ≠ .eof)
    (hnone : Meets c (k none) ts Q)
    (hsome : ∀ t rest, ts = t :: rest → t.kind = kind → Meets c (k (some t)) rest Q) :
    Meets c (accept kind >>= k) ts Q := by
  refine meets_bind.2 (meets_accept.2 ⟨fun hkind => ?_, fun _ => hnone⟩)
  have hne : (peek ts).kind ≠ .eof := hkind ▸ hk
  obtain ⟨rest, hts⟩ := exists_cons_of_kind_ne hne
  have hrest : advance ts = rest := hts ▸ advance_cons rest hne
  exact hrest ▸ hsome (peek ts) rest hts hkind

theorem Meets.require_bind {context : String} {k : Token → Script α} (hk : kind ≠ .eof)
    (h : ∀ t rest, ts = t :: rest → t.kind = kind → Meets c (k t) rest Q) :
    Meets c (require kind context >>= k) ts Q := by
  refine meets_bind.2 (meets_bind.2 ?_)
  exact meets_bind.1 (Meets.accept_bind hk trivial h)

theorem Meets.skip_bind {k : Token → Script α} (hkind : (peek ts).kind = kind ∧ kind ≠ .eof)
    (h : ∀ t rest, ts = t :: rest → Meets c (k t) rest Q) : Meets c (skip >>= k) ts Q := by
  have hne : (peek ts).kind ≠ .eof := hkind.1 ▸ hkind.2
  obtain ⟨rest, hts⟩ := exists_cons_of_kind_ne hne
  have hrest : advance ts = rest := hts ▸ advance_cons rest hne
  exact meets_bind.2 (meets_skip.2 (hrest ▸ h (peek ts) rest hts))

theorem Meets.peekTypeInParens_bind {k : Bool → Script α}
    (h : (startsTypeInParens ts = true → (peek ts).kind = .punct .lparen ∧ TokenKind.punct .lparen ≠ .eof) →
      Meets c (k (startsTypeInParens ts)) ts Q) : Meets c (peekTypeInParens >>= k) ts Q :=
  meets_bind.2 (meets_peekTypeInParens.2 (h fun hp => ⟨kind_eq_of_startsTypeInParens hp, by simp⟩))

theorem Meets.requireName_bind {k : String × Token → Script α}
    (h : ∀ name t rest, ts = t :: rest → Meets c (k (name, t)) rest Q) :
    Meets c (requireName >>= k) ts Q := by
  refine meets_bind.2 (meets_bind.2 ?_)
  exact meets_bind.1 (Meets.acceptAs_bind rfl trivial fun name t rest hts _ => h name t rest hts)

end

end Script

/-! ### Ranks -/

/-- How many calls a reader may be away from the next token to be taken. -/
def Reader.rank : Reader → Nat
  | qualifiers _ | consts | stars .. | strings .. | binaryTail .. | operandTail _ | moreArgs | primary
  | sizes | init | condition .. | struct _ | function _ => 0
  | base | operand | declarator _ | declsFrom .. => 1
  | unary | type | localDecls | fieldNames _ | fields | param | item => 2
  | cast | paramTail | items => 3
  | binary _ | params => 4
  | ternary => 5
  | expr => 6
  | args | initializer | optionalExpr _ | forInit | plainStmt => 7
  | initializers | stmt => 8
  | block | caseLines => 9

/-- How many tokens a reader takes at least, if it gives a value. -/
def Reader.least : Reader → Nat
  | qualifiers _ | consts | stars .. | strings .. | binaryTail .. | operandTail _ | args | moreArgs
  | sizes | initializers | init | declsFrom .. | optionalExpr _ | block | caseLines | fields | params
  | items => 0
  | _ => 1

/-- The rank does not depend on what a reader is told. -/
theorem Reader.rank_eq_of_ctorIdx_eq {r r' : Reader} (h : r.ctorIdx = r'.ctorIdx) :
    r.rank = r'.rank := by
  -- the ranks in the order of the constructors
  let ranks : List Nat := [0, 0, 1, 0, 0, 6, 5, 4, 0, 3, 2, 1, 0, 7, 0, 0, 2, 0, 1, 7, 8, 0, 1, 2, 7, 7, 0, 7,
    8, 9, 9, 2, 2, 0, 2, 3, 4, 0, 2, 3]
  have hrank (r : Reader) : r.rank = ranks.getD r.ctorIdx 0 := by cases r <;> rfl
  rw [hrank, hrank, h]

/-! ### Nothing begins with the end of the file -/

@[grind =] theorem selection?_eof : selection? .eof = none := rfl

@[grind =] theorem BinarySymbol.atLeast?_eof (level : Nat) :
    BinarySymbol.atLeast? level .eof = none := rfl

@[grind =] theorem UnaryOp.before?_eof : UnaryOp.before? .eof = none := rfl

@[grind =] theorem UnaryOp.after?_eof : UnaryOp.after? .eof = none := rfl

@[grind =] theorem atom?_eof (span : Span) : atom? span .eof = none := rfl

@[grind =] theorem TokenKind.content?_eof : TokenKind.content? .eof = none := rfl

@[grind =] theorem TokenKind.name?_eof : TokenKind.name? .eof = none := rfl

@[grind =] theorem TokenKind.plainType?_eof : TokenKind.plainType? .eof = none := rfl

namespace Script

variable {r r' : Reader} {ts left : List Token}

/-! ### The contracts -/

/-- From some tokens on, a reader calls others with fewer tokens or of lower rank. Each takes as many tokens as
it must. -/
def progress (r₀ : Reader) (ts₀ : List Token) : Contracts where
  asked r ts := ts.length < ts₀.length ∨ ts.length = ts₀.length ∧ r.rank < r₀.rank
  given r ts _ left := left.length + r.least ≤ ts.length

section

variable {r₀ r : Reader} {ts₀ ts left : List Token}

@[simp]
theorem progress_asked : (progress r₀ ts₀).asked r ts ↔
    ts.length < ts₀.length ∨ ts.length = ts₀.length ∧ r.rank < r₀.rank := Iff.rfl

@[simp]
theorem progress_given {b : r.Out} :
    (progress r₀ ts₀).given r ts b left ↔ left.length + r.least ≤ ts.length := Iff.rfl

@[grind! .]
theorem length_advance_lt_or (ts : List Token) :
    (peek ts).kind = .eof ∨ (advance ts).length < ts.length :=
  or_iff_not_imp_left.2 length_advance_lt

@[grind! .]
theorem length_advance_le (ts : List Token) : (advance ts).length ≤ ts.length :=
  (passes_advance ts).length_le

end

/-! ### Readers that branch on the kind of a token -/

section

variable (ts : List Token)

theorem operandTail_progress (e : Expr) : Meets (progress (.operandTail e) ts) (of (.operandTail e)) ts
      fun _ left => left.length ≤ ts.length := by
  simp only [of, ask, meets_bind, meets_accept, meets_acceptAs, meets_peekAt]
  refine ⟨fun _ => ?_, fun _ => ⟨fun _ _ => ?_, fun _ => ⟨fun _ => ?_, fun _ => ?_⟩⟩⟩
  · simp [Reader.rank, Reader.least]
    grind
  · simp [Reader.rank, Reader.least]
    grind
  · split
    · simp [Reader.rank, Reader.least]
      grind
    · exact trivial
  · simp [Reader.rank, Reader.least]
    grind

theorem sizes_progress :
    Meets (progress .sizes ts) (of .sizes) ts fun _ left => left.length ≤ ts.length := by
  simp only [of, ask, meets_bind, meets_accept]
  refine ⟨fun hopen => ⟨fun hclose => ?_, fun _ => ?_⟩, fun _ => by simp⟩
  · simp [Reader.rank, Reader.least]
    grind
  · simp only [meets_call, meets_done]
    refine ⟨by simp [Reader.rank]; grind, fun e left hleft => ?_⟩
    simp only [progress_given, Reader.least] at hleft
    split
    · exact trivial
    · simp [Reader.rank, Reader.least]
      grind

theorem stmt_progress :
    Meets (progress .stmt ts) (of .stmt) ts fun _ left => left.length + 1 ≤ ts.length := by
  simp only [of, ask, meets_bind, meets_peekAt, drop_zero]
  split
  all_goals
    simp only [meets_bind, meets_call, meets_done, meets_pure, meets_accept, meets_require,
      meets_requireName, meets_skip, progress_asked, progress_given, Reader.rank, Reader.least]
    grind

end

/-- Every reader keeps its contracts. -/
theorem meets_progress (r : Reader) (ts : List Token) :
    Meets (progress r ts) (of r) ts fun _ left => left.length + r.least ≤ ts.length := by
  cases r with
  | operandTail e => exact operandTail_progress ts e
  | sizes => exact sizes_progress ts
  | stmt => exact stmt_progress ts
  | _ =>
    -- All others only ask whether a certain token comes next.
    simp only [of, ask, meets_bind, meets_call, meets_done, meets_pure, meets_ite, meets_accept,
      meets_acceptAs, meets_require, meets_requireName, meets_skip, meets_peekAt, meets_peekTypeInParens,
      meets_peekBodyEnd, meets_reject, progress_asked, progress_given, Reader.rank, Reader.least]
    grind

/-! ### Every reader runs -/

/-- Every reader has a run on any tokens. -/
theorem exists_run (r : Reader) (ts : List Token) :
    ∃ trace out, Runs (of r) ts trace out ∧
      ∀ b left, out = .ok (b, left) → left.length + r.least ≤ ts.length :=
  (meets_progress r ts).run fun r' ts' _ => exists_run r' ts'
termination_by (ts.length, r.rank)
decreasing_by
  rename_i hasked
  obtain hlt | ⟨heq, hrank⟩ := progress_asked.1 hasked
  · exact .left _ _ hlt
  · exact heq ▸ .right _ hrank

theorem Runs.progress {trace : List (List Token)} {b : r.Out} (h : Runs (of r) ts trace (.ok (b, left))) :
    left.length + r.least ≤ ts.length := by
  obtain ⟨trace', out, h', hleft⟩ := exists_run r ts
  exact hleft b left (h.unique h').2

/-- What a reader calls has fewer tokens left or lower rank. -/
theorem Asks.progress (h : Asks (of r) ts r' left) :
    left.length < ts.length ∨ left.length = ts.length ∧ r'.rank < r.rank :=
  progress_asked.1 ((meets_progress r ts).asked_of_asks (fun _ _ _ _ _ _ hrun => hrun.progress) h)

/-- A reader that calls itself, whatever it then is told, has taken a token. -/
theorem Asks.lt_of_again (h : Asks (of r) ts r' left) (hagain : r'.ctorIdx = r.ctorIdx) :
    left.length < ts.length := by
  obtain hlt | ⟨-, hrank⟩ := h.progress
  · exact hlt
  · exact absurd (Reader.rank_eq_of_ctorIdx_eq hagain) (Nat.ne_of_lt hrank)

end Script

end PathScout

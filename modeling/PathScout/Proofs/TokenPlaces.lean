import Mathlib.Tactic
import PathScout.Token.Lexer

/-!
# Where tokens stand

Reading a text moves over it once, so each token begins after the one before it. The tokens that a defined name
stands for share the place of the name.

* `Location.le_stepAll`, `Location.lastBefore_mono`: order of positions along a text.
* `skipGap_moves`: a gap is passed forwards.
* `Lexeme`: what stands for itself in a text or is a defined name. `Lexes`: the lexemes of a text.
* `Lexed.Laid`: tokens as lexemes give them, in their places.
* `tokenize_laid`: the tokens of a text are laid out from its first position on.
* `InOrder`, `Lexed.Laid.inOrder`: tokens whose positions do not go back.
-/

namespace PathScout

open Location List

variable {l pos stop : Location} {x : Lexeme} {lexed : Lexed} {xs : List Lexeme}

namespace Location

variable {a b c l : Location}

theorem le_iff : a.le b = true ↔ a.line < b.line ∨ a.line = b.line ∧ a.column ≤ b.column := by simp [le]

theorem le_refl (a : Location) : a.le a = true := le_iff.2 (Or.inr ⟨rfl, Nat.le_refl _⟩)

theorem le_trans (hab : a.le b = true) (hbc : b.le c = true) : a.le c = true := by
  rw [le_iff] at *
  omega

theorem le_step (l : Location) (c : Char) : l.le (l.step c) = true := by
  rw [le_iff, step]
  split <;> simp

theorem column_step_pos (l : Location) (c : Char) : 1 ≤ (l.step c).column := by
  rw [step]
  split <;> simp

theorem le_stepAll (l : Location) (cs : List Char) : l.le (l.stepAll cs) = true := by
  induction cs generalizing l with
  | nil => exact le_refl l
  | cons c cs ih => exact le_trans (le_step l c) (ih (l.step c))

theorem column_stepAll_pos (cs : List Char) (h : 1 ≤ l.column) : 1 ≤ (l.stepAll cs).column := by
  induction cs generalizing l with
  | nil => exact h
  | cons c cs ih => exact ih (column_step_pos l c)

theorem lastBefore_mono (h : a.le b = true) : a.lastBefore.le b.lastBefore = true := by
  rw [le_iff] at *
  simp only [lastBefore]
  omega

theorem lastBefore_le (h : 1 ≤ a.column) : a.lastBefore.le a = true := by
  have hmax : max (a.column - 1) 1 ≤ a.column := by omega
  exact le_iff.2 (Or.inr ⟨rfl, hmax⟩)

/-- What takes a character ends where it begins or after. -/
theorem le_lastBefore_stepAll (l : Location) (c : Char) (cs : List Char) :
    l.le (l.stepAll (c :: cs)).lastBefore = true := by
  have h := le_stepAll (l.step c) cs
  rw [stepAll_cons]
  rw [le_iff] at *
  simp only [lastBefore]
  by_cases hc : c = '\n'
  · simp only [step, hc, if_true] at h ⊢
    omega
  · simp only [step, hc, if_false] at h ⊢
    omega

end Location

open Location in
/-- A gap is passed forwards. -/
theorem skipGap_moves {g : Gap} {cs : List Char} {c : Cursor} (h : skipGap g cs l = .ok c)
    (hl : 1 ≤ l.column) : l.le c.location = true ∧ 1 ≤ c.location.column := by
  fun_induction skipGap g cs l with
  | case1 cs l ih | case2 cs l ih | case6 since cs l ih =>
    obtain ⟨hle, hcol⟩ := ih h (column_step_pos _ _)
    exact ⟨le_trans (le_trans (le_step _ _) (le_step _ _)) hle, hcol⟩
  | case3 cs l c' h1 h2 hblank ih | case5 cs l c' ih | case7 since cs l c' h1 ih =>
    obtain ⟨hle, hcol⟩ := ih h (column_step_pos _ _)
    exact ⟨le_trans (le_step _ _) hle, hcol⟩
  | case8 since l => cases h
  | case4 | case9 | case10 =>
    cases h
    exact ⟨le_refl _, hl⟩

/-! ### Lexemes -/

/-- What the lexer takes from a text at once: its kind, under the definitions made before it, and where it
stands. -/
structure Lexeme where
  defs : Definitions
  kind : TokenKind
  span : Span

namespace Lexeme

/-- The tokens of a lexeme: those that it stands for, if it is a defined name. They all have its place. -/
def tokens (x : Lexeme) : List Token :=
  (x.defs.expand Definitions.maxDepth x.kind).map (⟨·, x.span.first, x.span.last⟩)

/-- The use of a defined name. -/
def expansion? (x : Lexeme) : Option Expansion := (x.defs.names x.kind).map (⟨·, x.span.first⟩)

end Lexeme

/-- Under the definitions made before it, a text that begins at the first position has the given lexemes and ends
at the second position. -/
inductive Lexes : Definitions → List Char → Location → List Lexeme → Location → Prop
  | stop {defs cs l pos} (gap : skipGap .blank cs l = .ok ⟨[], pos⟩) : Lexes defs cs l [] pos
  | directive {defs cs l rest pos d xs stop} (gap : skipGap .blank cs l = .ok ⟨'#' :: rest, pos⟩)
      (line : Directive.ofLine (rest.takeWhile (· != '\n')) = .ok d)
      (more : Lexes (d.toList ++ defs) (rest.drop (rest.takeWhile (· != '\n')).length)
        (pos.stepAll ('#' :: rest.takeWhile (· != '\n'))) xs stop) : Lexes defs cs l xs stop
  | lexeme {defs cs l c rest pos kind n xs stop} (gap : skipGap .blank cs l = .ok ⟨c :: rest, pos⟩)
      (plain : c ≠ '#') (read : lexeme c rest = .ok (kind, n))
      (more : Lexes defs (rest.drop n) (pos.stepAll (c :: rest.take n)) xs stop) :
      Lexes defs cs l (⟨defs, kind, ⟨pos, (pos.stepAll (c :: rest.take n)).lastBefore⟩⟩ :: xs) stop

/-- The first span begins and ends no later than the second. -/
def Span.Precedes (s s' : Span) : Prop := s.first.le s'.first = true ∧ s.last.le s'.last = true

/-- The tokens of a text that begins at `l` are those of its lexemes, in their places, up to the end of the file
at `stop`. -/
structure Lexed.Laid (lexed : Lexed) (l : Location) (xs : List Lexeme) (stop : Location) : Prop where
  tokens : lexed.tokens = xs.flatMap Lexeme.tokens ++ [⟨.eof, stop, stop⟩]
  expansions : lexed.expansions = xs.filterMap Lexeme.expansion?
  ordered : (xs.map Lexeme.span ++ [Span.point stop]).Pairwise Span.Precedes
  after : ∀ s ∈ xs.map Lexeme.span ++ [Span.point stop],
    l.le s.first = true ∧ l.lastBefore.le s.last = true ∧ s.first.le s.last = true

/-- What is not a defined name stands for itself. -/
theorem Definitions.expand_of_names_eq_none {defs : Definitions} {kind : TokenKind}
    (h : defs.names kind = none) (depth : Nat) : defs.expand depth kind = [kind] := by
  cases kind with
  | ident name =>
    cases depth with
    | zero => rfl
    | succ depth =>
      rw [names] at h
      cases hbody : defs.lookup name with
      | none => rw [expand, hbody]
      | some body => simp [hbody] at h
  | _ => cases depth <;> rfl

theorem Lexeme.place_of_mem_tokens {t : Token} (h : t ∈ x.tokens) :
    t.location = x.span.first ∧ t.last = x.span.last := by
  obtain ⟨kind, -, rfl⟩ := mem_map.1 h
  exact ⟨rfl, rfl⟩

theorem Lexeme.tokens_eq_singleton (h : x.expansion? = none) :
    x.tokens = [⟨x.kind, x.span.first, x.span.last⟩] := by
  rw [tokens, Definitions.expand_of_names_eq_none (Option.map_eq_none_iff.1 h)]
  rfl

/-- Nothing but the end of the file stands at the end. -/
theorem Lexed.laid_eof (hle : l.le pos = true) (hcol : 1 ≤ l.column) :
    Lexed.Laid ⟨[⟨.eof, pos, pos⟩], []⟩ l [] pos where
  tokens := rfl
  expansions := rfl
  ordered := by simp
  after := by
    intro s hs
    obtain rfl : s = Span.point pos := by simpa using hs
    exact ⟨hle, le_trans (lastBefore_le hcol) hle, le_refl pos⟩

/-- What is laid out from some position on is laid out from every earlier one. -/
theorem Lexed.Laid.from_earlier {l' : Location} (h : lexed.Laid l' xs stop) (hle : l.le l' = true) :
    lexed.Laid l xs stop where
  tokens := h.tokens
  expansions := h.expansions
  ordered := h.ordered
  after s hs := by
    obtain ⟨hfirst, hlast, hspan⟩ := h.after s hs
    exact ⟨le_trans hle hfirst, le_trans (lastBefore_mono hle) hlast, hspan⟩

/-- A lexeme stands in front of what is laid out after it. -/
theorem Lexed.Laid.cons {out : Lexed} {next : Location} (defs : Definitions) (kind : TokenKind)
    (h : out.Laid next xs stop) (hcol : 1 ≤ pos.column) (hpos : pos.le next.lastBefore = true)
    (hnext : pos.le next = true) :
    Lexed.Laid ⟨(defs.expand Definitions.maxDepth kind).map (⟨·, pos, next.lastBefore⟩) ++ out.tokens,
      ((defs.names kind).map (⟨·, pos⟩)).toList ++ out.expansions⟩ pos
      (⟨defs, kind, ⟨pos, next.lastBefore⟩⟩ :: xs) stop where
  tokens := by simp [h.tokens, Lexeme.tokens]
  expansions := by
    cases hname : defs.names kind <;> simp [h.expansions, Lexeme.expansion?, hname]
  ordered := by
    refine pairwise_cons.2 ⟨fun s hs => ?_, h.ordered⟩
    obtain ⟨hfirst, hlast, -⟩ := h.after s hs
    exact ⟨le_trans hnext hfirst, hlast⟩
  after := by
    intro s hs
    obtain rfl | hs := mem_cons.1 hs
    · exact ⟨le_refl pos, le_trans (lastBefore_le hcol) hpos, hpos⟩
    · exact (h.from_earlier hnext).after s hs

open Location in
theorem tokenizeFrom_laid (defs : Definitions) (cs : List Char) (hl : 1 ≤ l.column) :
    ∀ lexed, tokenizeFrom defs cs l = .ok lexed →
      ∃ xs stop, Lexes defs cs l xs stop ∧ lexed.Laid l xs stop := by
  fun_induction tokenizeFrom defs cs l with
  | case1 | case3 | case5 | case6 =>
    intro lexed h
    cases h
  | case2 defs cs l pos hgap =>
    rintro lexed ⟨⟩
    exact ⟨[], pos, .stop hgap, Lexed.laid_eof (skipGap_moves hgap hl).1 hl⟩
  | case4 defs cs l rest pos line d hd hgap ih =>
    intro lexed h
    obtain ⟨hle, hcol⟩ := skipGap_moves hgap hl
    obtain ⟨xs, stop, hlexes, hlaid⟩ := ih (column_stepAll_pos _ hcol) lexed h
    exact ⟨xs, stop, .directive hgap hd hlexes, hlaid.from_earlier (le_trans hle (le_stepAll _ _))⟩
  | case7 defs cs l c rest pos hgap hc kind n hlexeme next out hout tokens ih =>
    rintro lexed ⟨⟩
    obtain ⟨hle, hcol⟩ := skipGap_moves hgap hl
    obtain ⟨xs, stop, hlexes, hlaid⟩ := ih (column_stepAll_pos _ hcol) out hout
    have hcons := hlaid.cons defs kind hcol (le_lastBefore_stepAll pos c _) (le_stepAll pos _)
    exact ⟨_, stop, .lexeme hgap hc hlexeme hlexes, hcons.from_earlier hle⟩

/-- The tokens of a text are those of its lexemes, laid out from its first position on. -/
theorem tokenize_laid {source : String} (h : tokenize source = .ok lexed) :
    ∃ xs stop, Lexes [] source.toList .start xs stop ∧ lexed.Laid .start xs stop :=
  tokenizeFrom_laid [] source.toList (Nat.le_refl 1) lexed h

/-! ### Order of tokens -/

/-- No token ends before it begins, and none begins or ends before one that stands earlier. -/
structure InOrder (ts : List Token) : Prop where
  ends : ∀ t ∈ ts, t.location.le t.last = true
  steps : ts.Pairwise fun t u => t.location.le u.location = true ∧ t.last.le u.last = true

theorem Lexed.Laid.inOrder (h : lexed.Laid l xs stop) : InOrder lexed.tokens := by
  have hspan : ∀ x ∈ xs, x.span.first.le x.span.last = true := fun x hx =>
    (h.after x.span (by simpa using Or.inl ⟨x, hx, rfl⟩)).2.2
  obtain ⟨hxs, -, hstop⟩ := pairwise_append.1 h.ordered
  rw [h.tokens]
  constructor
  · intro t ht
    obtain ht | rfl := by simpa using ht
    · obtain ⟨x, hx, kind, -, rfl⟩ := by simpa [Lexeme.tokens] using ht
      exact hspan x hx
    · exact le_refl stop
  · refine pairwise_append.2 ⟨pairwise_flatMap.2 ⟨?_, ?_⟩, by simp, ?_⟩
    · intro x _
      -- Tokens of one lexeme share its place.
      refine pairwise_map.2 (pairwise_of_forall fun _ _ => ?_)
      exact ⟨le_refl _, le_refl _⟩
    · refine (pairwise_map.1 hxs).imp fun hspans t ht u hu => ?_
      obtain ⟨-, -, rfl⟩ := mem_map.1 ht
      obtain ⟨-, -, rfl⟩ := mem_map.1 hu
      exact hspans
    · intro t ht u hu
      obtain ⟨x, hx, ht⟩ := mem_flatMap.1 ht
      obtain ⟨-, -, rfl⟩ := mem_map.1 ht
      obtain rfl := mem_singleton.1 hu
      exact hstop x.span (mem_map_of_mem hx) (Span.point stop) (by simp)

end PathScout

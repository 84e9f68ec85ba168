/-!
# Positions in a source text

Lines and columns count from one, columns count characters, and the end of a span is its last
character.

* `Location`: a line and a column, ordered by line first.
* `Location.step`, `Location.stepAll`: the position after one character, and after a text.
* `Span`: the first and the last position of a piece of source.
* `Expansion`: a use of a defined name and where it stands.
-/

namespace PathScout

/-- A position in a source text. -/
structure Location where
  line : Nat
  column : Nat
deriving DecidableEq, Hashable, Inhabited

namespace Location

/-- The position of what stands nowhere. -/
def nowhere : Location := ⟨0, 0⟩

/-- The first position of every text. -/
def start : Location := ⟨1, 1⟩

/-- The position after the character `c`. -/
def step (l : Location) (c : Char) : Location :=
  if c = '\n' then ⟨l.line + 1, 1⟩ else ⟨l.line, l.column + 1⟩

/-- The position after a text. -/
def stepAll (l : Location) (cs : List Char) : Location := cs.foldl step l

/-- The last position of a piece of text that is followed by `l`; a piece that ends its line
counts as ending in the first column of the next one. -/
def lastBefore (l : Location) : Location := ⟨l.line, max (l.column - 1) 1⟩

/-- Order of positions: by line, then by column. -/
def le (a b : Location) : Bool := a.line < b.line || (a.line == b.line && a.column ≤ b.column)

/-- A position as it is written in messages. -/
def text (l : Location) : String := s!"{l.line}:{l.column}"

@[simp] theorem stepAll_cons (l : Location) (c : Char) (cs : List Char) :
    l.stepAll (c :: cs) = (l.step c).stepAll cs := rfl

end Location

/-- A piece of source, from its first to its last position. -/
structure Span where
  first : Location
  last : Location
deriving DecidableEq, Hashable, Inhabited

namespace Span

/-- The span of a single position. -/
def point (l : Location) : Span := ⟨l, l⟩

end Span

/-- A use of a name that stands for a defined list of tokens. -/
structure Expansion where
  name : String
  location : Location
deriving DecidableEq

end PathScout

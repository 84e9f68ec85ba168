import PathScout.Token.Lexer

/-!
# Faults of a source text

* `ParseError`: why a text is not a source unit, and where.
-/

namespace PathScout

/-- Why a text is not a source unit. -/
inductive ParseCause where
  | lexical (cause : LexCause)
  | expected (what : String) (found : TokenKind)
  | calleeNotNamed (found : TokenKind)
  | sizeNotConstant

/-- The wording of a fault. -/
def ParseCause.message : ParseCause → String
  | lexical cause => cause.message
  | expected what found => "Expected " ++ what ++ ", found " ++ found.describe
  | calleeNotNamed found => "Only named functions can be called, found " ++ found.describe
  | sizeNotConstant => "Array size must be a constant integer"

/-- A fault and where it stands. -/
structure ParseError where
  cause : ParseCause
  location : Location

/-- The full text of an error. -/
def ParseError.message (e : ParseError) : String :=
  "Parse error at " ++ e.location.text ++ ": " ++ e.cause.message

/-- A lexical error is reported like any other fault of the text. -/
def ParseError.ofLexError (e : LexError) : ParseError := ⟨.lexical e.cause, e.location⟩

end PathScout

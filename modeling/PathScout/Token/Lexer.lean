import PathScout.Token

/-!
# Reading tokens from a source text

* `lexeme`: the longest token at the head of a text, with the number of characters it takes.
* `Cursor`: what is left of a text and where that stands. `skipGap`: passes blanks and comments.
* `Definitions.expand`: a token with defined names replaced, to a bounded depth.
* `Directive.ofLine`: what a line after `#` asks for. Only `define` of a name without parameters
  has an effect.
* `tokenize`: all tokens of a text, closed by an end-of-file token, and the uses of defined names.
-/

namespace PathScout

/-- Why a text is not a list of tokens. -/
inductive LexCause where
  | unexpectedChar (c : Char)
  | unterminatedString
  | unterminatedComment
  | endInEscape
  | badHexEscape
  | unknownEscape (c : Char)
  | endInChar
  | unclosedChar
  | badInteger (digits : String)
  | missingDefinedName

/-- The wording of a lexical fault. -/
def LexCause.message : LexCause → String
  | unexpectedChar c => "Unexpected character: '" ++ String.singleton c ++ "'"
  | unterminatedString => "Unterminated string literal"
  | unterminatedComment => "Unterminated block comment"
  | endInEscape => "Unexpected end of file in escape sequence"
  | badHexEscape => "Invalid hex escape sequence: \\x"
  | unknownEscape c => "Unknown escape sequence: \\" ++ String.singleton c
  | endInChar => "Unexpected end of file in character literal"
  | unclosedChar => "Expected closing quote in character literal"
  | badInteger digits => "Invalid integer literal: " ++ digits
  | missingDefinedName => "Expected macro name after #define"

/-- A lexical fault and where it stands. -/
structure LexError where
  cause : LexCause
  location : Location

/-- The full text of a lexical error. -/
def LexError.message (e : LexError) : String :=
  "Lexer error at " ++ e.location.text ++ ": " ++ e.cause.message

/-! ### Character classes -/

/-- May a character stand inside an identifier? -/
def isWordChar (c : Char) : Bool := c.isAlphanum || c == '_'

/-- May a character start an identifier? -/
def isWordStart (c : Char) : Bool := c.isAlpha || c == '_'

/-- The characters between tokens. -/
def isBlank (c : Char) : Bool := c == ' ' || c == '\t' || c == '\r' || c == '\n'

/-- The value of a hexadecimal digit. -/
def hexDigit? (c : Char) : Option Nat :=
  if c.isDigit then some (c.toNat - '0'.toNat)
  else if 'a' ≤ c ∧ c ≤ 'f' then some (c.toNat - 'a'.toNat + 10)
  else if 'A' ≤ c ∧ c ≤ 'F' then some (c.toNat - 'A'.toNat + 10)
  else none

/-- Is the character a hexadecimal digit? -/
def isHexDigit (c : Char) : Bool := (hexDigit? c).isSome

/-! ### Literals -/

/-- The character that an escape stands for, given the text after the backslash, and how many
characters of it the escape takes. -/
def escape : List Char → Except LexCause (Char × Nat)
  | [] => .error .endInEscape
  | 'n' :: _ => .ok ('\n', 1)
  | 't' :: _ => .ok ('\t', 1)
  | 'r' :: _ => .ok ('\r', 1)
  | '\\' :: _ => .ok ('\\', 1)
  | '\'' :: _ => .ok ('\'', 1)
  | '"' :: _ => .ok ('"', 1)
  | '0' :: _ => .ok ('\x00', 1)
  | 'x' :: cs =>
    match (cs.take 2).takeWhile isHexDigit with
    | [] => .error .badHexEscape
    | ds => .ok (Char.ofNat (ds.foldl (fun n d => 16 * n + (hexDigit? d).getD 0) 0), ds.length + 1)
  | c :: _ => .error (.unknownEscape c)

/-- The content of a string literal, given the text after its opening quote, and how many
characters that content and the closing quote take. -/
def stringBody (cs : List Char) : Except LexCause (List Char × Nat) :=
  match cs with
  | [] => .error .unterminatedString
  | '"' :: _ => .ok ([], 1)
  | '\n' :: _ => .error .unterminatedString
  | '\\' :: ds => do
    let (c, n) ← escape ds
    let (s, m) ← stringBody (ds.drop n)
    return (c :: s, m + n + 1)
  | c :: ds => do
    let (s, m) ← stringBody ds
    return (c :: s, m + 1)
termination_by cs.length
decreasing_by all_goals simp_all; try omega

/-- The character between single quotes, given the text after the first one, and how many
characters it and the closing quote take. -/
def charBody : List Char → Except LexCause (Char × Nat)
  | [] => .error .endInChar
  | c :: cs => do
    let (v, n) ← if c = '\\' then escape cs else .ok (c, 0)
    match cs.drop n with
    | '\'' :: _ => return (v, n + 2)
    | _ => .error .unclosedChar

/-- The number written by a nonempty list of digits, if it fits in 64 bits with sign. -/
def integerLiteral (base : Nat) (ds : List Char) : Except LexCause Int :=
  let n := ds.foldl (fun n d => base * n + (hexDigit? d).getD 0) 0
  if ds.isEmpty ∨ 0x8000000000000000 ≤ n then .error (.badInteger (String.ofList ds)) else .ok n

/-- A number that starts with the digit `d`, in base ten or after `0x` in base sixteen, and how
many characters of `cs` it takes. -/
def numberBody (d : Char) (cs : List Char) : Except LexCause (Int × Nat) :=
  let hexadecimal := match cs with
    | c :: _ => d == '0' && (c == 'x' || c == 'X')
    | [] => false
  if hexadecimal then do
    let ds := (cs.drop 1).takeWhile isHexDigit
    return (← integerLiteral 16 ds, ds.length + 1)
  else do
    let ds := cs.takeWhile Char.isDigit
    return (← integerLiteral 10 (d :: ds), ds.length)

/-- A word is a reserved word or an identifier. -/
def wordKind (cs : List Char) : TokenKind :=
  match Keyword.ofChars? cs with
  | some k => .keyword k
  | none => .ident (String.ofList cs)

/-- The token that starts with the character `c`, given the text `cs` after it, and how many
characters of `cs` it takes. -/
def lexeme (c : Char) (cs : List Char) : Except LexCause (TokenKind × Nat) :=
  if c = '"' then do
    let (s, n) ← stringBody cs
    return (.string (String.ofList s), n)
  else if c = '\'' then do
    let (v, n) ← charBody cs
    return (.char (Int.bmod v.toNat 256), n)
  else if c.isDigit then do
    let (v, n) ← numberBody c cs
    return (.int v, n)
  else if isWordStart c then
    let tail := cs.takeWhile isWordChar
    return (wordKind (c :: tail), tail.length)
  else
    match Punct.ofHead? (c :: cs) with
    | some p => return (.punct p, p.chars.length - 1)
    | none => .error (.unexpectedChar c)

/-! ### Moving through a text -/

/-- What is left of a text, and the position where it stands. -/
structure Cursor where
  rest : List Char
  location : Location

/-- Where a reader between two tokens stands: between words, in a comment that ends with its line,
or in a bracketed comment that began at a known position. -/
inductive Gap where
  | blank
  | line
  | block (since : Location)

/-- Passes blanks and comments up to the next token or the end of the text. -/
def skipGap : Gap → List Char → Location → Except LexError Cursor
  | .blank, '/' :: '/' :: cs, l => skipGap .line cs ((l.step '/').step '/')
  | .blank, '/' :: '*' :: cs, l => skipGap (.block l) cs ((l.step '/').step '*')
  | .blank, c :: cs, l => if isBlank c then skipGap .blank cs (l.step c) else .ok ⟨c :: cs, l⟩
  | .line, c :: cs, l => skipGap (if c = '\n' then .blank else .line) cs (l.step c)
  | .block _, '*' :: '/' :: cs, l => skipGap .blank cs ((l.step '*').step '/')
  | .block since, c :: cs, l => skipGap (.block since) cs (l.step c)
  | .block since, [], _ => .error ⟨.unterminatedComment, since⟩
  | .blank, [], l => .ok ⟨[], l⟩
  | .line, [], l => .ok ⟨[], l⟩

/-- Passing a gap never lengthens what is left. -/
theorem skipGap_length_le {g : Gap} {cs : List Char} {l : Location} {c : Cursor}
    (h : skipGap g cs l = .ok c) : c.rest.length ≤ cs.length := by
  fun_induction skipGap g cs l <;> grind [List.length_cons]

/-- The kinds of all tokens of a text without directives. -/
def lexemes (cs : List Char) (l : Location) : Except LexError (List TokenKind) :=
  match _h : skipGap .blank cs l with
  | .error e => .error e
  | .ok ⟨[], _⟩ => .ok []
  | .ok ⟨c :: rest, pos⟩ =>
    match lexeme c rest with
    | .error e => .error ⟨e, pos⟩
    | .ok (kind, n) =>
      match lexemes (rest.drop n) (pos.stepAll (c :: rest.take n)) with
      | .error e => .error e
      | .ok kinds => .ok (kind :: kinds)
termination_by cs.length
decreasing_by
  have := skipGap_length_le _h
  simp at this ⊢
  omega

/-! ### Defined names -/

/-- What names stand for; the latest definition of a name comes first. -/
abbrev Definitions := List (String × List TokenKind)

/-- How many definitions deep a name is replaced. -/
def Definitions.maxDepth : Nat := 16

/-- The tokens that a token stands for, when `depth` more replacements may be nested. -/
def Definitions.expand (defs : Definitions) : (depth : Nat) → TokenKind → List TokenKind
  | depth + 1, .ident name =>
    match defs.lookup name with
    | some body => body.flatMap (expand defs depth)
    | none => [.ident name]
  | _, kind => [kind]

/-- Is the token a name with a definition? -/
def Definitions.names (defs : Definitions) : TokenKind → Option String
  | .ident name => if (defs.lookup name).isSome then some name else none
  | _ => none

/-- What a line after `#` asks for: a definition, or nothing. -/
def Directive.ofLine (line : List Char) : Except LexCause (Option (String × List TokenKind)) :=
  let isInlineBlank := fun c : Char => c == ' ' || c == '\t'
  let line := line.dropWhile isInlineBlank
  if line.takeWhile isWordChar = ['d', 'e', 'f', 'i', 'n', 'e'] then
    let line := (line.dropWhile isWordChar).dropWhile isInlineBlank
    let name := line.takeWhile isWordChar
    let body := line.dropWhile isWordChar
    if name.isEmpty then .error .missingDefinedName
    else if body.head? = some '(' then .ok none
    else match lexemes body .start with
      | .error e => .error e.cause
      | .ok kinds => .ok (some (String.ofList name, kinds))
  else .ok none

/-! ### The whole text -/

/-- The tokens of a text and the uses of defined names in it. -/
structure Lexed where
  tokens : List Token
  expansions : List Expansion

/-- Reads the tokens of what is left of a text under the definitions made so far. -/
def tokenizeFrom (defs : Definitions) (cs : List Char) (l : Location) : Except LexError Lexed :=
  match _h : skipGap .blank cs l with
  | .error e => .error e
  | .ok ⟨[], pos⟩ => .ok ⟨[⟨.eof, pos, pos⟩], []⟩
  | .ok ⟨c :: rest, pos⟩ =>
    if c = '#' then
      let line := rest.takeWhile (· != '\n')
      match Directive.ofLine line with
      | .error e => .error ⟨e, pos⟩
      | .ok d => tokenizeFrom (d.toList ++ defs) (rest.drop line.length) (pos.stepAll (c :: line))
    else
      match lexeme c rest with
      | .error e => .error ⟨e, pos⟩
      | .ok (kind, n) =>
        let next := pos.stepAll (c :: rest.take n)
        match tokenizeFrom defs (rest.drop n) next with
        | .error e => .error e
        | .ok out =>
          let tokens := (defs.expand Definitions.maxDepth kind).map (⟨·, pos, next.lastBefore⟩)
          .ok ⟨tokens ++ out.tokens, ((defs.names kind).map (⟨·, pos⟩)).toList ++ out.expansions⟩
termination_by cs.length
decreasing_by
  all_goals
    have := skipGap_length_le _h
    simp at this ⊢
    omega

/-- Reads a source text into tokens. -/
def tokenize (source : String) : Except LexError Lexed := tokenizeFrom [] source.toList .start

end PathScout

import PathScout.Source

/-!
# Tokens of the C subset

* `Keyword`, `Punct`: the fixed words and the punctuators, each with its spelling.
* `TokenKind`: what a token is; `TokenKind.describe` names it in messages.
* `Token`: a kind with the span it covers.
-/

namespace PathScout

/-- The reserved words. `NULL` is reserved too. -/
inductive Keyword where
  | int | char | void | struct | const | static
  | if | else | while | do | for | switch | case | default
  | break | continue | return | goto | sizeof | null
deriving DecidableEq

namespace Keyword

/-- How a reserved word is written. -/
def chars : Keyword → List Char
  | int => ['i', 'n', 't']
  | char => ['c', 'h', 'a', 'r']
  | void => ['v', 'o', 'i', 'd']
  | struct => ['s', 't', 'r', 'u', 'c', 't']
  | const => ['c', 'o', 'n', 's', 't']
  | static => ['s', 't', 'a', 't', 'i', 'c']
  | .if => ['i', 'f']
  | .else => ['e', 'l', 's', 'e']
  | .while => ['w', 'h', 'i', 'l', 'e']
  | .do => ['d', 'o']
  | .for => ['f', 'o', 'r']
  | switch => ['s', 'w', 'i', 't', 'c', 'h']
  | case => ['c', 'a', 's', 'e']
  | default => ['d', 'e', 'f', 'a', 'u', 'l', 't']
  | .break => ['b', 'r', 'e', 'a', 'k']
  | .continue => ['c', 'o', 'n', 't', 'i', 'n', 'u', 'e']
  | .return => ['r', 'e', 't', 'u', 'r', 'n']
  | goto => ['g', 'o', 't', 'o']
  | sizeof => ['s', 'i', 'z', 'e', 'o', 'f']
  | null => ['N', 'U', 'L', 'L']

/-- Every reserved word. -/
def all : List Keyword :=
  [int, char, void, struct, const, static, .if, .else, .while, .do, .for, switch, case, default,
    .break, .continue, .return, goto, sizeof, null]

/-- The reserved word with a given spelling. -/
def ofChars? (cs : List Char) : Option Keyword := all.find? fun k => k.chars == cs

end Keyword

/-- The operators and separators. -/
inductive Punct where
  | plus | minus | star | slash | percent
  | eqEq | notEq | lt | le | gt | ge
  | andAnd | orOr | bang
  | amp | pipe | caret | tilde | shl | shr
  | eq | plusEq | minusEq | starEq | slashEq | percentEq | ampEq | pipeEq | caretEq | shlEq | shrEq
  | plusPlus | minusMinus
  | dot | arrow | ellipsis
  | question | colon
  | lparen | rparen | lbrace | rbrace | lbracket | rbracket | semicolon | comma
deriving DecidableEq

namespace Punct

/-- How a punctuator is written. -/
def chars : Punct → List Char
  | plus => ['+']
  | minus => ['-']
  | star => ['*']
  | slash => ['/']
  | percent => ['%']
  | eqEq => ['=', '=']
  | notEq => ['!', '=']
  | lt => ['<']
  | le => ['<', '=']
  | gt => ['>']
  | ge => ['>', '=']
  | andAnd => ['&', '&']
  | orOr => ['|', '|']
  | bang => ['!']
  | amp => ['&']
  | pipe => ['|']
  | caret => ['^']
  | tilde => ['~']
  | shl => ['<', '<']
  | shr => ['>', '>']
  | eq => ['=']
  | plusEq => ['+', '=']
  | minusEq => ['-', '=']
  | starEq => ['*', '=']
  | slashEq => ['/', '=']
  | percentEq => ['%', '=']
  | ampEq => ['&', '=']
  | pipeEq => ['|', '=']
  | caretEq => ['^', '=']
  | shlEq => ['<', '<', '=']
  | shrEq => ['>', '>', '=']
  | plusPlus => ['+', '+']
  | minusMinus => ['-', '-']
  | dot => ['.']
  | arrow => ['-', '>']
  | ellipsis => ['.', '.', '.']
  | question => ['?']
  | colon => [':']
  | lparen => ['(']
  | rparen => [')']
  | lbrace => ['\x7b']
  | rbrace => ['\x7d']
  | lbracket => ['[']
  | rbracket => [']']
  | semicolon => [';']
  | comma => [',']

/-- Every punctuator, longer spellings before their beginnings. -/
def all : List Punct :=
  [shlEq, shrEq, ellipsis,
    eqEq, notEq, le, ge, andAnd, orOr, shl, shr, plusEq, minusEq, starEq, slashEq, percentEq,
    ampEq, pipeEq, caretEq, plusPlus, minusMinus, arrow,
    plus, minus, star, slash, percent, lt, gt, bang, amp, pipe, caret, tilde, eq, dot, question,
    colon, lparen, rparen, lbrace, rbrace, lbracket, rbracket, semicolon, comma]

/-- The longest punctuator that begins a text. -/
def ofHead? (cs : List Char) : Option Punct := all.find? fun p => p.chars.isPrefixOf cs

end Punct

/-- What a token is. Integer literals are in the range of 64 bits, character literals are
signed bytes. -/
inductive TokenKind where
  | int (value : Int)
  | char (value : Int)
  | string (content : String)
  | ident (name : String)
  | keyword (word : Keyword)
  | punct (mark : Punct)
  | eof
deriving DecidableEq

/-- The two lower-case hexadecimal digits of a byte. -/
def hexByte (n : Nat) : String := String.ofList [(n / 16 % 16).digitChar, (n % 16).digitChar]

namespace TokenKind

/-- A byte as it is shown in a message: itself if it is a visible ASCII character or a blank,
else by its two hexadecimal digits. -/
def describeByte (n : Nat) : String :=
  if 0x20 ≤ n ∧ n ≤ 0x7e then String.singleton (Char.ofNat n) else "\\x" ++ hexByte n

/-- How a token is named in messages. -/
def describe : TokenKind → String
  | int n => s!"int literal {n}"
  | char v => "char literal '" ++ describeByte (v % 256).toNat ++ "'"
  | string s => "string literal \"" ++ s ++ "\""
  | ident s => "identifier '" ++ s ++ "'"
  | keyword k => "'" ++ String.ofList k.chars ++ "'"
  | punct p => "'" ++ String.ofList p.chars ++ "'"
  | eof => "end of file"

end TokenKind

/-- A token with its first and last position. -/
structure Token where
  kind : TokenKind
  location : Location
  last : Location
deriving DecidableEq

end PathScout

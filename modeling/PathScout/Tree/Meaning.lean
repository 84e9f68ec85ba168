import PathScout.Token
import PathScout.Tree

/-!
# What tokens mean in a tree

* `BinarySymbol.ofToken?`: the binary operators with their levels.
* `assignment?`, `UnaryOp.before?`, `UnaryOp.after?`, `selection?`: the other operators.
* `atom?`: expressions that are a single token.
* `TokenKind.startsType`, `TokenKind.plainType?`: the words that begin a type.
-/

namespace PathScout

/-- A binary operator as it is written between two operands. -/
inductive BinarySymbol where
  | plain (op : BinaryOp)
  | logical (op : LogicalOp)

/-- The level of a binary operator, from 1 for the loosest to 10, and the operator. -/
def BinarySymbol.ofToken? : TokenKind → Option (Nat × BinarySymbol)
  | .punct .orOr => some (1, .logical .or)
  | .punct .andAnd => some (2, .logical .and)
  | .punct .pipe => some (3, .plain .bitOr)
  | .punct .caret => some (4, .plain .bitXor)
  | .punct .amp => some (5, .plain .bitAnd)
  | .punct .eqEq => some (6, .plain .eq)
  | .punct .notEq => some (6, .plain .ne)
  | .punct .lt => some (7, .plain .lt)
  | .punct .le => some (7, .plain .le)
  | .punct .gt => some (7, .plain .gt)
  | .punct .ge => some (7, .plain .ge)
  | .punct .shl => some (8, .plain .shl)
  | .punct .shr => some (8, .plain .shr)
  | .punct .plus => some (9, .plain .add)
  | .punct .minus => some (9, .plain .sub)
  | .punct .star => some (10, .plain .mul)
  | .punct .slash => some (10, .plain .div)
  | .punct .percent => some (10, .plain .rem)
  | _ => none

/-- The operator, if its level is at least `level`. -/
def BinarySymbol.atLeast? (level : Nat) (kind : TokenKind) : Option (Nat × BinarySymbol) :=
  (BinarySymbol.ofToken? kind).filter fun p => level ≤ p.1

/-- The expression of an operator between two operands; it covers both. -/
def BinarySymbol.apply (op : BinarySymbol) (l r : Expr) : Expr :=
  let span : Span := ⟨l.span.first, r.span.last⟩
  match op with
  | plain op => .binary span op l r
  | logical op => .logical span op l r

/-- The assignment operators: plain assignment has no operation of its own. -/
def assignment? : TokenKind → Option (Option BinaryOp)
  | .punct .eq => some none
  | .punct .plusEq => some (some .add)
  | .punct .minusEq => some (some .sub)
  | .punct .starEq => some (some .mul)
  | .punct .slashEq => some (some .div)
  | .punct .percentEq => some (some .rem)
  | .punct .ampEq => some (some .bitAnd)
  | .punct .pipeEq => some (some .bitOr)
  | .punct .caretEq => some (some .bitXor)
  | .punct .shlEq => some (some .shl)
  | .punct .shrEq => some (some .shr)
  | _ => none

/-- The operators that stand in front of their operand and appear in the tree. -/
def UnaryOp.before? : TokenKind → Option UnaryOp
  | .punct .minus => some .neg
  | .punct .bang => some .not
  | .punct .tilde => some .bitNot
  | .punct .plusPlus => some .preInc
  | .punct .minusMinus => some .preDec
  | .punct .star => some .deref
  | .punct .amp => some .addrOf
  | _ => none

/-- The operators that stand after their operand. -/
def UnaryOp.after? : TokenKind → Option UnaryOp
  | .punct .plusPlus => some .postInc
  | .punct .minusMinus => some .postDec
  | _ => none

/-- The operators that select a field; the arrow goes through a pointer. -/
def selection? : TokenKind → Option Bool
  | .punct .dot => some false
  | .punct .arrow => some true
  | _ => none

/-- An expression that is a single token. -/
def atom? (span : Span) : TokenKind → Option Expr
  | .int n => some (.int span n)
  | .char n => some (.char span n)
  | .keyword .null => some (.null span)
  | .ident name => some (.ident span name)
  | _ => none

/-- The content of a string token. -/
def TokenKind.content? : TokenKind → Option String
  | .string s => some s
  | _ => none

/-- The name that an identifier spells. -/
def TokenKind.name? : TokenKind → Option String
  | .ident name => some name
  | _ => none

/-- Can a token begin a type? -/
def TokenKind.startsType : TokenKind → Bool
  | .keyword .int | .keyword .char | .keyword .void | .keyword .struct | .keyword .const
  | .keyword .static => true
  | _ => false

/-- The type that a reserved word names by itself. -/
def TokenKind.plainType? : TokenKind → Option CType
  | .keyword .int => some .int
  | .keyword .char => some .char
  | .keyword .void => some .void
  | _ => none

/-- The reserved word that a token is. -/
def TokenKind.keyword? : TokenKind → Option Keyword
  | .keyword k => some k
  | _ => none

end PathScout

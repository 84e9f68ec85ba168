import PathScout.Tree.Error
import PathScout.Tree.Meaning

/-!
# Reading trees from tokens

A reader takes a list of tokens and gives a value with the tokens that it leaves. Every result
carries a bound on what is left, so that readers that call each other end because the list gets
shorter.

Expressions are read by precedence: assignment and `?:` group to the right, the ten levels of
binary operators to the left, casts and operators in front of an operand bind tighter, and
operators after an operand tightest.

* `Parsed`: a value and what is left of the tokens.
* `next?`, `expect`, `expectName`: taking one token.
* `readExpr`: an expression; `readTernary`: one without assignment.
* `readType`: a type in a cast or after `sizeof`; `readSizes`: array sizes after a name.
* `readDeclarator`, `readInitializer`, `readDecls`: declared names and what they start with.
* `readStmt`: a statement; `readBlock`: statements up to a closing brace.
* `readItems`, `SourceUnit.ofText`: a whole source text.
-/

namespace PathScout

/-! ### Taking tokens -/

/-- A value read from tokens, and what is left of them, which is fewer than `n`. -/
structure Parsed (α : Type) (n : Nat) where
  value : α
  rest : List Token
  bound : rest.length < n

/-- The outcome of a reader. -/
abbrev Reading (α : Type) (n : Nat) := Except ParseError (Parsed α n)

/-- The token at the head, or an end-of-file token. -/
def peek (ts : List Token) : Token := ts.head?.getD ⟨.eof, .start, .start⟩

/-- Where the next token stands. -/
def here (ts : List Token) : Location := (peek ts).location

/-- Is the next token of the given kind? -/
def nextIs (kind : TokenKind) (ts : List Token) : Bool := (peek ts).kind == kind

/-- Is the input used up? -/
def atEnd (ts : List Token) : Bool := nextIs .eof ts

/-- Reports that something else was expected here. -/
def unexpected (what : String) (ts : List Token) : ParseError :=
  ⟨.expected what (peek ts).kind, here ts⟩

/-- Takes the head token, if `f` accepts its kind. -/
def nextAs? {α : Type} (f : TokenKind → Option α) : (ts : List Token) → Option (Parsed (α × Token) ts.length)
  | [] => none
  | t :: rest => (f t.kind).map fun a => ⟨(a, t), rest, by simp⟩

/-- Takes the head token, if it is of the given kind. -/
def next? (kind : TokenKind) : (ts : List Token) → Option (Parsed Token ts.length)
  | [] => none
  | t :: rest => if t.kind = kind then some ⟨t, rest, by simp⟩ else none

/-- Takes the given reserved word or punctuator; `context` says where it belongs. -/
def expect (kind : TokenKind) (context : String) (ts : List Token) : Reading Token ts.length :=
  match next? kind ts with
  | some p => .ok p
  | none => .error (unexpected (kind.describe ++ " " ++ context) ts)

/-- Takes a punctuator. -/
def expectPunct (p : Punct) (context : String) (ts : List Token) : Reading Token ts.length :=
  expect (.punct p) context ts

/-- Takes an identifier. -/
def expectName (ts : List Token) : Reading (String × Token) ts.length :=
  match nextAs? TokenKind.name? ts with
  | some p => .ok p
  | none => .error (unexpected "identifier" ts)

/-- Do the tokens begin with a parenthesis and a type? -/
def startsTypeInParens (ts : List Token) : Bool :=
  nextIs (.punct .lparen) ts && (peek ts.tail).kind.startsType

/-- Passes `const` and `static`, and says whether `static` was among them or before. -/
def readQualifiers (isStatic : Bool) : (ts : List Token) → Parsed Bool (ts.length + 1)
  | [] => ⟨isStatic, [], by simp⟩
  | t :: rest =>
    if t.kind = .keyword .static ∨ t.kind = .keyword .const then
      let ⟨s, left, h⟩ := readQualifiers (isStatic || t.kind == .keyword .static) rest
      ⟨s, left, by simp; omega⟩
    else ⟨isStatic, t :: rest, by simp⟩

/-- Passes any number of `const`. -/
def skipConst : (ts : List Token) → Parsed Unit (ts.length + 1)
  | [] => ⟨(), [], by simp⟩
  | t :: rest =>
    if t.kind = .keyword .const then
      let ⟨_, left, h⟩ := skipConst rest
      ⟨(), left, by simp; omega⟩
    else ⟨(), t :: rest, by simp⟩

/-- Reads a base type with its qualifiers, and whether it was marked `static`. -/
def readBase (ts : List Token) : Reading (CType × Bool) ts.length := do
  let ⟨isStatic, ts₁, h₁⟩ := readQualifiers false ts
  let ⟨type, ts₂, h₂⟩ ← baseName ts₁
  let ⟨_, ts₃, h₃⟩ := skipConst ts₂
  return ⟨(type, isStatic), ts₃, by omega⟩
where
  baseName (ts : List Token) : Reading CType ts.length :=
    match nextAs? TokenKind.plainType? ts with
    | some ⟨(type, _), rest, h⟩ => .ok ⟨type, rest, h⟩
    | none =>
      match next? (.keyword .struct) ts with
      | some ⟨_, rest, h⟩ => do
        let ⟨(name, _), rest', h'⟩ ← expectName rest
        return ⟨.struct name, rest', by omega⟩
      | none => .error (unexpected "type" ts)

/-- Reads the stars after a base type. `const` is passed after a star, if `qualified`. -/
def readStars (qualified afterStar : Bool) (type : CType) :
    (ts : List Token) → Parsed CType (ts.length + 1)
  | [] => ⟨type, [], by simp⟩
  | t :: rest =>
    if t.kind = .punct .star then
      let ⟨type', left, h⟩ := readStars qualified true (.pointer type) rest
      ⟨type', left, by simp; omega⟩
    else if qualified ∧ afterStar ∧ t.kind = .keyword .const then
      let ⟨type', left, h⟩ := readStars qualified true type rest
      ⟨type', left, by simp; omega⟩
    else ⟨type, t :: rest, by simp⟩

/-! ### Expressions -/

/-- The type with array sizes behind it, the first size outermost. -/
def CType.withSizes (type : CType) (sizes : List (Option Nat)) : CType :=
  sizes.foldr (fun size inner => .array inner size) type

/-- Joins the string literals that follow each other to one. -/
def readStrings (content : String) (last : Location) :
    (ts : List Token) → Parsed (String × Location) (ts.length + 1)
  | [] => ⟨(content, last), [], by simp⟩
  | t :: rest =>
    match t.kind.content? with
    | some more =>
      let ⟨out, left, h⟩ := readStrings (content ++ more) t.last rest
      ⟨out, left, by simp; omega⟩
    | none => ⟨(content, last), t :: rest, by simp⟩

mutual

/-- Reads an expression. -/
def readExpr (ts : List Token) : Reading Expr ts.length := do
  let ⟨target, ts₁, h₁⟩ ← readTernary ts
  match nextAs? assignment? ts₁ with
  | none => return ⟨target, ts₁, h₁⟩
  | some ⟨(op, _), ts₂, h₂⟩ =>
    let ⟨value, ts₃, h₃⟩ ← readExpr ts₂
    return ⟨.assign ⟨target.span.first, value.span.last⟩ op target value, ts₃, by omega⟩
termination_by 16 * ts.length + 9

/-- Reads an expression without assignment. -/
def readTernary (ts : List Token) : Reading Expr ts.length := do
  let ⟨cond, ts₁, h₁⟩ ← readBinary 1 ts
  match next? (.punct .question) ts₁ with
  | none => return ⟨cond, ts₁, h₁⟩
  | some ⟨_, ts₂, h₂⟩ =>
    let ⟨yes, ts₃, h₃⟩ ← readExpr ts₂
    let ⟨_, ts₄, h₄⟩ ← expectPunct .colon "in ternary expression" ts₃
    let ⟨no, ts₅, h₅⟩ ← readTernary ts₄
    return ⟨.conditional ⟨cond.span.first, no.span.last⟩ cond yes no, ts₅, by omega⟩
termination_by 16 * ts.length + 8

/-- Reads operands joined by binary operators of at least the given level. -/
def readBinary (level : Nat) (ts : List Token) : Reading Expr ts.length := do
  let ⟨first, ts₁, h₁⟩ ← readCast ts
  let ⟨e, ts₂, h₂⟩ ← readBinaryTail level first ts₁
  return ⟨e, ts₂, by omega⟩
termination_by 16 * ts.length + 7

/-- Extends a left operand as long as operators of at least the given level follow. -/
def readBinaryTail (level : Nat) (left : Expr) (ts : List Token) : Reading Expr (ts.length + 1) :=
  match nextAs? (BinarySymbol.atLeast? level) ts with
  | none => return ⟨left, ts, by omega⟩
  | some ⟨((level', op), _), ts₁, h₁⟩ => do
    let ⟨right, ts₂, h₂⟩ ← readBinary (level' + 1) ts₁
    let ⟨e, ts₃, h₃⟩ ← readBinaryTail level (op.apply left right) ts₂
    return ⟨e, ts₃, by omega⟩
termination_by 16 * ts.length

/-- Reads an operand with casts in front. -/
def readCast (ts : List Token) : Reading Expr ts.length := do
  if startsTypeInParens ts then
    let ⟨_, ts₁, h₁⟩ ← expectPunct .lparen "" ts
    let ⟨type, ts₂, h₂⟩ ← readType ts₁
    let ⟨_, ts₃, h₃⟩ ← expectPunct .rparen "after cast type" ts₂
    let ⟨e, ts₄, h₄⟩ ← readCast ts₃
    return ⟨.cast ⟨here ts, e.span.last⟩ type e, ts₄, by omega⟩
  else readUnary ts
termination_by 16 * ts.length + 6

/-- Reads an operand with operators in front. A plus sign leaves no trace. -/
def readUnary (ts : List Token) : Reading Expr ts.length :=
  match nextAs? UnaryOp.before? ts with
  | some ⟨(op, t), ts₁, h₁⟩ => do
    let ⟨e, ts₂, h₂⟩ ← readCast ts₁
    return ⟨.unary ⟨t.location, e.span.last⟩ op e, ts₂, by omega⟩
  | none =>
    match next? (.punct .plus) ts with
    | some ⟨_, ts₁, h₁⟩ => do
      let ⟨e, ts₂, h₂⟩ ← readCast ts₁
      return ⟨e, ts₂, by omega⟩
    | none =>
      match next? (.keyword .sizeof) ts with
      | some ⟨t, ts₁, h₁⟩ => do
        if startsTypeInParens ts₁ then
          let ⟨_, ts₂, h₂⟩ ← expectPunct .lparen "" ts₁
          let ⟨type, ts₃, h₃⟩ ← readType ts₂
          let ⟨close, ts₄, h₄⟩ ← expectPunct .rparen "after sizeof type" ts₃
          return ⟨.sizeofType ⟨t.location, close.last⟩ type, ts₄, by omega⟩
        else
          let ⟨e, ts₂, h₂⟩ ← readUnary ts₁
          return ⟨.sizeofExpr ⟨t.location, e.span.last⟩ e, ts₂, by omega⟩
      | none => readPostfix ts
termination_by 16 * ts.length + 5

/-- Reads an operand with what stands after it. -/
def readPostfix (ts : List Token) : Reading Expr ts.length := do
  let ⟨first, ts₁, h₁⟩ ← readPrimary ts
  let ⟨e, ts₂, h₂⟩ ← readPostfixTail first ts₁
  return ⟨e, ts₂, by omega⟩
termination_by 16 * ts.length + 4

/-- Extends an operand by indices, fields, calls, and increments. Only a name can be called. -/
def readPostfixTail (e : Expr) (ts : List Token) : Reading Expr (ts.length + 1) :=
  match next? (.punct .lbracket) ts with
  | some ⟨_, ts₁, h₁⟩ => do
    let ⟨i, ts₂, h₂⟩ ← readExpr ts₁
    let ⟨close, ts₃, h₃⟩ ← expectPunct .rbracket "after index" ts₂
    let ⟨out, ts₄, h₄⟩ ← readPostfixTail (.index ⟨e.span.first, close.last⟩ e i) ts₃
    return ⟨out, ts₄, by omega⟩
  | none =>
    match nextAs? selection? ts with
    | some ⟨(arrow, _), ts₁, h₁⟩ => do
      let ⟨(field, t), ts₂, h₂⟩ ← expectName ts₁
      let ⟨out, ts₃, h₃⟩ ← readPostfixTail (.member ⟨e.span.first, t.last⟩ e field arrow) ts₂
      return ⟨out, ts₃, by omega⟩
    | none =>
      match next? (.punct .lparen) ts with
      | some ⟨_, ts₁, h₁⟩ =>
        match e with
        | .ident span callee => do
          let ⟨args, ts₂, h₂⟩ ← readArgs ts₁
          let ⟨close, ts₃, h₃⟩ ← expectPunct .rparen "after arguments" ts₂
          let ⟨out, ts₄, h₄⟩ ← readPostfixTail (.call ⟨span.first, close.last⟩ callee args) ts₃
          return ⟨out, ts₄, by omega⟩
        | _ => .error ⟨.calleeNotNamed (peek ts).kind, here ts⟩
      | none =>
        match nextAs? UnaryOp.after? ts with
        | some ⟨(op, t), ts₁, h₁⟩ => do
          let ⟨out, ts₂, h₂⟩ ← readPostfixTail (.unary ⟨e.span.first, t.last⟩ op e) ts₁
          return ⟨out, ts₂, by omega⟩
        | none => return ⟨e, ts, by omega⟩
termination_by 16 * ts.length

/-- Reads the arguments of a call up to the closing parenthesis. -/
def readArgs (ts : List Token) : Reading (List Expr) (ts.length + 1) := do
  if nextIs (.punct .rparen) ts then return ⟨[], ts, by omega⟩
  else
    let ⟨e, ts₁, h₁⟩ ← readExpr ts
    let ⟨es, ts₂, h₂⟩ ← readMoreArgs ts₁
    return ⟨e :: es, ts₂, by omega⟩
termination_by 16 * ts.length + 10

/-- Reads the arguments after the first one. -/
def readMoreArgs (ts : List Token) : Reading (List Expr) (ts.length + 1) :=
  match next? (.punct .comma) ts with
  | none => return ⟨[], ts, by omega⟩
  | some ⟨_, ts₁, h₁⟩ => do
    let ⟨e, ts₂, h₂⟩ ← readExpr ts₁
    let ⟨es, ts₃, h₃⟩ ← readMoreArgs ts₂
    return ⟨e :: es, ts₃, by omega⟩
termination_by 16 * ts.length

/-- Reads a literal, a name, or an expression in parentheses, which then covers them. -/
def readPrimary (ts : List Token) : Reading Expr ts.length :=
  match nextAs? (atom? ⟨here ts, (peek ts).last⟩) ts with
  | some ⟨(e, _), ts₁, h₁⟩ => return ⟨e, ts₁, h₁⟩
  | none =>
    match nextAs? TokenKind.content? ts with
    | some ⟨(content, t), ts₁, h₁⟩ =>
      let ⟨(content, last), ts₂, h₂⟩ := readStrings content t.last ts₁
      return ⟨.string ⟨t.location, last⟩ content, ts₂, by omega⟩
    | none =>
      match next? (.punct .lparen) ts with
      | some ⟨t, ts₁, h₁⟩ => do
        let ⟨e, ts₂, h₂⟩ ← readExpr ts₁
        let ⟨close, ts₃, h₃⟩ ← expectPunct .rparen "after parenthesized expression" ts₂
        return ⟨e.withSpan ⟨t.location, close.last⟩, ts₃, by omega⟩
      | none => .error (unexpected "expression" ts)
termination_by 16 * ts.length + 3

/-- Reads a type without a name. -/
def readType (ts : List Token) : Reading CType ts.length := do
  let ⟨(base, _), ts₁, h₁⟩ ← readBase ts
  let ⟨type, ts₂, h₂⟩ := readStars true false base ts₁
  let ⟨sizes, ts₃, h₃⟩ ← readSizes ts₂
  return ⟨type.withSizes sizes, ts₃, by omega⟩
termination_by 16 * ts.length + 2

/-- Reads array sizes in brackets. A size is left out or a constant that is not negative. -/
def readSizes (ts : List Token) : Reading (List (Option Nat)) (ts.length + 1) :=
  match next? (.punct .lbracket) ts with
  | none => return ⟨[], ts, by omega⟩
  | some ⟨_, ts₁, h₁⟩ =>
    match next? (.punct .rbracket) ts₁ with
    | some ⟨_, ts₂, h₂⟩ => do
      let ⟨sizes, ts₃, h₃⟩ ← readSizes ts₂
      return ⟨none :: sizes, ts₃, by omega⟩
    | none => do
      let ⟨e, ts₂, h₂⟩ ← readExpr ts₁
      match e.constant?.filter (0 ≤ ·) with
      | none => .error ⟨.sizeNotConstant, e.location⟩
      | some n =>
        let ⟨_, ts₃, h₃⟩ ← expectPunct .rbracket "after array size" ts₂
        let ⟨sizes, ts₄, h₄⟩ ← readSizes ts₃
        return ⟨some n.toNat :: sizes, ts₄, by omega⟩
termination_by 16 * ts.length + 1

end

/-! ### Declarations -/

/-- A declared name with its type and place. -/
structure Declarator where
  name : String
  type : CType
  location : Location

/-- Reads stars, a name and array sizes. -/
def readDeclarator (base : CType) (ts : List Token) : Reading Declarator ts.length := do
  let ⟨type, ts₁, h₁⟩ := readStars true false base ts
  let ⟨(name, t), ts₂, h₂⟩ ← expectName ts₁
  let ⟨sizes, ts₃, h₃⟩ ← readSizes ts₂
  return ⟨⟨name, type.withSizes sizes, t.location⟩, ts₃, by omega⟩

mutual

/-- Reads what a variable starts with. -/
def readInitializer (ts : List Token) : Reading Initializer ts.length :=
  match next? (.punct .lbrace) ts with
  | some ⟨t, ts₁, h₁⟩ => do
    let ⟨elements, ts₂, h₂⟩ ← readInitializers ts₁
    let ⟨_, ts₃, h₃⟩ ← expectPunct .rbrace "after initializer list" ts₂
    return ⟨.list t.location elements, ts₃, by omega⟩
  | none => do
    let ⟨e, ts₁, h₁⟩ ← readExpr ts
    return ⟨.expr e, ts₁, h₁⟩
termination_by 2 * ts.length

/-- Reads the elements of a list up to its closing brace; a comma may stand before that. -/
def readInitializers (ts : List Token) : Reading (List Initializer) (ts.length + 1) := do
  if nextIs (.punct .rbrace) ts then return ⟨[], ts, by omega⟩
  else
    let ⟨first, ts₁, h₁⟩ ← readInitializer ts
    match next? (.punct .comma) ts₁ with
    | none => return ⟨[first], ts₁, by omega⟩
    | some ⟨_, ts₂, h₂⟩ =>
      let ⟨more, ts₃, h₃⟩ ← readInitializers ts₂
      return ⟨first :: more, ts₃, by omega⟩
termination_by 2 * ts.length + 1

end

/-- Reads declared variables, separated by commas. -/
def readDecls (base : CType) (isStatic : Bool) (ts : List Token) :
    Reading (List VarDecl) ts.length := do
  let ⟨d, ts₁, h₁⟩ ← readDeclarator base ts
  let ⟨init, ts₂, h₂⟩ ← readInit ts₁
  let decl : VarDecl := ⟨d.name, d.type, init, isStatic, d.location⟩
  match next? (.punct .comma) ts₂ with
  | none => return ⟨[decl], ts₂, by omega⟩
  | some ⟨_, ts₃, h₃⟩ =>
    let ⟨more, ts₄, h₄⟩ ← readDecls base isStatic ts₃
    return ⟨decl :: more, ts₄, by omega⟩
termination_by ts.length
where
  readInit (ts : List Token) : Reading (Option Initializer) (ts.length + 1) :=
    match next? (.punct .eq) ts with
    | none => .ok ⟨none, ts, by omega⟩
    | some ⟨_, ts₁, h₁⟩ => do
      let ⟨init, ts₂, h₂⟩ ← readInitializer ts₁
      return ⟨some init, ts₂, by omega⟩

/-- Reads a base type and the variables declared with it. -/
def readLocalDecls (ts : List Token) : Reading (List VarDecl) ts.length := do
  let ⟨(base, isStatic), ts₁, h₁⟩ ← readBase ts
  let ⟨decls, ts₂, h₂⟩ ← readDecls base isStatic ts₁
  return ⟨decls, ts₂, by omega⟩

/-! ### Statements -/

/-- A line in the body of a switch: the head of a case, or a statement. -/
inductive CaseLine where
  | head (location : Location) (value : Option Expr)
  | stmt (s : Stmt)

/-- Gathers statements under the case that they follow. Statements before the first case are
never reached and are left out. -/
def CaseLine.group (lines : List CaseLine) : List SwitchCase :=
  (lines.foldr step ([], [])).2
where
  step : CaseLine → List Stmt × List SwitchCase → List Stmt × List SwitchCase
    | .stmt s, (body, cases) => (s :: body, cases)
    | .head l v, (body, cases) => ([], (l, v, body) :: cases)

/-- Reads an expression, unless the next token ends its place. -/
def readOptionalExpr (closing : Punct) (ts : List Token) : Reading (Option Expr) (ts.length + 1) :=
  if nextIs (.punct closing) ts then .ok ⟨none, ts, by omega⟩
  else do
    let ⟨e, ts₁, h₁⟩ ← readExpr ts
    return ⟨some e, ts₁, by omega⟩

/-- Reads the first clause of a `for` with its semicolon. -/
def readForInit (ts : List Token) : Reading (Option Stmt) ts.length :=
  match next? (.punct .semicolon) ts with
  | some ⟨_, ts₁, h₁⟩ => .ok ⟨none, ts₁, h₁⟩
  | none => do
    let ⟨s, ts₁, h₁⟩ ← clause
    let ⟨_, ts₂, h₂⟩ ← expectPunct .semicolon "after for initializer" ts₁
    return ⟨some s, ts₂, by omega⟩
where
  clause : Reading Stmt ts.length := do
    if (peek ts).kind.startsType then
      let ⟨decls, ts₁, h₁⟩ ← readLocalDecls ts
      return ⟨.decl (here ts) decls, ts₁, h₁⟩
    else
      let ⟨e, ts₁, h₁⟩ ← readExpr ts
      return ⟨.expr (here ts) e, ts₁, h₁⟩

/-- Reads a condition in parentheses; `word` names the statement and `noun` the condition. -/
def readCondition (word noun : String) (ts : List Token) : Reading Expr ts.length := do
  let ⟨_, ts₁, h₁⟩ ← expectPunct .lparen ("after '" ++ word ++ "'") ts
  let ⟨cond, ts₂, h₂⟩ ← readExpr ts₁
  let ⟨_, ts₃, h₃⟩ ← expectPunct .rparen ("after " ++ noun) ts₂
  return ⟨cond, ts₃, by omega⟩

/-- Reads a label: a name and a colon. -/
def readLabel? (ts : List Token) : Option (Parsed String ts.length) := do
  let ⟨(name, _), ts₁, h₁⟩ ← nextAs? TokenKind.name? ts
  let ⟨_, ts₂, h₂⟩ ← next? (.punct .colon) ts₁
  return ⟨name, ts₂, by omega⟩

/-- Reads a statement that begins with none of the words that govern other statements. -/
def readPlainStmt (ts : List Token) : Reading Stmt ts.length := do
  match readLabel? ts with
  | some ⟨name, ts₁, h₁⟩ => return ⟨.label (here ts) name, ts₁, h₁⟩
  | none =>
    if (peek ts).kind.startsType then
      let ⟨decls, ts₁, h₁⟩ ← readLocalDecls ts
      let ⟨_, ts₂, h₂⟩ ← expectPunct .semicolon "after variable declaration" ts₁
      return ⟨.decl (here ts) decls, ts₂, by omega⟩
    else
      let ⟨e, ts₁, h₁⟩ ← readExpr ts
      let ⟨_, ts₂, h₂⟩ ← expectPunct .semicolon "after expression" ts₁
      return ⟨.expr (here ts) e, ts₂, by omega⟩

mutual

/-- Reads a statement. -/
def readStmt (ts : List Token) : Reading Stmt ts.length := do
  match nextAs? TokenKind.keyword? ts with
  | some ⟨(.return, t), ts₁, h₁⟩ =>
    let ⟨value, ts₂, h₂⟩ ← readOptionalExpr .semicolon ts₁
    let ⟨_, ts₃, h₃⟩ ← expectPunct .semicolon "after return" ts₂
    return ⟨.return t.location value, ts₃, by omega⟩
  | some ⟨(.if, t), ts₁, h₁⟩ =>
    let ⟨cond, ts₂, h₂⟩ ← readCondition "if" "if condition" ts₁
    let ⟨yes, ts₃, h₃⟩ ← readStmt ts₂
    match next? (.keyword .else) ts₃ with
    | none => return ⟨.ifThen t.location cond yes none, ts₃, by omega⟩
    | some ⟨_, ts₄, h₄⟩ =>
      let ⟨no, ts₅, h₅⟩ ← readStmt ts₄
      return ⟨.ifThen t.location cond yes (some no), ts₅, by omega⟩
  | some ⟨(.while, t), ts₁, h₁⟩ =>
    let ⟨cond, ts₂, h₂⟩ ← readCondition "while" "while condition" ts₁
    let ⟨body, ts₃, h₃⟩ ← readStmt ts₂
    return ⟨.whileDo t.location cond body, ts₃, by omega⟩
  | some ⟨(.do, t), ts₁, h₁⟩ =>
    let ⟨body, ts₂, h₂⟩ ← readStmt ts₁
    let ⟨_, ts₃, h₃⟩ ← expect (.keyword .while) "after do body" ts₂
    let ⟨cond, ts₄, h₄⟩ ← readCondition "while" "do-while condition" ts₃
    let ⟨_, ts₅, h₅⟩ ← expectPunct .semicolon "after do-while" ts₄
    return ⟨.doWhile t.location body cond, ts₅, by omega⟩
  | some ⟨(.for, t), ts₁, h₁⟩ =>
    let ⟨_, ts₂, h₂⟩ ← expectPunct .lparen "after 'for'" ts₁
    let ⟨init, ts₃, h₃⟩ ← readForInit ts₂
    let ⟨cond, ts₄, h₄⟩ ← readOptionalExpr .semicolon ts₃
    let ⟨_, ts₅, h₅⟩ ← expectPunct .semicolon "after for condition" ts₄
    let ⟨step, ts₆, h₆⟩ ← readOptionalExpr .rparen ts₅
    let ⟨_, ts₇, h₇⟩ ← expectPunct .rparen "after for clauses" ts₆
    let ⟨body, ts₈, h₈⟩ ← readStmt ts₇
    return ⟨.forDo t.location init cond step body, ts₈, by omega⟩
  | some ⟨(.switch, t), ts₁, h₁⟩ =>
    let ⟨cond, ts₂, h₂⟩ ← readCondition "switch" "switch expression" ts₁
    let ⟨_, ts₃, h₃⟩ ← expectPunct .lbrace "before switch body" ts₂
    let ⟨lines, ts₄, h₄⟩ ← readCaseLines ts₃
    let ⟨_, ts₅, h₅⟩ ← expectPunct .rbrace "after switch body" ts₄
    return ⟨.switch t.location cond (CaseLine.group lines), ts₅, by omega⟩
  | some ⟨(.break, t), ts₁, h₁⟩ =>
    let ⟨_, ts₂, h₂⟩ ← expectPunct .semicolon "after 'break'" ts₁
    return ⟨.break t.location, ts₂, by omega⟩
  | some ⟨(.continue, t), ts₁, h₁⟩ =>
    let ⟨_, ts₂, h₂⟩ ← expectPunct .semicolon "after 'continue'" ts₁
    return ⟨.continue t.location, ts₂, by omega⟩
  | some ⟨(.goto, t), ts₁, h₁⟩ =>
    let ⟨(label, _), ts₂, h₂⟩ ← expectName ts₁
    let ⟨_, ts₃, h₃⟩ ← expectPunct .semicolon "after 'goto'" ts₂
    return ⟨.goto t.location label, ts₃, by omega⟩
  | _ =>
    match next? (.punct .lbrace) ts with
    | some ⟨t, ts₁, h₁⟩ =>
      let ⟨body, ts₂, h₂⟩ ← readBlock ts₁
      let ⟨_, ts₃, h₃⟩ ← expectPunct .rbrace "after block" ts₂
      return ⟨.block t.location body, ts₃, by omega⟩
    | none =>
      match next? (.punct .semicolon) ts with
      | some ⟨t, ts₁, h₁⟩ => return ⟨.empty t.location, ts₁, h₁⟩
      | none => readPlainStmt ts
termination_by 2 * ts.length

/-- Reads statements up to a closing brace or the end. -/
def readBlock (ts : List Token) : Reading (List Stmt) (ts.length + 1) := do
  if nextIs (.punct .rbrace) ts || atEnd ts then return ⟨[], ts, by omega⟩
  else
    let ⟨s, ts₁, h₁⟩ ← readStmt ts
    let ⟨more, ts₂, h₂⟩ ← readBlock ts₁
    return ⟨s :: more, ts₂, by omega⟩
termination_by 2 * ts.length + 1

/-- Reads the lines of a switch body up to a closing brace or the end. -/
def readCaseLines (ts : List Token) : Reading (List CaseLine) (ts.length + 1) := do
  if nextIs (.punct .rbrace) ts || atEnd ts then return ⟨[], ts, by omega⟩
  else
    match nextAs? TokenKind.keyword? ts with
    | some ⟨(.case, t), ts₁, h₁⟩ =>
      let ⟨value, ts₂, h₂⟩ ← readTernary ts₁
      let ⟨_, ts₃, h₃⟩ ← expectPunct .colon "after case value" ts₂
      let ⟨more, ts₄, h₄⟩ ← readCaseLines ts₃
      return ⟨.head t.location (some value) :: more, ts₄, by omega⟩
    | some ⟨(.default, t), ts₁, h₁⟩ =>
      let ⟨_, ts₂, h₂⟩ ← expectPunct .colon "after 'default'" ts₁
      let ⟨more, ts₃, h₃⟩ ← readCaseLines ts₂
      return ⟨.head t.location none :: more, ts₃, by omega⟩
    | _ =>
      let ⟨s, ts₁, h₁⟩ ← readStmt ts
      let ⟨more, ts₂, h₂⟩ ← readCaseLines ts₁
      return ⟨.stmt s :: more, ts₂, by omega⟩
termination_by 2 * ts.length + 1

end

/-! ### Items -/

/-- Reads the fields declared with one base type. -/
def readFieldNames (base : CType) (ts : List Token) : Reading (List FieldDecl) ts.length := do
  let ⟨d, ts₁, h₁⟩ ← readDeclarator base ts
  let field : FieldDecl := ⟨d.name, d.type, d.location⟩
  match next? (.punct .comma) ts₁ with
  | none => return ⟨[field], ts₁, h₁⟩
  | some ⟨_, ts₂, h₂⟩ =>
    let ⟨more, ts₃, h₃⟩ ← readFieldNames base ts₂
    return ⟨field :: more, ts₃, by omega⟩
termination_by ts.length

/-- Reads the fields of a structure up to a closing brace or the end. -/
def readFields (ts : List Token) : Reading (List FieldDecl) (ts.length + 1) := do
  if nextIs (.punct .rbrace) ts || atEnd ts then return ⟨[], ts, by omega⟩
  else
    let ⟨(base, _), ts₁, h₁⟩ ← readBase ts
    let ⟨fields, ts₂, h₂⟩ ← readFieldNames base ts₁
    let ⟨_, ts₃, h₃⟩ ← expectPunct .semicolon "after struct field" ts₂
    let ⟨more, ts₄, h₄⟩ ← readFields ts₃
    return ⟨fields ++ more, ts₄, by omega⟩
termination_by ts.length

/-- Reads a structure after its first word, which stands at `location`. -/
def readStruct (location : Location) (ts : List Token) : Reading StructDecl ts.length := do
  let ⟨(name, _), ts₁, h₁⟩ ← expectName ts
  let ⟨_, ts₂, h₂⟩ ← expectPunct .lbrace "after struct name" ts₁
  let ⟨fields, ts₃, h₃⟩ ← readFields ts₂
  let ⟨_, ts₄, h₄⟩ ← expectPunct .rbrace "after struct fields" ts₃
  let ⟨_, ts₅, h₅⟩ ← expectPunct .semicolon "after struct definition" ts₄
  return ⟨⟨name, fields, location⟩, ts₅, by omega⟩

/-- Reads one parameter. Its name may be left out, and an array becomes a pointer. -/
def readParam (ts : List Token) : Reading Param ts.length := do
  let ⟨(base, _), ts₁, h₁⟩ ← readBase ts
  let ⟨type, ts₂, h₂⟩ := readStars false false base ts₁
  let ⟨name, ts₃, h₃⟩ := paramName ts₂
  let ⟨sizes, ts₄, h₄⟩ ← readSizes ts₃
  return ⟨⟨name, (type.withSizes sizes).decayed, here ts⟩, ts₄, by omega⟩
where
  paramName (ts : List Token) : Parsed (Option String) (ts.length + 1) :=
    match nextAs? TokenKind.name? ts with
    | some ⟨(name, _), rest, h⟩ => ⟨some name, rest, by omega⟩
    | none => ⟨none, ts, by omega⟩

/-- Reads parameters, separated by commas, and whether the list ends in an ellipsis. -/
def readParamTail (ts : List Token) : Reading (List Param × Bool) ts.length := do
  match next? (.punct .ellipsis) ts with
  | some ⟨_, ts₁, h₁⟩ => return ⟨([], true), ts₁, h₁⟩
  | none =>
    let ⟨p, ts₁, h₁⟩ ← readParam ts
    match next? (.punct .comma) ts₁ with
    | none => return ⟨([p], false), ts₁, h₁⟩
    | some ⟨_, ts₂, h₂⟩ =>
      let ⟨(more, variadic), ts₃, h₃⟩ ← readParamTail ts₂
      return ⟨(p :: more, variadic), ts₃, by omega⟩
termination_by ts.length

/-- Reads a parameter list up to its closing parenthesis. A lone `void` means no parameters. -/
def readParams (ts : List Token) : Reading (List Param × Bool) (ts.length + 1) := do
  if nextIs (.punct .rparen) ts then return ⟨([], false), ts, by omega⟩
  else
    match next? (.keyword .void) ts with
    | some ⟨_, ts₁, h₁⟩ =>
      if nextIs (.punct .rparen) ts₁ then return ⟨([], false), ts₁, by omega⟩ else tail
    | none => tail
where
  tail : Reading (List Param × Bool) (ts.length + 1) := do
    let ⟨params, ts₁, h₁⟩ ← readParamTail ts
    return ⟨params, ts₁, by omega⟩

/-- Reads a function after its name. -/
def readFunction (d : Declarator) (ts : List Token) : Reading FunctionDecl ts.length := do
  let ⟨_, ts₁, h₁⟩ ← expectPunct .lparen "after function name" ts
  let ⟨(params, variadic), ts₂, h₂⟩ ← readParams ts₁
  let ⟨_, ts₃, h₃⟩ ← expectPunct .rparen "after parameters" ts₂
  match next? (.punct .semicolon) ts₃ with
  | some ⟨t, ts₄, h₄⟩ =>
    return ⟨⟨d.name, d.type, params, variadic, none, d.location, t.location⟩, ts₄, by omega⟩
  | none =>
    let ⟨_, ts₄, h₄⟩ ← expectPunct .lbrace "before function body" ts₃
    let ⟨body, ts₅, h₅⟩ ← readBlock ts₄
    let ⟨t, ts₆, h₆⟩ ← expectPunct .rbrace "after function body" ts₅
    return ⟨⟨d.name, d.type, params, variadic, some body, d.location, t.location⟩, ts₆, by omega⟩

/-- Do the tokens define a structure? -/
def startsStruct : List Token → Bool
  | ⟨.keyword .struct, _, _⟩ :: ⟨.ident _, _, _⟩ :: ⟨.punct .lbrace, _, _⟩ :: _ => true
  | _ => false

/-- Reads a structure, a function, or global variables. -/
def readItem (ts : List Token) : Reading (List Item) ts.length := do
  if startsStruct ts then
    let ⟨t, ts₁, h₁⟩ ← expect (.keyword .struct) "" ts
    let ⟨s, ts₂, h₂⟩ ← readStruct t.location ts₁
    return ⟨[.struct s], ts₂, by omega⟩
  else
    let ⟨(base, isStatic), ts₁, h₁⟩ ← readBase ts
    let ⟨d, ts₂, h₂⟩ ← readDeclarator base ts₁
    if nextIs (.punct .lparen) ts₂ then
      let ⟨f, ts₃, h₃⟩ ← readFunction d ts₂
      return ⟨[.function f], ts₃, by omega⟩
    else
      let ⟨decls, ts₃, h₃⟩ ← readDecls base isStatic ts₁
      let ⟨_, ts₄, h₄⟩ ← expectPunct .semicolon "after global declaration" ts₃
      return ⟨decls.map .global, ts₄, by omega⟩

/-- Reads all items up to the end; semicolons between them are passed. -/
def readItems (ts : List Token) : Except ParseError (List Item) := do
  if atEnd ts then return []
  else
    match next? (.punct .semicolon) ts with
    | some ⟨_, ts₁, _h⟩ => readItems ts₁
    | none =>
      let ⟨items, ts₁, _h⟩ ← readItem ts
      let more ← readItems ts₁
      return items ++ more
termination_by ts.length

/-- Reads a source text. -/
def SourceUnit.ofText (source : String) : Except ParseError SourceUnit :=
  match tokenize source with
  | .error e => .error (.ofLexError e)
  | .ok lexed => do return ⟨← readItems lexed.tokens, lexed.expansions⟩

end PathScout

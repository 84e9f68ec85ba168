import PathScout.Tree.Reader

/-!
# Readers as scripts

A reader of `PathScout.Tree.Reader` returns tokens of which it carries a proof that there are fewer, so that it
ends by its type. Here each reader is written once more as a *script*: what it does to one list of tokens with
a cursor in it, one action after another. A script may look ahead, take the token at the cursor and call another
reader. Nothing in a script says that it ends, and nothing but `advance` moves the cursor.

* `advance`: the tokens after the one at the head, which stay as they are at the end of the file.
* `Reader`, `Reader.Out`: the readers, with what they are told and what they give.
* `Script`: a sequence of actions that gives a value or a fault.
* `Script.of`: what each reader does. A loop is a reader that calls itself for its next turn.
-/

namespace PathScout

/-- The tokens after the one at the head. Nothing is taken at the end of the file. -/
def advance (ts : List Token) : List Token := if atEnd ts then ts else ts.tail

/-- The readers, with what they are told. -/
inductive Reader where
  | qualifiers (isStatic : Bool)
  | consts
  | base
  | stars (qualified afterStar : Bool) (type : CType)
  | strings (content : String) (last : Location)
  | expr
  | ternary
  | binary (level : Nat)
  | binaryTail (level : Nat) (left : Expr)
  | cast
  | unary
  | operand
  | operandTail (e : Expr)
  | args
  | moreArgs
  | primary
  | type
  | sizes
  | declarator (base : CType)
  | initializer
  | initializers
  | init
  | declsFrom (base : CType) (isStatic : Bool) (d : Declarator)
  | localDecls
  | optionalExpr (closing : Punct)
  | forInit
  | condition (word noun : String)
  | plainStmt
  | stmt
  | block
  | caseLines
  | fieldNames (base : CType)
  | fields
  | struct (location : Location)
  | param
  | paramTail
  | params
  | function (d : Declarator)
  | item
  | items

/-- What a reader gives. -/
@[reducible] def Reader.Out : Reader → Type
  | qualifiers _ => Bool
  | consts => Unit
  | base => CType × Bool
  | stars .. | type => CType
  | strings .. => String × Location
  | expr | ternary | binary _ | binaryTail .. | cast | unary | operand | operandTail _ | primary => Expr
  | args | moreArgs => List Expr
  | sizes => List (Option Nat)
  | declarator _ => Declarator
  | initializer => Initializer
  | initializers => List Initializer
  | init => Option Initializer
  | declsFrom .. | localDecls => List VarDecl
  | optionalExpr _ => Option Expr
  | forInit => Option Stmt
  | condition .. => Expr
  | plainStmt | stmt => Stmt
  | block => List Stmt
  | caseLines => List CaseLine
  | fieldNames _ | fields => List FieldDecl
  | struct _ => StructDecl
  | param => Param
  | paramTail | params => List Param × Bool
  | function _ => FunctionDecl
  | item | items => List Item

/-- A sequence of actions on the tokens from the cursor on: give a value, give up, look at the token some
places ahead, take the token at the cursor, or call a reader. -/
inductive Script (α : Type) where
  | done (a : α)
  | fail (e : ParseError)
  | look (ahead : Nat) (next : Token → Script α)
  | take (next : Token → Script α)
  | call (r : Reader) (next : r.Out → Script α)

namespace Script

variable {α β : Type}

/-- One script after another. -/
def bind : Script α → (α → Script β) → Script β
  | done a, k => k a
  | fail e, _ => fail e
  | look n next, k => look n fun t => (next t).bind k
  | take next, k => take fun t => (next t).bind k
  | call r next, k => call r fun b => (next b).bind k

instance : Monad Script where
  pure := done
  bind := bind

/-- The result of a reader. -/
def ask (r : Reader) : Script r.Out := call r done

/-- The token some places ahead. -/
def peekAt (ahead : Nat) : Script Token := look ahead done

/-- Takes the next token. -/
def skip : Script Token := take done

/-- Takes the next token, if `f` accepts its kind. -/
def acceptAs (f : TokenKind → Option α) : Script (Option (α × Token)) :=
  look 0 fun t =>
    match f t.kind with
    | some a => take fun t => done (some (a, t))
    | none => done none

/-- Takes the next token, if it is of the given kind. -/
def accept (kind : TokenKind) : Script (Option Token) :=
  look 0 fun t => if t.kind = kind then take fun t => done (some t) else done none

/-- Gives up, since something else was expected here. -/
def reject (what : String) : Script α := look 0 fun t => fail ⟨.expected what t.kind, t.location⟩

/-- Takes the given reserved word or punctuator; `context` says where it belongs. -/
def require (kind : TokenKind) (context : String) : Script Token := do
  match ← accept kind with
  | some t => return t
  | none => reject (kind.describe ++ " " ++ context)

/-- Takes an identifier. -/
def requireName : Script (String × Token) := do
  match ← acceptAs TokenKind.name? with
  | some p => return p
  | none => reject "identifier"

/-- Do a parenthesis and a type come next? -/
def peekTypeInParens : Script Bool := do
  return (← peekAt 0).kind == .punct .lparen && (← peekAt 1).kind.startsType

/-- Is this the end of what stands in braces? -/
def peekBodyEnd : Script Bool := do
  let t ← peekAt 0
  return t.kind == .punct .rbrace || t.kind == .eof

/-- What a reader does. -/
def of : (r : Reader) → Script r.Out
  | .qualifiers isStatic => do
    match ← accept (.keyword .static) with
    | some _ => ask (.qualifiers true)
    | none =>
      match ← accept (.keyword .const) with
      | some _ => ask (.qualifiers isStatic)
      | none => return isStatic
  | .consts => do
    match ← accept (.keyword .const) with
    | some _ => ask .consts
    | none => return ()
  | .base => do
    let isStatic ← ask (.qualifiers false)
    match ← acceptAs TokenKind.plainType? with
    | some (type, _) =>
      let _ ← ask .consts
      return (type, isStatic)
    | none =>
      match ← accept (.keyword .struct) with
      | some _ =>
        let (name, _) ← requireName
        let _ ← ask .consts
        return (.struct name, isStatic)
      | none => reject "type"
  | .stars qualified afterStar type => do
    match ← accept (.punct .star) with
    | some _ => ask (.stars qualified true (.pointer type))
    | none =>
      if qualified ∧ afterStar then
        match ← accept (.keyword .const) with
        | some _ => ask (.stars qualified true type)
        | none => return type
      else return type
  | .strings content last => do
    match ← acceptAs TokenKind.content? with
    | some (more, t) => ask (.strings (content ++ more) t.last)
    | none => return (content, last)
  -- Expressions, from the loosest operators to the tightest.
  | .expr => do
    let target ← ask .ternary
    match ← acceptAs assignment? with
    | none => return target
    | some (op, _) =>
      let value ← ask .expr
      return .assign ⟨target.span.first, value.span.last⟩ op target value
  | .ternary => do
    let cond ← ask (.binary 1)
    match ← accept (.punct .question) with
    | none => return cond
    | some _ =>
      let yes ← ask .expr
      let _ ← require (.punct .colon) "in ternary expression"
      let no ← ask .ternary
      return .conditional ⟨cond.span.first, no.span.last⟩ cond yes no
  | .binary level => do
    let left ← ask .cast
    ask (.binaryTail level left)
  | .binaryTail level left => do
    match ← acceptAs (BinarySymbol.atLeast? level) with
    | none => return left
    | some ((level', op), _) =>
      let right ← ask (.binary (level' + 1))
      ask (.binaryTail level (op.apply left right))
  | .cast => do
    if ← peekTypeInParens then
      let t ← skip
      let type ← ask .type
      let _ ← require (.punct .rparen) "after cast type"
      let e ← ask .cast
      return .cast ⟨t.location, e.span.last⟩ type e
    else ask .unary
  | .unary => do
    match ← acceptAs UnaryOp.before? with
    | some (op, t) =>
      let e ← ask .cast
      return .unary ⟨t.location, e.span.last⟩ op e
    | none =>
      match ← accept (.punct .plus) with
      | some _ => ask .cast
      | none =>
        match ← accept (.keyword .sizeof) with
        | some t =>
          if ← peekTypeInParens then
            let _ ← skip
            let type ← ask .type
            let close ← require (.punct .rparen) "after sizeof type"
            return .sizeofType ⟨t.location, close.last⟩ type
          else
            let e ← ask .unary
            return .sizeofExpr ⟨t.location, e.span.last⟩ e
        | none => ask .operand
  | .operand => do
    let e ← ask .primary
    ask (.operandTail e)
  | .operandTail e => do
    match ← accept (.punct .lbracket) with
    | some _ =>
      let i ← ask .expr
      let close ← require (.punct .rbracket) "after index"
      ask (.operandTail (.index ⟨e.span.first, close.last⟩ e i))
    | none =>
      match ← acceptAs selection? with
      | some (arrow, _) =>
        let (field, t) ← requireName
        ask (.operandTail (.member ⟨e.span.first, t.last⟩ e field arrow))
      | none =>
        let t ← peekAt 0
        match ← accept (.punct .lparen) with
        | some _ =>
          match e with
          | .ident span callee =>
            let args ← ask .args
            let close ← require (.punct .rparen) "after arguments"
            ask (.operandTail (.call ⟨span.first, close.last⟩ callee args))
          | _ => fail ⟨.calleeNotNamed t.kind, t.location⟩
        | none =>
          match ← acceptAs UnaryOp.after? with
          | some (op, t) => ask (.operandTail (.unary ⟨e.span.first, t.last⟩ op e))
          | none => return e
  | .args => do
    if (← peekAt 0).kind = .punct .rparen then return []
    else
      let e ← ask .expr
      let es ← ask .moreArgs
      return e :: es
  | .moreArgs => do
    match ← accept (.punct .comma) with
    | none => return []
    | some _ =>
      let e ← ask .expr
      let es ← ask .moreArgs
      return e :: es
  | .primary => do
    let t ← peekAt 0
    match ← acceptAs (atom? ⟨t.location, t.last⟩) with
    | some (e, _) => return e
    | none =>
      match ← acceptAs TokenKind.content? with
      | some (content, t) =>
        let (content, last) ← ask (.strings content t.last)
        return .string ⟨t.location, last⟩ content
      | none =>
        match ← accept (.punct .lparen) with
        | some t =>
          let e ← ask .expr
          let close ← require (.punct .rparen) "after parenthesized expression"
          return e.withSpan ⟨t.location, close.last⟩
        | none => reject "expression"
  | .type => do
    let (base, _) ← ask .base
    let type ← ask (.stars true false base)
    let sizes ← ask .sizes
    return type.withSizes sizes
  | .sizes => do
    match ← accept (.punct .lbracket) with
    | none => return []
    | some _ =>
      match ← accept (.punct .rbracket) with
      | some _ =>
        let more ← ask .sizes
        return none :: more
      | none =>
        let e ← ask .expr
        match e.constant?.filter (0 ≤ ·) with
        | none => fail ⟨.sizeNotConstant, e.location⟩
        | some n =>
          let _ ← require (.punct .rbracket) "after array size"
          let more ← ask .sizes
          return some n.toNat :: more
  -- Declarations.
  | .declarator base => do
    let type ← ask (.stars true false base)
    let (name, t) ← requireName
    let sizes ← ask .sizes
    return ⟨name, type.withSizes sizes, t.location⟩
  | .initializer => do
    match ← accept (.punct .lbrace) with
    | some t =>
      let elements ← ask .initializers
      let _ ← require (.punct .rbrace) "after initializer list"
      return .list t.location elements
    | none =>
      let e ← ask .expr
      return .expr e
  | .initializers => do
    if (← peekAt 0).kind = .punct .rbrace then return []
    else
      let first ← ask .initializer
      match ← accept (.punct .comma) with
      | none => return [first]
      | some _ =>
        let more ← ask .initializers
        return first :: more
  | .init => do
    match ← accept (.punct .eq) with
    | none => return none
    | some _ =>
      let first ← ask .initializer
      return some first
  | .declsFrom base isStatic d => do
    let first ← ask .init
    let decl : VarDecl := ⟨d.name, d.type, first, isStatic, d.location⟩
    match ← accept (.punct .comma) with
    | none => return [decl]
    | some _ =>
      let d' ← ask (.declarator base)
      let more ← ask (.declsFrom base isStatic d')
      return decl :: more
  | .localDecls => do
    let (base, isStatic) ← ask .base
    let d ← ask (.declarator base)
    ask (.declsFrom base isStatic d)
  -- Statements.
  | .optionalExpr closing => do
    if (← peekAt 0).kind = .punct closing then return none
    else
      let e ← ask .expr
      return some e
  | .forInit => do
    match ← accept (.punct .semicolon) with
    | some _ => return none
    | none =>
      let t ← peekAt 0
      if t.kind.startsType then
        let decls ← ask .localDecls
        let _ ← require (.punct .semicolon) "after for initializer"
        return some (.decl t.location decls)
      else
        let e ← ask .expr
        let _ ← require (.punct .semicolon) "after for initializer"
        return some (.expr t.location e)
  | .condition word noun => do
    let _ ← require (.punct .lparen) ("after '" ++ word ++ "'")
    let cond ← ask .expr
    let _ ← require (.punct .rparen) ("after " ++ noun)
    return cond
  | .plainStmt => do
    let t ← peekAt 0
    if t.kind.name?.isSome ∧ (← peekAt 1).kind = .punct .colon then
      let (name, _) ← requireName
      let _ ← skip
      return .label t.location name
    else if t.kind.startsType then
      let decls ← ask .localDecls
      let _ ← require (.punct .semicolon) "after variable declaration"
      return .decl t.location decls
    else
      let e ← ask .expr
      let _ ← require (.punct .semicolon) "after expression"
      return .expr t.location e
  | .stmt => do
    let t ← peekAt 0
    match t.kind with
    | .keyword .return =>
      let _ ← skip
      let value ← ask (.optionalExpr .semicolon)
      let _ ← require (.punct .semicolon) "after return"
      return .return t.location value
    | .keyword .if =>
      let _ ← skip
      let cond ← ask (.condition "if" "if condition")
      let yes ← ask .stmt
      match ← accept (.keyword .else) with
      | none => return .ifThen t.location cond yes none
      | some _ =>
        let no ← ask .stmt
        return .ifThen t.location cond yes (some no)
    | .keyword .while =>
      let _ ← skip
      let cond ← ask (.condition "while" "while condition")
      let body ← ask .stmt
      return .whileDo t.location cond body
    | .keyword .do =>
      let _ ← skip
      let body ← ask .stmt
      let _ ← require (.keyword .while) "after do body"
      let cond ← ask (.condition "while" "do-while condition")
      let _ ← require (.punct .semicolon) "after do-while"
      return .doWhile t.location body cond
    | .keyword .for =>
      let _ ← skip
      let _ ← require (.punct .lparen) "after 'for'"
      let init ← ask .forInit
      let cond ← ask (.optionalExpr .semicolon)
      let _ ← require (.punct .semicolon) "after for condition"
      let step ← ask (.optionalExpr .rparen)
      let _ ← require (.punct .rparen) "after for clauses"
      let body ← ask .stmt
      return .forDo t.location init cond step body
    | .keyword .switch =>
      let _ ← skip
      let cond ← ask (.condition "switch" "switch expression")
      let _ ← require (.punct .lbrace) "before switch body"
      let lines ← ask .caseLines
      let _ ← require (.punct .rbrace) "after switch body"
      return .switch t.location cond (CaseLine.group lines)
    | .keyword .break =>
      let _ ← skip
      let _ ← require (.punct .semicolon) "after 'break'"
      return .break t.location
    | .keyword .continue =>
      let _ ← skip
      let _ ← require (.punct .semicolon) "after 'continue'"
      return .continue t.location
    | .keyword .goto =>
      let _ ← skip
      let (label, _) ← requireName
      let _ ← require (.punct .semicolon) "after 'goto'"
      return .goto t.location label
    | .punct .lbrace =>
      let _ ← skip
      let body ← ask .block
      let _ ← require (.punct .rbrace) "after block"
      return .block t.location body
    | .punct .semicolon =>
      let _ ← skip
      return .empty t.location
    | _ => ask .plainStmt
  | .block => do
    if ← peekBodyEnd then return []
    else
      let s ← ask .stmt
      let more ← ask .block
      return s :: more
  | .caseLines => do
    if ← peekBodyEnd then return []
    else
      match ← accept (.keyword .case) with
      | some t =>
        let value ← ask .ternary
        let _ ← require (.punct .colon) "after case value"
        let more ← ask .caseLines
        return .head t.location (some value) :: more
      | none =>
        match ← accept (.keyword .default) with
        | some t =>
          let _ ← require (.punct .colon) "after 'default'"
          let more ← ask .caseLines
          return .head t.location none :: more
        | none =>
          let s ← ask .stmt
          let more ← ask .caseLines
          return .stmt s :: more
  -- Items.
  | .fieldNames base => do
    let d ← ask (.declarator base)
    let field : FieldDecl := ⟨d.name, d.type, d.location⟩
    match ← accept (.punct .comma) with
    | none => return [field]
    | some _ =>
      let more ← ask (.fieldNames base)
      return field :: more
  | .fields => do
    if ← peekBodyEnd then return []
    else
      let (base, _) ← ask .base
      let first ← ask (.fieldNames base)
      let _ ← require (.punct .semicolon) "after struct field"
      let more ← ask .fields
      return first ++ more
  | .struct location => do
    let (name, _) ← requireName
    let _ ← require (.punct .lbrace) "after struct name"
    let fields ← ask .fields
    let _ ← require (.punct .rbrace) "after struct fields"
    let _ ← require (.punct .semicolon) "after struct definition"
    return ⟨name, fields, location⟩
  | .param => do
    let t ← peekAt 0
    let (base, _) ← ask .base
    let type ← ask (.stars false false base)
    let name ← acceptAs TokenKind.name?
    let sizes ← ask .sizes
    return ⟨name.map (·.1), (type.withSizes sizes).decayed, t.location⟩
  | .paramTail => do
    match ← accept (.punct .ellipsis) with
    | some _ => return ([], true)
    | none =>
      let p ← ask .param
      match ← accept (.punct .comma) with
      | none => return ([p], false)
      | some _ =>
        let (more, variadic) ← ask .paramTail
        return (p :: more, variadic)
  | .params => do
    let t ← peekAt 0
    if t.kind = .punct .rparen then return ([], false)
    else if t.kind = .keyword .void ∧ (← peekAt 1).kind = .punct .rparen then
      let _ ← skip
      return ([], false)
    else ask .paramTail
  | .function d => do
    let _ ← require (.punct .lparen) "after function name"
    let (params, variadic) ← ask .params
    let _ ← require (.punct .rparen) "after parameters"
    match ← accept (.punct .semicolon) with
    | some t => return ⟨d.name, d.type, params, variadic, none, d.location, t.location⟩
    | none =>
      let _ ← require (.punct .lbrace) "before function body"
      let body ← ask .block
      let t ← require (.punct .rbrace) "after function body"
      return ⟨d.name, d.type, params, variadic, some body, d.location, t.location⟩
  | .item => do
    let t ← peekAt 0
    if t.kind = .keyword .struct ∧ (← peekAt 1).kind.name?.isSome ∧
        (← peekAt 2).kind = .punct .lbrace then
      let _ ← skip
      let s ← ask (.struct t.location)
      return [.struct s]
    else
      let (base, isStatic) ← ask .base
      let d ← ask (.declarator base)
      if (← peekAt 0).kind = .punct .lparen then
        let f ← ask (.function d)
        return [.function f]
      else
        let decls ← ask (.declsFrom base isStatic d)
        let _ ← require (.punct .semicolon) "after global declaration"
        return decls.map .global
  | .items => do
    if (← peekAt 0).kind = .eof then return []
    else
      match ← accept (.punct .semicolon) with
      | some _ => ask .items
      | none =>
        let first ← ask .item
        let more ← ask .items
        return first ++ more

end Script

end PathScout

import PathScout.Proofs.ReaderRuns

/-!
# Scripts and readers agree

The readers of `PathScout.Tree.Reader` solve the equations that the scripts stand for, and since scripts
end, these have one solution.

* `readerOf`: the reader of the library that a script describes.
* `Script.eval`: a script, if its calls are answered by these readers.
* `Script.readerOf_eq_eval`: every reader is what its script does.
* `Script.Closed`: tokens that end with the end of the file.
* `Script.readers_end`: every reader ends on any tokens, its cursor stays within them and only moves on, and a
  loop takes a token in each turn that is not its last.
-/

namespace PathScout

open List

open Script (Outcome)

/-- A value with the tokens left. -/
def Parsed.pair {α : Type} {n : Nat} (p : Parsed α n) : α × List Token := (p.value, p.rest)

/-- The outcome of a reader, without the bound. -/
def outcome {α : Type} {n : Nat} (x : Reading α n) : Outcome α := x.map Parsed.pair

/-- Reads the variables after the first declarator. -/
def readDeclsFrom (base : CType) (isStatic : Bool) (d : Declarator) (ts : List Token) :
    Outcome (List VarDecl) :=
  (outcome (readDecls.readInit ts)).bind fun (init, ts₁) =>
    let decl : VarDecl := ⟨d.name, d.type, init, isStatic, d.location⟩
    match next? (.punct .comma) ts₁ with
    | none => .ok ([decl], ts₁)
    | some ⟨_, ts₂, _⟩ =>
      (outcome (readDecls base isStatic ts₂)).bind fun (more, ts₃) => .ok (decl :: more, ts₃)

/-- What is left after all items. -/
def afterItems (ts : List Token) : List Token :=
  if atEnd ts then ts
  else
    match next? (.punct .semicolon) ts with
    | some ⟨_, ts₁, _⟩ => afterItems ts₁
    | none =>
      match readItem ts with
      | .ok ⟨_, ts₁, _⟩ => afterItems ts₁
      | .error _ => ts
termination_by ts.length

/-- The reader of the library that a script describes. -/
def readerOf : (r : Reader) → List Token → Outcome r.Out
  | .qualifiers isStatic, ts => .ok (readQualifiers isStatic ts).pair
  | .consts, ts => .ok (skipConst ts).pair
  | .base, ts => outcome (readBase ts)
  | .stars qualified afterStar type, ts => .ok (readStars qualified afterStar type ts).pair
  | .strings content last, ts => .ok (readStrings content last ts).pair
  | .expr, ts => outcome (readExpr ts)
  | .ternary, ts => outcome (readTernary ts)
  | .binary level, ts => outcome (readBinary level ts)
  | .binaryTail level left, ts => outcome (readBinaryTail level left ts)
  | .cast, ts => outcome (readCast ts)
  | .unary, ts => outcome (readUnary ts)
  | .operand, ts => outcome (readPostfix ts)
  | .operandTail e, ts => outcome (readPostfixTail e ts)
  | .args, ts => outcome (readArgs ts)
  | .moreArgs, ts => outcome (readMoreArgs ts)
  | .primary, ts => outcome (readPrimary ts)
  | .type, ts => outcome (readType ts)
  | .sizes, ts => outcome (readSizes ts)
  | .declarator base, ts => outcome (readDeclarator base ts)
  | .initializer, ts => outcome (readInitializer ts)
  | .initializers, ts => outcome (readInitializers ts)
  | .init, ts => outcome (readDecls.readInit ts)
  | .declsFrom base isStatic d, ts => readDeclsFrom base isStatic d ts
  | .localDecls, ts => outcome (readLocalDecls ts)
  | .optionalExpr closing, ts => outcome (readOptionalExpr closing ts)
  | .forInit, ts => outcome (readForInit ts)
  | .condition word noun, ts => outcome (readCondition word noun ts)
  | .plainStmt, ts => outcome (readPlainStmt ts)
  | .stmt, ts => outcome (readStmt ts)
  | .block, ts => outcome (readBlock ts)
  | .caseLines, ts => outcome (readCaseLines ts)
  | .fieldNames base, ts => outcome (readFieldNames base ts)
  | .fields, ts => outcome (readFields ts)
  | .struct location, ts => outcome (readStruct location ts)
  | .param, ts => outcome (readParam ts)
  | .paramTail, ts => outcome (readParamTail ts)
  | .params, ts => outcome (readParams ts)
  | .function d, ts => outcome (readFunction d ts)
  | .item, ts => outcome (readItem ts)
  | .items, ts => (readItems ts).map fun items => (items, afterItems ts)

namespace Script

variable {α β γ : Type} {m n : Nat} {ts : List Token} {kind : TokenKind} {context : String}

/-- What a script does, if its calls are answered by the readers of the library. -/
def eval : Script α → List Token → Except ParseError (α × List Token)
  | .done a, ts => .ok (a, ts)
  | .fail e, _ => .error e
  | .look n next, ts => (next (peek (ts.drop n))).eval ts
  | .take next, ts => (next (peek ts)).eval (advance ts)
  | .call r next, ts => (readerOf r ts).bind fun p => (next p.1).eval p.2

/-! ### The actions of a script -/

theorem eval_bind {s : Script α} {k : α → Script β} :
    (s >>= k).eval ts = (s.eval ts).bind fun p => (k p.1).eval p.2 := by
  change (s.bind k).eval ts = _
  induction s generalizing ts with
  | done a => rfl
  | fail e => rfl
  | look n next ih => exact ih _
  | take next ih => exact ih _
  | call r next ih =>
    simp only [Script.bind, eval]
    cases readerOf r ts with
    | error e => rfl
    | ok p => exact ih p.1

attribute [local simp] eval of readerOf

theorem eval_ask (r : Reader) : (ask r).eval ts = readerOf r ts := by
  rw [ask, eval]
  cases readerOf r ts <;> rfl

theorem eval_peekAt_bind (ahead : Nat) {k : Token → Script α} :
    (peekAt ahead >>= k).eval ts = (k (peek (ts.drop ahead))).eval ts := rfl

theorem eval_skip_bind {k : Token → Script α} :
    (skip >>= k).eval ts = (k (peek ts)).eval (advance ts) := rfl

theorem eval_acceptAs_bind {f : TokenKind → Option γ} (hf : f .eof = none)
    {k : Option (γ × Token) → Script α} :
    (acceptAs f >>= k).eval ts = match nextAs? f ts with
      | none => (k none).eval ts
      | some p => (k (some p.value)).eval p.rest := by
  rw [eval_bind, acceptAs, eval, drop_zero]
  cases ts with
  | nil => simp [peek, hf, nextAs?, eval, Except.bind]
  | cons t rest =>
    rw [peek_cons, nextAs?]
    cases hc : f t.kind with
    | none => rfl
    | some c =>
      have ht : t.kind ≠ .eof := fun ht => by simp [ht, hf] at hc
      simp [eval, Except.bind, peek_cons, advance_cons rest ht]

theorem eval_accept_bind (hk : kind ≠ .eof) {k : Option Token → Script α} :
    (accept kind >>= k).eval ts = match next? kind ts with
      | none => (k none).eval ts
      | some p => (k (some p.value)).eval p.rest := by
  rw [eval_bind, accept, eval, drop_zero]
  cases ts with
  | nil => simp [peek, hk.symm, next?, eval, Except.bind]
  | cons t rest =>
    rw [peek_cons, next?]
    by_cases ht : t.kind = kind
    · simp [ht, eval, Except.bind, peek_cons, advance_cons rest (ht ▸ hk)]
    · simp [ht, eval, Except.bind]

theorem nextIs_iff : nextIs kind ts = true ↔ (peek ts).kind = kind := beq_iff_eq

/-! ### Rows of actions -/

theorem outcome_bind {x : Reading α n} {f : Parsed α n → Reading β m}
    {g : α × List Token → Outcome β} (h : ∀ a left hleft, outcome (f ⟨a, left, hleft⟩) = g (a, left)) :
    outcome (x >>= f) = (outcome x).bind g := by
  cases x with
  | error e => rfl
  | ok p => exact h p.value p.rest p.bound

/-- A call, answered by a reader of the library. -/
theorem eval_ask_bind (r : Reader) {x : Reading r.Out n} {f : Parsed r.Out n → Reading β m}
    {k : r.Out → Script β} (hr : readerOf r ts = outcome x)
    (hk : ∀ b left h, outcome (f ⟨b, left, h⟩) = (k b).eval left) :
    outcome (x >>= f) = (ask r >>= k).eval ts := by
  rw [eval_bind, eval_ask, hr]
  exact outcome_bind hk

/-- A call, answered by a reader of the library that does not fail. -/
theorem eval_ask_pair (r : Reader) {p : Parsed r.Out n} {x : Reading β m} {k : r.Out → Script β}
    (hr : readerOf r ts = .ok p.pair) (hk : outcome x = (k p.value).eval p.rest) :
    outcome x = (ask r >>= k).eval ts := by
  rw [eval_bind, ask, eval, hr]
  exact hk

/-- The last call of a script. -/
theorem eval_ask_last (r : Reader) {x : Reading r.Out n} {f : Parsed r.Out n → Reading r.Out m}
    (hr : readerOf r ts = outcome x) (hf : ∀ b left h, outcome (f ⟨b, left, h⟩) = .ok (b, left)) :
    outcome (x >>= f) = (ask r).eval ts := by
  rw [eval_ask, hr]
  cases x with
  | error e => rfl
  | ok p => exact hf p.value p.rest p.bound

/-- A token that must come next. -/
theorem eval_require_bind (hk : kind ≠ .eof) {f : Parsed Token ts.length → Reading β m}
    {k : Token → Script β} (h : ∀ t left h, outcome (f ⟨t, left, h⟩) = (k t).eval left) :
    outcome (expect kind context ts >>= f) = (require kind context >>= k).eval ts := by
  rw [eval_bind, require, eval_accept_bind hk, expect]
  cases next? kind ts with
  | none => rfl
  | some p => exact h p.value p.rest p.bound

/-- A token that does come next. -/
theorem eval_skip_expect_bind (hk : kind ≠ .eof) (hts : (peek ts).kind = kind)
    {f : Parsed Token ts.length → Reading β m} {k : Token → Script β}
    (h : ∀ left h, outcome (f ⟨peek ts, left, h⟩) = (k (peek ts)).eval left) :
    outcome (expect kind context ts >>= f) = (skip >>= k).eval ts := by
  rw [eval_skip_bind]
  cases ts with
  | nil => exact absurd hts.symm hk
  | cons t rest =>
    rw [peek_cons] at hts
    rw [peek_cons, advance_cons rest (hts ▸ hk), expect, next?, if_pos hts]
    exact h rest _

/-- A name that must come next. -/
theorem eval_requireName_bind {f : Parsed (String × Token) ts.length → Reading β m}
    {k : String × Token → Script β} (h : ∀ p left h, outcome (f ⟨p, left, h⟩) = (k p).eval left) :
    outcome (expectName ts >>= f) = (requireName >>= k).eval ts := by
  rw [eval_bind, requireName, eval_acceptAs_bind rfl, expectName]
  cases nextAs? TokenKind.name? ts with
  | none => rfl
  | some p => exact h p.value p.rest p.bound

/-! ### Types -/

theorem eval_qualifiers (isStatic : Bool) :
    .ok (readQualifiers isStatic ts).pair = (of (.qualifiers isStatic)).eval ts := by
  rw [of, eval_accept_bind (by simp)]
  cases ts with
  | nil => rfl
  | cons t rest =>
    rw [readQualifiers, next?]
    by_cases hs : t.kind = .keyword .static
    · simp only [hs, true_or, if_true, beq_self_eq_true, Bool.or_true]
      rw [eval_ask]
      rfl
    · have hs' : (t.kind == .keyword .static) = false := by simpa using hs
      simp only [hs, hs', false_or, Bool.or_false, if_false]
      rw [eval_accept_bind (by simp), next?]
      by_cases hc : t.kind = .keyword .const
      · simp only [hc, if_true]
        rw [eval_ask]
        rfl
      · simp only [hc, if_false]
        rfl

theorem eval_consts : .ok (skipConst ts).pair = (of .consts).eval ts := by
  rw [of, eval_accept_bind (by simp)]
  cases ts with
  | nil => rfl
  | cons t rest =>
    rw [skipConst, next?]
    by_cases hc : t.kind = .keyword .const
    · simp only [hc, if_true]
      rw [eval_ask]
      rfl
    · simp only [hc, if_false]
      rfl

theorem eval_stars (qualified afterStar : Bool) (type : CType) :
    .ok (readStars qualified afterStar type ts).pair = (of (.stars qualified afterStar type)).eval ts := by
  rw [of, eval_accept_bind (by simp)]
  cases ts with
  | nil =>
    rw [readStars, next?]
    by_cases hq : qualified ∧ afterStar
    · simp only [hq, and_self, if_true]
      rfl
    · simp only [hq, if_false]
      rfl
  | cons t rest =>
    rw [readStars, next?]
    by_cases hs : t.kind = .punct .star
    · simp only [hs, if_true]
      rw [eval_ask]
      rfl
    · simp only [hs, if_false, ← and_assoc]
      by_cases hq : qualified ∧ afterStar
      · simp only [if_pos hq]
        rw [eval_accept_bind (by simp), next?]
        by_cases hc : t.kind = .keyword .const
        · rw [if_pos ⟨hq, hc⟩]
          simp only [hc, if_true]
          rw [eval_ask]
          rfl
        · simp only [hc, and_false, if_false]
          rfl
      · simp only [hq, false_and, if_false]
        rfl

theorem eval_strings (content : String) (last : Location) :
    .ok (readStrings content last ts).pair = (of (.strings content last)).eval ts := by
  rw [of, eval_acceptAs_bind rfl]
  cases ts with
  | nil => rfl
  | cons t rest =>
    rw [readStrings, nextAs?]
    cases t.kind.content? with
    | none => rfl
    | some more =>
      dsimp only [Option.map_some]
      rw [eval_ask]
      rfl

theorem eval_base : outcome (readBase ts) = (of .base).eval ts := by
  rw [readBase, of]
  refine eval_ask_pair (.qualifiers false) rfl ?_
  obtain ⟨isStatic, ts1, h1⟩ := readQualifiers false ts
  rw [eval_acceptAs_bind rfl]
  dsimp only
  rw [readBase.baseName]
  cases nextAs? TokenKind.plainType? ts1 with
  | some p => exact eval_ask_pair .consts rfl rfl
  | none =>
    dsimp only
    rw [eval_accept_bind (by simp)]
    cases next? (.keyword .struct) ts1 with
    | none => rfl
    | some p =>
      dsimp only
      rw [bind_assoc]
      refine eval_requireName_bind fun name ts2 h2 => ?_
      exact eval_ask_pair .consts rfl rfl

theorem eval_type : outcome (readType ts) = (of .type).eval ts := by
  rw [readType, of]
  refine eval_ask_bind .base rfl fun base ts1 h1 => ?_
  refine eval_ask_pair (.stars true false base.1) rfl ?_
  exact eval_ask_bind .sizes rfl fun _ _ _ => rfl

theorem eval_sizes : outcome (readSizes ts) = (of .sizes).eval ts := by
  rw [readSizes, of, eval_accept_bind (by simp)]
  cases next? (.punct .lbracket) ts with
  | none => rfl
  | some p =>
    obtain ⟨_, ts1, h1⟩ := p
    dsimp only
    rw [eval_accept_bind (by simp)]
    cases next? (.punct .rbracket) ts1 with
    | some q => exact eval_ask_bind .sizes rfl fun _ _ _ => rfl
    | none =>
      refine eval_ask_bind .expr rfl fun e ts2 h2 => ?_
      dsimp only
      cases e.constant?.filter (0 ≤ ·) with
      | none => rfl
      | some n =>
        refine eval_require_bind (by simp) fun _ ts3 h3 => ?_
        exact eval_ask_bind .sizes rfl fun _ _ _ => rfl

/-! ### Expressions -/

theorem eval_expr : outcome (readExpr ts) = (of .expr).eval ts := by
  rw [readExpr, of]
  refine eval_ask_bind .ternary rfl fun target ts1 h1 => ?_
  rw [eval_acceptAs_bind rfl]
  dsimp only
  cases nextAs? assignment? ts1 with
  | none => rfl
  | some p => exact eval_ask_bind .expr rfl fun _ _ _ => rfl

theorem eval_ternary : outcome (readTernary ts) = (of .ternary).eval ts := by
  rw [readTernary, of]
  refine eval_ask_bind (.binary 1) rfl fun cond ts1 h1 => ?_
  rw [eval_accept_bind (by simp)]
  dsimp only
  cases next? (.punct .question) ts1 with
  | none => rfl
  | some p =>
    refine eval_ask_bind .expr rfl fun yes ts3 h3 => ?_
    refine eval_require_bind (by simp) fun _ ts4 h4 => ?_
    exact eval_ask_bind .ternary rfl fun _ _ _ => rfl

theorem eval_binary (level : Nat) : outcome (readBinary level ts) = (of (.binary level)).eval ts := by
  rw [readBinary, of]
  refine eval_ask_bind .cast rfl fun first ts1 h1 => ?_
  exact eval_ask_last (.binaryTail level first) rfl fun _ _ _ => rfl

theorem eval_binaryTail (level : Nat) (left : Expr) :
    outcome (readBinaryTail level left ts) = (of (.binaryTail level left)).eval ts := by
  rw [readBinaryTail, of, eval_acceptAs_bind rfl]
  cases nextAs? (BinarySymbol.atLeast? level) ts with
  | none => rfl
  | some p =>
    refine eval_ask_bind (.binary (p.value.1.1 + 1)) rfl fun right ts2 h2 => ?_
    exact eval_ask_last (.binaryTail level (p.value.1.2.apply left right)) rfl fun _ _ _ => rfl

theorem eval_peekTypeInParens_bind {k : Bool → Script α} :
    (peekTypeInParens >>= k).eval ts = (k (startsTypeInParens ts)).eval ts := by
  rw [startsTypeInParens, ← drop_one]
  rfl

theorem eval_cast : outcome (readCast ts) = (of .cast).eval ts := by
  rw [readCast, of, eval_peekTypeInParens_bind]
  by_cases hp : startsTypeInParens ts = true
  · rw [if_pos hp, if_pos hp]
    refine eval_skip_expect_bind (by simp) (kind_eq_of_startsTypeInParens hp) fun ts1 h1 => ?_
    refine eval_ask_bind .type rfl fun type ts2 h2 => ?_
    refine eval_require_bind (by simp) fun _ ts3 h3 => ?_
    exact eval_ask_bind .cast rfl fun _ _ _ => rfl
  · rw [if_neg hp, if_neg hp]
    exact (eval_ask .unary).symm

theorem eval_unary : outcome (readUnary ts) = (of .unary).eval ts := by
  rw [readUnary, of, eval_acceptAs_bind rfl]
  cases nextAs? UnaryOp.before? ts with
  | some p => exact eval_ask_bind .cast rfl fun _ _ _ => rfl
  | none =>
    dsimp only
    rw [eval_accept_bind (by simp)]
    cases next? (.punct .plus) ts with
    | some p => exact eval_ask_last .cast rfl fun _ _ _ => rfl
    | none =>
      dsimp only
      rw [eval_accept_bind (by simp)]
      cases next? (.keyword .sizeof) ts with
      | none => exact (eval_ask .operand).symm
      | some p =>
        obtain ⟨t, ts1, h1⟩ := p
        dsimp only
        rw [eval_peekTypeInParens_bind]
        by_cases hp : startsTypeInParens ts1 = true
        · rw [if_pos hp, if_pos hp]
          refine eval_skip_expect_bind (by simp) (kind_eq_of_startsTypeInParens hp) fun ts2 h2 => ?_
          refine eval_ask_bind .type rfl fun type ts3 h3 => ?_
          exact eval_require_bind (by simp) fun _ _ _ => rfl
        · rw [if_neg hp, if_neg hp]
          exact eval_ask_bind .unary rfl fun _ _ _ => rfl

theorem eval_operand : outcome (readPostfix ts) = (of .operand).eval ts := by
  rw [readPostfix, of]
  refine eval_ask_bind .primary rfl fun first ts1 h1 => ?_
  exact eval_ask_last (.operandTail first) rfl fun _ _ _ => rfl

theorem eval_operandTail (e : Expr) :
    outcome (readPostfixTail e ts) = (of (.operandTail e)).eval ts := by
  rw [readPostfixTail, of, eval_accept_bind (by simp)]
  cases next? (.punct .lbracket) ts with
  | some p =>
    refine eval_ask_bind .expr rfl fun i ts2 h2 => ?_
    refine eval_require_bind (by simp) fun close ts3 h3 => ?_
    exact eval_ask_last (.operandTail _) rfl fun _ _ _ => rfl
  | none =>
    dsimp only
    rw [eval_acceptAs_bind rfl]
    cases nextAs? selection? ts with
    | some p =>
      refine eval_requireName_bind fun name ts2 h2 => ?_
      exact eval_ask_last (.operandTail _) rfl fun _ _ _ => rfl
    | none =>
      dsimp only
      rw [eval_peekAt_bind, eval_accept_bind (by simp)]
      cases next? (.punct .lparen) ts with
      | some p =>
        cases e with
        | ident span callee =>
          refine eval_ask_bind .args rfl fun args ts2 h2 => ?_
          refine eval_require_bind (by simp) fun close ts3 h3 => ?_
          exact eval_ask_last (.operandTail _) rfl fun _ _ _ => rfl
        | _ => rfl
      | none =>
        dsimp only
        rw [eval_acceptAs_bind rfl]
        cases nextAs? UnaryOp.after? ts with
        | some p => exact eval_ask_last (.operandTail _) rfl fun _ _ _ => rfl
        | none => rfl

theorem eval_args : outcome (readArgs ts) = (of .args).eval ts := by
  rw [readArgs, of, eval_peekAt_bind, drop_zero]
  simp only [nextIs_iff]
  by_cases hclose : (peek ts).kind = .punct .rparen
  · rw [if_pos hclose, if_pos hclose]
    rfl
  · rw [if_neg hclose, if_neg hclose]
    refine eval_ask_bind .expr rfl fun e ts1 h1 => ?_
    exact eval_ask_bind .moreArgs rfl fun _ _ _ => rfl

theorem eval_moreArgs : outcome (readMoreArgs ts) = (of .moreArgs).eval ts := by
  rw [readMoreArgs, of, eval_accept_bind (by simp)]
  cases next? (.punct .comma) ts with
  | none => rfl
  | some p =>
    refine eval_ask_bind .expr rfl fun e ts2 h2 => ?_
    exact eval_ask_bind .moreArgs rfl fun _ _ _ => rfl

theorem eval_primary : outcome (readPrimary ts) = (of .primary).eval ts := by
  rw [readPrimary, of, eval_peekAt_bind, eval_acceptAs_bind rfl, drop_zero]
  dsimp only [here]
  cases nextAs? (atom? ⟨(peek ts).location, (peek ts).last⟩) ts with
  | some p => rfl
  | none =>
    dsimp only
    rw [eval_acceptAs_bind rfl]
    cases nextAs? TokenKind.content? ts with
    | some p => exact eval_ask_pair (.strings p.value.1 p.value.2.last) rfl rfl
    | none =>
      dsimp only
      rw [eval_accept_bind (by simp)]
      cases next? (.punct .lparen) ts with
      | some p =>
        refine eval_ask_bind .expr rfl fun e ts2 h2 => ?_
        exact eval_require_bind (by simp) fun _ _ _ => rfl
      | none => rfl

/-! ### Declarations -/

theorem eval_declarator (base : CType) :
    outcome (readDeclarator base ts) = (of (.declarator base)).eval ts := by
  rw [readDeclarator, of]
  refine eval_ask_pair (.stars true false base) rfl ?_
  refine eval_requireName_bind fun name ts2 h2 => ?_
  exact eval_ask_bind .sizes rfl fun _ _ _ => rfl

theorem eval_initializer : outcome (readInitializer ts) = (of .initializer).eval ts := by
  rw [readInitializer, of, eval_accept_bind (by simp)]
  cases next? (.punct .lbrace) ts with
  | some p =>
    refine eval_ask_bind .initializers rfl fun elements ts2 h2 => ?_
    exact eval_require_bind (by simp) fun _ _ _ => rfl
  | none => exact eval_ask_bind .expr rfl fun _ _ _ => rfl

theorem eval_initializers : outcome (readInitializers ts) = (of .initializers).eval ts := by
  rw [readInitializers, of, eval_peekAt_bind, drop_zero]
  simp only [nextIs_iff]
  by_cases hclose : (peek ts).kind = .punct .rbrace
  · rw [if_pos hclose, if_pos hclose]
    rfl
  · rw [if_neg hclose, if_neg hclose]
    refine eval_ask_bind .initializer rfl fun first ts1 h1 => ?_
    rw [eval_accept_bind (by simp)]
    dsimp only
    cases next? (.punct .comma) ts1 with
    | none => rfl
    | some p => exact eval_ask_bind .initializers rfl fun _ _ _ => rfl

theorem eval_init : outcome (readDecls.readInit ts) = (of .init).eval ts := by
  rw [readDecls.readInit, of, eval_accept_bind (by simp)]
  cases next? (.punct .eq) ts with
  | none => rfl
  | some p => exact eval_ask_bind .initializer rfl fun _ _ _ => rfl

/-- Declared variables are a declarator and what comes after it. -/
theorem outcome_readDecls (base : CType) (isStatic : Bool) (ts : List Token) :
    outcome (readDecls base isStatic ts) =
      (outcome (readDeclarator base ts)).bind fun p => readDeclsFrom base isStatic p.1 p.2 := by
  rw [readDecls]
  refine outcome_bind fun d ts1 h1 => ?_
  refine outcome_bind fun init ts2 h2 => ?_
  dsimp only
  cases next? (.punct .comma) ts2 with
  | none => rfl
  | some p => exact outcome_bind fun _ _ _ => rfl

theorem eval_declsFrom (base : CType) (isStatic : Bool) (d : Declarator) :
    readDeclsFrom base isStatic d ts = (of (.declsFrom base isStatic d)).eval ts := by
  rw [readDeclsFrom, of, eval_bind, eval_ask]
  refine congrArg _ (funext fun out => ?_)
  obtain ⟨init, ts1⟩ := out
  rw [eval_accept_bind (by simp)]
  dsimp only
  cases next? (.punct .comma) ts1 with
  | none => rfl
  | some p =>
    obtain ⟨_, ts2, h2⟩ := p
    dsimp only
    rw [outcome_readDecls, eval_bind, eval_ask, readerOf]
    cases outcome (readDeclarator base ts2) with
    | error e => rfl
    | ok p =>
      change Except.bind _ _ = (ask _ >>= _).eval p.2
      rw [eval_bind, eval_ask]
      rfl

theorem eval_localDecls : outcome (readLocalDecls ts) = (of .localDecls).eval ts := by
  rw [readLocalDecls, of]
  refine eval_ask_bind .base rfl fun base ts1 h1 => ?_
  obtain ⟨base, isStatic⟩ := base
  dsimp only
  rw [eval_bind, eval_ask, readerOf]
  have hlast : outcome (readDecls base isStatic ts1 >>= fun p =>
      pure (⟨p.value, p.rest, by have := p.bound; omega⟩ : Parsed _ ts.length)) =
        outcome (readDecls base isStatic ts1) := by
    cases readDecls base isStatic ts1 <;> rfl
  rw [outcome_readDecls] at hlast
  refine hlast.trans (congrArg _ (funext fun p => ?_))
  exact (eval_ask (.declsFrom base isStatic p.1)).symm

/-! ### Statements -/

theorem eval_optionalExpr (closing : Punct) :
    outcome (readOptionalExpr closing ts) = (of (.optionalExpr closing)).eval ts := by
  rw [readOptionalExpr, of, eval_peekAt_bind, drop_zero]
  simp only [nextIs_iff]
  by_cases hclose : (peek ts).kind = .punct closing
  · rw [if_pos hclose, if_pos hclose]
    rfl
  · rw [if_neg hclose, if_neg hclose]
    exact eval_ask_bind .expr rfl fun _ _ _ => rfl

theorem eval_forInit : outcome (readForInit ts) = (of .forInit).eval ts := by
  rw [readForInit, of, eval_accept_bind (by simp)]
  cases next? (.punct .semicolon) ts with
  | some p => rfl
  | none =>
    dsimp only
    rw [eval_peekAt_bind, drop_zero, readForInit.clause]
    split
    · rw [bind_assoc]
      refine eval_ask_bind .localDecls rfl fun decls ts1 h1 => ?_
      exact eval_require_bind (by simp) fun _ _ _ => rfl
    · rw [bind_assoc]
      refine eval_ask_bind .expr rfl fun e ts1 h1 => ?_
      exact eval_require_bind (by simp) fun _ _ _ => rfl

theorem eval_condition (word noun : String) :
    outcome (readCondition word noun ts) = (of (.condition word noun)).eval ts := by
  rw [readCondition, of]
  refine eval_require_bind (by simp) fun _ ts1 h1 => ?_
  refine eval_ask_bind .expr rfl fun cond ts2 h2 => ?_
  exact eval_require_bind (by simp) fun _ _ _ => rfl

theorem exists_of_startsLabel
    (h : (peek ts).kind.name?.isSome ∧ (peek (ts.drop 1)).kind = .punct .colon) :
    ∃ t u rest name, ts = t :: u :: rest ∧ t.kind.name? = some name ∧ u.kind = .punct .colon := by
  match ts, h with
  | [], h => exact absurd h.1 (by simp [peek, TokenKind.name?])
  | [t], h => exact absurd h.2 (by simp [peek])
  | t :: u :: rest, h =>
    obtain ⟨name, hname⟩ := Option.isSome_iff_exists.1 h.1
    exact ⟨t, u, rest, name, rfl, hname, h.2⟩

theorem readLabel?_cons {t u : Token} {rest : List Token} {name : String}
    (ht : t.kind.name? = some name) (hu : u.kind = .punct .colon) :
    readLabel? (t :: u :: rest) = some ⟨name, rest, by simp⟩ := by
  simp [readLabel?, nextAs?, ht, next?, hu]

theorem readLabel?_eq_none
    (h : ¬ ((peek ts).kind.name?.isSome ∧ (peek (ts.drop 1)).kind = .punct .colon)) :
    readLabel? ts = none := by
  cases ts with
  | nil => rfl
  | cons t rest =>
    cases hname : t.kind.name? with
    | none => simp [readLabel?, nextAs?, hname]
    | some name =>
      cases rest with
      | nil => simp [readLabel?, nextAs?, hname, next?]
      | cons u rest =>
        have hu : u.kind ≠ .punct .colon := fun hu => h ⟨by simp [peek, hname], hu⟩
        simp [readLabel?, nextAs?, hname, next?, hu]

theorem eval_plainStmt : outcome (readPlainStmt ts) = (of .plainStmt).eval ts := by
  rw [readPlainStmt, of, eval_peekAt_bind, eval_peekAt_bind, drop_zero]
  by_cases hlabel : (peek ts).kind.name?.isSome ∧ (peek (ts.drop 1)).kind = .punct .colon
  · obtain ⟨t, u, rest, name, rfl, ht, hu⟩ := exists_of_startsLabel hlabel
    have hname : requireName.eval (t :: u :: rest) = .ok ((name, t), u :: rest) := by
      rw [requireName, eval_acceptAs_bind rfl, nextAs?, ht]
      rfl
    rw [if_pos hlabel, readLabel?_cons ht hu, eval_bind, hname]
    change _ = (skip >>= _).eval (u :: rest)
    rw [eval_skip_bind, advance_cons rest (by simp [hu])]
    rfl
  · rw [if_neg hlabel, readLabel?_eq_none hlabel]
    dsimp only
    split
    · refine eval_ask_bind .localDecls rfl fun decls ts1 h1 => ?_
      exact eval_require_bind (by simp) fun _ _ _ => rfl
    · refine eval_ask_bind .expr rfl fun e ts1 h1 => ?_
      exact eval_require_bind (by simp) fun _ _ _ => rfl

theorem eval_stmt : outcome (readStmt ts) = (of .stmt).eval ts := by
  rw [readStmt, of, eval_peekAt_bind, drop_zero]
  cases ts with
  | nil => exact (eval_ask .plainStmt).symm
  | cons t rest =>
    obtain ⟨kind, location, last⟩ := t
    cases kind with
    | keyword k =>
      cases k with
      | «return» =>
        refine eval_ask_bind (.optionalExpr .semicolon) rfl fun value ts2 h2 => ?_
        exact eval_require_bind (by simp) fun _ _ _ => rfl
      | «if» =>
        refine eval_ask_bind (.condition "if" "if condition") rfl fun cond ts2 h2 => ?_
        refine eval_ask_bind .stmt rfl fun yes ts3 h3 => ?_
        rw [eval_accept_bind (by simp)]
        dsimp only
        cases next? (.keyword .else) ts3 with
        | none => rfl
        | some p => exact eval_ask_bind .stmt rfl fun _ _ _ => rfl
      | «while» =>
        refine eval_ask_bind (.condition "while" "while condition") rfl fun cond ts2 h2 => ?_
        exact eval_ask_bind .stmt rfl fun _ _ _ => rfl
      | «do» =>
        refine eval_ask_bind .stmt rfl fun body ts2 h2 => ?_
        refine eval_require_bind (by simp) fun _ ts3 h3 => ?_
        refine eval_ask_bind (.condition "while" "do-while condition") rfl fun cond ts4 h4 => ?_
        exact eval_require_bind (by simp) fun _ _ _ => rfl
      | «for» =>
        refine eval_require_bind (by simp) fun _ ts2 h2 => ?_
        refine eval_ask_bind .forInit rfl fun init ts3 h3 => ?_
        refine eval_ask_bind (.optionalExpr .semicolon) rfl fun cond ts4 h4 => ?_
        refine eval_require_bind (by simp) fun _ ts5 h5 => ?_
        refine eval_ask_bind (.optionalExpr .rparen) rfl fun step ts6 h6 => ?_
        refine eval_require_bind (by simp) fun _ ts7 h7 => ?_
        exact eval_ask_bind .stmt rfl fun _ _ _ => rfl
      | switch =>
        refine eval_ask_bind (.condition "switch" "switch expression") rfl fun cond ts2 h2 => ?_
        refine eval_require_bind (by simp) fun _ ts3 h3 => ?_
        refine eval_ask_bind .caseLines rfl fun lines ts4 h4 => ?_
        exact eval_require_bind (by simp) fun _ _ _ => rfl
      | «break» | «continue» => exact eval_require_bind (by simp) fun _ _ _ => rfl
      | goto =>
        refine eval_requireName_bind fun label ts2 h2 => ?_
        exact eval_require_bind (by simp) fun _ _ _ => rfl
      | _ => exact (eval_ask .plainStmt).symm
    | punct p =>
      cases p with
      | lbrace =>
        refine eval_ask_bind .block rfl fun body ts2 h2 => ?_
        exact eval_require_bind (by simp) fun _ _ _ => rfl
      | semicolon => rfl
      | _ => exact (eval_ask .plainStmt).symm
    | _ => exact (eval_ask .plainStmt).symm

theorem eval_peekBodyEnd_bind {k : Bool → Script α} :
    (peekBodyEnd >>= k).eval ts = (k (nextIs (.punct .rbrace) ts || atEnd ts)).eval ts := rfl

theorem eval_block : outcome (readBlock ts) = (of .block).eval ts := by
  rw [readBlock, of, eval_peekBodyEnd_bind]
  split
  · rfl
  · refine eval_ask_bind .stmt rfl fun s ts1 h1 => ?_
    exact eval_ask_bind .block rfl fun _ _ _ => rfl

theorem eval_caseLines : outcome (readCaseLines ts) = (of .caseLines).eval ts := by
  rw [readCaseLines, of, eval_peekBodyEnd_bind]
  split
  · rfl
  · cases ts with
    | nil =>
      refine eval_ask_bind .stmt rfl fun s ts1 h1 => ?_
      exact eval_ask_bind .caseLines rfl fun _ _ _ => rfl
    | cons t rest =>
      obtain ⟨kind, location, last⟩ := t
      cases kind with
      | keyword k =>
        cases k with
        | case =>
          refine eval_ask_bind .ternary rfl fun value ts2 h2 => ?_
          refine eval_require_bind (by simp) fun _ ts3 h3 => ?_
          exact eval_ask_bind .caseLines rfl fun _ _ _ => rfl
        | default =>
          refine eval_require_bind (by simp) fun _ ts2 h2 => ?_
          exact eval_ask_bind .caseLines rfl fun _ _ _ => rfl
        | _ =>
          refine eval_ask_bind .stmt rfl fun s ts1 h1 => ?_
          exact eval_ask_bind .caseLines rfl fun _ _ _ => rfl
      | _ =>
        refine eval_ask_bind .stmt rfl fun s ts1 h1 => ?_
        exact eval_ask_bind .caseLines rfl fun _ _ _ => rfl

/-! ### Items -/

theorem eval_fieldNames (base : CType) :
    outcome (readFieldNames base ts) = (of (.fieldNames base)).eval ts := by
  rw [readFieldNames, of]
  refine eval_ask_bind (.declarator base) rfl fun d ts1 h1 => ?_
  rw [eval_accept_bind (by simp)]
  dsimp only
  cases next? (.punct .comma) ts1 with
  | none => rfl
  | some p => exact eval_ask_bind (.fieldNames base) rfl fun _ _ _ => rfl

theorem eval_fields : outcome (readFields ts) = (of .fields).eval ts := by
  rw [readFields, of, eval_peekBodyEnd_bind]
  split
  · rfl
  · refine eval_ask_bind .base rfl fun base ts1 h1 => ?_
    refine eval_ask_bind (.fieldNames base.1) rfl fun first ts2 h2 => ?_
    refine eval_require_bind (by simp) fun _ ts3 h3 => ?_
    exact eval_ask_bind .fields rfl fun _ _ _ => rfl

theorem eval_struct (location : Location) :
    outcome (readStruct location ts) = (of (.struct location)).eval ts := by
  rw [readStruct, of]
  refine eval_requireName_bind fun name ts1 h1 => ?_
  refine eval_require_bind (by simp) fun _ ts2 h2 => ?_
  refine eval_ask_bind .fields rfl fun fields ts3 h3 => ?_
  refine eval_require_bind (by simp) fun _ ts4 h4 => ?_
  exact eval_require_bind (by simp) fun _ _ _ => rfl

theorem eval_param : outcome (readParam ts) = (of .param).eval ts := by
  rw [readParam, of, eval_peekAt_bind, drop_zero]
  refine eval_ask_bind .base rfl fun base ts1 h1 => ?_
  refine eval_ask_pair (.stars false false base.1) rfl ?_
  rw [eval_acceptAs_bind rfl]
  dsimp only
  rw [readParam.paramName]
  cases nextAs? TokenKind.name? (readStars false false base.1 ts1).rest with
  | none | some p => exact eval_ask_bind .sizes rfl fun _ _ _ => rfl

theorem eval_paramTail : outcome (readParamTail ts) = (of .paramTail).eval ts := by
  rw [readParamTail, of, eval_accept_bind (by simp)]
  cases next? (.punct .ellipsis) ts with
  | some p => rfl
  | none =>
    refine eval_ask_bind .param rfl fun param ts1 h1 => ?_
    rw [eval_accept_bind (by simp)]
    dsimp only
    cases next? (.punct .comma) ts1 with
    | none => rfl
    | some p => exact eval_ask_bind .paramTail rfl fun _ _ _ => rfl

theorem eval_params : outcome (readParams ts) = (of .params).eval ts := by
  rw [readParams, of, eval_peekAt_bind, drop_zero]
  simp only [nextIs_iff]
  by_cases hclose : (peek ts).kind = .punct .rparen
  · rw [if_pos hclose, if_pos hclose]
    rfl
  · rw [if_neg hclose, if_neg hclose]
    have htail : outcome (readParams.tail ts) = (ask .paramTail).eval ts :=
      eval_ask_last .paramTail rfl fun _ _ _ => rfl
    rw [eval_peekAt_bind]
    cases ts with
    | nil => exact htail
    | cons t rest =>
      rw [next?, drop_one, tail_cons, peek_cons]
      by_cases hv : t.kind = .keyword .void
      · simp only [hv, if_true, true_and]
        by_cases hr : (peek rest).kind = .punct .rparen
        · rw [if_pos hr, if_pos hr, eval_skip_bind, advance_cons rest (by simp [hv])]
          rfl
        · rw [if_neg hr, if_neg hr]
          exact htail
      · simp only [hv, if_false, false_and]
        exact htail

theorem eval_function (d : Declarator) : outcome (readFunction d ts) = (of (.function d)).eval ts := by
  rw [readFunction, of]
  refine eval_require_bind (by simp) fun _ ts1 h1 => ?_
  refine eval_ask_bind .params rfl fun params ts2 h2 => ?_
  refine eval_require_bind (by simp) fun _ ts3 h3 => ?_
  rw [eval_accept_bind (by simp)]
  dsimp only
  cases next? (.punct .semicolon) ts3 with
  | some p => rfl
  | none =>
    refine eval_require_bind (by simp) fun _ ts4 h4 => ?_
    refine eval_ask_bind .block rfl fun body ts5 h5 => ?_
    exact eval_require_bind (by simp) fun _ _ _ => rfl

theorem startsStruct_iff : startsStruct ts = true ↔
    (peek ts).kind = .keyword .struct ∧ (peek (ts.drop 1)).kind.name?.isSome ∧
      (peek (ts.drop 2)).kind = .punct .lbrace := by
  constructor
  · intro h
    unfold startsStruct at h
    split at h
    · simp [peek, TokenKind.name?]
    · cases h
  · rintro ⟨hs, hn, hb⟩
    match ts, hs, hn, hb with
    | [], hs, _, _ => simp [peek] at hs
    | [_], _, hn, _ => simp [peek, TokenKind.name?] at hn
    | [_, _], _, _, hb => simp [peek] at hb
    | ⟨kind, _, _⟩ :: ⟨name, _, _⟩ :: ⟨brace, _, _⟩ :: rest, hs, hn, hb =>
      obtain rfl : kind = _ := hs
      obtain rfl : brace = _ := hb
      cases name <;> first | rfl | simp [peek, TokenKind.name?] at hn

theorem eval_item : outcome (readItem ts) = (of .item).eval ts := by
  rw [readItem, of, eval_peekAt_bind, eval_peekAt_bind, eval_peekAt_bind, drop_zero]
  simp only [startsStruct_iff]
  split
  case isTrue hs =>
    refine eval_skip_expect_bind (by simp) hs.1 fun ts1 h1 => ?_
    exact eval_ask_bind (.struct _) rfl fun _ _ _ => rfl
  case isFalse hs =>
    refine eval_ask_bind .base rfl fun base ts1 h1 => ?_
    obtain ⟨base, isStatic⟩ := base
    dsimp only
    rw [eval_bind, eval_ask, readerOf]
    have hdecls := outcome_readDecls base isStatic ts1
    cases hd : readDeclarator base ts1 with
    | error e => rfl
    | ok p =>
      obtain ⟨d, ts2, h2⟩ := p
      rw [hd] at hdecls
      change outcome (if nextIs (.punct .lparen) ts2 = true then _ else _) =
        (peekAt 0 >>= _).eval ts2
      rw [eval_peekAt_bind, drop_zero]
      simp only [nextIs_iff]
      split
      · exact eval_ask_bind (.function d) rfl fun _ _ _ => rfl
      · refine eval_ask_bind (.declsFrom base isStatic d) hdecls.symm fun decls ts3 h3 => ?_
        exact eval_require_bind (by simp) fun _ _ _ => rfl

theorem eval_items :
    (readItems ts).map (fun items => (items, afterItems ts)) = (of .items).eval ts := by
  rw [readItems, afterItems, of, eval_peekAt_bind, drop_zero]
  simp only [atEnd, nextIs_iff]
  split
  · rfl
  · rw [eval_accept_bind (by simp)]
    cases next? (.punct .semicolon) ts with
    | some p => exact (eval_ask .items).symm
    | none =>
      dsimp only
      rw [eval_bind, eval_ask, readerOf]
      cases readItem ts with
      | error e => rfl
      | ok p =>
        obtain ⟨first, ts1, h1⟩ := p
        change (readItems ts1 >>= _).map _ = (ask .items >>= _).eval ts1
        rw [eval_bind, eval_ask, readerOf]
        cases readItems ts1 <;> rfl

/-- Every reader of the library is what its script does. -/
theorem readerOf_eq_eval (r : Reader) (ts : List Token) : readerOf r ts = (of r).eval ts := by
  cases r with
  | qualifiers isStatic => exact eval_qualifiers isStatic
  | consts => exact eval_consts
  | base => exact eval_base
  | stars qualified afterStar type => exact eval_stars qualified afterStar type
  | strings content last => exact eval_strings content last
  | expr => exact eval_expr
  | ternary => exact eval_ternary
  | binary level => exact eval_binary level
  | binaryTail level left => exact eval_binaryTail level left
  | cast => exact eval_cast
  | unary => exact eval_unary
  | operand => exact eval_operand
  | operandTail e => exact eval_operandTail e
  | args => exact eval_args
  | moreArgs => exact eval_moreArgs
  | primary => exact eval_primary
  | type => exact eval_type
  | sizes => exact eval_sizes
  | declarator base => exact eval_declarator base
  | initializer => exact eval_initializer
  | initializers => exact eval_initializers
  | init => exact eval_init
  | declsFrom base isStatic d => exact eval_declsFrom base isStatic d
  | localDecls => exact eval_localDecls
  | optionalExpr closing => exact eval_optionalExpr closing
  | forInit => exact eval_forInit
  | condition word noun => exact eval_condition word noun
  | plainStmt => exact eval_plainStmt
  | stmt => exact eval_stmt
  | block => exact eval_block
  | caseLines => exact eval_caseLines
  | fieldNames base => exact eval_fieldNames base
  | fields => exact eval_fields
  | struct location => exact eval_struct location
  | param => exact eval_param
  | paramTail => exact eval_paramTail
  | params => exact eval_params
  | function d => exact eval_function d
  | item => exact eval_item
  | items => exact eval_items

/-- A run of a script is what the script does with the readers of the library. -/
theorem Runs.eval_eq {s : Script α} {trace : List (List Token)} {out : Outcome α}
    (h : Runs s ts trace out) : s.eval ts = out := by
  induction h with
  | done | fail => rfl
  | look _ ih => exact ih
  | take _ ih => exact ih
  | call _ _ ih ihNext =>
    rw [eval, readerOf_eq_eval, ih]
    exact ihNext
  | callFails _ ih =>
    rw [eval, readerOf_eq_eval, ih]
    rfl

/-! ### The end of readers -/

/-- The tokens end with the end of the file. -/
def Closed (ts : List Token) : Prop := ∃ last ∈ ts.getLast?, last.kind = .eof

theorem Closed.of_passes {left : List Token} (h : Closed ts) (hp : Passes ts left) : Closed left := by
  obtain ⟨last, hlast, heof⟩ := h
  obtain ⟨taken, rfl, htaken⟩ := hp
  rw [getLast?_append] at hlast
  cases hleft : left.getLast? with
  | some t => exact ⟨last, by simpa [hleft] using hlast, heof⟩
  | none =>
    -- Otherwise the end of the file would have been taken.
    rw [hleft, Option.none_or] at hlast
    exact absurd heof (htaken last (mem_of_getLast? hlast))

/-- Every reader ends on all tokens that end with the end of the file, well formed or not: its script has one run,
which gives what the reader of the library gives. The cursor only moves on, it never passes the last token, and
a value is given where it stands at last. Whatever the reader calls has fewer tokens left or lower rank; when it
calls itself, as a loop does for its next turn, a token has been taken. -/
theorem readers_end (r : Reader) (tokens : List Token) (h : Closed tokens) :
    ∃ trace, Runs (of r) tokens trace (readerOf r tokens) ∧
      (∀ trace' out, Runs (of r) tokens trace' out → trace' = trace ∧ out = readerOf r tokens) ∧
      (tokens :: trace).IsChain (fun before after => after <:+ before) ∧
      (∀ left ∈ tokens :: trace, left <:+ tokens ∧ Closed left) ∧
      (∀ b left, readerOf r tokens = .ok (b, left) → (tokens :: trace).getLast (by simp) = left) ∧
      ∀ r' left, Asks (of r) tokens r' left →
        left ∈ tokens :: trace ∧
        (left.length < tokens.length ∨ left.length = tokens.length ∧ r'.rank < r.rank) ∧
        (r'.ctorIdx = r.ctorIdx → left.length < tokens.length) := by
  obtain ⟨trace, out, hrun, -⟩ := exists_run r tokens
  obtain rfl : readerOf r tokens = out := (readerOf_eq_eval r tokens).trans hrun.eval_eq
  have hchain := hrun.chain
  refine ⟨trace, hrun, fun _ _ h' => hrun.unique h', hchain.1.imp fun _ _ hp => hp.suffix, ?_, hchain.2, ?_⟩
  · intro left hleft
    have hp := hrun.passes_of_mem hleft
    exact ⟨hp.suffix, h.of_passes hp⟩
  · intro r' left hasks
    exact ⟨hasks.mem hrun, hasks.progress, hasks.lt_of_again⟩

/-- A file that ends after the first word of a declaration: reading it ends there, with a fault. -/
theorem readers_end_brokenOff :
    let tokens : List Token := [⟨.keyword .int, ⟨1, 1⟩, ⟨1, 3⟩⟩, ⟨.eof, ⟨1, 4⟩, ⟨1, 4⟩⟩]
    Closed tokens ∧ ∃ trace, Runs (of .items) tokens trace (.error ⟨.expected "identifier" .eof, ⟨1, 4⟩⟩) ∧
      ∀ left ∈ tokens :: trace, Closed left := by
  intro tokens
  have hclosed : Closed tokens := ⟨⟨.eof, ⟨1, 4⟩, ⟨1, 4⟩⟩, rfl, rfl⟩
  have hread : readerOf .items tokens = .error ⟨.expected "identifier" .eof, ⟨1, 4⟩⟩ := by cbv
  obtain ⟨trace, hrun, -, -, hleft, -⟩ := readers_end .items tokens hclosed
  exact ⟨hclosed, trace, hread ▸ hrun, fun left h => (hleft left h).2⟩

end Script

end PathScout

import PathScout.Proofs.WrittenExprs

/-!
# Reading expressions back

An expression is read back from every way of writing it. Each reader takes what is written at its
own rank or a tighter one, up to a token that does not go on at that rank.

* `Reading.Gives`: the outcome of a reader without the bound on what is left.
* `Stops`: the next token does not go on with what was written at a rank.
* `Expr.Reads`: what the readers do at the writing of an expression, one statement for each reader.
  A reader of a chain of operands is described by what its loop does after them.
* `Expr.Written.reads`: every writing is read at its rank.
* `readExpr_written`: an expression comes back from all its writings, and there are some.
-/

namespace PathScout

open List Option

variable {kind : TokenKind} {mark : Punct} {type : CType} {ts : List Token}

/-! ### Outcomes -/

/-- The reader succeeds with a value and leaves some tokens. -/
def Reading.Gives {α : Type} {n : Nat} (x : Reading α n) (v : α) (rest : List Token) : Prop :=
  ∃ h, x = .ok ⟨v, rest, h⟩

namespace Reading.Gives

variable {α β : Type} {n m : Nat} {rest rest' : List Token}

theorem pure {v : α} (h : rest.length < n) :
    Gives (Pure.pure ⟨v, rest, h⟩ : Reading α n) v rest := ⟨h, rfl⟩

theorem bind {x : Reading α n} {f : Parsed α n → Reading β m} {v : α} {w : β} (hx : Gives x v rest)
    (hf : ∀ h, Gives (f ⟨v, rest, h⟩) w rest') : Gives (x >>= f) w rest' := by
  obtain ⟨h, rfl⟩ := hx
  exact hf h

end Reading.Gives

open Reading

variable {t : Token} {rest : List Token}

theorem gives_expect (context : String) (h : t.kind = kind) :
    Gives (expect kind context (t :: rest)) t rest := by
  simp [expect, next?, h, Gives]

theorem gives_expectPunct {p : Punct} (context : String) (h : t.kind = .punct p) :
    Gives (expectPunct p context (t :: rest)) t rest := gives_expect context h

theorem gives_expectName {name : String} (h : t.kind = .ident name) :
    Gives (expectName (t :: rest)) (name, t) rest := by
  simp [expectName, nextAs?, h, TokenKind.name?, Gives]

theorem nextAs?_eq_none {α : Type} {f : TokenKind → Option α}
    (h : f (peek rest).kind = none) : nextAs? f rest = none := by
  cases rest with
  | nil => rfl
  | cons t rest => simpa [nextAs?, peek] using h

theorem next?_eq_none (h : (peek rest).kind ≠ kind) : next? kind rest = none := by
  cases rest with
  | nil => rfl
  | cons t rest => simpa [next?, peek] using h

/-! ### Where writings stop -/

/-- May the token go on with an operand: as an index, a field, arguments, or an increment? -/
def TokenKind.extends : TokenKind → Bool
  | .punct .lbracket | .punct .dot | .punct .arrow | .punct .lparen | .punct .plusPlus
  | .punct .minusMinus => true
  | _ => false

/-- The next token does not go on with what was written at a rank: it is no text to be joined, no
suffix of an operand, no operator that binds tighter, and nothing that goes on with a condition or
a target. -/
structure Stops (n : Nat) (rest : List Token) : Prop where
  text : (peek rest).kind.content? = none
  suffix : n ≤ 13 → (peek rest).kind.extends = false
  operator : BinarySymbol.atLeast? n (peek rest).kind = none
  question : n ≤ 1 → (peek rest).kind ≠ .punct .question
  assignment : n = 0 → assignment? (peek rest).kind = none

namespace Stops

variable {m n : Nat} {kind : TokenKind}

theorem atLeast?_of_le (h : BinarySymbol.atLeast? m kind = none) (hmn : m ≤ n) :
    BinarySymbol.atLeast? n kind = none := by
  simp only [BinarySymbol.atLeast?, filter_eq_none_iff, decide_eq_true_eq] at h ⊢
  exact fun op hop hle => h op hop (by omega)

theorem mono (h : Stops m rest) (hmn : m ≤ n) : Stops n rest where
  text := h.text
  suffix hn := h.suffix (by omega)
  operator := atLeast?_of_le h.operator hmn
  question hn := h.question (by omega)
  assignment hn := h.assignment (by omega)

theorem of_kind (h : t.kind = kind) (text : kind.content? = none)
    (suffix : n ≤ 13 → kind.extends = false) (operator : BinarySymbol.atLeast? n kind = none)
    (question : n ≤ 1 → kind ≠ .punct .question) (assignment : n = 0 → assignment? kind = none) :
    Stops n (t :: rest) := by
  subst h
  exact ⟨text, suffix, operator, question, assignment⟩

/-- There are ten levels. -/
theorem atLeast?_eq_none (hn : 11 ≤ n) (kind : TokenKind) : BinarySymbol.atLeast? n kind = none := by
  simp only [BinarySymbol.atLeast?, filter_eq_none_iff, decide_eq_true_eq]
  intro op hop
  unfold BinarySymbol.ofToken? at hop
  split at hop <;> cases hop <;> simp only <;> omega

/-- An operator in front of an operand may stand in front of a cast. -/
theorem cast (h : Stops 13 rest) : Stops 12 rest :=
  ⟨h.text, fun _ => h.suffix le_rfl, atLeast?_eq_none (by omega) _, by omega, by omega⟩

/-- A closing token stops every writing. -/
theorem of_closing {p : Punct} (h : t.kind = .punct p)
    (hp : p = .rparen ∨ p = .rbracket ∨ p = .colon ∨ p = .comma) : Stops n (t :: rest) := by
  obtain rfl | rfl | rfl | rfl := hp <;>
    exact of_kind h rfl (fun _ => rfl) rfl (fun _ => nofun) (fun _ => rfl)

/-- The end of the text stops every writing. -/
theorem of_eof (h : t.kind = .eof) : Stops n (t :: rest) :=
  of_kind h rfl (fun _ => rfl) rfl (fun _ => nofun) (fun _ => rfl)

/-- An operator stops what binds tighter. -/
theorem of_operator {op : BinarySymbol} (h : t.kind = .punct op.mark) (hn : op.level < n) :
    Stops n (t :: rest) := by
  have hpos := op.level_pos
  refine of_kind h rfl (fun _ => ?_) ?_ (fun _ => by omega) (fun _ => by omega)
  · cases op with
    | plain op | logical op => cases op <;> rfl
  · rw [BinarySymbol.atLeast?, BinarySymbol.ofToken?_mark]
    simpa using hn

theorem of_question (h : t.kind = .punct .question) (hn : 2 ≤ n) : Stops n (t :: rest) :=
  of_kind h rfl (fun _ => rfl) rfl (fun _ => by omega) (fun _ => by omega)

theorem of_assignment {op : Option BinaryOp} {mark : Punct} (hop : assignmentMark? op = some mark)
    (h : t.kind = .punct mark) (hn : 1 ≤ n) : Stops n (t :: rest) := by
  rcases op with _ | op
  · cases hop
    exact of_kind h rfl (fun _ => rfl) rfl (fun _ => nofun) (fun _ => by omega)
  · cases op <;> cases hop <;>
      exact of_kind h rfl (fun _ => rfl) rfl (fun _ => nofun) (fun _ => by omega)

/-- What goes on with an operand only stops the operand in front of it. -/
theorem of_extends (h : t.kind.extends = true) (hn : 14 ≤ n) : Stops n (t :: rest) := by
  refine of_kind rfl ?_ (fun _ => by omega) ?_ (fun _ => by omega) (fun _ => by omega)
  · cases hkind : t.kind <;> simp_all [TokenKind.extends, TokenKind.content?]
  · unfold TokenKind.extends at h
    split at h <;> first | (next hkind => rw [hkind]; rfl) | cases h

end Stops

/-! ### Where writings start -/

/-- May an expression start with the token, and if only a `tight` one is asked for, is it no operator
in front of an operand? -/
def TokenKind.startsExpr (tight : Bool) : TokenKind → Bool
  | .int _ | .char _ | .string _ | .ident _ | .keyword .null | .punct .lparen => true
  | kind => !tight && (kind == .keyword .sizeof || (UnaryOp.before? kind).isSome)

theorem TokenKind.startsExpr_of_tight (h : kind.startsExpr true) (tight : Bool) :
    kind.startsExpr tight := by
  unfold startsExpr at h ⊢
  split at h <;> simp_all

theorem TokenKind.not_startsType {tight : Bool} (h : kind.startsExpr tight) :
    kind.startsType = false := by
  unfold startsExpr at h
  split at h
  all_goals try rfl
  revert h
  unfold startsType
  split <;> first | (intro; rfl) | (intro h; cases tight <;> cases h)

theorem before?_of_markBefore? {op : UnaryOp} (h : op.markBefore? = some mark) :
    UnaryOp.before? (.punct mark) = some op := by
  cases op <;> cases h <;> rfl

theorem assignment?_of_mark {op : Option BinaryOp} (h : assignmentMark? op = some mark) :
    assignment? (.punct mark) = some op := by
  rcases op with _ | op
  · cases h
    rfl
  · cases op <;> cases h <;> rfl

namespace Expr

variable {n : Nat} {e : Expr} {ts : List Token}

/-- A writing starts with a token that may start an expression; only below rank 14 that may be an
operator in front of its operand. -/
theorem Written.start (h : Written n e ts) :
    ∃ t us, ts = t :: us ∧ t.kind.startsExpr (decide (14 ≤ n)) := by
  induction h with
  | parens hn ht => exact ⟨_, _, rfl, by rw [ht]; rfl⟩
  | int hn hv ht | char hn ht | string hn ht | null hn ht | ident hn ht | call hn ht =>
    exact ⟨_, _, rfl, by rw [ht]; rfl⟩
  | index hn hb ht hi hu ihb | member hn hb ht hu ihb =>
    obtain ⟨t, us, rfl, hstart⟩ := ihb
    exact ⟨t, _, rfl, TokenKind.startsExpr_of_tight hstart _⟩
  | after hn hop ha ht iha =>
    obtain ⟨t, us, rfl, hstart⟩ := iha
    exact ⟨t, _, rfl, TokenKind.startsExpr_of_tight hstart _⟩
  | before hn hop ht ha =>
    refine ⟨_, _, rfl, ?_⟩
    rw [ht, decide_eq_false (by omega)]
    have := before?_of_markBefore? hop
    unfold TokenKind.startsExpr
    split <;> simp_all
  | sizeofType hn ht | sizeofExpr hn ht =>
    refine ⟨_, _, rfl, ?_⟩
    rw [ht, decide_eq_false (by omega)]
    rfl
  | cast hn ht =>
    refine ⟨_, _, rfl, ?_⟩
    rw [ht]
    rfl
  | @join n s op l r ls rs t hn hl ht hr ihl =>
    obtain ⟨t, us, rfl, hstart⟩ := ihl
    have := op.level_le
    rw [decide_eq_false (by omega)] at hstart
    exact ⟨t, _, rfl, by rw [decide_eq_false (by omega)]; exact hstart⟩
  | conditional hn hc ht hy hu ho ihc =>
    obtain ⟨t, us, rfl, hstart⟩ := ihc
    exact ⟨t, _, rfl, by rw [decide_eq_false (by omega)]; exact hstart⟩
  | assign hop htarget ht hvalue ihtarget =>
    obtain ⟨t, us, rfl, hstart⟩ := ihtarget
    exact ⟨t, _, rfl, hstart⟩

/-- Only a cast looks like a type in parentheses. -/
theorem Written.not_startsTypeInParens (h : Written n e ts) (hn : 13 ≤ n) (rest : List Token) :
    startsTypeInParens (ts ++ rest) = false := by
  have hother : ∀ {t : Token} (us : List Token), t.kind ≠ .punct .lparen →
      startsTypeInParens (t :: us) = false := by
    intro t us ht
    simp [startsTypeInParens, nextIs, peek, ht]
  induction h generalizing rest with
  | parens _ ht h =>
    obtain ⟨t, us, rfl, hstart⟩ := h.start
    simp [startsTypeInParens, peek, TokenKind.not_startsType hstart]
  | int _ _ ht | char _ ht | string _ ht | null _ ht | ident _ ht | call _ ht | sizeofType _ ht
  | sizeofExpr _ ht => exact hother _ (by rw [ht]; simp)
  | before _ hop ht =>
    refine hother _ ?_
    rw [ht]
    rintro ⟨⟩
    cases before?_of_markBefore? hop
  | index _ _ _ _ _ ihb | member _ _ _ _ ihb | after _ _ _ _ ihb =>
    rw [append_assoc]
    exact ihb (by omega) _
  | cast | conditional | assign => omega
  | @join n s op =>
    have := op.level_le
    omega

end Expr

/-! ### Types -/

theorem readQualifiers_eq {isStatic : Bool} (hs : t.kind ≠ .keyword .static)
    (hc : t.kind ≠ .keyword .const) :
    readQualifiers isStatic (t :: rest) = ⟨isStatic, t :: rest, by simp⟩ := by
  simp [readQualifiers, hs, hc]

theorem skipConst_eq (h : (peek rest).kind ≠ .keyword .const) :
    skipConst rest = ⟨(), rest, by simp⟩ := by
  cases rest with
  | nil => rfl
  | cons t rest =>
    have ht : t.kind ≠ .keyword .const := h
    simp [skipConst, ht]

theorem gives_readBase {mid : List Token} (hs : t.kind ≠ .keyword .static)
    (hc : t.kind ≠ .keyword .const) (hbase : Gives (readBase.baseName (t :: mid)) type rest)
    (hrest : (peek rest).kind ≠ .keyword .const) : Gives (readBase (t :: mid)) (type, false) rest := by
  rw [readBase, readQualifiers_eq hs hc]
  refine hbase.bind fun h => ?_
  dsimp only
  rw [skipConst_eq hrest]
  exact .pure _

theorem plainType?_ne (h : t.kind.plainType? = some type) (k : Keyword)
    (hk : TokenKind.plainType? (.keyword k) = none) : t.kind ≠ .keyword k := by
  rintro heq
  rw [heq, hk] at h
  cases h

/-- The readers of a base type and of stars get to the end of a starred type. -/
theorem CType.Starred.read (h : type.Starred ts) (rest : List Token)
    (hrest : (peek rest).kind ≠ .keyword .const) :
    ∃ base mid, Gives (readBase (ts ++ rest)) (base, false) mid ∧ ∀ afterStar, ∃ afterStar',
      (readStars true afterStar base mid).value = (readStars true afterStar' type rest).value ∧
      (readStars true afterStar base mid).rest = (readStars true afterStar' type rest).rest := by
  induction h generalizing rest with
  | @plain type t h =>
    refine ⟨type, rest, gives_readBase (plainType?_ne h _ rfl) (plainType?_ne h _ rfl) ?_ hrest,
      fun afterStar => ⟨afterStar, rfl, rfl⟩⟩
    simp [readBase.baseName, nextAs?, h, Gives]
  | @struct name t u ht hu =>
    refine ⟨.struct name, rest, gives_readBase (by simp [ht]) (by simp [ht]) ?_ hrest,
      fun afterStar => ⟨afterStar, rfl, rfl⟩⟩
    simp only [readBase.baseName, nextAs?, ht, TokenKind.plainType?, next?, map_none, if_true]
    exact (gives_expectName hu).bind fun h => .pure _
  | @pointer type ts t h ht ih =>
    obtain ⟨base, mid, hbase, hstars⟩ := ih (t :: rest) (by simp [peek, ht])
    refine ⟨base, mid, (append_assoc ts [t] rest).symm ▸ hbase, fun afterStar => ?_⟩
    obtain ⟨afterStar', hvalue, hleft⟩ := hstars afterStar
    exact ⟨true, by simpa [readStars, ht] using hvalue, by simpa [readStars, ht] using hleft⟩

theorem CType.Starred.start (h : type.Starred ts) : ∃ t us, ts = t :: us ∧ t.kind.startsType := by
  induction h with
  | @plain type t h =>
    refine ⟨t, [], rfl, ?_⟩
    unfold TokenKind.plainType? at h
    split at h <;> first | (next hkind => rw [hkind]; rfl) | cases h
  | @struct name t u ht hu => exact ⟨t, [u], rfl, by rw [ht]; rfl⟩
  | pointer h ht ih =>
    obtain ⟨t, us, rfl, hstart⟩ := ih
    exact ⟨t, _, rfl, hstart⟩

/-- A written type starts with a word that begins types. -/
theorem CType.Written.start (h : type.Written ts) : ∃ t us, ts = t :: us ∧ t.kind.startsType := by
  obtain ⟨hstarred, hsizes⟩ := h
  obtain ⟨t, us, rfl, hstart⟩ := hstarred.start
  exact ⟨t, _, rfl, hstart⟩

theorem readStars_eq {afterStar : Bool} (hs : (peek rest).kind ≠ .punct .star)
    (hc : (peek rest).kind ≠ .keyword .const) :
    (readStars true afterStar type rest).value = type ∧
      (readStars true afterStar type rest).rest = rest := by
  cases rest with
  | nil => exact ⟨rfl, rfl⟩
  | cons t rest =>
    have hs : t.kind ≠ .punct .star := hs
    have hc : t.kind ≠ .keyword .const := hc
    simp [readStars, hs, hc]

/-! ### What the readers do -/

namespace Expr

variable {level : Nat} {s : Span} {u v : Token} {b a : Expr} {bs : List Token} {op : UnaryOp}
  {mark : Punct} {args : List (Expr × List Token)} {type : CType}

/-- The reader of names, literals and parentheses takes the writing. -/
def ReadsPrimary (e : Expr) (ts : List Token) : Prop :=
  ∀ rest, Stops 15 rest → ∃ e', e'.unplaced = e.unplaced ∧ Gives (readPrimary (ts ++ rest)) e' rest

/-- The reader of operands goes on from the writing with what stands after it. -/
def ReadsOperand (e : Expr) (ts : List Token) : Prop :=
  ∀ rest, Stops 14 rest → ∃ e', e'.unplaced = e.unplaced ∧ ∀ v left,
    Gives (readPostfixTail e' rest) v left → Gives (readPostfix (ts ++ rest)) v left

/-- The reader of operands with operators in front takes the writing. -/
def ReadsUnary (e : Expr) (ts : List Token) : Prop :=
  ∀ rest, Stops 13 rest → ∃ e', e'.unplaced = e.unplaced ∧ Gives (readUnary (ts ++ rest)) e' rest

/-- The reader of casts takes the writing. -/
def ReadsCast (e : Expr) (ts : List Token) : Prop :=
  ∀ rest, Stops 12 rest → ∃ e', e'.unplaced = e.unplaced ∧ Gives (readCast (ts ++ rest)) e' rest

/-- The reader of operands joined by operators of a level goes on from the writing, as do those of
looser levels, with the operators after it. -/
def ReadsChain (level : Nat) (e : Expr) (ts : List Token) : Prop :=
  ∀ rest, Stops (level + 1) rest → ∃ e', e'.unplaced = e.unplaced ∧ ∀ l ≤ level, ∀ v left,
    Gives (readBinaryTail l e' rest) v left → Gives (readBinary l (ts ++ rest)) v left

/-- The reader of expressions without assignment takes the writing. -/
def ReadsTernary (e : Expr) (ts : List Token) : Prop :=
  ∀ rest, Stops 1 rest → ∃ e', e'.unplaced = e.unplaced ∧ Gives (readTernary (ts ++ rest)) e' rest

/-- The reader of expressions takes the writing. -/
def ReadsExpr (e : Expr) (ts : List Token) : Prop :=
  ∀ rest, Stops 0 rest → ∃ e', e'.unplaced = e.unplaced ∧ Gives (readExpr (ts ++ rest)) e' rest

/-- The writing is read where one of at least the given rank is asked for, and where a looser one
would do. -/
structure Reads (n : Nat) (e : Expr) (ts : List Token) : Prop where
  primary : 15 ≤ n → e.ReadsPrimary ts
  operand : 14 ≤ n → e.ReadsOperand ts
  unary : 13 ≤ n → e.ReadsUnary ts
  cast : 12 ≤ n → e.ReadsCast ts
  chain : ∀ level, 1 ≤ level → level ≤ 11 → level + 1 ≤ n → e.ReadsChain level ts
  ternary : 1 ≤ n → e.ReadsTernary ts
  expr : e.ReadsExpr ts

variable {e : Expr} {ts : List Token}

theorem ReadsPrimary.operand (h : e.ReadsPrimary ts) : e.ReadsOperand ts := by
  intro rest hrest
  obtain ⟨e', heq, he'⟩ := h rest (hrest.mono (by omega))
  refine ⟨e', heq, fun v left hv => ?_⟩
  rw [readPostfix]
  exact he'.bind fun h => hv.bind fun h' => .pure _

/-- Nothing stands after an operand before a token that does not go on with it. -/
theorem gives_readPostfixTail (e : Expr) (hrest : (peek rest).kind.extends = false) :
    Gives (readPostfixTail e rest) e rest := by
  have hne : ∀ p : Punct, TokenKind.extends (.punct p) = true → (peek rest).kind ≠ .punct p := by
    rintro p hp heq
    rw [heq, hp] at hrest
    cases hrest
  have hselection : selection? (peek rest).kind = none := by
    unfold selection?
    split <;> first | rfl | (next h => exact absurd h (hne _ rfl))
  have hafter : UnaryOp.after? (peek rest).kind = none := by
    unfold UnaryOp.after?
    split <;> first | rfl | (next h => exact absurd h (hne _ rfl))
  rw [readPostfixTail, next?_eq_none (hne .lbracket rfl), nextAs?_eq_none hselection,
    next?_eq_none (hne .lparen rfl), nextAs?_eq_none hafter]
  exact .pure _

theorem ReadsOperand.unary (h : e.ReadsOperand ts) (hw : e.Written 14 ts) : e.ReadsUnary ts := by
  intro rest hrest
  obtain ⟨e', heq, he'⟩ := h rest (hrest.mono (by omega))
  obtain ⟨t, us, rfl, hstart⟩ := hw.start
  have hbefore : UnaryOp.before? (peek (t :: us ++ rest)).kind = none := by
    show UnaryOp.before? t.kind = none
    unfold TokenKind.startsExpr at hstart
    split at hstart <;> first | (next h => rw [h]; rfl) | simp at hstart
  have hother : ∀ kind, TokenKind.startsExpr true kind = false →
      (peek (t :: us ++ rest)).kind ≠ kind := by
    rintro _ hkind rfl
    exact Bool.false_ne_true (hkind.symm.trans hstart)
  refine ⟨e', heq, ?_⟩
  rw [readUnary, nextAs?_eq_none hbefore, next?_eq_none (hother (.punct .plus) rfl),
    next?_eq_none (hother (.keyword .sizeof) rfl)]
  exact he' _ _ (gives_readPostfixTail e' (hrest.suffix le_rfl))

theorem ReadsUnary.cast (h : e.ReadsUnary ts) (hw : e.Written 13 ts) : e.ReadsCast ts := by
  intro rest hrest
  obtain ⟨e', heq, he'⟩ := h rest (hrest.mono (by omega))
  refine ⟨e', heq, ?_⟩
  rw [readCast, hw.not_startsTypeInParens le_rfl]
  exact he'

theorem ReadsCast.chain (h : e.ReadsCast ts) (hlevel : level ≤ 11) : e.ReadsChain level ts := by
  intro rest hrest
  obtain ⟨e', heq, he'⟩ := h rest (hrest.mono (by omega))
  refine ⟨e', heq, fun l hl v left hv => ?_⟩
  rw [readBinary]
  exact he'.bind fun h => hv.bind fun h' => .pure _

theorem ReadsChain.mono {l : Nat} (h : e.ReadsChain level ts) (hl : l ≤ level) : e.ReadsChain l ts := by
  intro rest hrest
  obtain ⟨e', heq, he'⟩ := h rest (hrest.mono (by omega))
  exact ⟨e', heq, fun k hk => he' k (by omega)⟩

/-- Nothing is joined to an operand before a token that is no operator of the level. -/
theorem gives_readBinaryTail (e : Expr) (hrest : BinarySymbol.atLeast? level (peek rest).kind = none) :
    Gives (readBinaryTail level e rest) e rest := by
  rw [readBinaryTail, nextAs?_eq_none hrest]
  exact .pure _

theorem ReadsChain.ternary (h : e.ReadsChain 1 ts) : e.ReadsTernary ts := by
  intro rest hrest
  obtain ⟨e', heq, he'⟩ := h rest (hrest.mono (by omega))
  refine ⟨e', heq, ?_⟩
  have hchain := he' 1 le_rfl _ _ (gives_readBinaryTail e' hrest.operator)
  rw [readTernary]
  refine hchain.bind fun h => ?_
  dsimp only
  rw [next?_eq_none (hrest.question le_rfl)]
  exact .pure _

theorem ReadsTernary.expr (h : e.ReadsTernary ts) : e.ReadsExpr ts := by
  intro rest hrest
  obtain ⟨e', heq, he'⟩ := h rest (hrest.mono (by omega))
  refine ⟨e', heq, ?_⟩
  rw [readExpr]
  refine he'.bind fun h => ?_
  dsimp only
  rw [nextAs?_eq_none (hrest.assignment rfl)]
  exact .pure _

/-! ### One reader after the other -/

namespace Reads

variable {m n : Nat}

theorem mono (h : Reads n e ts) (hmn : m ≤ n) : Reads m e ts where
  primary hm := h.primary (by omega)
  operand hm := h.operand (by omega)
  unary hm := h.unary (by omega)
  cast hm := h.cast (by omega)
  chain level hpos hlevel hm := h.chain level hpos hlevel (by omega)
  ternary hm := h.ternary (by omega)
  expr := h.expr

theorem of_chain {level : Nat} (h : e.ReadsChain level ts) (hpos : 1 ≤ level) (hlevel : level ≤ 10) :
    Reads (level + 1) e ts := by
  have hternary := (h.mono hpos).ternary
  exact ⟨by omega, by omega, by omega, by omega, fun l _ _ hl => h.mono (by omega),
    fun _ => hternary, hternary.expr⟩

theorem of_cast (h : e.ReadsCast ts) : Reads 12 e ts := by
  have hternary := (h.chain (show 1 ≤ 11 by omega)).ternary
  exact ⟨by omega, by omega, by omega, fun _ => h, fun level _ hlevel _ => h.chain hlevel,
    fun _ => hternary, hternary.expr⟩

theorem of_unary (h : e.ReadsUnary ts) (hw : e.Written 13 ts) : Reads 13 e ts := by
  have hcast := of_cast (h.cast hw)
  exact ⟨by omega, by omega, fun _ => h, fun _ => hcast.cast le_rfl,
    fun level hpos hlevel _ => hcast.chain level hpos hlevel (by omega), fun _ => hcast.ternary (by omega),
    hcast.expr⟩

theorem of_operand (h : e.ReadsOperand ts) (hw : ∀ n ≤ 14, e.Written n ts) : Reads 14 e ts := by
  have hunary := of_unary (h.unary (hw 14 le_rfl)) (hw 13 (by omega))
  exact ⟨by omega, fun _ => h, fun _ => hunary.unary le_rfl, fun _ => hunary.cast (by omega),
    fun level hpos hlevel _ => hunary.chain level hpos hlevel (by omega), fun _ => hunary.ternary (by omega),
    hunary.expr⟩

theorem of_primary (h : e.ReadsPrimary ts) (hw : ∀ n ≤ 15, e.Written n ts) : Reads 15 e ts := by
  have hoperand := of_operand h.operand fun n hn => hw n (by omega)
  exact ⟨fun _ => h, fun _ => h.operand, fun _ => hoperand.unary (by omega),
    fun _ => hoperand.cast (by omega), fun level hpos hlevel _ => hoperand.chain level hpos hlevel (by omega),
    fun _ => hoperand.ternary (by omega), hoperand.expr⟩

end Reads

/-! ### Names, literals and parentheses -/

theorem reads_atom (h : ∀ s, ∃ e', atom? s t.kind = some e' ∧ e'.unplaced = e.unplaced)
    (hw : ∀ n ≤ 15, e.Written n [t]) : Reads 15 e [t] := by
  refine .of_primary (fun rest _ => ?_) hw
  obtain ⟨e', hatom, heq⟩ := h ⟨here ([t] ++ rest), (peek ([t] ++ rest)).last⟩
  refine ⟨e', heq, ?_⟩
  rw [readPrimary]
  simp only [cons_append, nil_append, nextAs?] at hatom ⊢
  rw [hatom]
  exact .pure _

theorem readsPrimary_string {text : String} (ht : t.kind = .string text) :
    (string s text).ReadsPrimary [t] := by
  intro rest hrest
  have hjoin : readStrings text t.last rest = ⟨(text, t.last), rest, by simp⟩ := by
    cases rest with
    | nil => rfl
    | cons u rest =>
      have hu : u.kind.content? = none := hrest.text
      rw [readStrings, hu]
  refine ⟨string ⟨t.location, t.last⟩ text, rfl, ?_⟩
  rw [readPrimary]
  simp only [cons_append, nil_append, nextAs?, ht, atom?, TokenKind.content?, map_none, map_some, hjoin]
  exact .pure _

theorem readsPrimary_parens (ht : t.kind = .punct .lparen) (h : e.ReadsExpr ts)
    (hu : u.kind = .punct .rparen) : e.ReadsPrimary (t :: (ts ++ [u])) := by
  intro rest _
  obtain ⟨e', heq, he'⟩ := h (u :: rest) (.of_closing hu (by simp))
  refine ⟨e'.withSpan ⟨t.location, u.last⟩, by simp [heq], ?_⟩
  rw [readPrimary]
  simp only [cons_append, append_assoc, nil_append, nextAs?, next?, ht, atom?,
    TokenKind.content?, map_none, if_true]
  exact he'.bind fun h => (gives_expectPunct _ hu).bind fun h' => .pure _

/-! ### What stands after an operand -/

theorem ReadsOperand.index {i : Expr} {is : List Token} (hb : b.ReadsOperand bs)
    (ht : t.kind = .punct .lbracket) (hi : i.ReadsExpr is) (hu : u.kind = .punct .rbracket) :
    (index s b i).ReadsOperand (bs ++ t :: (is ++ [u])) := by
  intro rest _
  obtain ⟨i', hieq, hi'⟩ := hi (u :: rest) (.of_closing hu (by simp))
  obtain ⟨b', hbeq, hb'⟩ := hb (t :: (is ++ u :: rest)) (.of_extends (by rw [ht]; rfl) le_rfl)
  refine ⟨.index ⟨b'.span.first, u.last⟩ b' i', by simp [unplaced, hbeq, hieq], fun v left hv => ?_⟩
  have hts : bs ++ t :: (is ++ [u]) ++ rest = bs ++ t :: (is ++ u :: rest) := by simp
  rw [hts]
  refine hb' v left ?_
  rw [readPostfixTail]
  simp only [next?, ht, if_true]
  exact hi'.bind fun h => (gives_expectPunct _ hu).bind fun h' => hv.bind fun h'' => .pure _

theorem ReadsOperand.member {field : String} {arrow : Bool} (hb : b.ReadsOperand bs)
    (ht : selection? t.kind = some arrow) (hu : u.kind = .ident field) :
    (member s b field arrow).ReadsOperand (bs ++ [t, u]) := by
  intro rest _
  have hextends : t.kind.extends = true ∧ t.kind ≠ .punct .lbracket := by
    unfold selection? at ht
    split at ht <;> first | (next h => rw [h]; simp [TokenKind.extends]) | cases ht
  obtain ⟨b', hbeq, hb'⟩ := hb (t :: u :: rest) (.of_extends hextends.1 le_rfl)
  refine ⟨.member ⟨b'.span.first, u.last⟩ b' field arrow, by simp [unplaced, hbeq],
    fun v left hv => ?_⟩
  have hts : bs ++ [t, u] ++ rest = bs ++ t :: u :: rest := by simp
  rw [hts]
  refine hb' v left ?_
  rw [readPostfixTail]
  simp only [next?, nextAs?, ht, hextends.2, if_false, map_some]
  exact (gives_expectName hu).bind fun h => hv.bind fun h' => .pure _

theorem ReadsOperand.after (hop : op.markAfter? = some mark) (ha : a.ReadsOperand ts)
    (ht : t.kind = .punct mark) : (Expr.unary s op a).ReadsOperand (ts ++ [t]) := by
  intro rest _
  have hkind : t.kind.extends = true ∧ t.kind ≠ .punct .lbracket ∧ selection? t.kind = none ∧
      t.kind ≠ .punct .lparen ∧ UnaryOp.after? t.kind = some op := by
    rw [ht]
    cases op <;> cases hop <;> simp [TokenKind.extends, selection?, UnaryOp.after?]
  obtain ⟨hextends, hbracket, hselection, hparen, hafter⟩ := hkind
  obtain ⟨a', haeq, ha'⟩ := ha (t :: rest) (.of_extends hextends le_rfl)
  refine ⟨.unary ⟨a'.span.first, t.last⟩ op a', by simp [unplaced, haeq], fun v left hv => ?_⟩
  have hts : ts ++ [t] ++ rest = ts ++ t :: rest := by simp
  rw [hts]
  refine ha' v left ?_
  rw [readPostfixTail]
  simp only [next?, nextAs?, hbracket, hselection, hparen, hafter, if_false, map_none, map_some]
  exact hv.bind fun h => .pure _

theorem separated_exists_append {part : List Token} {parts : List (List Token)}
    (h : Separated (part :: parts) ts) : ∃ us, ts = part ++ us := by
  cases h with
  | single => exact ⟨[], by simp⟩
  | cons => exact ⟨_, rfl⟩

/-- The readers of arguments take everything up to the closing parenthesis. -/
theorem gives_readArgs (hargs : ∀ arg ∈ args, arg.1.ReadsExpr arg.2 ∧ ∃ t us, arg.2 = t :: us ∧
      t.kind ≠ .punct .rparen) (hts : Separated (args.map (·.2)) ts) (hu : u.kind = .punct .rparen) :
    ∃ args', unplacedAll args' = unplacedAll (args.map (·.1)) ∧
      Gives (readArgs (ts ++ u :: rest)) args' (u :: rest) := by
  -- The reader of the arguments after the first one asks for a comma in front of each.
  have hmore : ∀ {args : List (Expr × List Token)} {ts : List Token},
      (∀ arg ∈ args, arg.1.ReadsExpr arg.2 ∧ ∃ t us, arg.2 = t :: us ∧ t.kind ≠ .punct .rparen) →
      Separated (args.map (·.2)) ts → args ≠ [] →
      ∃ e args' mid, unplacedAll (e :: args') = unplacedAll (args.map (·.1)) ∧
        Gives (readExpr (ts ++ u :: rest)) e mid ∧ Gives (readMoreArgs mid) args' (u :: rest) := by
    intro args ts hargs hts hne
    induction args generalizing ts with
    | nil => exact absurd rfl hne
    | cons arg args ih =>
      have hlast : Gives (readMoreArgs (u :: rest)) [] (u :: rest) := by
        rw [readMoreArgs, next?_eq_none (by simp [peek, hu])]
        exact .pure _
      obtain ⟨harg, -⟩ := hargs arg mem_cons_self
      generalize hparts : (arg :: args).map (·.2) = parts at hts
      cases hts with
      | nil => simp at hparts
      | single =>
        obtain ⟨rfl, hnil⟩ : arg.2 = ts ∧ args = [] := by simpa using hparts
        subst hnil
        obtain ⟨e, heq, he⟩ := harg (u :: rest) (.of_closing hu (by simp))
        exact ⟨e, [], u :: rest, by simp [unplacedAll, heq], he, hlast⟩
      | @cons us parts vs t ht hne' hsep =>
        obtain ⟨rfl, rfl⟩ : arg.2 = us ∧ args.map (·.2) = parts := by simpa using hparts
        obtain ⟨f, args', mid, heqs, hf, hargs'⟩ := ih
          (fun a ha => hargs a (mem_cons_of_mem _ ha)) hsep (by simpa using hne')
        obtain ⟨e, heq, he⟩ := harg (t :: (vs ++ u :: rest)) (.of_closing ht (by simp))
        refine ⟨e, f :: args', t :: (vs ++ u :: rest), ?_, ?_, ?_⟩
        · simp only [unplacedAll, map_cons, heq] at heqs ⊢
          rw [heqs]
        · have happend : arg.2 ++ t :: vs ++ u :: rest = arg.2 ++ t :: (vs ++ u :: rest) := by simp
          rw [happend]
          exact he
        · rw [readMoreArgs]
          simp only [next?, ht, if_true]
          exact hf.bind fun h => hargs'.bind fun h' => .pure _
  by_cases hne : args = []
  · subst hne
    cases hts
    refine ⟨[], rfl, ?_⟩
    rw [readArgs]
    simp only [nil_append, nextIs, peek, head?_cons, getD_some, hu, beq_self_eq_true, if_true]
    exact .pure _
  · obtain ⟨e, args', mid, heqs, he, hargs'⟩ := hmore hargs hts hne
    refine ⟨e :: args', heqs, ?_⟩
    have hopen : nextIs (.punct .rparen) (ts ++ u :: rest) = false := by
      obtain ⟨arg, more, rfl⟩ := exists_cons_of_ne_nil hne
      obtain ⟨us, rfl⟩ := separated_exists_append hts
      obtain ⟨-, t, vs, hstart, ht⟩ := hargs arg mem_cons_self
      simp [hstart, nextIs, peek, ht]
    rw [readArgs, hopen]
    exact he.bind fun h => hargs'.bind fun h' => .pure _

theorem readsOperand_call {callee : String} (ht : t.kind = .ident callee) (hu : u.kind = .punct .lparen)
    (hargs : ∀ arg ∈ args, arg.1.ReadsExpr arg.2 ∧ ∃ t us, arg.2 = t :: us ∧
      t.kind ≠ .punct .rparen) (hts : Separated (args.map (·.2)) ts) (hv : v.kind = .punct .rparen) :
    (call s callee (args.map (·.1))).ReadsOperand (t :: u :: (ts ++ [v])) := by
  intro rest _
  obtain ⟨args', heqs, hargs'⟩ : ∃ args', unplacedAll args' = unplacedAll (args.map (·.1)) ∧
      Gives (readArgs (ts ++ v :: rest)) args' (v :: rest) := gives_readArgs hargs hts hv
  refine ⟨.call ⟨t.location, v.last⟩ callee args', by simp [unplaced, heqs], fun w left hw => ?_⟩
  have hts : t :: u :: (ts ++ [v]) ++ rest = t :: u :: (ts ++ v :: rest) := by simp
  rw [hts, readPostfix]
  have hname : Gives (readPrimary (t :: u :: (ts ++ v :: rest))) (.ident ⟨t.location, t.last⟩ callee)
      (u :: (ts ++ v :: rest)) := by
    rw [readPrimary]
    simp only [nextAs?, ht, atom?, map_some]
    exact .pure _
  have htail : Gives (readPostfixTail (.ident ⟨t.location, t.last⟩ callee) (u :: (ts ++ v :: rest)))
      w left := by
    rw [readPostfixTail]
    simp only [next?, nextAs?, hu, selection?, reduceCtorEq, TokenKind.punct.injEq, if_true, if_false,
      map_none]
    exact hargs'.bind fun h => (gives_expectPunct _ hv).bind fun h' => hw.bind fun h'' => .pure _
  exact hname.bind fun h => htail.bind fun h' => .pure _

/-! ### Operators in front of an operand, sizes and casts -/

theorem ReadsCast.before (hop : op.markBefore? = some mark) (ht : t.kind = .punct mark)
    (ha : a.ReadsCast ts) : (Expr.unary s op a).ReadsUnary (t :: ts) := by
  intro rest hrest
  obtain ⟨a', haeq, ha'⟩ := ha rest hrest.cast
  refine ⟨.unary ⟨t.location, a'.span.last⟩ op a', by simp [unplaced, haeq], ?_⟩
  rw [cons_append, readUnary]
  simp only [nextAs?, ht, before?_of_markBefore? hop, map_some]
  exact ha'.bind fun h => .pure _

theorem readsUnary_sizeofExpr (ht : t.kind = .keyword .sizeof) (ha : a.ReadsUnary ts)
    (hw : a.Written 13 ts) : (sizeofExpr s a).ReadsUnary (t :: ts) := by
  intro rest hrest
  obtain ⟨a', haeq, ha'⟩ := ha rest hrest
  refine ⟨.sizeofExpr ⟨t.location, a'.span.last⟩ a', by simp [unplaced, haeq], ?_⟩
  rw [cons_append, readUnary]
  simp only [nextAs?, next?, ht, UnaryOp.before?, reduceCtorEq, if_true, if_false, map_none,
    hw.not_startsTypeInParens le_rfl]
  exact ha'.bind fun h => .pure _

/-- The size of an array is read as an expression. -/
theorem gives_readSizes {sizes : List Nat} (h : SizesWritten sizes ts)
    (hrest : (peek rest).kind ≠ .punct .lbracket) :
    Gives (readSizes (ts ++ rest)) (sizes.map some) rest := by
  induction h with
  | nil =>
    rw [nil_append, readSizes, next?_eq_none hrest]
    exact .pure _
  | @cons n sizes t u v ts ht hu hv h ih =>
    have hint : Reads 15 (.int default n) [u] :=
      reads_atom (fun s => ⟨.int s n, by rw [hu]; rfl, rfl⟩) fun m hm => .int hm (by omega) hu
    obtain ⟨e, heq, he⟩ := hint.expr (v :: (ts ++ rest)) (.of_closing hv (by simp))
    have hconstant : e.constant? = some (n : Int) := by
      cases e <;> simp only [unplaced, reduceCtorEq] at heq
      cases heq
      rfl
    rw [cons_append, cons_append, cons_append, readSizes]
    simp only [next?, ht, hu, reduceCtorEq, if_true, if_false]
    refine he.bind fun h => ?_
    have hfilter : e.constant?.filter (0 ≤ ·) = some (n : Int) := by simp [hconstant]
    dsimp only
    split
    · next hnone => simp [hfilter] at hnone
    · next m hsome =>
      obtain rfl : (n : Int) = m := by simpa [hfilter] using hsome
      exact (gives_expectPunct _ hv).bind fun h' => ih.bind fun h'' => .pure _

/-- A written type is read up to the closing parenthesis. -/
theorem gives_readType (h : type.Written ts) (hu : u.kind = .punct .rparen) :
    Gives (readType (ts ++ u :: rest)) type (u :: rest) := by
  obtain @⟨type, sizes, ts, us, hstarred, hsizes⟩ := h
  have hhead : (peek (us ++ u :: rest)).kind = .punct .lbracket ∨
      (peek (us ++ u :: rest)).kind = .punct .rparen := by
    cases hsizes with
    | nil => exact .inr hu
    | cons ht => exact .inl ht
  have hne : ∀ kind, kind ≠ .punct .lbracket → kind ≠ .punct .rparen →
      (peek (us ++ u :: rest)).kind ≠ kind := by
    rintro kind hl hr rfl
    exact hhead.elim hl hr
  have hconst := hne (.keyword .const) (by simp) (by simp)
  obtain ⟨base, mid, hbase, hstars⟩ := hstarred.read (us ++ u :: rest) hconst
  obtain ⟨afterStar, hvalue, hleft⟩ := hstars false
  obtain ⟨hvalue', hleft'⟩ : (readStars true afterStar type (us ++ u :: rest)).value = type ∧
      (readStars true afterStar type (us ++ u :: rest)).rest = us ++ u :: rest :=
    readStars_eq (hne (.punct .star) (by simp) (by simp)) hconst
  have hread : Gives (readSizes (us ++ u :: rest)) _ (u :: rest) :=
    gives_readSizes hsizes (by simp [peek, hu])
  rw [append_assoc, readType]
  refine hbase.bind fun h => ?_
  dsimp only
  generalize readStars true false base mid = parsed at hvalue hleft ⊢
  obtain ⟨type', mid', h'⟩ := parsed
  obtain rfl : type' = type := hvalue.trans hvalue'
  obtain rfl : mid' = us ++ u :: rest := hleft.trans hleft'
  exact hread.bind fun h'' => .pure _

theorem readsUnary_sizeofType (ht : t.kind = .keyword .sizeof) (hu : u.kind = .punct .lparen)
    (htype : type.Written ts) (hv : v.kind = .punct .rparen) :
    (sizeofType s type).ReadsUnary (t :: u :: (ts ++ [v])) := by
  intro rest _
  refine ⟨.sizeofType ⟨t.location, v.last⟩ type, rfl, ?_⟩
  have hts : t :: u :: (ts ++ [v]) ++ rest = t :: u :: (ts ++ v :: rest) := by simp
  have hstarts : startsTypeInParens (u :: (ts ++ v :: rest)) = true := by
    obtain ⟨w, ws, rfl, hw⟩ := htype.start
    simp [startsTypeInParens, nextIs, peek, hu, hw]
  rw [hts, readUnary]
  simp only [nextAs?, next?, ht, UnaryOp.before?, reduceCtorEq, if_true, if_false, map_none, hstarts]
  exact (gives_expectPunct _ hu).bind fun h => (gives_readType htype hv).bind fun h' =>
    (gives_expectPunct _ hv).bind fun h'' => .pure _

theorem readsCast_cast {us : List Token} (ht : t.kind = .punct .lparen) (htype : type.Written ts)
    (hu : u.kind = .punct .rparen) (ha : a.ReadsCast us) :
    (Expr.cast s type a).ReadsCast (t :: (ts ++ u :: us)) := by
  intro rest hrest
  obtain ⟨a', haeq, ha'⟩ := ha rest hrest
  have hts : t :: (ts ++ u :: us) ++ rest = t :: (ts ++ u :: (us ++ rest)) := by simp
  have hstarts : startsTypeInParens (t :: (ts ++ u :: (us ++ rest))) = true := by
    obtain ⟨w, ws, rfl, hw⟩ := htype.start
    simp [startsTypeInParens, nextIs, peek, ht, hw]
  refine ⟨.cast ⟨t.location, a'.span.last⟩ type a', by simp [unplaced, haeq], ?_⟩
  rw [hts, readCast, hstarts]
  exact (gives_expectPunct _ ht).bind fun h => (gives_readType htype hu).bind fun h' =>
    (gives_expectPunct _ hu).bind fun h'' => ha'.bind fun h''' => .pure _

/-! ### Operators between operands -/

theorem ReadsChain.join {op : BinarySymbol} {l r : Expr} {ls rs : List Token}
    (hl : l.ReadsChain op.level ls) (ht : t.kind = .punct op.mark) (hr : r.ReadsChain (op.level + 1) rs) :
    (op.join s l r).ReadsChain op.level (ls ++ t :: rs) := by
  intro rest hrest
  obtain ⟨r', hreq, hr'⟩ := hr rest (hrest.mono (by omega))
  obtain ⟨l', hleq, hl'⟩ := hl (t :: (rs ++ rest)) (.of_operator ht (by omega))
  refine ⟨op.apply l' r', by rw [op.unplaced_apply, op.unplaced_join, hleq, hreq],
    fun level hlevel v left hv => ?_⟩
  have hts : ls ++ t :: rs ++ rest = ls ++ t :: (rs ++ rest) := by simp
  rw [hts]
  refine hl' level hlevel v left ?_
  have hop : BinarySymbol.atLeast? level t.kind = some (op.level, op) := by
    rw [ht, BinarySymbol.atLeast?, op.ofToken?_mark]
    simpa using hlevel
  rw [readBinaryTail]
  simp only [nextAs?, hop, map_some]
  exact (hr' _ le_rfl _ _ (gives_readBinaryTail r' hrest.operator)).bind fun h => hv.bind fun h' => .pure _

theorem readsTernary_conditional {c y o : Expr} {cs ys os : List Token} (hc : c.ReadsChain 1 cs)
    (ht : t.kind = .punct .question) (hy : y.ReadsExpr ys) (hu : u.kind = .punct .colon)
    (ho : o.ReadsTernary os) : (conditional s c y o).ReadsTernary (cs ++ t :: (ys ++ u :: os)) := by
  intro rest hrest
  obtain ⟨o', hoeq, ho'⟩ := ho rest hrest
  obtain ⟨y', hyeq, hy'⟩ := hy (u :: (os ++ rest)) (.of_closing hu (by simp))
  have hstops : Stops 2 (t :: (ys ++ u :: (os ++ rest))) := .of_question ht le_rfl
  obtain ⟨c', hceq, hc'⟩ := hc _ hstops
  refine ⟨.conditional ⟨c'.span.first, o'.span.last⟩ c' y' o', by simp [unplaced, hceq, hyeq, hoeq], ?_⟩
  have hts : cs ++ t :: (ys ++ u :: os) ++ rest = cs ++ t :: (ys ++ u :: (os ++ rest)) := by simp
  have hcond := hc' 1 le_rfl _ _ (gives_readBinaryTail c' (by simp [peek, ht]; rfl))
  rw [hts, readTernary]
  refine hcond.bind fun h => ?_
  simp only [next?, ht, if_true]
  exact hy'.bind fun h => (gives_expectPunct _ hu).bind fun h' => ho'.bind fun h'' => .pure _

theorem readsExpr_assign {op : Option BinaryOp} {target value : Expr} {vs : List Token}
    (hop : assignmentMark? op = some mark) (htarget : target.ReadsTernary ts) (ht : t.kind = .punct mark)
    (hvalue : value.ReadsExpr vs) : (Expr.assign s op target value).ReadsExpr (ts ++ t :: vs) := by
  intro rest hrest
  obtain ⟨value', hveq, hvalue'⟩ := hvalue rest hrest
  obtain ⟨target', hteq, htarget'⟩ := htarget (t :: (vs ++ rest)) (.of_assignment hop ht le_rfl)
  refine ⟨.assign ⟨target'.span.first, value'.span.last⟩ op target' value',
    by simp [unplaced, hteq, hveq], ?_⟩
  have hts : ts ++ t :: vs ++ rest = ts ++ t :: (vs ++ rest) := by simp
  rw [hts, readExpr]
  refine htarget'.bind fun h => ?_
  simp only [nextAs?, ht, assignment?_of_mark hop, map_some]
  exact hvalue'.bind fun h => .pure _

/-! ### All writings -/

/-- **Every writing is read** at its rank. -/
theorem Written.reads {n : Nat} (h : e.Written n ts) : Reads n e ts := by
  induction h with
  | @parens n e ts t u hn ht h hu ih =>
    exact (Reads.of_primary (readsPrimary_parens ht ih.expr hu) fun m hm => .parens hm ht h hu).mono hn
  | @int n s v t hn hv ht =>
    exact (reads_atom (fun s => ⟨.int s v, by rw [ht]; rfl, rfl⟩) fun m hm => .int hm hv ht).mono hn
  | @char n s v t hn ht =>
    exact (reads_atom (fun s => ⟨.char s v, by rw [ht]; rfl, rfl⟩) fun m hm => .char hm ht).mono hn
  | @null n s t hn ht =>
    exact (reads_atom (fun s => ⟨.null s, by rw [ht]; rfl, rfl⟩) fun m hm => .null hm ht).mono hn
  | @ident n s name t hn ht =>
    exact (reads_atom (fun s => ⟨.ident s name, by rw [ht]; rfl, rfl⟩) fun m hm => .ident hm ht).mono hn
  | string hn ht => exact (Reads.of_primary (readsPrimary_string ht) fun m hm => .string hm ht).mono hn
  | index hn hb ht hi hu ihb ihi =>
    exact (Reads.of_operand ((ihb.operand le_rfl).index ht ihi.expr hu)
      fun m hm => .index hm hb ht hi hu).mono hn
  | member hn hb ht hu ihb =>
    exact (Reads.of_operand ((ihb.operand le_rfl).member ht hu) fun m hm => .member hm hb ht hu).mono hn
  | @call n s callee args ts t u v hn ht hu hargs hts hv ihargs =>
    have hread := readsOperand_call (s := s) ht hu (fun arg harg => ⟨(ihargs arg harg).expr, ?_⟩) hts hv
    · exact (Reads.of_operand hread fun m hm => .call hm ht hu hargs hts hv).mono hn
    · obtain ⟨t, us, heq, hstart⟩ := (hargs arg harg).start
      refine ⟨t, us, heq, fun hclose => ?_⟩
      rw [hclose] at hstart
      cases hstart
  | after hn hop ha ht iha =>
    exact (Reads.of_operand ((iha.operand le_rfl).after hop ht) fun m hm => .after hm hop ha ht).mono hn
  | before hn hop ht ha iha =>
    exact (Reads.of_unary ((iha.cast le_rfl).before hop ht) (.before le_rfl hop ht ha)).mono hn
  | sizeofType hn ht hu htype hv =>
    exact (Reads.of_unary (readsUnary_sizeofType ht hu htype hv) (.sizeofType le_rfl ht hu htype hv)).mono hn
  | sizeofExpr hn ht ha iha =>
    exact (Reads.of_unary (readsUnary_sizeofExpr ht (iha.unary le_rfl) ha)
      (.sizeofExpr le_rfl ht ha)).mono hn
  | cast hn ht htype hu ha iha =>
    exact (Reads.of_cast (readsCast_cast ht htype hu (iha.cast le_rfl))).mono hn
  | @join n s op l r ls rs t hn hl ht hr ihl ihr =>
    have hle := op.level_le
    exact (Reads.of_chain ((ihl.chain op.level op.level_pos (by omega) le_rfl).join ht
      (ihr.chain (op.level + 1) (by omega) (by omega) le_rfl)) op.level_pos hle).mono hn
  | @conditional n s c y o cs ys os t u hn hc ht hy hu ho ihc ihy iho =>
    have hternary := readsTernary_conditional (s := s) (ihc.chain 1 le_rfl (by omega) le_rfl) ht ihy.expr hu
      (iho.ternary le_rfl)
    exact ⟨by omega, by omega, by omega, by omega, by omega, fun _ => hternary, hternary.expr⟩
  | assign hop htarget ht hvalue ihtarget ihvalue =>
    exact ⟨by omega, by omega, by omega, by omega, by omega, by omega,
      readsExpr_assign hop (ihtarget.ternary le_rfl) ht ihvalue.expr⟩

end Expr

/-- **Reading inverts writing.** Every expression whose literals are not negative and whose types
are made of a base type, stars and sizes can be written, and the reader takes every writing of it,
with parentheses wherever its operators need them and anywhere else, up to the end of the text and
gives the same expression, only in other places. -/
theorem readExpr_written {e : Expr} (h : e.isWritable) :
    (∃ ts, e.Written 0 ts) ∧ ∀ (ts : List Token) (last : Token), e.Written 0 ts → last.kind = .eof →
      ∃ p, readExpr (ts ++ [last]) = .ok p ∧ p.value.unplaced = e.unplaced ∧ p.rest = [last] := by
  refine ⟨Expr.exists_written h 0 (by omega), fun ts last hts hlast => ?_⟩
  obtain ⟨e', heq, hbound, hread⟩ := hts.reads.expr [last] (.of_eof hlast)
  exact ⟨_, hread, heq, rfl⟩

/-- An assignment of a difference whose right operand needs its parentheses is read back. -/
theorem readExpr_written_difference :
    let name (x : String) : Expr := .ident default x
    let mark (p : Punct) : Token := .ofKind (.punct p)
    let x : Token := .ofKind (.ident "x")
    let y : Token := .ofKind (.ident "y")
    let e : Expr := .assign default none (name "x")
      (.binary default .sub (name "y") (.binary default .sub (name "y") (.int default 1)))
    let ts := [x, mark .eq, y, mark .minus, mark .lparen, y, mark .minus, .ofKind (.int 1), mark .rparen]
    e.isWritable ∧ e.Written 0 ts ∧ ∃ p, readExpr (ts ++ [.ofKind .eof]) = .ok p ∧
      p.value.unplaced = e ∧ p.rest = [.ofKind .eof] := by
  intro name mark x y e ts
  have hx : (name "x").Written 1 [x] := .ident (by omega) rfl
  have hy : ∀ n ≤ 15, (name "y").Written n [y] := fun n hn => .ident hn rfl
  have hone : (Expr.int default 1).Written 11 [.ofKind (.int 1)] := .int (by omega) (by omega) rfl
  have hinner : Expr.Written 0 ((BinarySymbol.plain .sub).join default (name "y") (.int default 1))
      [y, mark .minus, .ofKind (.int 1)] := .join (by omega) (hy _ (by decide)) rfl hone
  have houter : Expr.Written 0 ((BinarySymbol.plain .sub).join default (name "y") _) _ :=
    .join (by omega) (hy _ (by decide)) (t := mark .minus) rfl
    (.parens (n := 11) (by omega) (t := mark .lparen) (u := mark .rparen) rfl hinner rfl)
  have hts : e.Written 0 ts := .assign rfl hx (t := mark .eq) rfl houter
  exact ⟨rfl, hts, (readExpr_written (e := e) rfl).2 ts _ hts rfl⟩

end PathScout

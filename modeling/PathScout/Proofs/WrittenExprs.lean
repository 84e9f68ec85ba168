import Mathlib.Tactic
import PathScout.Tree.Reader

/-!
# Expressions as they are written

How an expression may be written as tokens, with parentheses wherever its operators need them and
anywhere else.

* `BinarySymbol.level`, `BinarySymbol.mark`, `assignmentMark?`, `UnaryOp.markBefore?`,
  `UnaryOp.markAfter?`: the operators with their levels and punctuators.
* `CType.Written`: the writings of a type: a base type, stars, and sizes in brackets.
* `Expr.Written`: the writings of an expression in a place that asks for a given rank.
* `Expr.unplaced`: an expression without the spans of its parts.
* `Expr.Writable`, `Expr.exists_written`: the expressions that have a writing in every place.
-/

namespace PathScout

open Bool

variable {type : CType}

/-! ### Operators -/

/-- How loosely an operator between two operands binds: products bind tightest. -/
def BinaryOp.level : BinaryOp → Nat
  | mul | div | rem => 10
  | add | sub => 9
  | shl | shr => 8
  | lt | le | gt | ge => 7
  | eq | ne => 6
  | bitAnd => 5
  | bitXor => 4
  | bitOr => 3

/-- The punctuator of an operator between two operands. -/
def BinaryOp.mark : BinaryOp → Punct
  | mul => .star
  | div => .slash
  | rem => .percent
  | add => .plus
  | sub => .minus
  | shl => .shl
  | shr => .shr
  | lt => .lt
  | le => .le
  | gt => .gt
  | ge => .ge
  | eq => .eqEq
  | ne => .notEq
  | bitAnd => .amp
  | bitXor => .caret
  | bitOr => .pipe

namespace BinarySymbol

/-- The ten levels of the operators between two operands; a disjunction binds loosest. -/
def level : BinarySymbol → Nat
  | plain op => op.level
  | logical .and => 2
  | logical .or => 1

/-- The punctuator of an operator. -/
def mark : BinarySymbol → Punct
  | plain op => op.mark
  | logical .and => .andAnd
  | logical .or => .orOr

/-- The expression of an operator between two operands. -/
def join (s : Span) (l r : Expr) : BinarySymbol → Expr
  | plain op => .binary s op l r
  | logical op => .logical s op l r

theorem level_pos (op : BinarySymbol) : 1 ≤ op.level := by
  cases op with
  | plain op | logical op => cases op <;> decide

theorem level_le (op : BinarySymbol) : op.level ≤ 10 := by
  cases op with
  | plain op | logical op => cases op <;> decide

/-- The reader knows the operators with their levels. -/
theorem ofToken?_mark (op : BinarySymbol) :
    BinarySymbol.ofToken? (.punct op.mark) = some (op.level, op) := by
  cases op with
  | plain op | logical op => cases op <;> rfl

end BinarySymbol

/-- The punctuator of an assignment, where there is one: comparisons cannot be combined with it. -/
def assignmentMark? : Option BinaryOp → Option Punct
  | none => some .eq
  | some .add => some .plusEq
  | some .sub => some .minusEq
  | some .mul => some .starEq
  | some .div => some .slashEq
  | some .rem => some .percentEq
  | some .bitAnd => some .ampEq
  | some .bitOr => some .pipeEq
  | some .bitXor => some .caretEq
  | some .shl => some .shlEq
  | some .shr => some .shrEq
  | some _ => none

/-- The punctuator in front of the operand. -/
def UnaryOp.markBefore? : UnaryOp → Option Punct
  | neg => some .minus
  | not => some .bang
  | bitNot => some .tilde
  | preInc => some .plusPlus
  | preDec => some .minusMinus
  | deref => some .star
  | addrOf => some .amp
  | postInc | postDec => none

/-- The punctuator after the operand. -/
def UnaryOp.markAfter? : UnaryOp → Option Punct
  | postInc => some .plusPlus
  | postDec => some .minusMinus
  | _ => none

theorem UnaryOp.markBefore?_or_markAfter? (op : UnaryOp) :
    (∃ m, op.markBefore? = some m) ∨ ∃ m, op.markAfter? = some m := by
  cases op <;> simp [markBefore?, markAfter?]

/-! ### Types -/

/-- The writings of a type without sizes: a base type and stars. -/
inductive CType.Starred : CType → List Token → Prop
  | plain {type : CType} {t : Token} (h : t.kind.plainType? = some type) : Starred type [t]
  | struct {name : String} {t u : Token} (ht : t.kind = .keyword .struct) (hu : u.kind = .ident name) :
      Starred (.struct name) [t, u]
  | pointer {type : CType} {ts : List Token} {t : Token} (h : Starred type ts)
      (ht : t.kind = .punct .star) : Starred (.pointer type) (ts ++ [t])

/-- The writings of sizes in brackets. -/
inductive SizesWritten : List Nat → List Token → Prop
  | nil : SizesWritten [] []
  | cons {n : Nat} {sizes : List Nat} {t u v : Token} {ts : List Token}
      (ht : t.kind = .punct .lbracket) (hu : u.kind = .int n) (hv : v.kind = .punct .rbracket)
      (h : SizesWritten sizes ts) : SizesWritten (n :: sizes) (t :: u :: v :: ts)

/-- The writings of a type: a base type, stars, and sizes, the outermost one first. -/
inductive CType.Written : CType → List Token → Prop
  | mk {type : CType} {sizes : List Nat} {ts us : List Token} (h : Starred type ts)
      (hs : SizesWritten sizes us) : Written (type.withSizes (sizes.map some)) (ts ++ us)

/-! ### Expressions -/

/-- Arguments with commas between them. -/
inductive Separated : List (List Token) → List Token → Prop
  | nil : Separated [] []
  | single (ts : List Token) : Separated [ts] ts
  | cons {ts : List Token} {rest : List (List Token)} {us : List Token} {t : Token}
      (ht : t.kind = .punct .comma) (hne : rest ≠ []) (h : Separated rest us) :
      Separated (ts :: rest) (ts ++ t :: us)

/-- The writings of an expression where one of at least the given rank is asked for. The ranks are
0 for an assignment, 1 for `?:`, one more than its level for an operator between two operands, 12
for a cast, 13 for an operator in front of its operand and for `sizeof`, 14 for what stands after
its operand, and 15 for names, literals and parentheses. Assignments and `?:` group to the right,
operators between two operands to the left. -/
inductive Expr.Written : Nat → Expr → List Token → Prop
  | parens {n : Nat} {e : Expr} {ts : List Token} {t u : Token} (hn : n ≤ 15)
      (ht : t.kind = .punct .lparen) (h : Written 0 e ts) (hu : u.kind = .punct .rparen) :
      Written n e (t :: (ts ++ [u]))
  | int {n : Nat} {s : Span} {v : Int} {t : Token} (hn : n ≤ 15) (hv : 0 ≤ v) (ht : t.kind = .int v) :
      Written n (.int s v) [t]
  | char {n : Nat} {s : Span} {v : Int} {t : Token} (hn : n ≤ 15) (ht : t.kind = .char v) :
      Written n (.char s v) [t]
  | string {n : Nat} {s : Span} {text : String} {t : Token} (hn : n ≤ 15)
      (ht : t.kind = .string text) : Written n (.string s text) [t]
  | null {n : Nat} {s : Span} {t : Token} (hn : n ≤ 15) (ht : t.kind = .keyword .null) :
      Written n (.null s) [t]
  | ident {n : Nat} {s : Span} {name : String} {t : Token} (hn : n ≤ 15) (ht : t.kind = .ident name) :
      Written n (.ident s name) [t]
  | index {n : Nat} {s : Span} {b i : Expr} {bs is : List Token} {t u : Token} (hn : n ≤ 14)
      (hb : Written 14 b bs) (ht : t.kind = .punct .lbracket) (hi : Written 0 i is)
      (hu : u.kind = .punct .rbracket) : Written n (.index s b i) (bs ++ t :: (is ++ [u]))
  | member {n : Nat} {s : Span} {b : Expr} {field : String} {arrow : Bool} {bs : List Token}
      {t u : Token} (hn : n ≤ 14) (hb : Written 14 b bs) (ht : selection? t.kind = some arrow)
      (hu : u.kind = .ident field) : Written n (.member s b field arrow) (bs ++ [t, u])
  | call {n : Nat} {s : Span} {callee : String} {args : List (Expr × List Token)} {ts : List Token}
      {t u v : Token} (hn : n ≤ 14) (ht : t.kind = .ident callee) (hu : u.kind = .punct .lparen)
      (hargs : ∀ arg ∈ args, Written 0 arg.1 arg.2) (hts : Separated (args.map (·.2)) ts)
      (hv : v.kind = .punct .rparen) :
      Written n (.call s callee (args.map (·.1))) (t :: u :: (ts ++ [v]))
  | after {n : Nat} {s : Span} {op : UnaryOp} {a : Expr} {ts : List Token} {t : Token} {mark : Punct}
      (hn : n ≤ 14) (hop : op.markAfter? = some mark) (ha : Written 14 a ts)
      (ht : t.kind = .punct mark) : Written n (.unary s op a) (ts ++ [t])
  | before {n : Nat} {s : Span} {op : UnaryOp} {a : Expr} {ts : List Token} {t : Token} {mark : Punct}
      (hn : n ≤ 13) (hop : op.markBefore? = some mark) (ht : t.kind = .punct mark)
      (ha : Written 12 a ts) : Written n (.unary s op a) (t :: ts)
  | sizeofType {n : Nat} {s : Span} {type : CType} {ts : List Token} {t u v : Token} (hn : n ≤ 13)
      (ht : t.kind = .keyword .sizeof) (hu : u.kind = .punct .lparen) (htype : type.Written ts)
      (hv : v.kind = .punct .rparen) : Written n (.sizeofType s type) (t :: u :: (ts ++ [v]))
  | sizeofExpr {n : Nat} {s : Span} {a : Expr} {ts : List Token} {t : Token} (hn : n ≤ 13)
      (ht : t.kind = .keyword .sizeof) (ha : Written 13 a ts) : Written n (.sizeofExpr s a) (t :: ts)
  | cast {n : Nat} {s : Span} {type : CType} {a : Expr} {ts us : List Token} {t u : Token} (hn : n ≤ 12)
      (ht : t.kind = .punct .lparen) (htype : type.Written ts) (hu : u.kind = .punct .rparen)
      (ha : Written 12 a us) : Written n (.cast s type a) (t :: (ts ++ u :: us))
  | join {n : Nat} {s : Span} {op : BinarySymbol} {l r : Expr} {ls rs : List Token} {t : Token}
      (hn : n ≤ op.level + 1) (hl : Written (op.level + 1) l ls) (ht : t.kind = .punct op.mark)
      (hr : Written (op.level + 2) r rs) : Written n (op.join s l r) (ls ++ t :: rs)
  | conditional {n : Nat} {s : Span} {c y o : Expr} {cs ys os : List Token} {t u : Token} (hn : n ≤ 1)
      (hc : Written 2 c cs) (ht : t.kind = .punct .question) (hy : Written 0 y ys)
      (hu : u.kind = .punct .colon) (ho : Written 1 o os) :
      Written n (.conditional s c y o) (cs ++ t :: (ys ++ u :: os))
  | assign {s : Span} {op : Option BinaryOp} {mark : Punct} {target value : Expr}
      {ts vs : List Token} {t : Token} (hop : assignmentMark? op = some mark)
      (htarget : Written 1 target ts) (ht : t.kind = .punct mark) (hvalue : Written 0 value vs) :
      Written 0 (.assign s op target value) (ts ++ t :: vs)

/-! ### Expressions without places -/

mutual

/-- The expression without the spans of its parts. -/
@[simp] def Expr.unplaced : Expr → Expr
  | int _ v => int default v
  | char _ v => char default v
  | string _ text => string default text
  | null _ => null default
  | ident _ name => ident default name
  | binary _ op l r => binary default op l.unplaced r.unplaced
  | logical _ op l r => logical default op l.unplaced r.unplaced
  | unary _ op a => unary default op a.unplaced
  | assign _ op t v => assign default op t.unplaced v.unplaced
  | conditional _ c y n => conditional default c.unplaced y.unplaced n.unplaced
  | call _ callee args => call default callee (unplacedAll args)
  | index _ b i => index default b.unplaced i.unplaced
  | member _ b field arrow => member default b.unplaced field arrow
  | cast _ type a => cast default type a.unplaced
  | sizeofType _ type => sizeofType default type
  | sizeofExpr _ a => sizeofExpr default a.unplaced

/-- The expressions without the spans of their parts. -/
@[simp] def Expr.unplacedAll : List Expr → List Expr
  | [] => []
  | e :: rest => e.unplaced :: unplacedAll rest

end

@[simp] theorem Expr.unplaced_withSpan (e : Expr) (s : Span) : (e.withSpan s).unplaced = e.unplaced := by
  cases e <;> rfl

theorem BinarySymbol.unplaced_join (op : BinarySymbol) (s : Span) (l r : Expr) :
    (op.join s l r).unplaced = op.join default l.unplaced r.unplaced := by
  cases op <;> rfl

theorem BinarySymbol.unplaced_apply (op : BinarySymbol) (l r : Expr) :
    (op.apply l r).unplaced = op.join default l.unplaced r.unplaced := by
  cases op <;> rfl

/-! ### What can be written -/

/-- Is the type made of a base type and stars? -/
def CType.isStarred : CType → Bool
  | pointer t => t.isStarred
  | array .. => false
  | _ => true

/-- Is the type made of a base type, stars, and arrays with sizes? -/
def CType.isWritable : CType → Bool
  | array t (some _) => t.isWritable
  | t => t.isStarred

mutual

/-- Can the expression be written? Literals are not negative, types are made of a base type, stars
and sizes, and comparisons are not combined with an assignment. -/
def Expr.isWritable : Expr → Bool
  | int _ v => 0 ≤ v
  | char .. | string .. | null _ | ident .. => true
  | binary _ _ l r | logical _ _ l r => l.isWritable && r.isWritable
  | unary _ _ a | sizeofExpr _ a | member _ a _ _ => a.isWritable
  | assign _ op t v => (assignmentMark? op).isSome && t.isWritable && v.isWritable
  | conditional _ c y n => c.isWritable && y.isWritable && n.isWritable
  | call _ _ args => areWritable args
  | index _ b i => b.isWritable && i.isWritable
  | cast _ type a => type.isWritable && a.isWritable
  | sizeofType _ type => type.isWritable

/-- Can all the expressions be written? -/
def Expr.areWritable : List Expr → Bool
  | [] => true
  | e :: rest => e.isWritable && areWritable rest

end

/-- A token at some place. -/
def Token.ofKind (kind : TokenKind) : Token := ⟨kind, .start, .start⟩

theorem CType.exists_starred (h : type.isStarred) : ∃ ts, Starred type ts := by
  induction type with
  | void => exact ⟨[.ofKind (.keyword .void)], .plain rfl⟩
  | char => exact ⟨[.ofKind (.keyword .char)], .plain rfl⟩
  | int => exact ⟨[.ofKind (.keyword .int)], .plain rfl⟩
  | struct name => exact ⟨[.ofKind (.keyword .struct), .ofKind (.ident name)], .struct rfl rfl⟩
  | pointer type ih =>
    obtain ⟨ts, hts⟩ := ih h
    exact ⟨ts ++ [.ofKind (.punct .star)], .pointer hts rfl⟩
  | array type size ih => cases h

theorem exists_sizesWritten (sizes : List Nat) : ∃ ts, SizesWritten sizes ts := by
  induction sizes with
  | nil => exact ⟨[], .nil⟩
  | cons n sizes ih =>
    obtain ⟨ts, hts⟩ := ih
    exact ⟨.ofKind (.punct .lbracket) :: .ofKind (.int n) :: .ofKind (.punct .rbracket) :: ts,
      .cons rfl rfl rfl hts⟩

/-- Arrays are taken apart from outside: what they are made of in the end is starred. -/
theorem CType.exists_withSizes (h : type.isWritable) :
    ∃ (inner : CType) (sizes : List Nat), inner.isStarred ∧ type = inner.withSizes (sizes.map some) := by
  induction type with
  | array type size ih =>
    cases size with
    | none => cases h
    | some n =>
      obtain ⟨inner, sizes, hinner, rfl⟩ := ih h
      exact ⟨inner, n :: sizes, hinner, rfl⟩
  | void | char | int | struct _ | pointer type ih => exact ⟨_, [], h, rfl⟩

theorem CType.exists_written (h : type.isWritable) : ∃ ts, Written type ts := by
  obtain ⟨inner, sizes, hinner, rfl⟩ := exists_withSizes h
  obtain ⟨ts, hts⟩ := exists_starred hinner
  obtain ⟨us, hus⟩ := exists_sizesWritten sizes
  exact ⟨ts ++ us, .mk hts hus⟩

theorem exists_separated (parts : List (List Token)) : ∃ ts, Separated parts ts := by
  induction parts with
  | nil => exact ⟨[], .nil⟩
  | cons part rest ih =>
    by_cases hrest : rest = []
    · exact ⟨part, hrest ▸ .single part⟩
    · obtain ⟨ts, hts⟩ := ih
      exact ⟨part ++ .ofKind (.punct .comma) :: ts, .cons rfl hrest hts⟩

namespace Expr

variable {s : Span}

/-- What can be written at all can be written in parentheses wherever an expression may stand. -/
theorem exists_written_of_zero {n : Nat} {e : Expr} {ts : List Token} (hn : n ≤ 15)
    (h : Written 0 e ts) : ∃ us, Written n e us :=
  ⟨_, .parens (t := .ofKind (.punct .lparen)) (u := .ofKind (.punct .rparen)) hn rfl h rfl⟩

theorem exists_written_join (op : BinarySymbol) {l r : Expr} (hl : ∀ n ≤ 15, ∃ ts, Written n l ts)
    (hr : ∀ n ≤ 15, ∃ ts, Written n r ts) : ∃ ts, Written 0 (op.join s l r) ts := by
  have hle := op.level_le
  obtain ⟨ls, hls⟩ := hl (op.level + 1) (by omega)
  obtain ⟨rs, hrs⟩ := hr (op.level + 2) (by omega)
  exact ⟨ls ++ .ofKind (.punct op.mark) :: rs, .join (by omega) hls rfl hrs⟩

theorem exists_written_unary {op : UnaryOp} {a : Expr} (ha : ∀ n ≤ 15, ∃ ts, Written n a ts) :
    ∃ ts, Written 0 (.unary s op a) ts := by
  obtain ⟨mark, hmark⟩ | ⟨mark, hmark⟩ := op.markBefore?_or_markAfter?
  · obtain ⟨ts, hts⟩ := ha 12 (by omega)
    exact ⟨.ofKind (.punct mark) :: ts, .before (by omega) hmark rfl hts⟩
  · obtain ⟨ts, hts⟩ := ha 14 (by omega)
    exact ⟨ts ++ [.ofKind (.punct mark)], .after (by omega) hmark hts rfl⟩

mutual

/-- **Every expression can be written**, in every place, if its literals and types can. -/
theorem exists_written {e : Expr} (h : e.isWritable) (n : Nat) (hn : n ≤ 15) :
    ∃ ts, Written n e ts := by
  suffices ∃ ts, Written 0 e ts by
    obtain ⟨ts, hts⟩ := this
    exact exists_written_of_zero hn hts
  match e with
  | .int _ v => exact ⟨[.ofKind (.int v)], .int (by omega) (by simpa [isWritable] using h) rfl⟩
  | .char _ v => exact ⟨[.ofKind (.char v)], .char (by omega) rfl⟩
  | .string _ text => exact ⟨[.ofKind (.string text)], .string (by omega) rfl⟩
  | .null _ => exact ⟨[.ofKind (.keyword .null)], .null (by omega) rfl⟩
  | .ident _ name => exact ⟨[.ofKind (.ident name)], .ident (by omega) rfl⟩
  | .binary s op l r =>
    simp only [isWritable, and_eq_true] at h
    exact exists_written_join (.plain op) (exists_written h.1) (exists_written h.2)
  | .logical s op l r =>
    simp only [isWritable, and_eq_true] at h
    exact exists_written_join (.logical op) (exists_written h.1) (exists_written h.2)
  | .unary s op a => exact exists_written_unary (exists_written (e := a) h)
  | .assign s op t v =>
    simp only [isWritable, and_eq_true, Option.isSome_iff_exists] at h
    obtain ⟨⟨⟨mark, hmark⟩, ht⟩, hv⟩ := h
    obtain ⟨ts, hts⟩ := exists_written ht 1 (by omega)
    obtain ⟨vs, hvs⟩ := exists_written hv 0 (by omega)
    exact ⟨ts ++ .ofKind (.punct mark) :: vs, .assign hmark hts rfl hvs⟩
  | .conditional s c y o =>
    simp only [isWritable, and_eq_true] at h
    obtain ⟨cs, hcs⟩ := exists_written h.1.1 2 (by omega)
    obtain ⟨ys, hys⟩ := exists_written h.1.2 0 (by omega)
    obtain ⟨os, hos⟩ := exists_written h.2 1 (by omega)
    exact ⟨cs ++ .ofKind (.punct .question) :: (ys ++ .ofKind (.punct .colon) :: os),
      .conditional (by omega) hcs rfl hys rfl hos⟩
  | .call s callee args =>
    obtain ⟨parts, hparts, hargs⟩ := exists_written_args h
    obtain ⟨ts, hts⟩ := exists_separated (parts.map (·.2))
    subst hargs
    exact ⟨.ofKind (.ident callee) :: .ofKind (.punct .lparen) :: (ts ++ [.ofKind (.punct .rparen)]),
      .call (by omega) rfl rfl hparts hts rfl⟩
  | .index s b i =>
    simp only [isWritable, and_eq_true] at h
    obtain ⟨bs, hbs⟩ := exists_written h.1 14 (by omega)
    obtain ⟨is, his⟩ := exists_written h.2 0 (by omega)
    exact ⟨bs ++ .ofKind (.punct .lbracket) :: (is ++ [.ofKind (.punct .rbracket)]),
      .index (by omega) hbs rfl his rfl⟩
  | .member s b field arrow =>
    obtain ⟨bs, hbs⟩ := exists_written (e := b) h 14 (by omega)
    cases arrow with
    | true =>
      exact ⟨bs ++ [.ofKind (.punct .arrow), .ofKind (.ident field)], .member (by omega) hbs rfl rfl⟩
    | false =>
      exact ⟨bs ++ [.ofKind (.punct .dot), .ofKind (.ident field)], .member (by omega) hbs rfl rfl⟩
  | .cast s type a =>
    simp only [isWritable, and_eq_true] at h
    obtain ⟨ts, hts⟩ := CType.exists_written h.1
    obtain ⟨us, hus⟩ := exists_written h.2 12 (by omega)
    exact ⟨.ofKind (.punct .lparen) :: (ts ++ .ofKind (.punct .rparen) :: us),
      .cast (by omega) rfl hts rfl hus⟩
  | .sizeofType s type =>
    obtain ⟨ts, hts⟩ := CType.exists_written h
    exact ⟨.ofKind (.keyword .sizeof) :: .ofKind (.punct .lparen) :: (ts ++ [.ofKind (.punct .rparen)]),
      .sizeofType (by omega) rfl rfl hts rfl⟩
  | .sizeofExpr s a =>
    obtain ⟨ts, hts⟩ := exists_written (e := a) h 13 (by omega)
    exact ⟨.ofKind (.keyword .sizeof) :: ts, .sizeofExpr (by omega) rfl hts⟩

theorem exists_written_args {args : List Expr} (h : areWritable args) :
    ∃ parts : List (Expr × List Token), (∀ part ∈ parts, Written 0 part.1 part.2) ∧
      parts.map (·.1) = args := by
  match args with
  | [] => exact ⟨[], by simp, rfl⟩
  | e :: rest =>
    simp only [areWritable, and_eq_true] at h
    obtain ⟨ts, hts⟩ := exists_written h.1 0 (by omega)
    obtain ⟨parts, hparts, hrest⟩ := exists_written_args h.2
    refine ⟨(e, ts) :: parts, ?_, by simp [hrest]⟩
    rintro part (_ | ⟨_, hpart⟩)
    · exact hts
    · exact hparts part hpart

end

end Expr

end PathScout

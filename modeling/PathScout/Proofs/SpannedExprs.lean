import Mathlib
import PathScout.Proofs.ReaderAgreement
import PathScout.Proofs.TokenPlaces

/-!
# What expressions cover

An expression is read from tokens that follow each other. It covers them from one of them on to the end of the
last, and what is inside it is read from some of them. What extends an operand is laid on the tokens of this and
on those taken after it. All readers that are not of expressions only pass on what those gave them.

* `Expr.children`, `Expr.Inside`: what is directly inside an expression, and what is inside it at all.
* `Expr.LaidOn`: the tokens that an expression and all that is inside it were read from.
* `LaidOn.enclose`, `LaidOn.extend`: an expression that begins with a token, or with another expression.
* `SourceUnit.exprs`, `Reader.exprs`: the expressions of a source unit, and of what a reader gives.
* `Script.Laying`, `Script.placing`: what a reader lays on which tokens, and the contracts for this.
* `Script.gathering`: the weaker contracts under which readers that are not of expressions are checked.
* `Script.meets_placing`, `Script.laying_of_readerOf`: every reader lays out what it gives.
* `SourceUnit.positions_nested`: positions in a text are ordered and nested.
-/

namespace PathScout

open List

/-! ### Expressions on tokens -/

/-- The expressions directly inside an expression. -/
def Expr.children : Expr → List Expr
  | int .. | char .. | string .. | null _ | ident .. | sizeofType .. => []
  | unary _ _ e | cast _ _ e | sizeofExpr _ e | member _ e _ _ => [e]
  | binary _ _ l r | logical _ _ l r => [l, r]
  | assign _ _ target value => [target, value]
  | index _ base i => [base, i]
  | conditional _ cond yes no => [cond, yes, no]
  | call _ _ args => args

/-- The first expression is a proper part of the second. -/
def Expr.Inside : Expr → Expr → Prop := Relation.TransGen fun c e => c ∈ e.children

/-- The first span lies within the second. -/
def Span.Within (s s' : Span) : Prop := s'.first.le s.first = true ∧ s.last.le s'.last = true

/-- An expression begins with one of the tokens and ends with the last of them. -/
structure Expr.StandsOn (e : Expr) (taken : List Token) : Prop where
  first : ∃ t ∈ taken, e.span.first = t.location
  last : ∃ t ∈ taken.getLast?, e.span.last = t.last

/-- An expression stands on some tokens, and what is inside it on tokens that follow each other among them, within
its span. -/
inductive Expr.LaidOn : Expr → List Token → Prop
  | intro {e : Expr} {taken : List Token} (part : Expr → List Token) (stands : e.StandsOn taken)
      (within : ∀ c ∈ e.children, part c <:+: taken ∧ c.span.Within e.span)
      (laid : ∀ c ∈ e.children, LaidOn c (part c)) : LaidOn e taken

/-! ### Order on tokens -/

namespace InOrder

variable {ts ts' : List Token} {t u : Token}

theorem sublist (h : InOrder ts) (hs : List.Sublist ts' ts) : InOrder ts' :=
  ⟨fun t ht => h.ends t (hs.subset ht), h.steps.sublist hs⟩

/-- No token ends after the last one. -/
theorem le_last (h : InOrder ts) (ht : t ∈ ts) (hu : u ∈ ts.getLast?) : t.last.le u.last = true := by
  obtain ⟨before, rfl⟩ := getLast?_eq_some_iff.1 hu
  obtain ht | rfl := by simpa using ht
  · exact ((pairwise_append.1 h.steps).2.2 t ht u (by simp)).2
  · exact Location.le_refl _

/-- Of two parts of the tokens, the second begins no earlier than the first. -/
theorem le_of_append (h : InOrder (ts ++ ts')) (ht : t ∈ ts) (hu : u ∈ ts') :
    t.location.le u.location = true :=
  ((pairwise_append.1 h.steps).2.2 t ht u hu).1

end InOrder

namespace Expr

variable {e l : Expr} {taken before : List Token} {t : Token}

namespace LaidOn

theorem stands (h : e.LaidOn taken) : e.StandsOn taken := by
  cases h with
  | intro _ stands => exact stands

theorem child (h : e.LaidOn taken) {c : Expr} (hc : c ∈ e.children) :
    c.span.Within e.span ∧ ∃ part, part <:+: taken ∧ c.LaidOn part := by
  cases h with
  | intro part _ within laid => exact ⟨(within c hc).2, part c, (within c hc).1, laid c hc⟩

theorem of_children (hstands : e.StandsOn taken)
    (hc : ∀ c ∈ e.children, c.span.Within e.span ∧ ∃ part, part <:+: taken ∧ c.LaidOn part) :
    e.LaidOn taken := by
  choose! hwithin part hpart hlaid using hc
  exact .intro part hstands (fun c h => ⟨hpart c h, hwithin c h⟩) hlaid

/-- What is inside an expression lies within its span, on tokens of its own. -/
theorem inside (h : e.LaidOn taken) {d : Expr} (hd : d.Inside e) :
    d.span.Within e.span ∧ ∃ part, part <:+: taken ∧ d.LaidOn part := by
  induction hd using Relation.TransGen.head_induction_on with
  | single hc => exact h.child hc
  | head hc _ ih =>
    obtain ⟨hwithin, part, hpart, hlaid⟩ := ih
    obtain ⟨hwithin', part', hpart', hlaid'⟩ := hlaid.child hc
    refine ⟨⟨Location.le_trans hwithin.1 hwithin'.1, Location.le_trans hwithin'.2 hwithin.2⟩, part', ?_, hlaid'⟩
    exact hpart'.trans hpart

/-- The last token is still the last one after others. -/
theorem last_of_suffix (h : e.LaidOn taken) {all : List Token} (hall : taken <:+ all) :
    ∃ u ∈ all.getLast?, e.span.last = u.last := by
  obtain ⟨before, rfl⟩ := hall
  obtain ⟨u, hu, heq⟩ := h.stands.last
  exact ⟨u, by rw [getLast?_append, Option.mem_def.1 hu]; rfl, heq⟩

/-- An expression that begins with a token has the rest inside it. -/
theorem enclose (hord : InOrder (t :: taken)) (hfirst : e.span.first = t.location)
    (hlast : ∃ u ∈ (t :: taken).getLast?, e.span.last = u.last)
    (hc : ∀ c ∈ e.children, ∃ part, part <:+: taken ∧ c.LaidOn part) : e.LaidOn (t :: taken) := by
  refine of_children ⟨⟨t, mem_cons_self, hfirst⟩, hlast⟩ fun c hmem => ?_
  obtain ⟨part, hpart, hlaid⟩ := hc c hmem
  obtain ⟨v, hv, hvfirst⟩ := hlaid.stands.first
  obtain ⟨w, hw, hwlast⟩ := hlaid.stands.last
  obtain ⟨u, hu, hulast⟩ := hlast
  refine ⟨⟨?_, ?_⟩, part, hpart.trans (suffix_cons t taken).isInfix, hlaid⟩
  · rw [hfirst, hvfirst]
    exact (pairwise_cons.1 hord.steps).1 v (hpart.subset hv) |>.1
  · rw [hulast, hwlast]
    exact hord.le_last (mem_cons_of_mem t (hpart.subset (mem_of_getLast? hw))) hu

/-- An expression that begins with another one has it and some of the tokens after it inside. -/
theorem extend (hl : l.LaidOn before) (hord : InOrder (before ++ taken))
    (hfirst : e.span.first = l.span.first)
    (hlast : ∃ u ∈ taken.getLast?, e.span.last = u.last)
    (hc : ∀ c ∈ e.children, c = l ∨ ∃ part, part <:+: taken ∧ c.LaidOn part) :
    e.LaidOn (before ++ taken) := by
  obtain ⟨t, ht, htfirst⟩ := hl.stands.first
  obtain ⟨u, hu, hulast⟩ := hlast
  replace hu : u ∈ (before ++ taken).getLast? := by
    rw [getLast?_append, Option.mem_def.1 hu]
    rfl
  refine of_children ⟨⟨t, mem_append_left taken ht, hfirst.trans htfirst⟩, u, hu, hulast⟩ fun c hmem => ?_
  obtain rfl | ⟨part, hpart, hlaid⟩ := hc c hmem
  · obtain ⟨w, hw, hwlast⟩ := hl.stands.last
    refine ⟨⟨hfirst ▸ Location.le_refl _, ?_⟩, before, (prefix_append before taken).isInfix, hl⟩
    rw [hulast, hwlast]
    exact hord.le_last (mem_append_left taken (mem_of_getLast? hw)) hu
  · obtain ⟨v, hv, hvfirst⟩ := hlaid.stands.first
    obtain ⟨w, hw, hwlast⟩ := hlaid.stands.last
    refine ⟨⟨?_, ?_⟩, part, hpart.trans (suffix_append before taken).isInfix, hlaid⟩
    · rw [hfirst, htfirst, hvfirst]
      exact hord.le_of_append ht (hpart.subset hv)
    · rw [hulast, hwlast]
      exact hord.le_last (mem_append_right before (hpart.subset (mem_of_getLast? hw))) hu

/-- A token in front that leaves no trace. -/
theorem cons (h : e.LaidOn taken) (t : Token) : e.LaidOn (t :: taken) := by
  obtain ⟨v, hv, hvfirst⟩ := h.stands.first
  refine of_children ⟨⟨v, mem_cons_of_mem t hv, hvfirst⟩, h.last_of_suffix (suffix_cons t taken)⟩ fun c hc => ?_
  obtain ⟨hwithin, part, hpart, hlaid⟩ := h.child hc
  exact ⟨hwithin, part, hpart.trans (suffix_cons t taken).isInfix, hlaid⟩

/-- No expression ends before it begins. -/
theorem first_le_last (h : e.LaidOn taken) (hord : InOrder taken) :
    e.span.first.le e.span.last = true := by
  obtain ⟨t, ht, htfirst⟩ := h.stands.first
  obtain ⟨u, hu, hulast⟩ := h.stands.last
  rw [htfirst, hulast]
  exact Location.le_trans (hord.ends t ht) (hord.le_last ht hu)

end LaidOn

theorem span_withSpan (e : Expr) (s : Span) : (e.withSpan s).span = s := by
  cases e <;> rfl

theorem children_withSpan (e : Expr) (s : Span) : (e.withSpan s).children = e.children := by
  cases e <;> rfl

theorem span_apply (op : BinarySymbol) (l r : Expr) :
    (op.apply l r).span = ⟨l.span.first, r.span.last⟩ := by
  cases op <;> rfl

theorem children_apply (op : BinarySymbol) (l r : Expr) : (op.apply l r).children = [l, r] := by
  cases op <;> rfl

end Expr

/-! ### The expressions of a text -/

mutual

/-- The expressions that an initializer is made of. -/
def Initializer.exprs : Initializer → List Expr
  | .expr e => [e]
  | .list _ elements => exprsIn elements

/-- The expressions of some initializers. -/
def Initializer.exprsIn : List Initializer → List Expr
  | [] => []
  | i :: more => exprs i ++ exprsIn more

end

/-- The expressions that a variable starts with. -/
def VarDecl.exprs (d : VarDecl) : List Expr := d.init.toList.flatMap Initializer.exprs

mutual

/-- The expressions of a statement and of the statements in it. -/
def Stmt.exprs : Stmt → List Expr
  | .decl _ decls => decls.flatMap VarDecl.exprs
  | .expr _ e => [e]
  | .block _ body => exprsIn body
  | .ifThen _ cond yes no => cond :: (exprs yes ++ exprsOf no)
  | .whileDo _ cond body => cond :: exprs body
  | .doWhile _ body cond => cond :: exprs body
  | .forDo _ init cond step body => exprsOf init ++ cond.toList ++ step.toList ++ exprs body
  | .switch _ cond cases => cond :: exprsOfCases cases
  | .return _ value => value.toList
  | .break _ | .continue _ | .goto .. | .label .. | .empty _ => []

/-- The expressions of some statements. -/
def Stmt.exprsIn : List Stmt → List Expr
  | [] => []
  | s :: more => exprs s ++ exprsIn more

/-- The expressions of a statement that may be left out. -/
def Stmt.exprsOf : Option Stmt → List Expr
  | none => []
  | some s => exprs s

/-- The expressions of some cases. -/
def Stmt.exprsOfCases : List (Location × Option Expr × List Stmt) → List Expr
  | [] => []
  | (_, value, body) :: more => value.toList ++ exprsIn body ++ exprsOfCases more

end

/-- The expressions of a line in the body of a switch. -/
def CaseLine.exprs : CaseLine → List Expr
  | .head _ value => value.toList
  | .stmt s => s.exprs

/-- The expressions of an item. -/
def Item.exprs : Item → List Expr
  | .function d => d.body.toList.flatMap Stmt.exprsIn
  | .struct _ => []
  | .global d => d.exprs

/-- The expressions of a source text, each with all that is inside it. -/
def SourceUnit.exprs (u : SourceUnit) : List Expr := u.items.flatMap Item.exprs

/-- The expressions that a reader gives. -/
def Reader.exprs : (r : Reader) → r.Out → List Expr
  | .expr, e | .ternary, e | .binary _, e | .binaryTail .., e | .cast, e | .unary, e | .operand, e
  | .operandTail _, e | .primary, e | .condition .., e => [e]
  | .args, es | .moreArgs, es => es
  | .initializer, i => i.exprs
  | .initializers, is => Initializer.exprsIn is
  | .init, i => i.toList.flatMap Initializer.exprs
  | .declsFrom .., ds | .localDecls, ds => ds.flatMap VarDecl.exprs
  | .optionalExpr _, e => e.toList
  | .forInit, s => Stmt.exprsOf s
  | .plainStmt, s | .stmt, s => s.exprs
  | .block, ss => Stmt.exprsIn ss
  | .caseLines, lines => lines.flatMap CaseLine.exprs
  | .function _, f => Item.exprs (.function f)
  | .item, is | .items, is => is.flatMap Item.exprs
  | .qualifiers _, _ | .consts, _ | .base, _ | .stars .., _ | .strings .., _ | .type, _ | .sizes, _
  | .declarator _, _ | .fieldNames _, _ | .fields, _ | .struct _, _ | .param, _ | .paramTail, _
  | .params, _ => []

namespace Script

variable (tokens : List Token) {ts left : List Token}

/-- Some of the tokens that follow each other carry the expression. -/
def Carried (tokens : List Token) (e : Expr) : Prop := ∃ part, part <:+: tokens ∧ e.LaidOn part

/-- What a reader gives is laid on the tokens that it took; what extends an operand is laid on the tokens of this
and on those that it took. -/
def Laying : (r : Reader) → List Token → r.Out → List Token → Prop
  | .expr, ts, e, left | .ternary, ts, e, left | .binary _, ts, e, left | .cast, ts, e, left
  | .unary, ts, e, left | .operand, ts, e, left | .primary, ts, e, left =>
    ∃ taken, ts = taken ++ left ∧ e.LaidOn taken
  | .binaryTail _ l, ts, e, left | .operandTail l, ts, e, left =>
    ∃ taken, ts = taken ++ left ∧
      ∀ before, before ++ ts <:+ tokens → l.LaidOn before → e.LaidOn (before ++ taken)
  | .args, ts, es, left | .moreArgs, ts, es, left =>
    ∃ taken, ts = taken ++ left ∧ ∀ e ∈ es, Carried taken e
  | .strings _ last, ts, out, left =>
    ∃ taken, ts = taken ++ left ∧ out.2 = (taken.getLast?.map Token.last).getD last
  | r, ts, b, left => left <:+ ts ∧ ∀ e ∈ r.exprs b, Carried tokens e

/-- The contracts of laying out expressions on what is left of some tokens. -/
def placing : Contracts where
  asked _ ts := ts <:+ tokens
  given := Laying tokens

variable {tokens}

/-! ### Readers of expressions -/

theorem mem_getLast?_concat (ts : List Token) (t : Token) : t ∈ (ts ++ [t]).getLast? := by simp

theorem suffix_of_eq {tokens : List Token} (taken : List Token) (hts : ts <:+ tokens)
    (h : ts = taken ++ left) : left <:+ tokens :=
  (suffix_append taken left).trans (h ▸ hts)

section

variable (hord : InOrder tokens) {ts taken left : List Token} (hts : ts <:+ tokens) {e : Expr}

include hord hts in
theorem inOrder_of_eq (h : ts = taken ++ left) : InOrder taken :=
  hord.sublist ((sublist_append_left taken left).trans (h ▸ hts.sublist))

include hts in
theorem placing_strings (content : String) (last : Location) :
    Meets (placing tokens) (of (.strings content last)) ts (Laying tokens (.strings content last) ts) := by
  rw [of]
  refine .acceptAs_bind rfl ⟨[], rfl, rfl⟩ fun more t ts1 h1 _ => ?_
  refine .ask (suffix_of_eq [t] hts h1) fun out ts2 hout => ?_
  obtain ⟨taken, h2, hlast⟩ := hout
  refine ⟨t :: taken, by simp [h1, h2], hlast.trans ?_⟩
  cases hu : taken.getLast? <;> simp [getLast?_cons, hu]

include hord hts

theorem placing_expr : Meets (placing tokens) (of .expr) ts (Laying tokens .expr ts) := by
  rw [of]
  refine .ask_bind hts fun target ts1 htarget => ?_
  refine .acceptAs_bind rfl htarget fun op t ts2 h2 _ => ?_
  obtain ⟨taken, h1, htarget⟩ := htarget
  refine .ask_bind (suffix_of_eq (taken ++ [t]) hts (by simp [h1, h2])) fun value ts3 hvalue => ?_
  obtain ⟨taken', h3, hvalue⟩ := hvalue
  have hall : ts = (taken ++ t :: taken') ++ ts3 := by simp [h1, h2, h3]
  refine ⟨_, hall, htarget.extend (inOrder_of_eq hord hts hall) rfl ?_ ?_⟩
  · exact hvalue.last_of_suffix ⟨[t], rfl⟩
  · refine forall_mem_cons.2 ⟨.inl rfl, forall_mem_singleton.2 (.inr ?_)⟩
    exact ⟨taken', ⟨[t], [], by simp⟩, hvalue⟩

theorem placing_ternary : Meets (placing tokens) (of .ternary) ts (Laying tokens .ternary ts) := by
  rw [of]
  refine .ask_bind hts fun cond ts1 hcond => ?_
  refine .accept_bind (by simp) hcond fun t ts2 h2 _ => ?_
  obtain ⟨taken, h1, hcond⟩ := hcond
  refine .ask_bind (suffix_of_eq (taken ++ [t]) hts (by simp [h1, h2])) fun yes ts3 hyes => ?_
  obtain ⟨takenYes, h3, hyes⟩ := hyes
  refine .require_bind (by simp) fun u ts4 h4 _ => ?_
  refine .ask_bind (suffix_of_eq (taken ++ t :: takenYes ++ [u]) hts (by simp [h1, h2, h3, h4]))
    fun no ts5 hno => ?_
  obtain ⟨takenNo, h5, hno⟩ := hno
  have hall : ts = (taken ++ (t :: takenYes ++ u :: takenNo)) ++ ts5 := by simp [h1, h2, h3, h4, h5]
  refine ⟨_, hall, hcond.extend (inOrder_of_eq hord hts hall) rfl ?_ ?_⟩
  · exact hno.last_of_suffix ⟨t :: takenYes ++ [u], by simp⟩
  · refine forall_mem_cons.2 ⟨.inl rfl, forall_mem_cons.2 ⟨.inr ?_, forall_mem_singleton.2 (.inr ?_)⟩⟩
    · exact ⟨takenYes, ⟨[t], u :: takenNo, by simp⟩, hyes⟩
    · exact ⟨takenNo, ⟨t :: takenYes ++ [u], [], by simp⟩, hno⟩

omit hord in
theorem placing_binary (level : Nat) :
    Meets (placing tokens) (of (.binary level)) ts (Laying tokens (.binary level) ts) := by
  rw [of]
  refine .ask_bind hts fun left ts1 hout => ?_
  obtain ⟨taken, h1, hleft⟩ := hout
  refine .ask (suffix_of_eq taken hts h1) fun e ts2 hout => ?_
  obtain ⟨taken', h2, he⟩ := hout
  exact ⟨taken ++ taken', by simp [h1, h2], he taken (h1 ▸ hts) hleft⟩

theorem placing_binaryTail (level : Nat) (l : Expr) :
    Meets (placing tokens) (of (.binaryTail level l)) ts (Laying tokens (.binaryTail level l) ts) := by
  rw [of]
  refine .acceptAs_bind rfl ⟨[], rfl, fun before _ hl => by simpa using hl⟩ fun p t ts1 h1 _ => ?_
  obtain ⟨level', op⟩ := p
  refine .ask_bind (suffix_of_eq [t] hts h1) fun right ts2 hout => ?_
  obtain ⟨taken, h2, hright⟩ := hout
  have hmid : ts = (t :: taken) ++ ts2 := by simp [h1, h2]
  refine .ask (suffix_of_eq (t :: taken) hts hmid) fun e ts3 hout => ?_
  obtain ⟨taken', h3, he⟩ := hout
  refine ⟨t :: taken ++ taken', by simp [hmid, h3], fun before hbefore hl => ?_⟩
  have hall : before ++ ts = (before ++ t :: taken) ++ ts2 := by simp [hmid]
  rw [← append_assoc]
  refine he (before ++ t :: taken) (hall ▸ hbefore) (hl.extend (inOrder_of_eq hord hbefore hall) ?_ ?_ ?_)
  · rw [Expr.span_apply]
  · rw [Expr.span_apply]
    exact hright.last_of_suffix ⟨[t], rfl⟩
  · rw [Expr.children_apply]
    refine forall_mem_cons.2 ⟨.inl rfl, forall_mem_singleton.2 (.inr ?_)⟩
    exact ⟨taken, ⟨[t], [], by simp⟩, hright⟩

theorem placing_cast : Meets (placing tokens) (of .cast) ts (Laying tokens .cast ts) := by
  rw [of]
  refine .peekTypeInParens_bind fun hparens => ?_
  split
  case isFalse => exact .ask hts fun e left he => he
  case isTrue hp =>
    refine .skip_bind (hparens hp) fun t ts1 h1 => ?_
    refine .ask_bind (suffix_of_eq [t] hts h1) fun type ts2 hout => ?_
    obtain ⟨⟨taken, h2⟩, -⟩ := hout
    refine .require_bind (by simp) fun u ts3 h3 _ => ?_
    refine .ask_bind (suffix_of_eq (t :: taken ++ [u]) hts (by simp [h1, ← h2, h3])) fun e ts4 he => ?_
    obtain ⟨taken', h4, he⟩ := he
    have hall : ts = (t :: (taken ++ u :: taken')) ++ ts4 := by simp [h1, ← h2, h3, h4]
    refine ⟨_, hall, .enclose (inOrder_of_eq hord hts hall) rfl ?_ ?_⟩
    · exact he.last_of_suffix ⟨t :: taken ++ [u], by simp⟩
    · exact forall_mem_singleton.2 ⟨taken', ⟨taken ++ [u], [], by simp⟩, he⟩

theorem placing_unary : Meets (placing tokens) (of .unary) ts (Laying tokens .unary ts) := by
  rw [of]
  refine .acceptAs_bind rfl ?_ fun op t ts1 h1 _ => ?_
  · refine .accept_bind (by simp) ?_ fun t ts1 h1 _ => ?_
    · refine .accept_bind (by simp) (.ask hts fun e left he => he) fun t ts1 h1 _ => ?_
      refine .peekTypeInParens_bind fun hparens => ?_
      have hts1 := suffix_of_eq [t] hts h1
      split
      case isTrue hp =>
        refine .skip_bind (hparens hp) fun u ts2 h2 => ?_
        refine .ask_bind (suffix_of_eq [u] hts1 h2) fun type ts3 hout => ?_
        obtain ⟨⟨taken, h3⟩, -⟩ := hout
        refine .require_bind (by simp) fun close ts4 h4 _ => ?_
        have hall : ts = (t :: (u :: taken ++ [close])) ++ ts4 := by simp [h1, h2, ← h3, h4]
        refine ⟨_, hall, .enclose (inOrder_of_eq hord hts hall) rfl ⟨close, ?_, rfl⟩ (forall_mem_nil _)⟩
        exact mem_getLast?_concat (t :: u :: taken) close
      case isFalse =>
        refine .ask_bind hts1 fun e ts2 hout => ?_
        obtain ⟨taken, h2, he⟩ := hout
        have hall : ts = (t :: taken) ++ ts2 := by simp [h1, h2]
        refine ⟨_, hall, .enclose (inOrder_of_eq hord hts hall) rfl (he.last_of_suffix ⟨[t], rfl⟩) ?_⟩
        exact forall_mem_singleton.2 ⟨taken, infix_refl taken, he⟩
    · refine .ask (suffix_of_eq [t] hts h1) fun e ts2 hout => ?_
      obtain ⟨taken, h2, he⟩ := hout
      exact ⟨t :: taken, by simp [h1, h2], he.cons t⟩
  · refine .ask_bind (suffix_of_eq [t] hts h1) fun e ts2 hout => ?_
    obtain ⟨taken, h2, he⟩ := hout
    have hall : ts = (t :: taken) ++ ts2 := by simp [h1, h2]
    refine ⟨_, hall, .enclose (inOrder_of_eq hord hts hall) rfl (he.last_of_suffix ⟨[t], rfl⟩) ?_⟩
    exact forall_mem_singleton.2 ⟨taken, infix_refl taken, he⟩

omit hord in
theorem placing_operand : Meets (placing tokens) (of .operand) ts (Laying tokens .operand ts) := by
  rw [of]
  refine .ask_bind hts fun e ts1 hout => ?_
  obtain ⟨taken, h1, he⟩ := hout
  refine .ask (suffix_of_eq taken hts h1) fun e' ts2 hout => ?_
  obtain ⟨taken', h2, he'⟩ := hout
  exact ⟨taken ++ taken', by simp [h1, h2], he' taken (h1 ▸ hts) he⟩

omit hord in
/-- An operand with some tokens after it is extended further. -/
theorem placing_operandTail_ask {e' : Expr} (h : ts = taken ++ left)
    (he : ∀ before, before ++ ts <:+ tokens → e.LaidOn before → e'.LaidOn (before ++ taken)) :
    Meets (placing tokens) (ask (.operandTail e')) left (Laying tokens (.operandTail e) ts) := by
  refine .ask (suffix_of_eq taken hts h) fun out left' hout => ?_
  obtain ⟨taken', h', hout⟩ := hout
  refine ⟨taken ++ taken', by simp [h, h'], fun before hbefore hlaid => ?_⟩
  rw [← append_assoc]
  exact hout (before ++ taken) (by rwa [append_assoc, ← h]) (he before hbefore hlaid)

theorem placing_operandTail (e : Expr) :
    Meets (placing tokens) (of (.operandTail e)) ts (Laying tokens (.operandTail e) ts) := by
  have hext {e' : Expr} (taken : List Token) {left : List Token} (h : ts = taken ++ left)
      (hfirst : e'.span.first = e.span.first) (hlast : ∃ u ∈ taken.getLast?, e'.span.last = u.last)
      (hc : ∀ c ∈ e'.children, c = e ∨ Carried taken c) :
      Meets (placing tokens) (ask (.operandTail e')) left (Laying tokens (.operandTail e) ts) :=
    placing_operandTail_ask hts h fun before hbefore he =>
      he.extend (inOrder_of_eq hord hbefore (by rw [h, append_assoc])) hfirst hlast hc
  rw [of]
  refine .accept_bind (by simp) ?_ fun t ts1 h1 _ => ?_
  · refine .acceptAs_bind rfl ?_ fun arrow t ts1 h1 _ => ?_
    · refine meets_bind.2 (meets_peekAt.2 ?_)
      refine .accept_bind (by simp) ?_ fun t ts1 h1 _ => ?_
      · refine .acceptAs_bind rfl ⟨[], rfl, fun before _ he => by simpa using he⟩ fun op t ts1 h1 _ => ?_
        refine hext [t] h1 rfl ⟨t, rfl, rfl⟩ ?_
        exact forall_mem_singleton.2 (.inl rfl)
      · cases e with
        | ident span callee =>
          refine .ask_bind (suffix_of_eq [t] hts h1) fun args ts2 hout => ?_
          obtain ⟨taken, h2, hargs⟩ := hout
          refine .require_bind (by simp) fun close ts3 h3 _ => ?_
          have hall : ts = (t :: taken ++ [close]) ++ ts3 := by simp [h1, h2, h3]
          refine hext _ hall rfl ⟨close, mem_getLast?_concat (t :: taken) close, rfl⟩ fun c hc => .inr ?_
          obtain ⟨part, hpart, hlaid⟩ := hargs c hc
          exact ⟨part, hpart.trans ⟨[t], [close], by simp⟩, hlaid⟩
        | _ => exact trivial
    · refine .requireName_bind fun field u ts2 h2 => ?_
      have hall : ts = [t, u] ++ ts2 := by simp [h1, h2]
      refine hext _ hall rfl ⟨u, rfl, rfl⟩ ?_
      exact forall_mem_singleton.2 (.inl rfl)
  · refine .ask_bind (suffix_of_eq [t] hts h1) fun i ts2 hout => ?_
    obtain ⟨taken, h2, hi⟩ := hout
    refine .require_bind (by simp) fun close ts3 h3 _ => ?_
    have hall : ts = (t :: taken ++ [close]) ++ ts3 := by simp [h1, h2, h3]
    refine hext _ hall rfl ⟨close, mem_getLast?_concat (t :: taken) close, rfl⟩ ?_
    refine forall_mem_cons.2 ⟨.inl rfl, forall_mem_singleton.2 (.inr ?_)⟩
    exact ⟨taken, ⟨[t], [close], by simp⟩, hi⟩

omit hord in
theorem placing_moreArgs : Meets (placing tokens) (of .moreArgs) ts (Laying tokens .moreArgs ts) := by
  rw [of]
  refine .accept_bind (by simp) ⟨[], rfl, forall_mem_nil _⟩ fun t ts1 h1 _ => ?_
  refine .ask_bind (suffix_of_eq [t] hts h1) fun e ts2 hout => ?_
  obtain ⟨taken, h2, he⟩ := hout
  refine .ask_bind (suffix_of_eq (t :: taken) hts (by simp [h1, h2])) fun es ts3 hout => ?_
  obtain ⟨taken', h3, hes⟩ := hout
  refine ⟨t :: taken ++ taken', by simp [h1, h2, h3], forall_mem_cons.2 ⟨?_, fun e' he' => ?_⟩⟩
  · exact ⟨taken, ⟨[t], taken', by simp⟩, he⟩
  · obtain ⟨part, hpart, hlaid⟩ := hes e' he'
    exact ⟨part, hpart.trans (suffix_append (t :: taken) taken').isInfix, hlaid⟩

omit hord in
theorem placing_args : Meets (placing tokens) (of .args) ts (Laying tokens .args ts) := by
  rw [of]
  refine meets_bind.2 (meets_peekAt.2 ?_)
  split
  · exact ⟨[], rfl, forall_mem_nil _⟩
  · refine .ask_bind hts fun e ts1 hout => ?_
    obtain ⟨taken, h1, he⟩ := hout
    refine .ask_bind (suffix_of_eq taken hts h1) fun es ts2 hout => ?_
    obtain ⟨taken', h2, hes⟩ := hout
    refine ⟨taken ++ taken', by simp [h1, h2], forall_mem_cons.2 ⟨?_, fun e' he' => ?_⟩⟩
    · exact ⟨taken, (prefix_append taken taken').isInfix, he⟩
    · obtain ⟨part, hpart, hlaid⟩ := hes e' he'
      exact ⟨part, hpart.trans (suffix_append taken taken').isInfix, hlaid⟩

omit hord hts in
theorem span_of_atom? {span : Span} {kind : TokenKind} (h : atom? span kind = some e) :
    e.span = span ∧ e.children = [] := by
  cases kind with
  | keyword k =>
    cases k <;> cases h
    exact ⟨rfl, rfl⟩
  | int | char | ident =>
    cases h
    exact ⟨rfl, rfl⟩
  | _ => cases h

theorem placing_primary : Meets (placing tokens) (of .primary) ts (Laying tokens .primary ts) := by
  rw [of]
  refine meets_bind.2 (meets_peekAt.2 ?_)
  refine .acceptAs_bind rfl ?_ fun e t ts1 h1 hatom => ?_
  · refine .acceptAs_bind rfl ?_ fun content t ts1 h1 _ => ?_
    · refine .accept_bind (by simp) trivial fun t ts1 h1 _ => ?_
      refine .ask_bind (suffix_of_eq [t] hts h1) fun e ts2 hout => ?_
      obtain ⟨taken, h2, he⟩ := hout
      refine .require_bind (by simp) fun close ts3 h3 _ => ?_
      have hall : ts = (t :: (taken ++ [close])) ++ ts3 := by simp [h1, h2, h3]
      refine ⟨_, hall, .enclose (inOrder_of_eq hord hts hall) ?_ ⟨close, ?_, ?_⟩ fun c hc => ?_⟩
      · rw [Expr.span_withSpan]
      · exact mem_getLast?_concat (t :: taken) close
      · rw [Expr.span_withSpan]
      · rw [Expr.children_withSpan] at hc
        obtain ⟨-, part, hpart, hlaid⟩ := he.child hc
        exact ⟨part, hpart.trans (prefix_append taken [close]).isInfix, hlaid⟩
    · refine .ask_bind (suffix_of_eq [t] hts h1) fun out ts2 hout => ?_
      obtain ⟨taken, h2, hlast⟩ := hout
      obtain ⟨content, last⟩ := out
      have hall : ts = (t :: taken) ++ ts2 := by simp [h1, h2]
      refine ⟨_, hall, .enclose (inOrder_of_eq hord hts hall) rfl ?_ (forall_mem_nil _)⟩
      replace hlast : last = (taken.getLast?.map Token.last).getD t.last := hlast
      cases hu : taken.getLast? with
      | none => exact ⟨t, by simp [getLast?_cons, hu], by simp [Expr.span, hlast, hu]⟩
      | some u => exact ⟨u, by simp [getLast?_cons, hu], by simp [Expr.span, hlast, hu]⟩
  · obtain ⟨hspan, hchildren⟩ := span_of_atom? hatom
    subst h1
    refine ⟨[t], rfl, .enclose (inOrder_of_eq hord hts rfl) ?_ ⟨t, rfl, ?_⟩ ?_⟩
    · rw [hspan]
      rfl
    · rw [hspan]
      rfl
    · rw [hchildren]
      exact forall_mem_nil _

end

/-! ### Readers of what expressions stand in -/

/-- Does a reader extend an operand that was read before? -/
def extendsOperand : Reader → Bool
  | .binaryTail .. | .operandTail _ => true
  | _ => false

/-- Weaker contracts: all expressions that a reader gives are carried by the tokens. -/
def gathering (tokens : List Token) : Contracts where
  asked r ts := ts <:+ tokens ∧ extendsOperand r = false
  given r ts b left := left <:+ ts ∧ ∀ e ∈ r.exprs b, Carried tokens e

section

variable {r : Reader} {ts left : List Token}

theorem gathering_asked : (gathering tokens).asked r ts ↔ ts <:+ tokens ∧ extendsOperand r = false := Iff.rfl

theorem gathering_given {b : r.Out} :
    (gathering tokens).given r ts b left ↔ left <:+ ts ∧ ∀ e ∈ r.exprs b, Carried tokens e := Iff.rfl

theorem Laying.gathered {b : r.Out} (h : Laying tokens r ts b left) (hts : ts <:+ tokens)
    (hr : extendsOperand r = false) : left <:+ ts ∧ ∀ e ∈ r.exprs b, Carried tokens e := by
  cases r with
  | expr | ternary | binary | cast | unary | operand | primary =>
    obtain ⟨taken, rfl, he⟩ := h
    refine ⟨suffix_append taken left, forall_mem_singleton.2 ⟨taken, ?_, he⟩⟩
    exact (prefix_append taken left).isInfix.trans hts.isInfix
  | args | moreArgs =>
    obtain ⟨taken, rfl, hes⟩ := h
    refine ⟨suffix_append taken left, fun e he => ?_⟩
    obtain ⟨part, hpart, hlaid⟩ := hes e he
    exact ⟨part, (hpart.trans (prefix_append taken left).isInfix).trans hts.isInfix, hlaid⟩
  | strings =>
    obtain ⟨taken, rfl, -⟩ := h
    exact ⟨suffix_append taken left, forall_mem_nil _⟩
  | binaryTail | operandTail => cases hr
  | _ => exact h

@[grind! .]
theorem advance_suffix (ts : List Token) : advance ts <:+ ts := (passes_advance ts).suffix

end

/-- What holds under weaker contracts holds. -/
theorem Meets.of_gathering {α : Type} {s : Script α} {Q : α → List Token → Prop}
    (h : Meets (gathering tokens) s ts Q) : Meets (placing tokens) s ts Q := by
  induction s generalizing ts with
  | done a => exact h
  | fail e => trivial
  | look n next ih | take next ih => exact ih _ h
  | call r next ih =>
    obtain ⟨⟨hts, hr⟩, hnext⟩ := h
    exact ⟨hts, fun b left hb => ih b (hnext b left (hb.gathered hts hr))⟩

theorem exprs_globals (ds : List VarDecl) :
    (ds.map Item.global).flatMap Item.exprs = ds.flatMap VarDecl.exprs := by
  rw [flatMap_map]
  rfl

/-- Gathering lines under their cases brings in no expressions. -/
theorem exprsOfCases_group (lines : List CaseLine) :
    ∀ e ∈ Stmt.exprsOfCases (CaseLine.group lines), e ∈ lines.flatMap CaseLine.exprs := by
  suffices h : ∀ e ∈ Stmt.exprsIn (lines.foldr CaseLine.group.step ([], [])).1 ++
      Stmt.exprsOfCases (lines.foldr CaseLine.group.step ([], [])).2, e ∈ lines.flatMap CaseLine.exprs from
    fun e he => h e (mem_append_right _ he)
  induction lines with
  | nil => simp [Stmt.exprsIn, Stmt.exprsOfCases]
  | cons line lines ih =>
    rw [foldr_cons]
    cases line with
    | head location value =>
      simp only [CaseLine.group.step, Stmt.exprsIn, Stmt.exprsOfCases, flatMap_cons, CaseLine.exprs]
      grind
    | stmt s =>
      simp only [CaseLine.group.step, Stmt.exprsIn, flatMap_cons, CaseLine.exprs]
      grind

section

variable {ts : List Token} (hts : ts <:+ tokens)

include hts

theorem gathering_sizes :
    Meets (gathering tokens) (of .sizes) ts fun sizes left =>
      left <:+ ts ∧ ∀ e ∈ Reader.sizes.exprs sizes, Carried tokens e := by
  simp only [of, ask, meets_bind, meets_accept]
  refine ⟨fun _ => ⟨fun _ => ?_, fun _ => ?_⟩, fun _ => ?_⟩
  · simp only [meets_call, meets_done, meets_pure, gathering_asked, gathering_given, Reader.exprs, extendsOperand]
    grind
  · simp only [meets_call, meets_done, gathering_asked, gathering_given, extendsOperand]
    refine ⟨by grind, fun e left hleft => ?_⟩
    split
    · exact trivial
    · simp only [meets_bind, meets_call, meets_done, meets_pure, meets_require, gathering_asked, gathering_given,
        Reader.exprs, extendsOperand]
      grind
  · exact ⟨suffix_refl ts, forall_mem_nil _⟩

theorem gathering_stmt :
    Meets (gathering tokens) (of .stmt) ts fun s left => left <:+ ts ∧ ∀ e ∈ s.exprs, Carried tokens e := by
  simp only [of, ask, meets_bind, meets_peekAt, drop_zero]
  split
  all_goals
    simp only [meets_bind, meets_call, meets_done, meets_pure, meets_accept, meets_require,
      meets_requireName, meets_skip, gathering_asked, gathering_given, Reader.exprs, extendsOperand, Stmt.exprs,
      Stmt.exprsOf]
    grind [exprsOfCases_group]

theorem gathering_item : Meets (gathering tokens) (of .item) ts fun items left =>
      left <:+ ts ∧ ∀ e ∈ items.flatMap Item.exprs, Carried tokens e := by
  simp only [of, ask, meets_bind, meets_call, meets_done, meets_pure, meets_ite, meets_require, meets_skip,
    meets_peekAt, gathering_asked, gathering_given, extendsOperand, Reader.exprs, exprs_globals,
    flatMap_cons, flatMap_nil, append_nil]
  grind [Item.exprs]

end

theorem meets_placing (hord : InOrder tokens) (r : Reader) (hts : ts <:+ tokens) :
    Meets (placing tokens) (of r) ts (Laying tokens r ts) := by
  cases r with
  | strings content last => exact placing_strings hts content last
  | expr => exact placing_expr hord hts
  | ternary => exact placing_ternary hord hts
  | binary level => exact placing_binary hts level
  | binaryTail level l => exact placing_binaryTail hord hts level l
  | cast => exact placing_cast hord hts
  | unary => exact placing_unary hord hts
  | operand => exact placing_operand hts
  | operandTail e => exact placing_operandTail hord hts e
  | args => exact placing_args hts
  | moreArgs => exact placing_moreArgs hts
  | primary => exact placing_primary hord hts
  | stmt => exact .of_gathering (gathering_stmt hts)
  | sizes => exact .of_gathering (gathering_sizes hts)
  | item => exact .of_gathering (gathering_item hts)
  | _ =>
    refine .of_gathering ?_
    simp only [of, ask, meets_bind, meets_call, meets_done, meets_pure, meets_ite, meets_peekBodyEnd,
      meets_accept, meets_acceptAs, meets_require, meets_requireName, meets_skip, meets_peekAt, meets_reject,
      gathering_asked, gathering_given, extendsOperand, Laying, Reader.exprs, Initializer.exprs,
      Initializer.exprsIn, VarDecl.exprs, Stmt.exprs, Stmt.exprsIn, Stmt.exprsOf, CaseLine.exprs, Item.exprs,
      flatMap_cons, flatMap_nil, mem_append, Option.toList]
    grind

/-- What the library reads from what is left of some tokens is laid on them. -/
theorem laying_of_readerOf (hord : InOrder tokens) {r : Reader} {b : r.Out} (hts : ts <:+ tokens)
    (h : readerOf r ts = .ok (b, left)) : Laying tokens r ts b left := by
  obtain ⟨trace, out, hrun, -⟩ := exists_run r ts
  rw [readerOf_eq_eval, hrun.eval_eq] at h
  subst h
  exact hrun.given (fun r ts hts => meets_placing hord r hts) (meets_placing hord r hts)

end Script

/-! ### Positions in a text -/

/-- An expression on tokens that it was read from: it begins with one of them, ends with the last and not before
it begins, and all that is inside it lies within its span, on some of these tokens. -/
structure Expr.Spanned (e : Expr) (taken : List Token) : Prop where
  stands : e.StandsOn taken
  ordered : e.span.first.le e.span.last = true
  inside : ∀ d : Expr, d.Inside e →
    d.span.Within e.span ∧ d.span.first.le d.span.last = true ∧ ∃ part, part <:+: taken ∧ d.StandsOn part

theorem Expr.LaidOn.spanned {e : Expr} {taken : List Token} (h : e.LaidOn taken) (hord : InOrder taken) :
    e.Spanned taken where
  stands := h.stands
  ordered := h.first_le_last hord
  inside d hd := by
    obtain ⟨hwithin, part, hpart, hlaid⟩ := h.inside hd
    exact ⟨hwithin, hlaid.first_le_last (hord.sublist hpart.sublist), part, hpart, hlaid.stands⟩

/-- The expression that a reader of expressions gives. Those that extend an operand are left out, since it was read
before. -/
def Reader.expr? : (r : Reader) → r.Out → Option Expr
  | .expr, e | .ternary, e | .binary _, e | .cast, e | .unary, e | .operand, e | .primary, e => some e
  | _, _ => none

/-- Positions in a text are ordered and nested. No token ends before it begins, and none begins or ends
before an earlier one. The tokens are those of the lexemes of the text, one for each but the defined names,
and all tokens that a defined name stands for have the place of its use. An expression read from any of the
tokens begins with one that was taken for it and ends with the last one taken, and all that is inside it lies
within; and so do all expressions of the source unit that is read from the text. -/
theorem SourceUnit.positions_nested (source : String) (lexed : Lexed) (h : tokenize source = .ok lexed) :
    (∀ t ∈ lexed.tokens, t.location.le t.last = true) ∧
      lexed.tokens.Pairwise (fun t u => t.location.le u.location = true ∧ t.last.le u.last = true) ∧
      (∃ xs stop, Lexes [] source.toList .start xs stop ∧
        lexed.tokens = xs.flatMap Lexeme.tokens ++ [⟨.eof, stop, stop⟩] ∧
        lexed.expansions = xs.filterMap Lexeme.expansion? ∧
        ∀ x ∈ xs, (∀ t ∈ x.tokens, t.location = x.span.first ∧ t.last = x.span.last) ∧
          (x.expansion? = none → x.tokens = [⟨x.kind, x.span.first, x.span.last⟩])) ∧
      (∀ r ts b left e, ts <:+ lexed.tokens → readerOf r ts = .ok (b, left) → r.expr? b = some e →
        ∃ taken, ts = taken ++ left ∧ e.Spanned taken) ∧
      ∀ u, SourceUnit.ofText source = .ok u →
        ∀ e ∈ u.exprs, ∃ taken, taken <:+: lexed.tokens ∧ e.Spanned taken := by
  obtain ⟨xs, stop, hlexes, hlaid⟩ := tokenize_laid h
  have hord := hlaid.inOrder
  refine ⟨hord.ends, hord.steps, ⟨xs, stop, hlexes, hlaid.tokens, hlaid.expansions, fun x _ => ?_⟩, ?_, ?_⟩
  · exact ⟨fun t ht => Lexeme.place_of_mem_tokens ht, Lexeme.tokens_eq_singleton⟩
  · intro r ts b left e hts hread he
    have hlaying := Script.laying_of_readerOf hord hts hread
    cases r with
    | expr | ternary | binary | cast | unary | operand | primary =>
      cases he
      obtain ⟨taken, htaken, hlaid⟩ := hlaying
      exact ⟨taken, htaken, hlaid.spanned (Script.inOrder_of_eq hord hts htaken)⟩
    | _ => cases he
  · intro u hu e he
    rw [SourceUnit.ofText, h] at hu
    dsimp only at hu
    cases hitems : readItems lexed.tokens with
    | error err =>
      rw [hitems] at hu
      cases hu
    | ok items =>
      rw [hitems] at hu
      cases hu
      have hread : readerOf .items lexed.tokens = .ok (items, afterItems lexed.tokens) := by
        rw [readerOf, hitems]
        rfl
      have hlaying := Script.laying_of_readerOf hord (suffix_refl _) hread
      obtain ⟨taken, htaken, hlaid⟩ := hlaying.2 e he
      exact ⟨taken, htaken, hlaid.spanned (hord.sublist htaken.sublist)⟩

/-- A variable that starts with the negative of a defined name. The literal that the name stands for has its
place. -/
theorem SourceUnit.positions_nested_define :
    let source := "#define x 2\nint a = -x;"
    let lexed : Lexed := ⟨[⟨.keyword .int, ⟨2, 1⟩, ⟨2, 3⟩⟩, ⟨.ident "a", ⟨2, 5⟩, ⟨2, 5⟩⟩,
      ⟨.punct .eq, ⟨2, 7⟩, ⟨2, 7⟩⟩, ⟨.punct .minus, ⟨2, 9⟩, ⟨2, 9⟩⟩, ⟨.int 2, ⟨2, 10⟩, ⟨2, 10⟩⟩,
      ⟨.punct .semicolon, ⟨2, 11⟩, ⟨2, 11⟩⟩, ⟨.eof, ⟨2, 12⟩, ⟨2, 12⟩⟩], [⟨"x", ⟨2, 10⟩⟩]⟩
    let e : Expr := .unary ⟨⟨2, 9⟩, ⟨2, 10⟩⟩ .neg (.int ⟨⟨2, 10⟩, ⟨2, 10⟩⟩ 2)
    tokenize source = .ok lexed ∧
      SourceUnit.ofText source = .ok ⟨[.global ⟨"a", .int, some (.expr e), false, ⟨2, 5⟩⟩], [⟨"x", ⟨2, 10⟩⟩]⟩ ∧
      ∃ taken, taken <:+: lexed.tokens ∧ e.Spanned taken := by
  intro source lexed e
  have hlexed : tokenize source = .ok lexed := by cbv
  have hunit : SourceUnit.ofText source =
      .ok ⟨[.global ⟨"a", .int, some (.expr e), false, ⟨2, 5⟩⟩], [⟨"x", ⟨2, 10⟩⟩]⟩ := by cbv
  refine ⟨hlexed, hunit, ?_⟩
  exact (SourceUnit.positions_nested source lexed hlexed).2.2.2.2 _ hunit e mem_cons_self

end PathScout

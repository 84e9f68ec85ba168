import Mathlib.Tactic
import Mathlib.Data.Nat.Digits.Lemmas
import PathScout.Proofs.TokenPlaces

/-!
# Spelled tokens are read back

A token may be written in many ways: a number in two bases and with zeros in front, and between two tokens there
may be any blanks and comments. Whatever the choices are, the text is read as the tokens that were written.

* `Spelling`: how a token may be written. `Spacing`: what may stand between tokens.
* `Spelled`: a text that writes some tokens. `exists_spelling_iff`: which tokens can be written.
* `Spelling.readsAs`: a written token in front of a blank is read as itself, and nothing more is taken.
* `skipGap_spacing`: spacing is passed.
* `tokenize_spelled`: reading inverts writing.
-/

namespace PathScout

open List

variable {b c x : Char} {cs word gap text : List Char} {n : Nat} {k : TokenKind} {kinds : List TokenKind}

/-! ### Ways to write tokens -/

/-- The character is the digit of value `d` in a base, in lower or in upper case. -/
def IsDigit (base d : Nat) (c : Char) : Prop := d < base ∧ (c = d.digitChar ∨ c = d.digitChar.toUpper)

/-- The characters are the digits of a number, the highest one first. There may be zeros in front. -/
def Numeral (base n : Nat) (cs : List Char) : Prop :=
  ∃ ds, ds ≠ [] ∧ List.Forall₂ (IsDigit base) ds cs ∧ Nat.ofDigits base ds.reverse = n

/-- Letters, digits and underscores, without a digit in front. -/
def IsWord (cs : List Char) : Prop := cs.head?.any isWordStart = true ∧ cs.all isWordChar = true

/-- A word that is not reserved. -/
def IsIdentifier (cs : List Char) : Prop := IsWord cs ∧ Keyword.ofChars? cs = none

/-- A character inside a string literal: quotes, backslashes and line feeds are escaped. -/
def stringChar (c : Char) : List Char :=
  if c = '"' then ['\\', '"'] else if c = '\\' then ['\\', '\\'] else if c = '\n' then ['\\', 'n'] else [c]

/-- How a token may be written. -/
inductive Spelling : TokenKind → List Char → Prop
  | decimal {n : Nat} {cs : List Char} : n < 2 ^ 63 → Numeral 10 n cs → Spelling (.int n) cs
  | hexadecimal {n : Nat} {x : Char} {cs : List Char} : n < 2 ^ 63 → x = 'x' ∨ x = 'X' → Numeral 16 n cs →
      Spelling (.int n) ('0' :: x :: cs)
  | char {v : Int} {x y : Char} : -128 ≤ v → v < 128 → IsDigit 16 ((v % 256).toNat / 16) x →
      IsDigit 16 ((v % 256).toNat % 16) y → Spelling (.char v) ['\'', '\\', 'x', x, y, '\'']
  | string (content : String) : Spelling (.string content) ('"' :: content.toList.flatMap stringChar ++ ['"'])
  | ident {name : String} : IsIdentifier name.toList → Spelling (.ident name) name.toList
  | keyword (word : Keyword) : Spelling (.keyword word) word.chars
  | punct (mark : Punct) : Spelling (.punct mark) mark.chars

/-- The tokens that can be written: all but the end of the file, reserved words as names, and numbers and
characters out of their ranges. -/
def TokenKind.Writable : TokenKind → Prop
  | int n => 0 ≤ n ∧ n < 2 ^ 63
  | char v => -128 ≤ v ∧ v < 128
  | ident name => IsIdentifier name.toList
  | eof => False
  | _ => True

/-- What may stand between tokens: blanks and bracketed comments. -/
inductive Spacing : List Char → Prop
  | nil : Spacing []
  | blank {c : Char} {cs : List Char} : isBlank c = true → Spacing cs → Spacing (c :: cs)
  | comment {inner cs : List Char} : ¬['*', '/'] <:+: inner → Spacing cs →
      Spacing ('/' :: '*' :: inner ++ '*' :: '/' :: cs)

/-- A text that writes some tokens. After each of them there is a blank, and then any spacing. -/
inductive Spelled : List TokenKind → List Char → Prop
  | nil : Spelled [] []
  | cons {k : TokenKind} {ks : List TokenKind} {word gap text : List Char} {b : Char} : Spelling k word →
      isBlank b = true → Spacing gap → Spelled ks text → Spelled (k :: ks) (word ++ b :: gap ++ text)

/-! ### Digits -/

namespace IsDigit

variable {base d : Nat} {c : Char}

theorem hexDigit?_eq (h : IsDigit base d c) (hbase : base ≤ 16) : hexDigit? c = some d := by
  have hall : ∀ d < 16, hexDigit? d.digitChar = some d ∧ hexDigit? d.digitChar.toUpper = some d := by decide
  obtain ⟨hd, rfl | rfl⟩ := h
  · exact (hall d (by omega)).1
  · exact (hall d (by omega)).2

theorem isHexDigit_eq (h : IsDigit base d c) (hbase : base ≤ 16) : isHexDigit c = true := by
  rw [isHexDigit, h.hexDigit?_eq hbase]
  rfl

theorem isDigit_eq (h : IsDigit 10 d c) : c.isDigit = true := by
  have hall : ∀ d < 10, d.digitChar.isDigit = true ∧ d.digitChar.toUpper.isDigit = true := by decide
  obtain ⟨hd, rfl | rfl⟩ := h
  · exact (hall d hd).1
  · exact (hall d hd).2

end IsDigit

namespace Numeral

variable {base n : Nat} {cs : List Char} {c : Char}

/-- Every number has digits in every base. -/
theorem exists_numeral (hbase : 1 < base) (n : Nat) : ∃ cs, Numeral base n cs := by
  have hdigits : ∀ ds : List Nat, (∀ d ∈ ds, d < base) →
      List.Forall₂ (IsDigit base) ds (ds.map Nat.digitChar) := fun ds hds =>
    forall₂_map_right_iff.2 (forall₂_same.2 fun d hd => ⟨hds d hd, .inl rfl⟩)
  by_cases hn : n = 0
  · exact ⟨_, [0], by simp, hdigits [0] (by simp; omega), by simp [hn]⟩
  · refine ⟨_, (Nat.digits base n).reverse, ?_, hdigits _ fun d hd => ?_, ?_⟩
    · simpa [Nat.digits_eq_nil_iff_eq_zero] using hn
    · exact Nat.digits_lt_base hbase (mem_reverse.1 hd)
    · rw [reverse_reverse, Nat.ofDigits_digits]

theorem ne_nil (h : Numeral base n cs) : cs ≠ [] := by
  obtain ⟨ds, hne, hdigits, -⟩ := h
  rintro rfl
  exact hne (forall₂_nil_right_iff.1 hdigits)

theorem isDigit_of_mem (h : Numeral base n cs) (hc : c ∈ cs) : ∃ d, IsDigit base d c := by
  obtain ⟨ds, -, hdigits, -⟩ := h
  induction hdigits with
  | nil => cases hc
  | @cons d _ _ _ hd _ ih =>
    rcases mem_cons.1 hc with rfl | hc
    · exact ⟨d, hd⟩
    · exact ih hc

/-- The lexer adds up the digits to the number. -/
theorem integerLiteral_eq (h : Numeral base n cs) (hbase : base ≤ 16) (hn : n < 2 ^ 63) :
    integerLiteral base cs = .ok n := by
  have hne := h.ne_nil
  obtain ⟨ds, -, hdigits, rfl⟩ := h
  have hvalues : cs.map (fun c => (hexDigit? c).getD 0) = ds := by
    clear hne hn
    induction hdigits with
    | nil => rfl
    | cons hd _ ih => rw [map_cons, ih, hd.hexDigit?_eq hbase, Option.getD_some]
  have hsum : cs.foldl (fun n c => base * n + (hexDigit? c).getD 0) 0 = Nat.ofDigits base ds.reverse := by
    rw [Nat.ofDigits_eq_foldr, foldr_reverse, ← hvalues, foldl_map]
    simp only [Nat.cast_id, Nat.add_comm]
  have hfits : ¬(cs.isEmpty = true ∨ 0x8000000000000000 ≤ Nat.ofDigits base ds.reverse) :=
    fun h => h.elim (fun h => hne (isEmpty_iff.1 h)) (Nat.not_le_of_lt hn)
  rw [integerLiteral, hsum, if_neg hfits]

end Numeral

/-! ### Literals -/

section

variable {b c x : Char} {more cs content : List Char} {n : Nat}

theorem takeWhile_blank {p : Char → Bool} (hcs : ∀ c ∈ cs, p c = true) (hb : p b = false) :
    (cs ++ b :: more).takeWhile p = cs := by
  rw [takeWhile_append_of_pos hcs, takeWhile_cons, hb]
  exact append_nil cs

theorem isBlank_iff : isBlank c = true ↔ c = ' ' ∨ c = '\t' ∨ c = '\r' ∨ c = '\n' := by
  simp [isBlank, or_assoc]

/-- A blank ends every number and every word. -/
theorem stops_of_isBlank (hb : isBlank b = true) :
    b.isDigit = false ∧ isHexDigit b = false ∧ isWordChar b = false := by
  rcases isBlank_iff.1 hb with rfl | rfl | rfl | rfl <;> decide

theorem stringBody_escape {e : Char} (he : escape (e :: cs) = .ok (c, 1))
    (h : stringBody cs = .ok (content, n)) :
    stringBody ('\\' :: e :: cs) = .ok (c :: content, n + 2) := by
  rw [stringBody, he]
  show (stringBody cs >>= fun r => pure (c :: r.1, r.2 + 1 + 1)) = _
  rw [h]
  rfl

attribute [local simp] escape stringBody charBody numberBody

/-- One character of a string literal is read. -/
theorem stringBody_stringChar (c : Char) (h : stringBody cs = .ok (content, n)) :
    stringBody (stringChar c ++ cs) = .ok (c :: content, n + (stringChar c).length) := by
  unfold stringChar
  split_ifs with hquote hback hline
  · subst hquote
    exact stringBody_escape rfl h
  · subst hback
    exact stringBody_escape rfl h
  · subst hline
    exact stringBody_escape rfl h
  · rw [singleton_append, stringBody, h]
    · rfl
    · exact hquote
    · exact hline
    · exact hback

theorem stringBody_content (content : List Char) :
    stringBody (content.flatMap stringChar ++ '"' :: more) =
      .ok (content, (content.flatMap stringChar).length + 1) := by
  induction content with
  | nil =>
    rw [flatMap_nil, nil_append, stringBody]
    rfl
  | cons c content ih =>
    rw [flatMap_cons, append_assoc, stringBody_stringChar c ih, length_append]
    congr 2
    omega

theorem charBody_hex {hi lo : Nat} {y : Char} (hx : IsDigit 16 hi x) (hy : IsDigit 16 lo y) :
    charBody ('\\' :: 'x' :: x :: y :: '\'' :: more) = .ok (Char.ofNat (16 * hi + lo), 5) := by
  have hdigits : [x, y].takeWhile isHexDigit = [x, y] := by
    simp [List.takeWhile, hx.isHexDigit_eq, hy.isHexDigit_eq]
  have hescape : escape ('x' :: x :: y :: '\'' :: more) = .ok (Char.ofNat (16 * hi + lo), 3) := by
    simp [escape, hdigits, hx.hexDigit?_eq, hy.hexDigit?_eq]
  rw [charBody, if_pos rfl, hescape]
  rfl

theorem numberBody_decimal (h : Numeral 10 n (c :: cs)) (hn : n < 2 ^ 63) (hb : isBlank b = true) :
    numberBody c (cs ++ b :: more) = .ok ((n : Int), cs.length) := by
  have hdigits : ∀ d ∈ cs, d.isDigit = true := fun d hd =>
    (h.isDigit_of_mem (mem_cons_of_mem _ hd)).choose_spec.isDigit_eq
  have hmarker : ∀ d ∈ (cs ++ b :: more).head?, d ≠ 'x' ∧ d ≠ 'X' := by
    cases cs with
    | nil =>
      rintro d ⟨⟩
      rcases isBlank_iff.1 hb with rfl | rfl | rfl | rfl <;> decide
    | cons d cs =>
      rintro d' ⟨⟩
      have hd := hdigits d mem_cons_self
      constructor <;> (rintro rfl; revert hd; decide)
  have hliteral := h.integerLiteral_eq (by omega) hn
  cases hcs : cs ++ b :: more with
  | nil => simp at hcs
  | cons d ds =>
    obtain ⟨hx, hX⟩ := hmarker d (by rw [hcs]; rfl)
    have hplain : ¬((c == '0' && (d == 'x' || d == 'X')) = true) := by simp [hx, hX]
    rw [numberBody]
    simp only [hplain]
    rw [← hcs, takeWhile_blank hdigits (stops_of_isBlank hb).1, hliteral]
    rfl

theorem numberBody_hexadecimal (hx : x = 'x' ∨ x = 'X') (h : Numeral 16 n cs) (hn : n < 2 ^ 63)
    (hb : isBlank b = true) :
    numberBody '0' (x :: cs ++ b :: more) = .ok ((n : Int), cs.length + 1) := by
  have hdigits : ∀ d ∈ cs, isHexDigit d = true := fun d hd =>
    (h.isDigit_of_mem hd).choose_spec.isHexDigit_eq le_rfl
  have hmarker : ('0' == '0' && (x == 'x' || x == 'X')) = true := by simpa using hx
  rw [cons_append, numberBody]
  simp only [hmarker, if_true, drop_succ_cons, drop_zero]
  rw [takeWhile_blank hdigits (stops_of_isBlank hb).2.1, h.integerLiteral_eq le_rfl hn]
  rfl

end

/-! ### Words -/

theorem Keyword.ofChars?_chars (k : Keyword) : Keyword.ofChars? k.chars = some k := by
  cases k <;> decide

theorem Punct.ofHead?_chars (p : Punct) : Punct.ofHead? p.chars = some p := by
  cases p <;> decide

/-- What does not contain a character begins a text only in front of it. -/
theorem prefix_append_cons_iff {α : Type} {b : α} {xs ys more : List α} (hb : b ∉ xs) :
    xs <+: ys ++ b :: more ↔ xs <+: ys := by
  refine ⟨fun h => ?_, fun h => h.trans (prefix_append ys _)⟩
  obtain hxy | ⟨zs, rfl⟩ := prefix_or_prefix_of_prefix h (prefix_append ys (b :: more))
  · exact hxy
  · cases zs with
    | nil => simp
    | cons z zs =>
      have hz : z = b := (cons_prefix_cons.1 ((prefix_append_right_inj ys).1 h)).1
      exact absurd (by simp [hz]) hb

/-- No punctuator runs over a blank. -/
theorem Punct.ofHead?_blank (hb : isBlank b = true) (cs more : List Char) :
    Punct.ofHead? (cs ++ b :: more) = Punct.ofHead? cs := by
  have hnone : ∀ p : Punct, p.chars.any isBlank = false := fun p => by cases p <;> rfl
  refine find?_congr fun p _ => Bool.eq_iff_iff.2 ?_
  rw [ isPrefixOf_iff_prefix, isPrefixOf_iff_prefix]
  exact prefix_append_cons_iff fun h => any_eq_false.1 (hnone p) b h hb

/-- A text that begins with a character of a token: no directive and no gap begins there. -/
structure StartsToken (word : List Char) : Prop where
  head : ∃ c cs, word = c :: cs ∧ c ≠ '#' ∧ isBlank c = false
  line : ¬['/', '/'] <+: word
  block : ¬['/', '*'] <+: word

theorem StartsToken.of_ne (hhash : c ≠ '#') (hslash : c ≠ '/') (hb : isBlank c = false) :
    StartsToken (c :: cs) where
  head := ⟨c, cs, rfl, hhash, hb⟩
  line h := hslash (cons_prefix_cons.1 h).1.symm
  block h := hslash (cons_prefix_cons.1 h).1.symm

theorem StartsToken.of_class {p : Char → Bool} (hc : p c = true) (hhash : p '#' = false)
    (hslash : p '/' = false) (hblank : ∀ b, isBlank b = true → p b = false) : StartsToken (c :: cs) := by
  refine .of_ne (ne_of_apply_ne p ?_) (ne_of_apply_ne p ?_) (Bool.eq_false_iff.2 fun hb => ?_)
  · rw [hc, hhash]
    decide
  · rw [hc, hslash]
    decide
  · rw [hblank c hb] at hc
    cases hc

theorem StartsToken.punct (p : Punct) : StartsToken p.chars := by
  cases p <;> exact ⟨⟨_, _, rfl, by decide, by decide⟩, by decide, by decide⟩

theorem isDigit_of_isWordStart (hc : isWordStart c = true) : c.isDigit = false := by
  refine Bool.eq_false_iff.2 fun hd => ?_
  change (decide (c.val ≥ 65 ∧ c.val ≤ 90) || (decide (c.val ≥ 97) && decide (c.val ≤ 122)) || c == '_') = true
    at hc
  change (decide (c.val ≥ 48) && decide (c.val ≤ 57)) = true at hd
  simp only [Bool.or_eq_true, Bool.and_eq_true, decide_eq_true_eq, beq_iff_eq, UInt32.le_iff_toNat_le, ge_iff_le]
    at hc hd
  rcases hc with hc | rfl
  · change (65 ≤ c.val.toNat ∧ c.val.toNat ≤ 90) ∨ (97 ≤ c.val.toNat ∧ c.val.toNat ≤ 122) at hc
    change 48 ≤ c.val.toNat ∧ c.val.toNat ≤ 57 at hd
    omega
  · revert hd
    decide

/-! ### One token -/

/-- The word starts a token, and in front of a blank it is read as the token and nothing more is taken. -/
def ReadsAs (word : List Char) (k : TokenKind) : Prop :=
  StartsToken word ∧ ∀ b more, isBlank b = true →
    ∃ c cs, word = c :: cs ∧ lexeme c (cs ++ b :: more) = .ok (k, cs.length)

theorem Numeral.readsAs (h : Numeral 10 n cs) (hn : n < 2 ^ 63) : ReadsAs cs (.int n) := by
  cases cs with
  | nil => exact absurd rfl h.ne_nil
  | cons c cs =>
    have hc : c.isDigit = true := (h.isDigit_of_mem mem_cons_self).choose_spec.isDigit_eq
    have hdouble : c ≠ '"' := ne_of_apply_ne Char.isDigit (by rw [hc]; decide)
    have hsingle : c ≠ '\'' := ne_of_apply_ne Char.isDigit (by rw [hc]; decide)
    refine ⟨.of_class hc (by decide) (by decide) fun b hb => (stops_of_isBlank hb).1, fun b more hb =>
      ⟨c, cs, rfl, ?_⟩⟩
    rw [lexeme, if_neg hdouble, if_neg hsingle, if_pos hc, numberBody_decimal h hn hb]
    rfl

theorem Numeral.readsAs_hexadecimal (h : Numeral 16 n cs) (hn : n < 2 ^ 63) (hx : x = 'x' ∨ x = 'X') :
    ReadsAs ('0' :: x :: cs) (.int n) := by
  refine ⟨.of_ne (by decide) (by decide) (by decide), fun b more hb => ⟨'0', x :: cs, rfl, ?_⟩⟩
  rw [lexeme, if_neg (by decide), if_neg (by decide), if_pos (by decide), numberBody_hexadecimal hx h hn hb]
  rfl

theorem readsAs_char {v : Int} {y : Char} (hlo : -128 ≤ v) (hhi : v < 128)
    (hx : IsDigit 16 ((v % 256).toNat / 16) x) (hy : IsDigit 16 ((v % 256).toNat % 16) y) :
    ReadsAs ['\'', '\\', 'x', x, y, '\''] (.char v) := by
  refine ⟨.of_ne (by decide) (by decide) (by decide), fun b more hb =>
    ⟨'\'', ['\\', 'x', x, y, '\''], rfl, ?_⟩⟩
  have hbyte : (Char.ofNat (16 * ((v % 256).toNat / 16) + (v % 256).toNat % 16)).toNat = (v % 256).toNat := by
    rw [Nat.div_add_mod, Char.ofNat, dif_pos (.inl (by omega))]
    rfl
  have hvalue : Int.bmod ((v % 256).toNat : Int) 256 = v := by
    rw [Int.bmod_def]
    omega
  rw [lexeme, if_neg (by decide), if_pos rfl]
  show (charBody ('\\' :: 'x' :: x :: y :: '\'' :: b :: more) >>= _) = _
  rw [charBody_hex hx hy]
  show Except.ok (TokenKind.char _, 5) = _
  rw [hbyte, hvalue]
  rfl

theorem readsAs_string (content : String) :
    ReadsAs ('"' :: content.toList.flatMap stringChar ++ ['"']) (.string content) := by
  refine ⟨.of_ne (by decide) (by decide) (by decide), fun b more hb => ⟨'"', _, cons_append, ?_⟩⟩
  rw [lexeme, if_pos rfl, append_assoc, singleton_append, stringBody_content]
  show Except.ok (TokenKind.string (String.ofList content.toList), _) = _
  rw [String.ofList_toList, length_append]
  rfl

theorem IsWord.readsAs (h : IsWord word) : ReadsAs word (wordKind word) := by
  obtain ⟨hhead, hall⟩ := h
  cases word with
  | nil => cases hhead
  | cons c cs =>
    have hc : isWordStart c = true := by simpa using hhead
    have hcs : ∀ d ∈ cs, isWordChar d = true := by
      rw [all_cons, Bool.and_eq_true] at hall
      exact all_eq_true.1 hall.2
    have hdouble : c ≠ '"' := ne_of_apply_ne isWordStart (by rw [hc]; decide)
    have hsingle : c ≠ '\'' := ne_of_apply_ne isWordStart (by rw [hc]; decide)
    have hdigit : ¬c.isDigit = true := by rw [isDigit_of_isWordStart hc]; exact Bool.false_ne_true
    refine ⟨.of_class hc (by decide) (by decide) fun b hb => ?_, fun b more hb => ⟨c, cs, rfl, ?_⟩⟩
    · rcases isBlank_iff.1 hb with rfl | rfl | rfl | rfl <;> decide
    · rw [lexeme, if_neg hdouble, if_neg hsingle, if_neg hdigit, if_pos hc,
        takeWhile_blank hcs (stops_of_isBlank hb).2.2]
      rfl

theorem IsIdentifier.wordKind_eq (h : IsIdentifier cs) : wordKind cs = .ident (String.ofList cs) := by
  rw [wordKind, h.2]

theorem Keyword.isWord_chars (k : Keyword) : IsWord k.chars := by
  cases k <;> exact ⟨by decide, by decide⟩

theorem Keyword.wordKind_chars (k : Keyword) : wordKind k.chars = .keyword k := by
  rw [wordKind, Keyword.ofChars?_chars]

/-- No punctuator begins like another kind of token. -/
theorem Punct.head_chars (p : Punct) (hp : p.chars = c :: cs) :
    c ≠ '"' ∧ c ≠ '\'' ∧ c.isDigit = false ∧ isWordStart c = false := by
  cases p <;> cases hp <;> decide

theorem Punct.readsAs (p : Punct) : ReadsAs p.chars (.punct p) := by
  refine ⟨StartsToken.punct p, fun b more hb => ?_⟩
  obtain ⟨c, cs, hp, -⟩ := (StartsToken.punct p).head
  obtain ⟨hdouble, hsingle, hdigit, hword⟩ := p.head_chars hp
  have hhead : Punct.ofHead? (c :: (cs ++ b :: more)) = some p := by
    rw [← cons_append, Punct.ofHead?_blank hb, ← hp, Punct.ofHead?_chars]
  refine ⟨c, cs, hp, ?_⟩
  rw [lexeme, if_neg hdouble, if_neg hsingle, if_neg (by simp [hdigit]), if_neg (by simp [hword]), hhead]
  show Except.ok (TokenKind.punct p, p.chars.length - 1) = _
  rw [hp]
  rfl

/-- Every spelling of a token is read as the token. -/
theorem Spelling.readsAs (h : Spelling k word) : ReadsAs word k := by
  cases h with
  | decimal hn hcs => exact hcs.readsAs hn
  | hexadecimal hn hx hcs => exact hcs.readsAs_hexadecimal hn hx
  | char hlo hhi hx hy => exact readsAs_char hlo hhi hx hy
  | string content => exact readsAs_string content
  | ident hname =>
    have hword := hname.1.readsAs
    rwa [hname.wordKind_eq, String.ofList_toList] at hword
  | keyword word => exact word.wordKind_chars ▸ word.isWord_chars.readsAs
  | punct mark => exact mark.readsAs

/-! ### Gaps -/

attribute [local simp] skipGap

/-- A comment is passed up to where it is closed first. -/
theorem skipGap_comment {inner : List Char} (since : Location) (rest : List Char) (l : Location)
    (h : ¬['*', '/'] <:+: inner) :
    skipGap (.block since) (inner ++ '*' :: '/' :: rest) l =
      skipGap .blank rest (l.stepAll (inner ++ ['*', '/'])) := by
  induction inner generalizing l with
  | nil => rw [nil_append, skipGap]; rfl
  | cons c inner ih =>
    rw [infix_cons_iff, not_or] at h
    rw [cons_append, skipGap, ih _ h.2]
    · rfl
    · rintro cs rfl hcs
      refine h.1 ?_
      cases inner with
      | nil => simp at hcs
      | cons d inner =>
        rw [(cons.inj hcs).1]
        simp

/-- Spacing is passed, whatever comes after it. -/
theorem skipGap_spacing (h : Spacing gap) (rest : List Char) (l : Location) :
    skipGap .blank (gap ++ rest) l = skipGap .blank rest (l.stepAll gap) := by
  induction h generalizing l with
  | nil => rfl
  | @blank c cs hc _ ih =>
    have hslash : c ≠ '/' := by
      rintro rfl
      cases hc
    rw [cons_append, skipGap, if_pos hc, ih]
    · rfl
    · exact fun _ h => absurd h hslash
    · exact fun _ h => absurd h hslash
  | @comment inner cs hinner _ ih =>
    have hassoc : '/' :: '*' :: inner ++ '*' :: '/' :: cs ++ rest =
        '/' :: '*' :: (inner ++ '*' :: '/' :: (cs ++ rest)) := by simp
    rw [hassoc, skipGap, skipGap_comment _ _ _ hinner, ih]
    congr 1
    simp [Location.stepAll]

/-- No gap stands in front of a token. -/
theorem skipGap_startsToken (h : StartsToken word) (hb : isBlank b = true) (more : List Char)
    (l : Location) : skipGap .blank (word ++ b :: more) l = .ok ⟨word ++ b :: more, l⟩ := by
  have hstarts : ∀ d ∈ ['/', '*'], ¬['/', d] <+: word ++ b :: more := fun d hd => by
    have hblank : b ∉ ['/', d] := by
      rcases mem_pair.1 hd with rfl | rfl <;> rcases isBlank_iff.1 hb with rfl | rfl | rfl | rfl <;> decide
    rw [prefix_append_cons_iff hblank]
    rcases mem_pair.1 hd with rfl | rfl
    · exact h.line
    · exact h.block
  obtain ⟨c, cs, rfl, -, hc⟩ := h.head
  rw [cons_append] at hstarts ⊢
  rw [skipGap, if_neg (by rw [hc]; exact Bool.false_ne_true)]
  · rintro ds rfl hds
    exact hstarts '/' (by decide) ⟨ds, by rw [hds]; rfl⟩
  · rintro ds rfl hds
    exact hstarts '*' (by decide) ⟨ds, by rw [hds]; rfl⟩

/-! ### The whole text -/

section

variable {defs : Definitions} {c : Char} {cs rest : List Char} {l pos : Location} {kind : TokenKind} {n : Nat}
  {out : Lexed}

theorem tokenizeFrom_end (hgap : skipGap .blank cs l = .ok ⟨[], pos⟩) :
    tokenizeFrom defs cs l = .ok ⟨[⟨.eof, pos, pos⟩], []⟩ := by
  rw [tokenizeFrom]
  split <;> simp_all

theorem tokenizeFrom_lexeme (hgap : skipGap .blank cs l = .ok ⟨c :: rest, pos⟩) (hc : c ≠ '#')
    (hkind : defs.names kind = none) (hlexeme : lexeme c rest = .ok (kind, n))
    (hmore : tokenizeFrom defs (rest.drop n) (pos.stepAll (c :: rest.take n)) = .ok out) :
    tokenizeFrom defs cs l =
      .ok ⟨⟨kind, pos, (pos.stepAll (c :: rest.take n)).lastBefore⟩ :: out.tokens, out.expansions⟩ := by
  rw [tokenizeFrom]
  split
  · simp_all
  · simp_all
  · next heq =>
    obtain ⟨⟨rfl, rfl⟩, rfl⟩ := by simpa [hgap] using heq
    rw [if_neg hc, hlexeme]
    simp only [hmore, hkind, Definitions.expand_of_names_eq_none hkind]
    rfl

end

/-- What is written after some spacing is read back. -/
theorem tokenizeFrom_spelled (h : Spelled kinds text) (hgap : Spacing gap) (l : Location) :
    ∃ lexed, tokenizeFrom [] (gap ++ text) l = .ok lexed ∧
      lexed.tokens.map Token.kind = kinds ++ [.eof] ∧ lexed.expansions = [] := by
  induction h generalizing gap l with
  | nil => exact ⟨_, tokenizeFrom_end (skipGap_spacing hgap [] l), rfl, rfl⟩
  | @cons k ks word gap' text b hspell hb hgap' _ ih =>
    obtain ⟨hstarts, hreads⟩ := hspell.readsAs
    obtain ⟨c, cs, rfl, hlexeme⟩ := hreads b (gap' ++ text) hb
    have hc : c ≠ '#' := by
      obtain ⟨_, _, ⟨rfl, rfl⟩, hhash, -⟩ := hstarts.head
      exact hhash
    have hfree : Definitions.names [] k = none := by cases k <;> rfl
    obtain ⟨out, hout, hkinds, hexpansions⟩ := ih (.blank hb hgap') (l.stepAll gap |>.stepAll (c :: cs))
    have hskip : skipGap .blank (gap ++ (c :: cs ++ b :: gap' ++ text)) l =
        .ok ⟨c :: (cs ++ b :: (gap' ++ text)), l.stepAll gap⟩ := by
      rw [skipGap_spacing hgap, append_assoc]
      exact skipGap_startsToken hstarts hb _ _
    have hmore : tokenizeFrom [] ((cs ++ b :: (gap' ++ text)).drop cs.length)
        ((l.stepAll gap).stepAll (c :: (cs ++ b :: (gap' ++ text)).take cs.length)) = .ok out := by
      simpa using hout
    exact ⟨_, tokenizeFrom_lexeme hskip hc hfree hlexeme hmore, by simpa using hkinds, hexpansions⟩

/-- The tokens that have a spelling are those that can be written. -/
theorem exists_spelling_iff : (∃ word, Spelling k word) ↔ k.Writable := by
  constructor
  · rintro ⟨word, h⟩
    cases h with
    | decimal hn | hexadecimal hn => exact ⟨Int.natCast_nonneg _, by exact_mod_cast hn⟩
    | char hlo hhi => exact ⟨hlo, hhi⟩
    | ident hname => exact hname
    | string | keyword | punct => trivial
  · intro h
    cases k with
    | int n =>
      obtain ⟨hn, hlt⟩ := h
      lift n to Nat using hn
      obtain ⟨cs, hcs⟩ : ∃ cs, Numeral 10 n cs := Numeral.exists_numeral (by decide) n
      exact ⟨cs, .decimal (by exact_mod_cast hlt) hcs⟩
    | char v =>
      obtain ⟨hlo, hhi⟩ := h
      exact ⟨_, .char hlo hhi ⟨by omega, .inl rfl⟩ ⟨by omega, .inl rfl⟩⟩
    | string content => exact ⟨_, .string content⟩
    | ident name => exact ⟨_, .ident h⟩
    | keyword word => exact ⟨_, .keyword word⟩
    | punct mark => exact ⟨_, .punct mark⟩
    | eof => cases h

theorem exists_spelled (h : ∀ k ∈ kinds, k.Writable) : ∃ text, Spelled kinds text := by
  induction kinds with
  | nil => exact ⟨[], .nil⟩
  | cons k ks ih =>
    obtain ⟨hk, hks⟩ := forall_mem_cons.1 h
    obtain ⟨word, hword⟩ := exists_spelling_iff.2 hk
    obtain ⟨text, htext⟩ := ih hks
    exact ⟨_, .cons hword (b := ' ') rfl .nil htext⟩

/-- **Reading inverts writing.** Tokens can be written, unless they are the end of the file or out of range. However
they are written, with blanks and comments between them, the text is read as these tokens and the end of the
file, and uses no defined name. -/
theorem tokenize_spelled {kinds : List TokenKind} (h : ∀ k ∈ kinds, k.Writable) :
    (∃ source : String, Spelled kinds source.toList) ∧
      ∀ source : String, Spelled kinds source.toList →
        ∃ lexed, tokenize source = .ok lexed ∧ lexed.tokens.map Token.kind = kinds ++ [.eof] ∧
          lexed.expansions = [] := by
  refine ⟨?_, fun source hsource => tokenizeFrom_spelled hsource .nil .start⟩
  obtain ⟨text, htext⟩ := exists_spelled h
  exact ⟨String.ofList text, by rwa [String.toList_ofList]⟩

/-- An assignment with a shift, a number in base sixteen, and a character after a comment. -/
theorem tokenize_spelled_assignment :
    let kinds : List TokenKind := [.ident "n", .punct .shlEq, .int 26, .char (-1)]
    let source := String.ofList ['n', ' ', '<', '<', '=', '\t', '0', 'x', '1', 'A', ' ', '/', '*', '*', '*', '/',
      '\'', '\\', 'x', 'f', 'F', '\'', '\n']
    (∀ k ∈ kinds, k.Writable) ∧ Spelled kinds source.toList ∧
      ∃ lexed, tokenize source = .ok lexed ∧ lexed.tokens.map Token.kind = kinds ++ [.eof] := by
  intro kinds source
  have hn : IsIdentifier ['n'] := ⟨⟨by decide, by decide⟩, by decide⟩
  have hwritable : ∀ k ∈ kinds, k.Writable := by
    simp [kinds, TokenKind.Writable, hn]
  have hnumber : Numeral 16 26 ['1', 'A'] :=
    ⟨[1, 10], by decide, .cons ⟨by decide, .inl rfl⟩ (.cons ⟨by decide, .inr rfl⟩ .nil), by decide⟩
  have hinner : ¬['*', '/'] <:+: ['*'] := by decide
  have hcomment : Spacing ['/', '*', '*', '*', '/'] := .comment hinner .nil
  have hwritten : Spelled kinds source.toList := by
    rw [String.toList_ofList]
    have hname : Spelling (.ident "n") ['n'] := .ident hn
    have hshift : Spelling (.punct .shlEq) ['<', '<', '='] := .punct .shlEq
    have hint : Spelling (.int 26) ['0', 'x', '1', 'A'] := .hexadecimal (by decide) (.inl rfl) hnumber
    have hchar : Spelling (.char (-1)) ['\'', '\\', 'x', 'f', 'F', '\''] :=
      .char (by decide) (by decide) ⟨by decide, .inl rfl⟩ ⟨by decide, .inr rfl⟩
    exact .cons hname rfl .nil (.cons hshift rfl .nil (.cons hint rfl hcomment (.cons hchar rfl .nil .nil)))
  obtain ⟨lexed, hlexed, hkinds, -⟩ := (tokenize_spelled hwritable).2 source hwritten
  exact ⟨hwritable, hwritten, lexed, hlexed, hkinds⟩

end PathScout
